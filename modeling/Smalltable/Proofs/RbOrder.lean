import Smalltable.Proofs.RbErase

/-!
# `rb_first`, `rb_last`, `rb_next`, `rb_prev`

The outermost node on a side is the first one in the other direction
(`outermost_spec`). The neighbour of a node is the outermost one in its child on
that side, or the first of the nodes above it that is further on
(`ascend_spec`); in both cases it is the next one in that direction
(`neighbour_spec`).

These are the walks by which a configuration is printed and freed. They read parents and
children and need nothing of the colours, and of the balance only that the way up ends
within the rounds.
-/

namespace Smalltable.Proofs.Rb

open Smalltable.Ref.Rb ColoredTree

section Order

variable {m : RbMemory} {s : Side} {c : Color} {h : Nat} {t u : ColoredTree Addr} {p : Addr}
  {ctx : List (Frame Addr)} {rounds : Nat}

/-- The first of a list of nodes, or `NULL`. -/
def firstOf (l : List Addr) : Addr := l.head?.getD null

theorem firstOf_append {l : List Addr} (hne : l ≠ []) (l' : List Addr) :
    firstOf (l ++ l') = firstOf l := by
  cases l with
  | nil => exact absurd rfl hne
  | cons p l => rfl

theorem order_ne_nil (s : Side) (ht : t ≠ .nil) : order s t.toList ≠ [] := by
  have hne := List.ne_nil_of_mem (ptr_mem ht)
  cases s with
  | left => exact mt List.reverse_eq_nil_iff.mp hne
  | right => exact hne

theorem descend_first {k : Nat} (hne : t ≠ .nil) (hold : Holds m (plug ctx t))
    (hk : WaysUpTo k (plug ctx t)) (hlen : k < rounds) :
    descend s rounds (ptr t) m = some (firstOf (order s.other t.toList)) := by
  obtain ⟨side, c, x, u, rfl, hside⟩ := exists_outermost s hne
  have hway := hk.add_length_le
  rw [descend_spec hside (by omega) hold, order_outermost hside, ← join_other, order_join, toList,
    order_nil]
  rfl

theorem ascend_spec (hne : t ≠ .nil) (hold : Holds m (plug ctx t)) (hlen : ctx.length < rounds) :
    ascend s rounds (ptr t) m = some (firstOf (ahead s ctx)) := by
  induction ctx generalizing t rounds with
  | nil =>
      obtain ⟨rounds, rfl⟩ : ∃ k, rounds = k + 1 := ⟨rounds - 1, by omega⟩
      obtain ⟨c, l, p, r, rfl⟩ : ∃ c l p r, t = join .left c l p r := by
        cases t with
        | nil => exact absurd rfl hne
        | node c l p r => exact ⟨c, l, p, r, rfl⟩
      have hread := hold.reads
      rw [ptr_join, ahead_nil]
      simp only [ascend, hread.node, Option.bind_eq_bind, Option.bind_some, hread.parent]
      exact if_pos rfl
  | cons f ctx ih =>
      rw [List.length_cons] at hlen
      obtain ⟨rounds, rfl⟩ : ∃ k, rounds = k + 1 := ⟨rounds - 1, by omega⟩
      obtain ⟨sf, cf, q, sib⟩ := f
      have hup : Holds m (plug ctx (join sf cf t q sib)) := hold
      have hparent : ∃ n, m.node (ptr t) = some n ∧ rbParent n = q := by
        cases t with
        | nil => exact absurd rfl hne
        | node c l p r =>
            have hread := Holds.reads (s := .left) hold
            exact ⟨_, hread.node, hread.parent⟩
      obtain ⟨n, hn, hparent⟩ := hparent
      have hread := hup.reads
      have hnull : q ≠ null := (hold.aligned q mem_plug_self).1
      simp only [ascend, hn, Option.bind_eq_bind, Option.bind_some, hparent, if_neg hnull,
        hread.node]
      rcases Side.eq_or_other s sf with rfl | rfl
      · have hrest : ascend sf rounds q m = some (firstOf (ahead sf ctx)) := by
          have hup' := ih (join_ne sf cf t q sib) hup (by omega : ctx.length < rounds)
          rw [ptr_join] at hup'
          exact hup'
        rw [child_nodeAt, if_pos rfl, hrest, ahead_cons_same]
      · have hapart : ptr sib ≠ ptr t := hup.ptr_apart.1 (ptr_mem hne)
        have hchild (w : BitVec 64) : child s (nodeAt s.other w (ptr t) (ptr sib)) = ptr sib := by
          cases s <;> rfl
        rw [hchild, if_neg hapart.symm, ahead_cons_other]
        rfl

theorem neighbour_spec {k : Nat} (hold : Holds m (plug ctx (join s c t p u)))
    (hk : WaysUpTo k (plug ctx (join s c t p u))) (hlen : k < rounds) :
    neighbour s rounds p m = some (firstOf (order s t.toList ++ ahead s ctx)) := by
  have hread := hold.reads
  have hself : above ctx ≠ p := by
    cases ctx with
    | nil => exact fun heq => (hold.aligned p mem_plug_self).1 heq.symm
    | cons f ctx =>
        intro heq
        refine hold.apart.2.2 p (perm_join.mem_iff.mpr List.mem_cons_self) ?_
        exact perm_outside_cons.mem_iff.mpr (heq ▸ List.mem_cons_self)
  simp only [neighbour, hread.node, Option.bind_eq_bind, Option.bind_some, hread.parent,
    if_neg hself, child_nodeAt]
  by_cases ht : t = .nil
  · subst ht
    refine (if_neg fun hne => hne rfl).trans ?_
    have hup := ascend_spec (s := s) (join_ne s c .nil p u) hold
      (Nat.lt_of_le_of_lt hk.length_le hlen)
    rw [ptr_join] at hup
    rw [hup, toList, order_nil, List.nil_append]
  · have hdown : Holds m (plug (⟨s, c, p, u⟩ :: ctx) t) := hold
    have hkdown : WaysUpTo k (plug (⟨s, c, p, u⟩ :: ctx) t) := hk
    rw [if_pos (mt hdown.ptr_eq_null.mp ht), descend_first ht hdown hkdown hlen, Side.other_other]
    rw [firstOf_append (order_ne_nil s ht)]

/-- The neighbour is what comes next in the direction of the side. -/
theorem neighbour_next {k : Nat} (hold : Holds m t) (hk : WaysUpTo k t) (hlen : k < rounds)
    {before after : List Addr} (hsplit : order s t.toList = before ++ p :: after) :
    neighbour s rounds p m = some (firstOf after) := by
  have hp : p ∈ t.toList := by
    have hmem : p ∈ order s t.toList := by rw [hsplit]; simp
    cases s with
    | left => exact List.mem_reverse.mp hmem
    | right => exact hmem
  have hnodup : (order s t.toList).Nodup := by
    cases s with
    | left => exact List.nodup_reverse.mpr hold.nodup
    | right => exact hold.nodup
  obtain ⟨ctx, c, l, r, rfl⟩ := exists_place hp
  obtain ⟨u, v, huv⟩ := node_eq_join s c l p r
  rw [huv] at hold hk hsplit hnodup
  rw [neighbour_spec hold hk hlen]
  obtain ⟨b, hb⟩ := order_plug s ctx (join s c u p v)
  have hboth : (b ++ order s v.toList) ++ p :: (order s u.toList ++ ahead s ctx)
      = before ++ p :: after := by
    rw [← hsplit, hb, order_join, List.append_assoc, List.append_assoc]
    rfl
  have hnot := (List.nodup_cons.mp (List.nodup_middle.mp (hboth.trans hsplit.symm ▸ hnodup))).1
  rw [List.mem_append, not_or] at hnot
  obtain ⟨-, -, heq⟩ := (List.append_cons_inj_of_notMem hnot.1 hnot.2).mp hboth
  rw [heq]

/-- `rb_first` and `rb_last` -/
theorem outermost_spec {k : Nat} (hold : Holds m t) (hk : WaysUpTo k t) (hlen : k < rounds) :
    outermost s rounds m = some (firstOf (order s.other t.toList)) := by
  rw [outermost, hold.root]
  by_cases ht : t = .nil
  · subst ht
    rw [toList, order_nil]
    exact if_pos rfl
  · have hwhole : Holds m (plug [] t) := hold
    have hkwhole : WaysUpTo k (plug [] t) := hk
    rw [if_neg (mt hwhole.ptr_eq_null.mp ht), descend_first ht hwhole hkwhole hlen]

end Order

end Smalltable.Proofs.Rb
