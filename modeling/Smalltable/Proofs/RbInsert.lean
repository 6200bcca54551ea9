import Smalltable.Proofs.RbShape

/-!
# `rb_insert_color`

A new node is red, and the only rule it may break is that its parent is red, too.
A round of the loop moves this two levels up (`insertRound_up`) or ends it with
one rotation or two (`insertRound_outer`, `insertRound_inner`).

A red parent is not the root, so there is a node above it, and the loop may look at the
other child of that, if only to find a null pointer.
-/

namespace Smalltable.Proofs.Rb

open Smalltable.Ref.Rb ColoredTree

section Insert

variable {m : RbMemory} {s : Side} {c : Color} {n h : Nat} {t u : ColoredTree Addr}
  {x p g : Addr} {ctx : List (Frame Addr)}

theorem redChild_eq (hold : Holds m (plug ctx t)) :
    redChild (ptr t) m = some (decide (t.color = .red)) := by
  cases t with
  | nil => rfl
  | node c l q r =>
      have hread := Holds.reads (s := .left) hold
      have hne : ptr (.node c l q r) ≠ null := fun hnull => by
        cases hold.ptr_eq_null.mp hnull
      rw [redChild, if_neg hne]
      show (m.node q).map rbIsRed = _
      rw [hread.node, Option.map_some, hread.isRed]
      rfl

/-- The two sides of a node have no element in common. -/
theorem Holds.ptr_apart {q : Addr} (hold : Holds m (plug ctx (join s c t p u))) :
    (q ∈ t.toList → ptr u ≠ q) ∧ (q ∈ u.toList → ptr t ≠ q) := by
  obtain ⟨hnodup, -, -⟩ := hold.apart
  obtain ⟨haligned, -⟩ := hold.aligned_of
  obtain ⟨-, hboth⟩ := List.nodup_cons.mp (perm_join.nodup_iff.mp hnodup)
  obtain ⟨-, -, hne⟩ := List.nodup_append.mp hboth
  refine ⟨fun hq => ptr_ne (haligned q ?_).1 fun hu => hne q hq q hu rfl,
    fun hq => ptr_ne (haligned q ?_).1 fun ht => hne q ht q hq rfl⟩
  · exact perm_join.mem_iff.mpr (List.mem_cons_of_mem _ (List.mem_append_left _ hq))
  · exact perm_join.mem_iff.mpr (List.mem_cons_of_mem _ (List.mem_append_right _ hq))

theorem ptr_mem (ht : t ≠ .nil) : ptr t ∈ t.toList := by
  cases t with
  | nil => exact absurd rfl ht
  | node c l q r => simp [ptr, toList]

/-- The side that is found by looking at the left. -/
theorem sideOf (s : Side) (w : BitVec 64) {q r : Addr} (hne : r ≠ q) :
    (if q = (nodeAt s w q r).rbLeft then Side.left else .right) = s := by
  cases s with
  | left => exact if_pos rfl
  | right => exact if_neg fun heq => hne heq.symm

theorem plug_far (s : Side) (c : Color) (t : ColoredTree Addr) (p : Addr) (u : ColoredTree Addr)
    (ctx : List (Frame Addr)) :
    plug ctx (join s c t p u) = plug (⟨s.other, c, p, t⟩ :: ctx) u := by
  rw [plug, Frame.fill, join_other]

/-- The place of the child on the side `s`. -/
theorem Holds.near (hold : Holds m (plug ctx (join s c t p u))) :
    Holds m (plug (⟨s, c, p, u⟩ :: ctx) t) := hold

/-- The place of the child on the other side. -/
theorem Holds.far (hold : Holds m (plug ctx (join s c t p u))) :
    Holds m (plug (⟨s.other, c, p, t⟩ :: ctx) u) := by
  rw [← plug_far]
  exact hold

theorem Becomes.far {m' : RbMemory} {u' : ColoredTree Addr}
    (h : Becomes m m' (plug (⟨s.other, c, p, t⟩ :: ctx) u) (plug (⟨s.other, c, p, t⟩ :: ctx) u')) :
    Becomes m m' (plug ctx (join s c t p u)) (plug ctx (join s c t p u')) := by
  rw [plug_far s c t p u, plug_far s c t p u']
  exact h

theorem setBlack_near (hold : Holds m (plug ctx (join s c t p u))) (hne : t ≠ .nil) :
    ∃ m', rbSetBlack (ptr t) m = some m' ∧
      Becomes m m' (plug ctx (join s c t p u)) (plug ctx (join s c (t.paint .black) p u)) :=
  rbSetBlack_becomes hold.near hne

theorem setBlack_far (hold : Holds m (plug ctx (join s c t p u))) (hne : u ≠ .nil) :
    ∃ m', rbSetBlack (ptr u) m = some m' ∧
      Becomes m m' (plug ctx (join s c t p u)) (plug ctx (join s c t p (u.paint .black))) := by
  obtain ⟨m', hm', h⟩ := rbSetBlack_becomes hold.far hne
  exact ⟨m', hm', h.far⟩

theorem join_ne (s : Side) (c : Color) (t : ColoredTree Addr) (p : Addr) (u : ColoredTree Addr) :
    join s c t p u ≠ .nil := by
  cases s <;> exact fun h => by cases h

theorem setRed_here (hold : Holds m (plug ctx (join s c t p u))) :
    ∃ m', rbSetRed p m = some m' ∧
      Becomes m m' (plug ctx (join s c t p u)) (plug ctx (join s .red t p u)) := by
  have hset := rbSetRed_becomes hold (join_ne s c t p u)
  rw [ptr_join, paint_join] at hset
  exact hset

theorem ne_nil_of_red (h : u.color = .red) : u ≠ .nil := fun hnil => by
  rw [hnil] at h
  cases h

/-- The uncle is red: the two levels change their colours. -/
theorem insertRound_up (hold : Holds m (plug ctx (join s c t g u))) (ht : t ≠ .nil)
    (hred : u.color = .red) :
    ∃ m', insertRound s x (ptr t) g m = some (m', g) ∧
      Becomes m m' (plug ctx (join s c t g u))
        (plug ctx (join s .red (t.paint .black) g (u.paint .black))) := by
  have hread := hold.reads
  have huncle : redChild (ptr u) m = some true := by
    rw [redChild_eq hold.far, hred]
    rfl
  obtain ⟨m1, hm1, h1⟩ := setBlack_far hold (ne_nil_of_red hred)
  obtain ⟨m2, hm2, h2⟩ := setBlack_near h1.holds ht
  obtain ⟨m3, hm3, h3⟩ := setRed_here h2.holds
  refine ⟨m3, ?_, (h1.trans h2).trans h3⟩
  simp only [insertRound, hread.node, Option.bind_eq_bind, Option.bind_some, child_other_nodeAt,
    huncle, if_true, hm1, hm2, hm3]

/-- The end of the loop: the parent `p` comes up, with the node on its side `s`. -/
theorem insertRound_end {q r : ColoredTree Addr}
    (hold : Holds m (plug ctx (join s .black (join s .red t p q) g r))) :
    ∃ m1 m2 m3, rbSetBlack p m = some m1 ∧ rbSetRed g m1 = some m2 ∧
      rotate s.other g m2 = some m3 ∧
      Becomes m m3 (plug ctx (join s .black (join s .red t p q) g r))
        (plug ctx (join s .black t p (join s .red q g r))) := by
  obtain ⟨m1, hm1, h1⟩ := setBlack_near hold (join_ne _ _ _ _ _)
  rw [ptr_join] at hm1
  rw [paint_join] at h1
  obtain ⟨m2, hm2, h2⟩ := setRed_here h1.holds
  obtain ⟨m3, hm3, h3⟩ := rotate_other_becomes h2.holds
  exact ⟨m1, m2, m3, hm1, hm2, hm3, (h1.trans h2).trans h3⟩

/-- The uncle is black and the node is an outer grandchild. -/
theorem insertRound_outer {q : ColoredTree Addr}
    (hold : Holds m (plug ctx (join s .black (join s .red t p q) g u))) (ht : t ≠ .nil)
    (hblack : u.color = .black) :
    ∃ m', insertRound s (ptr t) p g m = some (m', ptr t) ∧
      Becomes m m' (plug ctx (join s .black (join s .red t p q) g u))
        (plug ctx (join s .black t p (join s .red q g u))) := by
  have hread := hold.reads
  have hreadp := hold.near.reads
  have huncle : redChild (ptr u) m = some false := by
    rw [redChild_eq hold.far, hblack]
    rfl
  have hne : ptr q ≠ ptr t := hold.near.ptr_apart.1 (ptr_mem ht)
  obtain ⟨m1, m2, m3, hm1, hm2, hm3, hbecomes⟩ := insertRound_end hold
  refine ⟨m3, ?_, hbecomes⟩
  simp only [insertRound, hread.node, Option.bind_eq_bind, Option.bind_some, child_other_nodeAt,
    huncle, Bool.false_eq_true, if_false, hreadp.node, if_neg hne, hm1, hm2, hm3]

/-- The uncle is black and the node is an inner grandchild. -/
theorem insertRound_inner {a b q : ColoredTree Addr}
    (hold : Holds m (plug ctx (join s .black (join s .red q p (join s .red a x b)) g u)))
    (hblack : u.color = .black) :
    ∃ m', insertRound s x p g m = some (m', p) ∧
      Becomes m m' (plug ctx (join s .black (join s .red q p (join s .red a x b)) g u))
        (plug ctx (join s .black (join s .red q p a) x (join s .red b g u))) := by
  have hread := hold.reads
  have hreadp := hold.near.reads
  have huncle : redChild (ptr u) m = some false := by
    rw [redChild_eq hold.far, hblack]
    rfl
  obtain ⟨m0, hm0, h0⟩ := rotate_becomes hold.near
  obtain ⟨m1, m2, m3, hm1, hm2, hm3, hbecomes⟩ := insertRound_end h0.holds
  refine ⟨m3, ?_, h0.trans hbecomes⟩
  simp only [insertRound, hread.node, Option.bind_eq_bind, Option.bind_some, child_other_nodeAt,
    huncle, Bool.false_eq_true, if_false, hreadp.node, ptr_join, if_true, hm0, Option.map_some,
    hm1, hm2, hm3]

/-! ## The loop

By induction on the way up, two levels at a time. Behind the loop the root is made
black, which adds one to all ways. -/

/-- The loop is over when the parent is not red. -/
theorem insertColorLoop_done {rounds : Nat} (hold : Holds m (plug ctx t))
    (ht : Balanced .red n t) (hdone : ∀ f ∈ ctx.head?, f.color = .black) :
    insertColorLoop (rounds + 1) (ptr t) m = some m := by
  obtain ⟨a, x, b, rfl, -⟩ := ht.red_cases .left
  have hread := hold.reads
  rw [ptr_join]
  simp only [insertColorLoop, hread.node, Option.bind_eq_bind, Option.bind_some, hread.parent]
  cases ctx with
  | nil => exact if_pos rfl
  | cons f ctx =>
      have hreadp := Holds.reads (s := f.side) hold
      have hne : f.elem ≠ null := (hold.aligned f.elem mem_plug_self).1
      have hblack : f.color = .black := hdone f rfl
      rw [above, aboveIn, if_neg hne, hreadp.node, Option.bind_some, hreadp.isRed, hblack]
      rfl

/-- A round, below a red parent. -/
theorem insertColorLoop_round {rounds : Nat} {sx : Side} {q : ColoredTree Addr}
    (hold : Holds m (plug ctx (join s .black (join sx .red t p q) g u))) (ht : t ≠ .nil) :
    insertColorLoop (rounds + 1) (ptr t) m
      = (insertRound s (ptr t) p g m).bind fun r => insertColorLoop rounds r.2 r.1 := by
  have hread := hold.reads
  rw [ptr_join] at hread
  have hreadp : Reads m sx p g .red (ptr t) (ptr q) := hold.near.reads
  have hreadx : Reads m .left (ptr t) p t.color (ptr t.left) (ptr t.right) := by
    cases t with
    | nil => exact absurd rfl ht
    | node c l x r =>
        exact Holds.reads (s := .left) hold.near.near
  have hnull : p ≠ null := (hold.near.aligned p mem_plug_self).1
  have hside := sideOf s (pack (above ctx) .black)
    (hold.ptr_apart.1 (ptr_mem (join_ne sx .red t p q)))
  rw [ptr_join] at hside
  simp only [insertColorLoop, hreadx.node, Option.bind_eq_bind, Option.bind_some, hreadx.parent,
    if_neg hnull, hreadp.node, hreadp.isRed, hreadp.parent, decide_true, if_true, hread.node,
    hside]

theorem insertColorLoop_spec : ∀ {rounds : Nat} {ctx : List (Frame Addr)} {m : RbMemory}
    {n : Nat} {t : ColoredTree Addr}, ctx.length + 4 ≤ 2 * rounds → Holds m (plug ctx t) →
    Balanced .red n t → Takes h .black n ctx →
    ∃ m' t' k, insertColorLoop rounds (ptr t) m = some m' ∧
      Becomes m m' (plug ctx t) t' ∧ Balanced .black k (t'.paint .black) := by
  intro rounds
  induction rounds with
  | zero => intro ctx m n t hlen; omega
  | succ rounds ih =>
      intro ctx m n t hlen hold ht hctx
      have hne := ht.ne_nil
      cases hctx with
      | root =>
          exact ⟨m, plug [] t, h + 1, insertColorLoop_done hold ht (fun f hf => by cases hf),
            .refl hold, ht.blackenRed⟩
      | @black _ _ _ s p sib ctx hsib hctx =>
          have hwhole := (Takes.black (s := s) (a := p) hsib hctx).plug ht
          refine ⟨m, _, h, insertColorLoop_done hold ht fun f hf => ?_, .refl hold, hwhole.paint⟩
          cases hf
          rfl
      | @red _ sx p sib ctx hsib hctx =>
          cases hctx with
          | @black _ cu _ s g u ctx hu hctx =>
              have hold' : Holds m (plug ctx (join s .black (join sx .red t p sib) g u)) := hold
              rw [insertColorLoop_round hold' hne]
              simp only [List.length_cons] at hlen
              obtain ⟨rounds, rfl⟩ : ∃ r, rounds = r + 1 := ⟨rounds - 1, by omega⟩
              cases cu with
              | red =>
                  obtain ⟨m1, hm1, h1⟩ := insertRound_up (x := ptr t) hold' (join_ne _ _ _ _ _)
                    hu.color_eq
                  rw [ptr_join] at hm1
                  rw [paint_join] at h1
                  obtain ⟨m2, t', k, hm2, h2, hk⟩ := ih (by omega) h1.holds
                    ((ht.joinBlack sx p hsib).joinRed s g hu.blackenRed) hctx
                  rw [ptr_join] at hm2
                  exact ⟨m2, t', k, by rw [hm1]; exact hm2, h1.trans h2, hk⟩
              | black =>
                  rcases Side.eq_or_other s sx with rfl | rfl
                  · obtain ⟨m1, hm1, h1⟩ := insertRound_outer hold' hne hu.color_eq
                    have hwhole := hctx.plug (ht.joinBlack sx p (hsib.joinRed sx g hu))
                    have hend : Holds m1 (plug (⟨sx, .black, p, join sx .red sib g u⟩ :: ctx) t) :=
                      h1.holds
                    refine ⟨m1, _, h, ?_, h1, hwhole.paint⟩
                    rw [hm1]
                    refine insertColorLoop_done hend ht fun f hf => ?_
                    cases hf
                    rfl
                  · obtain ⟨a, x, b, rfl, ha, hb⟩ := ht.red_cases s
                    rw [plug, Frame.fill, plug, Frame.fill, join_other] at hold ⊢
                    obtain ⟨m1, hm1, h1⟩ := insertRound_inner hold hu.color_eq
                    have hnode := hsib.joinRed s p ha
                    have hwhole := hctx.plug (hnode.joinBlack s x (hb.joinRed s g hu))
                    have hend : Holds m1 (plug (⟨s, .black, x, join s .red b g u⟩ :: ctx)
                      (join s .red sib p a)) := h1.holds
                    refine ⟨m1, _, h, ?_, h1, hwhole.paint⟩
                    rw [ptr_join, hm1, Option.bind_some]
                    have hdone := @insertColorLoop_done _ _ _ _ rounds hend hnode fun f hf => by
                      cases hf
                      rfl
                    rw [ptr_join] at hdone
                    exact hdone

/-- `rb_insert_color` on a tree with a new red node. -/
theorem rbInsertColor_spec {rounds : Nat} (hlen : ctx.length + 4 ≤ 2 * rounds)
    (hold : Holds m (plug ctx t)) (ht : Balanced .red n t) (hctx : Takes h .black n ctx) :
    ∃ m' t' k, rbInsertColor rounds (ptr t) m = some m' ∧ Becomes m m' (plug ctx t) t' ∧
      Balanced .black k t' := by
  obtain ⟨m1, t', k, hm1, h1, hk⟩ := insertColorLoop_spec hlen hold ht hctx
  have hne : t' ≠ .nil := by
    intro hnil
    have hmem : ptr t ∈ (plug ctx t).toList :=
      perm_plug.mem_iff.mpr (List.mem_append_left _ (ptr_mem ht.ne_nil))
    rw [← h1.list, hnil] at hmem
    cases hmem
  have hend : Holds m1 (plug [] t') := h1.holds
  obtain ⟨m2, hm2, h2⟩ := rbSetBlack_becomes hend hne
  refine ⟨m2, t'.paint .black, k, ?_, h1.trans h2, hk⟩
  simp only [rbInsertColor, hm1, Option.bind_eq_bind, Option.bind_some, h1.holds.root]
  exact hm2

end Insert

end Smalltable.Proofs.Rb
