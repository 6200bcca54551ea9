import Smalltable.Proofs.RbInsert

/-!
# `__rb_erase_color`

When a black node is taken out, one black node is missing on the ways through its
place (`Lacks`). A round of the loop moves this one level up (`eraseRound_goOn`)
or ends it with one rotation or two (`eraseRound_leave`); a red sibling is rotated
away first (`raiseSibling_red`). A red node in the place ends it by becoming
black.

That something is missing at one place only is what the loop needs. Then the sibling is
a node and not a null pointer, since a black node more is on the ways through it
(`takes_sibling`).
-/

namespace Smalltable.Proofs.Rb

open Smalltable.Ref.Rb ColoredTree

/-! ## A round of `__rb_erase_color`

The cases are those of the source: the colour of the sibling, and the colours of its two
children. Left and right are the same with the sides exchanged, so each is shown once.
-/

section Round

variable {m : RbMemory} {s : Side} {c : Color} {n h : Nat} {t u : ColoredTree Addr}
  {p o : Addr} {ctx : List (Frame Addr)}

theorem blackChild_eq (hold : Holds m (plug ctx t)) :
    blackChild (ptr t) m = some (decide (t.color = .black)) := by
  cases t with
  | nil => rfl
  | node c l q r =>
      have hread := Holds.reads (s := .left) hold
      have hne : ptr (.node c l q r) ≠ null := fun hnull => by
        cases hold.ptr_eq_null.mp hnull
      rw [blackChild, if_neg hne]
      show (m.node q).map rbIsBlack = _
      rw [hread.node, Option.map_some, hread.isBlack]
      rfl

/-- A red sibling comes up, and its child is the sibling then. -/
theorem raiseSibling_red {a b : ColoredTree Addr}
    (hold : Holds m (plug ctx (join s .black t p (join s .red a o b)))) :
    ∃ m', raiseSibling s p o m = some (m', ptr a) ∧
      Becomes m m' (plug ctx (join s .black t p (join s .red a o b)))
        (plug ctx (join s .black (join s .red t p a) o b)) := by
  have hread : Reads m s o p .red (ptr a) (ptr b) := hold.far.reads
  obtain ⟨m1, hm1, h1⟩ := setBlack_far hold (join_ne _ _ _ _ _)
  rw [ptr_join] at hm1
  rw [paint_join] at h1
  obtain ⟨m2, hm2, h2⟩ := setRed_here h1.holds
  obtain ⟨m3, hm3, h3⟩ := rotate_becomes h2.holds
  have hread3 : Reads m3 s p o .red (ptr t) (ptr a) := h3.holds.near.reads
  refine ⟨m3, ?_, (h1.trans h2).trans h3⟩
  simp only [raiseSibling, hread.node, Option.bind_eq_bind, Option.bind_some, hread.isRed,
    decide_true, if_true, hm1, hm2, hm3, hread3.node, child_other_nodeAt]

theorem raiseSibling_black (hold : Holds m (plug ctx (join s c t p u)))
    (hu : Balanced .black (n + 1) u) : raiseSibling s p (ptr u) m = some (m, ptr u) := by
  obtain ⟨a, o, b, ca, cb, rfl, -, -⟩ := hu.black_cases s
  have hread : Reads m s o p .black (ptr a) (ptr b) := hold.far.reads
  rw [ptr_join]
  simp only [raiseSibling, hread.node, Option.bind_eq_bind, Option.bind_some, hread.isRed]
  rfl

/-- The outer child of the sibling is red. -/
theorem turnSibling_red {a b : ColoredTree Addr}
    (hold : Holds m (plug ctx (join s c t p (join s .black a o b)))) (hb : b.color = .red) :
    turnSibling s p o m = some (m, o) := by
  have hread := hold.far.reads
  simp only [turnSibling, hread.node, Option.bind_eq_bind, Option.bind_some, child_other_nodeAt,
    blackChild_eq hold.far.far, hb]
  rfl

/-- The outer child of the sibling is black, and the inner one is red. -/
theorem turnSibling_black {a1 a2 b : ColoredTree Addr} {x : Addr}
    (hold : Holds m (plug ctx (join s c t p (join s .black (join s .red a1 x a2) o b))))
    (hb : b.color = .black) :
    ∃ m', turnSibling s p o m = some (m', x) ∧
      Becomes m m' (plug ctx (join s c t p (join s .black (join s .red a1 x a2) o b)))
        (plug ctx (join s c t p (join s .black a1 x (join s .red a2 o b)))) := by
  have hread := hold.far.reads
  rw [ptr_join] at hread
  have hchild : blackChild (ptr b) m = some true := by
    rw [blackChild_eq hold.far.far, hb]
    rfl
  obtain ⟨m1, hm1, h1⟩ := setBlack_near hold.far (join_ne _ _ _ _ _)
  rw [ptr_join] at hm1
  rw [paint_join] at h1
  obtain ⟨m2, hm2, h2⟩ := setRed_here h1.holds
  obtain ⟨m3, hm3, h3⟩ := rotate_other_becomes h2.holds
  have hbecomes := ((h1.trans h2).trans h3).far
  have hread3 := hbecomes.holds.reads
  rw [ptr_join] at hread3
  refine ⟨m3, ?_, hbecomes⟩
  simp only [turnSibling, hread.node, Option.bind_eq_bind, Option.bind_some, child_other_nodeAt,
    hchild, if_true, child_nodeAt, hm1, hm2, hm3, hread3.node]

/-- The colours move over, and the sibling comes up. -/
theorem eraseTurn_becomes {a b : ColoredTree Addr}
    (hold : Holds m (plug ctx (join s c t p (join s .black a o b)))) (hb : b ≠ .nil) :
    ∃ m', eraseTurn s p o m = some m' ∧
      Becomes m m' (plug ctx (join s c t p (join s .black a o b)))
        (plug ctx (join s c (join s .black t p a) o (b.paint .black))) := by
  have hread := hold.reads
  obtain ⟨m1, hm1, h1⟩ : ∃ m1, rbSetColor o (bits c) m = some m1 ∧
      Becomes m m1 (plug ctx (join s c t p (join s .black a o b)))
        (plug ctx (join s c t p (join s c a o b))) := by
    obtain ⟨m1, hm1, h1⟩ := rbSetColor_becomes c hold.far (join_ne _ _ _ _ _)
    rw [ptr_join] at hm1
    rw [paint_join] at h1
    exact ⟨m1, hm1, h1.far⟩
  obtain ⟨m2, hm2, h2⟩ := rbSetBlack_becomes h1.holds (join_ne _ _ _ _ _)
  rw [ptr_join] at hm2
  rw [paint_join] at h2
  obtain ⟨m3, hm3, h3⟩ := setBlack_far h2.holds.far hb
  obtain ⟨m4, hm4, h4⟩ := rotate_becomes h3.far.holds
  have hread2 : Reads m2 s o p c (ptr a) (ptr b) := h2.holds.far.reads
  refine ⟨m4, ?_, ((h1.trans h2).trans h3.far).trans h4⟩
  simp only [eraseTurn, hread.node, Option.bind_eq_bind, Option.bind_some, hread.color, hm1, hm2,
    hread2.node, child_other_nodeAt, hm3, hm4]

/-- What a round looks at to tell its two branches apart. -/
theorem blackChildren {a b : ColoredTree Addr} (hold : Holds m (plug ctx (join s c a o b))) :
    ∃ r i j, m.node o = some r ∧ blackChild r.rbLeft m = some i ∧
      blackChild r.rbRight m = some j ∧
      ((i && j) = true ↔ a.color = .black ∧ b.color = .black) := by
  have hread := hold.reads
  have ha := hold.near
  cases s with
  | left =>
      refine ⟨_, _, _, hread.node, blackChild_eq ha, blackChild_eq hold.far, ?_⟩
      rw [Bool.and_eq_true, decide_eq_true_iff, decide_eq_true_iff]
  | right =>
      refine ⟨_, _, _, hread.node, blackChild_eq hold.far, blackChild_eq ha, ?_⟩
      rw [Bool.and_eq_true, decide_eq_true_iff, decide_eq_true_iff, and_comm]

/-- Both children of the sibling are black: it gets red. -/
theorem eraseRound_goOn {a b : ColoredTree Addr} {m0 : RbMemory}
    {w : BitVec 64} {q q' : Addr} (hr : m0.node p = some (nodeAt s w q q'))
    (hraise : raiseSibling s p q' m0 = some (m, o))
    (hold : Holds m (plug ctx (join s c t p (join s .black a o b)))) (ha : a.color = .black)
    (hb : b.color = .black) :
    ∃ m', eraseRound s p m0 = some (m', .goOn p (above ctx)) ∧
      Becomes m m' (plug ctx (join s c t p (join s .black a o b)))
        (plug ctx (join s c t p (join s .red a o b))) := by
  obtain ⟨v, i, j, ho, hi, hj, hij⟩ := blackChildren hold.far
  obtain ⟨m1, hm1, h1⟩ := setRed_here hold.far
  have hread := h1.far.holds.reads
  refine ⟨m1, ?_, h1.far⟩
  simp only [eraseRound, hr, Option.bind_eq_bind, Option.bind_some, child_other_nodeAt,
      hraise, ho, hi,
    hj, if_pos (hij.mpr ⟨ha, hb⟩), hm1, hread.node, hread.parent]

/-- One of them is red, and what is missing is put there. -/
theorem eraseRound_leave {a b : ColoredTree Addr} {ca cb : Color} {m0 : RbMemory}
    {w : BitVec 64} {q q' : Addr} (hr : m0.node p = some (nodeAt s w q q'))
    (hraise : raiseSibling s p q' m0 = some (m, o))
    (hold : Holds m (plug ctx (join s c t p (join s .black a o b)))) (ht : Balanced .black n t)
    (ha : Balanced ca n a) (hb : Balanced cb n b)
    (hred : ¬ (a.color = .black ∧ b.color = .black)) :
    ∃ m' l x r', eraseRound s p m0 = some (m', .leave m'.root) ∧
      Becomes m m' (plug ctx (join s c t p (join s .black a o b))) (plug ctx (join s c l x r')) ∧
      Balanced .black (n + 1) l ∧ Balanced .black (n + 1) r' := by
  obtain ⟨v, i, j, ho, hi, hj, hij⟩ := blackChildren hold.far
  have hround : eraseRound s p m0 = (turnSibling s p o m).bind fun r =>
      (eraseTurn s p r.2 r.1).bind fun m' => some (m', .leave m'.root) := by
    simp only [eraseRound, hr, Option.bind_eq_bind, Option.bind_some, child_other_nodeAt,
        hraise, ho, hi,
      hj, if_neg (mt hij.mp hred)]
  rw [hround]
  cases cb with
  | red =>
      obtain ⟨m2, hm2, h2⟩ := eraseTurn_becomes hold hb.ne_nil
      refine ⟨m2, _, _, _, ?_, h2, ht.joinBlack s p ha, hb.blackenRed⟩
      rw [turnSibling_red hold hb.color_eq, Option.bind_some, hm2, Option.bind_some]
  | black =>
      have hca : ca = .red := by
        cases ca with
        | red => rfl
        | black => exact absurd ⟨ha.color_eq, hb.color_eq⟩ hred
      subst hca
      obtain ⟨a1, x, a2, rfl, ha1, ha2⟩ := ha.red_cases s
      obtain ⟨m1, hm1, h1⟩ := turnSibling_black hold hb.color_eq
      obtain ⟨m2, hm2, h2⟩ := eraseTurn_becomes h1.holds (join_ne _ _ _ _ _)
      rw [paint_join] at h2
      refine ⟨m2, _, _, _, ?_, h1.trans h2, ht.joinBlack s p ha1, ha2.joinBlack s o hb⟩
      rw [hm1, Option.bind_some, hm2, Option.bind_some]

end Round

/-! ## The loop

By induction on the rounds, of which the way up to the root takes no more than its
length. At the root one black node less is missing on all ways at once, so nothing is
missing. -/

section Loop

variable {m : RbMemory} {s : Side} {c c' : Color} {n h : Nat} {t u sib : ColoredTree Addr}
  {p o : Addr} {ctx : List (Frame Addr)}

/-- One black node is missing: a tree like this is where one of black height `n + 1`
belongs. -/
def Lacks (n : Nat) (t : ColoredTree Addr) : Prop :=
  Balanced .black n t ∨ t.color = .red ∧ Balanced .black (n + 1) (t.paint .black)

theorem Lacks.of_red (hlacks : Lacks n t) (hred : t.color = .red) :
    Balanced .black (n + 1) (t.paint .black) := by
  rcases hlacks with hblack | ⟨-, ht⟩
  · rw [hblack.color_eq] at hred
    cases hred
  · exact ht

theorem takes_sibling (hctx : Takes h c n (⟨s, c', p, sib⟩ :: ctx)) :
    Balanced .black n sib ∨ Balanced .red n sib ∧ c' = .black ∧ Takes h .black (n + 1) ctx := by
  cases hctx with
  | red hsib hctx => exact .inl hsib
  | @black _ cs _ _ _ _ _ hsib hctx =>
      cases cs with
      | black => exact .inl hsib
      | red => exact .inr ⟨hsib, rfl, hctx⟩

/-- What is missing below the parent is missing above it when the sibling gets red. -/
theorem lacks_up (hctx : Takes h .black (n + 1) (⟨s, c, p, sib⟩ :: ctx))
    (ht : Balanced .black n t) (hu : Balanced .red n u) :
    ∃ k, Lacks k (join s c t p u) ∧ Takes h .black (k + 1) ctx := by
  cases hctx with
  | red hsib hctx =>
      refine ⟨n, .inr ⟨color_join _ _ _ _ _, ?_⟩, hctx.black_of⟩
      rw [paint_join]
      exact ht.joinBlack s p hu
  | black hsib hctx => exact ⟨n + 1, .inl (ht.joinBlack s p hu), hctx⟩

/-- Nothing is missing any more. -/
theorem plug_join {x : Addr} (hctx : Takes h .black (n + 1) (⟨s, c, p, sib⟩ :: ctx))
    (ht : Balanced .black (n + 1) t) (hu : Balanced .black (n + 1) u) :
    Balanced .black h (plug ctx (join s c t x u)) := by
  cases hctx with
  | red hsib hctx => exact hctx.plug (ht.joinRed s x hu)
  | black hsib hctx => exact hctx.plug (ht.joinBlack s x hu)

/-- The root is not below itself. -/
theorem root_mem_outside (f : Frame Addr) (ctx : List (Frame Addr)) (t : ColoredTree Addr) :
    ptr (plug (f :: ctx) t) ∈ outside (f :: ctx) := by
  rw [perm_outside_cons.mem_iff, List.mem_cons, List.mem_append]
  induction ctx generalizing f t with
  | nil =>
      rw [plug, Frame.fill, plug, ptr_join]
      exact .inl rfl
  | cons f' ctx ih =>
      refine .inr (.inr ?_)
      rw [perm_outside_cons.mem_iff, List.mem_cons, List.mem_append]
      exact ih f' (Frame.fill f t)

theorem ptr_ne_root {f : Frame Addr} (hold : Holds m (plug (f :: ctx) t)) : ptr t ≠ m.root := by
  rw [hold.root]
  have hmem := root_mem_outside f ctx t
  intro heq
  cases t with
  | nil => exact (hold.aligned_of.2 _ hmem).1 heq.symm
  | node c l q r =>
      rw [← heq] at hmem
      exact hold.apart.2.2 q (by simp [toList]) hmem

/-- The loop is over at a red node and at the root. -/
theorem eraseColorLoop_done (rounds : Nat) (hold : Holds m (plug ctx t))
    (hdone : t.color = .red ∨ ctx = []) :
    eraseColorLoop (rounds + 1) (ptr t) (above ctx) m = some (m, ptr t) := by
  simp only [eraseColorLoop, blackChild_eq hold, Option.bind_eq_bind, Option.bind_some]
  refine if_neg fun hcond => ?_
  rcases hdone with hred | rfl
  · rw [hred] at hcond
    cases hcond.1
  · exact hcond.2 hold.root.symm

/-- A round. -/
theorem eraseColorLoop_round (rounds : Nat) (hold : Holds m (plug ctx (join s c t p u)))
    (hblack : t.color = .black) (hu : u ≠ .nil) {m' : RbMemory} :
    (∀ q parent, eraseRound s p m = some (m', .goOn q parent) →
      eraseColorLoop (rounds + 1) (ptr t) p m = eraseColorLoop rounds q parent m') ∧
    ∀ q, eraseRound s p m = some (m', .leave q) →
      eraseColorLoop (rounds + 1) (ptr t) p m = some (m', q) := by
  have ht := hold.near
  have hread := hold.reads
  have hside : (if (nodeAt s (pack (above ctx) c) (ptr t) (ptr u)).rbLeft = ptr t then Side.left
      else .right) = s := by
    refine (if_congr eq_comm rfl rfl).trans (sideOf s (pack (above ctx) c) ?_)
    exact (hold.ptr_apart.2 (ptr_mem hu)).symm
  refine ⟨fun q parent hround => ?_, fun q hround => ?_⟩
  · simp only [eraseColorLoop, blackChild_eq ht, Option.bind_eq_bind, Option.bind_some, hblack,
      decide_true, ptr_ne_root ht, ne_eq, not_false_eq_true, and_self, if_true, hread.node, hside,
      hround]
  · simp only [eraseColorLoop, blackChild_eq ht, Option.bind_eq_bind, Option.bind_some, hblack,
      decide_true, ptr_ne_root ht, ne_eq, not_false_eq_true, and_self, if_true, hread.node, hside,
      hround]

/-- What a round comes to when the sibling is black, or has been raised (`m` is the
memory then). -/
theorem eraseRound_black {m0 : RbMemory} {w : BitVec 64} {q q' : Addr}
    (hr : m0.node p = some (nodeAt s w q q'))
    (hraise : raiseSibling s p q' m0 = some (m, ptr u))
    (hold : Holds m (plug ctx (join s c t p u))) (ht : Balanced .black n t)
    (hu : Balanced .black (n + 1) u)
    (hctx : Takes h .black (n + 1) (⟨s, c, p, sib⟩ :: ctx)) :
    ∃ m' v, Becomes m m' (plug ctx (join s c t p u)) (plug ctx v) ∧
      (eraseRound s p m0 = some (m', .goOn p (above ctx)) ∧ ptr v = p ∧ v.color = c ∧
          (∃ k, Lacks k v ∧ Takes h .black (k + 1) ctx) ∨
        eraseRound s p m0 = some (m', .leave m'.root) ∧ Balanced .black h (plug ctx v)) := by
  obtain ⟨a, o, b, ca, cb, rfl, ha, hb⟩ := hu.black_cases s
  rw [ptr_join] at hraise
  by_cases hblack : a.color = .black ∧ b.color = .black
  · obtain ⟨m', hm', hbecomes⟩ := eraseRound_goOn hr hraise hold hblack.1 hblack.2
    have hred : Balanced .red n (join s .red a o b) := by
      rw [ha.color_eq, hb.color_eq] at hblack
      obtain ⟨rfl, rfl⟩ := hblack
      exact ha.joinRed s o hb
    exact ⟨m', _, hbecomes, .inl ⟨hm', ptr_join, color_join _ _ _ _ _, lacks_up hctx ht hred⟩⟩
  · obtain ⟨m', l, x, r', hm', hbecomes, hl, hr'⟩ :=
      eraseRound_leave hr hraise hold ht ha hb hblack
    exact ⟨m', _, hbecomes, .inr ⟨hm', plug_join hctx hl hr'⟩⟩

/-- The loop ends, at a node that completes the tree by becoming black. -/
theorem eraseColorLoop_spec : ∀ {rounds : Nat} {ctx : List (Frame Addr)} {m : RbMemory}
    {n : Nat} {t : ColoredTree Addr}, ctx.length + 2 ≤ rounds → Holds m (plug ctx t) →
    Lacks n t → Takes h .black (n + 1) ctx →
    ∃ m' ctx' t' k, eraseColorLoop rounds (ptr t) (above ctx) m = some (m', ptr t') ∧
      Becomes m m' (plug ctx t) (plug ctx' t') ∧
      Balanced .black k (plug ctx' (t'.paint .black)) := by
  intro rounds
  induction rounds with
  | zero => intro ctx m n t hlen; omega
  | succ rounds ih =>
      intro ctx m n t hlen hold hlacks hctx
      rcases hlacks with ht | ⟨hred, ht⟩
      · cases ctx with
        | nil =>
            exact ⟨m, [], t, n, eraseColorLoop_done rounds hold (.inr rfl), .refl hold, ht.paint⟩
        | cons f ctx =>
            obtain ⟨s, c, p, sib⟩ := f
            have hold' : Holds m (plug ctx (join s c t p sib)) := hold
            have hread := hold'.reads
            rw [List.length_cons] at hlen
            obtain ⟨rounds, rfl⟩ : ∃ r, rounds = r + 1 := ⟨rounds - 1, by omega⟩
            rcases takes_sibling hctx with hsib | ⟨hsib, rfl, hup⟩
            · have hraise := raiseSibling_black hold' hsib
              have hne : sib ≠ .nil := fun hnil => by rw [hnil] at hsib; cases hsib
              rw [above, aboveIn]
              obtain ⟨m1, v, h1, hgo | hleave⟩ :=
                eraseRound_black hread.node hraise hold' ht hsib hctx
              · obtain ⟨hm1, hv, -, k, hk, hctx1⟩ := hgo
                obtain ⟨m2, ctx2, t2, k2, hm2, h2, hk2⟩ := ih (by omega) h1.holds hk hctx1
                refine ⟨m2, ctx2, t2, k2, ?_, h1.trans h2, hk2⟩
                rw [(eraseColorLoop_round _ hold' ht.color_eq hne).1 _ _ hm1, ← hv]
                exact hm2
              · obtain ⟨hm1, hv⟩ := hleave
                refine ⟨m1, [], _, h, ?_, h1, hv.paint⟩
                rw [(eraseColorLoop_round _ hold' ht.color_eq hne).2 _ hm1, h1.holds.root]
            -- a red sibling comes up, and the parent is red then
            · obtain ⟨a, o, b, rfl, ha, hb⟩ := hsib.red_cases s
              obtain ⟨m0, hm0, h0⟩ := raiseSibling_red hold'
              have hold0 : Holds m0 (plug (⟨s, .black, o, b⟩ :: ctx) (join s .red t p a)) :=
                h0.holds
              have hctx0 : Takes h .black (n + 1) (⟨s, .red, p, a⟩ :: ⟨s, .black, o, b⟩ :: ctx) :=
                .red ha (.black hb hup)
              rw [ptr_join] at hread
              rw [above, aboveIn]
              obtain ⟨m1, v, h1, hgo | hleave⟩ :=
                eraseRound_black hread.node hm0 hold0 ht ha hctx0
              · obtain ⟨hm1, hv, hred, k, hk, hctx1⟩ := hgo
                refine ⟨m1, _, v, h, ?_, h0.trans h1, hctx1.plug (hk.of_red hred)⟩
                have hdone := eraseColorLoop_done rounds h1.holds (.inl hred)
                rw [hv] at hdone
                rw [(eraseColorLoop_round _ hold' ht.color_eq hsib.ne_nil).1 _ _ hm1, hv]
                exact hdone
              · obtain ⟨hm1, hv⟩ := hleave
                refine ⟨m1, [], _, h, ?_, h0.trans h1, hv.paint⟩
                rw [(eraseColorLoop_round _ hold' ht.color_eq hsib.ne_nil).2 _ hm1, h1.holds.root]
                rfl
      · exact ⟨m, ctx, t, h, eraseColorLoop_done rounds hold (.inl hred), .refl hold,
          hctx.plug ht⟩

/-- `__rb_erase_color`: what is in the place is one black node short. -/
theorem rbEraseColor_spec {rounds : Nat} (hlen : ctx.length + 2 ≤ rounds)
    (hold : Holds m (plug ctx t)) (hlacks : Lacks n t) (hctx : Takes h .black (n + 1) ctx) :
    ∃ m' t' k, rbEraseColor rounds (ptr t) (above ctx) m = some m' ∧
      Becomes m m' (plug ctx t) t' ∧ Balanced .black k t' := by
  obtain ⟨m1, ctx', v, k, hm1, h1, hk⟩ := eraseColorLoop_spec hlen hold hlacks hctx
  simp only [rbEraseColor, hm1, Option.bind_eq_bind, Option.bind_some]
  by_cases hv : v = .nil
  · subst hv
    exact ⟨m1, _, k, if_neg (fun hne => hne rfl), h1, hk⟩
  · obtain ⟨m2, hm2, h2⟩ := rbSetBlack_becomes h1.holds hv
    have hne : ptr v ≠ null := mt h1.holds.ptr_eq_null.mp hv
    exact ⟨m2, _, k, (if_pos hne).trans hm2, h1.trans h2, hk⟩

end Loop

end Smalltable.Proofs.Rb
