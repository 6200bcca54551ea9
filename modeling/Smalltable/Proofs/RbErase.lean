import Smalltable.Proofs.RbEraseColor

/-!
# `rb_erase`

A node with one child or none is replaced by its child (`eraseOuter_spec`). The
place of a node with two children is taken by its successor, the last node to the
left in its right child (`descend_spec`, `eraseInner_spec`). In both cases one
node less is on the ways through one place, and when that was a black one the
place is one that `__rb_erase_color` is for.

The source goes on with three things when it has taken the node out: the child that is
in its place, the parent of that, and the colour that is missing. They are what
`takeOut_spec` gives.
-/

namespace Smalltable.Proofs.Rb

open Smalltable.Ref.Rb ColoredTree

section Erase

variable {m : RbMemory} {s : Side} {c c' : Color} {n h : Nat} {t u l r : ColoredTree Addr}
  {p x old : Addr} {ctx side : List (Frame Addr)}

theorem descend_spec {rounds : Nat} (hside : ∀ f ∈ side, f.side = s)
    (hlen : side.length < rounds)
    (hold : Holds m (plug ctx (plug side (join s c .nil x u)))) :
    descend s rounds (ptr (plug side (join s c .nil x u))) m = some x := by
  induction side using List.reverseRecOn generalizing rounds ctx with
  | nil =>
      obtain ⟨rounds, rfl⟩ : ∃ k, rounds = k + 1 := ⟨rounds - 1, by omega⟩
      have hread : Reads m s x (above ctx) c null (ptr u) := Holds.reads hold
      rw [plug, ptr_join, descend, hread.node]
      simp only [Option.bind_eq_bind, Option.bind_some, child_nodeAt]
      exact if_neg fun hne => hne rfl
  | append_singleton side f ih =>
      rw [List.length_append, List.length_singleton] at hlen
      obtain ⟨rounds, rfl⟩ : ∃ k, rounds = k + 1 := ⟨rounds - 1, by omega⟩
      obtain ⟨sf, cf, q, sib⟩ := f
      have hsf : sf = s := hside _ (List.mem_append_right _ List.mem_cons_self)
      subst hsf
      rw [plug_append] at hold ⊢
      have hup : Holds m (plug ctx (join sf cf (plug side (join sf c .nil x u)) q sib)) := hold
      have hread := hup.reads
      have hdown := hup.near
      have hne := mt hdown.ptr_eq_null.mp (plug_ne_nil side (join_ne sf c .nil x u))
      have hbelow : descend sf rounds (ptr (plug side (join sf c .nil x u))) m = some x :=
        ih (fun f hf => hside f (List.mem_append_left _ hf)) (by omega) hdown
      show descend sf (rounds + 1) (ptr (join sf cf (plug side (join sf c .nil x u)) q sib)) m = _
      rw [ptr_join, descend, hread.node]
      simp only [Option.bind_eq_bind, Option.bind_some, child_nodeAt]
      rw [if_pos hne, hbelow]

/-! ## Taking the node out

The lemmas are about one place of the tree and what is around it. The colour of the node
that goes away decides whether anything is missing there, and only its child can be red.
-/

theorem sublist_join (s : Side) (c : Color) (p : Addr) (u : ColoredTree Addr) :
    u.toList.Sublist (join s c .nil p u).toList := by
  cases s <;> simp [join, toList]

theorem eraseOuter_spec (hold : Holds m (plug ctx (join s c .nil p u))) :
    ∃ m', eraseOuter p (ptr u) m = some (m', above ctx, bits c) ∧ Holds m' (plug ctx u) ∧
      ∀ q, q ∉ (plug ctx u).toList → m'.node q = m.node q := by
  have hread := hold.reads
  obtain ⟨haround, hshape⟩ := hold.focus
  rw [ptr_join] at haround
  obtain ⟨-, -, hu⟩ := shape_join.mp hshape
  obtain ⟨hnodup, hctx, hout⟩ := hold.apart
  obtain ⟨haligned, halignedctx⟩ := hold.aligned_of
  have hp : p ∈ (join s c .nil p u).toList := perm_join.mem_iff.mpr List.mem_cons_self
  have hsub := sublist_join s c p u
  obtain ⟨m1, hm1, hroot1, hu1, hsame1⟩ := setParentIf_spec (above ctx) hu (haligned p hp).2
    (hsub.nodup hnodup) fun q hq => haligned q (hsub.subset hq)
  have hapart : ∀ q ∈ outside ctx, q ∉ u.toList := fun q hq hqu => hout q (hsub.subset hqu) hq
  have haround1 : Around m1.node m1.root ctx p := by
    rw [hroot1]
    exact haround.frame fun q hq => hsame1 q (hapart q hq)
  obtain ⟨m2, hm2, haround2, hsame2⟩ := replaceChild_spec .left (ptr u) haround1 hctx halignedctx
    ⟨(haligned p hp).1, hout p hp⟩
  refine ⟨m2, ?_, holds_of hold hsub haround2 ?_, fun q hq => ?_⟩
  · simp only [eraseOuter, hread.node, Option.bind_eq_bind, Option.bind_some, hread.parent,
      hread.color, hm1, hm2]
  · exact hu1.frame fun q hq => hsame2 q (hout q (hsub.subset hq))
  · rw [perm_plug.mem_iff, List.mem_append, not_or] at hq
    rw [hsame2 q hq.2, hsame1 q hq.1]

/-- The end of the branch for two children: the successor `x` is in the place of `old`
already, and gets its left child and its colour. -/
theorem eraseInner_end {w : BitVec 64} {q : Addr} (haround : Around m.node m.root ctx x)
    (hx : m.node x = some (nodeAt .left w q (ptr r)))
    (hl : Shape m.node old l) (hr : Shape m.node x r) (hne : l ≠ .nil) (hfree : Free old)
    (haligned : ∀ p ∈ l.toList, Aligned p)
    (hnodup : (old :: x :: (l.toList ++ r.toList ++ outside ctx)).Nodup) :
    ∃ m1 m2 m3, assign x (fun r => { r with rbParentColor := pack (above ctx) c }) m = some m1 ∧
      setChild .left x (ptr l) m1 = some m2 ∧ rbSetParent (ptr l) x m2 = some m3 ∧
      Around m3.node m3.root ctx x ∧ Shape m3.node (above ctx) (.node c l x r) ∧
      ∀ p, p ≠ x → p ∉ l.toList → m3.node p = m.node p := by
  simp only [List.nodup_cons, List.nodup_append, List.mem_append, List.mem_cons] at hnodup
  obtain ⟨m1, hm1, hroot1, hx1, hsame1⟩ :=
    assign_spec hx fun r => { r with rbParentColor := pack (above ctx) c }
  rw [withWord_nodeAt] at hx1
  obtain ⟨m2, hm2, hroot2, hx2, hsame2⟩ := assign_spec hx1 (withChild .left (ptr l))
  rw [withChild_nodeAt] at hx2
  have hkeep : ∀ p, p ≠ x → m2.node p = m.node p := fun p hp => by
    rw [hsame2 p hp, hsame1 p hp]
  have hl2 : Shape m2.node old l := hl.frame fun p hp => hkeep p (by grind)
  obtain ⟨m3, hm3, hroot3, hl3, hsame3⟩ :=
    setParentIf_spec x hl2 hfree (by grind) haligned
  have hnull : ptr l ≠ null := (haligned _ (ptr_mem hne)).1
  rw [setParentIf, if_pos hnull] at hm3
  refine ⟨m1, m2, m3, hm1, hm2, hm3, ?_, ⟨?_, hl3, ?_⟩, fun p hp hpl => ?_⟩
  · rw [hroot3, hroot2, hroot1]
    exact haround.frame fun p hp => (hsame3 p (by grind)).trans (hkeep p (by grind))
  · rw [hsame3 x (by grind)]
    exact hx2
  · exact hr.frame fun p hp => (hsame3 p (by grind)).trans (hkeep p (by grind))
  · rw [hsame3 p hpl, hkeep p hp]

theorem ptr_plug_cons (f : Frame Addr) (side : List (Frame Addr)) (t u : ColoredTree Addr) :
    ptr (plug (f :: side) t) = ptr (plug (f :: side) u) := by
  induction side generalizing f t u with
  | nil =>
      show ptr (Frame.fill f t) = ptr (Frame.fill f u)
      rw [Frame.fill, Frame.fill, ptr_join, ptr_join]
  | cons f' side ih => exact ih f' _ _

theorem eraseDetach_spec (hx : m.node x = some (nodeAt .left (pack (aboveIn old side) c') null
      (ptr u))) {w : BitVec 64} {q : Addr}
    (hold : m.node old = some (nodeAt .left w q (ptr (plug side (.node c' .nil x u)))))
    (hshape : Shape m.node old (plug side (.node c' .nil x u)))
    (hleft : ∀ f ∈ side, f.side = .left)
    (hnodup : (old :: x :: (plug side u).toList).Nodup)
    (haligned : ∀ p ∈ old :: x :: (plug side u).toList, Aligned p) :
    ∃ m', eraseDetach old x (ptr u) (aboveIn old side) m = some (m', aboveIn x side) ∧
      m'.root = m.root ∧ Shape m'.node x (plug side u) ∧
      (∃ w, m'.node x = some (nodeAt .left w null (ptr (plug side u)))) ∧
      ∀ p, p ≠ x → p ∉ (plug side u).toList → m'.node p = m.node p := by
  cases side with
  | nil => exact ⟨m, if_pos rfl, rfl, hshape.2.2, ⟨_, hx⟩, fun _ _ _ => rfl⟩
  | cons f side =>
      obtain ⟨⟨hf, hsib, haround⟩, -, -, hu⟩ := shape_plug.mp ⟨rfl, hshape⟩
      have hperm : (plug (f :: side) u).toList.Perm
          (u.toList ++ (f.elem :: (f.sibling.toList ++ outside side))) :=
        perm_plug.trans (perm_outside_cons.append_left _)
      have hparts := ((hperm.cons x).cons old).nodup_iff.mp hnodup
      simp only [List.nodup_cons, List.nodup_append, List.mem_append, List.mem_cons] at hparts
      have hfelem : f.elem ∈ (plug (f :: side) u).toList := hperm.mem_iff.mpr (by simp)
      have husub : ∀ p ∈ u.toList, p ∈ (plug (f :: side) u).toList := fun p hp =>
        hperm.mem_iff.mpr (List.mem_append_left _ hp)
      have halignedr : ∀ p ∈ (plug (f :: side) u).toList, Aligned p := fun p hp =>
        haligned p (List.mem_cons_of_mem _ (List.mem_cons_of_mem _ hp))
      have hnull : ptr (plug (f :: side) u) ≠ null := by
        refine (halignedr _ (ptr_mem fun hnil => ?_)).1
        rw [hnil] at hfelem
        cases hfelem
      rw [ptr_plug_cons f side _ u] at hold
      obtain ⟨m1, hm1, hroot1, hu1, hsame1⟩ := setParentIf_spec f.elem hu
        (haligned x (by simp)).2 (by grind) fun p hp => halignedr p (husub p hp)
      have hf1 : m1.node f.elem
          = some (nodeAt .left (pack (aboveIn old side) f.color) x (ptr f.sibling)) := by
        rw [hsame1 _ (by grind), hf, hleft f List.mem_cons_self]
        rfl
      obtain ⟨m2, hm2, hroot2, hf2, hsame2⟩ := assign_spec hf1 (withChild .left (ptr u))
      have hkeep : ∀ p, p ≠ f.elem → p ∉ u.toList → m2.node p = m.node p := fun p hp hpu => by
        rw [hsame2 p hp, hsame1 p hpu]
      have hold2 := (hkeep old (by grind) (by grind)).trans hold
      have hx2 := (hkeep x (by grind) (by grind)).trans hx
      have hr2 : Shape m2.node old (plug (f :: side) u) := by
        have haround2 : AroundIn m2.node old (ptr (plug (f :: side) (.node c' .nil x u)))
            (f :: side) (ptr u) := by
          refine ⟨?_, hsib.frame fun p hp => hkeep p (by grind) (by grind),
            haround.frame fun p hp => hkeep p (by grind) (by grind)⟩
          rw [hf2, withChild_nodeAt, hleft f List.mem_cons_self]
        exact (shape_plug.mpr ⟨haround2, hu1.frame fun p hp => hsame2 p (by grind)⟩).2
      obtain ⟨m3, hm3, hroot3, hx3, hsame3⟩ :=
        assign_spec hx2 (withChild .right (ptr (plug (f :: side) u)))
      have hr3 : Shape m3.node old (plug (f :: side) u) :=
        hr2.frame fun p hp => hsame3 p (by grind)
      obtain ⟨m4, hm4, hroot4, hr4, hsame4⟩ := setParentIf_spec x hr3
        (haligned old (by simp)).2 (by grind) halignedr
      rw [setParentIf, if_pos hnull] at hm4
      refine ⟨m4, ?_, ?_, hr4, ⟨_, (hsame4 x (by grind)).trans hx3⟩, fun p hp hpr => ?_⟩
      · have hne : aboveIn old (f :: side) ≠ old := fun heq => by
          rw [aboveIn] at heq
          grind
        rw [eraseDetach, if_neg hne]
        simp only [aboveIn, hm1, Option.bind_eq_bind, Option.bind_some, setChild, hm2, hold2,
          rbRight_nodeAt, hm3, hm4]
      · rw [hroot4, hroot3, hroot2, hroot1]
      · have hpu : p ∉ u.toList := fun hmem => hpr (husub p hmem)
        have hpf : p ≠ f.elem := fun heq => hpr (heq ▸ hfelem)
        rw [hsame4 p hpr, hsame3 p hp, hkeep p hpf hpu]

theorem toList_successor (hleft : ∀ f ∈ side, f.side = .left) :
    (plug side (.node c .nil x u)).toList = x :: (plug side u).toList := by
  have hfirst : ∀ v : ColoredTree Addr, (plug side v).toList = v.toList ++ elemsAfter side :=
    order_outermost hleft
  rw [hfirst, hfirst]
  rfl

theorem eraseInner_spec (hold : Holds m (plug ctx (.node c l old (plug side (.node c' .nil x u)))))
    (hne : l ≠ .nil) (hleft : ∀ f ∈ side, f.side = .left) :
    ∃ m', eraseInner old x m = some (m', ptr u, aboveIn x side, bits c') ∧
      Holds m' (plug ctx (.node c l x (plug side u))) ∧
      ∀ q, q ∉ (plug ctx (.node c l x (plug side u))).toList → m'.node q = m.node q := by
  have hread : Reads m .left old (above ctx) c (ptr l) (ptr (plug side (.node c' .nil x u))) :=
    Holds.reads (s := .left) hold
  obtain ⟨haround, -, hl, hr⟩ := hold.focus
  obtain ⟨hnodup, hctx, hout⟩ := hold.apart
  obtain ⟨haligned, halignedctx⟩ := hold.aligned_of
  have hlist : (ColoredTree.node c l old (plug side (.node c' .nil x u))).toList
      = l.toList ++ old :: x :: (plug side u).toList := by
    rw [toList, toList_successor hleft]
  have hsub : (ColoredTree.node c l x (plug side u)).toList.Sublist
      (ColoredTree.node c l old (plug side (.node c' .nil x u))).toList := by
    rw [hlist]
    exact (List.sublist_cons_self _ _).append_left _
  rw [hlist] at hnodup hout haligned
  -- everything that the writes must not touch
  have hperm : (l.toList ++ old :: x :: (plug side u).toList).Perm
      (old :: x :: (l.toList ++ (plug side u).toList)) :=
    List.perm_middle.trans (List.perm_middle.cons old)
  have hall : (old :: x :: (l.toList ++ (plug side u).toList ++ outside ctx)).Nodup := by
    have happ := List.nodup_append.mpr ⟨hnodup, hctx, fun p hp q hq heq => hout p hp (heq ▸ hq)⟩
    exact (hperm.append_right (outside ctx)).nodup_iff.mp happ
  have hdistinct := hall
  simp only [List.nodup_cons, List.nodup_append, List.mem_append, List.mem_cons] at hdistinct
  simp only [hperm.mem_iff, List.mem_cons, List.mem_append] at hout haligned
  have hfree : Free old := (haligned old (.inl rfl)).2
  obtain ⟨m1, hm1, haround1, hsame1⟩ : ∃ m1, replaceChild .left (above ctx) old x m = some m1 ∧
      Around m1.node m1.root ctx x ∧ ∀ p, p ∉ outside ctx → m1.node p = m.node p :=
    replaceChild_spec .left x haround hctx halignedctx ⟨(haligned old (.inl rfl)).1, by grind⟩
  have hold1 := (hsame1 old (by grind)).trans hread.node
  have hr1 : Shape m1.node old (plug side (.node c' .nil x u)) := hr.frame fun p hp => by
    rw [toList_successor hleft, List.mem_cons] at hp
    exact hsame1 p (by grind)
  have hx1 : Reads m1 .left x (aboveIn old side) c' null (ptr u) := by
    refine ⟨(shape_plug.mp ⟨rfl, hr1⟩).2.1, ?_⟩
    cases side with
    | nil => exact hfree
    | cons f side =>
        refine (haligned f.elem (.inr (.inr (.inr ?_)))).2
        rw [perm_plug.mem_iff, List.mem_append, perm_outside_cons.mem_iff]
        exact .inr List.mem_cons_self
  obtain ⟨m2, hm2, hroot2, hr2, ⟨w, hx2⟩, hsame2⟩ := eraseDetach_spec hx1.node hold1 hr1 hleft
    (by grind) (by grind)
  have hold2 := (hsame2 old (by grind) (by grind)).trans hold1
  have hl2 : Shape m2.node old l := hl.frame fun p hp => by
    rw [hsame2 p (by grind) (by grind), hsame1 p (by grind)]
  have haround2 : Around m2.node m2.root ctx x := by
    rw [hroot2]
    exact haround1.frame fun p hp => hsame2 p (by grind) (by grind)
  obtain ⟨m3, m4, m5, hm3, hm4, hm5, haround5, hshape5, hsame5⟩ :=
    eraseInner_end haround2 hx2 hl2 hr2 hne hfree (fun p hp => haligned p (by tauto)) hall
  refine ⟨m5, ?_, holds_of hold hsub haround5 hshape5, fun q hq => ?_⟩
  · simp only [eraseInner, hread.node, Option.bind_eq_bind, Option.bind_some, hread.parent, hm1,
      hx1.node, hx1.parent, hx1.color, rbRight_nodeAt, hm2, hold2, word_nodeAt, rbLeft_nodeAt, hm3,
      hm4, hm5]
  · rw [perm_plug.mem_iff, List.mem_append, not_or, toList] at hq
    rw [hsame5 q (by grind) (by grind), hsame2 q (by grind) (by grind), hsame1 q (by grind)]

/-! ## The whole function

After a black node is taken out its place lacks one, which is how `__rb_erase_color`
begins. -/

theorem erase_middle {a b : List Addr} (h : (a ++ p :: b).Nodup) :
    (a ++ p :: b).erase p = a ++ b := by
  have hnot : p ∉ a := fun hp => (List.nodup_append.mp h).2.2 p hp p List.mem_cons_self rfl
  rw [List.erase_append_right _ hnot, List.erase_cons_head]

/-- The elements above do not matter. -/
theorem takes_elem {sib : ColoredTree Addr}
    (hctx : Takes h c n (side ++ ⟨s, c', p, sib⟩ :: ctx)) :
    Takes h c n (side ++ ⟨s, c', x, sib⟩ :: ctx) := by
  induction side generalizing c n with
  | nil =>
      cases hctx with
      | red hsib hctx => exact .red hsib hctx
      | black hsib hctx => exact .black hsib hctx
  | cons f side ih =>
      cases hctx with
      | red hsib hctx => exact .red hsib (ih hctx)
      | black hsib hctx => exact .black hsib (ih hctx)

theorem red_child (ht : Balanced .red n (join s .red t p u)) : Balanced .black n u := by
  cases s with
  | left => cases ht with | red hl hr => exact hr
  | right => cases ht with | red hl hr => exact hl

/-- A child of a black node is one black node short where that node was. -/
theorem lacks_child (ht : Balanced .black n (join s .black t p u)) :
    ∃ k, n = k + 1 ∧ Lacks k u := by
  obtain ⟨k, c, rfl, hu⟩ : ∃ k c, n = k + 1 ∧ Balanced c k u := by
    cases s with
    | left => cases ht with | black hl hr => exact ⟨_, _, rfl, hr⟩
    | right => cases ht with | black hl hr => exact ⟨_, _, rfl, hl⟩
  refine ⟨k, rfl, ?_⟩
  cases c with
  | black => exact .inl hu
  | red => exact .inr ⟨hu.color_eq, hu.blackenRed⟩

theorem takeOut_spec {rounds : Nat} (hold : Holds m t) (ht : Balanced .black h t)
    (hp : p ∈ t.toList) {k : Nat} (hk : WaysUpTo k t) (hlen : k + 2 ≤ rounds) :
    ∃ m' ctx u c s v x n, takeOut rounds p m = some (m', ptr u, above ctx, bits c) ∧
      Holds m' (plug ctx u) ∧ (plug ctx u).toList = t.toList.erase p ∧
      (∀ q, q ∉ (plug ctx u).toList → m'.node q = m.node q) ∧
      Takes h c n ctx ∧ Balanced c n (join s c v x u) ∧ ctx.length + 2 ≤ rounds := by
  obtain ⟨ctx, c, l, r, rfl⟩ := exists_place hp
  have hread : Reads m .left p (above ctx) c (ptr l) (ptr r) := Holds.reads (s := .left) hold
  obtain ⟨c1, n, hctx, hbal⟩ := Takes.of_plug ht
  have hc : c = c1 := hbal.color_eq
  subst hc
  have hshort := hk.length_le
  have hlist : (plug ctx (.node c l p r)).toList.erase p
      = elemsBefore ctx ++ (l.toList ++ r.toList) ++ elemsAfter ctx := by
    have hnodup := hold.nodup
    have heq : (plug ctx (.node c l p r)).toList
        = elemsBefore ctx ++ l.toList ++ p :: (r.toList ++ elemsAfter ctx) := by
      rw [toList_plug, toList, List.append_assoc, List.append_assoc, List.append_assoc]
      rfl
    rw [heq] at hnodup ⊢
    rw [erase_middle hnodup]
    simp only [List.append_assoc]
  rw [hlist]
  by_cases hl : l = .nil
  · subst hl
    have hout : Holds m (plug ctx (join .left c .nil p r)) := hold
    obtain ⟨m1, hm1, hold1, hsame1⟩ := eraseOuter_spec hout
    refine ⟨m1, ctx, r, c, .left, .nil, p, n, ?_, hold1, toList_plug ctx r, hsame1, hctx, hbal,
      by omega⟩
    simp only [takeOut, hread.node, Option.bind_eq_bind, Option.bind_some]
    refine (if_pos rfl).trans ?_
    rw [rbRight_nodeAt, hm1]
    rfl
  have hlnull : ptr l ≠ null := by
    refine (hold.aligned _ (perm_plug.mem_iff.mpr (List.mem_append_left _ ?_))).1
    exact List.mem_append_left _ (ptr_mem hl)
  by_cases hr : r = .nil
  · subst hr
    have hout : Holds m (plug ctx (join .right c .nil p l)) := hold
    obtain ⟨m1, hm1, hold1, hsame1⟩ := eraseOuter_spec hout
    refine ⟨m1, ctx, l, c, .right, .nil, p, n, ?_, hold1, ?_, hsame1, hctx, hbal, by omega⟩
    · simp only [takeOut, hread.node, Option.bind_eq_bind, Option.bind_some]
      refine (if_neg hlnull).trans ((if_pos rfl).trans ?_)
      rw [rbLeft_nodeAt, hm1]
      rfl
    · rw [toList_plug, toList, List.append_nil]
  · obtain ⟨side, c', x, u, rfl, hleft⟩ := exists_outermost .left hr
    have hrnull : ptr (plug side (join .left c' .nil x u)) ≠ null := by
      refine (hold.aligned _ (perm_plug.mem_iff.mpr (List.mem_append_left _ ?_))).1
      exact List.mem_append_right _ (List.mem_cons_of_mem _ (ptr_mem hr))
    have hwhole : plug ctx (.node c l p (plug side (join .left c' .nil x u)))
        = plug (side ++ ⟨.right, c, p, l⟩ :: ctx) (join .left c' .nil x u) :=
      (plug_append side (⟨.right, c, p, l⟩ :: ctx) _).symm
    have hright : Holds m (plug (⟨.right, c, p, l⟩ :: ctx) (plug side (join .left c' .nil x u))) :=
      hold
    have hlong := hk _ _ hwhole
    rw [List.length_append, List.length_cons] at hlong
    have hnext := descend_spec (s := .left) hleft (by omega : side.length < rounds) hright
    obtain ⟨c2, n2, hctx2, hbal2⟩ := Takes.of_plug (hwhole ▸ ht)
    have hc2 : c' = c2 := hbal2.color_eq
    subst hc2
    obtain ⟨m1, hm1, hold1, hsame1⟩ := eraseInner_spec hold hl hleft
    have hplug : plug (side ++ ⟨.right, c, x, l⟩ :: ctx) u = plug ctx (.node c l x (plug side u)) :=
      plug_append side (⟨.right, c, x, l⟩ :: ctx) u
    have habove : above (side ++ ⟨.right, c, x, l⟩ :: ctx) = aboveIn x side := by
      cases side <;> rfl
    have hwhole2 : (plug ctx (.node c l x (plug side u))).toList
        = elemsBefore ctx ++ (l.toList ++ (plug side (join .left c' .nil x u)).toList)
            ++ elemsAfter ctx := by
      rw [toList_plug, toList]
      exact congrArg (fun v => elemsBefore ctx ++ (l.toList ++ v) ++ elemsAfter ctx)
        (toList_successor hleft).symm
    refine ⟨m1, side ++ ⟨.right, c, x, l⟩ :: ctx, u, c', .left, .nil, x, n2, ?_, ?_, ?_, ?_,
      takes_elem hctx2, hbal2, ?_⟩
    · simp only [takeOut, hread.node, Option.bind_eq_bind, Option.bind_some]
      refine (if_neg hlnull).trans ((if_neg hrnull).trans ?_)
      rw [rbRight_nodeAt, hnext, habove]
      exact hm1
    · rw [hplug]
      exact hold1
    · rw [hplug, hwhole2]
    · rw [hplug]
      exact hsame1
    · rw [List.length_append, List.length_cons]
      omega

/-- What is done after a node of this colour is out. -/
theorem rbErase_end {rounds : Nat} (hlen : ctx.length + 2 ≤ rounds) (hold : Holds m (plug ctx u))
    (hctx : Takes h c n ctx) (ht : Balanced c n (join s c t p u)) :
    ∃ m' t' k, (if bits c = rbBlack then rbEraseColor rounds (ptr u) (above ctx) m else some m)
        = some m' ∧ Becomes m m' (plug ctx u) t' ∧ Balanced .black k t' := by
  cases c with
  | red =>
      exact ⟨m, _, h, if_neg (by decide), .refl hold, hctx.black_of.plug (red_child ht)⟩
  | black =>
      obtain ⟨k, rfl, hlacks⟩ := lacks_child ht
      exact rbEraseColor_spec hlen hold hlacks hctx

theorem rbErase_spec {rounds : Nat} (hold : Holds m t) (ht : Balanced .black h t)
    (hp : p ∈ t.toList) {k : Nat} (hk : WaysUpTo k t) (hlen : k + 2 ≤ rounds) :
    ∃ m' t' k, rbErase rounds p m = some m' ∧ Holds m' t' ∧ t'.toList = t.toList.erase p ∧
      (∀ q, q ∉ t'.toList → m'.node q = m.node q) ∧ Balanced .black k t' := by
  obtain ⟨m1, ctx, u, c, s, v, x, n, hm1, hold1, hlist1, hsame1, hctx, hbal, hlen1⟩ :=
    takeOut_spec hold ht hp hk hlen
  obtain ⟨m2, t', n', hm2, h2, hbal'⟩ := rbErase_end hlen1 hold1 hctx hbal
  refine ⟨m2, t', n', ?_, h2.holds, h2.list.trans hlist1, fun q hq => ?_, hbal'⟩
  · rw [rbErase, hm1]
    exact hm2
  · rw [h2.list] at hq
    rw [h2.others q hq, hsame1 q hq]

end Erase

end Smalltable.Proofs.Rb
