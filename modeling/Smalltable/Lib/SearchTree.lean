import Mathlib.Data.List.Basic
import Mathlib.Data.List.Induction
import Mathlib.Order.Lattice

/-!
# Search trees with a three-way comparison

Binary trees searched by a comparison that answers with a negative number, zero
or a positive one, as C code does it. Nothing is assumed about the shape of a
tree, so a balancing scheme may do as it likes as long as it keeps the in-order
list.

`insertBy` refuses an element that compares equal to one on its way; on a
sorted tree that is exactly an element whose key is there already
(`insertBy_eq_none_iff`), and otherwise the tree keeps its elements and stays
sorted. `floorBy` looks for the last element that is not greater than what is
searched for, comparing with the in-order successor on the way down; it finds it
(`floorBy_eq_getLast?`), and it is the same search as one that asks for the
successor of every node it visits (`floorWith_eq_floorBy`).
-/

namespace Smalltable

inductive Tree (α : Type) where
  | leaf
  | node (left : Tree α) (a : α) (right : Tree α)

namespace Tree

variable {α κ : Type}

def toList : Tree α → List α
  | leaf => []
  | node l a r => l.toList ++ a :: r.toList

def leftmost : Tree α → Option α
  | leaf => none
  | node leaf a _ => some a
  | node (node l b r) _ _ => leftmost (node l b r)

def insertBy (cmp : α → α → Int) (a : α) : Tree α → Option (Tree α)
  | leaf => some (node leaf a leaf)
  | node l b r =>
      if cmp a b < 0 then (insertBy cmp a l).map (node · b r)
      else if cmp a b > 0 then (insertBy cmp a r).map (node l b)
      else none

/-- `next` is what follows the subtree in order. -/
def floorBy (cmp : α → Int) (next : Option α) : Tree α → Option α
  | leaf => none
  | node l a r =>
      if cmp a < 0 then floorBy cmp (some a) l
      else
        match r.leftmost.or next with
        | none => some a
        | some b => if cmp b < 0 then some a else floorBy cmp next r

/-- The same search, with a function that gives the successor of a node. -/
def floorWith (succ : α → Option α) (cmp : α → Int) : Tree α → Option α
  | leaf => none
  | node l a r =>
      if cmp a < 0 then floorWith succ cmp l
      else
        match succ a with
        | none => some a
        | some b => if cmp b < 0 then some a else floorWith succ cmp r

/-- What follows each element in order. -/
def IsSuccessor (succ : α → Option α) (t : Tree α) : Prop :=
  ∀ before a after, t.toList = before ++ a :: after → succ a = after.head?

/-- The comparison is that of the keys. -/
structure OrdersBy [LinearOrder κ] (cmp : α → α → Int) (key : α → κ) : Prop where
  lt : ∀ a b, cmp a b < 0 ↔ key a < key b
  gt : ∀ a b, cmp a b > 0 ↔ key b < key a

def Sorted [LinearOrder κ] (key : α → κ) (t : Tree α) : Prop :=
  t.toList.Pairwise fun a b => key a < key b

section Insert

variable [LinearOrder κ] {cmp : α → α → Int} {key : α → κ} (hcmp : OrdersBy cmp key)

theorem sorted_node {l r : Tree α} {b : α} : (node l b r).Sorted key ↔
    l.Sorted key ∧ r.Sorted key ∧ (∀ x ∈ l.toList, key x < key b) ∧
      (∀ y ∈ r.toList, key b < key y) ∧ ∀ x ∈ l.toList, ∀ y ∈ r.toList, key x < key y := by
  rw [Sorted, toList, List.pairwise_append, List.pairwise_cons]
  simp only [List.mem_cons, forall_eq_or_imp]
  constructor
  · rintro ⟨h1, ⟨h2, h3⟩, h4⟩
    exact ⟨h1, h3, fun x hx => (h4 x hx).1, h2, fun x hx => (h4 x hx).2⟩
  · rintro ⟨h1, h2, h3, h4, h5⟩
    exact ⟨h1, ⟨h4, h2⟩, fun x hx => ⟨h3 x hx, h5 x hx⟩⟩

theorem insertBy_perm {a : α} : ∀ {t t' : Tree α}, insertBy cmp a t = some t' →
    t'.toList.Perm (a :: t.toList) := by
  intro t
  induction t with
  | leaf => intro t' h; cases h; exact .refl _
  | node l b r ihl ihr =>
      intro t' h
      rw [insertBy] at h
      split at h
      · obtain ⟨l', hl', rfl⟩ := Option.map_eq_some_iff.mp h
        exact (ihl hl').append_right _
      · split at h
        · obtain ⟨r', hr', rfl⟩ := Option.map_eq_some_iff.mp h
          have hr := ((ihr hr').cons b).trans (List.Perm.swap a b r.toList)
          exact (hr.append_left l.toList).trans List.perm_middle
        · cases h

include hcmp

theorem insertBy_eq_none_iff {a : α} : ∀ {t : Tree α}, t.Sorted key →
    (insertBy cmp a t = none ↔ ∃ b ∈ t.toList, key b = key a) := by
  intro t
  induction t with
  | leaf => intro _; simp [insertBy, toList]
  | node l b r ihl ihr =>
      intro hs
      obtain ⟨hl, hr, hlb, hbr, -⟩ := sorted_node.mp hs
      rw [insertBy]
      split
      · next hlt =>
          have hkey := (hcmp.lt a b).mp hlt
          rw [Option.map_eq_none_iff, ihl hl]
          constructor
          · rintro ⟨x, hx, heq⟩
            exact ⟨x, List.mem_append_left _ hx, heq⟩
          · rintro ⟨x, hx, heq⟩
            rcases List.mem_append.mp hx with hx | hx
            · exact ⟨x, hx, heq⟩
            · rcases List.mem_cons.mp hx with rfl | hx
              · exact absurd heq (ne_of_gt hkey)
              · exact absurd heq (ne_of_gt (lt_trans hkey (hbr x hx)))
      · split
        · next hgt =>
            have hkey := (hcmp.gt a b).mp hgt
            rw [Option.map_eq_none_iff, ihr hr]
            constructor
            · rintro ⟨x, hx, heq⟩
              exact ⟨x, List.mem_append_right _ (List.mem_cons_of_mem _ hx), heq⟩
            · rintro ⟨x, hx, heq⟩
              rcases List.mem_append.mp hx with hx | hx
              · exact absurd heq (ne_of_lt (lt_trans (hlb x hx) hkey))
              · rcases List.mem_cons.mp hx with rfl | hx
                · exact absurd heq (ne_of_lt hkey)
                · exact ⟨x, hx, heq⟩
        · next hlt hgt =>
            -- neither less nor greater
            have heq : key b = key a := by
              rw [hcmp.lt] at hlt
              rw [hcmp.gt] at hgt
              exact le_antisymm (not_lt.mp hlt) (not_lt.mp hgt)
            refine ⟨fun _ => ⟨b, ?_, heq⟩, fun _ => rfl⟩
            exact List.mem_append_right _ List.mem_cons_self

theorem insertBy_sorted {a : α} : ∀ {t t' : Tree α}, t.Sorted key →
    insertBy cmp a t = some t' → t'.Sorted key := by
  intro t
  induction t with
  | leaf =>
      intro t' _ h
      cases h
      exact List.pairwise_singleton _ _
  | node l b r ihl ihr =>
      intro t' hs h
      obtain ⟨hl, hr, hlb, hbr, hlr⟩ := sorted_node.mp hs
      rw [insertBy] at h
      split at h
      · next hlt =>
          have hkey := (hcmp.lt a b).mp hlt
          obtain ⟨l', hl', rfl⟩ := Option.map_eq_some_iff.mp h
          have hmem : ∀ x ∈ l'.toList, x = a ∨ x ∈ l.toList := fun x hx =>
            List.mem_cons.mp ((insertBy_perm hl').mem_iff.mp hx)
          refine sorted_node.mpr ⟨ihl hl hl', hr, ?_, hbr, ?_⟩
          · intro x hx
            rcases hmem x hx with rfl | hx
            · exact hkey
            · exact hlb x hx
          · intro x hx y hy
            rcases hmem x hx with rfl | hx
            · exact lt_trans hkey (hbr y hy)
            · exact hlr x hx y hy
      · split at h
        · next hgt =>
            have hkey := (hcmp.gt a b).mp hgt
            obtain ⟨r', hr', rfl⟩ := Option.map_eq_some_iff.mp h
            have hmem : ∀ x ∈ r'.toList, x = a ∨ x ∈ r.toList := fun x hx =>
              List.mem_cons.mp ((insertBy_perm hr').mem_iff.mp hx)
            refine sorted_node.mpr ⟨hl, ihr hr hr', hlb, ?_, ?_⟩
            · intro y hy
              rcases hmem y hy with rfl | hy
              · exact hkey
              · exact hbr y hy
            · intro x hx y hy
              rcases hmem y hy with rfl | hy
              · exact lt_trans (hlb x hx) hkey
              · exact hlr x hx y hy
        · cases h

end Insert

section Floor

variable {cmp : α → Int}

theorem leftmost_isSome {l r : Tree α} {a : α} : ∃ b, (node l a r).leftmost = some b := by
  induction l generalizing a r with
  | leaf => exact ⟨a, rfl⟩
  | node l b r' ihl _ => exact ihl

theorem floorBy_mem {next : Option α} : ∀ {t : Tree α} {a : α}, floorBy cmp next t = some a →
    a ∈ t.toList := by
  intro t
  induction t generalizing next with
  | leaf => intro a h; cases h
  | node l b r ihl ihr =>
      intro a h
      rw [floorBy] at h
      split at h
      · exact List.mem_append_left _ (ihl h)
      · split at h
        · cases h
          exact List.mem_append_right _ List.mem_cons_self
        · split at h
          · cases h
            exact List.mem_append_right _ List.mem_cons_self
          · exact List.mem_append_right _ (List.mem_cons_of_mem _ (ihr h))

theorem floorBy_not_lt {next : Option α} : ∀ {t : Tree α} {a : α}, floorBy cmp next t = some a →
    ¬ cmp a < 0 := by
  intro t
  induction t generalizing next with
  | leaf => intro a h; cases h
  | node l b r ihl ihr =>
      intro a h
      rw [floorBy] at h
      split at h
      · exact ihl h
      · next hge =>
          split at h
          · cases h; exact hge
          · split at h
            · cases h; exact hge
            · exact ihr h

/-- The search succeeds when it starts at or after the first element, and
before what follows the tree. -/
theorem floorBy_isSome {next : Option α} (hnext : ∀ b, next = some b → cmp b < 0) :
    ∀ {t : Tree α} {a : α}, t.leftmost = some a → ¬ cmp a < 0 →
      ∃ b, floorBy cmp next t = some b := by
  intro t
  induction t generalizing next with
  | leaf => intro a h; cases h
  | node l b r ihl ihr =>
      intro a hleft ha
      rw [floorBy]
      split
      · next hlt =>
          cases l with
          | leaf =>
              cases hleft
              exact absurd hlt ha
          | node l' c r' =>
              refine ihl ?_ hleft ha
              intro x hx
              cases hx
              exact hlt
      · split
        · exact ⟨b, rfl⟩
        · next c hc =>
            split
            · exact ⟨b, rfl⟩
            · next hge =>
                cases r with
                | leaf => exact absurd (hnext c hc) hge
                | node l' d r' =>
                    obtain ⟨e, he⟩ := leftmost_isSome (l := l') (a := d) (r := r')
                    rw [he] at hc
                    cases hc
                    exact ihr hnext he hge

theorem leftmost_eq_head? : ∀ t : Tree α, t.leftmost = t.toList.head? := by
  intro t
  induction t with
  | leaf => rfl
  | node l a r ihl _ =>
      cases l with
      | leaf => rfl
      | node l' b r' =>
          have hne : (node l' b r').toList ≠ [] := by
            rw [toList]
            exact List.append_ne_nil_of_right_ne_nil _ (List.cons_ne_nil _ _)
          show (node l' b r').leftmost = ((node l' b r').toList ++ a :: r.toList).head?
          rw [ihl, List.head?_append_of_ne_nil _ hne]

/-- The way down knows the successor: it is the first element of what is left
of the tree to the right. -/
theorem floorWith_eq {succ : α → Option α} {whole : List α}
    (hsucc : ∀ before a after, whole = before ++ a :: after → succ a = after.head?) :
    ∀ {t : Tree α} {before after : List α}, whole = before ++ (t.toList ++ after) →
      floorWith succ cmp t = floorBy cmp after.head? t := by
  intro t
  induction t with
  | leaf => intro before after _; rfl
  | node l a r ihl ihr =>
      intro before after h
      rw [toList, List.append_assoc, List.cons_append] at h
      have hnext : succ a = r.leftmost.or after.head? := by
        rw [hsucc (before ++ l.toList) a (r.toList ++ after) (by rw [h, List.append_assoc]),
          List.head?_append, leftmost_eq_head?]
      have hleft : floorWith succ cmp l = floorBy cmp (some a) l := ihl h
      have hright : floorWith succ cmp r = floorBy cmp after.head? r := by
        refine @ihr (before ++ (l.toList ++ [a])) after ?_
        rw [h]
        simp only [List.append_assoc, List.cons_append, List.nil_append]
      rw [floorWith, floorBy, hleft, hright, hnext]

theorem floorWith_eq_floorBy {succ : α → Option α} {t : Tree α} (h : IsSuccessor succ t) :
    floorWith succ cmp t = floorBy cmp none t := by
  have hwhole : t.toList = [] ++ (t.toList ++ []) := by rw [List.append_nil, List.nil_append]
  exact floorWith_eq h hwhole

/-- The search finds the last element that is not greater. The comparison is
with something that lies before what follows the tree. -/
theorem floorBy_eq_getLast? [LinearOrder κ] {key : α → κ} {k : κ}
    (hcmp : ∀ a, cmp a < 0 ↔ k < key a) : ∀ {t : Tree α} {next : Option α}, t.Sorted key →
      (∀ b, next = some b → cmp b < 0) →
      floorBy cmp next t = (t.toList.filter fun a => ¬ cmp a < 0).getLast? := by
  intro t
  induction t with
  | leaf => intro next _ _; rfl
  | node l a r ihl ihr =>
      intro next hs hnext
      obtain ⟨hl, hr, -, har, -⟩ := sorted_node.mp hs
      -- what is right of an element that is greater is greater
      have hgreater : ∀ {b : α} {rest : List α}, cmp b < 0 → (∀ x ∈ rest, key b < key x) →
          rest.filter (fun x => ¬ cmp x < 0) = [] := by
        intro b rest hb hrest
        rw [List.filter_eq_nil_iff]
        intro x hx
        have hlt : k < key x := lt_trans ((hcmp b).mp hb) (hrest x hx)
        simp only [decide_eq_true_eq, not_not]
        exact (hcmp x).mpr hlt
      rw [floorBy, toList, List.filter_append]
      split
      · next hlt =>
          rw [List.filter_cons_of_neg (by simpa using hlt), hgreater hlt har, List.append_nil]
          refine ihl hl fun b hb => ?_
          cases hb
          exact hlt
      · next hge =>
          rw [List.filter_cons_of_pos (by simpa using hge)]
          cases r with
          | leaf =>
              have hlast : some a = (l.toList.filter (fun x => ¬ cmp x < 0) ++ [a]).getLast? :=
                List.getLast?_concat.symm
              cases next with
              | none => exact hlast
              | some b =>
                  show (if cmp b < 0 then some a else none) = _
                  rw [if_pos (hnext b rfl)]
                  exact hlast
          | node l' c r' =>
              obtain ⟨b, hb⟩ := leftmost_isSome (l := l') (a := c) (r := r')
              obtain ⟨rest, hlist⟩ : ∃ rest, (node l' c r').toList = b :: rest := by
                rw [leftmost_eq_head?] at hb
                exact List.head?_eq_some_iff.mp hb
              rw [hb]
              simp only [Option.some_or]
              split
              · next hlt =>
                  have hrest : ∀ x ∈ rest, key b < key x := by
                    rw [Sorted, hlist, List.pairwise_cons] at hr
                    exact hr.1
                  rw [hlist, List.filter_cons_of_neg (by simpa using hlt), hgreater hlt hrest,
                    List.getLast?_concat]
              · next hge' =>
                  have hne : (node l' c r').toList.filter (fun x => ¬ cmp x < 0) ≠ [] := by
                    rw [hlist, List.filter_cons_of_pos (by simpa using hge')]
                    exact List.cons_ne_nil _ _
                  rw [ihr hr hnext, List.getLast?_append_of_ne_nil _ (List.cons_ne_nil _ _),
                    List.getLast?_cons_of_ne_nil hne]

/-- The last element of an increasing list is the greatest. -/
theorem getLast?_eq_some_iff [LinearOrder κ] {key : α → κ} {l : List α}
    (hs : l.Pairwise fun a b => key a < key b) {a : α} :
    l.getLast? = some a ↔ a ∈ l ∧ ∀ b ∈ l, key b ≤ key a := by
  induction l using List.reverseRecOn with
  | nil => simp
  | append_singleton l x _ =>
      have hbelow : ∀ b ∈ l, key b < key x := fun b hb =>
        (List.pairwise_append.mp hs).2.2 b hb x List.mem_cons_self
      rw [List.getLast?_concat, Option.some_inj]
      constructor
      · rintro rfl
        refine ⟨List.mem_append_right _ List.mem_cons_self, fun b hb => ?_⟩
        rcases List.mem_append.mp hb with hb | hb
        · exact le_of_lt (hbelow b hb)
        · exact le_of_eq (congrArg key (List.mem_singleton.mp hb))
      · rintro ⟨ha, hmax⟩
        rcases List.mem_append.mp ha with ha | ha
        · exact absurd (hmax x (List.mem_append_right _ List.mem_cons_self))
            (not_le.mpr (hbelow a ha))
        · exact (List.mem_singleton.mp ha).symm

section Spec

variable [LinearOrder κ] {key : α → κ} {k : κ} (hcmp : ∀ a, cmp a < 0 ↔ k < key a)
include hcmp

/-- What is found is the greatest element that is not above. -/
theorem floorBy_eq_some_iff {t : Tree α} (hs : t.Sorted key) {a : α} :
    floorBy cmp none t = some a ↔
      a ∈ t.toList ∧ key a ≤ k ∧ ∀ b ∈ t.toList, key b ≤ k → key b ≤ key a := by
  have hfilter : (t.toList.filter fun a => ¬ cmp a < 0).Pairwise fun a b => key a < key b :=
    List.Pairwise.filter _ hs
  have hmem : ∀ b, b ∈ t.toList.filter (fun a => ¬ cmp a < 0) ↔ b ∈ t.toList ∧ key b ≤ k := by
    intro b
    rw [List.mem_filter, decide_eq_true_eq, hcmp, not_lt]
  have hnone : ∀ b, (none : Option α) = some b → cmp b < 0 := nofun
  rw [floorBy_eq_getLast? hcmp hs hnone, getLast?_eq_some_iff hfilter, hmem]
  constructor
  · rintro ⟨⟨ha, hle⟩, hmax⟩
    exact ⟨ha, hle, fun b hb hbk => hmax b ((hmem b).mpr ⟨hb, hbk⟩)⟩
  · rintro ⟨ha, hle, hmax⟩
    exact ⟨⟨ha, hle⟩, fun b hb => hmax b ((hmem b).mp hb).1 ((hmem b).mp hb).2⟩

theorem floorBy_eq_none_iff {t : Tree α} (hs : t.Sorted key) :
    floorBy cmp none t = none ↔ ∀ b ∈ t.toList, k < key b := by
  have hnone : ∀ b, (none : Option α) = some b → cmp b < 0 := nofun
  rw [floorBy_eq_getLast? hcmp hs hnone, List.getLast?_eq_none_iff, List.filter_eq_nil_iff]
  simp only [decide_eq_true_eq, not_not, hcmp]

/-- Each element is found for what lies between it and its successor. -/
theorem floorBy_eq_some_iff_between {t : Tree α} (hs : t.Sorted key) {before after : List α}
    {a : α} (ht : t.toList = before ++ a :: after) :
    floorBy cmp none t = some a ↔ key a ≤ k ∧ ∀ b, after.head? = some b → k < key b := by
  rw [floorBy_eq_some_iff hcmp hs, ht]
  rw [Sorted, ht, List.pairwise_append, List.pairwise_cons] at hs
  obtain ⟨-, ⟨hafter, hsorted⟩, hbefore⟩ := hs
  constructor
  · rintro ⟨-, hle, hmax⟩
    refine ⟨hle, fun b hb => ?_⟩
    have hmem : b ∈ after := List.mem_of_head? hb
    by_contra hge
    exact absurd (hmax b (List.mem_append_right _ (List.mem_cons_of_mem _ hmem)) (not_lt.mp hge))
      (not_le.mpr (hafter b hmem))
  · rintro ⟨hle, hnext⟩
    refine ⟨List.mem_append_right _ List.mem_cons_self, hle, fun b hb hbk => ?_⟩
    rcases List.mem_append.mp hb with hb | hb
    · exact le_of_lt (hbefore b hb a List.mem_cons_self)
    · rcases List.mem_cons.mp hb with rfl | hb
      · exact le_rfl
      · -- what is behind the successor is above it
        obtain ⟨c, rest, rfl⟩ := List.exists_cons_of_ne_nil (List.ne_nil_of_mem hb)
        have hc : k < key c := hnext c rfl
        rcases List.mem_cons.mp hb with rfl | hb
        · exact absurd hbk (not_le.mpr hc)
        · exact absurd hbk (not_le.mpr (lt_trans hc ((List.pairwise_cons.mp hsorted).1 b hb)))

end Spec

end Floor

end Tree

end Smalltable
