import Mathlib.Algebra.GroupWithZero.Nat
import Mathlib.Data.List.Basic
import Mathlib.Data.List.Nodup

/-!
# Listing page by page

A list is read in pages, each the longest part of what is left that fits a room.
The next page is asked for by the last element of the one before, so it has to
begin behind that element. When every element fits by itself this comes to an end,
and the pages make up the list.
-/

namespace Smalltable

/-! ## What comes behind an element -/

section After

variable {α : Type} [DecidableEq α]

def after (x : α) (l : List α) : List α := (l.dropWhile fun y => y ≠ x).drop 1

@[simp] theorem after_nil (x : α) : after x [] = [] := rfl

theorem after_cons_self (x : α) (l : List α) : after x (x :: l) = l := by
  rw [after, List.dropWhile_cons_of_neg (by simp)]
  rfl

theorem after_cons_of_ne {x y : α} (h : y ≠ x) (l : List α) : after x (y :: l) = after x l := by
  rw [after, List.dropWhile_cons_of_pos (by simpa using h), after]

theorem after_append_of_not_mem {x : α} {l : List α} (h : x ∉ l) (r : List α) :
    after x (l ++ r) = after x r := by
  induction l with
  | nil => rfl
  | cons y rest ih =>
      obtain ⟨hy, hrest⟩ := not_or.mp fun hor => h (List.mem_cons.mpr hor)
      rw [List.cons_append, after_cons_of_ne (Ne.symm hy), ih hrest]

theorem after_append_of_mem {x : α} {l : List α} (h : x ∈ l) (r : List α) :
    after x (l ++ r) = after x l ++ r := by
  induction l with
  | nil => cases h
  | cons y rest ih =>
      by_cases hy : y = x
      · subst hy
        rw [List.cons_append, after_cons_self, after_cons_self]
      · have hrest : x ∈ rest := (List.mem_cons.mp h).resolve_left (Ne.symm hy)
        rw [List.cons_append, after_cons_of_ne hy, after_cons_of_ne hy, ih hrest]

theorem after_map {β : Type} [DecidableEq β] {f : α → β} {x : α} {l : List α}
    (h : ∀ y ∈ l, f y = f x → y = x) : after (f x) (l.map f) = (after x l).map f := by
  induction l with
  | nil => rfl
  | cons y rest ih =>
      have hrest := ih fun z hz => h z (List.mem_cons_of_mem _ hz)
      by_cases hy : y = x
      · subst hy
        rw [List.map_cons, after_cons_self, after_cons_self]
      · have hfy : f y ≠ f x := fun heq => hy (h y List.mem_cons_self heq)
        rw [List.map_cons, after_cons_of_ne hfy, after_cons_of_ne hy, hrest]

/-- In a list that is in order, what comes behind an element is what is greater. -/
theorem mem_after_iff {r : α → α → Prop} (hasymm : ∀ y z, r y z → ¬ r z y) {x : α} {l : List α}
    (hsorted : l.Pairwise r) (hx : x ∈ l) (y : α) : y ∈ after x l ↔ y ∈ l ∧ r x y := by
  induction l with
  | nil => cases hx
  | cons z rest ih =>
      obtain ⟨hz, hrest⟩ := List.pairwise_cons.mp hsorted
      by_cases hzx : z = x
      · subst hzx
        rw [after_cons_self]
        constructor
        · exact fun hy => ⟨List.mem_cons_of_mem _ hy, hz y hy⟩
        · rintro ⟨hy, hlt⟩
          exact (List.mem_cons.mp hy).resolve_left fun heq => hasymm z y hlt (heq ▸ hlt)
      · have hmem : x ∈ rest := (List.mem_cons.mp hx).resolve_left (Ne.symm hzx)
        rw [after_cons_of_ne hzx, ih hrest hmem, List.mem_cons]
        refine ⟨fun h => ⟨.inr h.1, h.2⟩, fun h => ⟨h.1.resolve_left fun heq => ?_, h.2⟩⟩
        rw [heq] at h
        exact hasymm z x (hz x hmem) h.2

/-- Blocks in the order of their numbers: those before the block of `x` are left
out, and those behind it are taken as they are. -/
theorem after_flatMap {β : Type} (num : β → Int) {f : β → List α} {x : α} {b : β} :
    ∀ {bs : List β}, bs.Pairwise (fun b b' => num b < num b') → b ∈ bs → x ∈ f b →
      (∀ b' ∈ bs, x ∈ f b' → num b' = num b) →
      after x (bs.flatMap f) = bs.flatMap fun b' =>
        if num b ≤ num b' then if num b' = num b then after x (f b') else f b' else [] := by
  intro bs
  induction bs with
  | nil => intro _ hb; cases hb
  | cons c rest ih =>
      intro hsorted hb hx honly
      obtain ⟨hc, hrest⟩ := List.pairwise_cons.mp hsorted
      rw [List.flatMap_cons, List.flatMap_cons]
      by_cases hcb : num c = num b
      · have hbc : b = c := by
          rcases List.mem_cons.mp hb with hbc | hmem
          · exact hbc
          · have hlt := hc b hmem
            omega
        subst hbc
        have hlater : ∀ b' ∈ rest, (if num b ≤ num b' then
            if num b' = num b then after x (f b') else f b' else []) = f b' := by
          intro b' hb'
          have hlt := hc b' hb'
          rw [if_pos (by omega), if_neg (by omega)]
        rw [after_append_of_mem hx, if_pos (Int.le_refl _), if_pos rfl,
          List.flatMap_congr fun b' hb' => (hlater b' hb').symm]
      · have hmem : b ∈ rest := (List.mem_cons.mp hb).resolve_left fun h => hcb (by rw [h])
        have hlt := hc b hmem
        have hxc : x ∉ f c := fun hxc => hcb (honly c List.mem_cons_self hxc)
        rw [after_append_of_not_mem hxc, if_neg (by omega), List.nil_append]
        exact ih hrest hmem hx fun b' hb' => honly b' (List.mem_cons_of_mem _ hb')

end After

/-! ## Pages -/

section Pages

variable {α : Type} {κ : Type}

/-- The longest part that fits. -/
def fitting (size : α → Nat) : Nat → List α → List α
  | _, [] => []
  | room, x :: rest => if size x ≤ room then x :: fitting size (room - size x) rest else []

theorem fitting_front (size : α → Nat) (room : Nat) (l : List α) : fitting size room l <+: l := by
  induction l generalizing room with
  | nil => exact List.prefix_refl _
  | cons x rest ih =>
      rw [fitting]
      split
      · exact List.cons_prefix_cons.mpr ⟨rfl, ih _⟩
      · exact List.nil_prefix

theorem fitting_all {size : α → Nat} {room : Nat} {l : List α} (h : (l.map size).sum ≤ room) :
    fitting size room l = l := by
  induction l generalizing room with
  | nil => rfl
  | cons x rest ih =>
      rw [List.map_cons, List.sum_cons] at h
      rw [fitting, if_pos (by omega), ih (by omega)]

theorem fitting_eq_nil {size : α → Nat} {room : Nat} {l : List α} (h : ∀ x ∈ l, size x ≤ room) :
    fitting size room l = [] ↔ l = [] := by
  cases l with
  | nil => exact iff_of_true rfl rfl
  | cons x rest =>
      rw [fitting, if_pos (h x List.mem_cons_self)]
      exact iff_of_false (List.cons_ne_nil _ _) (List.cons_ne_nil _ _)

theorem fitting_map {β : Type} (size : α → Nat) (f : β → α) (room : Nat) (l : List β) :
    fitting size room (l.map f) = (fitting (size ∘ f) room l).map f := by
  induction l generalizing room with
  | nil => rfl
  | cons x rest ih =>
      rw [List.map_cons, fitting, fitting, Function.comp_apply]
      split
      · rw [ih, List.map_cons]
      · rfl

/-- Page after page, until one is empty. A page that cannot be read, and a number
of rounds that is used up, are `none`. -/
def collectPages (page : κ → Option (List α)) (cursor : α → κ) : Nat → κ → Option (List (List α))
  | 0, _ => none
  | n + 1, start =>
      match page start with
      | none => none
      | some items =>
          match items.getLast? with
          | none => some []
          | some last => (collectPages page cursor n (cursor last)).map (items :: ·)

variable [DecidableEq α]

theorem collectPages_flatten {page : κ → Option (List α)} (cursor : α → κ) {size : α → Nat}
    {room : Nat}
    {l : List α} (hnodup : l.Nodup) (hroom : ∀ x ∈ l, size x ≤ room)
    (hnext : ∀ x ∈ l, page (cursor x) = some (fitting size room (after x l))) :
    ∀ (n : Nat) (front rest : List α) (start : κ), l = front ++ rest → rest.length < n →
      page start = some (fitting size room rest) →
      ∃ pages, collectPages page cursor n start = some pages ∧ pages.flatten = rest := by
  intro n
  induction n with
  | zero => intro _ _ _ _ hn; omega
  | succ n ih =>
      intro front rest start hl hn hpage
      obtain ⟨behind, hbehind⟩ := fitting_front size room rest
      simp only [collectPages, hpage]
      cases hlast : (fitting size room rest).getLast? with
      | none =>
          have hnil := List.getLast?_eq_none_iff.mp hlast
          refine ⟨[], rfl, ?_⟩
          rw [List.flatten_nil]
          refine ((fitting_eq_nil fun x hx => hroom x ?_).mp hnil).symm
          rw [hl]
          exact List.mem_append_right _ hx
      | some last =>
          obtain ⟨items, hitems⟩ := List.getLast?_eq_some_iff.mp hlast
          rw [hitems] at hbehind ⊢
          have hl' : l = (front ++ items) ++ last :: behind := by
            rw [hl, ← hbehind]
            simp
          have hnot : last ∉ front ++ items := by
            rw [hl'] at hnodup
            exact fun hmem => (List.nodup_append.mp hnodup).2.2 _ hmem _ List.mem_cons_self rfl
          have hafter : after last l = behind := by
            rw [hl', after_append_of_not_mem hnot, after_cons_self]
          have hmem : last ∈ l := by
            rw [hl']
            exact List.mem_append_right _ List.mem_cons_self
          have hshort : behind.length < n := by
            have hlen := congrArg List.length hbehind
            simp only [List.length_append, List.length_singleton] at hlen
            omega
          obtain ⟨pages, hpages, hflat⟩ := ih (front ++ items ++ [last]) behind (cursor last)
            (by rw [hl']; simp) hshort (by rw [hnext last hmem, hafter])
          simp only [hpages, Option.map_some]
          refine ⟨_, rfl, ?_⟩
          rw [List.flatten_cons, hflat, hbehind]

end Pages

end Smalltable
