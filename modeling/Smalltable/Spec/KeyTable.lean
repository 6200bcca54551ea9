import Mathlib.Data.List.Sort
import Smalltable.Ref.ConfigTrees

/-!
# What the trees of a configuration are for

A table has its entries in the order of their keys, and each key once. An entry
is added if its key is new, and is deleted by its address; what is found for a
key is the last entry that is not after it.
-/

namespace Smalltable.Spec

open Smalltable.Ref.Rb

/-- The entries, with their addresses. -/
abbrev KeyTable (α : Type) := List (Addr × α)

section Calls

variable {α β κ : Type} [LinearOrder κ] (key : α → κ) (keyOf : β → κ)

def Ascending (t : KeyTable α) : Prop := t.Pairwise fun x y => key x.2 < key y.2

def addEntry (p : Addr) (a : α) (t : KeyTable α) : KeyTable α :=
  t.orderedInsert (fun x y => key x.2 < key y.2) (p, a)

def lastUpTo (k : κ) (t : KeyTable α) : Option (Addr × α) :=
  (t.filter fun x => key x.2 ≤ k).getLast?

def tableCall (t : KeyTable α) : TreeCall α β → KeyTable α × TreeAnswer
  | .newItem p a =>
      if ∃ x ∈ t, key x.2 = key a then (t, .created false)
      else (addEntry key p a t, .created true)
  | .delItem p => (t.filter fun x => x.1 ≠ p, .deleted)
  | .find b => (t, .found (((lastUpTo key (keyOf b) t).map Prod.fst).getD null))
  | .walk => (t, .walked (t.map Prod.fst))
  | .freeAll => ([], .freed)

def tableCalls : KeyTable α → List (TreeCall α β) → KeyTable α × List TreeAnswer
  | t, [] => (t, [])
  | t, c :: calls =>
      let r := tableCall key keyOf t c
      let rest := tableCalls r.1 calls
      (rest.1, r.2 :: rest.2)

/-- A new entry is at an address that is not in use, and a deleted one is there. -/
def Allowed (t : KeyTable α) : TreeCall α β → Prop
  | .newItem p _ => Aligned p ∧ p ∉ t.map Prod.fst
  | .delItem p => p ∈ t.map Prod.fst
  | _ => True

def AllAllowed : KeyTable α → List (TreeCall α β) → Prop
  | _, [] => True
  | t, c :: calls => Allowed t c ∧ AllAllowed (tableCall key keyOf t c).1 calls

instance (t : KeyTable α) (c : TreeCall α β) : Decidable (Allowed t c) :=
  match c with
  | .newItem _ _ => inferInstanceAs (Decidable (_ ∧ _))
  | .delItem _ => inferInstanceAs (Decidable (_ ∈ _))
  | .find _ | .walk | .freeAll => .isTrue trivial

instance decidableAllAllowed : ∀ (calls : List (TreeCall α β)) (t : KeyTable α),
    Decidable (AllAllowed key keyOf t calls)
  | [], _ => .isTrue trivial
  | c :: calls, t =>
      @instDecidableAnd _ _ _ (decidableAllAllowed calls (tableCall key keyOf t c).1)

theorem perm_addEntry (p : Addr) (a : α) (t : KeyTable α) :
    (addEntry key p a t).Perm ((p, a) :: t) := List.perm_orderedInsert _ _ _

variable {key} {t : KeyTable α}

theorem ascending_addEntry (ht : Ascending key t) (p : Addr) {a : α}
    (hnew : ¬ ∃ x ∈ t, key x.2 = key a) : Ascending key (addEntry key p a t) := by
  induction t with
  | nil => exact List.pairwise_singleton _ _
  | cons x t ih =>
      obtain ⟨hx, ht⟩ := List.pairwise_cons.mp ht
      rw [addEntry, List.orderedInsert_cons]
      split
      · next hlt =>
          refine List.pairwise_cons.mpr ⟨fun y hy => ?_, List.pairwise_cons.mpr ⟨hx, ht⟩⟩
          rcases List.mem_cons.mp hy with rfl | hy
          · exact hlt
          · exact lt_trans hlt (hx y hy)
      · next hge =>
          have hne : key x.2 ≠ key a := fun heq => hnew ⟨x, List.mem_cons_self, heq⟩
          have hlt : key x.2 < key a := lt_of_le_of_ne (not_lt.mp hge) hne
          refine List.pairwise_cons.mpr ⟨fun y hy => ?_, ih ht fun ⟨y, hy, heq⟩ =>
            hnew ⟨y, List.mem_cons_of_mem _ hy, heq⟩⟩
          rcases List.mem_cons.mp ((perm_addEntry key p a t).mem_iff.mp hy) with rfl | hy
          · exact hlt
          · exact hx y hy

/-- A table is known by its entries. -/
theorem eq_of_perm {t' : KeyTable α} (ht : Ascending key t) (ht' : Ascending key t')
    (hperm : t.Perm t') : t = t' :=
  List.Perm.eq_of_pairwise (fun _ _ _ _ hlt hgt => absurd hlt (lt_asymm hgt)) ht ht' hperm

theorem ascending_tableCall (ht : Ascending key t) (c : TreeCall α β) :
    Ascending key (tableCall key keyOf t c).1 := by
  cases c with
  | newItem p a =>
      rw [tableCall]
      split
      · exact ht
      · next hnew => exact ascending_addEntry ht p hnew
  | delItem p => exact List.Pairwise.filter _ ht
  | find b => exact ht
  | walk => exact ht
  | freeAll => exact List.Pairwise.nil

theorem length_tableCall_le (t : KeyTable α) (c : TreeCall α β) :
    (tableCall key keyOf t c).1.length ≤ t.length + 1 := by
  cases c with
  | newItem p a =>
      rw [tableCall]
      split
      · exact Nat.le_succ _
      · exact (perm_addEntry key p a t).length_eq.le
  | delItem p => exact (List.length_filter_le _ _).trans (Nat.le_succ _)
  | find b => exact Nat.le_succ _
  | walk => exact Nat.le_succ _
  | freeAll => exact Nat.zero_le _

end Calls

end Smalltable.Spec
