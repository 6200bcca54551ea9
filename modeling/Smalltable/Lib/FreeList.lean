/-!
# Lists threaded through memory

An intrusive list keeps the pointer to the next node in the node itself. `next` reads that
pointer: `none` where there is no node, `some none` at the last one. `Threaded next p l`
says that the nodes from `p` on are `l`. A node that is pushed brings its own pointer, the
first node can be taken off, and a change of memory that leaves the pointers of the nodes
alone leaves the list alone.
-/

namespace Smalltable

variable {A : Type}

def Threaded (next : A → Option (Option A)) : Option A → List A → Prop
  | p, [] => p = none
  | p, a :: rest => p = some a ∧ ∃ p', next a = some p' ∧ Threaded next p' rest

variable {next next' : A → Option (Option A)} {p : Option A} {a : A} {l : List A}

theorem Threaded.congr (h : Threaded next p l) (hsame : ∀ a ∈ l, next' a = next a) :
    Threaded next' p l := by
  induction l generalizing p with
  | nil => exact h
  | cons a rest ih =>
      obtain ⟨hp, p', hnext, hrest⟩ := h
      refine ⟨hp, p', ?_, ih hrest fun b hb => hsame b (List.mem_cons_of_mem a hb)⟩
      rw [hsame a List.mem_cons_self]
      exact hnext

theorem Threaded.push (h : Threaded next p l) (ha : next' a = some p)
    (hsame : ∀ b ∈ l, next' b = next b) : Threaded next' (some a) (a :: l) :=
  ⟨rfl, p, ha, h.congr hsame⟩

theorem Threaded.nil_iff (h : Threaded next p l) : p = none ↔ l = [] := by
  cases l with
  | nil => exact ⟨fun _ => rfl, fun _ => h⟩
  | cons a rest =>
      obtain ⟨hp, -⟩ := h
      rw [hp]
      exact ⟨nofun, nofun⟩

/-- The first node, and what the pointer to the rest is. -/
theorem Threaded.head (h : Threaded next (some a) l) :
    ∃ p' rest, l = a :: rest ∧ next a = some p' ∧ Threaded next p' rest := by
  cases l with
  | nil => cases h
  | cons b rest =>
      obtain ⟨hp, p', hnext, hrest⟩ := h
      cases hp
      exact ⟨p', rest, rfl, hnext, hrest⟩

end Smalltable
