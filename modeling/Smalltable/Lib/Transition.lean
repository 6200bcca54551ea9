import Mathlib.Logic.Relation

/-!
# Runs of a transition relation

A machine is a relation `next` on its states, and a run is a
`Relation.ReflTransGen` of it. Two rules are all this development needs. A
property that every step keeps holds along every run (`run_invariant`). And
when every step lowers a measure, no run goes on for longer than the measure
allows (`run_length_le`).

Where steps are labelled and computed, a run is the list of its labels
(`runSteps`), and a condition on the steps is asked of each of them in the
state it is made in (`AllSteps`). What a part of the state is after a run can be
told from what the steps write there: the last of them to write decides
(`runSteps_lastWrite`).
-/

namespace Smalltable

variable {S : Type} {next : S → S → Prop}

open Relation

theorem run_invariant {P : S → Prop} (hstep : ∀ s t, P s → next s t → P t) {s t : S}
    (hs : P s) (hrun : ReflTransGen next s t) : P t := by
  induction hrun with
  | refl => exact hs
  | tail _ hn ih => exact hstep _ _ ih hn

/-- Runs of a given length. -/
inductive RunOf (next : S → S → Prop) : Nat → S → S → Prop
  | refl (s : S) : RunOf next 0 s s
  | step {n : Nat} {s t u : S} (hn : next s t) (hrest : RunOf next n t u) : RunOf next (n + 1) s u

section Measure

variable {P : S → Prop} (hkeep : ∀ s t, P s → next s t → P t) (μ : S → Nat)
  (hdec : ∀ s t, P s → next s t → μ t < μ s)
include hkeep hdec

theorem run_length_le {n : Nat} {s t : S} (hs : P s) (hrun : RunOf next n s t) :
    n + μ t ≤ μ s := by
  induction hrun with
  | refl s => omega
  | step hn _ ih =>
      have hlt := hdec _ _ hs hn
      have hrest := ih (hkeep _ _ hs hn)
      omega

end Measure

section Labelled

variable {A : Type} (step : S → A → Option S)

def runSteps : S → List A → Option S
  | s, [] => some s
  | s, a :: as =>
      match step s a with
      | none => none
      | some t => runSteps t as

/-- Each step of the run is made in a state in which `ok` allows it. -/
def AllSteps (ok : S → A → Prop) : S → List A → Prop
  | _, [] => True
  | s, a :: as => ok s a ∧ ∀ t, step s a = some t → AllSteps ok t as

variable {step}

@[simp]
theorem runSteps_nil (s : S) : runSteps step s [] = some s := rfl

theorem runSteps_cons {s t : S} {a : A} {as : List A} (h : step s a = some t) :
    runSteps step s (a :: as) = runSteps step t as := by
  rw [runSteps, h]

theorem runSteps_append {s t : S} {as : List A} (h : runSteps step s as = some t)
    (bs : List A) : runSteps step s (as ++ bs) = runSteps step t bs := by
  induction as generalizing s with
  | nil => cases h; rfl
  | cons a as ih =>
      rw [runSteps] at h
      split at h
      · cases h
      · next u hu =>
          rw [List.cons_append, runSteps_cons hu]
          exact ih h

/-- A run goes through the end of each part of it. -/
theorem runSteps_split {s u : S} {as bs : List A} (h : runSteps step s (as ++ bs) = some u) :
    ∃ t, runSteps step s as = some t ∧ runSteps step t bs = some u := by
  induction as generalizing s with
  | nil => exact ⟨s, rfl, h⟩
  | cons a as ih =>
      rw [List.cons_append, runSteps] at h
      split at h
      · cases h
      · next v hv =>
          obtain ⟨t, ht, hu⟩ := ih h
          exact ⟨t, (runSteps_cons hv).trans ht, hu⟩

/-- A property that the allowed steps keep holds wherever they lead. -/
theorem runSteps_invariant {P : S → Prop} {ok : S → A → Prop}
    (hstep : ∀ s a t, P s → ok s a → step s a = some t → P t) :
    ∀ {as : List A} {s t : S}, P s → AllSteps step ok s as → runSteps step s as = some t → P t := by
  intro as
  induction as with
  | nil => intro s t hs _ h; cases h; exact hs
  | cons a as ih =>
      intro s t hs hok h
      rw [runSteps] at h
      split at h
      · cases h
      · next u hu => exact ih (hstep s a u hs hok.1 hu) (hok.2 u hu) h

section LastWrite

variable {V : Type} (step) (write : S → A → Option V)

/-- What a run writes last into a cell, `write` saying what a step writes there. -/
def lastWrite : S → List A → Option V
  | _, [] => none
  | s, a :: as =>
      match step s a with
      | none => none
      | some t => (lastWrite t as).or (write s a)

variable {step write}

/-- A cell holds what was written last, or else what it held before. -/
theorem runSteps_lastWrite {P : S → Prop} {read : S → V}
    (hkeep : ∀ s a t, P s → step s a = some t → P t)
    (hwrite : ∀ s a t, P s → step s a = some t → read t = (write s a).getD (read s)) :
    ∀ {as : List A} {s t : S}, P s → runSteps step s as = some t →
      read t = (lastWrite step write s as).getD (read s) := by
  intro as
  induction as with
  | nil => intro s t _ h; cases h; rfl
  | cons a as ih =>
      intro s t hs h
      rw [runSteps] at h
      rw [lastWrite]
      split at h
      · cases h
      · next u hu =>
          rw [ih (hkeep s a u hs hu) h, hwrite s a u hs hu, Option.getD_or]

end LastWrite

/-- Where every allowed step can be made, and keeps a property, a whole run can be made. -/
theorem runSteps_total {P : S → Prop} {ok : S → A → Prop}
    (hstep : ∀ s a, P s → ok s a → ∃ t, step s a = some t ∧ P t) :
    ∀ {as : List A} {s : S}, P s → AllSteps step ok s as →
        ∃ t, runSteps step s as = some t ∧ P t := by
  intro as
  induction as with
  | nil => intro s hs _; exact ⟨s, rfl, hs⟩
  | cons a as ih =>
      intro s hs hok
      obtain ⟨u, hu, hPu⟩ := hstep s a hs hok.1
      rw [runSteps_cons hu]
      exact ih hPu (hok.2 u hu)

/-- A run that can be computed can be checked. -/
instance decidableAllSteps {ok : S → A → Prop} [∀ s a, Decidable (ok s a)] :
    ∀ (as : List A) (s : S), Decidable (AllSteps step ok s as)
  | [], _ => isTrue trivial
  | a :: as, s =>
      match h : step s a with
      | none => decidable_of_iff (ok s a)
          ⟨fun hok => ⟨hok, fun t ht => absurd (h.symm.trans ht) (Option.some_ne_none t).symm⟩,
            And.left⟩
      | some t =>
          have : Decidable (AllSteps step ok t as) := decidableAllSteps as t
          decidable_of_iff (ok s a ∧ AllSteps step ok t as)
            ⟨fun hok => ⟨hok.1, fun _ hu => Option.some.inj (h.symm.trans hu) ▸ hok.2⟩,
              fun hok => ⟨hok.1, hok.2 t h⟩⟩

theorem allSteps_of_mem {ok : S → A → Prop} {as : List A} (h : ∀ a ∈ as, ∀ s, ok s a) (s : S) :
    AllSteps step ok s as := by
  induction as generalizing s with
  | nil => trivial
  | cons a as ih =>
      exact ⟨h a List.mem_cons_self s, fun t _ =>
          ih (fun b hb => h b (List.mem_cons_of_mem a hb)) t⟩

theorem allSteps_of_forall {ok : S → A → Prop} (h : ∀ s a, ok s a) (as : List A) (s : S) :
    AllSteps step ok s as :=
  allSteps_of_mem (fun a _ s => h s a) s

/-- Conditions that agree wherever a run can be agree on runs. -/
theorem allSteps_congr {P : S → Prop} {ok ok' : S → A → Prop}
    (hstep : ∀ s a t, P s → step s a = some t → P t) (hiff : ∀ s a, P s → (ok s a ↔ ok' s a)) :
    ∀ {as : List A} {s : S}, P s → (AllSteps step ok s as ↔ AllSteps step ok' s as) := by
  intro as
  induction as with
  | nil => exact fun _ => Iff.rfl
  | cons a as ih =>
      intro s hs
      refine and_congr (hiff s a hs) (forall_congr' fun t => ?_)
      exact forall_congr' fun ht => ih (hstep s a t hs ht)

end Labelled

end Smalltable
