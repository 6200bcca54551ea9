import Mathlib.Data.List.Basic
import Mathlib.Logic.Function.Basic

/-!
# A state in parts

A state machine that takes a list of requests may be split into parts, each
request being for one part. `partRun` runs the whole list on the family of
parts. Each part ends up where the requests for it alone would have taken it
(`partRun_state`) and gives the answers they would have got alone
(`partRun_answers`), so it does not matter how the parts are interleaved. And the
answers of all parts, each in its order, are put together in one way only
(`eq_of_takenFrom`).

When a state has cells and a request changes no cell but its own, the parts are
one state again: the cell of a key is the one its owner has (`joined`), and a
step of a part is a step of the whole (`joined_partStep`).
-/

namespace Smalltable

variable {ι S R A K V : Type}

/-- Answer a list of requests. -/
def runAll (step : S → R → S × A) : S → List R → S × List A
  | s, [] => (s, [])
  | s, r :: rest =>
      let t := step s r
      let u := runAll step t.1 rest
      (u.1, t.2 :: u.2)

theorem length_runAll (step : S → R → S × A) (s : S) (rs : List R) :
    (runAll step s rs).2.length = rs.length := by
  induction rs generalizing s with
  | nil => rfl
  | cons r rest ih => simp only [runAll, List.length_cons, ih]

section Parts

variable [DecidableEq ι] (step : S → R → S × A) (owner : R → ι)

/-- The owner of the request takes a step. -/
def partStep (s : ι → S) (r : R) : (ι → S) × A :=
  let t := step (s (owner r)) r
  (Function.update s (owner r) t.1, t.2)

def partRun : (ι → S) → List R → (ι → S) × List A := runAll (partStep step owner)

/-- The answers that come from one part. -/
def takenFrom (order : List ι) (as : List A) (i : ι) : List A :=
  ((order.zip as).filter fun x => x.1 = i).map Prod.snd

theorem takenFrom_cons (j : ι) (order : List ι) (a : A) (as : List A) (i : ι) :
    takenFrom (j :: order) (a :: as) i
      = if j = i then a :: takenFrom order as i else takenFrom order as i := by
  rw [takenFrom, List.zip_cons_cons]
  by_cases heq : j = i
  · rw [if_pos heq, List.filter_cons_of_pos (by simpa using heq)]
    rfl
  · rw [if_neg heq, List.filter_cons_of_neg (by simpa using heq)]
    rfl

variable {step owner} {s : ι → S} {r : R} {i : ι}

theorem partStep_own (h : owner r = i) :
    (partStep step owner s r).1 i = (step (s i) r).1 ∧
      (partStep step owner s r).2 = (step (s i) r).2 := by
  rw [← h]
  exact ⟨Function.update_self _ _ _, rfl⟩

theorem partStep_other (h : owner r ≠ i) : (partStep step owner s r).1 i = s i :=
  Function.update_of_ne (fun heq => h heq.symm) _ _

variable (step owner)

theorem partRun_state (rs : List R) (s : ι → S) (i : ι) :
    (partRun step owner s rs).1 i = (runAll step (s i) (rs.filter fun r => owner r = i)).1 := by
  induction rs generalizing s with
  | nil => rfl
  | cons r rest ih =>
      rw [partRun, runAll]
      refine (ih (partStep step owner s r).1).trans ?_
      by_cases howner : owner r = i
      · rw [List.filter_cons_of_pos (by simpa using howner), runAll, (partStep_own howner).1]
      · rw [List.filter_cons_of_neg (by simpa using howner), partStep_other howner]

theorem partRun_answers (rs : List R) (s : ι → S) (i : ι) :
    takenFrom (rs.map owner) (partRun step owner s rs).2 i
      = (runAll step (s i) (rs.filter fun r => owner r = i)).2 := by
  induction rs generalizing s with
  | nil => rfl
  | cons r rest ih =>
      have hrest := ih (partStep step owner s r).1
      rw [partRun] at hrest
      rw [partRun, runAll, List.map_cons, takenFrom_cons, hrest]
      by_cases howner : owner r = i
      · rw [if_pos howner, List.filter_cons_of_pos (by simpa using howner), runAll,
          (partStep_own howner).1, (partStep_own howner).2]
      · rw [if_neg howner, List.filter_cons_of_neg (by simpa using howner), partStep_other howner]

end Parts

/-- A list of answers is known from what each part has given. -/
theorem eq_of_takenFrom [DecidableEq ι] : ∀ {order : List ι} {as bs : List A},
    as.length = order.length → bs.length = order.length →
    (∀ i ∈ order, takenFrom order as i = takenFrom order bs i) → as = bs := by
  intro order
  induction order with
  | nil =>
      intro as bs has hbs _
      rw [List.eq_nil_of_length_eq_zero has, List.eq_nil_of_length_eq_zero hbs]
  | cons j order ih =>
      intro as bs has hbs h
      obtain ⟨a, as, rfl⟩ := List.exists_cons_of_length_eq_add_one has
      obtain ⟨b, bs, rfl⟩ := List.exists_cons_of_length_eq_add_one hbs
      have hhead := h j List.mem_cons_self
      rw [takenFrom_cons, takenFrom_cons, if_pos rfl, if_pos rfl] at hhead
      obtain ⟨hab, -⟩ := List.cons.inj hhead
      have hrest : as = bs := by
        refine ih (Nat.succ.inj has) (Nat.succ.inj hbs) fun i hi => ?_
        have hi' := h i (List.mem_cons_of_mem _ hi)
        rw [takenFrom_cons, takenFrom_cons] at hi'
        by_cases heq : j = i
        · rw [if_pos heq, if_pos heq] at hi'
          exact (List.cons.inj hi').2
        · rw [if_neg heq, if_neg heq] at hi'
          exact hi'
      rw [hab, hrest]

/-! ## The parts as one state -/

section Joined

variable (cell : S → K → V) (home : K → ι)

/-- The cell of a key is the one at its home. -/
def joined (s : ι → S) (k : K) : V := cell (s (home k)) k

variable {cell home} [DecidableEq ι] {step : S → R → S × A} {owner : R → ι}
  {s : ι → S} {r : R}

/-- A step that changes no cell, taken anywhere. -/
theorem joined_partStep_same (hsame : ∀ k, cell (step (s (owner r)) r).1 k
    = cell (s (owner r)) k) :
    joined cell home (partStep step owner s r).1 = joined cell home s := by
  funext k
  rw [joined, joined]
  by_cases hi : owner r = home k
  · rw [← hi, (partStep_own rfl).1, hsame]
  · rw [partStep_other hi]

variable [DecidableEq K]

/-- A step that changes no cell but that of its key, taken at the key's home. -/
theorem joined_partStep (key : R → K) (hother : ∀ k, k ≠ key r → cell (step (s (owner r)) r).1 k
    = cell (s (owner r)) k) (hhome : owner r = home (key r)) :
    joined cell home (partStep step owner s r).1
      = Function.update (joined cell home s) (key r)
          (cell (step (s (owner r)) r).1 (key r)) := by
  funext k
  rw [joined]
  by_cases hk : k = key r
  · rw [hk, Function.update_self, ← hhome, (partStep_own rfl).1]
  · rw [Function.update_of_ne hk, joined]
    by_cases hi : owner r = home k
    · rw [← hi, (partStep_own rfl).1, hother k hk]
    · rw [partStep_other hi]

end Joined

end Smalltable
