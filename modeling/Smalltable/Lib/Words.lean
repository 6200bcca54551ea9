import Mathlib.Data.List.TakeWhile

/-!
# Words

The words of a text are what is between its separators and not empty. How a text
was put together decides its words: separators at the ends add none, and one in the
middle tells the words before it from those behind it.
-/

namespace Smalltable

section Words

variable {α : Type} (sep : α → Bool)

def words (s : List α) : List (List α) := (s.splitOnP sep).filter fun w => !w.isEmpty

variable {sep}

theorem words_append_cons (s t : List α) {c : α} (hc : sep c) :
    words sep (s ++ c :: t) = words sep s ++ words sep t := by
  rw [words, List.splitOnP_append_cons s t hc, List.filter_append]
  rfl

theorem words_nil : words sep ([] : List α) = [] := by
  rw [words, List.splitOnP_nil]
  rfl

theorem words_cons {c : α} (hc : sep c) (t : List α) : words sep (c :: t) = words sep t := by
  have h : words sep ([] ++ c :: t) = _ := words_append_cons [] t hc
  rwa [words_nil, List.nil_append, List.nil_append] at h

theorem words_word {w : List α} (hw : ∀ c ∈ w, sep c = false) (hne : w ≠ []) :
    words sep w = [w] := by
  rw [words, List.splitOnP_eq_singleton hw]
  simp [hne]

/-- A word with a separator behind it. -/
theorem words_word_cons {w : List α} (hw : ∀ c ∈ w, sep c = false) (hne : w ≠ []) {c : α}
    (hc : sep c) (t : List α) : words sep (w ++ c :: t) = w :: words sep t := by
  rw [words_append_cons w t hc, words_word hw hne, List.singleton_append]

theorem words_blank {s : List α} (hs : ∀ c ∈ s, sep c) : words sep s = [] := by
  induction s with
  | nil => exact words_nil
  | cons c s ih =>
      rw [words_cons (hs c List.mem_cons_self)]
      exact ih fun d hd => hs d (List.mem_cons_of_mem _ hd)

theorem words_blank_append {s : List α} (hs : ∀ c ∈ s, sep c) (t : List α) :
    words sep (s ++ t) = words sep t := by
  induction s with
  | nil => rfl
  | cons c s ih =>
      rw [List.cons_append, words_cons (hs c List.mem_cons_self)]
      exact ih fun d hd => hs d (List.mem_cons_of_mem _ hd)

theorem words_append_blank {t : List α} (ht : ∀ c ∈ t, sep c) (s : List α) :
    words sep (s ++ t) = words sep s := by
  cases t with
  | nil => rw [List.append_nil]
  | cons c t =>
      rw [words_append_cons s t (ht c List.mem_cons_self),
        words_blank fun d hd => ht d (List.mem_cons_of_mem _ hd), List.append_nil]

/-- What is between separators is a part of the text. -/
theorem subset_of_mem_splitOnP {s : List α} : ∀ {w : List α}, w ∈ s.splitOnP sep → w ⊆ s := by
  induction s with
  | nil =>
      intro w hw
      rw [List.splitOnP_nil, List.mem_singleton] at hw
      rw [hw]
      exact List.Subset.refl []
  | cons c s ih =>
      intro w hw
      rw [List.splitOnP_cons_eq_if_modifyHead] at hw
      split at hw
      · rcases List.mem_cons.mp hw with rfl | hw
        · exact List.nil_subset _
        · exact fun d hd => List.mem_cons_of_mem _ (ih hw hd)
      · obtain ⟨v, vs, hvs⟩ := List.exists_cons_of_ne_nil (List.splitOnP_ne_nil sep s)
        rw [hvs] at ih
        rw [hvs, List.modifyHead_cons] at hw
        rcases List.mem_cons.mp hw with rfl | hw
        · exact List.cons_subset_cons c (ih List.mem_cons_self)
        · exact fun d hd => List.mem_cons_of_mem _ (ih (List.mem_cons_of_mem _ hw) hd)

/-- The text begins with the first word and its separator, or is that word. -/
theorem words_split {s : List α} (hs : ∀ c ∈ s.head?, sep c = false) (hne : s ≠ []) :
    ∃ w, (∀ c ∈ w, sep c = false) ∧ w ≠ [] ∧
      (s = w ∨ ∃ c t, sep c ∧ s = w ++ c :: t) := by
  refine ⟨s.takeWhile (!sep ·), fun c hc => by simpa using List.mem_takeWhile_imp hc, ?_, ?_⟩
  · cases s with
    | nil => exact absurd rfl hne
    | cons c s =>
        have hc := hs c rfl
        simp [hc]
  · have hsplit := List.takeWhile_append_dropWhile (p := (!sep ·)) (l := s)
    cases hrest : s.dropWhile (!sep ·) with
    | nil =>
        rw [hrest, List.append_nil] at hsplit
        exact .inl hsplit.symm
    | cons c t =>
        rw [hrest] at hsplit
        have hc := List.head?_dropWhile_not (!sep ·) s
        rw [hrest] at hc
        exact .inr ⟨c, t, by simpa using hc, hsplit.symm⟩

theorem words_spec {s : List α} : ∀ {w : List α}, w ∈ words sep s →
    w ≠ [] ∧ (∀ c ∈ w, sep c = false) ∧ w ⊆ s := by
  induction hn : s.length using Nat.strongRecOn generalizing s with
  | _ n ih =>
      intro w hw
      by_cases hne : s = []
      · subst hne
        rw [words_nil] at hw
        cases hw
      · by_cases hhead : ∀ c ∈ s.head?, sep c = false
        · obtain ⟨v, hv, hvne, rfl | ⟨c, t, hc, rfl⟩⟩ := words_split hhead hne
          · rw [words_word hv hvne, List.mem_singleton] at hw
            rw [hw]
            exact ⟨hvne, hv, List.Subset.refl _⟩
          · rw [words_word_cons hv hvne hc] at hw
            rcases List.mem_cons.mp hw with rfl | hw
            · exact ⟨hvne, hv, List.subset_append_left _ _⟩
            · have hlt : t.length < n := by
                rw [← hn, List.length_append, List.length_cons]
                omega
              obtain ⟨h1, h2, h3⟩ := ih _ hlt rfl hw
              exact ⟨h1, h2, fun d hd => List.mem_append_right _ (List.mem_cons_of_mem _ (h3 hd))⟩
        · cases s with
          | nil => exact absurd rfl hne
          | cons c t =>
              have hc : sep c = true := by simpa using hhead
              rw [words_cons hc] at hw
              obtain ⟨h1, h2, h3⟩ := ih t.length (by rw [← hn]; exact Nat.lt_succ_self _) rfl hw
              exact ⟨h1, h2, fun d hd => List.mem_cons_of_mem _ (h3 hd)⟩

theorem words_eq_nil_iff {s : List α} : words sep s = [] ↔ ∀ c ∈ s, sep c := by
  constructor
  · intro h
    induction s with
    | nil => exact fun c hc => absurd hc List.not_mem_nil
    | cons c s ih =>
        by_cases hc : sep c
        · rw [words_cons hc] at h
          intro d hd
          rcases List.mem_cons.mp hd with rfl | hd
          · exact hc
          · exact ih h d hd
        · obtain ⟨w, hw, hne, rfl | ⟨d, t, hd, heq⟩⟩ :=
            words_split (s := c :: s) (fun d hd => by
              cases hd
              simpa using hc) (List.cons_ne_nil c s)
          · rw [words_word hw hne] at h
            cases h
          · rw [heq, words_word_cons hw hne hd] at h
            cases h
  · exact words_blank

/-- A text of one word is that word with separators around it. -/
theorem words_eq_singleton_iff {s w : List α} : words sep s = [w] ↔
    ∃ before after, s = before ++ w ++ after ∧ (∀ c ∈ before, sep c) ∧ (∀ c ∈ after, sep c) ∧
      w ≠ [] ∧ ∀ c ∈ w, sep c = false := by
  constructor
  · intro h
    have hw : w ∈ words sep s := by
      rw [h]
      exact List.mem_singleton_self w
    obtain ⟨hne, hfree, -⟩ := words_spec hw
    induction s with
    | nil =>
        rw [words_nil] at h
        cases h
    | cons c s ih =>
        by_cases hc : sep c
        · rw [words_cons hc] at h
          obtain ⟨before, after, hsplit, hbefore, hafter, -⟩ := ih h (by rw [h]; simp)
          refine ⟨c :: before, after, by rw [hsplit]; simp, fun d hd => ?_, hafter, hne, hfree⟩
          rcases List.mem_cons.mp hd with rfl | hd
          · exact hc
          · exact hbefore d hd
        · obtain ⟨v, hv, hvne, heq | ⟨d, t, hd, heq⟩⟩ :=
            words_split (s := c :: s) (fun d hd => by
              cases hd
              simpa using hc) (List.cons_ne_nil c s)
          · rw [heq, words_word hv hvne] at h
            cases h
            exact ⟨[], [], by rw [heq]; simp, nofun, nofun, hne, hfree⟩
          · rw [heq, words_word_cons hv hvne hd] at h
            obtain ⟨rfl, ht⟩ := List.cons.inj h
            refine ⟨[], d :: t, by rw [heq]; simp, nofun, fun e he => ?_, hne, hfree⟩
            rcases List.mem_cons.mp he with rfl | he
            · exact hd
            · exact words_eq_nil_iff.mp ht e he
  · rintro ⟨before, after, rfl, hbefore, hafter, hne, hfree⟩
    rw [words_append_blank hafter, words_blank_append hbefore, words_word hfree hne]

/-- Characters that are changed to separators separate. -/
theorem words_map {sep' : α → Bool} {f : α → α} (hsep : ∀ c, sep (f c) = sep' c)
    (hkeep : ∀ c, sep' c = false → f c = c) (s : List α) : words sep (s.map f) = words sep' s := by
  induction hn : s.length using Nat.strongRecOn generalizing s with
  | _ n ih =>
      by_cases hne : s = []
      · rw [hne, List.map_nil, words_nil, words_nil]
      · by_cases hhead : ∀ c ∈ s.head?, sep' c = false
        · have hword : ∀ {w : List α}, (∀ c ∈ w, sep' c = false) →
              w.map f = w ∧ ∀ c ∈ w, sep c = false := by
            intro w hw
            have hmap : w.map f = w.map id := List.map_congr_left fun c hc => hkeep c (hw c hc)
            rw [List.map_id] at hmap
            refine ⟨hmap, fun c hc => ?_⟩
            rw [← hkeep c (hw c hc), hsep]
            exact hw c hc
          obtain ⟨w, hw, hwne, rfl | ⟨c, t, hc, rfl⟩⟩ := words_split hhead hne
          · obtain ⟨hmap, hfree⟩ := hword hw
            rw [hmap, words_word hfree hwne, words_word hw hwne]
          · obtain ⟨hmap, hfree⟩ := hword hw
            have hlt : t.length < n := by
              rw [← hn, List.length_append, List.length_cons]
              omega
            rw [List.map_append, List.map_cons, hmap, words_word_cons hfree hwne
              (by rw [hsep, hc]), words_word_cons hw hwne hc, ih _ hlt t rfl]
        · cases s with
          | nil => exact absurd rfl hne
          | cons c t =>
              have hc : sep' c = true := by simpa using hhead
              rw [List.map_cons, words_cons (by rw [hsep, hc]), words_cons hc]
              exact ih t.length (by rw [← hn]; exact Nat.lt_succ_self _) t rfl

/-! ## From one word on -/

/-- A text that begins with a word, by that word and what is behind it. -/
theorem words_first {s : List α} (hs : ∀ c ∈ s.head?, sep c = false) (hne : s ≠ []) :
    words sep s = s.takeWhile (!sep ·) :: words sep (s.dropWhile (!sep ·)) := by
  have hword : ∀ c ∈ s.takeWhile (!sep ·), sep c = false := by
    intro c hc
    simpa using List.mem_takeWhile_imp hc
  have hwordNe : s.takeWhile (!sep ·) ≠ [] := by
    cases s with
    | nil => exact absurd rfl hne
    | cons c s => simp [hs c rfl]
  have hsplit := List.takeWhile_append_dropWhile (p := (!sep ·)) (l := s)
  cases hrest : s.dropWhile (!sep ·) with
  | nil =>
      rw [hrest, List.append_nil] at hsplit
      rw [hsplit] at hword ⊢
      rw [words_word hword hne, words_nil]
  | cons c t =>
      have hc := List.head?_dropWhile_not (!sep ·) s
      rw [hrest] at hc hsplit
      have hc : sep c = true := by simpa using hc
      rw [words_cons hc, ← words_word_cons hword hwordNe hc, hsplit]

variable (sep) in
/-- What is left of a text from its word number `n` on. -/
def fromWord : Nat → List α → List α
  | 0, s => s.dropWhile sep
  | n + 1, s => fromWord n ((s.dropWhile sep).dropWhile (!sep ·))

theorem fromWord_nil (n : Nat) : fromWord sep n [] = [] := by
  induction n with
  | zero => rfl
  | succ n ih => rw [fromWord, List.dropWhile_nil, List.dropWhile_nil, ih]

theorem fromWord_cons {c : α} (hc : sep c) (n : Nat) (t : List α) :
    fromWord sep n (c :: t) = fromWord sep n t := by
  have hdrop : (c :: t).dropWhile sep = t.dropWhile sep := List.dropWhile_cons_of_pos hc
  cases n with
  | zero => exact hdrop
  | succ n => rw [fromWord, fromWord, hdrop]

theorem fromWord_zero {c : α} (hc : sep c = false) (t : List α) :
    fromWord sep 0 (c :: t) = c :: t :=
  List.dropWhile_cons_of_neg (by simp [hc])

theorem fromWord_word_append {w : List α} (hw : ∀ c ∈ w, sep c = false) (hne : w ≠ []) (n : Nat)
    {t : List α} (ht : ∀ c ∈ t.head?, sep c) :
    fromWord sep (n + 1) (w ++ t) = fromWord sep n t := by
  have hstart : (w ++ t).dropWhile sep = w ++ t := by
    cases w with
    | nil => exact absurd rfl hne
    | cons c w => exact List.dropWhile_cons_of_neg (by simp [hw c List.mem_cons_self])
  have hword : (w ++ t).dropWhile (!sep ·) = t := by
    rw [List.dropWhile_append_of_pos fun c hc => by simp [hw c hc]]
    cases t with
    | nil => rfl
    | cons c t => exact List.dropWhile_cons_of_neg (by simp [ht c rfl])
  rw [fromWord, hstart, hword]

/-- Behind as many words, each ended by a separator. -/
theorem fromWord_flatMap {c : α} (hc : sep c) (t : List α) : ∀ {ws : List (List α)},
    (∀ w ∈ ws, w ≠ [] ∧ ∀ d ∈ w, sep d = false) →
      fromWord sep ws.length (ws.flatMap (· ++ [c]) ++ t) = fromWord sep 0 t := by
  intro ws
  induction ws with
  | nil => exact fun _ => rfl
  | cons w ws ih =>
      intro hws
      obtain ⟨hne, hw⟩ := hws w List.mem_cons_self
      have hshape : (w :: ws).flatMap (· ++ [c]) ++ t = w ++ c :: (ws.flatMap (· ++ [c]) ++ t) := by
        simp
      rw [hshape, List.length_cons,
        fromWord_word_append hw hne _ (fun d hd => by cases hd; exact hc), fromWord_cons hc]
      exact ih fun v hv => hws v (List.mem_cons_of_mem _ hv)

theorem words_dropWhile (s : List α) : words sep (s.dropWhile sep) = words sep s := by
  have hsplit := List.takeWhile_append_dropWhile (p := sep) (l := s)
  have hblank : ∀ c ∈ s.takeWhile sep, sep c := fun c hc => List.mem_takeWhile_imp hc
  rw [← words_blank_append hblank, hsplit]

theorem words_fromWord (n : Nat) : ∀ s : List α,
    words sep (fromWord sep n s) = (words sep s).drop n := by
  induction n with
  | zero => exact words_dropWhile
  | succ n ih =>
      intro s
      rw [fromWord, ih, ← words_dropWhile s]
      by_cases hne : s.dropWhile sep = []
      · rw [hne, List.dropWhile_nil, words_nil, List.drop_nil, List.drop_nil]
      · have hhead : ∀ c ∈ (s.dropWhile sep).head?, sep c = false := by
          intro c hc
          have hnot := List.head?_dropWhile_not sep s
          rw [Option.mem_def.mp hc] at hnot
          simpa using hnot
        rw [words_first hhead hne, List.drop_succ_cons]

theorem head_fromWord (n : Nat) : ∀ s : List α, ∀ c ∈ (fromWord sep n s).head?, sep c = false := by
  induction n with
  | zero =>
      intro s c hc
      have hnot := List.head?_dropWhile_not sep s
      rw [show s.dropWhile sep = fromWord sep 0 s from rfl, Option.mem_def.mp hc] at hnot
      simpa using hnot
  | succ n ih => exact fun s => ih _

/-- There is something left exactly when there are more words. -/
theorem fromWord_eq_nil_iff {n : Nat} {s : List α} :
    fromWord sep n s = [] ↔ (words sep s).length ≤ n := by
  rw [← List.drop_eq_nil_iff, ← words_fromWord]
  constructor
  · intro h
    rw [h, words_nil]
  · intro h
    by_contra hne
    rw [words_first (head_fromWord n s) hne] at h
    cases h

theorem length_fromWord_le (n : Nat) : ∀ s : List α, (fromWord sep n s).length ≤ s.length := by
  induction n with
  | zero => exact List.length_dropWhile_le sep
  | succ n ih =>
      intro s
      exact (ih _).trans ((List.length_dropWhile_le _ _).trans (List.length_dropWhile_le _ _))

/-- Behind a word that goes on, nothing of it is left. -/
theorem length_fromWord_word_le {w : List α} (hw : ∀ c ∈ w, sep c = false) (n : Nat) (t : List α) :
    (fromWord sep (n + 1) (w ++ t)).length ≤ t.length := by
  refine (length_fromWord_le n _).trans ?_
  cases w with
  | nil => exact (List.length_dropWhile_le _ _).trans (List.length_dropWhile_le _ _)
  | cons c w =>
      have hstart : (c :: w ++ t).dropWhile sep = c :: w ++ t :=
        List.dropWhile_cons_of_neg (by simp [hw c List.mem_cons_self])
      rw [hstart, List.dropWhile_append_of_pos fun d hd => by simp [hw d hd]]
      exact List.length_dropWhile_le _ _

/-- What a text that goes on with a word does to the words before: the last of them
may become longer. -/
theorem words_append_word {c : α} (hc : sep c = false) (t : List α) (s : List α) :
    ∃ u more, words sep (s ++ c :: t) = words sep s ++ (c :: u) :: more ∨
      ∃ ws w, words sep s = ws ++ [w] ∧ words sep (s ++ c :: t) = ws ++ (w ++ c :: u) :: more := by
  induction hn : s.length using Nat.strongRecOn generalizing s with
  | _ n ih =>
      have hword : ∀ w : List α, (∀ d ∈ w, sep d = false) → ∃ u more,
          words sep (w ++ c :: t) = (w ++ c :: u) :: more := by
        intro w hw
        have hhead : ∀ d ∈ (w ++ c :: t).head?, sep d = false := by
          cases w with
          | nil =>
              intro d hd
              cases hd
              exact hc
          | cons e w =>
              intro d hd
              cases hd
              exact hw _ List.mem_cons_self
        have htake : (w ++ c :: t).takeWhile (!sep ·) = w ++ c :: t.takeWhile (!sep ·) := by
          rw [List.takeWhile_append_of_pos fun d hd => by simp [hw d hd],
            List.takeWhile_cons_of_pos (by simp [hc])]
        exact ⟨_, _, by rw [words_first hhead (by simp), htake]⟩
      by_cases hne : s = []
      · obtain ⟨u, more, h⟩ := hword [] nofun
        refine ⟨u, more, .inl ?_⟩
        rw [hne, words_nil]
        exact h
      · by_cases hhead : ∀ d ∈ s.head?, sep d = false
        · obtain ⟨w, hw, hwne, rfl | ⟨d, s', hd, rfl⟩⟩ := words_split hhead hne
          · obtain ⟨u, more, h⟩ := hword s hw
            exact ⟨u, more, .inr ⟨[], s, words_word hw hwne, h⟩⟩
          · have hlt : s'.length < n := by
              rw [← hn, List.length_append, List.length_cons]
              omega
            have hshape : w ++ d :: s' ++ c :: t = w ++ d :: (s' ++ c :: t) := by simp
            rw [hshape, words_word_cons hw hwne hd, words_word_cons hw hwne hd]
            obtain ⟨u, more, h | ⟨ws, v, h1, h2⟩⟩ := ih _ hlt s' rfl
            · exact ⟨u, more, .inl (by rw [h]; rfl)⟩
            · exact ⟨u, more, .inr ⟨w :: ws, v, by rw [h1]; rfl, by rw [h2]; rfl⟩⟩
        · cases s with
          | nil => exact absurd rfl hne
          | cons d s =>
              have hd : sep d = true := by simpa using hhead
              rw [List.cons_append, words_cons hd, words_cons hd]
              exact ih s.length (by rw [← hn]; exact Nat.lt_succ_self _) s rfl

end Words

end Smalltable
