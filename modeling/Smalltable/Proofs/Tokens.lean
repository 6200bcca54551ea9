import Smalltable.Proofs.Numbers
import Smalltable.Ref.ProxyConfig

/-!
# Tokens

What `split_line` makes of a text that was put together from tokens and
separators. A token is whole as long as it is not the last one there is room for:
that one goes on to the end of the text.

This is `split_line` as a function of the text. What it looks up on the way is in
`ConfigBounds`, and what it writes in `ConfigMemory`.
-/

namespace Smalltable.Proofs

open Smalltable.Ref

/-! ## Splitting

The loop is followed over a separator and over a token, in each of its states.
`TokenChars` says that a string has no character that separates or ends. -/

/-- Characters of a token, neither separating nor ending. -/
def TokenChars (sepChars quitChars s : Bytes) : Prop :=
  ∀ c ∈ s, c < 0x80 ∧ c ∉ sepChars ∧ c ∉ quitChars

section Split

variable {sepChars quitChars : Bytes} {argvSz : Nat}

theorem sepTable_token {c : UInt8} (h : c < 0x80 ∧ c ∉ sepChars ∧ c ∉ quitChars) :
    sepTable sepChars quitChars c = some 0 := by
  obtain ⟨h1, h2, h3⟩ := h
  rw [sepTable, if_neg (by simpa using h1), if_neg h3, if_neg h2]

theorem sepTable_sep {c : UInt8} (hlow : c < 0x80) (hsep : c ∈ sepChars) (hquit : c ∉ quitChars) :
    sepTable sepChars quitChars c = some 1 := by
  rw [sepTable, if_neg (by simpa using hlow), if_neg hquit, if_pos hsep]

theorem splitLoop_cont {s : Bytes} (hs : TokenChars sepChars quitChars s) (rest : Bytes)
    (argv : List Bytes) : ∀ token : Bytes,
      splitLoop sepChars quitChars argvSz (s ++ rest) argv (some token)
        = splitLoop sepChars quitChars argvSz rest argv (some (token ++ s)) := by
  induction s with
  | nil => intro token; rw [List.nil_append, List.append_nil]
  | cons c s ih =>
      intro token
      have hs' : TokenChars sepChars quitChars s := fun d hd => hs d (List.mem_cons_of_mem _ hd)
      rw [List.cons_append, splitLoop, sepTable_token (hs c List.mem_cons_self)]
      simp only []
      rw [ih hs', List.append_assoc, List.singleton_append]

/-- A token that is not the last there is room for. -/
theorem splitLoop_token {s : Bytes} (hs : TokenChars sepChars quitChars s) (hne : s ≠ [])
    (rest : Bytes) {argv : List Bytes} (hroom : argv.length + 1 < argvSz) :
    splitLoop sepChars quitChars argvSz (s ++ rest) argv none
      = splitLoop sepChars quitChars argvSz rest argv (some s) := by
  cases s with
  | nil => exact absurd rfl hne
  | cons c s =>
      have hs' : TokenChars sepChars quitChars s := fun d hd => hs d (List.mem_cons_of_mem _ hd)
      rw [List.cons_append, splitLoop, sepTable_token (hs c List.mem_cons_self)]
      simp only []
      rw [if_neg (by omega), splitLoop_cont hs', List.singleton_append]

/-- The last one there is room for goes on to the end. -/
theorem splitLoop_last {c : UInt8} (hc : c < 0x80 ∧ c ∉ sepChars ∧ c ∉ quitChars) (rest : Bytes)
    {argv : List Bytes} (hroom : argv.length + 1 = argvSz) :
    splitLoop sepChars quitChars argvSz (c :: rest) argv none = some (argv ++ [c :: rest]) := by
  rw [splitLoop, sepTable_token hc]
  simp only []
  rw [if_pos hroom]

theorem splitLoop_sep {c : UInt8} (hlow : c < 0x80) (hsep : c ∈ sepChars) (hquit : c ∉ quitChars)
    (rest : Bytes) (argv : List Bytes) (cur : Option Bytes) :
    splitLoop sepChars quitChars argvSz (c :: rest) argv cur
      = splitLoop sepChars quitChars argvSz rest (argv ++ cur.toList) none := by
  rw [splitLoop.eq_def]
  simp only [sepTable_sep hlow hsep hquit]

theorem splitLoop_quit {c : UInt8} (hlow : c < 0x80) (hquit : c ∈ quitChars) (rest : Bytes)
    (argv : List Bytes) (cur : Option Bytes) :
    splitLoop sepChars quitChars argvSz (c :: rest) argv cur = some (argv ++ cur.toList) := by
  have hkind : sepTable sepChars quitChars c = some 2 := by
    rw [sepTable, if_neg (by simpa using hlow), if_pos hquit]
  rw [splitLoop.eq_def]
  simp only [hkind]

/-- A token with the separator behind it. -/
theorem splitLoop_token_sep {s : Bytes} (hs : TokenChars sepChars quitChars s) (hne : s ≠ [])
    {c : UInt8} (hlow : c < 0x80) (hsep : c ∈ sepChars) (hquit : c ∉ quitChars) (rest : Bytes)
    {argv : List Bytes} (hroom : argv.length + 1 < argvSz) :
    splitLoop sepChars quitChars argvSz (s ++ c :: rest) argv none
      = splitLoop sepChars quitChars argvSz rest (argv ++ [s]) none := by
  rw [splitLoop_token hs hne _ hroom, splitLoop_sep hlow hsep hquit]
  rfl

theorem splitLoop_token_end {s : Bytes} (hs : TokenChars sepChars quitChars s) (hne : s ≠ [])
    {argv : List Bytes} (hroom : argv.length + 1 < argvSz) :
    splitLoop sepChars quitChars argvSz s argv none = some (argv ++ [s]) := by
  have h := splitLoop_token hs hne [] hroom
  rw [List.append_nil] at h
  rw [h]
  rfl

/-- Lines are told apart, and empty ones are dropped. -/
theorem splitLoop_lines {c : UInt8} (hlow : c < 0x80) (hsep : c ∈ sepChars) (hquit : c ∉ quitChars)
    (rest : Bytes) : ∀ (ls argv : List Bytes), (∀ l ∈ ls, TokenChars sepChars quitChars l) →
      argv.length + (ls.filter fun l => !l.isEmpty).length < argvSz →
      splitLoop sepChars quitChars argvSz (ls.flatMap (· ++ [c]) ++ rest) argv none
        = splitLoop sepChars quitChars argvSz rest (argv ++ ls.filter fun l => !l.isEmpty)
            none := by
  intro ls
  induction ls with
  | nil => intro argv _ _; simp
  | cons l ls ih =>
      intro argv hls hroom
      have hl := hls l List.mem_cons_self
      have hrest := fun l' hl' => hls l' (List.mem_cons_of_mem _ hl')
      have hshape : (l :: ls).flatMap (· ++ [c]) ++ rest
          = l ++ c :: (ls.flatMap (· ++ [c]) ++ rest) := by
        rw [List.flatMap_cons, List.append_assoc, List.append_assoc, List.singleton_append]
      rw [hshape]
      by_cases hne : l = []
      · subst hne
        have hfilter : (([] : Bytes) :: ls).filter (fun l => !l.isEmpty)
            = ls.filter fun l => !l.isEmpty := rfl
        rw [hfilter] at hroom ⊢
        rw [List.nil_append, splitLoop_sep hlow hsep hquit, Option.toList_none, List.append_nil]
        exact ih argv hrest hroom
      · have hfilter : (l :: ls).filter (fun l => !l.isEmpty)
            = l :: ls.filter fun l => !l.isEmpty := by
          simp [hne]
        rw [hfilter, List.length_cons] at hroom
        rw [hfilter, splitLoop_token_sep hl hne hlow hsep hquit _ (by omega),
          ih _ hrest (by rw [List.length_append, List.length_singleton]; omega), List.append_assoc,
          List.singleton_append]

/-- What has been collected stays in front. -/
theorem splitLoop_front : ∀ {line : Bytes} {argv : List Bytes} {cur : Option Bytes}
    {r : List Bytes}, splitLoop sepChars quitChars argvSz line argv cur = some r → argv <+: r := by
  intro line
  induction line with
  | nil =>
      intro argv cur r h
      cases h
      exact List.prefix_append _ _
  | cons c rest ih =>
      intro argv cur r h
      unfold splitLoop at h
      split at h
      · cases h
      · exact (List.prefix_append _ _).trans (ih h)
      · cases h
        exact List.prefix_append _ _
      · split at h
        · exact ih h
        · split at h
          · cases h
            exact List.prefix_append _ _
          · exact ih h

/-- Every token is made of what the text is made of. -/
theorem splitLoop_subset (text : Bytes) : ∀ {line : Bytes} {argv : List Bytes}
    {cur : Option Bytes} {r : List Bytes}, (∀ t ∈ argv, t ⊆ text) → (∀ t ∈ cur, t ⊆ text) →
      line ⊆ text → splitLoop sepChars quitChars argvSz line argv cur = some r →
      ∀ t ∈ r, t ⊆ text := by
  intro line
  induction line with
  | nil =>
      intro argv cur r hargv hcur _ h
      cases h
      simpa [or_imp, forall_and] using ⟨hargv, hcur⟩
  | cons c rest ih =>
      intro argv cur r hargv hcur hline h
      have happend : ∀ t ∈ argv ++ cur.toList, t ⊆ text := by
        simpa [or_imp, forall_and] using ⟨hargv, hcur⟩
      have hrest : rest ⊆ text := fun d hd => hline (List.mem_cons_of_mem _ hd)
      have hc : [c] ⊆ text := fun d hd => hline (by
        rw [List.mem_singleton.mp hd]
        exact List.mem_cons_self)
      unfold splitLoop at h
      split at h
      · cases h
      · exact ih happend (fun t ht => by cases ht) hrest h
      · cases h
        exact happend
      · split at h
        · next token =>
            refine ih hargv (fun t ht => ?_) hrest h
            cases ht
            exact List.append_subset.mpr ⟨hcur token rfl, hc⟩
        · split at h
          · cases h
            intro t ht
            rcases List.mem_append.mp ht with ht | ht
            · exact hargv t ht
            · rw [List.mem_singleton.mp ht]
              exact hline
          · refine ih hargv (fun t ht => ?_) hrest h
            cases ht
            exact hc

/-- All tokens but the last there is room for are whole. -/
theorem splitLoop_whole : ∀ {line : Bytes} {argv : List Bytes} {cur : Option Bytes}
    {r : List Bytes}, argv.length < argvSz → (cur ≠ none → argv.length + 1 < argvSz) →
      (∀ t ∈ argv, TokenChars sepChars quitChars t) →
      (∀ t ∈ cur, TokenChars sepChars quitChars t) →
      splitLoop sepChars quitChars argvSz line argv cur = some r →
      r.length ≤ argvSz ∧ ∀ t ∈ r.take (argvSz - 1), TokenChars sepChars quitChars t := by
  intro line
  induction line with
  | nil =>
      intro argv cur r hroom hcurRoom hargv hcur h
      cases h
      refine ⟨?_, fun t ht => ?_⟩
      · cases cur with
        | none => simpa using hroom.le
        | some token =>
            have hlt := hcurRoom nofun
            simp only [Option.toList_some, List.length_append, List.length_singleton]
            omega
      · rcases List.mem_append.mp (List.mem_of_mem_take ht) with ht | ht
        · exact hargv t ht
        · exact hcur t (Option.mem_toList.mp ht)
  | cons c rest ih =>
      intro argv cur r hroom hcurRoom hargv hcur h
      have happend : ∀ t ∈ argv ++ cur.toList, TokenChars sepChars quitChars t := by
        simpa [or_imp, forall_and] using ⟨hargv, hcur⟩
      have hlen : (argv ++ cur.toList).length < argvSz := by
        cases cur with
        | none => simpa using hroom
        | some token =>
            have hlt := hcurRoom nofun
            simpa using hlt
      unfold splitLoop at h
      split at h
      · cases h
      · exact ih hlen (fun h => absurd rfl h) happend nofun h
      · cases h
        exact ⟨hlen.le, fun t ht => happend t (List.mem_of_mem_take ht)⟩
      · next hkind =>
          have hc : c < 0x80 ∧ c ∉ sepChars ∧ c ∉ quitChars := by
            rename_i hnot1 hnot2
            unfold sepTable at hkind
            split at hkind
            · cases hkind
            · next hlow =>
                refine ⟨by simpa using hlow, fun hsep => ?_, fun hquit => ?_⟩
                · by_cases hquit : c ∈ quitChars
                  · rw [if_pos hquit] at hkind
                    exact hnot2 (Option.some.inj hkind).symm
                  · rw [if_neg hquit, if_pos hsep] at hkind
                    exact hnot1 (Option.some.inj hkind).symm
                · rw [if_pos hquit] at hkind
                  exact hnot2 (Option.some.inj hkind).symm
          have hcs : TokenChars sepChars quitChars [c] := by
            intro d hd
            rw [List.mem_singleton.mp hd]
            exact hc
          split at h
          · next token =>
              refine ih hroom (fun _ => hcurRoom nofun) hargv (fun t ht => ?_) h
              cases ht
              intro d hd
              rcases List.mem_append.mp hd with hd | hd
              · exact hcur token rfl d hd
              · exact hcs d hd
          · split at h
            · next hfull =>
                cases h
                refine ⟨by rw [List.length_append, List.length_singleton]; omega, fun t ht => ?_⟩
                rw [List.take_append_of_le_length (by omega)] at ht
                exact hargv t (List.mem_of_mem_take ht)
            · refine ih hroom (fun _ => by omega) hargv (fun t ht => ?_) h
              cases ht
              exact hcs

end Split

end Smalltable.Proofs
