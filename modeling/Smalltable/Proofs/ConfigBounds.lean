import Smalltable.Proofs.ConfigMemory

/-!
# Lookups while a configuration is parsed

The tables of `split_line` and `decode_hex` have 256 entries and are indexed with a
`char`, so a lookup is in bounds for a byte below `0x80`. What reaches `get_host_port`
and `decode_hex` has been looked up character by character before, and so have all
lines but the last there is room for. So it comes to what the outermost `split_line`
comes to, and to that last line when the loop gets to it.

The condition is on the words and lines of the text, and it is exact: where a character
of it is not in the tables the access is made. Which characters are looked up depends on
what the parser has found before, so the condition on the last line is only about texts
whose other lines load.
-/

namespace Smalltable.Proofs

open Smalltable.Ref Inplace

/-! ## What is looked up

Every character up to the end of the line is looked up once, also those that separate
tokens; of the last token there is room for only the first one is. `seenFrom` is the
part that is still to be looked up in the middle of the loop. -/

section LookedUp

variable {sepChars quitChars : Bytes} {argvSz : Nat}

/-- The characters of `line` that `split_line` comes to with the token `front` open: those up
to the first of the word number `n`, of what is split. -/
def seenFrom (sepChars quitChars : Bytes) (n : Nat) (front line : Bytes) : Bytes :=
  let split := beforeQuit quitChars line
  split.take (split.length - (fromWord (isOneOf sepChars) n (front ++ split)).length + 1)

/-- The characters of a line that are looked up, but the one that ends it, if `argv` has room
for `n` words and one more. -/
def lookedUp (sepChars quitChars : Bytes) (n : Nat) (line : Bytes) : Bytes :=
  seenFrom sepChars quitChars n [] line

theorem mem_seenFrom_cons {n n' : Nat} {front front' rest : Bytes} {c d : UInt8}
    (hbefore : beforeQuit quitChars (c :: rest) = c :: beforeQuit quitChars rest)
    (hfrom : fromWord (isOneOf sepChars) n (front ++ c :: beforeQuit quitChars rest)
      = fromWord (isOneOf sepChars) n' (front' ++ beforeQuit quitChars rest))
    (hle : (fromWord (isOneOf sepChars) n' (front' ++ beforeQuit quitChars rest)).length
      ≤ (beforeQuit quitChars rest).length) :
    d ∈ seenFrom sepChars quitChars n front (c :: rest) ↔
      d = c ∨ d ∈ seenFrom sepChars quitChars n' front' rest := by
  rw [seenFrom, seenFrom]
  simp only [hbefore, hfrom, List.length_cons]
  rw [Nat.sub_add_comm hle, List.take_succ_cons, List.mem_cons]

/-- Characters that do not end the line are among those that are split. -/
theorem beforeQuit_cons {c : UInt8} (hc : c ∉ quitChars) (rest : Bytes) :
    beforeQuit quitChars (c :: rest) = c :: beforeQuit quitChars rest := by
  simp [beforeQuit, isOneOf, hc]

theorem splitLoop_eq_none_iff (hquitLow : ∀ c ∈ quitChars, c < 0x80) : ∀ {line : Bytes}
    {argv : List Bytes} {cur : Option Bytes} {n : Nat}, argv.length + n + 1 = argvSz →
      OpenToken sepChars n cur →
      (Ref.splitLoop sepChars quitChars argvSz line argv cur = none ↔
        ∃ c ∈ seenFrom sepChars quitChars n (cur.getD []) line, ¬ c < 0x80) := by
  intro line
  induction line with
  | nil =>
      intro argv cur n _ _
      simp [Ref.splitLoop, seenFrom, beforeQuit]
  | cons c rest ih =>
      intro argv cur n hroom hcur
      rw [Ref.splitLoop.eq_def]
      simp only []
      cases hkind : sepTable sepChars quitChars c with
      | none =>
          have hc : ¬ c < 0x80 := fun hlow => by
            rw [sepTable, if_neg (by simpa using hlow)] at hkind
            cases hkind
          have hbefore := beforeQuit_cons (mt (hquitLow c) hc) rest
          refine iff_of_true rfl ⟨c, ?_, hc⟩
          rw [seenFrom]
          simp only [hbefore, List.take_succ_cons]
          exact List.mem_cons_self
      | some kind =>
          have hlow : c < 0x80 := by
            by_contra hc
            rw [sepTable, if_pos (by simpa using hc)] at hkind
            cases hkind
          have hskip : ∀ {P : Prop} {s s' : Bytes}, (P ↔ ∃ d ∈ s', ¬ d < 0x80) →
              (∀ d, d ∈ s ↔ d = c ∨ d ∈ s') → (P ↔ ∃ d ∈ s, ¬ d < 0x80) := by
            intro P s s' hP hs
            rw [hP]
            constructor
            · rintro ⟨d, hd, hge⟩
              exact ⟨d, (hs d).mpr (.inr hd), hge⟩
            · rintro ⟨d, hd, hge⟩
              rcases (hs d).mp hd with rfl | hd
              · exact absurd hlow hge
              · exact ⟨d, hd, hge⟩
          rcases sepTable_cases hkind with ⟨rfl, hquit⟩ | ⟨rfl, hquit, hsep⟩ | ⟨rfl, hquit, hsep⟩
          · have hbefore : beforeQuit quitChars (c :: rest) = [] := by
              simp [beforeQuit, isOneOf, hquit]
            simp [seenFrom, hbefore]
          · have hbefore := beforeQuit_cons hquit rest
            have hc : isOneOf sepChars c = true := decide_eq_true hsep
            cases cur with
            | none =>
                refine hskip (ih (n := n) (by simpa using hroom) openToken_none) fun d =>
                  mem_seenFrom_cons hbefore (fromWord_cons hc n _) ?_
                exact length_fromWord_le n (beforeQuit quitChars rest)
            | some token =>
                obtain ⟨hn, hne, hfree⟩ := hcur token rfl
                obtain ⟨k, rfl⟩ : ∃ k, n = k + 1 := ⟨n - 1, by omega⟩
                have hfrom := fromWord_word_append hfree hne k
                  (t := c :: beforeQuit quitChars rest) (fun d hd => by cases hd; exact hc)
                refine hskip (ih (n := k) (by simp; omega) openToken_none) fun d =>
                  mem_seenFrom_cons hbefore (hfrom.trans (fromWord_cons hc k _)) ?_
                exact length_fromWord_le k (beforeQuit quitChars rest)
          · have hbefore := beforeQuit_cons hquit rest
            have hc : isOneOf sepChars c = false := decide_eq_false hsep
            cases cur with
            | some token =>
                obtain ⟨hn, hne, hfree⟩ := hcur token rfl
                obtain ⟨k, rfl⟩ : ∃ k, n = k + 1 := ⟨n - 1, by omega⟩
                have hgrown := hcur.grow hc
                obtain ⟨-, -, hfree'⟩ := hgrown _ rfl
                refine hskip (ih hroom hgrown) fun d => mem_seenFrom_cons hbefore ?_ ?_
                · simp
                · exact length_fromWord_word_le hfree' k (beforeQuit quitChars rest)
            | none =>
                by_cases hfull : argv.length + 1 = argvSz
                · -- the last one there is room for
                  obtain rfl : n = 0 := by omega
                  simp [hfull, seenFrom, hbefore, fromWord_zero hc, hlow]
                · obtain ⟨k, rfl⟩ : ∃ k, n = k + 1 := ⟨n - 1, by omega⟩
                  have hnew := openToken_new (Nat.succ_pos k) hc
                  obtain ⟨-, -, hfree'⟩ := hnew _ rfl
                  simp only [if_neg hfull]
                  refine hskip (ih hroom hnew) fun d => mem_seenFrom_cons hbefore rfl ?_
                  exact length_fromWord_word_le hfree' k (beforeQuit quitChars rest)

theorem splitLine_eq_none_iff (hquitLow : ∀ c ∈ quitChars, c < 0x80) (n : Nat) (line : Bytes) :
    Ref.splitLine sepChars quitChars (n + 1) line = none ↔
      ∃ c ∈ lookedUp sepChars quitChars n line, ¬ c < 0x80 :=
  splitLoop_eq_none_iff hquitLow (by simp) openToken_none

theorem lookedUp_subset (n : Nat) (line : Bytes) : lookedUp sepChars quitChars n line ⊆ line := by
  intro c hc
  exact (List.takeWhile_sublist _).subset (List.mem_of_mem_take hc)

end LookedUp

/-! ## What has been looked up before

A word of a line is a part of the line, and what `split_line` has looked up at its
tokens it has looked up at their characters. So only the call on the whole line can go
wrong, and only where its characters are not low. -/

/-- All of it is in the tables. -/
def Low (s : Bytes) : Prop := ∀ c ∈ s, c < 0x80

theorem getHostPort_ne_none {word : Bytes} (h : Low word) : Ref.getHostPort word ≠ none := by
  have hsplit : Ref.splitLine (ascii ":") [] (1 + 1) word ≠ none := by
    rw [Ne, splitLine_eq_none_iff (by simp)]
    simp only [not_exists, not_and, not_not]
    exact fun c hc => h c (lookedUp_subset 1 word hc)
  rw [Ref.getHostPort]
  split
  · next hnone => exact absurd hnone hsplit
  · simp only []
    split <;> simp
  · simp

theorem decodeHexLoop_ne_none : ∀ {hex : Bytes} (key : Bytes), Low hex →
    Ref.decodeHexLoop hex key ≠ none := by
  intro hex key
  induction hex, key using Ref.decodeHexLoop.induct with
  | case1 a b rest key hfull => intro _; simp [Ref.decodeHexLoop, hfull]
  | case2 a b rest key hroom hout =>
      intro h
      have ha := h a (by simp)
      have hb := h b (by simp)
      simp [UInt8.not_le.mpr ha, UInt8.not_le.mpr hb] at hout
  | case3 a b rest key hroom hin hbad =>
      intro _
      rw [Ref.decodeHexLoop, if_neg hroom, if_neg hin, if_pos hbad]
      simp
  | case4 a b rest key hroom hin hgood ih =>
      intro h
      rw [Ref.decodeHexLoop, if_neg hroom, if_neg hin, if_neg hgood]
      exact ih fun c hc => h c (by simp [hc])
  | case5 a key => intro _; simp [Ref.decodeHexLoop]
  | case6 key => intro _; simp [Ref.decodeHexLoop]

section Words

variable {argv : List Bytes}

theorem low_getD (h : ∀ t ∈ argv.take 31, Low t) {i : Nat} (hi : i < argv.length) (h31 : i < 31) :
    Low (argv.getD i []) := by
  rw [List.getD_eq_getElem?_getD, List.getElem?_eq_getElem hi, Option.getD_some]
  exact h _ (List.mem_take_iff_getElem.mpr ⟨i, by omega, rfl⟩)

theorem parseProxy_ne_none (h : ∀ t ∈ argv.take 31, Low t) : Ref.parseProxy argv ≠ none := by
  rw [Ref.parseProxy]
  split
  · simp
  · next hlen =>
      have haddr := getHostPort_ne_none (low_getD h (i := 1) (by omega) (by omega))
      split
      · next hnone => exact absurd hnone haddr
      · simp
      · simp

theorem parseServer_ne_none (h : ∀ t ∈ argv.take 31, Low t) : Ref.parseServer argv ≠ none := by
  rw [Ref.parseServer]
  split
  · simp
  · next hlen =>
      have haddr := getHostPort_ne_none (low_getD h (i := 1) (by omega) (by omega))
      split
      · next hnone => exact absurd hnone haddr
      · simp
      · simp only []
        split
        · simp
        · split
          · next hkey =>
              have hhex := decodeHexLoop_ne_none [] (low_getD h (i := 3) (by omega) (by omega))
              rw [Ref.decodeHex]
              split
              · next hnone => exact absurd hnone hhex
              · simp
              · simp
          · simp

end Words

/-- Only splitting a line takes a lookup out of its table. -/
theorem parseLine_eq_none_iff (line : Bytes) : Ref.parseLine line = none ↔
    ∃ c ∈ lookedUp (ascii " ,\t") (ascii "#") 31 line, ¬ c < 0x80 := by
  rw [← splitLine_eq_none_iff (by decide)]
  show _ ↔ Ref.splitLine (ascii " ,\t") (ascii "#") 32 line = none
  constructor
  · intro h
    rw [Ref.parseLine] at h
    split at h
    · next hnone => exact hnone
    · cases h
    · next keyword args hargv =>
        have hwhole := (splitLoop_whole (by decide) (by simp) (by simp) (by simp) hargv).2
        have hlow : ∀ t ∈ (keyword :: args).take 31, Low t := fun t ht c hc => (hwhole t ht c hc).1
        split at h
        · exact absurd h (parseProxy_ne_none hlow)
        · split at h
          · exact absurd h (parseServer_ne_none hlow)
          · cases h
  · intro h
    rw [Ref.parseLine, h]

/-! ## Lines by their words

Whether a line is good and what it asks for has been said of its words (`Reads`), and
can be used where the lookups do not fail. -/

theorem getHostPort_of_readAddress {word : Bytes} {a : Bytes × Int} (h : readAddress word = some a)
    (hne : Ref.getHostPort word ≠ none) : Ref.getHostPort word = some (some a) := by
  rw [readAddress] at h
  split at h
  · next host port more hwords =>
      split at h
      · next hrange =>
          cases h
          rw [Ref.getHostPort] at hne ⊢
          cases hargv : Ref.splitLine (ascii ":") [] 2 word with
          | none => rw [hargv] at hne; exact absurd rfl hne
          | some argv =>
              have hrest : fromWord (isOneOf (ascii ":")) 1 word ≠ [] := by
                rw [Ne, fromWord_eq_nil_iff, hwords]
                simp
              have hport : words (isOneOf (ascii ":"))
                  (fromWord (isOneOf (ascii ":")) 1 word) = _ :=
                words_fromWord 1 word
              rw [words_first (head_fromWord 1 word) hrest, hwords] at hport
              have hport := congrArg atoi (List.cons.inj hport).1
              rw [atoi_firstWord] at hport
              have hparts : argv = [host, fromWord (isOneOf (ascii ":")) 1 word] := by
                have hlines := splitLine_lines (n := 1) hargv
                rwa [if_neg hrest, hwords] at hlines
              subst hparts
              simp only [hport]
              rw [if_neg (by omega)]
      · cases h
  · cases h

theorem splitLine_few {line : Bytes} {argv : List Bytes}
    (h : Ref.splitLine (ascii " ,\t") (ascii "#") 32 line = some argv)
    (hlen : (wordsOf line).length ≤ 31) : argv = wordsOf line := by
  have hargv := splitLoop_words (n := 31) (by decide) openToken_none h
  have hlast : fromWord (isOneOf (ascii " ,\t")) 31 (beforeQuit (ascii "#") line) = [] :=
    fromWord_eq_nil_iff.mpr hlen
  simp only [lastToken, Option.getD_none, List.nil_append, hlast, if_true, List.append_nil] at hargv
  rw [hargv]
  exact List.take_of_length_le hlen

theorem length_reads {ws : List Bytes} {l : ConfigLine} (h : Reads ws l) : ws.length ≤ 4 := by
  cases h with
  | blank => simp
  | proxy haddr => simp
  | server haddr hweight hkey =>
      rename_i hex _ _
      match hex, hkey with
      | [], _ => simp
      | [_], _ => simp

/-- What a line says is what it comes to. -/
theorem parseLine_of_reads {line : Bytes} {l : ConfigLine} (hne : Ref.parseLine line ≠ none)
    (h : Reads (wordsOf line) l) : Ref.parseLine line = some l := by
  rw [Ref.parseLine] at hne ⊢
  cases hargv : Ref.splitLine (ascii " ,\t") (ascii "#") 32 line with
  | none => rw [hargv] at hne; exact absurd rfl hne
  | some argv =>
      have hwhole := (splitLoop_whole (by decide) (by simp) (by simp) (by simp) hargv).2
      have hlow : ∀ t ∈ argv.take 31, Low t := fun t ht c hc => (hwhole t ht c hc).1
      have hwords := splitLine_few hargv ((length_reads h).trans (by decide))
      rw [hwords] at hlow
      rw [hwords]
      generalize wordsOf line = ws at h hlow
      cases h with
      | blank => rfl
      | proxy haddr =>
          have hhost := getHostPort_of_readAddress haddr
            (getHostPort_ne_none (low_getD hlow (i := 1) (by simp) (by decide)))
          simp only []
          rw [if_pos trivial]
          simp only [Ref.parseProxy, List.length_cons, List.length_nil, List.getD_cons_succ,
            List.getD_cons_zero, hhost]
          rfl
      | server haddr hweight hkey =>
          rename_i addr weightText host key hex port weight
          have hhost := getHostPort_of_readAddress haddr
            (getHostPort_ne_none (low_getD hlow (i := 1) (by simp) (by decide)))
          rw [readWeight] at hweight
          split at hweight
          · next hrange =>
              cases hweight
              simp only []
              rw [if_neg (by decide), if_pos trivial]
              rcases hex with - | ⟨hex, - | ⟨next, more⟩⟩
              · cases hkey
                simp only [Ref.parseServer, List.length_cons, List.length_nil,
                  List.getD_cons_succ, List.getD_cons_zero, hhost]
                simp [show ¬ (atoi weightText < 1 ∨ atoi weightText > 999999) by omega]
              · have hdecode := Option.join_eq_some_iff.mp hkey
                simp only [Ref.parseServer, List.length_cons, List.length_nil,
                  List.getD_cons_succ, List.getD_cons_zero, hhost, hdecode]
                simp [show ¬ (atoi weightText < 1 ∨ atoi weightText > 999999) by omega]
              · cases hkey
          · cases hweight

/-- What lines without an error ask for, by their words. -/
inductive LinesRead : List Bytes → List ConfigEntry → Prop
  | nil : LinesRead [] []
  | blank {line : Bytes} {rest : List Bytes} {es : List ConfigEntry}
      (hline : Reads (wordsOf line) .blank) (hrest : LinesRead rest es) :
      LinesRead (line :: rest) es
  | entry {line : Bytes} {rest : List Bytes} {e : ConfigEntry} {es : List ConfigEntry}
      (hline : Reads (wordsOf line) (.entry e)) (hrest : LinesRead rest es) :
      LinesRead (line :: rest) (e :: es)

theorem entriesOf_iff : ∀ {lines : List Bytes} {es : List ConfigEntry},
    (∀ line ∈ lines, Ref.parseLine line ≠ none) →
      (entriesOf lines = some es ↔ LinesRead lines es) := by
  intro lines
  induction lines with
  | nil =>
      intro es _
      constructor
      · intro h
        cases h
        exact .nil
      · intro h
        cases h
        rfl
  | cons line rest ih =>
      intro es h
      have hline := h line List.mem_cons_self
      have hrest := fun l hl => h l (List.mem_cons_of_mem _ hl)
      constructor
      · intro hes
        rw [entriesOf] at hes
        split at hes
        · next hparse =>
            exact .blank (parseLine_reads hparse (by simp)) ((ih hrest).mp hes)
        · next e hparse =>
            obtain ⟨es', hes', rfl⟩ := Option.map_eq_some_iff.mp hes
            exact .entry (parseLine_reads hparse (by simp)) ((ih hrest).mp hes')
        · cases hes
      · intro hes
        cases hes with
        | blank hreads hmore =>
            rw [entriesOf, parseLine_of_reads hline hreads]
            exact (ih hrest).mpr hmore
        | entry hreads hmore =>
            rw [entriesOf, parseLine_of_reads hline hreads]
            simp only [(ih hrest).mpr hmore]
            rfl

/-! ## Loading the lines

A line that does not load ends the loop, and so the lines behind it are not looked at.
The last line is come to when the lines in front of it load, from the configuration
there was. -/

section Lines

variable (env : ProxyEnv) (testing : Bool)

theorem loadLines_append (more : List Bytes) : ∀ {lines : List Bytes} {n : Nat} {l : Loading},
    Ref.loadLines env testing (lines ++ more) n l
      = match Ref.loadLines env testing lines n l with
        | none => none
        | some (l', some err, m) => some (l', some err, m)
        | some (l', none, m) => Ref.loadLines env testing more m l' := by
  intro lines
  induction lines with
  | nil => intro n l; rfl
  | cons line rest ih =>
      intro n l
      rw [List.cons_append, Ref.loadLines, Ref.loadLines]
      cases Ref.parseLine line with
      | none => rfl
      | some parsed =>
          cases parsed with
          | blank => exact ih
          | error err => rfl
          | entry e =>
              simp only []
              cases loadEntry env testing l e with
              | inl err => rfl
              | inr l' => exact ih

theorem loadLines_ne_none : ∀ {lines : List Bytes} (n : Nat) (l : Loading),
    (∀ line ∈ lines, Ref.parseLine line ≠ none) →
      Ref.loadLines env testing lines n l ≠ none := by
  intro lines
  induction lines with
  | nil => intro n l _; simp [Ref.loadLines]
  | cons line rest ih =>
      intro n l h
      have hline := h line List.mem_cons_self
      have hrest := fun l hl => h l (List.mem_cons_of_mem _ hl)
      rw [Ref.loadLines]
      split
      · next hnone => exact absurd hnone hline
      · exact ih _ _ hrest
      · simp
      · split
        · simp
        · exact ih _ _ hrest

/-- The loop gets past these lines: each is empty or describes an entry, and when it is not
the dry run, all of these can be created. -/
def LinesLoad (w : ProxyWorld) (lines : List Bytes) : Prop :=
  ∃ es, LinesRead lines es ∧ (testing = true ∨ createAll env w es ≠ none)

theorem linesInTable_of_parse : ∀ {lines : List Bytes},
    (∀ line ∈ lines, Ref.parseLine line ≠ none) → LinesInTable lines := by
  intro lines
  induction lines with
  | nil => exact fun _ => trivial
  | cons line rest ih =>
      intro h
      have hline := h line List.mem_cons_self
      have hrest := ih fun l hl => h l (List.mem_cons_of_mem _ hl)
      rw [LinesInTable]
      split
      · next hnone => exact hline hnone
      · trivial
      · exact hrest

theorem loadLines_past_iff {lines : List Bytes} (h : ∀ line ∈ lines, Ref.parseLine line ≠ none)
    (w : ProxyWorld) :
    (∃ l m, Ref.loadLines env testing lines 0 { world := w } = some (l, none, m)) ↔
      LinesLoad env testing w lines := by
  cases testing with
  | true =>
      obtain ⟨l, err, m, hrun, -, herr, -⟩ :=
        loadLines_testing env 0 { world := w } (linesInTable_of_parse h)
      constructor
      · intro ⟨l', m', hrun'⟩
        rw [hrun] at hrun'
        obtain ⟨es, hes⟩ := Option.ne_none_iff_exists'.mp (herr.mp (by cases hrun'; rfl))
        exact ⟨es, (entriesOf_iff h).mp hes, .inl rfl⟩
      · intro ⟨es, hes, _⟩
        have hnone : err = none := herr.mpr (by rw [(entriesOf_iff h).mpr hes]; simp)
        exact ⟨l, m, by rw [hrun, hnone]⟩
  | false =>
      constructor
      · intro ⟨l, m, hrun⟩
        obtain ⟨es, hes⟩ := entriesOf_of_loadLines env hrun
        refine ⟨es, (entriesOf_iff h).mp hes, .inr fun hnone => ?_⟩
        obtain ⟨l', err, m', hrun'⟩ := (loadLines_loading env 0 { world := w } hes).2 hnone
        rw [hrun] at hrun'
        cases hrun'
      · intro ⟨es, hes, hcreate⟩
        rcases hcreate with hfalse | hcreate
        · cases hfalse
        · obtain ⟨w', hw'⟩ := Option.ne_none_iff_exists'.mp hcreate
          obtain ⟨m, hm⟩ :=
            (loadLines_loading env 0 { world := w } ((entriesOf_iff h).mpr hes)).1 w' hw'
          exact ⟨_, m, hm⟩

theorem loadLines_single_iff (line : Bytes) (n : Nat) (l : Loading) :
    Ref.loadLines env testing [line] n l ≠ none ↔ Ref.parseLine line ≠ none := by
  constructor
  · intro h hnone
    exact h (by rw [Ref.loadLines, hnone])
  · intro h
    exact loadLines_ne_none env testing n l fun t ht => by rwa [List.mem_singleton.mp ht]

end Lines

/-! ## Which texts stay in bounds

The loop over the text comes first: it looks at everything up to the last line there is
room for. Then the lines are loaded one by one, and they have been looked at, but for
the last one. -/

/-- The lines in front of the last there is room for. -/
def firstLines (text : Bytes) : List Bytes := (linesOf text).take (maxConfigLines - 1)

/-- `sep` has an entry for all that is looked up in it. -/
structure LooksUpLow (env : ProxyEnv) (testing : Bool) (w : ProxyWorld) (text : Bytes) : Prop where
  /-- the text up to the first character of the last line there is room for -/
  lines : Low (lookedUp (ascii "\n\r") [] (maxConfigLines - 1) text)
  /-- this line up to its last word, if the lines before it all load -/
  last : LinesLoad env testing w (firstLines text) →
    Low (lookedUp (ascii " ,\t") (ascii "#") 31 (fromLastLine text))

theorem not_low_iff {s : Bytes} : ¬ Low s ↔ ∃ c ∈ s, ¬ c < 0x80 := by
  simp [Low]

theorem firstLines_parse {text : Bytes} {lines : List Bytes}
    (h : Ref.splitLine (ascii "\n\r") [] maxConfigLines text = some lines) :
    ∀ line ∈ firstLines text, Ref.parseLine line ≠ none := by
  have hwhole := (splitLoop_whole (by decide) (by simp) (by simp) (by simp) h).2
  have hlines := splitLine_lines (n := maxConfigLines - 1) h
  intro line hline
  have hmem : line ∈ lines.take (maxConfigLines - 1) := by
    rw [hlines, List.take_append, List.take_take, Nat.min_self]
    exact List.mem_append_left _ hline
  rw [Ne, parseLine_eq_none_iff, ← not_low_iff, not_not]
  exact fun c hc => (hwhole line hmem c (lookedUp_subset 31 line hc)).1

theorem loadConfigFromString_ne_none_iff (env : ProxyEnv) (testing : Bool) (w : ProxyWorld)
    (text : Bytes) : Ref.loadConfigFromString env testing w text ≠ none ↔
      LooksUpLow env testing w text := by
  rw [Ref.loadConfigFromString]
  have hsplit : Ref.splitLine (ascii "\n\r") [] maxConfigLines text = none ↔
      ¬ Low (lookedUp (ascii "\n\r") [] (maxConfigLines - 1) text) :=
    (splitLine_eq_none_iff (by simp) (maxConfigLines - 1) text).trans not_low_iff.symm
  cases hlines : Ref.splitLine (ascii "\n\r") [] maxConfigLines text with
  | none => exact iff_of_false (by simp) fun h => hsplit.mp hlines h.lines
  | some lines =>
      have hlow : Low (lookedUp (ascii "\n\r") [] (maxConfigLines - 1) text) := by
        by_contra hnot
        rw [hsplit.mpr hnot] at hlines
        cases hlines
      have hfirst := firstLines_parse hlines
      have hpast := loadLines_past_iff env testing hfirst w
      have hshape : lines = firstLines text ++
          if fromLastLine text = [] then [] else [fromLastLine text] :=
        splitLine_lines (n := maxConfigLines - 1) hlines
      have hloads : Ref.loadLines env testing lines 0 { world := w } ≠ none ↔
          (LinesLoad env testing w (firstLines text) →
            Low (lookedUp (ascii " ,\t") (ascii "#") 31 (fromLastLine text))) := by
        rw [hshape, loadLines_append]
        cases hrun : Ref.loadLines env testing (firstLines text) 0 { world := w } with
        | none => exact absurd hrun (loadLines_ne_none env testing 0 _ hfirst)
        | some r =>
            obtain ⟨l, err, m⟩ := r
            rw [hrun] at hpast
            cases err with
            | some err =>
                refine iff_of_true (by simp) fun hload => ?_
                obtain ⟨_, _, hnone⟩ := hpast.mpr hload
                cases hnone
            | none =>
                have hload := hpast.mp ⟨l, m, rfl⟩
                by_cases hlast : fromLastLine text = []
                · rw [if_pos hlast, hlast]
                  refine iff_of_true (by simp [Ref.loadLines]) fun _ c hc => ?_
                  exact absurd (lookedUp_subset 31 [] hc) List.not_mem_nil
                · rw [if_neg hlast, loadLines_single_iff, Ne, parseLine_eq_none_iff, ← not_low_iff,
                    not_not]
                  exact ⟨fun h _ => h, fun h => h hload⟩
      have hresult : Ref.loadLines env testing lines 0 { world := w } ≠ none ↔
          LooksUpLow env testing w text :=
        hloads.trans ⟨fun h => ⟨hlow, h⟩, fun h => h.last⟩
      rw [← hresult]
      simp only []
      cases Ref.loadLines env testing lines 0 { world := w } with
      | none => exact iff_of_false (by simp) (by simp)
      | some r => exact iff_of_true (by simp) (by simp)

/-- All loops end and no store or read leaves its array. A lookup in `sep` does when it comes
to a byte from `0x80` on. -/
theorem config_inBounds_iff (env : ProxyEnv) (testing : Bool) (w : ProxyWorld) {text : Bytes}
    (h : 0 ∉ text) :
    ((∃ r, Inplace.loadConfigFromString env testing w (text ++ [0]) = .ok r) ↔
      LooksUpLow env testing w text) ∧
    ∀ fault, Inplace.loadConfigFromString env testing w (text ++ [0]) = .error fault →
      fault = .table := by
  rw [loadConfigFromString_inplace env testing w h, ← loadConfigFromString_ne_none_iff]
  cases Ref.loadConfigFromString env testing w text with
  | none =>
      refine ⟨iff_of_false (fun ⟨_, hr⟩ => by cases hr) (by simp), fun fault hfault => ?_⟩
      cases hfault
      rfl
  | some r =>
      refine ⟨iff_of_true ⟨r, rfl⟩ (by simp), fun fault hfault => ?_⟩
      cases hfault

/-- A text of two lines, and what is looked up in it is all of it. -/
theorem config_inBounds_iff_goodText :
    ∃ r, Inplace.loadConfigFromString plainEnv false {} (ascii goodText ++ [0]) = .ok r := by
  have hend : fromLastLine (ascii goodText) = [] :=
    fromWord_eq_nil_iff.mpr (show (linesOf (ascii goodText)).length ≤ _ by decide)
  have hlow : Low (ascii goodText) := by
    show ∀ c ∈ ascii goodText, c < 0x80
    decide
  refine (config_inBounds_iff plainEnv false {} (by decide)).1.mpr
    ⟨fun c hc => hlow c (lookedUp_subset _ _ hc), fun _ c hc => ?_⟩
  rw [hend] at hc
  exact absurd (lookedUp_subset _ _ hc) List.not_mem_nil

/-- The name of a host may hold any bytes. -/
theorem config_outOfBounds : ¬ ∀ (env : ProxyEnv) (testing : Bool) (w : ProxyWorld) (text : Bytes),
    0 ∉ text →
      ∃ r, Inplace.loadConfigFromString env testing w (text ++ [0]) = .ok r := by
  intro h
  obtain ⟨r, hr⟩ := h plainEnv true {} (ascii "proxy caf" ++ [0xC3, 0xA9] ++ ascii ":22122\n")
    (by decide)
  have hfault : Inplace.loadConfigFromString plainEnv true {}
      (ascii "proxy caf" ++ [0xC3, 0xA9] ++ ascii ":22122\n" ++ [0]) = .error .table := rfl
  rw [hfault] at hr
  cases hr

end Smalltable.Proofs
