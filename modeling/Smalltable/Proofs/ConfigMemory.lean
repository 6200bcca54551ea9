import Smalltable.Proofs.ConfigLines
import Smalltable.Ref.ConfigMemory

/-!
# Configuration texts in place

`split_line` is called on tokens of tokens: the lines of a text, the words of a line,
the two parts of an address. What makes this work is that tokens lie one behind the
other, each with its own zero, and that nothing but the token itself is written to
when it is split. So all that is still to be read is as it was, and what is done in
place is what is done with strings.

No loop runs over the end of its string and `argv` is never overfilled. That leaves the
lookups in the tables.

A function on memory gives a result, or says which array an access was outside of
(`Checked`). Where the functions on strings have `none`, it is one of the tables.
-/

namespace Smalltable.Proofs

open Smalltable.Ref Inplace

/-! ## Strings in memory

A string is what is in front of the first zero. Tokens lie in the string they are made
from, with one byte between them that is written to; a second look at a token that has
not been split finds what was there. -/

/-- The string `t` is at `p`. -/
structure StrAt (mem : Bytes) (p : Nat) (t : Bytes) : Prop where
  free : 0 ∉ t
  at_ : ∃ post, mem.drop p = t ++ 0 :: post

theorem untilZero_append {t : Bytes} (h : 0 ∉ t) (post : Bytes) :
    untilZero (t ++ 0 :: post) = .ok t := by
  induction t with
  | nil => rfl
  | cons c t ih =>
      obtain ⟨hc, ht⟩ := not_or.mp (mt List.mem_cons.mpr h)
      rw [List.cons_append, untilZero, if_neg (Ne.symm hc), ih ht]
      rfl

theorem StrAt.cstr {mem : Bytes} {p : Nat} {t : Bytes} (h : StrAt mem p t) :
    Inplace.cstr mem p = .ok t := by
  obtain ⟨hfree, post, hpost⟩ := h
  rw [Inplace.cstr, hpost, untilZero_append hfree]

theorem drop_eq_of_le {mem mem' : Bytes} {lo p : Nat} (h : mem'.drop lo = mem.drop lo)
    (hlo : lo ≤ p) : mem'.drop p = mem.drop p := by
  obtain ⟨d, rfl⟩ := Nat.exists_eq_add_of_le hlo
  rw [← List.drop_drop, h, List.drop_drop]

theorem StrAt.of_drop {mem mem' : Bytes} {lo p : Nat} {t : Bytes} (h : StrAt mem p t)
    (hdrop : mem'.drop lo = mem.drop lo) (hlo : lo ≤ p) : StrAt mem' p t := by
  obtain ⟨hfree, post, hpost⟩ := h
  exact ⟨hfree, post, by rw [drop_eq_of_le hdrop hlo, hpost]⟩

theorem StrAt.append {mem : Bytes} {p : Nat} {t : Bytes} (h : StrAt mem p t) (more : Bytes) :
    StrAt (mem ++ more) p t ∧ p + t.length + 1 ≤ mem.length := by
  obtain ⟨hfree, post, hpost⟩ := h
  have hlen := congrArg List.length hpost
  rw [List.length_drop, List.length_append, List.length_cons] at hlen
  refine ⟨⟨hfree, post ++ more, ?_⟩, by omega⟩
  rw [List.drop_append_of_le_length (by omega), hpost, List.append_assoc, List.cons_append]

/-- Strings at their places, one behind the other. -/
def Placed (mem : Bytes) : Nat → List (Nat × Bytes) → Prop
  | _, [] => True
  | lo, (p, t) :: rest => lo ≤ p ∧ StrAt mem p t ∧ Placed mem (p + t.length + 1) rest

/-- What is written in front of them does not matter. -/
theorem Placed.of_drop {mem mem' : Bytes} : ∀ {lo : Nat} {es : List (Nat × Bytes)},
    Placed mem lo es → mem'.drop lo = mem.drop lo → Placed mem' lo es := by
  intro lo es
  induction es generalizing lo with
  | nil => exact fun _ _ => trivial
  | cons e rest ih =>
      intro h hdrop
      obtain ⟨hlo, hstr, hrest⟩ := h
      exact ⟨hlo, hstr.of_drop hdrop hlo, ih hrest (drop_eq_of_le hdrop (by omega))⟩

/-- One more string, behind all the memory they are in. -/
theorem Placed.snoc {mem t : Bytes} (ht : 0 ∉ t) (post : Bytes) :
    ∀ {lo : Nat} {es : List (Nat × Bytes)}, Placed mem lo es → lo ≤ mem.length →
      Placed (mem ++ (t ++ 0 :: post)) lo (es ++ [(mem.length, t)]) := by
  intro lo es
  induction es generalizing lo with
  | nil =>
      intro _ hlo
      exact ⟨hlo, ⟨ht, post, List.drop_left⟩, trivial⟩
  | cons e rest ih =>
      intro h _
      obtain ⟨hlo, hstr, hrest⟩ := h
      obtain ⟨hstr', hroom⟩ := hstr.append (t ++ 0 :: post)
      exact ⟨hlo, hstr', ih hrest hroom⟩

theorem Placed.append {mem : Bytes} (more : Bytes) :
    ∀ {lo : Nat} {es : List (Nat × Bytes)}, Placed mem lo es → Placed (mem ++ more) lo es := by
  intro lo es
  induction es generalizing lo with
  | nil => exact fun _ => trivial
  | cons e rest ih =>
      intro h
      obtain ⟨hlo, hstr, hrest⟩ := h
      exact ⟨hlo, (hstr.append more).1, ih hrest⟩

theorem Placed.within {mem : Bytes} : ∀ {lo : Nat} {es : List (Nat × Bytes)}, Placed mem lo es →
    ∀ e ∈ es, e.1 + e.2.length + 1 ≤ mem.length := by
  intro lo es
  induction es generalizing lo with
  | nil => intro _ e he; cases he
  | cons d rest ih =>
      intro h e he
      obtain ⟨-, hstr, hrest⟩ := h
      rcases List.mem_cons.mp he with rfl | he
      · exact (hstr.append []).2
      · exact ih hrest e he

/-! ## Lookups

`sep` is indexed with a `char`, and a byte above `0x7F` is a negative one: an index in
front of the table. -/

/-- A result, or the one fault there is. -/
def orTable {α : Type} : Option α → Checked α
  | none => .error .table
  | some a => .ok a

theorem lookup_eq (table : UInt8 → Nat) (c : UInt8) :
    lookup table c = if c < 0x80 then .ok (table c) else .error .table := by
  have hindex : 0 ≤ c.toInt8.toInt ∧ c.toInt8.toInt < 256 ↔ c < 0x80 := by
    have hlt := c.toNat_lt
    have hint : c.toInt8.toInt = if 2 * c.toNat < 256 then (c.toNat : Int) else c.toNat - 256 :=
      BitVec.toInt_eq_toNat_cond c.toBitVec
    rw [hint, UInt8.lt_iff_toNat_lt]
    show _ ↔ c.toNat < 128
    split <;> omega
  rw [lookup]
  exact if_congr hindex rfl rfl

section Split

variable {sepChars quitChars : Bytes} {argvSz : Nat}

theorem lookup_sep (c : UInt8) :
    lookup (sepEntry sepChars quitChars) c = orTable (sepTable sepChars quitChars c) := by
  rw [lookup_eq, sepTable]
  by_cases hc : c < 0x80
  · have hnot : ¬ c ≥ 0x80 := by simpa using hc
    rw [if_pos hc, if_neg hnot]
    rfl
  · have hge : c ≥ 0x80 := by simpa using hc
    rw [if_neg hc, if_pos hge]
    rfl

/-! ## `split_line`

By induction on what is left of the string. A step reads one character, looks it up, and
may write a zero over it; what is in front of the place is finished, and what is behind
has not been touched. -/

/-- `split_line` finds the tokens, leaves them one behind the other, and does not touch what
is from `hi` on. -/
def Splits (lo hi : Nat) (after : Bytes) (r : Checked (Bytes × List Nat)) :
    Option (List Bytes) → Prop
  | none => r = .error .table
  | some ts => ∃ mem es, r = .ok (mem, es.map Prod.fst) ∧ es.map Prod.snd = ts ∧
      Placed mem lo es ∧ (∀ e ∈ es, e.1 + e.2.length ≤ hi) ∧ mem.drop hi = after

theorem load_append (before : Bytes) (c : UInt8) (rest : Bytes) :
    load (before ++ c :: rest) before.length = .ok c := by
  rw [load, List.getElem?_append_right (Nat.le_refl _), Nat.sub_self]
  rfl

theorem store_append (before : Bytes) (c d : UInt8) (rest : Bytes) :
    store (before ++ c :: rest) before.length d = .ok (before ++ d :: rest) := by
  rw [store, if_pos (by simp), List.set_append_right _ _ (Nat.le_refl _), Nat.sub_self]
  rfl

/-- One character, by what `sep` has for it. -/
theorem splitLoop_step (n : Nat) (before : Bytes) (c : UInt8) (rest : Bytes) (argv : List Nat)
    (prev : UInt8) (hc : c ≠ 0) :
    Inplace.splitLoop sepChars quitChars argvSz (n + 1) (before ++ c :: rest) before.length argv
        prev
      = match sepTable sepChars quitChars c with
        | none => .error .table
        | some 1 => Inplace.splitLoop sepChars quitChars argvSz n (before ++ 0 :: rest)
            (before.length + 1) argv 0
        | some 2 => .ok (before ++ 0 :: rest, argv)
        | some _ =>
            if prev = 0 then
              if argv.length < argvSz then
                if argv.length + 1 = argvSz then
                  .ok (before ++ c :: rest, argv ++ [before.length])
                else Inplace.splitLoop sepChars quitChars argvSz n (before ++ c :: rest)
                  (before.length + 1) (argv ++ [before.length]) c
              else .error .argv
            else Inplace.splitLoop sepChars quitChars argvSz n (before ++ c :: rest)
              (before.length + 1) argv c := by
  rw [Inplace.splitLoop, load_append]
  simp only [bind, Except.bind]
  rw [lookup_sep]
  cases hkind : sepTable sepChars quitChars c with
  | none => rfl
  | some kind =>
      rcases sepTable_cases hkind with ⟨rfl, -⟩ | ⟨rfl, -⟩ | ⟨rfl, -⟩
      · simp only [orTable, if_pos]
        rw [store_append]
        rfl
      · simp [orTable, store_append, load_append]
      · simp only [orTable, push]
        by_cases hprev : prev = 0
        · by_cases hroom : argv.length < argvSz <;> by_cases hfull : argv.length + 1 = argvSz <;>
            simp [hprev, hroom, hfull, load_append, hc, pure, Except.pure]
        · simp [hprev, load_append, pure, Except.pure]

/-- The token that is being collected, if any, ends here. -/
theorem Placed.close {before : Bytes} {lo : Nat} {es : List (Nat × Bytes)} (h : Placed before lo es)
    (hlo : lo ≤ before.length) {cur : Option Bytes} (hcur : 0 ∉ cur.getD []) (post : Bytes) :
    Placed (before ++ (cur.getD [] ++ 0 :: post)) lo
      (es ++ cur.toList.map fun t => (before.length, t)) := by
  cases cur with
  | none => simpa using h.append (0 :: post)
  | some t => exact h.snoc hcur post hlo

/-- By induction on the characters to go. The tokens found so far, with their zeros, are in the
memory `before` the current token, which begins where that ends. -/
theorem splitLoop_splits {lo : Nat} (post : Bytes) : ∀ (rest before : Bytes) (cur : Option Bytes)
    (es : List (Nat × Bytes)) (prev : UInt8), 0 ∉ cur.getD [] ++ rest → (prev = 0 ↔ cur = none) →
    Placed before lo es → lo ≤ before.length → es.length + cur.toList.length < argvSz →
    Splits lo (before.length + (cur.getD [] ++ rest).length) (0 :: post)
      (Inplace.splitLoop sepChars quitChars argvSz rest.length
        (before ++ (cur.getD [] ++ rest ++ 0 :: post)) (before.length + (cur.getD []).length)
        (es.map Prod.fst ++ cur.toList.map fun _ => before.length) prev)
      (Ref.splitLoop sepChars quitChars argvSz rest (es.map Prod.snd) cur) := by
  intro rest
  induction rest with
  | nil =>
      intro before cur es prev hfree _ hes hlo _
      rw [List.append_nil] at hfree ⊢
      refine ⟨_, es ++ cur.toList.map fun t => (before.length, t), ?_, ?_,
        hes.close hlo hfree post, fun e he => ?_, ?_⟩
      · rw [List.length_nil, Inplace.splitLoop, List.map_append, List.map_map]
        rfl
      · rw [List.map_append, List.map_map]
        exact congrArg _ (List.map_id _)
      · have hin := (hes.close hlo hfree []).within e he
        simp only [List.length_append, List.length_singleton] at hin
        omega
      · rw [← List.append_assoc]
        exact List.drop_left' List.length_append
  | cons c rest ih =>
      intro before cur es prev hfree hprev hes hlo hroom
      have hfreeCur : 0 ∉ cur.getD [] := fun h => hfree (List.mem_append_left _ h)
      have hfreeRest : 0 ∉ c :: rest := fun h => hfree (List.mem_append_right _ h)
      obtain ⟨hc, hrest⟩ := not_or.mp (mt List.mem_cons.mpr hfreeRest)
      have hc : c ≠ 0 := Ne.symm hc
      have hmem : before ++ (cur.getD [] ++ c :: rest ++ 0 :: post)
          = (before ++ cur.getD []) ++ c :: (rest ++ 0 :: post) := by simp
      have hpos : before.length + (cur.getD []).length = (before ++ cur.getD []).length :=
        List.length_append.symm
      rw [hmem, hpos, List.length_cons, splitLoop_step _ _ _ _ _ _ hc, Ref.splitLoop.eq_def]
      simp only []
      cases hkind : sepTable sepChars quitChars c with
      | none => rfl
      | some kind =>
          rcases sepTable_cases hkind with ⟨rfl, -⟩ | ⟨rfl, -⟩ | ⟨rfl, -⟩
          · -- the line ends here
            refine ⟨_, es ++ cur.toList.map fun t => (before.length, t), ?_, ?_,
              hes.close hlo hfreeCur (rest ++ 0 :: post), fun e he => ?_, ?_⟩
            · rw [List.map_append, List.map_map, List.append_assoc]
              rfl
            · rw [List.map_append, List.map_map]
              exact congrArg _ (List.map_id _)
            · have hin := (hes.close hlo hfreeCur []).within e he
              simp only [List.length_append, List.length_nil, List.length_cons] at hin ⊢
              omega
            · have hshape : before ++ (cur.getD [] ++ 0 :: (rest ++ 0 :: post))
                  = (before ++ cur.getD [] ++ 0 :: rest) ++ 0 :: post := by simp
              rw [hshape]
              exact List.drop_left' (by simp)
          · -- a zero over the separator
            have hclosed : Placed (before ++ cur.getD [] ++ [0]) lo
                (es ++ cur.toList.map fun t => (before.length, t)) := by
              rw [List.append_assoc]
              exact hes.close hlo hfreeCur []
            have h := ih _ none _ 0 (by simpa using hrest) (by simp) hclosed
              (by simp; omega) (by simpa using hroom)
            simpa [Function.comp_def, Nat.add_assoc, Nat.add_comm 1] using h
          · cases cur with
            | some t =>
                have hne : prev ≠ 0 := fun h => by cases hprev.mp h
                have h := ih _ (some (t ++ [c])) _ c (by simpa using hfree) (by simp [hc])
                  hes hlo (by simpa using hroom)
                simpa [hne, Nat.add_assoc, Nat.add_comm 1] using h
            | none =>
                have hzero : prev = 0 := hprev.mpr rfl
                have hlt : es.length < argvSz := by simpa using hroom
                by_cases hfull : es.length + 1 = argvSz
                · -- the last one there is room for
                  have hdrop : (before ++ (c :: rest ++ 0 :: post)).drop
                      (before.length + (c :: rest).length) = 0 :: post := by
                    rw [← List.append_assoc]
                    exact List.drop_left' List.length_append
                  have hin : ∀ e ∈ es ++ [(before.length, c :: rest)],
                      e.1 + e.2.length ≤ before.length + (c :: rest).length := by
                    intro e he
                    have hin := (hes.snoc hfreeRest [] hlo).within e he
                    simp only [List.length_append, List.length_singleton] at hin
                    omega
                  have h : Splits lo (before.length + (c :: rest).length) (0 :: post)
                      (.ok (before ++ (c :: rest ++ 0 :: post), es.map Prod.fst ++ [before.length]))
                      (some (es.map Prod.snd ++ [c :: rest])) :=
                    ⟨_, es ++ [(before.length, c :: rest)], by simp, by simp,
                      hes.snoc hfreeRest post hlo, hin, hdrop⟩
                  simpa [hzero, hlt, hfull] using h
                · have h := ih _ (some [c]) _ c (by simpa using hfreeRest) (by simp [hc])
                    hes hlo (by simp; omega)
                  simpa [hzero, hlt, hfull, Nat.add_assoc, Nat.add_comm 1] using h

/-- A string that is split: the tokens, with all behind it as it was. -/
theorem splitLine_splits (hargv : 0 < argvSz) {mem : Bytes} {p : Nat} {t : Bytes}
    (h : StrAt mem p t) :
    Splits p (p + t.length) (mem.drop (p + t.length))
      (Inplace.splitLine sepChars quitChars argvSz mem p)
      (Ref.splitLine sepChars quitChars argvSz t) := by
  have hlen := (h.append []).2
  have hstr := h.cstr
  obtain ⟨hfree, post, hpost⟩ := h
  have hsplit : mem = mem.take p ++ (t ++ 0 :: post) := by
    rw [← hpost, List.take_append_drop]
  have hp : (mem.take p).length = p := by
    rw [List.length_take]
    omega
  have hafter : mem.drop (p + t.length) = 0 :: post := by
    rw [← List.drop_drop, hpost, List.drop_left]
  have hplaced : Placed (mem.take p) p [] := trivial
  have hloop : Splits _ _ _ (Inplace.splitLoop sepChars quitChars argvSz _ _ _ _ _) _ :=
    splitLoop_splits post t (mem.take p) none [] 0 hfree (by simp) hplaced (by omega)
      (by simpa using hargv)
  simp only [Option.getD_none, List.nil_append, List.length_nil, Nat.add_zero, List.map_nil,
    Option.toList_none, hp, ← hsplit] at hloop
  rw [Inplace.splitLine, hstr, hafter]
  exact hloop

end Split

/-! ## The calls on a line

Each of these functions gets a string of its own and touches no other. Their results are
those on strings, unless a lookup fails on both sides (`Agrees`). -/

/-- The result is that on strings, and what is from `hi` on is not touched. -/
def Agrees {α : Type} (hi : Nat) (after : Bytes) (r : Checked (Bytes × α)) : Option α → Prop
  | none => r = .error .table
  | some a => ∃ mem, r = .ok (mem, a) ∧ mem.drop hi = after

/-- The host that is returned is in the text. -/
def HostAt (mem : Bytes) : Option (Nat × Int) → Option (Bytes × Int) → Prop
  | none, none => True
  | some (p, port), some (host, port') => Inplace.cstr mem p = .ok host ∧ port = port'
  | _, _ => False

theorem getHostPort_inplace {mem : Bytes} {p : Nat} {t : Bytes} (h : StrAt mem p t) :
    match Ref.getHostPort t with
    | none => Inplace.getHostPort mem p = .error .table
    | some r => ∃ mem' r', Inplace.getHostPort mem p = .ok (mem', r') ∧ HostAt mem' r' r ∧
        mem'.drop (p + t.length) = mem.drop (p + t.length) := by
  have hsplits : Splits _ _ _ (Inplace.splitLine (ascii ":") [] 2 mem p)
    (Ref.splitLine (ascii ":") [] 2 t) := splitLine_splits (by decide) h
  rw [Ref.getHostPort, Inplace.getHostPort]
  cases hargv : Ref.splitLine (ascii ":") [] 2 t with
  | none =>
      rw [hargv] at hsplits
      rw [show Inplace.splitLine (ascii ":") [] 2 mem p = _ from hsplits]
      rfl
  | some argv =>
      rw [hargv] at hsplits
      obtain ⟨mem', es, hrun, rfl, hplaced, -, hdrop⟩ := hsplits
      rw [hrun]
      match es, hplaced with
      | [], _ => exact ⟨mem', none, rfl, trivial, hdrop⟩
      | [_], _ => exact ⟨mem', none, rfl, trivial, hdrop⟩
      | [host, portStr], ⟨_, hhost, _, hport, _⟩ =>
          have hrange : (do
              let port := atoi (← Inplace.cstr mem' portStr.1)
              if port < 1 ∨ port > 65535 then pure (mem', none)
              else pure (mem', some (host.1, port)) : Checked (Bytes × Option (Nat × Int)))
            = if atoi portStr.2 < 1 ∨ atoi portStr.2 > 65535 then .ok (mem', none)
              else .ok (mem', some (host.1, atoi portStr.2)) := by
            rw [hport.cstr]
            rfl
          simp only [List.map_cons, List.map_nil]
          by_cases hbad : atoi portStr.2 < 1 ∨ atoi portStr.2 > 65535
          · rw [if_pos hbad]
            exact ⟨mem', none, hrange.trans (if_pos hbad), trivial, hdrop⟩
          · rw [if_neg hbad]
            exact ⟨mem', some (host.1, atoi portStr.2), hrange.trans (if_neg hbad),
              ⟨hhost.cstr, rfl⟩, hdrop⟩
      | _ :: _ :: _ :: _, _ => exact ⟨mem', none, rfl, trivial, hdrop⟩

/-- The store into `start_key` is behind a check of the room. -/
theorem decodeHexLoop_step {a b : UInt8} (ha : a ≠ 0) (hb : b ≠ 0) (rest key : Bytes) :
    Inplace.decodeHexLoop (a :: b :: rest) key
      = if key.length ≥ 256 then .ok none
        else if a ≥ 0x80 ∨ b ≥ 0x80 then .error .table
        else if (hexToInt a = 0 ∧ a ≠ 0x30) ∨ (hexToInt b = 0 ∧ b ≠ 0x30) then .ok none
        else Inplace.decodeHexLoop rest
          (key ++ [(hexToInt a * 16 + hexToInt b).toUInt8]) := by
  rw [Inplace.decodeHexLoop, if_neg ha, if_neg hb]
  by_cases hfull : key.length ≥ 256
  · rw [if_pos hfull, if_pos hfull]
    rfl
  · have hroom : key.length < 256 := by omega
    rw [if_neg hfull, if_neg hfull, lookup_eq, lookup_eq]
    by_cases ha' : a < 0x80
    · by_cases hb' : b < 0x80
      · have hin : ¬ (a ≥ 0x80 ∨ b ≥ 0x80) := by simpa using ⟨ha', hb'⟩
        rw [if_pos ha', if_pos hb', if_neg hin]
        simp only [push, if_pos hroom, bind, Except.bind, pure, Except.pure]
      · have hout : a ≥ 0x80 ∨ b ≥ 0x80 := .inr (by simpa using hb')
        rw [if_pos ha', if_neg hb', if_pos hout]
        rfl
    · have hout : a ≥ 0x80 ∨ b ≥ 0x80 := .inl (by simpa using ha')
      rw [if_neg ha', if_pos hout]
      rfl

theorem decodeHexLoop_inplace (post : Bytes) : ∀ {t : Bytes} (key : Bytes), 0 ∉ t →
    Inplace.decodeHexLoop (t ++ 0 :: post) key = orTable (Ref.decodeHexLoop t key) := by
  intro t key
  induction t, key using Ref.decodeHexLoop.induct with
  | case1 a b rest key hfull =>
      intro hfree
      simp only [List.mem_cons, not_or] at hfree
      rw [List.cons_append, List.cons_append, decodeHexLoop_step (Ne.symm hfree.1)
        (Ne.symm hfree.2.1), Ref.decodeHexLoop, if_pos hfull, if_pos hfull]
      rfl
  | case2 a b rest key hroom hout =>
      intro hfree
      simp only [List.mem_cons, not_or] at hfree
      rw [List.cons_append, List.cons_append, decodeHexLoop_step (Ne.symm hfree.1)
        (Ne.symm hfree.2.1), Ref.decodeHexLoop, if_neg hroom, if_neg hroom, if_pos hout,
        if_pos hout]
      rfl
  | case3 a b rest key hroom hin hbad =>
      intro hfree
      simp only [List.mem_cons, not_or] at hfree
      rw [List.cons_append, List.cons_append, decodeHexLoop_step (Ne.symm hfree.1)
        (Ne.symm hfree.2.1), Ref.decodeHexLoop, if_neg hroom, if_neg hroom, if_neg hin, if_neg hin,
        if_pos hbad, if_pos hbad]
      rfl
  | case4 a b rest key hroom hin hgood ih =>
      intro hfree
      simp only [List.mem_cons, not_or] at hfree
      rw [List.cons_append, List.cons_append, decodeHexLoop_step (Ne.symm hfree.1)
        (Ne.symm hfree.2.1), Ref.decodeHexLoop, if_neg hroom, if_neg hroom, if_neg hin, if_neg hin,
        if_neg hgood, if_neg hgood]
      exact ih hfree.2.2
  | case5 a key =>
      intro hfree
      simp only [List.mem_singleton] at hfree
      rw [List.singleton_append, Inplace.decodeHexLoop, if_neg (Ne.symm hfree), if_pos rfl]
      rfl
  | case6 key =>
      intro _
      cases post <;> rfl

theorem decodeHex_inplace {mem : Bytes} {p : Nat} {t : Bytes} (h : StrAt mem p t) :
    Inplace.decodeHex mem p = orTable (Ref.decodeHex t) := by
  obtain ⟨hfree, post, hpost⟩ := h
  rw [Inplace.decodeHex, hpost]
  exact decodeHexLoop_inplace post [] hfree

section Line

variable {mem : Bytes} {lo hi : Nat} {es : List (Nat × Bytes)}

theorem parseProxy_agrees (h : Placed mem lo es) (hin : ∀ e ∈ es, e.1 + e.2.length ≤ hi) :
    Agrees hi (mem.drop hi) (Inplace.parseProxy mem (es.map Prod.fst))
      (Ref.parseProxy (es.map Prod.snd)) := by
  rw [Inplace.parseProxy, Ref.parseProxy, List.length_map, List.length_map]
  by_cases hlen : es.length ≠ 1 + 1
  · rw [if_pos hlen, if_pos hlen]
    exact ⟨mem, rfl, rfl⟩
  · rw [if_neg hlen, if_neg hlen]
    obtain ⟨keyword, addr, rfl⟩ := List.length_eq_two.mp (not_not.mp hlen)
    obtain ⟨-, -, -, haddr, -⟩ := h
    have hend := hin addr (by simp)
    have hhost := getHostPort_inplace haddr
    simp only [List.map_cons, List.map_nil, List.getD_cons_succ, List.getD_cons_zero]
    cases hr : Ref.getHostPort addr.2 with
    | none =>
        rw [hr] at hhost
        rw [hhost]
        rfl
    | some r =>
        rw [hr] at hhost
        obtain ⟨mem', r', hrun, hat, hdrop⟩ := hhost
        rw [hrun]
        match r, r', hat with
        | none, none, _ => exact ⟨mem', rfl, drop_eq_of_le hdrop hend⟩
        | some (host, port), some (p, _), ⟨hcstr, rfl⟩ =>
            refine ⟨mem', ?_, drop_eq_of_le hdrop hend⟩
            simp only [bind, Except.bind, hcstr]
            rfl

theorem parseServer_agrees (h : Placed mem lo es) (hin : ∀ e ∈ es, e.1 + e.2.length ≤ hi) :
    Agrees hi (mem.drop hi) (Inplace.parseServer mem (es.map Prod.fst))
      (Ref.parseServer (es.map Prod.snd)) := by
  rw [Inplace.parseServer, Ref.parseServer, List.length_map, List.length_map]
  by_cases hlen : es.length ≠ 3 + 1 ∧ es.length ≠ 2 + 1
  · rw [if_pos hlen, if_pos hlen]
    exact ⟨mem, rfl, rfl⟩
  · rw [if_neg hlen, if_neg hlen]
    obtain ⟨keyword, addr, weight, hex, rfl⟩ : ∃ e0 e1 e2 rest, es = e0 :: e1 :: e2 :: rest := by
      match es, hlen with
      | [], h => simp at h
      | [_], h => simp at h
      | [_, _], h => simp at h
      | e0 :: e1 :: e2 :: rest, _ => exact ⟨e0, e1, e2, rest, rfl⟩
    obtain ⟨-, -, -, haddr, hrest⟩ := h
    have hend := hin addr (by simp)
    have hhost := getHostPort_inplace haddr
    simp only [List.map_cons, List.getD_cons_succ, List.getD_cons_zero]
    cases hr : Ref.getHostPort addr.2 with
    | none =>
        rw [hr] at hhost
        rw [hhost]
        rfl
    | some r =>
        rw [hr] at hhost
        obtain ⟨mem', r', hrun, hat, hdrop⟩ := hhost
        have hafter := drop_eq_of_le hdrop hend
        rw [hrun]
        match r, r', hat with
        | none, none, _ => exact ⟨mem', rfl, hafter⟩
        | some (host, port), some (p, _), ⟨hcstr, rfl⟩ =>
            obtain ⟨-, hweight, hhex⟩ := hrest.of_drop (drop_eq_of_le hdrop (Nat.le_succ _))
            simp only [bind, Except.bind, hweight.cstr, hcstr]
            by_cases hbad : atoi weight.2 < 1 ∨ atoi weight.2 > 999999
            · rw [if_pos hbad, if_pos hbad]
              exact ⟨mem', rfl, hafter⟩
            · rw [if_neg hbad, if_neg hbad]
              by_cases hkey : (keyword :: addr :: weight :: hex).length = 3 + 1
              · rw [if_pos hkey, if_pos hkey]
                have hone : hex.length = 1 := by simpa using hkey
                obtain ⟨key, rfl⟩ := List.length_eq_one_iff.mp hone
                simp only [List.map_cons, List.getD_cons_zero, decodeHex_inplace hhex.2.1]
                cases Ref.decodeHex key.2 with
                | none => rfl
                | some r =>
                    cases r with
                    | none => exact ⟨mem', rfl, hafter⟩
                    | some key => exact ⟨mem', rfl, hafter⟩
              · rw [if_neg hkey, if_neg hkey]
                exact ⟨mem', rfl, hafter⟩

end Line

theorem parseLine_agrees {mem : Bytes} {p : Nat} {t : Bytes} (h : StrAt mem p t) :
    Agrees (p + t.length) (mem.drop (p + t.length)) (Inplace.parseLine mem p)
      (Ref.parseLine t) := by
  have hsplits : Splits _ _ _ (Inplace.splitLine (ascii " ,\t") (ascii "#") 32 mem p)
    (Ref.splitLine (ascii " ,\t") (ascii "#") 32 t) := splitLine_splits (by decide) h
  rw [Ref.parseLine, Inplace.parseLine]
  cases hargv : Ref.splitLine (ascii " ,\t") (ascii "#") 32 t with
  | none =>
      rw [hargv] at hsplits
      rw [show Inplace.splitLine (ascii " ,\t") (ascii "#") 32 mem p = _ from hsplits]
      rfl
  | some argv =>
      rw [hargv] at hsplits
      obtain ⟨mem', es, hrun, rfl, hplaced, hin, hdrop⟩ := hsplits
      rw [hrun, ← hdrop]
      cases es with
      | nil => exact ⟨mem', rfl, rfl⟩
      | cons keyword args =>
          have hword := hplaced.2.1.cstr
          have hproxy := parseProxy_agrees hplaced hin
          have hserver := parseServer_agrees hplaced hin
          simp only [List.map_cons, bind, Except.bind, hword] at hproxy hserver ⊢
          by_cases h1 : keyword.2 = ascii "proxy"
          · rw [if_pos h1, if_pos h1]
            exact hproxy
          · rw [if_neg h1, if_neg h1]
            by_cases h2 : keyword.2 = ascii "server"
            · rw [if_pos h2, if_pos h2]
              exact hserver
            · rw [if_neg h2, if_neg h2]
              exact ⟨mem', rfl, rfl⟩

/-! ## The whole text

The lines are handled one after another while those behind still stand in memory as
`split_line` has left them. -/

section Load

variable (env : ProxyEnv) (testing : Bool)

theorem loadLines_inplace : ∀ {es : List (Nat × Bytes)} {mem : Bytes} {lo : Nat} (n : Nat)
    (l : Loading), Placed mem lo es →
      Inplace.loadLines env testing (es.map Prod.fst) mem n l
        = orTable (Ref.loadLines env testing (es.map Prod.snd) n l) := by
  intro es
  induction es with
  | nil => intro mem lo n l _; rfl
  | cons e rest ih =>
      intro mem lo n l h
      obtain ⟨-, hstr, hrest⟩ := h
      have hline := parseLine_agrees hstr
      rw [List.map_cons, List.map_cons, Inplace.loadLines, Ref.loadLines]
      cases hp : Ref.parseLine e.2 with
      | none =>
          rw [hp] at hline
          rw [show Inplace.parseLine mem e.1 = _ from hline]
          rfl
      | some parsed =>
          rw [hp] at hline
          obtain ⟨mem', hrun, hdrop⟩ := hline
          have hrest' := hrest.of_drop (drop_eq_of_le hdrop (Nat.le_succ _))
          rw [hrun]
          cases parsed with
          | blank => exact ih (n + 1) l hrest'
          | error err => rfl
          | entry entry =>
              simp only [bind, Except.bind]
              cases loadEntry env testing l entry with
              | inl err => rfl
              | inr l' => exact ih (n + 1) l' hrest'

/-- What is done in place is what is done with strings, as long as `sep` is not left. -/
theorem loadConfigFromString_inplace (w : ProxyWorld) {text : Bytes} (h : 0 ∉ text) :
    Inplace.loadConfigFromString env testing w (text ++ [0])
      = orTable (Ref.loadConfigFromString env testing w text) := by
  have hstr : StrAt (text ++ [0]) 0 text := ⟨h, [], rfl⟩
  have hsplits : Splits _ _ _ (Inplace.splitLine (ascii "\n\r") [] maxConfigLines (text ++ [0]) 0)
    (Ref.splitLine (ascii "\n\r") [] maxConfigLines text) := splitLine_splits (by decide) hstr
  rw [Inplace.loadConfigFromString, Ref.loadConfigFromString]
  cases hlines : Ref.splitLine (ascii "\n\r") [] maxConfigLines text with
  | none =>
      rw [hlines] at hsplits
      rw [show Inplace.splitLine (ascii "\n\r") [] maxConfigLines (text ++ [0]) 0 = _ from hsplits]
      rfl
  | some lines =>
      rw [hlines] at hsplits
      obtain ⟨mem, es, hrun, rfl, hplaced, -, -⟩ := hsplits
      rw [hrun]
      simp only [bind, Except.bind]
      rw [loadLines_inplace env testing 0 { world := w } hplaced]
      cases Ref.loadLines env testing (es.map Prod.snd) 0 { world := w } with
      | none => rfl
      | some r => rfl

end Load

end Smalltable.Proofs
