import Smalltable.Proofs.Numbers
import Smalltable.Ref.StoFs

/-!
# The names of the files

A key becomes a name by escaping, which can be undone. A name that is longer than
the file system takes is cut, back to its last `%` and again until it is short
enough, or after 251 bytes when no `%` is left. All of this comes to one cut
(`shortName`). The two directories are chosen by the whole name.

A cut at a `%` is one between two escapes, so what is left of the name can still be
read. Names without a `%` have no escapes that a cut could divide.
-/

namespace Smalltable.Proofs

open Smalltable.Ref

/-! ## Escaping

A byte is kept or becomes a `%` and two digits, so a name can be read from the front
again. The loop that reads it stops when its room is full, also with the last byte. -/

theorem length_keyEscapeByte (c : UInt8) :
    1 ≤ (keyEscapeByte c).length ∧ (keyEscapeByte c).length ≤ 3 := by
  unfold keyEscapeByte
  split
  · exact ⟨Nat.le_refl 1, Nat.le_add_left 1 2⟩
  · exact ⟨Nat.le_add_left 1 2, Nat.le_refl 3⟩

theorem keyEscapeLoop_eq {dstSz : Nat} : ∀ (key out : Bytes),
    out.length + 3 * key.length + 2 < dstSz →
      keyEscapeLoop dstSz key out = out ++ key.flatMap keyEscapeByte := by
  intro key
  induction key with
  | nil => intro out _; exact (List.append_nil out).symm
  | cons c rest ih =>
      intro out h
      have hc := length_keyEscapeByte c
      rw [List.length_cons] at h
      rw [keyEscapeLoop, if_pos (by omega), ih _ (by rw [List.length_append]; omega),
        List.flatMap_cons, List.append_assoc]

/-- `key_to_filename` escapes the whole key. -/
theorem keyToFilename_name {key : Bytes} (h : key.length ≤ maxKeySize) :
    (keyToFilename key).1 = key.flatMap keyEscapeByte := by
  rw [maxKeySize_eq] at h
  refine keyEscapeLoop_eq key [] ?_
  rw [show maxFilename - 1 = 771 from rfl, List.length_nil]
  omega

/-- Names are made of these. -/
def nameChars : Bytes := plainChars ++ [percent]

theorem escaped_chars {key : Bytes} {c : UInt8} (h : c ∈ key.flatMap keyEscapeByte) :
    c ∈ nameChars := by
  obtain ⟨k, -, hc⟩ := List.mem_flatMap.mp h
  have hdigits : ascii "0123456789ABCDEF" ⊆ nameChars := by decide +kernel
  unfold keyEscapeByte at hc
  split at hc
  · next hplain =>
      rw [List.mem_singleton.mp hc]
      exact List.mem_append_left _ (by simpa using hplain)
  · simp only [List.mem_cons, List.not_mem_nil, or_false] at hc
    rcases hc with rfl | rfl | rfl
    · exact List.mem_append_right _ (List.mem_singleton.mpr rfl)
    · exact hdigits (toHexTrans_mem (by omega))
    · exact hdigits (toHexTrans_mem (by omega))

theorem nameChars_spec : ∀ c ∈ nameChars, c ≠ slash ∧ c ≠ 0x2E ∧ c ≠ 0 ∧ c.toNat < 0x80 := by
  decide

theorem filename_chars (key : Bytes) {c : UInt8} (hsz : key.length ≤ maxKeySize)
    (h : c ∈ (keyToFilename key).1) : c ∈ nameChars := by
  rw [keyToFilename_name hsz] at h
  exact escaped_chars h

/-- What a digit of an escape is read back as. -/
theorem toHexTrans_spec : ∀ n < 16, ¬ toHexTrans n ≥ 0x80 ∧ hexToInt (toHexTrans n) = n ∧
    ¬ (n = 0 ∧ toHexTrans n ≠ 0x30) := by
  decide +kernel

/-- The escape of a byte is read back, unless that fills the buffer. -/
theorem keyUnescapeLoop_byte (keySz : Nat) (c : UInt8) (s front : Bytes) :
    keyUnescapeLoop keySz (keyEscapeByte c ++ s) front =
      if front.length + 1 = keySz then some none else keyUnescapeLoop keySz s (front ++ [c]) := by
  rw [keyEscapeByte]
  by_cases hplain : plainChars.contains c
  · have hc : c ≠ 0x25 := by
      rintro rfl
      exact absurd hplain (by decide)
    rw [if_pos hplain, List.singleton_append,
      keyUnescapeLoop.eq_3 _ _ _ _ fun _ _ _ h => absurd h hc, if_neg hc]
  · obtain ⟨ha, hhi, hza⟩ := toHexTrans_spec (c.toNat / 16 % 16) (Nat.mod_lt _ (by decide))
    obtain ⟨hb, hlo, hzb⟩ := toHexTrans_spec (c.toNat % 16) (Nat.mod_lt _ (by decide))
    have hlt := UInt8.toNat_lt c
    have hc : c.toNat / 16 % 16 * 16 + c.toNat % 16 = c.toNat := by omega
    rw [if_neg hplain, List.cons_append, List.cons_append, List.cons_append, List.nil_append,
      keyUnescapeLoop, if_neg (not_or.mpr ⟨ha, hb⟩), hhi, hlo, if_neg (not_or.mpr ⟨hza, hzb⟩), hc]
    simp

/-- An escaped key is read back, and then what comes behind it. -/
theorem keyUnescapeLoop_escaped {keySz : Nat} (s : Bytes) : ∀ (key front : Bytes),
    front.length + key.length < keySz →
      keyUnescapeLoop keySz (key.flatMap keyEscapeByte ++ s) front
        = keyUnescapeLoop keySz s (front ++ key) := by
  intro key
  induction key with
  | nil =>
      intro front _
      rw [List.flatMap_nil, List.nil_append, List.append_nil]
  | cons c rest ih =>
      intro front h
      rw [List.length_cons] at h
      have hrest := ih (front ++ [c]) (by rw [List.length_append, List.length_singleton]; omega)
      rw [List.append_assoc, List.singleton_append] at hrest
      rw [List.flatMap_cons, List.append_assoc, keyUnescapeLoop_byte, if_neg (by omega), hrest]

/-- A key that leaves room in the buffer is read back from its name. -/
theorem keyUnescape_escaped {keySz : Nat} {key : Bytes} (h : key.length < keySz) :
    keyUnescape keySz (key.flatMap keyEscapeByte) = some (some key) := by
  have hroom : ([] : Bytes).length + key.length < keySz := by
    rw [List.length_nil]
    omega
  have hloop := keyUnescapeLoop_escaped [] key [] hroom
  rw [List.append_nil, List.nil_append] at hloop
  rw [keyUnescape, hloop, keyUnescapeLoop]

/-- A key that fills the buffer is not: the loop gives up at its last byte. -/
theorem keyUnescape_full {keySz : Nat} {key : Bytes} (h : key.length = keySz) (hne : key ≠ []) :
    keyUnescape keySz (key.flatMap keyEscapeByte) = some none := by
  obtain ⟨front, c, rfl⟩ := (List.eq_nil_or_concat key).resolve_left hne
  rw [List.length_concat] at h
  have hfront : ([] : Bytes).length + front.length < keySz := by
    rw [List.length_nil]
    omega
  have hloop := keyUnescapeLoop_escaped (keyEscapeByte c) front [] hfront
  have hlast := keyUnescapeLoop_byte keySz c [] front
  rw [List.append_nil, if_pos h] at hlast
  rw [keyUnescape, List.concat_eq_append, List.flatMap_append, List.flatMap_singleton, hloop,
      List.nil_append, hlast]

theorem escaped_inj {k k' : Bytes} (h : k.flatMap keyEscapeByte = k'.flatMap keyEscapeByte) :
    k = k' := by
  have hk := keyUnescape_escaped (show k.length < k.length + k'.length + 1 by omega)
  have hk' := keyUnescape_escaped (show k'.length < k.length + k'.length + 1 by omega)
  rw [h, hk', Option.some_inj, Option.some_inj] at hk
  exact hk.symm

/-! ## Cutting

The loop looks for the last `%` of what is left and cuts there. What is cut off in the
end is the same as with one cut at the last `%` within the room, or at 251 bytes. -/

theorem strrchr_none {s : Bytes} {c : UInt8} (h : c ∉ s) : strrchr s c = none := by
  have hnone : s.reverse.findIdx? (· = c) = none := by
    rw [List.findIdx?_eq_none_iff]
    intro x hx
    rw [decide_eq_false_iff_not]
    rintro rfl
    exact h (List.mem_reverse.mp hx)
  rw [strrchr, hnone]

theorem strrchr_append {front back : Bytes} {c : UInt8} (h : c ∉ back) :
    strrchr (front ++ c :: back) c = some front.length := by
  have hsome : (front ++ c :: back).reverse.findIdx? (· = c) = some back.length := by
    rw [List.reverse_append, List.reverse_cons, List.append_assoc, List.findIdx?_append,
      List.findIdx?_eq_none_iff.mpr, Option.none_or]
    · simp [List.findIdx?_cons]
    · intro x hx
      rw [decide_eq_false_iff_not]
      rintro rfl
      exact h (List.mem_reverse.mp hx)
  rw [strrchr, hsome]
  simp only [List.length_append, List.length_cons, Option.some.injEq]
  omega

theorem strrchr_lt {s : Bytes} {c : UInt8} {i : Nat} (h : strrchr s c = some i) :
    i < s.length := by
  by_cases hmem : c ∈ s
  · have hpos := List.length_pos_of_mem hmem
    unfold strrchr at h
    split at h
    · cases h
    · cases h
      omega
  · rw [strrchr_none hmem] at h
    cases h

/-- A string with a `c` in it, split at the last. -/
theorem split_last {s : Bytes} {c : UInt8} (h : c ∈ s) :
    ∃ front back, s = front ++ c :: back ∧ c ∉ back := by
  obtain ⟨as, bs, hsplit, hnot⟩ := List.eq_append_cons_of_mem (List.mem_reverse.mpr h)
  refine ⟨bs.reverse, as.reverse, ?_, fun hmem => hnot (List.mem_reverse.mp hmem)⟩
  have hrev := congrArg List.reverse hsplit
  simpa using hrev

/-- A name as it is used: cut before its last `%` that leaves it short enough. -/
def shortName (name : Bytes) : Bytes :=
  if name.length ≤ maxSystemFilename then name
  else
    match strrchr (name.take (maxSystemFilename + 1)) percent with
    | some c => name.take c
    | none => name.take maxSystemFilename

theorem shortName_of_le {name : Bytes} (h : name.length ≤ maxSystemFilename) :
    shortName name = name := if_pos h

theorem stripFilename_take : ∀ (n : Nat) (name : Bytes), name.length ≤ n →
    (stripFilename n name).take maxSystemFilename = shortName name := by
  intro n
  induction n with
  | zero =>
      intro name h
      rw [List.eq_nil_of_length_eq_zero (Nat.le_zero.mp h)]
      rfl
  | succ n ih =>
      intro name h
      rw [stripFilename, shortName]
      by_cases hshort : name.length ≤ maxSystemFilename
      · rw [if_neg (Nat.not_lt.mpr hshort), if_pos hshort, List.take_of_length_le hshort]
      · rw [if_pos (Nat.not_le.mp hshort), if_neg hshort]
        by_cases hmem : percent ∈ name
        · obtain ⟨front, back, rfl, hback⟩ := split_last hmem
          rw [List.length_append, List.length_cons] at h hshort
          rw [strrchr_append hback]
          simp only [List.take_left']
          rw [ih front (by omega)]
          by_cases hfront : front.length ≤ maxSystemFilename
          · have htake : (front ++ percent :: back).take (maxSystemFilename + 1)
                = front ++ percent :: back.take (maxSystemFilename - front.length) := by
              rw [List.take_append, List.take_of_length_le (by omega),
                show maxSystemFilename + 1 - front.length = maxSystemFilename - front.length + 1 by
                  omega, List.take_succ_cons]
            rw [shortName_of_le hfront, htake,
              strrchr_append fun hmem => hback (List.mem_of_mem_take hmem)]
            simp only [List.take_left']
          · -- the cut is made in what is left
            have htake : ∀ i ≤ maxSystemFilename + 1,
                (front ++ percent :: back).take i = front.take i := by
              intro i hi
              exact List.take_append_of_le_length (by omega)
            rw [shortName, if_neg hfront, htake _ (Nat.le_refl _),
              htake _ (Nat.le_succ _)]
            cases hcut : strrchr (front.take (maxSystemFilename + 1)) percent with
            | none => rfl
            | some c =>
                have hlt := strrchr_lt hcut
                rw [List.length_take] at hlt
                exact (htake c (by omega)).symm
        · rw [strrchr_none hmem, strrchr_none fun hmem' => hmem (List.mem_of_mem_take hmem')]

theorem length_shortName (name : Bytes) : (shortName name).length ≤ maxSystemFilename := by
  rw [← stripFilename_take name.length name (Nat.le_refl _), List.length_take]
  exact Nat.min_le_left _ _

theorem mem_shortName {name : Bytes} {c : UInt8} (h : c ∈ shortName name) : c ∈ name := by
  unfold shortName at h
  split at h
  · exact h
  · split at h
    · exact List.mem_of_mem_take h
    · exact List.mem_of_mem_take h

/-! ## Directories

The numbers are parts of a hash of the whole name and have three digits each. -/

/-- `%03i` of a hash. -/
theorem decimal3_eq {n : Nat} (h : n < 251) :
    decimal3 n = [0x30 + (n / 100).toUInt8, 0x30 + (n / 10 % 10).toUInt8,
        0x30 + (n % 10).toUInt8] := by
  rw [decimal3, decimal_step]
  by_cases h1 : n < 10
  · rw [if_pos h1, Nat.div_eq_of_lt (show n < 100 by omega), Nat.div_eq_of_lt h1,
      Nat.mod_eq_of_lt h1]
    rfl
  · rw [if_neg h1, decimal_step]
    by_cases h2 : n / 10 < 10
    · rw [if_pos h2, Nat.div_eq_of_lt (show n < 100 by omega), Nat.mod_eq_of_lt h2]
      rfl
    · rw [if_neg h2, decimal_step, if_pos (by omega), Nat.div_div_eq_div_mul]
      rfl

theorem length_decimal3 {n : Nat} (h : n < 251) : (decimal3 n).length = 3 := by
  rw [decimal3_eq h]
  rfl

theorem mem_decimal3 {n : Nat} (h : n < 251) {c : UInt8} (hc : c ∈ decimal3 n) :
    0x30 ≤ c.toNat ∧ c.toNat ≤ 0x39 := by
  rw [decimal3_eq h] at hc
  have h1 := digit_toNat (d := n / 100) (by omega)
  have h2 := digit_toNat (d := n / 10 % 10) (by omega)
  have h3 := digit_toNat (d := n % 10) (by omega)
  simp only [List.mem_cons, List.not_mem_nil, or_false] at hc
  rcases hc with rfl | rfl | rfl
  all_goals omega

theorem slash_not_mem_decimal3 {n : Nat} (h : n < 251) : slash ∉ decimal3 n := by
  intro hmem
  have hdigit := mem_decimal3 h hmem
  exact absurd hdigit.1 (by decide)

theorem decimal3_inj {m n : Nat} (hm : m < 251) (hn : n < 251) (h : decimal3 m = decimal3 n) :
    m = n := by
  rw [decimal3_eq hm, decimal3_eq hn] at h
  simp only [List.cons.injEq, and_true] at h
  obtain ⟨h1, h2, h3⟩ := h
  have e1 := congrArg UInt8.toNat h1
  have e2 := congrArg UInt8.toNat h2
  have e3 := congrArg UInt8.toNat h3
  rw [digit_toNat (by omega), digit_toNat (by omega)] at e1 e2 e3
  omega

/-- The two directories and the name, below the directory of the engine. -/
def placeOf (key : Bytes) : Bytes :=
  let r := keyToFilename key
  decimal3 r.2.1 ++ slash :: (decimal3 r.2.2 ++ slash :: shortName r.1)

theorem hash_lt (key : Bytes) :
    (keyToFilename key).2.1 < 251 ∧ (keyToFilename key).2.2 < 251 := by
  have h2 : (keyToFilename key).2.2 < 239 := Nat.mod_lt _ (by decide)
  exact ⟨Nat.mod_lt _ (by decide), by omega⟩

theorem keyToFullpath_eq (dir key : Bytes) :
    keyToFullpath dir key = (dir ++ slash :: placeOf key).take (maxFullpath - 1) := by
  have hname := stripFilename_take (keyToFilename key).1.length (keyToFilename key).1
    (Nat.le_refl _)
  simp only [keyToFullpath, snprintf, placeOf]
  rw [hname]
  simp only [List.append_assoc, List.cons_append, List.nil_append]

theorem length_placeOf (key : Bytes) :
    (placeOf key).length = 8 + (shortName (keyToFilename key).1).length := by
  obtain ⟨h1, h2⟩ := hash_lt key
  simp only [placeOf, List.length_append, List.length_cons, length_decimal3 h1, length_decimal3 h2]
  omega

/-- The path of a key, below a directory that is not too long. -/
theorem keyToFullpath_short {dir : Bytes} (hdir : dir.length < maxDirname) (key : Bytes) :
    keyToFullpath dir key = dir ++ slash :: placeOf key := by
  have hlen := length_placeOf key
  have hname := length_shortName (keyToFilename key).1
  rw [maxDirname] at hdir
  rw [maxSystemFilename] at hname
  rw [keyToFullpath_eq, List.take_of_length_le]
  rw [List.length_append, List.length_cons, maxFullpath_eq]
  omega

end Smalltable.Proofs
