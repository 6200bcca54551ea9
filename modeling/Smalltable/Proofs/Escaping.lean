import Smalltable.Proofs.KeyNames

/-!
# Escaped keys can be read back

The name that `key_to_filename` makes of a key has all of the key in it, and nothing
that means something to the file system or to the hash directories. What the key is can
be seen from it. The listing reads it back into a buffer of `MAX_KEY_SIZE` bytes, and
`key_unescape` gives up when that is full: a key that is as long as keys may be is
listed as broken.

Names may be cut before they become names of files. That is another matter (`KeyNames`);
here it is about the whole name of a key and what is read back from it.
-/

namespace Smalltable.Proofs

open Smalltable.Ref

def IsHexDigit (c : UInt8) : Prop := c ∈ ascii "0123456789ABCDEF"

theorem percent_not_hex : ¬ IsHexDigit percent := by
  rw [IsHexDigit]
  decide

theorem underscore_not_name : (0x5F : UInt8) ∉ nameChars := by decide

/-- A `%` in the escape of a byte is the first of three characters. -/
theorem keyEscapeByte_percent {c : UInt8} {front back : Bytes}
    (h : keyEscapeByte c = front ++ percent :: back) :
    ∃ a b, back = [a, b] ∧ IsHexDigit a ∧ IsHexDigit b := by
  rw [keyEscapeByte] at h
  by_cases hplain : plainChars.contains c
  · rw [if_pos hplain] at h
    have hmem : percent ∈ [c] := by
      rw [h]
      exact List.mem_append_right _ List.mem_cons_self
    rw [← List.mem_singleton.mp hmem] at hplain
    exact absurd hplain (by decide)
  · rw [if_neg hplain] at h
    have hhi : IsHexDigit (toHexTrans (c.toNat / 16 % 16)) := toHexTrans_mem (by omega)
    have hlo : IsHexDigit (toHexTrans (c.toNat % 16)) := toHexTrans_mem (by omega)
    cases front with
    | nil => exact ⟨_, _, (List.cons.inj h).2.symm, hhi, hlo⟩
    | cons d front =>
        have htail := (List.cons.inj h).2
        have hmem : percent ∈ [toHexTrans (c.toNat / 16 % 16), toHexTrans (c.toNat % 16)] := by
          rw [htail]
          exact List.mem_append_right _ List.mem_cons_self
        simp only [List.mem_cons, List.not_mem_nil, or_false] at hmem
        rcases hmem with hmem | hmem
        · rw [← hmem] at hhi
          exact absurd hhi percent_not_hex
        · rw [← hmem] at hlo
          exact absurd hlo percent_not_hex

theorem escaped_percent {key front back : Bytes}
    (h : key.flatMap keyEscapeByte = front ++ percent :: back) :
    ∃ a b rest, back = a :: b :: rest ∧ IsHexDigit a ∧ IsHexDigit b := by
  induction key generalizing front with
  | nil => simp at h
  | cons c key ih =>
      rw [List.flatMap_cons] at h
      rcases List.append_eq_append_iff.mp h with ⟨front', -, h2⟩ | ⟨mid, h1, h2⟩
      · exact ih h2
      · cases mid with
        | nil =>
            have h2 : key.flatMap keyEscapeByte = [] ++ percent :: back := h2.symm
            exact ih h2
        | cons d mid =>
            obtain ⟨rfl, rfl⟩ := List.cons.inj h2
            obtain ⟨a, b, rfl, ha, hb⟩ := keyEscapeByte_percent h1
            exact ⟨a, b, _, rfl, ha, hb⟩

/-- `key_escape` as `key_to_filename` calls it. -/
def escapedKey (key : Bytes) : Bytes := keyEscape (maxFilename - 1) key

/-- What the escape of a key is made for. -/
structure EscapeInvertible (key : Bytes) : Prop where
  /-- nothing is cut -/
  whole : escapedKey key = key.flatMap keyEscapeByte
  chars : ∀ c ∈ escapedKey key, c ≠ slash ∧ c ≠ 0x2E ∧ c ≠ 0x5F ∧ c ≠ 0
  percents : ∀ front back, escapedKey key = front ++ percent :: back →
    ∃ a b rest, back = a :: b :: rest ∧ IsHexDigit a ∧ IsHexDigit b
  readBack : keyUnescape maxKeySize (escapedKey key) = some (some key)
  distinct : ∀ key', key'.length ≤ maxKeySize → escapedKey key' = escapedKey key → key' = key

theorem escapedKey_whole {key : Bytes} (h : key.length ≤ maxKeySize) :
    escapedKey key = key.flatMap keyEscapeByte := keyToFilename_name h

theorem not_escapeInvertible {key : Bytes} (h : key.length = maxKeySize) :
    ¬ EscapeInvertible key := by
  intro hinv
  have hne : key ≠ [] := by
    rintro rfl
    exact absurd h (by decide)
  have hread := hinv.readBack
  rw [escapedKey_whole (Nat.le_of_eq h), keyUnescape_full h hne] at hread
  cases hread

/-- A key is read back exactly when it leaves room for one byte more. -/
theorem escapeInvertible_iff {key : Bytes} (h : key.length ≤ maxKeySize) :
    EscapeInvertible key ↔ key.length < maxKeySize := by
  have hwhole := escapedKey_whole h
  constructor
  · intro hinv
    exact Nat.lt_of_le_of_ne h fun hfull => not_escapeInvertible hfull hinv
  · intro hlt
    refine ⟨hwhole, fun c hc => ?_, fun front back hback => ?_, ?_, fun key' hkey' heq => ?_⟩
    · rw [hwhole] at hc
      have hname := escaped_chars hc
      obtain ⟨hslash, hdot, hzero, -⟩ := nameChars_spec c hname
      refine ⟨hslash, hdot, ?_, hzero⟩
      rintro rfl
      exact underscore_not_name hname
    · rw [hwhole] at hback
      exact escaped_percent hback
    · rw [hwhole]
      exact keyUnescape_escaped hlt
    · rw [hwhole, escapedKey_whole hkey'] at heq
      exact escaped_inj heq

theorem escapeInvertible_iff_short : EscapeInvertible (ascii "a/b") ↔
    (ascii "a/b").length < maxKeySize :=
  escapeInvertible_iff (by decide)

/-- The longest key. -/
theorem escapeInvertible_longest : (List.replicate 256 (0x61 : UInt8)).length ≤ maxKeySize ∧
    ¬ EscapeInvertible (List.replicate 256 0x61) := by
  have hlen : (List.replicate 256 (0x61 : UInt8)).length = maxKeySize := List.length_replicate
  exact ⟨Nat.le_of_eq hlen, not_escapeInvertible hlen⟩

end Smalltable.Proofs
