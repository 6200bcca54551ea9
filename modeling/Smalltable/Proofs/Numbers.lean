import Mathlib.Data.List.TakeWhile
import Smalltable.Ref.Common

/-!
# Numbers

What is printed with `%i` and what `atoi` makes of it, and the digits of hex.
-/

namespace Smalltable.Proofs

open Smalltable.Ref

/-! ## Decimal

`atoi` goes on as long as there are digits, so it reads a printed number back with
anything behind it that is not a digit. -/

/-- A number of digits only, small enough for an `int`. -/
theorem atoi_digits {s : Bytes} {n : Nat} (hs : ∀ c ∈ s, 0x30 ≤ c.toNat ∧ c.toNat ≤ 0x39)
    (hn : s.foldl (fun (n : Int) c => n * 10 + (c.toNat - 0x30)) 0 = n) (hsmall : n < 2 ^ 31) :
    atoi s = n := by
  have hspace : s.dropWhile isSpace = s := by
    cases s with
    | nil => rfl
    | cons c rest =>
        obtain ⟨hlo, hhi⟩ := hs c List.mem_cons_self
        refine List.dropWhile_cons_of_neg ?_
        simp only [isSpace, decide_eq_true_eq, UInt8.le_iff_toNat_le, ← UInt8.toNat_inj]
        rintro (h | h)
        · rw [h] at hlo
          exact absurd hlo (by decide)
        · exact absurd (Nat.le_trans hlo h.2) (by decide)
  have hsign : ∀ c : UInt8, c.toNat < 0x30 → s.head? ≠ some c := by
    intro c hc h
    have hlo := (hs c (List.mem_of_mem_head? h)).1
    omega
  have hdigits : s.takeWhile isDigit = s := by
    refine List.takeWhile_eq_self_iff.mpr fun c hc => ?_
    simp only [isDigit, decide_eq_true_eq, UInt8.le_iff_toNat_le]
    exact hs c hc
  simp only [atoi, hspace, hsign 0x2D (by decide), hsign 0x2B (by decide), or_self, if_false,
    hdigits, hn]
  omega

theorem decimal_eq (n : Nat) :
    decimal (n : Int) = (Nat.toDigits 10 n).map fun c => c.toNat.toUInt8 := by
  have hstr : (toString (n : Int)).toList = Nat.toDigits 10 n := by
    rw [show toString (n : Int) = n.repr from rfl, Nat.toList_repr]
  rw [decimal, ascii, hstr]

theorem toDigits_toNat {n : Nat} {c : Char} (h : c ∈ Nat.toDigits 10 n) :
    0x30 ≤ c.toNat ∧ c.toNat ≤ 0x39 := by
  have hdigit := Nat.isDigit_of_mem_toDigits (by decide) (by decide) h
  rw [Char.isDigit_iff_toNat] at hdigit
  exact hdigit

theorem mem_decimal {n : Nat} {c : UInt8} (h : c ∈ decimal (n : Int)) :
    0x30 ≤ c.toNat ∧ c.toNat ≤ 0x39 := by
  rw [decimal_eq] at h
  obtain ⟨d, hd, rfl⟩ := List.mem_map.mp h
  have hrange := toDigits_toNat hd
  simp only [UInt8.toNat_ofNat']
  omega

theorem decimal_ne_nil (n : Nat) : decimal (n : Int) ≠ [] := by
  rw [decimal_eq]
  exact fun h => Nat.toDigits_ne_nil (List.map_eq_nil_iff.mp h)

theorem digitChar_byte {d : Nat} (h : d < 10) :
    d.digitChar.toNat.toUInt8 = 0x30 + d.toUInt8 := by
  have hall : ∀ d < 10, d.digitChar.toNat.toUInt8 = 0x30 + d.toUInt8 := by decide
  exact hall d h

theorem digit_toNat {d : Nat} (h : d < 10) : ((0x30 : UInt8) + d.toUInt8).toNat = 0x30 + d := by
  have hall : ∀ d < 10, ((0x30 : UInt8) + d.toUInt8).toNat = 0x30 + d := by decide
  exact hall d h

/-- The last digit, and the number in front of it. -/
theorem decimal_step (n : Nat) : decimal (n : Int) =
    if n < 10 then [0x30 + n.toUInt8] else decimal (n / 10 : Nat) ++ [0x30 + (n % 10).toUInt8] := by
  rw [decimal_eq, Nat.toDigits_eq_if (by decide), decimal_eq]
  split
  · next h => rw [List.map_singleton, digitChar_byte h]
  · rw [List.map_append, List.map_singleton, digitChar_byte (Nat.mod_lt n (by omega))]

/-- The digits make up the number again. -/
theorem foldl_decimal (n : Nat) :
    (decimal (n : Int)).foldl (fun (n : Int) c => n * 10 + (c.toNat - 0x30)) 0 = n := by
  have hfold : ∀ (l : List Char) (init : Nat), (∀ c ∈ l, 0x30 ≤ c.toNat ∧ c.toNat ≤ 0x39) →
      (l.map fun c => c.toNat.toUInt8).foldl (fun (n : Int) c => n * 10 + (c.toNat - 0x30)) init
        = Nat.ofDigitChars 10 l init := by
    intro l
    induction l with
    | nil => intro init _; rfl
    | cons c rest ih =>
        intro init hl
        obtain ⟨hlo, hhi⟩ := hl c List.mem_cons_self
        have hbyte : c.toNat.toUInt8.toNat = c.toNat := by
          simp only [UInt8.toNat_ofNat']
          omega
        have hstep : (init : Int) * 10 + (c.toNat - 0x30)
            = ((10 * init + (c.toNat - '0'.toNat) : Nat) : Int) := by
          have hzero : '0'.toNat = 0x30 := rfl
          omega
        rw [List.map_cons, List.foldl_cons, hbyte, Nat.ofDigitChars_cons, hstep]
        exact ih _ fun d hd => hl d (List.mem_cons_of_mem _ hd)
  rw [decimal_eq]
  exact (hfold _ 0 fun c hc => toDigits_toNat hc).trans (by rw [Nat.ofDigitChars_ten_toDigits])

/-- A number is read as it was printed. -/
theorem atoi_decimal {n : Nat} (h : n < 2 ^ 31) : atoi (decimal (n : Int)) = n :=
  atoi_digits (fun _ hc => mem_decimal hc) (foldl_decimal n) h

/-- What stands behind a number is not read, unless the number is blank. -/
theorem atoi_append {s : Bytes} {c : UInt8} (hdigit : isDigit c = false)
    (h : s.dropWhile isSpace ≠ [] ∨ isSpace c = false ∧ c ≠ 0x2D ∧ c ≠ 0x2B) (t : Bytes) :
    atoi (s ++ c :: t) = atoi s := by
  have hspace : (s ++ c :: t).dropWhile isSpace = s.dropWhile isSpace ++ c :: t := by
    rw [List.dropWhile_append]
    split
    · next hblank =>
        have hnil := List.isEmpty_iff.mp hblank
        rcases h with h | h
        · exact absurd hnil h
        · rw [hnil, List.dropWhile_cons_of_neg (by simp [h.1]), List.nil_append]
    · rfl
  have hdigits : ∀ d : Bytes, (d ++ c :: t).takeWhile isDigit = d.takeWhile isDigit := by
    intro d
    induction d with
    | nil => exact List.takeWhile_cons_of_neg (by simp [hdigit])
    | cons b d ih => rw [List.cons_append, List.takeWhile_cons, List.takeWhile_cons, ih]
  simp only [atoi, hspace]
  cases hs : s.dropWhile isSpace with
  | nil =>
      rw [hs] at h
      have hc : c ≠ 0x2D ∧ c ≠ 0x2B := (h.resolve_left (fun hne => hne rfl)).2
      simp [hc.1, hc.2, hdigit]
  | cons b d =>
      have hsign : (if some b = some 0x2D ∨ some b = some 0x2B then d ++ c :: t
          else b :: (d ++ c :: t)) = (if some b = some 0x2D ∨ some b = some 0x2B then d
          else b :: d) ++ c :: t := by
        split <;> rfl
      simp only [List.cons_append, List.head?_cons, List.drop_one, List.tail_cons, hsign, hdigits]

/-- A number that is not zero is not blank. -/
theorem not_blank_of_atoi {s : Bytes} (h : atoi s ≠ 0) : s.dropWhile isSpace ≠ [] := by
  intro hnil
  refine h ?_
  simp only [atoi, hnil]
  decide

/-! ## Hex digits -/

theorem toHexTrans_mem {n : Nat} (h : n < 16) : toHexTrans n ∈ ascii "0123456789ABCDEF" := by
  have hlen : (ascii "0123456789ABCDEF").length = 16 := by decide
  rw [toHexTrans, List.getD_eq_getElem?_getD, List.getElem?_eq_getElem (by omega)]
  exact List.getElem_mem _

end Smalltable.Proofs
