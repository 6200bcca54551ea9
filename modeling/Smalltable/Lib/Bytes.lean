import Mathlib.Data.List.Basic
import Mathlib.Tactic.Ring

/-!
# Byte strings: fixed-width numbers and writes at an offset

Two small codecs and one memory operation, over plain lists of bytes. A
number of `w` bytes is written least significant byte first by `leBytes` and
most significant first by `beBytes`; `leVal` and `beVal` read them back. The
two directions are mirror images, so everything is proved for the little
endian pair and reversed.

`poke` is a write into a byte array of which only the written part is
remembered: past the end it first pads with zeros. Its two laws are the ones
a writer needs, that a write is read back and that it leaves what lies before
it alone.
-/

namespace Smalltable

/-- A byte string, as it lies in memory. -/
abbrev Bytes := List UInt8

/-- What holds of every byte of a string is decided byte by byte of the
string, not over all 256 bytes. -/
instance (s : Bytes) (p : UInt8 → Prop) [DecidablePred p] : Decidable (∀ c ∈ s, p c) :=
  List.decidableBAll p s

/-- The bytes of an ASCII string. -/
def ascii (s : String) : Bytes := s.toList.map fun c => c.toNat.toUInt8

/-- `n` bytes from offset `off`; short when the string ends first. -/
def slice (b : Bytes) (off n : Nat) : Bytes := (b.drop off).take n

/-- The number a little endian byte string spells. -/
def leVal : Bytes → Nat
  | [] => 0
  | x :: rest => x.toNat + 256 * leVal rest

/-- The low `w` bytes of a number, least significant first. -/
def leBytes : Nat → Nat → Bytes
  | 0, _ => []
  | w + 1, n => (n % 256).toUInt8 :: leBytes w (n / 256)

def beVal (b : Bytes) : Nat := leVal b.reverse

def beBytes (w n : Nat) : Bytes := (leBytes w n).reverse

@[simp] theorem length_leBytes (w n : Nat) : (leBytes w n).length = w := by
  induction w generalizing n with
  | zero => rfl
  | succ w ih => rw [leBytes, List.length_cons, ih]

@[simp] theorem length_beBytes (w n : Nat) : (beBytes w n).length = w := by
  rw [beBytes, List.length_reverse, length_leBytes]

theorem leVal_lt (b : Bytes) : leVal b < 256 ^ b.length := by
  induction b with
  | nil => exact Nat.one_pos
  | cons x rest ih =>
      have hx : x.toNat < 256 := x.toNat_lt
      rw [leVal, List.length_cons, Nat.pow_succ]
      omega

theorem beVal_lt (b : Bytes) : beVal b < 256 ^ b.length := by
  have h := leVal_lt b.reverse
  rwa [List.length_reverse] at h

theorem leVal_leBytes (w n : Nat) : leVal (leBytes w n) = n % 256 ^ w := by
  induction w generalizing n with
  | zero => rw [leBytes, leVal, Nat.pow_zero, Nat.mod_one]
  | succ w ih =>
      have hbyte : (n % 256).toUInt8.toNat = n % 256 := by
        simp only [UInt8.toNat_ofNat']
        omega
      rw [leBytes, leVal, ih, hbyte, Nat.pow_succ, Nat.mul_comm (256 ^ w) 256,
        Nat.mod_mul]

theorem leBytes_leVal (b : Bytes) : leBytes b.length (leVal b) = b := by
  induction b with
  | nil => rfl
  | cons x rest ih =>
      have hx : x.toNat < 256 := x.toNat_lt
      have hlow : (x.toNat + 256 * leVal rest) % 256 = x.toNat := by omega
      have hhigh : (x.toNat + 256 * leVal rest) / 256 = leVal rest := by omega
      rw [List.length_cons, leBytes, leVal, hlow, hhigh, ih]
      simp

theorem beVal_beBytes (w n : Nat) : beVal (beBytes w n) = n % 256 ^ w := by
  rw [beVal, beBytes, List.reverse_reverse, leVal_leBytes]

/-! A slice that starts inside a prefix, or right after it. -/

theorem slice_append_left {a b : Bytes} {off n : Nat} (h : off + n ≤ a.length) :
    slice (a ++ b) off n = slice a off n := by
  rw [slice, slice, List.drop_append_of_le_length (by omega),
    List.take_append_of_le_length (by rw [List.length_drop]; omega)]

theorem slice_append_right {a b : Bytes} {off n : Nat} (h : a.length ≤ off) :
    slice (a ++ b) off n = slice b (off - a.length) n := by
  rw [slice, slice, List.drop_append, List.drop_of_length_le h, List.nil_append]

theorem slice_all (b : Bytes) : slice b 0 b.length = b := by
  rw [slice, List.drop_zero, List.take_length]

theorem length_slice (b : Bytes) (off n : Nat) :
    (slice b off n).length = min n (b.length - off) := by
  rw [slice, List.length_take, List.length_drop]

/-! ## Writes at an offset -/

/-- Write `bs` at offset `off`, padding with zeros up to there. -/
def poke (m : Bytes) (off : Nat) (bs : Bytes) : Bytes :=
  m.take off ++ List.replicate (off - m.length) 0 ++ bs ++ m.drop (off + bs.length)

theorem poke_zero (m bs : Bytes) : poke m 0 bs = bs ++ m.drop bs.length := by
  simp [poke]

theorem take_poke_zero (m bs : Bytes) : (poke m 0 bs).take bs.length = bs := by
  rw [poke_zero, List.take_append_of_le_length (Nat.le_refl _), List.take_length]

/-- A write of `off` bytes at the front of a write at `off` leaves the second
one where it is. -/
theorem take_poke_zero_poke (m front : Bytes) {bs : Bytes} {n : Nat} (hn : n ≤ bs.length) :
    (poke (poke m front.length bs) 0 front).take (front.length + n)
      = front ++ bs.take n := by
  rw [poke_zero, List.take_append, List.take_of_length_le (by omega),
    Nat.add_sub_cancel_left]
  congr 1
  have hpad : (m.take front.length
      ++ List.replicate (front.length - m.length) (0 : UInt8)).length
        = front.length := by
    rw [List.length_append, List.length_take, List.length_replicate]
    omega
  rw [poke, List.append_assoc, List.drop_append_of_le_length (Nat.le_of_eq hpad.symm),
    List.drop_of_length_le (Nat.le_of_eq hpad), List.nil_append,
    List.take_append_of_le_length hn]

end Smalltable
