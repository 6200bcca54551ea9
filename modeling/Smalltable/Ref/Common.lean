import Smalltable.Lib.Bytes

/-!
# Strings (`common.c` and the C library)
-/

namespace Smalltable.Ref

/-- The characters `translate` maps to themselves; it has `_` everywhere else. -/
def plainChars : Bytes :=
  ascii "#+,-0123456789;<=>@ABCDEFGHIJKLMNOPQRSTUVWXYZ[]^abcdefghijklmnopqrstuvwxyz{|}~"

/-- `tohextrans` -/
def toHexTrans (n : Nat) : UInt8 := (ascii "0123456789ABCDEF").getD n 0

/-- `char` is signed: from `0x80` on the index is negative, which compares as
larger than the table. -/
def keyEscapeByte (c : UInt8) : Bytes :=
  if plainChars.contains c then [c]
  else [0x25, toHexTrans (c.toNat / 16 % 16), toHexTrans (c.toNat % 16)]

/-- The loop stops at the end of the key or when five bytes of room are not
left. -/
def keyEscapeLoop (dstSz : Nat) : Bytes → Bytes → Bytes
  | [], out => out
  | c :: rest, out =>
      if out.length + 5 < dstSz then keyEscapeLoop dstSz rest (out ++ keyEscapeByte c) else out

def keyEscape (dstSz : Nat) (key : Bytes) : Bytes := keyEscapeLoop dstSz key []

/-- A C string as `strlen` sees it. -/
def cString (b : Bytes) : Bytes := b.takeWhile (· ≠ 0)

/-- `snprintf` into `size` bytes: what is stored, without the final zero. -/
def snprintf (size : Nat) (text : Bytes) : Bytes := text.take (size - 1)

/-- `%i` -/
def decimal (n : Int) : Bytes := ascii (toString n)

/-- The line of a server in a configuration: `server\t%s, %i, %s`. -/
def serverText (addr : Bytes) (weight : Int) (hex : Bytes) : Bytes :=
  ascii "server\t" ++ addr ++ ascii ", " ++ decimal weight ++ ascii ", " ++ hex

def isSpace (c : UInt8) : Bool := c = 0x20 ∨ 0x09 ≤ c ∧ c ≤ 0x0D

def isDigit (c : UInt8) : Bool := 0x30 ≤ c ∧ c ≤ 0x39

/-- As glibc does it, `strtol` with its result cut to an `int`: the value is held
within a `long` first. -/
def atoi (s : Bytes) : Int :=
  let s := s.dropWhile isSpace
  let neg := s.head? = some 0x2D
  let digits := (if neg ∨ s.head? = some 0x2B then s.drop 1 else s).takeWhile isDigit
  let n : Int := digits.foldl (fun n c => n * 10 + (c.toNat - 0x30)) 0
  let long := max (-2 ^ 63) (min (if neg then -n else n) (2 ^ 63 - 1))
  let r := long % 2 ^ 32
  if r < 2 ^ 31 then r else r - 2 ^ 32

/-! ## Hexadecimal keys -/

/-- `hex_to_int`; what is not a digit counts as zero there. -/
def hexToInt (c : UInt8) : Nat :=
  if 0x30 ≤ c ∧ c ≤ 0x39 then c.toNat - 0x30
  else if 0x41 ≤ c ∧ c ≤ 0x46 then c.toNat - 0x41 + 10
  else if 0x61 ≤ c ∧ c ≤ 0x66 then c.toNat - 0x61 + 10
  else 0

/-- The loop of `decode_hex` with the key so far. `some none` is the return
value -1. A `char` from `0x80` on is negative and outside the table. -/
def decodeHexLoop : Bytes → Bytes → Option (Option Bytes)
  | a :: b :: rest, key =>
      if key.length ≥ 256 then some none
      else if a ≥ 0x80 ∨ b ≥ 0x80 then none
      else if (hexToInt a = 0 ∧ a ≠ 0x30) ∨ (hexToInt b = 0 ∧ b ≠ 0x30) then some none
      else decodeHexLoop rest (key ++ [(hexToInt a * 16 + hexToInt b).toUInt8])
  | [_], _ => some none
  | [], key => some (some key)

def decodeHex (hex : Bytes) : Option (Option Bytes) := decodeHexLoop hex []

def encodeHex (key : Bytes) : Bytes :=
  (key.take 256).flatMap fun c => [toHexTrans (c.toNat / 16 % 16), toHexTrans (c.toNat % 16)]

/-! ## Escaped keys -/

/-- The loop of `key_unescape` with the key so far; the results are those of
`decodeHexLoop`. -/
def keyUnescapeLoop (keySz : Nat) : Bytes → Bytes → Option (Option Bytes)
  | [], key => some (some key)
  | 0x25 :: a :: b :: rest, key =>
      if a ≥ 0x80 ∨ b ≥ 0x80 then none
      else if (hexToInt a = 0 ∧ a ≠ 0x30) ∨ (hexToInt b = 0 ∧ b ≠ 0x30) then some none
      else if key.length + 1 = keySz then some none
      else keyUnescapeLoop keySz rest (key ++ [(hexToInt a * 16 + hexToInt b).toUInt8])
  | c :: rest, key =>
      if c = 0x25 then some none
      else if key.length + 1 = keySz then some none
      else keyUnescapeLoop keySz rest (key ++ [c])

def keyUnescape (keySz : Nat) (src : Bytes) : Option (Option Bytes) := keyUnescapeLoop keySz src []

end Smalltable.Ref
