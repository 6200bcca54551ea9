import Smalltable.Lib.Pages
import Smalltable.Ref.Framing

/-!
# The Python client's side of the wire (`simpleclient.py`)

The client packs and unpacks its frames with `struct`, format `!BBHBBHIIQ`: big
endian numbers without padding. A number that does not fit its width raises,
and so does a buffer that is too short; both are `none`. A slice of a string
has no such bounds.
-/

namespace Smalltable.Ref.SimpleClient

/-- `struct.pack` with `!`, of numbers with their widths. -/
def structPack : List (Nat × Nat) → Option Bytes
  | [] => some []
  | (width, n) :: rest =>
      if n < 256 ^ width then (structPack rest).map (beBytes width n ++ ·) else none

/-- `struct.unpack_from` at the beginning of a buffer. -/
def structUnpack : List Nat → Bytes → Option (List Nat)
  | [], _ => some []
  | width :: rest, buf =>
      if buf.length < width then none
      else (structUnpack rest (buf.drop width)).map (beVal (buf.take width) :: ·)

/-- `BBHBBHIIQ` -/
def headerFormat : List Nat := [1, 1, 2, 1, 1, 2, 4, 4, 8]

/-- `buf[i:j]` -/
def pySlice (buf : Bytes) (i j : Nat) : Bytes := (buf.take j).drop i

/-- `_pack` -/
def pack (opcode : Nat) (key extras value : Bytes) (opaqueId cas reserved : Nat) :
    Option Bytes :=
  let keylen := key.length
  let extraslen := extras.length
  (structPack [(1, 0x80), (1, opcode), (2, keylen), (1, extraslen), (1, 0x00), (2, reserved),
    (4, extraslen + keylen + value.length), (4, opaqueId), (8, cas)]).map
      (· ++ extras ++ key ++ value)

/-- The tuple `_unpack` returns. -/
structure Unpacked where
  opcode : Nat
  status : Nat
  opaqueId : Nat
  cas : Nat
  extras : Bytes
  key : Bytes
  value : Bytes
  deriving DecidableEq

/-- `_unpack` -/
def unpack (buf : Bytes) : Option Unpacked :=
  match structUnpack headerFormat buf with
  | some [_, opcode, keyLength, extrasLength, _, status, totalBodyLength, opaqueId, cas] =>
      let valueLength : Int := totalBodyLength - keyLength - extrasLength
      some {
        opcode := opcode
        status := status
        opaqueId := opaqueId
        cas := cas
        extras := if extrasLength ≠ 0 then pySlice buf 24 (24 + extrasLength) else []
        key := if keyLength ≠ 0 then
            pySlice buf (24 + extrasLength) (24 + extrasLength + keyLength)
          else []
        value := if valueLength ≠ 0 then
            pySlice buf (24 + extrasLength + keyLength) (24 + totalBodyLength)
          else [] }
  | _ => none

/-! ## Listing keys -/

/-- The loop of `_get_keys` over what is left of the value, with the number of
rounds left. `@QB` are nine bytes in the order of the host, little endian on x86. -/
def parseKeys : Nat → Bytes → Option (List (Nat × Bytes))
  | 0, _ => some []
  | n + 1, v =>
      if v.length = 0 then some []
      else if v.length < 9 then none
      else
        let keySz := (v.getD 8 0).toNat
        (parseKeys n (v.drop (9 + keySz))).map ((leVal (v.take 8), pySlice v 9 (9 + keySz)) :: ·)

/-- `_get_keys`, with what the server answers to a key. -/
def getKeysPage (answer : Bytes → Bytes) (key : Bytes) : Option (List (Nat × Bytes)) :=
  parseKeys (answer key).length (answer key)

/-- `get_keys`, for so many rounds at most. -/
def getKeys (answer : Bytes → Bytes) (rounds : Nat) : Option (List (Nat × Bytes)) :=
  (collectPages (getKeysPage answer) Prod.snd rounds []).map List.flatten

end Smalltable.Ref.SimpleClient
