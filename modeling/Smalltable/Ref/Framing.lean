import Smalltable.Lib.Frames
import Smalltable.Ref.Constants

/-!
# The wire format (`framing.c`)

A frame is a header of 24 bytes in network byte order followed by extras, key
and value. `reqbuf_get_sane_request_sz` decides whether the head of a buffer
is a frame, a part of one, or broken; everything after it trusts the lengths
it has checked.

`ST_REQ` is modelled by the slices its pointers point at. `ST_RES` keeps its
pointers, as offsets from `res->buf`, because `pack_response` compares them;
`mem` is what has been written from `res->buf` on. A branch that ends in
`fatal` or reads through `NULL` is `none`.
-/

namespace Smalltable.Ref

/-- The C conversion of an unsigned 32-bit value to `int`. -/
def asInt (n : Nat) : Int :=
  if n % 2 ^ 32 < 2 ^ 31 then (n % 2 ^ 32 : Nat) else (n % 2 ^ 32 : Nat) - 2 ^ 32

theorem asInt_of_lt {n : Nat} (h : n < 2 ^ 31) : asInt n = n := by
  have hmod : n % 2 ^ 32 = n := Nat.mod_eq_of_lt (by omega)
  rw [asInt, hmod, if_pos h]

/-! ## Header fields -/

def mcGetMagic (buf : Bytes) : UInt8 := buf.getD 0 0
def mcGetOpcode (buf : Bytes) : UInt8 := buf.getD 1 0
def mcGetKeyLength (buf : Bytes) : Nat := beVal (slice buf 2 2)
def mcGetExtrasLength (buf : Bytes) : Nat := (buf.getD 4 0).toNat
def mcGetStatus (buf : Bytes) : Nat := beVal (slice buf 6 2)
def mcGetReserved (buf : Bytes) : Nat := mcGetStatus buf
def mcGetBodyLength (buf : Bytes) : Nat := beVal (slice buf 8 4)
def mcGetOpaque (buf : Bytes) : Nat := beVal (slice buf 12 4)
def mcGetCas (buf : Bytes) : Nat := beVal (slice buf 16 8)

/-- `MC_GET_REQUEST_SZ`, as the `int` it is assigned to. -/
def mcGetRequestSz (buf : Bytes) : Int := asInt (memcacheHeaderSize + mcGetBodyLength buf)

/-- `REQBUF_GET_KEY` -/
def reqbufGetKey (buf : Bytes) : Bytes :=
  slice buf (memcacheHeaderSize + mcGetExtrasLength buf) (mcGetKeyLength buf)

/-- `-1` broken, `0` need more data, otherwise the size of a proper request. -/
def reqbufGetSaneRequestSz (buf : Bytes) (properMagic : UInt8) : Int :=
  if buf.length < memcacheHeaderSize then 0
  else
    let requestSz := asInt (mcGetBodyLength buf + memcacheHeaderSize)
    if (buf.length : Int) < requestSz then 0
    -- received enough data. now sanity.
    else if properMagic ≠ mcGetMagic buf then -1
    else
      let extrasLength := mcGetExtrasLength buf
      let keyLength := mcGetKeyLength buf
      let bodyLength := mcGetBodyLength buf
      if bodyLength < extrasLength + keyLength then -1
      else
        let valueLength := bodyLength - extrasLength - keyLength
        if valueLength > maxValueSize then -1
        else if keyLength > maxKeySize then -1
        else requestSz

/-! ## Requests and responses -/

structure StReq where
  opcode : UInt8
  status : Nat
  opaqueId : Nat
  cas : Nat
  extras : Bytes
  key : Bytes
  value : Bytes
  deriving DecidableEq

def unpackRequest (buf : Bytes) : StReq :=
  let extrasLength := mcGetExtrasLength buf
  let keyLength := mcGetKeyLength buf
  let bodyLength := mcGetBodyLength buf
  let valueSz := (bodyLength + 2 ^ 33 - extrasLength - keyLength) % 2 ^ 32
  { opcode := mcGetOpcode buf
    status := mcGetStatus buf
    opaqueId := mcGetOpaque buf
    cas := mcGetCas buf
    extras := slice buf memcacheHeaderSize extrasLength
    key := slice buf (memcacheHeaderSize + extrasLength) keyLength
    value := slice buf (memcacheHeaderSize + extrasLength + keyLength) valueSz }

structure StRes where
  opcode : UInt8
  opaqueId : Nat
  status : Nat := 0
  cas : Nat := 0
  /-- Pointers are offsets from `res->buf`; `none` is `NULL`. -/
  extras : Option Nat := none
  extrasSz : Nat := 0
  key : Option Nat := none
  keySz : Nat := 0
  value : Option Nat := none
  valueSz : Nat := 0
  bufSz : Int
  mem : Bytes := []

/-- The response `prepare_res` and both `process_single` start from. -/
def prepareRes (resBufSz : Int) (request : Bytes) : StRes :=
  let req := unpackRequest request
  { opcode := req.opcode
    opaqueId := req.opaqueId
    bufSz := resBufSz - memcacheHeaderSize }

/-- The first `n` bytes of a written region, unwritten ones as zero. -/
def peek (mem : Bytes) (n : Nat) : Bytes :=
  mem.take n ++ List.replicate (n - mem.length) 0

def packHeader (res : StRes) (bodyLength : Nat) : Bytes :=
  [0x81, res.opcode] ++ beBytes 2 res.keySz ++ [res.extrasSz.toUInt8, 0x00] ++
    beBytes 2 res.status ++ beBytes 4 bodyLength ++ beBytes 4 res.opaqueId ++
    beBytes 8 res.cas

def packResponse (bufSz : Int) (res : StRes) : Option Bytes :=
  let bodyLength := asInt (res.extrasSz + res.keySz + res.valueSz)
  if bufSz < memcacheHeaderSize + bodyLength then none
  else if res.extrasSz ≠ 0 ∧ res.extras ≠ some 0 then none
  else if res.keySz ≠ 0 ∧ res.key ≠ some res.extrasSz then none
  else if res.valueSz ≠ 0 ∧ res.value ≠ some (res.extrasSz + res.keySz) then none
  else some (packHeader res (bodyLength % 2 ^ 32).toNat ++ peek res.mem bodyLength.toNat)

/-- The designated initialisers of `error_codes`; the holes are `NULL`. -/
def errorCodes : Nat → Option Bytes
  | 0x01 => some (ascii "Key not found")
  | 0x02 => some (ascii "Key exists")
  | 0x03 => some (ascii "Value too big")
  | 0x04 => some (ascii "Invalid arguments")
  | 0x05 => some (ascii "Item not stored")
  | 0x81 => some (ascii "Unknown command")
  | _ => none

/-- `NELEM(error_codes)`: the array ends with `MEMCACHE_STATUS_UNKNOWN_COMMAND`. -/
def nelemErrorCodes : Nat := 0x82

def errorStr (status : Nat) (errStr : Option Bytes) : Option Bytes :=
  match errStr with
  | some s => some s
  | none => if status < nelemErrorCodes then errorCodes status
      else some (ascii "Unknown error code")

/-- `none` when the message is a hole of the table, whose `strlen` is taken. -/
def setErrorCode (res : StRes) (status : Nat) (errStr : Option Bytes) : Option StRes :=
  let status := status % 256
  match errorStr status errStr with
  | none => none
  | some str =>
      -- MIN compares a size_t with an int: a negative buf_sz counts as huge
      let valueSz := if res.bufSz < 0 then str.length else min str.length res.bufSz.toNat
      some { res with
        extrasSz := 0
        keySz := 0
        cas := 0
        status := status
        value := some 0
        valueSz := valueSz
        mem := poke res.mem 0 (str.take valueSz) }

def errorFromReqbuf (request : Bytes) (resBufSz : Int) (status : Nat)
    (errStr : Option Bytes) : Option Bytes :=
  match setErrorCode (prepareRes resBufSz request) status errStr with
  | none => none
  | some res => packResponse resBufSz res

/-- The loops over a batch of requests step from header to header by
`MC_GET_REQUEST_SZ` and stop when the pointer equals the end. A size that does
not fit takes the pointer past the end, which is `none`. -/
def forRequests {σ : Type} (reqBuf : Bytes) (s : σ)
    (body : σ → Bytes → Option (ForInStep σ)) : Option σ :=
  walk mcGetRequestSz body reqBuf.length s reqBuf

end Smalltable.Ref
