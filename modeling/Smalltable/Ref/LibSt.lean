import Smalltable.Ref.Framing
import Smalltable.Ref.Process
import Smalltable.Ref.Storage

/-!
# The library that plugins are linked with (`libst/smalltable.c`)

A plugin is a program of the sandbox, and this is what it is programmed against. Its
requests and responses are those of the server, `ST_REQ` and `ST_RES`; `unpack_request`
and `pack_response` are the same functions. The store is behind system calls: here
they are what the guest sees of them, for buffers of its own.

The program keeps its data between requests, so a handler is a function on it. A
handler that brings the program down has no response; what it did before stays done.
-/

namespace Smalltable.Ref.LibSt

/-- `READ_REQUESTS_BUF_SZ` -/
def readRequestsBufSz : Nat := maxRequestSize * 2

/-- `WRITE_RESPONSES_BUF_SZ` -/
def writeResponsesBufSz : Nat := maxRequestSize + sizeofMcMetadata

def memcacheCmdIncr : UInt8 := 0x05
def memcacheCmdDecr : UInt8 := 0x06

def memcacheStatusItemNonNumeric : Nat := 0x0006

/-- `ntohll` and `htonll` swap the bytes of a 64-bit value. -/
def ntohll (x : Nat) : Nat := beVal (leBytes 8 x)

def htonll (x : Nat) : Nat := ntohll x

theorem ntohll_leVal {b : Bytes} (h : b.length = 8) : ntohll (leVal b) = beVal b := by
  have hb := leBytes_leVal b
  rw [h] at hb
  rw [ntohll, hb]

theorem leBytes_htonll (x : Nat) : leBytes 8 (htonll x) = beBytes 8 x := by
  have h := leBytes_leVal (leBytes 8 x).reverse
  rw [List.length_reverse, length_leBytes] at h
  rw [htonll, ntohll, beVal, h, beBytes]

/-! ## Errors -/

/-- `error_codes` has the entries of the server's table, and its holes. -/
def errorStr (status : Nat) : Option Bytes :=
  if status < nelemErrorCodes then errorCodes status else some (ascii "Unknown error code")

/-- `none` where `strlen` is handed a hole of the table. -/
def setErrorCode (res : StRes) (status : Nat) : Option StRes :=
  match errorStr status with
  | none => none
  | some str =>
      let valueSz := if res.bufSz < 0 then str.length else min str.length res.bufSz.toNat
      some { res with
        extrasSz := 0
        keySz := 0
        cas := 0
        status := status
        value := some 0
        valueSz := valueSz
        mem := poke res.mem 0 (str.take valueSz) }

/-! ## The store -/

section Store

variable {σ : Type} (api : StStorageApi σ)

/-- What is written at `dst`, or nothing for a negative return. -/
def syscallStGet (s : σ) (dstSz : Int) (key : Bytes) : Option Bytes :=
  if dstSz < 0 then none else api.get s dstSz key

def syscallStSet (s : σ) (value key : Bytes) : σ × Int :=
  if key.length = 0 then (s, minusEinval) else api.set s value key

/-- What is written at `value`, and the return value with the metadata, unless it
is -1. -/
def storageGet (s : σ) (valueSz : Int) (key : Bytes) : Bytes × Option (Nat × McMetadata) :=
  match syscallStGet api s valueSz key with
  | none => ([], none)
  | some item =>
      if item.length < sizeofMcMetadata then (item, none)
      else
        let ret := item.length - sizeofMcMetadata
        (item, some (ret, McMetadata.ofBytes (item.drop ret)))

/-- The room behind the value is lent by the response buffer and restored. -/
def storageSet (s : σ) (md : McMetadata) (value key : Bytes) : σ × Int :=
  syscallStSet api s (value ++ md.toBytes) key

end Store

/-! ## Serving requests -/

/-- The store, and the program's own `unique_number`. -/
structure Guest (σ : Type) where
  store : σ
  uniqueNumber : Nat

/-- The functions of `commands_pointers`. -/
abbrev Handler (σ : Type) := Guest σ → StReq → StRes → Guest σ × Option StRes

/-- `process_single_command` with the buffer of `simple_commands_loop`: what is
written to the responses. -/
def processSingleCommand {σ : Type} (cmdPtr : UInt8 → Option (Handler σ)) (g : Guest σ)
    (request : Bytes) : Guest σ × Option Bytes :=
  let req := unpackRequest request
  let res := prepareRes writeResponsesBufSz request
  let r := match cmdPtr req.opcode with
    | some handler => handler g req res
    | none => (g, setErrorCode res memcacheStatusUnknownCommand)
  (r.1, r.2.bind (packResponse writeResponsesBufSz))

end Smalltable.Ref.LibSt
