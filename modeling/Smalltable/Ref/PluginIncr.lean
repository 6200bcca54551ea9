import Smalltable.Ref.LibSt

/-!
# The counter plugin (`client/smalltable/plugin_incr.c`)

INCR and DECR are one function. It reads the item into the room for the response,
changes the number where it lies and stores it from there; only then the number is
swapped to network order for the client.
-/

namespace Smalltable.Ref.PluginIncr

/-- `unique_number++ || unique_number++`: the counter after it, and the value of the
expression. -/
def drawCas (u : Nat) : Nat × Nat :=
  if u ≠ 0 then ((u + 1) % 2 ^ 64, 1)
  else
    let u := (u + 1) % 2 ^ 64
    ((u + 1) % 2 ^ 64, if u ≠ 0 then 1 else 0)

section Incr

variable {σ : Type} (api : StStorageApi σ)

/-- From `storage_set` on, with the item's metadata and `v` in the response's
buffer. -/
def storeCounter (g : LibSt.Guest σ) (key : Bytes) (md : McMetadata) (res : StRes) :
    LibSt.Guest σ × Option StRes :=
  let r := LibSt.storageSet api g.store md (slice res.mem 0 8) key
  let g := { g with store := r.1 }
  if r.2 < 0 then (g, LibSt.setErrorCode res memcacheStatusItemNotStored)
  else
    let v := leVal (slice res.mem 0 8)
    (g, some { res with
      mem := poke res.mem 0 (leBytes 8 (LibSt.htonll v))
      valueSz := 8
      status := memcacheStatusOk
      cas := md.cas })

def cmdIncr (g : LibSt.Guest σ) (req : StReq) (res : StRes) : LibSt.Guest σ × Option StRes :=
  if req.extras.length ≠ 20 ∨ req.key = [] ∨ req.value ≠ [] then
    (g, LibSt.setErrorCode res memcacheStatusInvalidArguments)
  else
    let amount := LibSt.ntohll (leVal (slice req.extras 0 8))
    let initial := LibSt.ntohll (leVal (slice req.extras 8 8))
    let expiration := ntohl (leVal (slice req.extras 16 4))
    let r := LibSt.storageGet api g.store res.bufSz req.key
    let res := { res with value := some 0, mem := poke res.mem 0 r.1 }
    match r.2 with
    | none =>
        if expiration = 0xffffffff then (g, LibSt.setErrorCode res memcacheStatusKeyNotFound)
        else
          let drawn := drawCas g.uniqueNumber
          storeCounter api { g with uniqueNumber := drawn.1 } req.key
            { flags := 0, expiration := expiration, cas := drawn.2 }
            { res with mem := poke res.mem 0 (leBytes 8 initial) }
    | some (ret, md) =>
        if ret ≠ 8 then (g, LibSt.setErrorCode res LibSt.memcacheStatusItemNonNumeric)
        else
          let v := leVal (slice res.mem 0 8)
          let v := if req.opcode = LibSt.memcacheCmdIncr then (v + amount) % 2 ^ 64
            else (v + 2 ^ 64 - amount) % 2 ^ 64
          storeCounter api g req.key { md with cas := (md.cas + 1) % 2 ^ 64 }
            { res with mem := poke res.mem 0 (leBytes 8 v) }

def commandsPointers (opcode : UInt8) : Option (LibSt.Handler σ) :=
  if opcode = LibSt.memcacheCmdIncr ∨ opcode = LibSt.memcacheCmdDecr then some (cmdIncr api)
  else none

end Incr

end Smalltable.Ref.PluginIncr
