import Smalltable.Ref.SysCommands

/-!
# Dispatching a batch (`command.c`)

`process_multi` is handed a buffer of whole requests. It first hints the
engine at the keys it will need, in bulks of at most `BULK_SZ`, and then
groups neighbouring requests that the command table sends to the same place,
so that a process is woken once for all of them.

The table entry of a request is read when the loop reaches it; the group
before it is run right after that reading.

The buffer is handed over as a pointer into the block of `recv_buf`, and the
first thing `process_multi` does may reallocate that block. `processMulti` is the
function on the bytes its loops read; which bytes those are is said by
`startReqBuf`, and `processMultiAt` is the function on the pointer.
-/

namespace Smalltable.Ref

section Dispatch

variable {σ γ : Type} (api : StStorageApi σ) (vx : Vx γ) (cfg : Config γ)

/-- `BULK_SZ` -/
def bulkSz : Nat := 4096

structure Prefetch (σ : Type) where
  store : σ
  firstRun : Bool := true
  bKey : List Bytes := []

def prefetchStep (t : CmdTable) (p : Prefetch σ) (request : Bytes) : Prefetch σ :=
  if (t (mcGetOpcode request)).isPrefetch then
    -- clear previous prefetches
    let store := if p.firstRun then storagePrefetch api p.store [] else p.store
    let bKey := p.bKey ++ [reqbufGetKey request]
    if bKey.length = bulkSz then ⟨storagePrefetch api store bKey, false, []⟩
    else ⟨store, false, bKey⟩
  else p

def tryPrefetch (t : CmdTable) (store : σ) (reqBuf : Bytes) : Option σ :=
  match forRequests reqBuf { store := store } fun p request =>
      some (.yield (prefetchStep api t p request)) with
  | none => none
  | some p =>
      some (if p.bKey.length ≠ 0 then storagePrefetch api p.store p.bKey else p.store)

/-- The group being collected; it has no entry before the first request. -/
structure Group where
  entry : Option CmdEntry := none
  reqBuf : Bytes := []

/-- Run the callback for a group, if there is one. -/
def runGroup (g : Group) (w : World σ γ) (io : Io) : Option (World σ γ × Io) :=
  if g.reqBuf.length = 0 then some (w, io)
  else
    match g.entry with
    | none => none
    | some e =>
        if e.isProcess then
          match e.ptr with
          | .process pid => processCommandsCallback api vx cfg w io g.reqBuf pid
          | _ => none
        else builtinCommandsCallback api vx cfg e.ptr w io g.reqBuf

/-- State of the grouping loop. -/
structure Dispatch (σ γ : Type) where
  world : World σ γ
  io : Io
  group : Group := {}

def dispatchStep (d : Dispatch σ γ) (request : Bytes) : Option (Dispatch σ γ) :=
  let entry := d.world.cmdPointers (mcGetOpcode request)
  if d.group.entry = some entry then
    -- swallow
    some { d with group := { d.group with reqBuf := d.group.reqBuf ++ request } }
  else
    -- run callback for previous group
    match runGroup api vx cfg d.group d.world d.io with
    | none => none
    | some (w, io) => some ⟨w, io, ⟨some entry, request⟩⟩

/-- `process_multi`; the last component is the number of consumed bytes. -/
def processMulti (w : World σ γ) (io : Io) (reqBuf : Bytes) :
    Option (World σ γ × Io × Int) :=
  -- make sure that we have enough allocated space after the end of the read data
  let wr := bufGetWriter io.pool io.recvBuf sizeofMcMetadata
  let io := { io with pool := wr.1, recvBuf := wr.2.1 }
  match tryPrefetch api w.cmdPointers w.store reqBuf with
  | none => none
  | some store =>
      match forRequests reqBuf (⟨{ w with store := store }, io, {}⟩ : Dispatch σ γ)
          fun d request => (dispatchStep api vx cfg d request).map .yield with
      | none => none
      | some d =>
          match runGroup api vx cfg d.group d.world d.io with
          | none => none
          | some (w, io) => some (w, io, reqBuf.length)

/-- What the loops of `process_multi` find at `start_req_buf`. `conn_recv` computes
the pointer before the call. When `buf_get_writer` makes the block of `recv_buf`
grow, the block is reallocated and the pointer goes to where it was, where
`freed` is now. -/
def startReqBuf (io : Io) (freed reqBuf : Bytes) : Bytes :=
  if (bufGetWriter io.pool io.recvBuf sizeofMcMetadata).2.1.bufSz = io.recvBuf.bufSz then reqBuf
  else freed

/-- `process_multi` on the pointer it is called with. -/
def processMultiAt (w : World σ γ) (io : Io) (freed reqBuf : Bytes) :
    Option (World σ γ × Io × Int) :=
  processMulti api vx cfg w io (startReqBuf io freed reqBuf)

end Dispatch

end Smalltable.Ref
