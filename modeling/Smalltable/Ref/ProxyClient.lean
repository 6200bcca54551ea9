import Smalltable.Ref.Connection

/-!
# The proxy as a client of its servers (`proxy_client.c`)

For each server it has requests for, the proxy starts a chain of callbacks:
connect unless there is a connection, write all of `send_buf`, read until every
request has its response. The chain is a machine here; a control point is the
callback that waits for the descriptor, or a label inside `do_read`. Whatever
goes wrong ends in `do_error`, which drops an incomplete response and makes up
the missing ones.

The memory pool is shared with all other buffers of the proxy, so each step is
handed it and hands it back. Points in time are nanoseconds.
-/

namespace Smalltable.Ref

/-- `ST_SERVER_MIN_DELAY` and `ST_SERVER_MAX_DELAY` -/
def stServerMinDelay : Int := 100000000
def stServerMaxDelay : Int := 5000000000

/-- The fields of `struct st_server` that an exchange with the server uses. -/
structure Backend where
  sd : Int := -1
  nextRetry : Int := 0
  delay : Int := stServerMinDelay
  requests : Int := 0
  sendOffset : Int := 0
  sendBuf : Buffer := {}
  responses : Int := 0
  recvOffset : Int := 0
  recvBuf : Buffer := {}

inductive ClientPc where
  | doStart
  | doConnected
  | doWrite
  /-- the callback, and the label `retry` in it -/
  | doRead
  | swallowNextRequest
  | done
  deriving DecidableEq, Repr

/-- A chain of callbacks. The last three fields are history: what `send` has
accepted, what `recv` has returned, and, once `do_error` was entered, how many
responses `do_read` had counted by then. -/
structure Exchange where
  pc : ClientPc := .doStart
  srv : Backend
  sent : Bytes := []
  received : Bytes := []
  failed : Option Int := none

/-- The result of `recv` here: the bytes it returned, `EAGAIN`, or the end of
the connection. -/
inductive ClientRecv where
  | got (bs : Bytes)
  | again
  | closed
  deriving DecidableEq, Repr

/-- What the network does at a step. -/
inductive ClientAction where
  /-- `do_start` at a point in time, with the descriptor `net_connect` would return -/
  | start (now : Int) (connect : Option Nat)
  /-- the socket is writable, with `SO_ERROR` clear or not -/
  | connected (ok : Bool)
  | send (r : SendResult)
  | recv (r : ClientRecv)
  /-- the code goes on by itself -/
  | run
  deriving DecidableEq, Repr

def doDone (p : Pool) (x : Exchange) : Pool × Exchange :=
  let sb := bufConsume p x.srv.sendBuf (bufGetUsed x.srv.sendBuf)
  (sb.1, { x with
    pc := .done
    srv := { x.srv with
      sendBuf := sb.2, requests := 0, responses := 0, sendOffset := 0, recvOffset := 0 } })

/-- State of the loop over the requests in `do_error`. -/
structure ErrorLoop where
  pool : Pool
  recvBuf : Buffer
  requestNo : Int := 0

/-- The body of that loop: requests without a response get one made up. -/
def errorStep (responses : Int) (e : ErrorLoop) (req : Bytes) : Option ErrorLoop :=
  if e.requestNo ≥ responses then
    let wr := bufGetWriter e.pool e.recvBuf maxRequestSize
    -- length 0 so that answer is 24 bytes
    let errStr := if memcacheCmdNoop = mcGetOpcode req then some [] else none
    match errorFromReqbuf req wr.2.2 memcacheStatusConnectionBroken errStr with
    | none => none
    | some produced => some ⟨wr.1, bufProduce wr.2.1 produced, e.requestNo + 1⟩
  else some { e with requestNo := e.requestNo + 1 }

def doError (p : Pool) (x : Exchange) : Option (Pool × Exchange) :=
  let resBufSz := bufGetUsed x.srv.recvBuf
  let recvBuf :=
    if resBufSz > x.srv.recvOffset then
      bufRollbackProduced x.srv.recvBuf (resBufSz - x.srv.recvOffset)
    else x.srv.recvBuf
  match forRequests (bufGetReader x.srv.sendBuf) (⟨p, recvBuf, 0⟩ : ErrorLoop)
      fun e req => (errorStep x.srv.responses e req).map .yield with
  | none => none
  | some e =>
      some (doDone e.pool { x with
        srv := { x.srv with recvBuf := e.recvBuf }
        failed := some x.srv.responses })

def doConnectionError (p : Pool) (x : Exchange) : Option (Pool × Exchange) :=
  let prev := x.srv.nextRetry
  doError p { x with srv := { x.srv with
    sd := if x.srv.sd ≥ 0 then -1 else x.srv.sd
    nextRetry := prev + x.srv.delay
    delay := min (x.srv.delay * 2) stServerMaxDelay } }

def doStart (p : Pool) (x : Exchange) (now : Int) (connect : Option Nat) :
    Option (Pool × Exchange) :=
  if x.srv.sd < 0 then
    if ¬ x.srv.nextRetry < now then doError p x
    else
      match connect with
      | none => doConnectionError p x
      | some sd => some (p, { x with pc := .doConnected, srv := { x.srv with sd := sd } })
  else some (p, { x with pc := .doWrite })

def doConnected (p : Pool) (x : Exchange) (ok : Bool) : Option (Pool × Exchange) :=
  if ok then some (p, { x with pc := .doWrite }) else doConnectionError p x

/-- After `send`, for the bytes it took. -/
def doWritten (x : Exchange) (bs : Bytes) (bufSz : Int) : Exchange :=
  let sendOffset := x.srv.sendOffset + bs.length
  { x with
    srv := { x.srv with sendOffset := sendOffset }
    sent := x.sent ++ bs
    pc := if sendOffset ≠ bufSz then .doWrite else .doRead }

def doWrite (p : Pool) (x : Exchange) (r : SendResult) : Option (Pool × Exchange) :=
  let buf := bufGetReader x.srv.sendBuf
  let rest := buf.drop x.srv.sendOffset.toNat
  match r with
  | .sent n =>
      if 0 < n ∧ n ≤ rest.length then some (p, doWritten x (rest.take n) buf.length) else none
  | .again => some (p, doWritten x [] buf.length)
  | .error => doConnectionError p x

/-- `do_read` from `retry` to the test for a full buffer. -/
def doRead (p : Pool) (x : Exchange) (r : ClientRecv) : Option (Pool × Exchange) :=
  let wr := bufGetWriter p x.srv.recvBuf 65536
  let x := { x with srv := { x.srv with recvBuf := wr.2.1 } }
  match r with
  | .got bs =>
      if bs ≠ [] ∧ (bs.length : Int) ≤ wr.2.2 then
        some (wr.1, { x with
          srv := { x.srv with recvBuf := bufProduce x.srv.recvBuf bs }
          received := x.received ++ bs
          pc := if (bs.length : Int) = wr.2.2 then .doRead else .swallowNextRequest })
      else none
  | .again =>
      some (wr.1, { x with
        srv := { x.srv with recvBuf := bufProduce x.srv.recvBuf [] }
        pc := if (0 : Int) = wr.2.2 then .doRead else .swallowNextRequest })
  | .closed => doConnectionError wr.1 x

/-- `do_read` from `swallow_next_request` to the next label. -/
def doSwallow (p : Pool) (x : Exchange) : Option (Pool × Exchange) :=
  let newData := (bufGetReader x.srv.recvBuf).drop x.srv.recvOffset.toNat
  let requestSz := reqbufGetSaneRequestSz newData 0x81
  -- format broken
  if requestSz = -1 then doConnectionError p x
  -- need more data
  else if requestSz = 0 then some (p, { x with pc := .doRead })
  else
    let x := { x with srv := { x.srv with
      recvOffset := x.srv.recvOffset + requestSz
      responses := x.srv.responses + 1 } }
    if x.srv.responses = x.srv.requests then some (doDone p x) else some (p, x)

/-- One step of a chain. An action that does not fit the control point is
`none`. -/
def clientStep (p : Pool) (x : Exchange) (a : ClientAction) : Option (Pool × Exchange) :=
  match x.pc, a with
  | .doStart, .start now connect => doStart p x now connect
  | .doConnected, .connected ok => doConnected p x ok
  | .doWrite, .send r => doWrite p x r
  | .doRead, .recv r => doRead p x r
  | .swallowNextRequest, .run => doSwallow p x
  | _, _ => none

/-- All that a step can be. -/
theorem clientStep_cases {p p' : Pool} {x x' : Exchange} {a : ClientAction}
    (h : clientStep p x a = some (p', x')) :
    (∃ now connect, x.pc = .doStart ∧ doStart p x now connect = some (p', x')) ∨
    (∃ ok, x.pc = .doConnected ∧ doConnected p x ok = some (p', x')) ∨
    (∃ r, x.pc = .doWrite ∧ doWrite p x r = some (p', x')) ∨
    (∃ r, x.pc = .doRead ∧ doRead p x r = some (p', x')) ∨
    (x.pc = .swallowNextRequest ∧ doSwallow p x = some (p', x')) := by
  unfold clientStep at h
  split at h
  · next now connect hpc => exact .inl ⟨now, connect, hpc, h⟩
  · next ok hpc => exact .inr (.inl ⟨ok, hpc, h⟩)
  · next r hpc => exact .inr (.inr (.inl ⟨r, hpc, h⟩))
  · next r hpc => exact .inr (.inr (.inr (.inl ⟨r, hpc, h⟩)))
  · next hpc => exact .inr (.inr (.inr (.inr ⟨hpc, h⟩)))
  · cases h

end Smalltable.Ref
