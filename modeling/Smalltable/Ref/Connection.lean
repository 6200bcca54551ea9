import Smalltable.Ref.Framing
import Smalltable.Ref.World

/-!
# A client connection (`connection.c`)

`conn_recv` and `conn_send` are written with labels and call each other, always
in tail position, so a connection is a machine whose control point is a label.
The event loop starts it with whatever the connection is registered for,
reading or writing.

The socket has two ends here: `input` is what the client has sent and the
server has not yet received, `sent` what the server's `send` calls have
accepted. A step that calls `recv` or `send` is given the call's result. What
the commands work on is a parameter `ω`, and `process_multi` a function on it,
as it is a function pointer in the source: server and proxy share this code.
-/

namespace Smalltable.Ref

/-- The result of `recv` with `MSG_DONTWAIT`. -/
inductive RecvResult where
  | got (n : Nat)
  | again
  | eof
  | error
  deriving DecidableEq, Repr

/-- The result of `send` with `MSG_DONTWAIT`. -/
inductive SendResult where
  | sent (n : Nat)
  | again
  | error
  deriving DecidableEq, Repr

/-- `META_EVENT_ONLY_READ` and `META_EVENT_ONLY_WRITE` -/
inductive EventMode where
  | onlyRead | onlyWrite
  deriving DecidableEq, Repr

/-- Where the code is: back in the event loop, or at a label. -/
inductive ConnPc where
  | eventLoop
  | retryRecv
  | swallowNextRequest (written : Bool)
  | connSend
  | closed
  deriving DecidableEq, Repr

structure Conn (ω : Type) where
  pc : ConnPc := .eventLoop
  mode : EventMode := .onlyRead
  quietRecvOff : Int := 0
  /-- `requests`, the two buffers and the pool they take from -/
  io : Io := {}
  world : ω
  input : Bytes := []
  sent : Bytes := []

/-- What the outside does at a step. -/
inductive ConnAction where
  /-- the event loop calls `client_callback` -/
  | event
  | recv (r : RecvResult)
  | send (r : SendResult)
  /-- the code goes on by itself -/
  | run
  deriving DecidableEq, Repr

section Steps

variable {ω : Type} (processMulti : ω → Io → Bytes → Option (ω × Io × Int))

def connClose (c : Conn ω) : Conn ω := { c with pc := .closed }

/-- From `retry_recv` to the test for the end of the buffer. -/
def connRetryRecv (c : Conn ω) (r : RecvResult) : Option (Conn ω) :=
  let wr := bufGetWriter c.io.pool c.io.recvBuf 0
  let io := { c.io with pool := wr.1, recvBuf := wr.2.1 }
  match r with
  | .got n =>
      if 0 < n ∧ n ≤ c.input.length ∧ (n : Int) ≤ wr.2.2 then
        let io := { io with recvBuf := bufProduce io.recvBuf (c.input.take n) }
        let c := { c with io := io, input := c.input.drop n }
        -- have we stopped reading because of the end of the buffer?
        some { c with pc := if (n : Int) = wr.2.2 then .retryRecv
          else .swallowNextRequest false }
      else none
  | .again =>
      some { c with io := { io with recvBuf := bufProduce io.recvBuf [] },
                    pc := if (0 : Int) = wr.2.2 then .retryRecv else .swallowNextRequest false }
  | .eof => some (connClose { c with io := io })
  | .error => some (connClose { c with io := io })

/-- A request that is not held back: hand over what has been collected. -/
def connProcess (c : Conn ω) : Option (Conn ω) :=
  match processMulti c.world c.io ((bufGetReader c.io.recvBuf).take c.quietRecvOff.toNat) with
  | none => none
  | some (world, io, consumed) =>
      let rb := bufConsume io.pool io.recvBuf consumed
      let io := { io with pool := rb.1, recvBuf := rb.2, requests := 0 }
      some { c with
        world := world
        io := io
        quietRecvOff := 0
        -- full out buffer. don't process more
        pc := if bufGetUsed io.sendBuf ≥ maxRequestSize then .connSend
          else .swallowNextRequest true }

/-- `new_data`: what has been received behind the requests held back. -/
def newData (c : Conn ω) : Bytes :=
  (bufGetReader c.io.recvBuf).drop c.quietRecvOff.toNat

/-- Enough data, and quiet commands: the request at `new_data` is held back. -/
def HoldsBack (c : Conn ω) : Prop :=
  flagQuiet (mcGetReserved (newData c)) ∧ (bufGetReader c.io.recvBuf).length < maxRequestSize ∧
    c.io.requests < maxQuietRequests

instance (c : Conn ω) : Decidable (HoldsBack c) := inferInstanceAs (Decidable (_ ∧ _))

/-- From `swallow_next_request` to the next label. -/
def connSwallow (c : Conn ω) (written : Bool) : Option (Conn ω) :=
  let requestSz := reqbufGetSaneRequestSz (newData c) 0x80
  if requestSz = -1 then some (connClose c)
  else if requestSz = 0 then
    some { c with pc := if written then .connSend else .eventLoop }
  else
    let taken := { c with
      quietRecvOff := c.quietRecvOff + requestSz
      io := { c.io with requests := c.io.requests + 1 } }
    if HoldsBack c then some taken else connProcess processMulti taken

/-- The end of `conn_send`, for what is left of the output. -/
def connAfterSend (c : Conn ω) (allSent : Bool) : Conn ω :=
  if allSent then
    { c with
      mode := .onlyRead
      pc := if bufGetUsed c.io.recvBuf ≠ 0 then .retryRecv else .eventLoop }
  else { c with mode := .onlyWrite, pc := .eventLoop }

def connSend (c : Conn ω) (r : SendResult) : Option (Conn ω) :=
  let buf := bufGetReader c.io.sendBuf
  if buf.length = 0 then none
  else
    match r with
    | .sent n =>
        if 0 < n ∧ n ≤ buf.length then
          let sb := bufConsume c.io.pool c.io.sendBuf n
          let c := { c with
            io := { c.io with pool := sb.1, sendBuf := sb.2 }
            sent := c.sent ++ buf.take n }
          some (connAfterSend c (buf.length = n))
        else none
    | .again => some (connAfterSend c false)
    | .error => some (connClose c)

/-- One step of the connection. An action that does not fit the control point is
`none`, and so is a batch that does not come back from its commands. -/
def connStep (c : Conn ω) (a : ConnAction) : Option (Conn ω) :=
  match c.pc, a with
  | .eventLoop, .event =>
      some { c with pc := match c.mode with
        | .onlyRead => .retryRecv
        | .onlyWrite => .connSend }
  | .retryRecv, .recv r => connRetryRecv c r
  | .swallowNextRequest written, .run => connSwallow processMulti c written
  | .connSend, .send r => connSend c r
  -- nothing to send
  | .connSend, .run =>
      if (bufGetReader c.io.sendBuf).length = 0 then some (connAfterSend c true) else none
  | _, _ => none

/-- `conn_new`: registered for reading, with nothing received yet. -/
def connNew (world : ω) (conn : Nat) (pool : Pool) (stream : Bytes) : Conn ω :=
  { world := world, io := { conn := conn, pool := pool }, input := stream }

/-- All that a step can be. -/
theorem connStep_cases {c c' : Conn ω} {a : ConnAction}
    (h : connStep processMulti c a = some c') :
    (c.pc = .eventLoop ∧ a = .event ∧ c' = { c with pc := match c.mode with
        | .onlyRead => .retryRecv
        | .onlyWrite => .connSend }) ∨
    (∃ r, c.pc = .retryRecv ∧ a = .recv r ∧ connRetryRecv c r = some c') ∨
    (∃ written, c.pc = .swallowNextRequest written ∧ a = .run ∧
      connSwallow processMulti c written = some c') ∨
    (∃ r, c.pc = .connSend ∧ a = .send r ∧ connSend c r = some c') ∨
    (c.pc = .connSend ∧ a = .run ∧ (bufGetReader c.io.sendBuf).length = 0 ∧
      c' = connAfterSend c true) := by
  unfold connStep at h
  cases hpc : c.pc with
  | eventLoop =>
      rw [hpc] at h
      cases a with
      | event => exact .inl ⟨rfl, rfl, (Option.some.inj h).symm⟩
      | recv r => cases h
      | send r => cases h
      | run => cases h
  | retryRecv =>
      rw [hpc] at h
      cases a with
      | event => cases h
      | recv r => exact .inr (.inl ⟨r, rfl, rfl, h⟩)
      | send r => cases h
      | run => cases h
  | swallowNextRequest written =>
      rw [hpc] at h
      cases a with
      | event => cases h
      | recv r => cases h
      | send r => cases h
      | run => exact .inr (.inr (.inl ⟨written, rfl, rfl, h⟩))
  | connSend =>
      rw [hpc] at h
      cases a with
      | event => cases h
      | recv r => cases h
      | send r => exact .inr (.inr (.inr (.inl ⟨r, rfl, rfl, h⟩)))
      | run =>
          simp only [] at h
          split at h
          · next hempty =>
              cases h
              exact .inr (.inr (.inr (.inr ⟨rfl, rfl, hempty, rfl⟩)))
          · cases h
  | closed =>
      rw [hpc] at h
      cases a with
      | event => cases h
      | recv r => cases h
      | send r => cases h
      | run => cases h

end Steps

end Smalltable.Ref
