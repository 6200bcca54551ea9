import Smalltable.Ref.SimpleBuffer
import Smalltable.Ref.SimpleClient

/-!
# The Python client's conversation with a server (`NetworkConnecton._recv`)

All requests are written to the socket as far as it takes them; then, as long as there are
replies to come, the client waits for the socket, sends more and takes what has come apart.
The generator is a machine, stopped wherever the socket is asked; what it yields is
collected, as `recv` does.

The assertion that the reply is to the right request is made about a pair, which is always
true; therefore it is not here.
-/

namespace Smalltable.Ref.SimpleClient

inductive RecvPc where
  /-- the loop over `send_iter` -/
  | collect
  | sendGroup
  | sendRest
  /-- the test of `while opaques` -/
  | head
  | select
  | sendMore (rlist : Bool)
  | recv
  /-- the inner loop -/
  | parse
  | returned
  | assertFailed
  /-- any other exception -/
  | raised
  deriving DecidableEq

/-- What is yielded for a reply. -/
structure Reply where
  opcode : Nat
  status : Nat
  cas : Nat
  extras : Bytes
  key : Bytes
  value : Bytes
  deriving DecidableEq

def Unpacked.reply (u : Unpacked) : Reply :=
  ⟨u.opcode, u.status, u.cas, u.extras, u.key, u.value⟩

structure Conversation where
  pc : RecvPc := .collect
  /-- what `send_iter` has still to give -/
  sendIter : List Bytes
  sendBuffer : SimpleBuffer
  recvBuffer : SimpleBuffer
  opaqueId : Nat
  opaques : List Nat := []
  groupSz : Nat := 0
  group : List Bytes := []
  resLen : Nat := 24
  yielded : List Reply := []
  /-- history: what the socket has taken, and what it has given -/
  sent : Bytes := []
  received : Bytes := []

inductive ClientEvent where
  /-- the code goes on by itself -/
  | run
  /-- `select` says whether the socket is writable, and readable -/
  | select (wlist rlist : Bool)
  | send (r : SendResult)
  /-- all that `recv` does in one call of `recv_from_socket` -/
  | recv (rs : List SocketRecv)

/-- `_recv` up to the first loop. -/
def startRecv (sd : Bool) (sendBuffer recvBuffer : SimpleBuffer) (opaqueId : Nat)
    (requests : List Bytes) : Conversation :=
  -- a new connection flushes both
  let sendBuffer := if sd then sendBuffer else sendBuffer.flush
  let recvBuffer := if sd then recvBuffer else recvBuffer.flush
  { pc := if sendBuffer.len = 0 ∧ recvBuffer.len = 0 then .collect else .assertFailed
    sendIter := requests
    sendBuffer := sendBuffer
    recvBuffer := recvBuffer
    opaqueId := opaqueId }

/-- `send_to_socket`, and on to `pc`. A socket takes no more than it is handed. -/
def socketSend (s : Conversation) (r : SendResult) (pc : RecvPc) : Option Conversation :=
  match r with
  | .error => some { s with pc := .raised }
  | .again =>
      (s.sendBuffer.sendToSocket .again).map fun b => { s with sendBuffer := b.2, pc := pc }
  | .sent n =>
      let data := s.sendBuffer.sendData
      if n ≤ data.length then
        (s.sendBuffer.sendToSocket (.sent n)).map fun b =>
          { s with sendBuffer := b.2, sent := s.sent ++ data.take n, pc := pc }
      else none

/-- A whole frame is taken off and yielded. -/
def takeReply (s : Conversation) : Conversation :=
  match s.recvBuffer.readAndConsume s.resLen with
  | none => { s with pc := .raised }
  | some (frame, b) =>
      match unpack frame, s.opaques.getLast? with
      | some u, some _ => { s with
          recvBuffer := b
          opaques := s.opaques.dropLast
          yielded := s.yielded ++ [u.reply]
          resLen := 24 }
      | _, _ => { s with pc := .raised }

/-- A round of the inner loop. -/
def parseReply (s : Conversation) : Conversation :=
  let bufLen := s.recvBuffer.len
  if bufLen ≥ s.resLen then
    let r := s.recvBuffer.read (some (8 + 4))
    match structUnpack [4] (r.1.drop 8) with
    | some [totalLength] =>
        let s := { s with recvBuffer := r.2, resLen := totalLength + 24 }
        if bufLen ≥ s.resLen then takeReply s else { s with pc := .head }
    | _ => { s with pc := .raised }
  else { s with pc := .head }

def recvStep (s : Conversation) (e : ClientEvent) : Option Conversation :=
  match s.pc, e with
  | .collect, .run =>
      match s.sendIter with
      | data :: rest =>
          let s := { s with
            sendIter := rest
            opaques := s.opaques ++ [s.opaqueId]
            opaqueId := (s.opaqueId + 1) % 65536
            group := s.group ++ [data]
            groupSz := s.groupSz + data.length }
          -- every 65k try to fill tcp/ip buffers
          if s.groupSz > 65536 then
            some { s with
              sendBuffer := s.sendBuffer.write [some s.group.flatten]
              pc := .sendGroup }
          else some s
      | [] =>
          some { s with sendBuffer := s.sendBuffer.write [some s.group.flatten], pc := .sendRest }
  | .sendGroup, .send r => socketSend { s with group := [], groupSz := 0 } r .collect
  | .sendRest, .send r =>
      socketSend { s with opaques := s.opaques.reverse, resLen := 24 } r .head
  | .head, .run =>
      if s.opaques ≠ [] then some { s with pc := .select }
      else if s.sendBuffer.len = 0 ∧ s.recvBuffer.len = 0 then some { s with pc := .returned }
      else some { s with pc := .assertFailed }
  | .select, .select wlist rlist =>
      -- it waits for the socket to be writable only if there is something to send
      if (wlist = true → s.sendBuffer.len ≠ 0) ∧ (wlist = true ∨ rlist = true) then
        some { s with pc := if wlist then .sendMore rlist else .recv }
      else none
  | .sendMore rlist, .send r => socketSend s r (if rlist then .recv else .head)
  | .recv, .recv rs =>
      match s.recvBuffer.recvFromSocket rs with
      | none => none
      | some (c, b) => some { s with
          recvBuffer := b
          received := s.received ++ socketBytes rs
          pc := if c = some 0 then .raised else .parse }
  | .parse, .run => some (parseReply s)
  | _, _ => none

end Smalltable.Ref.SimpleClient
