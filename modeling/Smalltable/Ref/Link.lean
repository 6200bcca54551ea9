import Smalltable.Ref.ProxyClient

/-!
# The proxy and a server at the two ends of a connection

The proxy's chain of callbacks (`proxy_client.c`) at one end, the server's
connection (`connection.c`) at the other. Between them are two queues of bytes
with room for `capServer` and `capProxy` bytes. The queue to the server is the
`input` of its connection.

The event loops may call either end at any time. A socket accepts at most what
there is room for and refuses only when there is none, and it has nothing to
read only when the queue is empty. Connections do not fail here.
-/

namespace Smalltable.Ref

structure Link (ω : Type) where
  /-- the memory pool of the proxy -/
  pool : Pool := []
  exchange : Exchange
  conn : Conn ω
  toProxy : Bytes := []

inductive LinkAction where
  | proxy (a : ClientAction)
  | server (a : ConnAction)
  deriving DecidableEq, Repr

section Steps

variable {ω : Type} (processMulti : ω → Io → Bytes → Option (ω × Io × Int))
  (capServer capProxy : Nat)

/-- What the two sockets can do. -/
def linkAllows (s : Link ω) : LinkAction → Bool
  | .proxy (.start now connect) =>
      0 ≤ s.exchange.srv.sd ∨ s.exchange.srv.nextRetry < now ∧ connect ≠ none
  | .proxy (.connected ok) => ok
  | .proxy (.send (.sent n)) => s.conn.input.length + n ≤ capServer
  | .proxy (.send .again) => capServer ≤ s.conn.input.length
  | .proxy (.send .error) => false
  | .proxy (.recv (.got bs)) => bs.isPrefixOf s.toProxy
  | .proxy (.recv .again) => s.toProxy = []
  | .proxy (.recv .closed) => false
  | .proxy .run => true
  | .server .event => true
  | .server (.recv (.got _)) => true
  | .server (.recv .again) => s.conn.input = []
  | .server (.recv .eof) => false
  | .server (.recv .error) => false
  | .server (.send (.sent n)) => s.toProxy.length + n ≤ capProxy
  | .server (.send .again) => capProxy ≤ s.toProxy.length
  | .server (.send .error) => false
  | .server .run => true

/-- What a step of the proxy takes out of its queue. -/
def takenByProxy : ClientAction → Nat
  | .recv (.got bs) => bs.length
  | _ => 0

def linkStep (s : Link ω) (a : LinkAction) : Option (Link ω) :=
  if linkAllows capServer capProxy s a then
    match a with
    | .proxy a =>
        match clientStep s.pool s.exchange a with
        | none => none
        | some (pool, x) =>
            some { s with
              pool := pool
              exchange := x
              conn := { s.conn with
                input := s.conn.input ++ x.sent.drop s.exchange.sent.length }
              toProxy := s.toProxy.drop (takenByProxy a) }
    | .server a =>
        match connStep processMulti s.conn a with
        | none => none
        | some c =>
            some { s with
              conn := c
              toProxy := s.toProxy ++ c.sent.drop s.conn.sent.length }
  else none

/-- Both ends wait until the other one reads: the proxy in `do_write`, the
server with `META_EVENT_ONLY_WRITE` and unsent output. -/
structure Deadlocked (s : Link ω) : Prop where
  proxy : s.exchange.pc = .doWrite
  server : s.conn.pc = .eventLoop ∧ s.conn.mode = .onlyWrite
  unsent : bufGetReader s.conn.io.sendBuf ≠ []
  fullToServer : s.conn.input.length = capServer
  fullToProxy : s.toProxy.length = capProxy

/-- A list of actions, one after the other. -/
def linkRun (s : Link ω) : List LinkAction → Option (Link ω)
  | [] => some s
  | a :: rest =>
      match linkStep processMulti capServer capProxy s a with
      | none => none
      | some s => linkRun s rest

end Steps

end Smalltable.Ref
