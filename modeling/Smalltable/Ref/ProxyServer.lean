import Smalltable.Lib.Transition
import Smalltable.Ref.ProxyCommand

/-!
# The proxy and its connections (`connection.c`, `event_loop.c`)

The event loop calls back for a connection only while its event is registered.
STOP takes the events of all other connections out and START puts them back,
and so does the end of the connection that has stopped the proxy. A connection
that is accepted in between stays out.

A run is cut at the points where the loop of `conn_recv` has a batch to hand
over, so a batch comes with any state of the connection's buffers and any bytes.
The history says which requests the first loop of `process_multi` has taken up,
and which connections were closed, newest first.
-/

namespace Smalltable.Ref.Proxy

inductive Done where
  | request (conn : Nat) (request : Bytes)
  | closed (conn : Nat)

structure Server where
  world : ProxyWorld
  history : List Done := []

inductive ServerEvent where
  | accept (conn : Nat)
  | batch (net : List NetEvent) (io : Io) (reqBuf : Bytes)
  | close (conn : Nat)

section Steps

variable (env : ProxyEnv)

def isRegistered (conn : Nat) (w : ProxyWorld) : Bool := w.conns.contains (conn, true)

def connNew (conn : Nat) (w : ProxyWorld) : ProxyWorld :=
  { w with conns := (conn, !w.stopped) :: w.conns }

def connFree (conn : Nat) (w : ProxyWorld) : ProxyWorld :=
  { w with conns := w.conns.filter (·.1 ≠ conn) }

def connClose (conn : Nat) (w : ProxyWorld) : ProxyWorld :=
  if w.stopped ∧ isRegistered conn w then connFree conn (connStart w) else connFree conn w

/-- `collect`, with the requests it has taken up. -/
def collectTraced (conn : Nat) (p : Pool) (w : ProxyWorld) (reqBuf : Bytes) :
    Option (Collect × List Bytes) :=
  forRequests reqBuf ({ pool := p, world := w }, []) fun s request =>
    (collectStep env conn s.1 request).map (mapStep fun c => (c, request :: s.2))

def batchStep (s : Server) (net : List NetEvent) (io : Io) (reqBuf : Bytes) : Option Server :=
  match collectTraced env io.conn io.pool s.world reqBuf,
      processMulti env net s.world io reqBuf with
  | some (_, taken), some (w, _, _) =>
      some { world := w, history := taken.map (.request io.conn) ++ s.history }
  | _, _ => none

/-- A new connection is a new block of memory. Callbacks are for registered
connections. -/
def serverStep (s : Server) : ServerEvent → Option Server
  | .accept conn =>
      if conn ∈ s.world.conns.map Prod.fst then none
      else some { s with world := connNew conn s.world }
  | .batch net io reqBuf =>
      if isRegistered io.conn s.world then batchStep env s net io reqBuf else none
  | .close conn =>
      if isRegistered conn s.world then
        some { world := connClose conn s.world, history := .closed conn :: s.history }
      else none

/-- The proxy as it starts, with some configuration. -/
def serverStart (w : ProxyWorld) : Server := { world := { w with stopped := false, conns := [] } }

def serverRun (s : Server) (es : List ServerEvent) : Option Server :=
  runSteps (serverStep env) s es

end Steps

end Smalltable.Ref.Proxy
