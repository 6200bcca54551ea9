import Smalltable.Ref.Link
import Smalltable.Ref.ProxyCommand

/-!
# The proxy and all its servers

What `process_multi` of the proxy (`proxy_command.c`) finds on the network are
the servers, each at the other end of a connection (`connection.c`). While the
proxy serves a batch it waits in `process_memcache` and the event loops of the
servers go on; their steps and those of the proxy's chains of callbacks may come
in any order. Each connection is a `Link`, and the proxy has one memory pool for
all of them.

Between two batches a server may still have something to do. It may also have
something to do while a batch is served that is not for it, which is the same as
doing it before or after. Connections do not fail here.
-/

namespace Smalltable.Ref

/-- The server's end of a connection, and what is on its way to the proxy. -/
structure ServerEnd (ω : Type) where
  conn : Conn ω
  toProxy : Bytes := []

structure Cluster (ω : Type) where
  proxy : ProxyWorld
  servers : Nat → ServerEnd ω

structure ClusterAction where
  server : Nat
  action : LinkAction
  deriving DecidableEq, Repr

/-- What the proxy sees of it. -/
def netOf (acts : List ClusterAction) : List Proxy.NetEvent :=
  acts.filterMap fun e =>
    match e.action with
    | .proxy a => some ⟨e.server, a⟩
    | .server _ => none

section Steps

variable {ω : Type} (processMulti : ω → Io → Bytes → Option (ω × Io × Int))
  (capServer capProxy : Nat)

/-- The connections of a batch, one step after the other. -/
def serveLinks (p : Pool) (links : Nat → Option (Link ω)) :
    List ClusterAction → Option (Pool × (Nat → Option (Link ω)))
  | [] => some (p, links)
  | e :: rest =>
      match links e.server with
      | none => none
      | some s =>
          match linkStep processMulti capServer capProxy { s with pool := p } e.action with
          | none => none
          | some s =>
              serveLinks s.pool (fun i => if i = e.server then some s else links i) rest

/-- The connections the chains of callbacks are started on. -/
def startLinks (servers : List Nat) (w : ProxyWorld) (ends : Nat → ServerEnd ω) :
    Nat → Option (Link ω) := fun ptr =>
  (Proxy.startExchanges servers w ptr).map fun x =>
    { exchange := x, conn := (ends ptr).conn, toProxy := (ends ptr).toProxy }

/-- What is at the other ends when the proxy has collected `c` and has asked the
servers. -/
def endsAfter (acts : List ClusterAction) (c : Proxy.Collect) (ends : Nat → ServerEnd ω) :
    Option (Nat → ServerEnd ω) :=
  if c.servers.length = 0 then some ends
  else
    match Proxy.appendNoops c.servers c.pool c.world with
    | none => none
    | some (p, w) =>
        match serveLinks processMulti capServer capProxy p (startLinks c.servers w ends) acts with
        | none => none
        | some (_, links) =>
            some fun ptr =>
              match links ptr with
              | none => ends ptr
              | some s => ⟨s.conn, s.toProxy⟩

/-- The proxy's `process_multi` with the servers behind it. -/
def clusterMulti (env : ProxyEnv) (acts : List ClusterAction) (cl : Cluster ω) (io : Io)
    (reqBuf : Bytes) : Option (Cluster ω × Io × Int) :=
  match Proxy.collect env io.conn io.pool cl.proxy reqBuf with
  | none => none
  | some c =>
      match endsAfter processMulti capServer capProxy acts c cl.servers with
      | none => none
      | some ends =>
          match Proxy.processMulti env (netOf acts) cl.proxy io reqBuf with
          | none => none
          | some (w, io, consumed) => some ({ proxy := w, servers := ends }, io, consumed)

/-- A server goes on between two batches. -/
def serverGoesOn (cl : Cluster ω) (ptr : Nat) (a : ConnAction) : Option (Cluster ω) :=
  let s := cl.servers ptr
  match connStep processMulti s.conn a with
  | none => none
  | some c =>
      some { cl with servers := fun i =>
        if i = ptr then ⟨c, s.toProxy ++ c.sent.drop s.conn.sent.length⟩ else cl.servers i }

end Steps

end Smalltable.Ref
