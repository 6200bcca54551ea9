import Smalltable.Lib.SearchTree
import Smalltable.Ref.ProxyClient

/-!
# Servers and proxies known to the proxy (`st_server.c`, `st_proxy.c`)

Both are kept in red-black trees, servers by the key their range starts with
and proxies by host and port. Insertion searches the place from the root and
gives up on an equal key; `rb_insert_color` then balances the tree.

What `rb_insert_color` does goes by the colours of the nodes as well, which the
trees here do not have. Only the order of the elements matters to what is built on
them, so the balancing is a parameter, any function of the uncoloured tree that
keeps the order. The trees with their colours, in memory and balanced by the code,
are those of `Ref.RbTree` and `Ref.ConfigTrees`; they have the same servers after
the same calls (`Proofs.ServerTrees`).

A server is told apart from others by the number it was created with. What an
exchange changes in it lies in a heap under that number, and a number that is
not there is a freed server.
-/

namespace Smalltable.Ref

/-- `memcmp` over as many bytes as both have. -/
def memcmp : Bytes → Bytes → Int
  | a :: as, b :: bs => if a = b then memcmp as bs else (a.toNat : Int) - b.toNat
  | _, _ => 0

def keyCmp (a b : Bytes) : Int :=
  let r := memcmp a b
  if r = 0 then
    if a.length = b.length then 0
    else if a.length < b.length then -1
    else 1
  else r

structure StServer where
  ptr : Nat
  host : Bytes
  port : Int
  weight : Int
  key : Bytes
  deriving DecidableEq

structure StProxy where
  host : Bytes
  port : Int
  deriving DecidableEq

/-- `strcmp`, of strings given without their final zero: that the shorter one ends
first makes it the smaller. -/
def strcmp (a b : Bytes) : Int := keyCmp a b

def proxyKeyCmp (a b : StProxy) : Int :=
  let r := strcmp a.host b.host
  if r ≠ 0 then r
  else if a.port < b.port then -1
  else if a.port > b.port then 1
  else 0

/-- What is left open here: the balancing of the trees, as a function of the tree
without its colours, the clock, and the host name and the date that go into a saved
configuration. -/
structure ProxyEnv where
  rbInsertColor : {α : Type} → Tree α → Tree α
  toList_rbInsertColor : ∀ {α : Type} (t : Tree α), (rbInsertColor t).toList = t.toList
  clockGettime : Int := 0
  ctime : Bytes := []
  hostname : Bytes := []

/-- `struct config`, with the parts of `struct server` that its commands work
on: the flag and the list of connections, each with its `flag_registered`. -/
structure ProxyWorld where
  proxies : Tree StProxy := .leaf
  servers : Tree StServer := .leaf
  backends : Nat → Option Backend := fun _ => none
  nextServer : Nat := 0
  resBuf : Buffer := {}
  stopped : Bool := false
  conns : List (Nat × Bool) := []

namespace ProxyWorld

def setBackend (w : ProxyWorld) (ptr : Nat) (b : Option Backend) : ProxyWorld :=
  { w with backends := fun i => if i = ptr then b else w.backends i }

end ProxyWorld

section Trees

variable (env : ProxyEnv)

def stServerInsert (w : ProxyWorld) (data : StServer) : Option ProxyWorld :=
  match Tree.insertBy (fun a b => keyCmp a.key b.key) data w.servers with
  | none => none
  | some t => some { w with servers := env.rbInsertColor t }

/-- `none` is the return value -1; the new server is freed again. -/
def newStServer (w : ProxyWorld) (host : Bytes) (port weight : Int) (key : Bytes) :
    Option ProxyWorld :=
  let srv : StServer := ⟨w.nextServer, host, port, weight, key⟩
  match stServerInsert env w srv with
  | none => none
  | some w =>
      some { w.setBackend srv.ptr (some { nextRetry := env.clockGettime }) with
        nextServer := w.nextServer + 1 }

def stProxyInsert (w : ProxyWorld) (data : StProxy) : Option ProxyWorld :=
  match Tree.insertBy proxyKeyCmp data w.proxies with
  | none => none
  | some t => some { w with proxies := env.rbInsertColor t }

def newStProxy (w : ProxyWorld) (host : Bytes) (port : Int) : Option ProxyWorld :=
  stProxyInsert env w ⟨host, port⟩

/-- `NULL` is `none`. -/
def findStServer (servers : Tree StServer) (key : Bytes) : Option StServer :=
  Tree.floorBy (fun item => keyCmp key item.key) none servers

/-- `rb_erase`, of the node of the server with this number. -/
structure RbErase where
  rbErase : Nat → Tree StServer → Tree StServer
  toList_rbErase : ∀ ptr t, (rbErase ptr t).toList = t.toList.filter fun s => s.ptr ≠ ptr

/-- `find_st_server` with `rb_next` as it is called. -/
def findStServerByNext (rbNext : StServer → Option StServer) (servers : Tree StServer)
    (key : Bytes) : Option StServer :=
  Tree.floorWith rbNext (fun item => keyCmp key item.key) servers

def delStServer (er : RbErase) (p : Pool) (w : ProxyWorld) (srv : StServer) :
    Pool × ProxyWorld :=
  let p := match w.backends srv.ptr with
    | none => p
    | some b => (bufFree (bufFree p b.sendBuf).1 b.recvBuf).1
  (p, { w.setBackend srv.ptr none with servers := er.rbErase srv.ptr w.servers })

/-- The roots are erased and freed until there is none, and the buffers of each
server go back to the pool; the order in which they do is not kept. -/
def freeAllServers (p : Pool) (w : ProxyWorld) : Pool × ProxyWorld :=
  let freed := w.servers.toList.map (·.ptr)
  let p := freed.foldl (fun p ptr =>
    match w.backends ptr with
    | none => p
    | some b => (bufFree (bufFree p b.sendBuf).1 b.recvBuf).1) p
  (p, { w with
    servers := .leaf
    backends := fun i => if i ∈ freed then none else w.backends i })

def freeAllProxies (w : ProxyWorld) : ProxyWorld := { w with proxies := .leaf }

/-- A call of `new_st_server` or of `del_st_server`, the latter on a server that
is there. -/
inductive ServerCall where
  | newServer (host : Bytes) (port weight : Int) (key : Bytes)
  | delServer (ptr : Nat)

def serverCall (er : RbErase) (s : Pool × ProxyWorld) : ServerCall → Option (Pool × ProxyWorld)
  | .newServer host port weight key =>
      some (s.1, (newStServer env s.2 host port weight key).getD s.2)
  | .delServer ptr =>
      (s.2.servers.toList.find? (·.ptr = ptr)).map (delStServer er s.1 s.2)

end Trees

end Smalltable.Ref
