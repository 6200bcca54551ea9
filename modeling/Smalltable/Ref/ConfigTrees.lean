import Smalltable.Ref.RbTree
import Smalltable.Ref.StServer

/-!
# The trees of a configuration in memory (`st_server.c`, `st_proxy.c`)

A `struct st_server` and a `struct st_proxy` contain the node they are in a tree
with, and are found from it (`container_of`). What they hold is kept beside the
memory of the nodes. `malloc` is told the address it gives out.

Servers and proxies differ in the comparison only. The loops up and down a tree
get `rounds` rounds, those over all nodes of a tree get `limit`.
-/

namespace Smalltable.Ref.Rb

structure NodeHeap (α : Type) where
  mem : RbMemory := {}
  item : Addr → α

section Tree

variable {α β : Type}

/-- What a structure holds that is not freed. -/
def load (h : NodeHeap α) (p : Addr) : Option α := (h.mem.node p).map fun _ => h.item p

/-- `calloc`, and the fields that are filled in. -/
def calloc (p : Addr) (a : α) (h : NodeHeap α) : NodeHeap α :=
  { mem := { h.mem with node := Function.update h.mem.node p (some {}) }
    item := Function.update h.item p a }

def free (p : Addr) (h : NodeHeap α) : NodeHeap α :=
  { h with mem := { h.mem with node := Function.update h.mem.node p none } }

/-- The search for the place of a new item: its parent and the link it is put in, or
`none` when there is an equal item. -/
def insertLoop (cmp : α → Int) (h : NodeHeap α) : Nat → Addr → ChildLink →
    Option (Option (Addr × ChildLink))
  | 0, _, _ => none
  | rounds + 1, parent, new => do
      let p ← loadLink h.mem new
      if p = null then some (some (parent, new))
      else
        let item ← load h p
        if cmp item < 0 then insertLoop cmp h rounds p (.field .left p)
        else if cmp item > 0 then insertLoop cmp h rounds p (.field .right p)
        else some none

def treeInsert (cmp : α → α → Int) (rounds : Nat) (data : Addr) (h : NodeHeap α) :
    Option (NodeHeap α × Bool) := do
  let a ← load h data
  match ← insertLoop (cmp a) h rounds null .root with
  | none => some (h, false)
  | some (parent, new) =>
      let m ← rbLinkNode data parent new h.mem
      let m ← rbInsertColor rounds data m
      some ({ h with mem := m }, true)

/-- The item is freed again when there is an equal one. -/
def createItem (cmp : α → α → Int) (rounds : Nat) (p : Addr) (a : α) (h : NodeHeap α) :
    Option (NodeHeap α × Bool) := do
  let (h, r) ← treeInsert cmp rounds p (calloc p a h)
  if r then some (h, true) else some (free p h, false)

def delItem (rounds : Nat) (p : Addr) (h : NodeHeap α) : Option (NodeHeap α) := do
  let m ← rbErase rounds p h.mem
  some (free p { h with mem := m })

def freeAll (rounds : Nat) : Nat → NodeHeap α → Option (NodeHeap α)
  | 0, _ => none
  | limit + 1, h =>
      if h.mem.root = null then some h
      else do
        let h ← delItem rounds h.mem.root h
        freeAll rounds limit h

/-- The loop of `find_st_server`, for a comparison with what is looked for. -/
def findLoop (cmp : α → Int) (rounds : Nat) (h : NodeHeap α) : Nat → Addr → Option Addr
  | 0, _ => none
  | k + 1, node =>
      if node = null then some null
      else do
        let item ← load h node
        let n ← h.mem.node node
        if cmp item < 0 then findLoop cmp rounds h k n.rbLeft
        else
          let right ← rbNext rounds node h.mem
          if right = null then some node
          else
            let rightItem ← load h right
            if cmp rightItem < 0 then some node
            else findLoop cmp rounds h k n.rbRight

/-- The loops of `config_to_string`: the nodes they come to. -/
def walkLoop (rounds : Nat) (h : NodeHeap α) : Nat → Addr → Option (List Addr)
  | 0, _ => none
  | limit + 1, node =>
      if node = null then some []
      else do
        let next ← rbNext rounds node h.mem
        let rest ← walkLoop rounds h limit next
        some (node :: rest)

def walkNodes (rounds limit : Nat) (h : NodeHeap α) : Option (List Addr) := do
  let first ← rbFirst rounds h.mem
  walkLoop rounds h limit first

/-! ### Calls -/

/-- What is done with a tree. A new item comes with the address it is at. -/
inductive TreeCall (α β : Type) where
  | newItem (p : Addr) (a : α)
  | delItem (p : Addr)
  | find (key : β)
  | walk
  | freeAll

inductive TreeAnswer where
  | created (r : Bool)
  | deleted
  | found (p : Addr)
  | walked (nodes : List Addr)
  | freed
  deriving DecidableEq

def treeCall (cmp : α → α → Int) (find : β → α → Int) (rounds limit : Nat) (h : NodeHeap α) :
    TreeCall α β → Option (NodeHeap α × TreeAnswer)
  | .newItem p a => (createItem cmp rounds p a h).map fun r => (r.1, .created r.2)
  | .delItem p => (delItem rounds p h).map fun h => (h, .deleted)
  | .find key => (findLoop (find key) rounds h rounds h.mem.root).map fun p => (h, .found p)
  | .walk => (walkNodes rounds limit h).map fun nodes => (h, .walked nodes)
  | .freeAll => (freeAll rounds limit h).map fun h => (h, .freed)

def treeCalls (cmp : α → α → Int) (find : β → α → Int) (rounds limit : Nat) :
    NodeHeap α → List (TreeCall α β) → Option (NodeHeap α × List TreeAnswer)
  | h, [] => some (h, [])
  | h, c :: calls => do
      let (h, r) ← treeCall cmp find rounds limit h c
      let (h, rs) ← treeCalls cmp find rounds limit h calls
      some (h, r :: rs)

end Tree

/-! ## Servers and proxies -/

/-- `st_server_insert` -/
def stServerInsert : Nat → Addr → NodeHeap StServer → Option (NodeHeap StServer × Bool) :=
  treeInsert fun a b => keyCmp a.key b.key

/-- `new_st_server` -/
def newStServer : Nat → Addr → StServer → NodeHeap StServer →
    Option (NodeHeap StServer × Bool) :=
  createItem fun a b => keyCmp a.key b.key

/-- `del_st_server` -/
def delStServer : Nat → Addr → NodeHeap StServer → Option (NodeHeap StServer) := delItem

/-- `find_st_server` -/
def findStServer (rounds : Nat) (key : Bytes) (h : NodeHeap StServer) : Option Addr :=
  findLoop (fun item => keyCmp key item.key) rounds h rounds h.mem.root

/-- `free_all_servers` -/
def freeAllServers : Nat → Nat → NodeHeap StServer → Option (NodeHeap StServer) := freeAll

/-- `st_proxy_insert` -/
def stProxyInsert : Nat → Addr → NodeHeap StProxy → Option (NodeHeap StProxy × Bool) :=
  treeInsert proxyKeyCmp

/-- `new_st_proxy` -/
def newStProxy : Nat → Addr → StProxy → NodeHeap StProxy → Option (NodeHeap StProxy × Bool) :=
  createItem proxyKeyCmp

/-- `del_st_proxy` -/
def delStProxy : Nat → Addr → NodeHeap StProxy → Option (NodeHeap StProxy) := delItem

/-- `free_all_proxies` -/
def freeAllProxies : Nat → Nat → NodeHeap StProxy → Option (NodeHeap StProxy) := freeAll

end Smalltable.Ref.Rb
