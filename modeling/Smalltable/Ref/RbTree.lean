import Smalltable.Lib.RedBlack
import Smalltable.Ref.StServer

/-!
# Red-black trees in memory (`rbtree.h`, `rbtree.c`)

The nodes lie in memory and are known by their addresses. The parent of a node
and its colour share a word, of which addresses leave the last two bits free. A
root is a word of its own; the functions take it with the memory.

What follows a pointer that is not to a node is `none`, and so is a loop that is
still going on when the rounds it is given are used up. The functions that differ
in left and right only are one definition, with the side as a parameter, and
each function is that definition at its side.
-/

namespace Smalltable.Ref.Rb

abbrev Addr := BitVec 64

def null : Addr := 0

/-- The last two bits are free. -/
def Free (q : Addr) : Prop := q &&& 3 = 0

/-- An address of a node. -/
def Aligned (p : Addr) : Prop := p ≠ null ∧ Free p

instance (q : Addr) : Decidable (Free q) := inferInstanceAs (Decidable (_ = _))

instance (p : Addr) : Decidable (Aligned p) := inferInstanceAs (Decidable (_ ∧ _))

structure RbNode where
  rbParentColor : BitVec 64 := 0
  rbRight : Addr := null
  rbLeft : Addr := null
  deriving DecidableEq

def rbRed : BitVec 64 := 0
def rbBlack : BitVec 64 := 1

def rbParent (r : RbNode) : Addr := r.rbParentColor &&& ~~~3#64
def rbColor (r : RbNode) : BitVec 64 := r.rbParentColor &&& 1
def rbIsRed (r : RbNode) : Bool := rbColor r = 0
def rbIsBlack (r : RbNode) : Bool := rbColor r ≠ 0

/-- The memory, and the root of the tree that is worked on. -/
structure RbMemory where
  node : Addr → Option RbNode := fun _ => none
  root : Addr := null

def child : Side → RbNode → Addr
  | .left, r => r.rbLeft
  | .right, r => r.rbRight

def withChild : Side → Addr → RbNode → RbNode
  | .left, p, r => { r with rbLeft := p }
  | .right, p, r => { r with rbRight := p }

/-- An assignment to the fields of a node. -/
def assign (p : Addr) (f : RbNode → RbNode) (m : RbMemory) : Option RbMemory :=
  match m.node p with
  | none => none
  | some r => some { m with node := Function.update m.node p (some (f r)) }

def setChild (s : Side) (p q : Addr) : RbMemory → Option RbMemory := assign p (withChild s q)

def rbSetRed (p : Addr) : RbMemory → Option RbMemory :=
  assign p fun r => { r with rbParentColor := r.rbParentColor &&& ~~~1#64 }

def rbSetBlack (p : Addr) : RbMemory → Option RbMemory :=
  assign p fun r => { r with rbParentColor := r.rbParentColor ||| 1 }

def rbSetParent (p parent : Addr) : RbMemory → Option RbMemory :=
  assign p fun r => { r with rbParentColor := (r.rbParentColor &&& 3) ||| parent }

def rbSetColor (p : Addr) (color : BitVec 64) : RbMemory → Option RbMemory :=
  assign p fun r => { r with rbParentColor := (r.rbParentColor &&& ~~~1#64) ||| color }

/-- A `struct rb_node **`: the root or a field of a node. -/
inductive ChildLink where
  | root
  | field (s : Side) (p : Addr)

def loadLink (m : RbMemory) : ChildLink → Option Addr
  | .root => some m.root
  | .field s p => (m.node p).map (child s)

def storeLink (l : ChildLink) (p : Addr) (m : RbMemory) : Option RbMemory :=
  match l with
  | .root => some { m with root := p }
  | .field s q => setChild s q p m

/-- `rb_link_node` -/
def rbLinkNode (node parent : Addr) (link : ChildLink) (m : RbMemory) : Option RbMemory := do
  let m ← assign node (fun _ => ⟨parent, null, null⟩) m
  storeLink link node m

/-- Put `new` where `old` is: below `parent`, or at the root. The side that is
looked at first is `s`. -/
def replaceChild (s : Side) (parent old new : Addr) (m : RbMemory) : Option RbMemory := do
  if parent ≠ null then
    let r ← m.node parent
    if child s r = old then setChild s parent new m
    else setChild s.other parent new m
  else some { m with root := new }

/-- If there is such a node. -/
def setParentIf (p parent : Addr) (m : RbMemory) : Option RbMemory :=
  if p ≠ null then rbSetParent p parent m else some m

/-! ## Rotations -/

def rotate (s : Side) (node : Addr) (m : RbMemory) : Option RbMemory := do
  let n ← m.node node
  let right := child s.other n
  let parent := rbParent n
  let r ← m.node right
  let m ← setChild s.other node (child s r) m
  let m ← setParentIf (child s r) node m
  let m ← setChild s right node m
  let m ← rbSetParent right parent m
  let m ← replaceChild s parent node right m
  rbSetParent node right m

/-- `__rb_rotate_left` -/
def rbRotateLeft : Addr → RbMemory → Option RbMemory := rotate .left

/-- `__rb_rotate_right` -/
def rbRotateRight : Addr → RbMemory → Option RbMemory := rotate .right

/-! ## Insertion -/

/-- Red, and not `NULL`. -/
def redChild (p : Addr) (m : RbMemory) : Option Bool :=
  if p = null then some false else (m.node p).map rbIsRed

/-- The branches of the loop of `rb_insert_color` for a parent on the side `s` of
`gparent`: the memory, and the node to go on with. -/
def insertRound (s : Side) (node parent gparent : Addr) (m : RbMemory) :
    Option (RbMemory × Addr) := do
  let g ← m.node gparent
  let uncle := child s.other g
  if ← redChild uncle m then
    let m ← rbSetBlack uncle m
    let m ← rbSetBlack parent m
    let m ← rbSetRed gparent m
    some (m, gparent)
  else
    let p ← m.node parent
    let (m, parent, node) ←
      if child s.other p = node then (rotate s parent m).map fun m => (m, node, parent)
      else some (m, parent, node)
    let m ← rbSetBlack parent m
    let m ← rbSetRed gparent m
    let m ← rotate s.other gparent m
    some (m, node)

def insertColorLoop : Nat → Addr → RbMemory → Option RbMemory
  | 0, _, _ => none
  | rounds + 1, node, m => do
      let n ← m.node node
      let parent := rbParent n
      if parent = null then some m
      else
        let p ← m.node parent
        if rbIsRed p then
          let gparent := rbParent p
          let g ← m.node gparent
          let (m, node) ← insertRound (if parent = g.rbLeft then .left else .right)
            node parent gparent m
          insertColorLoop rounds node m
        else some m

/-- `rb_insert_color` -/
def rbInsertColor (rounds : Nat) (node : Addr) (m : RbMemory) : Option RbMemory := do
  let m ← insertColorLoop rounds node m
  rbSetBlack m.root m

/-! ## Removal -/

/-- Black, or `NULL`. -/
def blackChild (p : Addr) (m : RbMemory) : Option Bool :=
  if p = null then some true else (m.node p).map rbIsBlack

/-- What a round of `__rb_erase_color` ends with. -/
inductive EraseRound where
  | goOn (node parent : Addr)
  | leave (node : Addr)

/-- The first `if` of a round: a red sibling is rotated up. The sibling there is
then, and the memory. -/
def raiseSibling (s : Side) (parent other : Addr) (m : RbMemory) :
    Option (RbMemory × Addr) := do
  let o ← m.node other
  if rbIsRed o then
    let m ← rbSetBlack other m
    let m ← rbSetRed parent m
    let m ← rotate s parent m
    let p ← m.node parent
    some (m, child s.other p)
  else some (m, other)

/-- The last `if`: a black outer child of the sibling is replaced. -/
def turnSibling (s : Side) (parent other : Addr) (m : RbMemory) :
    Option (RbMemory × Addr) := do
  let o ← m.node other
  if ← blackChild (child s.other o) m then
    let m ← rbSetBlack (child s o) m
    let m ← rbSetRed other m
    let m ← rotate s.other other m
    let p ← m.node parent
    some (m, child s.other p)
  else some (m, other)

/-- The rest of that branch. -/
def eraseTurn (s : Side) (parent other : Addr) (m : RbMemory) : Option RbMemory := do
  let p ← m.node parent
  let m ← rbSetColor other (rbColor p) m
  let m ← rbSetBlack parent m
  let o ← m.node other
  let m ← rbSetBlack (child s.other o) m
  rotate s parent m

/-- The branches of the loop of `__rb_erase_color` for a node on the side `s` of
`parent`. -/
def eraseRound (s : Side) (parent : Addr) (m : RbMemory) : Option (RbMemory × EraseRound) := do
  let p ← m.node parent
  let (m, other) ← raiseSibling s parent (child s.other p) m
  let o ← m.node other
  if (← blackChild o.rbLeft m) && (← blackChild o.rbRight m) then
    let m ← rbSetRed other m
    let p ← m.node parent
    some (m, .goOn parent (rbParent p))
  else
    let (m, other) ← turnSibling s parent other m
    let m ← eraseTurn s parent other m
    some (m, .leave m.root)

/-- The loop, and the node it ends with. -/
def eraseColorLoop : Nat → Addr → Addr → RbMemory → Option (RbMemory × Addr)
  | 0, _, _, _ => none
  | rounds + 1, node, parent, m => do
      if (← blackChild node m) ∧ node ≠ m.root then
        let p ← m.node parent
        let (m, r) ← eraseRound (if p.rbLeft = node then .left else .right) parent m
        match r with
        | .goOn node parent => eraseColorLoop rounds node parent m
        | .leave node => some (m, node)
      else some (m, node)

/-- `__rb_erase_color` -/
def rbEraseColor (rounds : Nat) (node parent : Addr) (m : RbMemory) : Option RbMemory := do
  let (m, node) ← eraseColorLoop rounds node parent m
  if node ≠ null then rbSetBlack node m else some m

/-- The loops `while (n->rb_left) n = n->rb_left` and to the right. -/
def descend (s : Side) : Nat → Addr → RbMemory → Option Addr
  | 0, _, _ => none
  | rounds + 1, n, m => do
      let r ← m.node n
      if child s r ≠ null then descend s rounds (child s r) m else some n

/-- A node with one child or none: the child takes its place. -/
def eraseOuter (node child : Addr) (m : RbMemory) :
    Option (RbMemory × Addr × BitVec 64) := do
  let n ← m.node node
  let parent := rbParent n
  let color := rbColor n
  let m ← setParentIf child parent m
  let m ← replaceChild .left parent node child m
  some (m, parent, color)

/-- The successor `node` of `old` leaves its place, unless it is the right child. The
memory, and the parent of the place that is one node short. -/
def eraseDetach (old node child parent : Addr) (m : RbMemory) : Option (RbMemory × Addr) :=
  if parent = old then some (m, node)
  else do
    let m ← setParentIf child parent m
    let m ← setChild .left parent child m
    let o ← m.node old
    let m ← setChild .right node o.rbRight m
    let m ← rbSetParent o.rbRight node m
    some (m, parent)

/-- A node with two children: its successor `node` takes its place. -/
def eraseInner (old node : Addr) (m : RbMemory) :
    Option (RbMemory × Addr × Addr × BitVec 64) := do
  let o ← m.node old
  let m ← replaceChild .left (rbParent o) old node m
  let n ← m.node node
  let child := n.rbRight
  let color := rbColor n
  let (m, parent) ← eraseDetach old node child (rbParent n) m
  let o ← m.node old
  let m ← assign node (fun r => { r with rbParentColor := o.rbParentColor }) m
  let m ← setChild .left node o.rbLeft m
  let m ← rbSetParent o.rbLeft node m
  some (m, child, parent, color)

/-- Up to the label `color`. -/
def takeOut (rounds : Nat) (node : Addr) (m : RbMemory) :
    Option (RbMemory × Addr × Addr × BitVec 64) := do
  let n ← m.node node
  if n.rbLeft = null then
    let (m, parent, color) ← eraseOuter node n.rbRight m
    some (m, n.rbRight, parent, color)
  else if n.rbRight = null then
    let (m, parent, color) ← eraseOuter node n.rbLeft m
    some (m, n.rbLeft, parent, color)
  else
    let next ← descend .left rounds n.rbRight m
    eraseInner node next m

/-- `rb_erase` -/
def rbErase (rounds : Nat) (node : Addr) (m : RbMemory) : Option RbMemory := do
  let (m, child, parent, color) ← takeOut rounds node m
  if color = rbBlack then rbEraseColor rounds child parent m else some m

/-! ## In order -/

def outermost (s : Side) (rounds : Nat) (m : RbMemory) : Option Addr :=
  if m.root = null then some null else descend s rounds m.root m

/-- `rb_first` -/
def rbFirst : Nat → RbMemory → Option Addr := outermost .left

/-- `rb_last` -/
def rbLast : Nat → RbMemory → Option Addr := outermost .right

/-- Up as long as the node is a child on the side `s`. -/
def ascend (s : Side) : Nat → Addr → RbMemory → Option Addr
  | 0, _, _ => none
  | rounds + 1, node, m => do
      let n ← m.node node
      let parent := rbParent n
      if parent = null then some parent
      else
        let p ← m.node parent
        if node = child s p then ascend s rounds parent m else some parent

/-- The neighbour of a node on the side `s`. -/
def neighbour (s : Side) (rounds : Nat) (node : Addr) (m : RbMemory) : Option Addr := do
  let n ← m.node node
  if rbParent n = node then some null
  else if child s n ≠ null then descend s.other rounds (child s n) m
  else ascend s rounds node m

/-- `rb_next` -/
def rbNext : Nat → Addr → RbMemory → Option Addr := neighbour .right

/-- `rb_prev` -/
def rbPrev : Nat → Addr → RbMemory → Option Addr := neighbour .left

end Smalltable.Ref.Rb
