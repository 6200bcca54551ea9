import Mathlib.Data.Finset.Card
import Mathlib.Logic.Function.Basic
import Smalltable.Ref.Buffer

/-!
# Where the blocks lie (`buffer.c`)

In `Ref.Buffer` a buffer has what lies in its block, and the pool is a list of sizes. Here
the blocks are in memory, and a buffer and the pool have pointers to them: the first bytes
of a free block are overwritten with the pointer to the next one and with its size. The
functions have the same names as there.

Where memory is used that is not allocated, or fields of a free block are read that have
been written over, there is no result. `malloc` and `realloc` give out any address that is
not in use, and may fail the first time.
-/

namespace Smalltable.Ref.Blocks

abbrev Addr := Nat

structure Block where
  size : Int
  /-- `none` is a byte nobody has written. -/
  byte : Int → Option UInt8 := fun _ => none
  /-- `next` and `buf_sz` of a `struct mem_pool_item`, as long as they are intact -/
  item : Option (Option Addr × Int) := none

structure Heap where
  live : Finset Addr := ∅
  block : Addr → Block

/-- `offsetof(struct mem_pool_item, rest)` -/
def itemSize : Int := 12

namespace Heap

def peek (h : Heap) (p : Option Addr) (i : Int) : Option UInt8 :=
  match p with
  | none => none
  | some a => if a ∈ h.live ∧ 0 ≤ i ∧ i < (h.block a).size then (h.block a).byte i else none

def peeks (h : Heap) (p : Option Addr) : Int → Nat → Option Bytes
  | _, 0 => some []
  | i, n + 1 =>
      match h.peek p i, h.peeks p (i + 1) n with
      | some c, some cs => some (c :: cs)
      | _, _ => none

def poke (h : Heap) (p : Option Addr) (i : Int) (c : UInt8) : Option Heap :=
  match p with
  | none => none
  | some a =>
      if a ∈ h.live ∧ 0 ≤ i ∧ i < (h.block a).size then
        some { h with block := Function.update h.block a { h.block a with
          byte := Function.update (h.block a).byte i (some c)
          item := if i < itemSize then none else (h.block a).item } }
      else none

def pokes (h : Heap) (p : Option Addr) (i : Int) : Bytes → Option Heap
  | [] => some h
  | c :: cs =>
      match h.poke p i c with
      | none => none
      | some h => h.pokes p (i + 1) cs

/-- The fields `next` and `buf_sz`. -/
def item (h : Heap) (a : Addr) : Option (Option Addr × Int) :=
  if a ∈ h.live then (h.block a).item else none

def putItem (h : Heap) (a : Addr) (next : Option Addr) (bufSz : Int) : Option Heap :=
  if a ∈ h.live ∧ itemSize ≤ (h.block a).size then
    some { h with block := Function.update h.block a { h.block a with
      byte := fun i => if i < itemSize then none else (h.block a).byte i
      item := some (next, bufSz) } }
  else none

def malloc (h : Heap) (size : Int) (a : Addr) : Option Heap :=
  if a ∈ h.live then none
  else some { live := insert a h.live, block := Function.update h.block a { size := size } }

def free (h : Heap) (a : Addr) : Option Heap :=
  if a ∈ h.live then some { h with live := h.live.erase a } else none

/-- A block is made larger, and may be moved to `a`. -/
def realloc (h : Heap) (p : Addr) (size : Int) (a : Addr) : Option Heap :=
  if p ∈ h.live ∧ a ∉ h.live.erase p then
    some {
      live := insert a (h.live.erase p)
      block := Function.update h.block a { h.block p with
        size := size
        byte := fun i => if i < (h.block p).size then (h.block p).byte i else none } }
  else none

end Heap

/-- `struct buffer` -/
structure StructBuffer where
  buf : Option Addr := none
  bufSz : Int := 0
  startOff : Int := 0
  stopOff : Int := 0
  deriving DecidableEq

/-- The buffers of a program have the names `ι`. -/
structure Memory (ι : Type) where
  heap : Heap
  memPoolFirst : Option Addr := none
  buffer : ι → StructBuffer

/-- What `malloc` and `realloc` do in one call; they fail once at most. -/
structure Allocation where
  mallocAt : Addr
  mallocFails : Bool := false
  reallocAt : Addr
  reallocFails : Bool := false

section Pool

variable {ι : Type}

/-- The loop of `pool_free`. No block is freed twice, so their number is enough. -/
def poolFreeLoop : Nat → Heap → Option Addr → Option Heap
  | _, h, none => some h
  | 0, _, some _ => none
  | n + 1, h, some a =>
      match h.item a with
      | none => none
      | some (next, _) =>
          match h.free a with
          | none => none
          | some h => poolFreeLoop n h next

def poolFree (m : Memory ι) : Option (Memory ι) :=
  (poolFreeLoop m.heap.live.card m.heap m.memPoolFirst).map fun h =>
    { m with heap := h, memPoolFirst := none }

/-- Between two attempts in `st_malloc` and `st_realloc`. -/
def retry (failed : Bool) (m : Memory ι) : Option (Memory ι) :=
  if failed then poolFree m else some m

def poolGet (m : Memory ι) (c : Allocation) : Option (Memory ι × Addr × Int) :=
  match m.memPoolFirst with
  | none =>
      match retry c.mallocFails m with
      | none => none
      | some m =>
          (m.heap.malloc initialBufSize c.mallocAt).map fun h =>
            ({ m with heap := h }, c.mallocAt, initialBufSize)
  | some a => (m.heap.item a).map fun item => ({ m with memPoolFirst := item.1 }, a, item.2)

def poolPut (m : Memory ι) (a : Addr) (bufSz : Int) : Option (Memory ι) :=
  (m.heap.putItem a m.memPoolFirst bufSz).map fun h =>
    { m with heap := h, memPoolFirst := some a }

end Pool

section Buffers

variable {ι : Type} [DecidableEq ι]

def Memory.put (m : Memory ι) (i : ι) (b : StructBuffer) : Memory ι :=
  { m with buffer := Function.update m.buffer i b }

def bufTakeBlock (m : Memory ι) (i : ι) (c : Allocation) : Option (Memory ι) :=
  if (m.buffer i).buf = none then
    (poolGet m c).map fun r => r.1.put i { m.buffer i with buf := some r.2.1, bufSz := r.2.2 }
  else some m

/-- `st_realloc` to the size the loop of `_buf_alloc` has come to -/
def bufRealloc (m : Memory ι) (i : ι) (bufSz : Int) (c : Allocation) : Option (Memory ι) :=
  match (m.buffer i).buf, retry c.reallocFails m with
  | some p, some m =>
      (m.heap.realloc p bufSz c.reallocAt).map fun h =>
        ({ m with heap := h } : Memory ι).put i
          { m.buffer i with buf := some c.reallocAt, bufSz := bufSz }
  | _, _ => none

/-- `_buf_alloc` -/
def bufAlloc (m : Memory ι) (i : ι) (minSize : Int) (c : Allocation) : Option (Memory ι) :=
  match bufTakeBlock m i c with
  | none => none
  | some m =>
      let b := m.buffer i
      let fuel := (minSize + b.stopOff + 1 - b.bufSz).toNat
      if b.bufSz - b.stopOff ≤ minSize then
        bufRealloc m i (growBuf b.stopOff minSize fuel b.bufSz) c
      else some m

/-- The size `buf_get_writer` returns; the region begins at `stop_off`. -/
def writerSize (b : StructBuffer) : Int := b.bufSz - b.stopOff

def bufGetReader (m : Memory ι) (i : ι) : Option Bytes :=
  let b := m.buffer i
  m.heap.peeks b.buf b.startOff (b.stopOff - b.startOff).toNat

def bufProduce (b : StructBuffer) (producedSz : Int) : StructBuffer :=
  { b with stopOff := b.stopOff + producedSz }

def bufRollbackProduced (b : StructBuffer) (rollbackSz : Int) : StructBuffer :=
  { b with stopOff := b.stopOff - rollbackSz }

/-- `_buf_free` -/
def bufRelease (m : Memory ι) (i : ι) : Option (Memory ι) :=
  match (m.buffer i).buf with
  | none => none
  | some a =>
      (poolPut m a (m.buffer i).bufSz).map fun m' =>
        m'.put i { m.buffer i with bufSz := 0, buf := none }

def bufFree (m : Memory ι) (i : ι) : Option (Memory ι) :=
  if (m.buffer i).buf ≠ none then bufRelease m i else some m

def bufConsume (m : Memory ι) (i : ι) (consumedSz : Int) : Option (Memory ι) :=
  let b := { m.buffer i with startOff := (m.buffer i).startOff + consumedSz }
  if b.startOff = b.stopOff then bufRelease (m.put i { b with startOff := 0, stopOff := 0 }) i
  else some (m.put i b)

/-- What the program does with its buffers. -/
inductive PoolOp (ι : Type) where
  | getWriter (i : ι) (minSize : Int) (c : Allocation)
  /-- bytes are put into the writer's region, and produced -/
  | produce (i : ι) (bs : Bytes)
  | getReader (i : ι)
  | consume (i : ι) (n : Int)
  | rollback (i : ι) (n : Int)
  | free (i : ι)
  | poolFree

def poolStep (m : Memory ι) : PoolOp ι → Option (Memory ι)
  | .getWriter i minSize c => bufAlloc m i minSize c
  | .produce i bs =>
      (m.heap.pokes (m.buffer i).buf (m.buffer i).stopOff bs).map fun h =>
        ({ m with heap := h } : Memory ι).put i (bufProduce (m.buffer i) bs.length)
  | .getReader i => (bufGetReader m i).map fun _ => m
  | .consume i n => bufConsume m i n
  | .rollback i n => some (m.put i (bufRollbackProduced (m.buffer i) n))
  | .free i => bufFree m i
  | .poolFree => poolFree m

end Buffers

end Smalltable.Ref.Blocks
