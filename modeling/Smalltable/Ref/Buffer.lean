import Smalltable.Lib.Bytes

/-!
# Growing byte buffers (`buffer.c`)

`struct buffer` is a block from a shared pool with two offsets into it. Data
is appended at `stop_off` and taken from `start_off`; the offsets only rewind
when they meet, and then the block goes back to the pool. The pool hands out
the block that was returned last, with the size it had grown to.

A block is modelled by what lies in it up to `stop_off`, so that giving bytes
back (`buf_rollback_produced`) and writing over them again is what it is in
the source. The offsets and the size are unbounded integers here: that they
stay inside a C `int` is a property to be proved, not one to assume. To state
on what it depends, a buffer keeps a history of the requests for room and of
the bytes given back; nothing reads it.
-/

namespace Smalltable.Ref

/-- `INITIAL_BUF_SIZE`, a bit more than 4 megs. -/
def initialBufSize : Int := (4096 + 128) * 1024

theorem initialBufSize_eq : initialBufSize = 4325376 := rfl

/-- `mem_pool_first`: the sizes of the free blocks, last returned first. -/
abbrev Pool := List Int

/-- An operation that can take a buffer out of range. -/
inductive BufOp where
  /-- a call of `buf_get_writer` for `minSize` bytes at `stopOff` -/
  | writer (stopOff minSize : Int)
  /-- a call of `buf_rollback_produced` on a buffer with `used` bytes in it -/
  | rollback (used rollbackSz : Int)
  deriving DecidableEq

structure Buffer where
  /-- `buf != NULL` -/
  allocated : Bool := false
  bufSz : Int := 0
  startOff : Int := 0
  stopOff : Int := 0
  /-- `buf[0 .. stop_off)` -/
  mem : Bytes := []
  /-- history, last first -/
  ops : List BufOp := []
  deriving DecidableEq

def poolGet : Pool → Int × Pool
  | [] => (initialBufSize, [])
  | sz :: rest => (sz, rest)

def poolPut (p : Pool) (sz : Int) : Pool := sz :: p

/-- The growth loop of `_buf_alloc`. Each round adds a whole block size, so a
round per missing byte is more than enough. -/
def growBuf (stopOff minSize : Int) : Nat → Int → Int
  | 0, bufSz => bufSz
  | n + 1, bufSz =>
      if bufSz - stopOff ≤ minSize then
        growBuf stopOff minSize n (bufSz + initialBufSize)
      else bufSz

/-- The first half of `_buf_alloc`: a buffer without a block gets one. -/
def bufTakeBlock (p : Pool) (b : Buffer) : Pool × Buffer :=
  if b.allocated then (p, b)
  else ((poolGet p).2, { b with allocated := true, bufSz := (poolGet p).1 })

/-- `_buf_alloc` -/
def bufAlloc (p : Pool) (b : Buffer) (minSize : Int) : Pool × Buffer :=
  let a := bufTakeBlock p b
  let fuel := (minSize + a.2.stopOff + 1 - a.2.bufSz).toNat
  (a.1, { a.2 with
    bufSz := growBuf a.2.stopOff minSize fuel a.2.bufSz
    ops := .writer a.2.stopOff minSize :: a.2.ops })

/-- `_buf_free` -/
def bufRelease (p : Pool) (b : Buffer) : Pool × Buffer :=
  (poolPut p b.bufSz, { b with allocated := false, bufSz := 0 })

def bufFree (p : Pool) (b : Buffer) : Pool × Buffer :=
  if b.allocated then bufRelease p b else (p, b)

/-- The writer's region is `buf[stop_off .. buf_sz)`; its size comes third. -/
def bufGetWriter (p : Pool) (b : Buffer) (minSize : Int) : Pool × Buffer × Int :=
  let a := bufAlloc p b minSize
  (a.1, a.2, a.2.bufSz - a.2.stopOff)

def bufGetReader (b : Buffer) : Bytes := b.mem.drop b.startOff.toNat

def bufGetUsed (b : Buffer) : Int := b.stopOff - b.startOff

/-- `buf_produce`, of bytes the caller has put into the writer's region. -/
def bufProduce (b : Buffer) (bs : Bytes) : Buffer :=
  { b with stopOff := b.stopOff + bs.length, mem := b.mem ++ bs }

def bufRollbackProduced (b : Buffer) (rollbackSz : Int) : Buffer :=
  { b with stopOff := b.stopOff - rollbackSz,
           mem := b.mem.take (b.stopOff - rollbackSz).toNat,
           ops := .rollback (bufGetUsed b) rollbackSz :: b.ops }

def bufConsume (p : Pool) (b : Buffer) (consumedSz : Int) : Pool × Buffer :=
  let b := { b with startOff := b.startOff + consumedSz }
  if b.startOff = b.stopOff then
    bufRelease p { b with startOff := 0, stopOff := 0, mem := [] }
  else (p, b)

/-! ## The size of the block -/

theorem growBuf_ge (stopOff minSize : Int) :
    ∀ (n : Nat) (bufSz : Int), bufSz ≤ growBuf stopOff minSize n bufSz := by
  intro n
  induction n with
  | zero => intro bufSz; exact Int.le_refl _
  | succ n ih =>
      intro bufSz
      rw [growBuf]
      split
      · have h := ih (bufSz + initialBufSize)
        rw [initialBufSize_eq] at h ⊢
        omega
      · exact Int.le_refl _

/-- The loop leaves room: it only stops once more than `min_size` is free. -/
theorem growBuf_room (stopOff minSize : Int) :
    ∀ (n : Nat) (bufSz : Int), minSize + stopOff + 1 - bufSz ≤ n →
      minSize < growBuf stopOff minSize n bufSz - stopOff := by
  intro n
  induction n with
  | zero => intro bufSz h; rw [growBuf]; omega
  | succ n ih =>
      intro bufSz h
      rw [growBuf]
      split
      · refine ih _ ?_
        rw [initialBufSize_eq]
        omega
      · omega

/-- And it adds no more than it has to: a block that was grown has at most
one block size over what was asked for. -/
theorem growBuf_le (stopOff minSize : Int) :
    ∀ (n : Nat) (bufSz : Int), growBuf stopOff minSize n bufSz ≤ bufSz ∨
      growBuf stopOff minSize n bufSz ≤ minSize + stopOff + initialBufSize := by
  intro n
  induction n with
  | zero => intro bufSz; exact .inl (Int.le_refl _)
  | succ n ih =>
      intro bufSz
      rw [growBuf]
      split
      · rcases ih (bufSz + initialBufSize) with h | h
        · exact .inr (by omega)
        · exact .inr h
      · exact .inl (Int.le_refl _)

/-! ## What a buffer holds

`Buffer.Ok` is the picture drawn in `buffer.h`, without the upper end: the
offsets are in order and the block holds as many bytes as `stop_off` says.
`Buffer.Holds` adds what a reader sees, and each operation is known by what it
does to that. -/

structure Buffer.Ok (b : Buffer) : Prop where
  start_nonneg : 0 ≤ b.startOff
  start_le_stop : b.startOff ≤ b.stopOff
  mem_length : (b.mem.length : Int) = b.stopOff

/-- A buffer in order whose unread bytes are `bs`. -/
structure Buffer.Holds (b : Buffer) (bs : Bytes) : Prop extends b.Ok where
  reader : bufGetReader b = bs

theorem Buffer.holds_empty : Buffer.Holds {} [] :=
  ⟨⟨by decide, by decide, by decide⟩, rfl⟩

theorem Buffer.Ok.holds {b : Buffer} (h : b.Ok) : b.Holds (bufGetReader b) := ⟨h, rfl⟩

theorem Buffer.Holds.used {b : Buffer} {bs : Bytes} (h : b.Holds bs) :
    bufGetUsed b = bs.length := by
  have h1 := h.start_nonneg
  have h2 := h.start_le_stop
  have h3 := h.mem_length
  rw [← h.reader, bufGetUsed, bufGetReader, List.length_drop]
  omega

theorem Buffer.Holds.of_eq {b b' : Buffer} {bs : Bytes} (h : b.Holds bs)
    (hstart : b'.startOff = b.startOff) (hstop : b'.stopOff = b.stopOff)
    (hmem : b'.mem = b.mem) : b'.Holds bs := by
  refine ⟨⟨?_, ?_, ?_⟩, ?_⟩
  · rw [hstart]; exact h.start_nonneg
  · rw [hstart, hstop]; exact h.start_le_stop
  · rw [hmem, hstop]; exact h.mem_length
  · rw [bufGetReader, hmem, hstart]; exact h.reader

theorem bufTakeBlock_offsets (p : Pool) (b : Buffer) :
    (bufTakeBlock p b).2.startOff = b.startOff ∧
      (bufTakeBlock p b).2.stopOff = b.stopOff ∧ (bufTakeBlock p b).2.mem = b.mem := by
  rw [bufTakeBlock]
  split <;> exact ⟨rfl, rfl, rfl⟩

theorem bufGetWriter_holds {b : Buffer} {bs : Bytes} (h : b.Holds bs) (p : Pool)
    (minSize : Int) : (bufGetWriter p b minSize).2.1.Holds bs := by
  obtain ⟨h1, h2, h3⟩ := bufTakeBlock_offsets p b
  exact h.of_eq h1 h2 h3

/-- The room a writer is given is more than it asked for. -/
theorem bufGetWriter_room (p : Pool) (b : Buffer) (minSize : Int) :
    minSize < (bufGetWriter p b minSize).2.2 := by
  refine growBuf_room _ _ _ _ ?_
  exact Int.self_le_toNat _

theorem bufProduce_holds {b : Buffer} {bs : Bytes} (h : b.Holds bs) (xs : Bytes) :
    (bufProduce b xs).Holds (bs ++ xs) := by
  have h1 := h.start_nonneg
  have h2 := h.start_le_stop
  have h3 := h.mem_length
  refine ⟨⟨h1, ?_, ?_⟩, ?_⟩
  · show b.startOff ≤ b.stopOff + xs.length
    omega
  · show ((b.mem ++ xs).length : Int) = b.stopOff + xs.length
    rw [List.length_append]
    omega
  · show (b.mem ++ xs).drop b.startOff.toNat = bs ++ xs
    rw [List.drop_append_of_le_length (by omega)]
    exact congrArg (· ++ xs) h.reader

theorem bufConsume_holds {p : Pool} {b : Buffer} {xs ys : Bytes} {n : Int}
    (h : b.Holds (xs ++ ys)) (hn : n = xs.length) :
    (bufConsume p b n).2.Holds ys := by
  have h1 := h.start_nonneg
  have h2 := h.start_le_stop
  have h3 := h.mem_length
  have hused : b.stopOff - b.startOff = ((xs ++ ys).length : Nat) := h.used
  rw [List.length_append] at hused
  rw [bufConsume]
  split
  · next heq =>
      -- the offsets met, so nothing was left to read
      have hys : ys = [] := by
        have heq : b.startOff + n = b.stopOff := heq
        exact List.eq_nil_of_length_eq_zero (by omega)
      subst hys
      exact Buffer.holds_empty.of_eq rfl rfl rfl
  · refine ⟨⟨?_, ?_, h3⟩, ?_⟩
    · show 0 ≤ b.startOff + n
      omega
    · show b.startOff + n ≤ b.stopOff
      omega
    · show b.mem.drop (b.startOff + n).toNat = ys
      have hsum : (b.startOff + n).toNat = b.startOff.toNat + xs.length := by omega
      have hr : b.mem.drop b.startOff.toNat = xs ++ ys := h.reader
      rw [hsum, ← List.drop_drop, hr, List.drop_left]

theorem bufRollbackProduced_holds {b : Buffer} {xs ys : Bytes} {n : Int}
    (h : b.Holds (xs ++ ys)) (hn : n = ys.length) :
    (bufRollbackProduced b n).Holds xs := by
  have h1 := h.start_nonneg
  have h3 := h.mem_length
  have hused : b.stopOff - b.startOff = ((xs ++ ys).length : Nat) := h.used
  rw [List.length_append] at hused
  refine ⟨⟨h1, ?_, ?_⟩, ?_⟩
  · show b.startOff ≤ b.stopOff - n
    omega
  · show ((b.mem.take (b.stopOff - n).toNat).length : Int) = b.stopOff - n
    rw [List.length_take]
    omega
  · show (b.mem.take (b.stopOff - n).toNat).drop b.startOff.toNat = xs
    have hr : b.mem.drop b.startOff.toNat = xs ++ ys := h.reader
    rw [List.drop_take, hr, List.take_left']
    omega

end Smalltable.Ref
