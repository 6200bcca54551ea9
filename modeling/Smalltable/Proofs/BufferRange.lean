import Smalltable.Lib.Transition
import Smalltable.Proofs.IoMoves
import Smalltable.Proofs.StoreRefine
import Smalltable.Ref.Connection

/-!
# The range of the buffer offsets

`start_off`, `stop_off` and `buf_sz` are C `int`s. A block grows by whole
`INITIAL_BUF_SIZE`s, and 496 of these are the most that an `int` can count, so
`buf_get_writer` stays in range as long as `stop_off + min_size` is below
496 of them. Nothing in the source sees to that: `retry_recv` reads on for as
long as `recv` fills the block, and a request that declares a large body is
waited for whole.

The invariant for whole runs of a connection, among other connections that change
the pool and the world between its steps, is `RangeInv`: as long as each
operation fits, all is in range. What has to be the case for that is another
matter, and has a module of its own. Here there is only the stream that shows
that something has to (`connection_range_overflow`).
-/

namespace Smalltable.Proofs

open Smalltable.Ref Smalltable.Spec Relation

/-! ## Sizes of blocks

A block is made larger in one go, by as many `INITIAL_BUF_SIZE`s as it takes; a block
that comes from the pool was made so before. -/

/-- The most blocks of the initial size that an `int` can count. -/
def maxBlocks : Nat := 496

/-- The first offset out of reach of a writer. -/
def writerLimit : Int := maxBlocks * initialBufSize

def intMax : Int := 2 ^ 31 - 1

theorem writerLimit_eq : writerLimit = 2145386496 := rfl

theorem writerLimit_le : writerLimit ≤ intMax ∧ intMax < writerLimit + initialBufSize := by
  decide

/-- A size a block can have grown to, in range. -/
def GoodSize (sz : Int) : Prop := ∃ k : Nat, 1 ≤ k ∧ k ≤ maxBlocks ∧ sz = k * initialBufSize

theorem GoodSize.le {sz : Int} (h : GoodSize sz) : 0 < sz ∧ sz ≤ writerLimit := by
  obtain ⟨k, h1, h2, rfl⟩ := h
  rw [maxBlocks] at h2
  rw [writerLimit_eq, initialBufSize_eq]
  omega

theorem growBuf_good {stopOff minSize : Int} (hfit : stopOff + minSize < writerLimit) :
    ∀ (n : Nat) (sz : Int), GoodSize sz → GoodSize (growBuf stopOff minSize n sz) := by
  intro n
  induction n with
  | zero => intro sz h; exact h
  | succ n ih =>
      intro sz h
      rw [growBuf]
      split
      · next hsmall =>
          obtain ⟨k, h1, h2, rfl⟩ := h
          refine ih _ ⟨k + 1, by omega, ?_, ?_⟩
          · rw [writerLimit_eq] at hfit
            rw [initialBufSize_eq] at hsmall
            rw [maxBlocks]
            omega
          · rw [initialBufSize_eq]
            omega
      · exact h

/-! ## Buffers in range

`InRange` is what the source relies on, `Sized` what is kept by the operations: apart
from the offsets it says that the size of the block is one of the good ones, and so must
every size in the pool be. -/

/-- A request for room that the block can grow to, or bytes given back that are
there to be given back. -/
def FittingOp : BufOp → Prop
  | .writer stopOff minSize => stopOff + minSize < writerLimit
  | .rollback used rollbackSz => 0 ≤ rollbackSz ∧ rollbackSz ≤ used

/-- The picture in `buffer.h`, with a C `int` as the upper end. -/
structure InRange (b : Buffer) : Prop where
  start_nonneg : 0 ≤ b.startOff
  start_le_stop : b.startOff ≤ b.stopOff
  stop_le_size : b.stopOff ≤ b.bufSz
  size_le : b.bufSz ≤ intMax

/-- What the operations keep of a buffer, beside the offsets: it has a block of a good
size or none, and ends within it. -/
structure Sized (b : Buffer) : Prop extends b.Ok where
  block : b.allocated = true → GoodSize b.bufSz
  bare : b.allocated = false → b.bufSz = 0
  stop_le : b.stopOff ≤ b.bufSz

theorem Sized.inRange {b : Buffer} (h : Sized b) : InRange b := by
  refine ⟨h.start_nonneg, h.start_le_stop, h.stop_le, ?_⟩
  cases hal : b.allocated with
  | true => exact (h.block hal).le.2.trans writerLimit_le.1
  | false => rw [h.bare hal]; decide

/-- Whatever block is taken from the pool has a good size. -/
def GoodPool (p : Pool) : Prop := ∀ sz ∈ p, GoodSize sz

theorem sized_empty : Sized {} :=
  ⟨⟨by decide, by decide, by decide⟩, nofun, fun _ => rfl, by decide⟩

theorem bufTakeBlock_sized {p : Pool} {b : Buffer} (hp : GoodPool p) (hb : Sized b) :
    GoodPool (bufTakeBlock p b).1 ∧ Sized (bufTakeBlock p b).2 ∧
      GoodSize (bufTakeBlock p b).2.bufSz := by
  unfold bufTakeBlock
  split
  · next hal => exact ⟨hp, hb, hb.block hal⟩
  · next hal =>
      have hbare : b.bufSz = 0 := hb.bare (by simpa using hal)
      have hgood : GoodSize (poolGet p).1 ∧ GoodPool (poolGet p).2 := by
        cases p with
        | nil => exact ⟨⟨1, by decide, by decide, rfl⟩, hp⟩
        | cons sz rest =>
            exact ⟨hp sz List.mem_cons_self, fun x hx => hp x (List.mem_cons_of_mem _ hx)⟩
      refine ⟨hgood.2, ⟨⟨hb.start_nonneg, hb.start_le_stop, hb.mem_length⟩, fun _ =>
          hgood.1, nofun, ?_⟩, hgood.1⟩
      have h1 := hb.stop_le
      have h2 := hgood.1.le.1
      show b.stopOff ≤ (poolGet p).1
      omega

theorem bufGetWriter_sized {p : Pool} {b : Buffer} {minSize : Int} (hp : GoodPool p)
    (hb : Sized b) (hfit : FittingOp (.writer b.stopOff minSize)) :
    GoodPool (bufGetWriter p b minSize).1 ∧ Sized (bufGetWriter p b minSize).2.1 := by
  obtain ⟨h1, h2, h3⟩ := bufTakeBlock_sized hp hb
  obtain ⟨-, hstop, -⟩ := bufTakeBlock_offsets p b
  have hgood : GoodSize (bufGetWriter p b minSize).2.1.bufSz := by
    refine growBuf_good ?_ _ _ h3
    rw [hstop]
    exact hfit
  refine ⟨h1, ⟨⟨h2.start_nonneg, h2.start_le_stop, h2.mem_length⟩, fun _ => hgood, ?_, ?_⟩⟩
  · intro hal
    have hyes : (bufGetWriter p b minSize).2.1.allocated = true := by
      show (bufTakeBlock p b).2.allocated = true
      unfold bufTakeBlock
      split
      · next hal => exact hal
      · rfl
    rw [hyes] at hal
    cases hal
  · exact h2.stop_le.trans (growBuf_ge _ _ _ _)

theorem bufProduce_sized {b : Buffer} {bs : Bytes} (hb : Sized b)
    (hroom : b.stopOff + bs.length ≤ b.bufSz) : Sized (bufProduce b bs) :=
  ⟨(bufProduce_holds hb.toOk.holds bs).toOk, hb.block, hb.bare, hroom⟩

theorem bufRollbackProduced_sized {b : Buffer} {n : Int} (hb : Sized b)
    (hfit : FittingOp (.rollback (bufGetUsed b) n)) : Sized (bufRollbackProduced b n) := by
  obtain ⟨h0, hle⟩ := hfit
  have h1 := hb.start_nonneg
  have h2 := hb.mem_length
  have h3 := hb.stop_le
  rw [bufGetUsed] at hle
  refine ⟨⟨hb.start_nonneg, ?_, ?_⟩, hb.block, hb.bare, ?_⟩
  · show b.startOff ≤ b.stopOff - n
    omega
  · show ((b.mem.take (b.stopOff - n).toNat).length : Int) = b.stopOff - n
    rw [List.length_take]
    omega
  · show b.stopOff - n ≤ b.bufSz
    omega

theorem bufConsume_sized {p : Pool} {b : Buffer} {n : Nat} (hp : GoodPool p) (hb : Sized b)
    (hn : 0 < n) (hle : n ≤ (bufGetReader b).length) :
    GoodPool (bufConsume p b n).1 ∧ Sized (bufConsume p b n).2 := by
  have hholds : b.Holds ((bufGetReader b).take n ++ (bufGetReader b).drop n) := by
    rw [List.take_append_drop]
    exact hb.toOk.holds
  have hlen : (n : Int) = ((bufGetReader b).take n).length := by
    rw [List.length_take]
    omega
  have hok := (bufConsume_holds (p := p) hholds hlen).toOk
  have hal : b.allocated = true := by
    cases hal : b.allocated with
    | true => rfl
    | false =>
        have h1 := hb.bare hal
        have h2 := hb.stop_le
        have h3 := hb.start_nonneg
        have h4 := hb.toOk.holds.used
        rw [bufGetUsed] at h4
        omega
  rw [bufConsume] at hok ⊢
  split
  · refine ⟨?_, ⟨?_, fun hbare => absurd hbare Bool.false_ne_true, fun _ => rfl, Int.le_refl 0⟩⟩
    · intro sz hsz
      rcases List.mem_cons.mp hsz with rfl | hsz
      · exact hb.block hal
      · exact hp sz hsz
    · rwa [if_pos ‹_›] at hok
  · rw [if_neg ‹_›] at hok
    exact ⟨hp, ⟨hok, hb.block, hb.bare, hb.stop_le⟩⟩

/-! ## Moves in range

What a batch does with the buffers is a list of moves. An operation records itself in
the buffer with the state it found, so that whether it fits can be read off afterwards.
-/

/-- Every operation on the two buffers so far was one that fits. -/
def AllFit (io : Io) : Prop :=
  (∀ op ∈ io.recvBuf.ops, FittingOp op) ∧ ∀ op ∈ io.sendBuf.ops, FittingOp op

/-- Both buffers of a connection, and the pool they share with the others. -/
structure SizedIo (io : Io) : Prop where
  pool : GoodPool io.pool
  recv : Sized io.recvBuf
  send : Sized io.sendBuf

theorem ops_bufGetWriter (p : Pool) (b : Buffer) (n : Int) :
    (bufGetWriter p b n).2.1.ops = .writer b.stopOff n :: b.ops := by
  have hops : (bufTakeBlock p b).2.ops = b.ops := by
    unfold bufTakeBlock
    split <;> rfl
  show .writer (bufTakeBlock p b).2.stopOff n :: (bufTakeBlock p b).2.ops = _
  rw [hops, (bufTakeBlock_offsets p b).2.1]

theorem IoMove.allFit {io io' : Io} (h : IoMove io io') (hfit : AllFit io') : AllFit io := by
  obtain ⟨hr, hs⟩ := hfit
  cases h with
  | recvRoom n =>
      refine ⟨fun op hop => hr op ?_, hs⟩
      rw [ops_bufGetWriter]
      exact List.mem_cons_of_mem _ hop
  | sendRoom n =>
      refine ⟨hr, fun op hop => hs op ?_⟩
      rw [ops_bufGetWriter]
      exact List.mem_cons_of_mem _ hop
  | produce bs _ => exact ⟨hr, hs⟩
  | rollback n => exact ⟨hr, fun op hop => hs op (List.mem_cons_of_mem _ hop)⟩

theorem IoMove.sized {io io' : Io} (h : IoMove io io') (hio : SizedIo io) (hfit : AllFit io') :
    SizedIo io' := by
  obtain ⟨hr, hs⟩ := hfit
  cases h with
  | recvRoom n =>
      have hop := hr (.writer io.recvBuf.stopOff n) (by
        rw [ops_bufGetWriter]; exact List.mem_cons_self)
      obtain ⟨h1, h2⟩ := bufGetWriter_sized hio.pool hio.recv hop
      exact ⟨h1, h2, hio.send⟩
  | sendRoom n =>
      have hop := hs (.writer io.sendBuf.stopOff n) (by
        rw [ops_bufGetWriter]; exact List.mem_cons_self)
      obtain ⟨h1, h2⟩ := bufGetWriter_sized hio.pool hio.send hop
      exact ⟨h1, hio.recv, h2⟩
  | produce bs hroom => exact ⟨hio.pool, hio.recv, bufProduce_sized hio.send hroom⟩
  | rollback n =>
      exact ⟨hio.pool, hio.recv, bufRollbackProduced_sized hio.send (hs _ List.mem_cons_self)⟩

theorem IoMoves.sized {io io' : Io} (h : IoMoves io io') (hio : AllFit io → SizedIo io) :
    AllFit io' → SizedIo io' := by
  induction h with
  | refl => exact hio
  | tail _ hmove ih => exact fun hfit => hmove.sized (ih (hmove.allFit hfit)) hfit

/-- Requests that have not been consumed stay where they are. -/
theorem IoMoves.reader {io io' : Io} (h : IoMoves io io') :
    bufGetReader io'.recvBuf = bufGetReader io.recvBuf := by
  induction h with
  | refl => rfl
  | tail _ hmove ih =>
      rw [← ih]
      cases hmove with
      | recvRoom n =>
          obtain ⟨h1, -, h3⟩ := bufTakeBlock_offsets _ _
          show List.drop (Int.toNat (bufTakeBlock _ _).2.startOff) (bufTakeBlock _ _).2.mem = _
          rw [h1, h3]
          rfl
      | sendRoom n => rfl
      | produce bs _ => rfl
      | rollback n => rfl

theorem bufGetReader_bufConsume_ops (p : Pool) (b : Buffer) (n : Int) :
    (bufConsume p b n).2.ops = b.ops := by
  unfold bufConsume
  simp only []
  split <;> rfl

/-! ## Runs of a connection

Between two steps of this connection others take blocks from the pool and give blocks
back. All that is asked of them is that they leave good sizes. -/

section Runs

variable {σ γ : Type} (api : StStorageApi σ) (vx : Vx γ) (cfg : Config γ)

/-- A step of the connection, or of the others: these may do what they like to
the world, and leave blocks in the pool that are in range. -/
inductive RangeStep : Conn (World σ γ) → Conn (World σ γ) → Prop
  | own {c c' : Conn (World σ γ)} {a : ConnAction}
      (h : connStep (processMulti api vx cfg) c a = some c') : RangeStep c c'
  | others (c : Conn (World σ γ)) (w : World σ γ) {p : Pool} (hp : GoodPool p) :
      RangeStep c { c with world := w, io := { c.io with pool := p } }

/-- The invariant: as long as everything has fitted, the buffers are in order. Where
something has not it says nothing. -/
structure RangeInv (c : Conn (World σ γ)) : Prop where
  quiet_nonneg : 0 ≤ c.quietRecvOff
  sized : AllFit c.io → SizedIo c.io

variable {c c' : Conn (World σ γ)}

theorem RangeInv.step_recv (h : RangeInv c) {r : RecvResult}
    (hs : connRetryRecv c r = some c') : RangeInv c' := by
  have hmove : IoMove c.io _ := .recvRoom c.io 0
  have hroom : AllFit _ → SizedIo _ := fun hfit => hmove.sized (h.sized (hmove.allFit hfit)) hfit
  have hprod : ∀ bs : Bytes, (bs.length : Int) ≤ (bufGetWriter c.io.pool c.io.recvBuf 0).2.2 →
      AllFit { c.io with
        pool := (bufGetWriter c.io.pool c.io.recvBuf 0).1
        recvBuf := bufProduce (bufGetWriter c.io.pool c.io.recvBuf 0).2.1 bs } →
      SizedIo { c.io with
        pool := (bufGetWriter c.io.pool c.io.recvBuf 0).1
        recvBuf := bufProduce (bufGetWriter c.io.pool c.io.recvBuf 0).2.1 bs } := by
    intro bs hbs hfit
    have hio := hroom hfit
    refine ⟨hio.pool, bufProduce_sized hio.recv ?_, hio.send⟩
    have hsz : (bufGetWriter c.io.pool c.io.recvBuf 0).2.2
        = (bufGetWriter c.io.pool c.io.recvBuf 0).2.1.bufSz
          - (bufGetWriter c.io.pool c.io.recvBuf 0).2.1.stopOff := rfl
    show (bufGetWriter c.io.pool c.io.recvBuf 0).2.1.stopOff + bs.length
      ≤ (bufGetWriter c.io.pool c.io.recvBuf 0).2.1.bufSz
    omega
  unfold connRetryRecv at hs
  cases r with
  | got n =>
      simp only [] at hs
      split at hs
      · next hn =>
          cases hs
          refine ⟨h.quiet_nonneg, hprod _ ?_⟩
          rw [List.length_take]
          omega
      · cases hs
  | again =>
      cases hs
      refine ⟨h.quiet_nonneg, hprod [] ?_⟩
      have hpos := bufGetWriter_room c.io.pool c.io.recvBuf 0
      rw [List.length_nil]
      omega
  | eof => cases hs; exact ⟨h.quiet_nonneg, hroom⟩
  | error => cases hs; exact ⟨h.quiet_nonneg, hroom⟩

/-- A batch that is not empty is handed over and consumed. -/
theorem RangeInv.process (h : RangeInv c) (hpos : 0 < c.quietRecvOff)
    (hne : 0 < (bufGetReader c.io.recvBuf).length)
    (hs : connProcess (processMulti api vx cfg) c = some c') : RangeInv c' := by
  unfold connProcess at hs
  split at hs
  · cases hs
  · next w io consumed hmulti =>
      obtain ⟨hmoves, hn⟩ := processMulti_moves api vx cfg hmulti
      cases hs
      refine ⟨Int.le_refl 0, ?_⟩
      intro hfit
      obtain ⟨hr, hsend⟩ := hfit
      have hops := bufGetReader_bufConsume_ops io.pool io.recvBuf consumed
      have hio : SizedIo io := by
        refine hmoves.sized h.sized ⟨fun op hop => hr op ?_, hsend⟩
        rw [hops]
        exact hop
      rw [List.length_take] at hn
      have hread := hmoves.reader
      have hcons := bufConsume_sized
          (n := min c.quietRecvOff.toNat (bufGetReader c.io.recvBuf).length)
        hio.pool hio.recv (by omega) (by rw [hread]; omega)
      rw [← hn] at hcons
      exact ⟨hcons.1, hcons.2, hio.send⟩

theorem RangeInv.step_swallow (h : RangeInv c) {written : Bool}
    (hs : connSwallow (processMulti api vx cfg) c written = some c') : RangeInv c' := by
  unfold connSwallow at hs
  simp only [] at hs
  split at hs
  · cases hs; exact ⟨h.quiet_nonneg, h.sized⟩
  · next hsane =>
      split at hs
      · cases hs; exact ⟨h.quiet_nonneg, h.sized⟩
      · next hmore =>
          obtain ⟨hpos, hlen, -⟩ := reqbufGetSaneRequestSz_take hsane hmore
          have hquiet := h.quiet_nonneg
          have htaken : RangeInv { c with
              quietRecvOff := c.quietRecvOff + reqbufGetSaneRequestSz (newData c) 0x80
              io := { c.io with requests := c.io.requests + 1 } } :=
            ⟨by show 0 ≤ c.quietRecvOff + _; omega,
              fun hfit => ⟨(h.sized hfit).pool, (h.sized hfit).recv, (h.sized hfit).send⟩⟩
          split at hs
          · cases hs; exact htaken
          · refine htaken.process api vx cfg ?_ ?_ hs
            · show 0 < c.quietRecvOff + _
              omega
            · have hnew : 0 < (newData c).length := by omega
              rw [newData, List.length_drop] at hnew
              show 0 < (bufGetReader c.io.recvBuf).length
              omega

theorem RangeInv.step_send (h : RangeInv c) {r : SendResult}
    (hs : connSend c r = some c') : RangeInv c' := by
  have hafter : ∀ (d : Conn (World σ γ)) (b : Bool), RangeInv d →
      RangeInv (connAfterSend d b) := by
    intro d b hd
    unfold connAfterSend
    split
    · exact ⟨hd.quiet_nonneg, hd.sized⟩
    · exact ⟨hd.quiet_nonneg, hd.sized⟩
  unfold connSend at hs
  simp only [] at hs
  split at hs
  · cases hs
  · cases r with
    | sent n =>
        simp only [] at hs
        split at hs
        · next hn =>
            cases hs
            refine hafter _ _ ⟨h.quiet_nonneg, ?_⟩
            intro hfit
            obtain ⟨hr, hsend⟩ := hfit
            have hops := bufGetReader_bufConsume_ops c.io.pool c.io.sendBuf n
            have hio := h.sized ⟨hr, fun op hop => hsend op (by rw [hops]; exact hop)⟩
            obtain ⟨h1, h2⟩ := bufConsume_sized hio.pool hio.send hn.1 hn.2
            exact ⟨h1, hio.recv, h2⟩
        · cases hs
    | again => cases hs; exact hafter c false h
    | error => cases hs; exact ⟨h.quiet_nonneg, h.sized⟩

theorem RangeInv.step (h : RangeInv c) (hstep : RangeStep api vx cfg c c') : RangeInv c' := by
  cases hstep with
  | others w hp => exact ⟨h.quiet_nonneg, fun hfit =>
      ⟨hp, (h.sized hfit).recv, (h.sized hfit).send⟩⟩
  | own hs =>
      rcases connStep_cases _ hs with ⟨-, -, rfl⟩ | ⟨r, -, -, hs⟩ | ⟨written, -, -, hs⟩ |
        ⟨r, -, -, hs⟩ | ⟨-, -, -, rfl⟩
      · exact ⟨h.quiet_nonneg, h.sized⟩
      · exact h.step_recv hs
      · exact h.step_swallow api vx cfg hs
      · exact h.step_send hs
      · unfold connAfterSend
        exact ⟨h.quiet_nonneg, h.sized⟩

theorem rangeInv_connNew (w : World σ γ) (conn : Nat) {pool : Pool} (hpool : GoodPool pool)
    (stream : Bytes) : RangeInv (connNew w conn pool stream) :=
  ⟨Int.le_refl 0, fun _ => ⟨hpool, sized_empty, sized_empty⟩⟩

/-- As long as each operation fits, the offsets, the sizes and the blocks in the pool
are `int`s and in order. -/
theorem rangeInv_run (w : World σ γ) (conn : Nat) {pool : Pool} (hpool : GoodPool pool)
    (stream : Bytes)
    (hrun : ReflTransGen (RangeStep api vx cfg) (connNew w conn pool stream) c) : RangeInv c :=
  run_invariant (fun _ _ hs hn => hs.step api vx cfg hn) (rangeInv_connNew w conn hpool stream) hrun

theorem RangeInv.inRange (h : RangeInv c) (hfit : AllFit c.io) :
    InRange c.io.recvBuf ∧ InRange c.io.sendBuf ∧ ∀ sz ∈ c.io.pool, sz ≤ intMax := by
  have hio := h.sized hfit
  exact ⟨hio.recv.inRange, hio.send.inRange,
    fun sz hsz => (hio.pool sz hsz).le.2.trans writerLimit_le.1⟩

end Runs

/-! ## A stream that leaves the range

As long as `recv` fills the block, `retry_recv` goes round again, and each
round makes the block one size larger. -/

section Overflow

variable {σ γ : Type} (api : StStorageApi σ) (vx : Vx γ) (cfg : Config γ)

/-- The receive buffer is full, with `k` block sizes. -/
structure Filled (k : Nat) (c : Conn (World σ γ)) : Prop where
  pc : c.pc = .retryRecv
  stop : c.io.recvBuf.stopOff = k * initialBufSize
  block : c.io.recvBuf.allocated = true ∧ c.io.recvBuf.bufSz = k * initialBufSize ∨
    c.io.recvBuf.allocated = false ∧ c.io.pool = [] ∧ k = 0

theorem Filled.writer {k : Nat} {c : Conn (World σ γ)} (h : Filled k c) :
    (bufGetWriter c.io.pool c.io.recvBuf 0).2.1.stopOff = k * initialBufSize ∧
      (bufGetWriter c.io.pool c.io.recvBuf 0).2.1.allocated = true ∧
      (bufGetWriter c.io.pool c.io.recvBuf 0).2.1.bufSz = (k + 1 : Nat) * initialBufSize := by
  refine ⟨(bufTakeBlock_offsets _ _).2.1.trans h.stop, ?_⟩
  rcases h.block with ⟨hal, hsz⟩ | ⟨hal, hpool, rfl⟩
  · have htake : bufTakeBlock c.io.pool c.io.recvBuf = (c.io.pool, c.io.recvBuf) := by
      rw [bufTakeBlock, if_pos hal]
    refine ⟨?_, ?_⟩
    · show (bufTakeBlock _ _).2.allocated = true
      rw [htake]
      exact hal
    · show growBuf (bufTakeBlock _ _).2.stopOff 0
        (0 + (bufTakeBlock _ _).2.stopOff + 1 - (bufTakeBlock _ _).2.bufSz).toNat
        (bufTakeBlock _ _).2.bufSz = _
      have hfuel : (0 + (k : Int) * initialBufSize + 1 - k * initialBufSize).toNat = 0 + 1 := by
        omega
      rw [htake]
      simp only []
      rw [h.stop, hsz, hfuel, growBuf, if_pos (by omega), growBuf, initialBufSize_eq]
      omega
  · have htake : bufTakeBlock c.io.pool c.io.recvBuf
        = ([], { c.io.recvBuf with allocated := true, bufSz := initialBufSize }) := by
      rw [bufTakeBlock, if_neg (by rw [hal]; decide), hpool]
      rfl
    have hstop : c.io.recvBuf.stopOff = 0 := by
      have h0 := h.stop
      rw [initialBufSize_eq] at h0
      omega
    refine ⟨?_, ?_⟩
    · show (bufTakeBlock _ _).2.allocated = true
      rw [htake]
    · show growBuf (bufTakeBlock _ _).2.stopOff 0
        (0 + (bufTakeBlock _ _).2.stopOff + 1 - (bufTakeBlock _ _).2.bufSz).toNat
        (bufTakeBlock _ _).2.bufSz = _
      rw [htake]
      simp only []
      rw [hstop]
      have hfuel : (0 + (0 : Int) + 1 - initialBufSize).toNat = 0 := by decide
      rw [hfuel, growBuf, initialBufSize_eq]
      omega

theorem Filled.next {k : Nat} {c : Conn (World σ γ)} (h : Filled k c)
    (hinput : initialBufSize.toNat ≤ c.input.length) :
    ∃ c', RangeStep api vx cfg c c' ∧ Filled (k + 1) c' ∧
      c'.input = c.input.drop initialBufSize.toNat := by
  obtain ⟨hstop, hal, hsz⟩ := h.writer
  have hroom : (bufGetWriter c.io.pool c.io.recvBuf 0).2.2 = (initialBufSize.toNat : Int) := by
    show (bufGetWriter c.io.pool c.io.recvBuf 0).2.1.bufSz
      - (bufGetWriter c.io.pool c.io.recvBuf 0).2.1.stopOff = _
    rw [hstop, hsz, initialBufSize_eq]
    omega
  have hpos : 0 < initialBufSize.toNat := by decide
  have hlen : (c.input.take initialBufSize.toNat).length = initialBufSize.toNat := by
    rw [List.length_take]
    omega
  have hstep : connRetryRecv c (.got initialBufSize.toNat) = some { c with
      pc := .retryRecv
      io := { c.io with
        pool := (bufGetWriter c.io.pool c.io.recvBuf 0).1
        recvBuf := bufProduce (bufGetWriter c.io.pool c.io.recvBuf 0).2.1
          (c.input.take initialBufSize.toNat) }
      input := c.input.drop initialBufSize.toNat } := by
    unfold connRetryRecv
    simp only []
    rw [if_pos ⟨hpos, hinput, by rw [hroom]⟩, if_pos hroom.symm]
  have hown : connStep (processMulti api vx cfg) c (.recv (.got initialBufSize.toNat))
      = connRetryRecv c (.got initialBufSize.toNat) := by
    unfold connStep
    rw [h.pc]
  refine ⟨_, .own (hown.trans hstep), ⟨rfl, ?_, .inl ⟨hal, hsz⟩⟩, rfl⟩
  show (bufGetWriter c.io.pool c.io.recvBuf 0).2.1.stopOff
    + ((c.input.take initialBufSize.toNat).length : Nat) = _
  rw [hstop, hlen, initialBufSize_eq]
  omega

/-- Any stream that is long enough fills as many blocks as one likes. -/
theorem Filled.run {c : Conn (World σ γ)} (h : Filled 0 c) :
    ∀ k : Nat, k * initialBufSize.toNat ≤ c.input.length →
      ∃ c', ReflTransGen (RangeStep api vx cfg) c c' ∧ Filled k c' ∧
        c'.input = c.input.drop (k * initialBufSize.toNat) := by
  intro k
  induction k with
  | zero => intro _; exact ⟨c, .refl, h, by rw [Nat.zero_mul, List.drop_zero]⟩
  | succ k ih =>
      intro hlen
      rw [Nat.succ_mul] at hlen
      obtain ⟨c1, hrun, hfill, hin⟩ := ih (by omega)
      have hleft : initialBufSize.toNat ≤ c1.input.length := by
        rw [hin, List.length_drop]
        omega
      obtain ⟨c2, hstep, hfill2, hin2⟩ := hfill.next api vx cfg hleft
      refine ⟨c2, hrun.tail hstep, hfill2, ?_⟩
      rw [hin2, hin, List.drop_drop, Nat.succ_mul]

/-- With one block more than an `int` can count, the size is out of range. -/
theorem Filled.overflow {c : Conn (World σ γ)} (h : Filled maxBlocks c) :
    ∃ c', RangeStep api vx cfg c c' ∧ intMax < c'.io.recvBuf.bufSz := by
  obtain ⟨-, -, hsz⟩ := h.writer
  have hroom := bufGetWriter_room c.io.pool c.io.recvBuf 0
  have hstep : connStep (processMulti api vx cfg) c (.recv .again) = some { c with
      pc := .swallowNextRequest false
      io := { c.io with
        pool := (bufGetWriter c.io.pool c.io.recvBuf 0).1
        recvBuf := bufProduce (bufGetWriter c.io.pool c.io.recvBuf 0).2.1 [] } } := by
    unfold connStep
    rw [h.pc]
    simp only []
    unfold connRetryRecv
    simp only []
    rw [if_neg (by omega)]
  refine ⟨_, .own hstep, ?_⟩
  show intMax < (bufGetWriter c.io.pool c.io.recvBuf 0).2.1.bufSz
  rw [hsz, intMax, maxBlocks, initialBufSize_eq]
  decide

end Overflow

/-- A SET that declares a body of 2147483623 bytes, and the beginning of it. -/
def hugeRequest : Bytes :=
  [0x80, 0x01, 0, 1, 8, 0, 0, 0, 0x7F, 0xFF, 0xFF, 0xE7] ++ List.replicate 2145386484 0

theorem length_hugeRequest : hugeRequest.length = 2145386496 := by
  rw [hugeRequest, List.length_append, List.length_replicate]
  rfl

/-- The receive buffer of a connection that is sent this request grows past
the largest `int`. -/
theorem connection_range_overflow :
    ¬ ∀ c, ReflTransGen (RangeStep mapEngine.toStStorageApi idleVx plainConfig)
        (connNew freshWorld 0 [] hugeRequest) c →
      InRange c.io.recvBuf ∧ InRange c.io.sendBuf := by
  intro hall
  let start := connNew freshWorld 0 [] hugeRequest
  let ready := { start with pc := .retryRecv }
  have hfirst : RangeStep mapEngine.toStStorageApi idleVx plainConfig start ready :=
    .own (a := .event) rfl
  have hfilled : Filled 0 ready :=
    ⟨rfl, by show (0 : Int) = (0 : Nat) * initialBufSize; rw [initialBufSize_eq]; rfl,
      .inr ⟨rfl, rfl, rfl⟩⟩
  have hlen : maxBlocks * initialBufSize.toNat ≤ ready.input.length := by
    have h : ready.input.length = 2145386496 := length_hugeRequest
    have hmul : maxBlocks * initialBufSize.toNat = 2145386496 := by decide
    rw [h, hmul]
  obtain ⟨c, hrun, hfull, -⟩ :=
    hfilled.run mapEngine.toStStorageApi idleVx plainConfig maxBlocks hlen
  obtain ⟨c', hlast, hbig⟩ := hfull.overflow mapEngine.toStStorageApi idleVx plainConfig
  have hreach := ((ReflTransGen.single hfirst).trans hrun).tail hlast
  have hle := (hall c' hreach).1.size_le
  omega

end Smalltable.Proofs
