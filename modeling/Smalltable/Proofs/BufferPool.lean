import Mathlib.Data.List.Nodup
import Mathlib.Data.Finset.Dedup
import Smalltable.Lib.FreeList
import Smalltable.Lib.Transition
import Smalltable.Ref.BufferPool

/-!
# Buffers that share a pool do not touch each other

`Owned` says who has a block: one buffer, or the list from `mem_pool_first`, in which its
size is recorded. `Shows` says that a buffer in memory is the `Ref.Buffer` of the rest of
the model. An operation on a buffer keeps the first, does to the second what the function
of the same name in `Ref.Buffer` does, and leaves the other buffers as they are
(`Apart`). What a reader sees is therefore a queue, whatever happens to the other
buffers.

The rest of the development has buffers that are made of offsets and bytes. They cannot
share anything, so this is the place where it is shown that those in memory do not
either.
-/

namespace Smalltable.Proofs

open Smalltable.Ref Blocks

/-! ## Memory

A step on memory changes one block and leaves the others (`Same`). The list of the free
blocks is in the blocks themselves: the first word of a free block is the next one. -/

namespace Heap

/-- Nothing has been done to this block. -/
structure Same (h h' : Blocks.Heap) (a : Addr) : Prop where
  live : a ∈ h'.live ↔ a ∈ h.live
  block : h'.block a = h.block a

/-- The block behind this one in the list, where there is one that can be read. -/
def next (h : Blocks.Heap) (a : Addr) : Option (Option Addr) := (h.item a).map Prod.fst

variable {h h' h'' : Blocks.Heap} {a : Addr}

theorem Same.trans (h1 : Same h h' a) (h2 : Same h' h'' a) : Same h h'' a :=
  ⟨h2.live.trans h1.live, h2.block.trans h1.block⟩

theorem Same.item (hs : Same h h' a) : h'.item a = h.item a := by
  simp only [Blocks.Heap.item, hs.live, hs.block]

theorem Same.next (hs : Same h h' a) : next h' a = next h a := by
  rw [Heap.next, Heap.next, hs.item]

theorem Same.peek (hs : Same h h' a) (i : Int) : h'.peek (some a) i = h.peek (some a) i := by
  simp only [Blocks.Heap.peek, hs.live, hs.block]

theorem item_live {item : Option Addr × Int} (hi : h.item a = some item) : a ∈ h.live := by
  rw [Blocks.Heap.item] at hi
  split at hi
  · next ha => exact ha
  · cases hi

theorem peeks_eq {p : Option Addr} : ∀ {bs : Bytes} {i : Int},
    (∀ k : Nat, k < bs.length → h.peek p (i + k) = bs[k]?) →
    h.peeks p i bs.length = some bs := by
  intro bs
  induction bs with
  | nil => intro i _; rfl
  | cons c cs ih =>
      intro i hk
      have hhead := hk 0 (Nat.succ_pos _)
      rw [Int.natCast_zero, Int.add_zero] at hhead
      have htail : h.peeks p (i + 1) cs.length = some cs := ih fun k hlt => by
        have hnext := hk (k + 1) (Nat.succ_lt_succ hlt)
        rw [Int.natCast_succ, Int.add_comm (k : Int) 1, ← Int.add_assoc] at hnext
        exact hnext
      rw [List.length_cons, Blocks.Heap.peeks, hhead, htail]
      rfl

/-- What writing into a block does. -/
structure Written (h h' : Blocks.Heap) (a : Addr) (i : Int) (bs : Bytes) : Prop where
  live : h'.live = h.live
  size : (h'.block a).size = (h.block a).size
  others : ∀ b, b ≠ a → Same h h' b
  before : ∀ k, k < i → h'.peek (some a) k = h.peek (some a) k
  bytes : ∀ k : Nat, k < bs.length → h'.peek (some a) (i + k) = bs[k]?

theorem poke_written {i : Int} {c : UInt8} (ha : a ∈ h.live) (h0 : 0 ≤ i)
    (hi : i < (h.block a).size) :
    ∃ h', h.poke (some a) i c = some h' ∧ Written h h' a i [c] := by
  rw [Blocks.Heap.poke, if_pos ⟨ha, h0, hi⟩]
  refine ⟨_, rfl, rfl, ?_, fun b hb => ⟨Iff.rfl, Function.update_of_ne hb _ _⟩, fun k hk => ?_,
    fun k hk => ?_⟩
  · simp only [Function.update_self]
  · have hne : k ≠ i := Int.ne_of_lt hk
    simp only [Blocks.Heap.peek, Function.update_self, Function.update_of_ne hne]
  · have hk : k = 0 := Nat.lt_one_iff.mp hk
    subst hk
    rw [Int.natCast_zero, Int.add_zero]
    simp [Blocks.Heap.peek, ha, h0, hi]

theorem pokes_written : ∀ (bs : Bytes) {h : Blocks.Heap} {i : Int}, a ∈ h.live → 0 ≤ i →
    i + bs.length ≤ (h.block a).size →
    ∃ h', h.pokes (some a) i bs = some h' ∧ Written h h' a i bs := by
  intro bs
  induction bs with
  | nil =>
      intro h i _ _ _
      exact ⟨h, rfl, rfl, rfl, fun b _ => ⟨Iff.rfl, rfl⟩, fun k _ => rfl, fun k hk => nomatch hk⟩
  | cons c cs ih =>
      intro h i ha h0 hfit
      rw [List.length_cons, Int.natCast_succ] at hfit
      obtain ⟨h1, hp, hw⟩ := poke_written (c := c) ha h0 (by omega)
      have ha1 : a ∈ h1.live := by rw [hw.live]; exact ha
      obtain ⟨h', hps, hws⟩ := ih ha1 (i := i + 1) (by omega) (by rw [hw.size]; omega)
      rw [Blocks.Heap.pokes, hp]
      refine ⟨h', hps, hws.live.trans hw.live, hws.size.trans hw.size,
        fun b hb => (hw.others b hb).trans (hws.others b hb), fun k hk => ?_, fun k hk => ?_⟩
      · rw [hws.before k (by omega), hw.before k hk]
      · cases k with
        | zero =>
            rw [Int.natCast_zero, Int.add_zero, hws.before i (by omega)]
            have hfirst := hw.bytes 0 Nat.one_pos
            rw [Int.natCast_zero, Int.add_zero] at hfirst
            exact hfirst
        | succ k =>
            have hrest := hws.bytes k (Nat.lt_of_succ_lt_succ hk)
            rw [Int.add_assoc, Int.add_comm 1] at hrest
            rw [Int.natCast_succ, hrest]
            rfl

/-- What `realloc` does. -/
structure Moved (h h' : Blocks.Heap) (p a : Addr) (sz : Int) : Prop where
  live : h'.live = insert a (h.live.erase p)
  size : (h'.block a).size = sz
  others : ∀ b ∈ h.live, b ≠ p → b ≠ a ∧ Same h h' b
  bytes : ∀ k, k < (h.block p).size → h'.peek (some a) k = h.peek (some p) k

theorem realloc_moved {p : Addr} {sz : Int} (hp : p ∈ h.live) (ha : a ∉ h.live.erase p)
    (hsz : (h.block p).size ≤ sz) :
    ∃ h', h.realloc p sz a = some h' ∧ Moved h h' p a sz := by
  rw [Blocks.Heap.realloc, if_pos ⟨hp, ha⟩]
  refine ⟨_, rfl, rfl, ?_, fun b hb hbp => ?_, fun k hk => ?_⟩
  · simp only [Function.update_self]
  · have hba : b ≠ a := fun hba => ha (hba ▸ Finset.mem_erase.mpr ⟨hbp, hb⟩)
    exact ⟨hba, by simp [hb, hbp], Function.update_of_ne hba _ _⟩
  · have hlt : k < sz := by omega
    simp [Blocks.Heap.peek, hp, hk, hlt]

theorem putItem_pushed (p : Option Addr) (sz : Int) (ha : a ∈ h.live)
    (hroom : itemSize ≤ (h.block a).size) :
    ∃ h', h.putItem a p sz = some h' ∧ h'.live = h.live ∧
      (h'.block a).size = (h.block a).size ∧ h'.item a = some (p, sz) ∧
      ∀ b, b ≠ a → Same h h' b := by
  rw [Blocks.Heap.putItem, if_pos ⟨ha, hroom⟩]
  refine ⟨_, rfl, rfl, ?_, ?_, fun b hb => ⟨Iff.rfl, Function.update_of_ne hb _ _⟩⟩
  · simp only [Function.update_self]
  · simp only [Blocks.Heap.item, Function.update_self, if_pos ha]

end Heap

/-! ## Who has a block

The list has no block twice and none that a buffer has, and two buffers never have the
same. With this `mem_pool_free` comes to an end, and so does the loop that frees all
blocks when `malloc` fails. -/

section Ownership

variable {ι : Type}

/-- `free` is the list from `mem_pool_first`. -/
structure Owned (m : Memory ι) (free : List Addr) : Prop where
  threaded : Threaded (Heap.next m.heap) m.memPoolFirst free
  nodup : free.Nodup
  recorded : ∀ a ∈ free, ∃ next, m.heap.item a = some (next, (m.heap.block a).size)
  room : ∀ a ∈ m.heap.live, itemSize ≤ (m.heap.block a).size
  held : ∀ i a, (m.buffer i).buf = some a →
    a ∈ m.heap.live ∧ a ∉ free ∧ (m.heap.block a).size = (m.buffer i).bufSz
  one : ∀ i j a, (m.buffer i).buf = some a → (m.buffer j).buf = some a → i = j
  all : ∀ a ∈ m.heap.live, a ∈ free ∨ ∃ i, (m.buffer i).buf = some a

/-- The sizes of the free blocks. -/
def poolSizes (h : Blocks.Heap) (free : List Addr) : Pool := free.map fun a => (h.block a).size

variable {m m' m'' : Memory ι} {free : List Addr}

theorem Owned.free_live (h : Owned m free) {a : Addr} (ha : a ∈ free) : a ∈ m.heap.live := by
  obtain ⟨next, hitem⟩ := h.recorded a ha
  exact Heap.item_live hitem

theorem poolFreeLoop_frees : ∀ {free : List Addr} {h : Blocks.Heap} {p : Option Addr} {n : Nat},
    Threaded (Heap.next h) p free → free.Nodup → (∀ a ∈ free, a ∈ h.live) → free.length ≤ n →
    ∃ h', poolFreeLoop n h p = some h' ∧ h'.block = h.block ∧
      ∀ a, a ∈ h'.live ↔ a ∈ h.live ∧ a ∉ free := by
  intro free
  induction free with
  | nil =>
      intro h p n hthread _ _ _
      have hp : p = none := hthread
      subst hp
      refine ⟨h, ?_, rfl, fun a => ⟨fun ha => ⟨ha, List.not_mem_nil⟩, And.left⟩⟩
      cases n <;> rfl
  | cons a rest ih =>
      intro h p n hthread hnodup hlive hn
      obtain ⟨rfl, p', hnext, hrest⟩ := hthread
      obtain ⟨hnew, hnodup⟩ := List.nodup_cons.mp hnodup
      obtain ⟨k, rfl⟩ : ∃ k, n = k + 1 := ⟨n - 1, by simp only [List.length_cons] at hn; omega⟩
      obtain ⟨⟨q, sz⟩, hitem, rfl⟩ := Option.map_eq_some_iff.mp hnext
      have ha := hlive a List.mem_cons_self
      have hsame : ∀ b ∈ rest, Heap.Same h { h with live := h.live.erase a } b := fun b hb =>
        ⟨by simp [show b ≠ a from fun hba => hnew (hba ▸ hb)], rfl⟩
      obtain ⟨h', hloop, hblock, hlive'⟩ := ih (hrest.congr fun b hb => (hsame b hb).next) hnodup
        (fun b hb => (hsame b hb).live.mpr (hlive b (List.mem_cons_of_mem a hb)))
        (n := k) (by simp only [List.length_cons] at hn; omega)
      refine ⟨h', ?_, hblock, fun b => ?_⟩
      · rw [poolFreeLoop, hitem]
        simp only [Blocks.Heap.free, if_pos ha]
        exact hloop
      · rw [hlive' b]
        simp only [Finset.mem_erase, List.mem_cons, not_or]
        exact ⟨fun hb => ⟨hb.1.2, hb.1.1, hb.2⟩, fun hb => ⟨⟨hb.2.1, hb.1⟩, hb.2.2⟩⟩

theorem Owned.poolFree (h : Owned m free) :
    ∃ m', poolFree m = some m' ∧ Owned m' [] ∧ m'.buffer = m.buffer ∧
      (∀ a, a ∉ free → Heap.Same m.heap m'.heap a) ∧ ∀ a ∈ m'.heap.live, a ∈ m.heap.live := by
  have hcard : free.length ≤ m.heap.live.card := by
    rw [← List.toFinset_card_of_nodup h.nodup]
    exact Finset.card_le_card fun a ha => h.free_live (List.mem_toFinset.mp ha)
  obtain ⟨h', hloop, hblock, hlive⟩ :=
    poolFreeLoop_frees h.threaded h.nodup (fun a ha => h.free_live ha) hcard
  have hsame : ∀ a, a ∉ free → Heap.Same m.heap h' a := fun a ha =>
    ⟨⟨fun hl => ((hlive a).mp hl).1, fun hl => (hlive a).mpr ⟨hl, ha⟩⟩, congrFun hblock a⟩
  refine ⟨{ m with heap := h', memPoolFirst := none }, ?_, ⟨rfl, List.nodup_nil, nofun,
    fun a ha => ?_, fun i a hi => ?_, h.one, fun a ha => ?_⟩, rfl, hsame,
    fun a ha => ((hlive a).mp ha).1⟩
  · rw [Blocks.poolFree, hloop]
    rfl
  · show itemSize ≤ (h'.block a).size
    rw [hblock]
    exact h.room a ((hlive a).mp ha).1
  · obtain ⟨ha, hfree, hsz⟩ := h.held i a hi
    refine ⟨(hlive a).mpr ⟨ha, hfree⟩, List.not_mem_nil, ?_⟩
    show (h'.block a).size = _
    rw [hblock]
    exact hsz
  · obtain ⟨ha, hfree⟩ := (hlive a).mp ha
    exact .inr ((h.all a ha).resolve_left hfree)

theorem Owned.retry (h : Owned m free) (failed : Bool) :
    ∃ m', retry failed m = some m' ∧ Owned m' (if failed then [] else free) ∧
      m'.buffer = m.buffer ∧ (∀ a, a ∉ free → Heap.Same m.heap m'.heap a) ∧
      ∀ a ∈ m'.heap.live, a ∈ m.heap.live := by
  cases failed with
  | true => exact h.poolFree
  | false => exact ⟨m, rfl, h, rfl, fun a _ => ⟨Iff.rfl, rfl⟩, fun a ha => ha⟩

end Ownership

/-! ## One buffer

An operation on the buffer `i` is followed through memory, and the same three things are
said of each: who has which block afterwards, what the buffer is in the other model, and
that a reader of any other buffer sees what it saw. -/

section OneBuffer

variable {ι : Type} [DecidableEq ι] {m m' m'' : Memory ι} {free : List Addr} {i j : ι}
  {v : Buffer}

/-- The other buffers and their blocks are as they were. -/
def Apart (m m' : Memory ι) (i : ι) : Prop :=
  ∀ j, j ≠ i → m'.buffer j = m.buffer j ∧
    ∀ a, (m.buffer j).buf = some a → Heap.Same m.heap m'.heap a

omit [DecidableEq ι] in
theorem Apart.trans (h : Apart m m' i) (h' : Apart m' m'' i) : Apart m m'' i := by
  intro j hj
  obtain ⟨hb, hs⟩ := h j hj
  obtain ⟨hb', hs'⟩ := h' j hj
  refine ⟨hb'.trans hb, fun a ha => (hs a ha).trans (hs' a ?_)⟩
  rw [hb]
  exact ha

/-- A buffer in memory is the buffer of the rest of the model. -/
structure Shows (m : Memory ι) (i : ι) (v : Buffer) : Prop where
  allocated : v.allocated = (m.buffer i).buf.isSome
  bufSz : v.bufSz = (m.buffer i).bufSz
  startOff : v.startOff = (m.buffer i).startOff
  stopOff : v.stopOff = (m.buffer i).stopOff
  mem : ∀ k : Nat, k < v.mem.length → m.heap.peek (m.buffer i).buf k = v.mem[k]?

omit [DecidableEq ι] in
theorem Shows.same (h : Shows m j v) (hb : m'.buffer j = m.buffer j)
    (hs : ∀ a, (m.buffer j).buf = some a → Heap.Same m.heap m'.heap a) : Shows m' j v := by
  refine ⟨by rw [hb]; exact h.allocated, by rw [hb]; exact h.bufSz, by rw [hb]; exact h.startOff,
    by rw [hb]; exact h.stopOff, fun k hk => ?_⟩
  have hmem := h.mem k hk
  rw [hb]
  cases hbuf : (m.buffer j).buf with
  | none =>
      rw [hbuf] at hmem
      exact hmem
  | some a =>
      rw [hbuf] at hmem
      rw [(hs a hbuf).peek]
      exact hmem

omit [DecidableEq ι] in
theorem Shows.apart (h : Shows m j v) (hapart : Apart m m' i) (hj : j ≠ i) : Shows m' j v :=
  h.same (hapart j hj).1 (hapart j hj).2

omit [DecidableEq ι] in
theorem Shows.reader (h : Shows m i v) (hok : v.Ok) :
    Blocks.bufGetReader m i = some (Ref.bufGetReader v) := by
  have h0 := hok.start_nonneg
  have hle := hok.start_le_stop
  have hlen := hok.mem_length
  have hsz : ((m.buffer i).stopOff - (m.buffer i).startOff).toNat
      = (Ref.bufGetReader v).length := by
    rw [← h.startOff, ← h.stopOff, Ref.bufGetReader, List.length_drop]
    omega
  rw [Blocks.bufGetReader, hsz, ← h.startOff]
  refine Heap.peeks_eq fun k hk => ?_
  rw [Ref.bufGetReader, List.length_drop] at hk
  have hmem := h.mem (v.startOff.toNat + k) (by omega)
  have hcast : ((v.startOff.toNat + k : Nat) : Int) = v.startOff + k := by omega
  rw [hcast] at hmem
  rw [hmem, Ref.bufGetReader, List.getElem?_drop]

theorem put_self (m : Memory ι) (b : StructBuffer) : (m.put i b).buffer i = b :=
  Function.update_self ..

theorem put_other (m : Memory ι) (b : StructBuffer) (hj : j ≠ i) :
    (m.put i b).buffer j = m.buffer j :=
  Function.update_of_ne hj ..

theorem apart_put (m : Memory ι) (b : StructBuffer) : Apart m (m.put i b) i :=
  fun _ hj => ⟨put_other m b hj, fun _ _ => ⟨Iff.rfl, rfl⟩⟩

/-- Only the offsets of a buffer change. -/
theorem Owned.put (h : Owned m free) {b : StructBuffer} (hbuf : b.buf = (m.buffer i).buf)
    (hsz : b.bufSz = (m.buffer i).bufSz) : Owned (m.put i b) free := by
  have hsame : ∀ j, ((m.put i b).buffer j).buf = (m.buffer j).buf ∧
      ((m.put i b).buffer j).bufSz = (m.buffer j).bufSz := by
    intro j
    by_cases hj : j = i
    · rw [hj, put_self]
      exact ⟨hbuf, hsz⟩
    · rw [put_other m b hj]
      exact ⟨rfl, rfl⟩
  refine ⟨h.threaded, h.nodup, h.recorded, h.room, fun j a hj => ?_, fun j k a hj hk => ?_,
    fun a ha => ?_⟩
  · rw [(hsame j).1] at hj
    rw [(hsame j).2]
    exact h.held j a hj
  · rw [(hsame j).1] at hj
    rw [(hsame k).1] at hk
    exact h.one j k a hj hk
  · rcases h.all a ha with hfree | ⟨j, hj⟩
    · exact .inl hfree
    · exact .inr ⟨j, by rw [(hsame j).1]; exact hj⟩

/-- A buffer gets a block nobody else has; so far it had another one, or none. -/
theorem Owned.give {h' : Blocks.Heap} {p : Option Addr} {a : Addr} {b : StructBuffer}
    (hb : b.buf = some a) (hthread : Threaded (Heap.next h') p free) (hnodup : free.Nodup)
    (hrecorded : ∀ c ∈ free, ∃ next, h'.item c = some (next, (h'.block c).size))
    (hroom : ∀ c ∈ h'.live, itemSize ≤ (h'.block c).size)
    (ha : a ∈ h'.live) (hafree : a ∉ free) (hsz : (h'.block a).size = b.bufSz)
    (hheld : ∀ j c, j ≠ i → (m.buffer j).buf = some c →
      c ≠ a ∧ c ∈ h'.live ∧ c ∉ free ∧ (h'.block c).size = (m.buffer j).bufSz)
    (hone : ∀ j k c, (m.buffer j).buf = some c → (m.buffer k).buf = some c → j = k)
    (hall : ∀ c ∈ h'.live, c ≠ a → c ∈ free ∨ ∃ j, j ≠ i ∧ (m.buffer j).buf = some c) :
    Owned (({ m with heap := h', memPoolFirst := p } : Memory ι).put i b) free := by
  have hcases : ∀ j c, ((({ m with heap := h', memPoolFirst := p } : Memory ι).put i b).buffer
      j).buf = some c → (j = i ∧ c = a) ∨ (j ≠ i ∧ (m.buffer j).buf = some c) := by
    intro j c hj
    by_cases hji : j = i
    · rw [hji, put_self, hb] at hj
      exact .inl ⟨hji, (Option.some.inj hj).symm⟩
    · rw [put_other _ _ hji] at hj
      exact .inr ⟨hji, hj⟩
  refine ⟨hthread, hnodup, hrecorded, hroom, fun j c hj => ?_, fun j k c hj hk => ?_,
    fun c hc => ?_⟩
  · rcases hcases j c hj with ⟨rfl, rfl⟩ | ⟨hji, hj⟩
    · rw [put_self]
      exact ⟨ha, hafree, hsz⟩
    · rw [put_other _ _ hji]
      exact (hheld j c hji hj).2
  · rcases hcases j c hj with ⟨hji, hca⟩ | ⟨hji, hj'⟩
    · rcases hcases k c hk with ⟨hki, -⟩ | ⟨hki, hk'⟩
      · rw [hji, hki]
      · exact absurd hca (hheld k c hki hk').1
    · rcases hcases k c hk with ⟨-, hca⟩ | ⟨-, hk'⟩
      · exact absurd hca (hheld j c hji hj').1
      · exact hone j k c hj' hk'
  · by_cases hca : c = a
    · exact .inr ⟨i, by rw [put_self, hca, hb]⟩
    · exact (hall c hc hca).imp_right fun ⟨j, hji, hj⟩ => ⟨j, by rw [put_other _ _ hji]; exact hj⟩

theorem Owned.poolGet (h : Owned m free) (hbuf : (m.buffer i).buf = none) {c : Allocation}
    (hfresh : c.mallocAt ∉ m.heap.live) :
    ∃ m' a sz, poolGet m c = some (m', a, sz) ∧
      Owned (m'.put i { m.buffer i with buf := some a, bufSz := sz }) free.tail ∧
      m'.buffer = m.buffer ∧ (∀ b ∈ m.heap.live, Heap.Same m.heap m'.heap b) ∧
      sz = (Ref.poolGet (poolSizes m.heap free)).1 := by
  rw [Blocks.poolGet]
  cases hfirst : m.memPoolFirst with
  | none =>
      have hfree : free = [] := h.threaded.nil_iff.mp hfirst
      subst hfree
      obtain ⟨m1, hretry, ho, hb1, hsame, hlive⟩ := h.retry c.mallocFails
      rw [ite_self] at ho
      have hnew : c.mallocAt ∉ m1.heap.live := fun ha => hfresh (hlive _ ha)
      have hne : ∀ b ∈ m1.heap.live, b ≠ c.mallocAt := fun b hb hba => hnew (hba ▸ hb)
      have hblock : ∀ b ∈ m1.heap.live, Heap.Same m1.heap
          ⟨insert c.mallocAt m1.heap.live, Function.update m1.heap.block c.mallocAt
            { size := initialBufSize }⟩ b := fun b hb =>
        ⟨by simp [hb], Function.update_of_ne (hne b hb) _ _⟩
      have hself : (⟨insert c.mallocAt m1.heap.live, Function.update m1.heap.block c.mallocAt
          { size := initialBufSize }⟩ : Blocks.Heap).block c.mallocAt
            = { size := initialBufSize } := Function.update_self ..
      simp only [hretry, Blocks.Heap.malloc, if_neg hnew]
      have hthread : m1.memPoolFirst = none := ho.threaded
      refine ⟨_, _, _, rfl, ?_, hb1, fun b hb => ?_, rfl⟩
      · rw [← hb1]
        refine Owned.give rfl hthread List.nodup_nil nofun (fun b hb => ?_)
          (Finset.mem_insert_self _ _) List.not_mem_nil ?_ (fun j b _ hj => ?_) ho.one
          fun b hb hba => ?_
        · rcases Finset.mem_insert.mp hb with rfl | hb
          · rw [hself]
            decide
          · rw [(hblock b hb).block]
            exact ho.room b hb
        · rw [hself]
        · obtain ⟨hb, -, hsz⟩ := ho.held j b hj
          refine ⟨hne b hb, Finset.mem_insert_of_mem hb, List.not_mem_nil, ?_⟩
          rw [(hblock b hb).block]
          exact hsz
        · obtain ⟨j, hj⟩ := (ho.all b ((Finset.mem_insert.mp hb).resolve_left hba)).resolve_left
            List.not_mem_nil
          refine .inr ⟨j, fun hji => ?_, hj⟩
          rw [hji, hb1, hbuf] at hj
          cases hj
      · exact (hsame b List.not_mem_nil).trans
          (hblock b ((hsame b List.not_mem_nil).live.mpr hb))
  | some a =>
      have hthread := h.threaded
      rw [hfirst] at hthread
      obtain ⟨p', rest, rfl, hnext, hrest⟩ := hthread.head
      obtain ⟨p, hitem⟩ := h.recorded a List.mem_cons_self
      obtain ⟨hnew, hnodup⟩ := List.nodup_cons.mp h.nodup
      have hp : p = p' := by
        rw [Heap.next, hitem] at hnext
        exact Option.some.inj hnext
      subst hp
      simp only [hitem, Option.map_some]
      refine ⟨_, _, _, rfl, ?_, rfl, fun b _ => ⟨Iff.rfl, rfl⟩, rfl⟩
      refine Owned.give (m := m) rfl hrest hnodup
        (fun b hb => h.recorded b (List.mem_cons_of_mem a hb)) h.room
        (h.free_live List.mem_cons_self) hnew rfl (fun j b _ hj => ?_) h.one fun b hb hba => ?_
      · obtain ⟨hb, hbfree, hsz⟩ := h.held j b hj
        exact ⟨fun hba => hbfree (hba ▸ List.mem_cons_self), hb,
          fun hbr => hbfree (List.mem_cons_of_mem a hbr), hsz⟩
      · refine (h.all b hb).imp (fun hbf => (List.mem_cons.mp hbf).resolve_left hba)
          fun ⟨j, hj⟩ => ⟨j, fun hji => ?_, hj⟩
        rw [hji, hbuf] at hj
        cases hj

theorem Owned.takeBlock (h : Owned m free) {c : Allocation} (hfresh : c.mallocAt ∉ m.heap.live)
    (hv : Shows m i v) (hok : v.Ok) (hnone : v.allocated = false → v.stopOff = 0) :
    ∃ m' free', bufTakeBlock m i c = some m' ∧ Owned m' free' ∧ Apart m m' i ∧
      (m'.buffer i).buf ≠ none ∧ Shows m' i (Ref.bufTakeBlock (poolSizes m.heap free) v).2 := by
  rw [Blocks.bufTakeBlock]
  by_cases hbuf : (m.buffer i).buf = none
  · obtain ⟨m1, a, sz, hget, ho, hb1, hsame, hsz⟩ := h.poolGet hbuf hfresh
    have halloc : v.allocated = false := by rw [hv.allocated, hbuf]; rfl
    have hmem : v.mem = [] := List.eq_nil_of_length_eq_zero (by
      have hlen := hok.mem_length
      rw [hnone halloc] at hlen
      omega)
    rw [if_pos hbuf, hget]
    refine ⟨_, _, rfl, ho, fun j hj => ⟨?_, fun b hb => hsame b (h.held j b hb).1⟩, ?_, ?_⟩
    · rw [put_other _ _ hj, hb1]
    · rw [put_self]
      exact Option.some_ne_none a
    · rw [Ref.bufTakeBlock, halloc, if_neg Bool.false_ne_true]
      refine ⟨?_, ?_, ?_, ?_, fun k hk => ?_⟩
      · rw [put_self]; rfl
      · rw [put_self]; exact hsz.symm
      · rw [put_self]; exact hv.startOff
      · rw [put_self]; exact hv.stopOff
      · have hk : k < v.mem.length := hk
        rw [hmem] at hk
        cases hk
  · have halloc : v.allocated = true := by
      rw [hv.allocated]
      exact Option.isSome_iff_ne_none.mpr hbuf
    rw [if_neg hbuf, Ref.bufTakeBlock, if_pos halloc]
    exact ⟨m, free, rfl, h, fun j _ => ⟨rfl, fun _ _ => ⟨Iff.rfl, rfl⟩⟩, hbuf, hv⟩

/-- The block of a buffer is made larger, wherever it comes to lie. -/
theorem Owned.realloc (h : Owned m free) {c : Allocation} {p : Addr} {sz : Int}
    (hbuf : (m.buffer i).buf = some p) (hsz : (m.buffer i).bufSz ≤ sz)
    (hfresh : ∀ m', Blocks.retry c.reallocFails m = some m' → c.reallocAt ∉ m'.heap.live.erase p)
    (hv : Shows m i v) (hok : v.Ok) (hend : v.stopOff ≤ v.bufSz) :
    ∃ m' free', bufRealloc m i sz c = some m' ∧ Owned m' free' ∧ Apart m m' i ∧
      (m'.buffer i).buf ≠ none ∧ Shows m' i { v with bufSz := sz } := by
  obtain ⟨m1, hretry, ho, hb1, hsame, -⟩ := h.retry c.reallocFails
  have hnew := hfresh m1 hretry
  have hpfree := (h.held i p hbuf).2.1
  have hbuf1 : (m1.buffer i).buf = some p := by rw [hb1]; exact hbuf
  obtain ⟨hp1, hpfree1, hold⟩ := ho.held i p hbuf1
  rw [hb1] at hold
  generalize (if c.reallocFails then [] else free) = free' at ho hpfree1
  obtain ⟨h', hrealloc, hmoved⟩ := Heap.realloc_moved hp1 hnew (hold ▸ hsz)
  have hnotp : ∀ j b, j ≠ i → (m1.buffer j).buf = some b → b ≠ p := fun j b hj hb hbp =>
    hj (ho.one j i p (hbp ▸ hb) hbuf1)
  have hfreeSame : ∀ b ∈ free', b ≠ c.reallocAt ∧ Heap.Same m1.heap h' b := fun b hb =>
    hmoved.others b (ho.free_live hb) fun hbp => hpfree1 (hbp ▸ hb)
  rw [bufRealloc, hbuf, hretry]
  simp only [hrealloc, Option.map_some]
  refine ⟨_, free', rfl, ?_, fun j hj => ⟨?_, fun b hb => ?_⟩, ?_, ?_⟩
  · refine Owned.give (m := m1) rfl (ho.threaded.congr fun b hb => (hfreeSame b hb).2.next)
      ho.nodup (fun b hb => ?_) (fun b hb => ?_) ?_ (fun ha => (hfreeSame _ ha).1 rfl) hmoved.size
      (fun j b hj hb => ?_) ho.one fun b hb hba => ?_
    · rw [(hfreeSame b hb).2.item, (hfreeSame b hb).2.block]
      exact ho.recorded b hb
    · rw [hmoved.live] at hb
      rcases Finset.mem_insert.mp hb with rfl | hb
      · have hroom := ho.room p hp1
        rw [hmoved.size]
        omega
      · obtain ⟨hbp, hb⟩ := Finset.mem_erase.mp hb
        rw [(hmoved.others b hb hbp).2.block]
        exact ho.room b hb
    · rw [hmoved.live]
      exact Finset.mem_insert_self _ _
    · obtain ⟨hbl, hbf, hbsz⟩ := ho.held j b hb
      obtain ⟨hba, hbs⟩ := hmoved.others b hbl (hnotp j b hj hb)
      exact ⟨hba, hbs.live.mpr hbl, hbf, by rw [hbs.block]; exact hbsz⟩
    · rw [hmoved.live] at hb
      obtain ⟨hbp, hb⟩ := Finset.mem_erase.mp ((Finset.mem_insert.mp hb).resolve_left hba)
      refine (ho.all b hb).imp_right fun ⟨j, hj⟩ => ⟨j, fun hji => hbp ?_, hj⟩
      rw [hji, hbuf1] at hj
      exact (Option.some.inj hj).symm
  · rw [put_other _ _ hj, hb1]
  · have hb1' : (m1.buffer j).buf = some b := by rw [hb1]; exact hb
    exact (hsame b (h.held j b hb).2.1).trans
      (hmoved.others b (ho.held j b hb1').1 (hnotp j b hj hb1')).2
  · rw [put_self]
    exact Option.some_ne_none _
  · refine ⟨?_, ?_, ?_, ?_, fun k hk => ?_⟩
    · rw [put_self]
      have halloc := hv.allocated
      rw [hbuf] at halloc
      exact halloc
    · rw [put_self]
    · rw [put_self, hb1]; exact hv.startOff
    · rw [put_self, hb1]; exact hv.stopOff
    · have hlen := hok.mem_length
      have hvsz := hv.bufSz
      have hk : k < v.mem.length := hk
      have hmem := hv.mem k hk
      rw [hbuf] at hmem
      rw [put_self]
      show h'.peek (some c.reallocAt) k = _
      rw [hmoved.bytes k (by omega), (hsame p hpfree).peek]
      exact hmem

/-- A buffer gives its block back. -/
theorem Owned.release (h : Owned m free) {a : Addr} (hbuf : (m.buffer i).buf = some a) :
    ∃ m', bufRelease m i = some m' ∧ Owned m' (a :: free) ∧ Apart m m' i ∧
      m'.buffer i = { m.buffer i with bufSz := 0, buf := none } ∧
      poolSizes m'.heap (a :: free) = Ref.poolPut (poolSizes m.heap free) (m.buffer i).bufSz := by
  obtain ⟨ha, hafree, hsz⟩ := h.held i a hbuf
  obtain ⟨h', hput, hlive, hsz', hitem, hsame⟩ :=
    Heap.putItem_pushed m.memPoolFirst (m.buffer i).bufSz ha (h.room a ha)
  have hfree : ∀ b ∈ free, Heap.Same m.heap h' b := fun b hb =>
    hsame b fun hba => hafree (hba ▸ hb)
  have hother : ∀ j b, j ≠ i → (m.buffer j).buf = some b → b ≠ a := fun j b hj hb hba =>
    hj (h.one j i a (hba ▸ hb) hbuf)
  have hcases : ∀ j b, ((({ m with heap := h', memPoolFirst := some a } : Memory ι).put i
      { m.buffer i with bufSz := 0, buf := none }).buffer j).buf = some b →
      j ≠ i ∧ (m.buffer j).buf = some b := by
    intro j b hj
    by_cases hji : j = i
    · rw [hji, put_self] at hj
      cases hj
    · rw [put_other _ _ hji] at hj
      exact ⟨hji, hj⟩
  have hnext : Heap.next h' a = some m.memPoolFirst := by rw [Heap.next, hitem]; rfl
  rw [Blocks.bufRelease, hbuf]
  simp only [Blocks.poolPut, hput, Option.map_some]
  refine ⟨_, rfl, ⟨h.threaded.push hnext fun b hb => (hfree b hb).next,
    List.nodup_cons.mpr ⟨hafree, h.nodup⟩, fun b hb => ?_, fun b hb => ?_, fun j b hj => ?_,
    fun j k b hj hk => ?_, fun b hb => ?_⟩, fun j hj => ⟨?_, fun b hb => ?_⟩, ?_, ?_⟩
  · rcases List.mem_cons.mp hb with rfl | hb
    · refine ⟨m.memPoolFirst, ?_⟩
      show h'.item b = some (_, (h'.block b).size)
      rw [hitem, hsz', hsz]
    · show ∃ next, h'.item b = some (next, (h'.block b).size)
      rw [(hfree b hb).item, (hfree b hb).block]
      exact h.recorded b hb
  · have hb : b ∈ m.heap.live := hlive ▸ hb
    show itemSize ≤ (h'.block b).size
    by_cases hba : b = a
    · rw [hba, hsz']
      exact h.room a ha
    · rw [(hsame b hba).block]
      exact h.room b hb
  · obtain ⟨hji, hj⟩ := hcases j b hj
    obtain ⟨hb, hbfree, hbsz⟩ := h.held j b hj
    have hba := hother j b hji hj
    rw [put_other _ _ hji]
    refine ⟨(hsame b hba).live.mpr hb, fun hbf => ?_, ?_⟩
    · exact (List.mem_cons.mp hbf).elim hba hbfree
    · show (h'.block b).size = _
      rw [(hsame b hba).block]
      exact hbsz
  · exact h.one j k b (hcases j b hj).2 (hcases k b hk).2
  · have hb : b ∈ m.heap.live := hlive ▸ hb
    by_cases hba : b = a
    · exact .inl (hba ▸ List.mem_cons_self)
    · refine (h.all b hb).imp (List.mem_cons_of_mem a) fun ⟨j, hj⟩ => ⟨j, ?_⟩
      have hji : j ≠ i := by
        rintro rfl
        rw [hbuf] at hj
        exact hba (Option.some.inj hj).symm
      rw [put_other _ _ hji]
      exact hj
  · rw [put_other _ _ hj]
  · exact hsame b (hother j b hj hb)
  · rw [put_self]
  · show (h'.block a).size :: poolSizes h' free = (m.buffer i).bufSz :: poolSizes m.heap free
    rw [hsz', hsz]
    refine congrArg _ (List.map_congr_left fun b hb => ?_)
    rw [(hfree b hb).block]

omit [DecidableEq ι] in
theorem Owned.written (h : Owned m free) {h' : Blocks.Heap} {a : Addr} {k : Int} {bs : Bytes}
    (hw : Heap.Written m.heap h' a k bs) (hfree : a ∉ free) :
    Owned { m with heap := h' } free := by
  have hsame : ∀ b ∈ free, Heap.Same m.heap h' b := fun b hb =>
    hw.others b fun hba => hfree (hba ▸ hb)
  have hsize : ∀ b, (h'.block b).size = (m.heap.block b).size := by
    intro b
    by_cases hba : b = a
    · rw [hba, hw.size]
    · rw [(hw.others b hba).block]
  have hlive : ∀ b, b ∈ h'.live ↔ b ∈ m.heap.live := fun b => by rw [hw.live]
  refine ⟨h.threaded.congr fun b hb => (hsame b hb).next, h.nodup, fun b hb => ?_,
    fun b hb => ?_, fun j b hj => ?_, h.one, fun b hb => h.all b ((hlive b).mp hb)⟩
  · show ∃ next, h'.item b = some (next, (h'.block b).size)
    rw [(hsame b hb).item, hsize]
    exact h.recorded b hb
  · show itemSize ≤ (h'.block b).size
    rw [hsize]
    exact h.room b ((hlive b).mp hb)
  · obtain ⟨hb, hbfree, hbsz⟩ := h.held j b hj
    refine ⟨(hlive b).mpr hb, hbfree, ?_⟩
    show (h'.block b).size = _
    rw [hsize]
    exact hbsz

/-- Bytes are put behind those a buffer has, where there is room for them. -/
theorem Owned.produce (h : Owned m free) (hv : Shows m i v) (hok : v.Ok) (bs : Bytes)
    (hfit : v.stopOff + bs.length ≤ v.bufSz) (hnone : v.allocated = false → bs = []) :
    ∃ m', poolStep m (.produce i bs) = some m' ∧ Owned m' free ∧ Apart m m' i ∧
      Shows m' i (Ref.bufProduce v bs) := by
  have hstop := hv.stopOff
  have h0 := hok.start_nonneg
  have hle := hok.start_le_stop
  have hlen := hok.mem_length
  rw [poolStep]
  cases hbuf : (m.buffer i).buf with
  | none =>
      have halloc : v.allocated = false := by rw [hv.allocated, hbuf]; rfl
      have hbs := hnone halloc
      subst hbs
      refine ⟨_, rfl, h.put rfl rfl, apart_put m _, ?_⟩
      refine ⟨?_, ?_, ?_, ?_, fun k hk => ?_⟩
      · rw [put_self]; exact hv.allocated
      · rw [put_self]; exact hv.bufSz
      · rw [put_self]; exact hv.startOff
      · rw [put_self]; exact congrArg (· + _) hstop
      · have hv' := hv.mem k
        rw [put_self]
        simp only [Ref.bufProduce, List.append_nil] at hk ⊢
        exact hv' hk
  | some a =>
      obtain ⟨ha, hafree, hsz⟩ := h.held i a hbuf
      have hvsz := hv.bufSz
      obtain ⟨h', hpokes, hw⟩ := Heap.pokes_written bs (i := (m.buffer i).stopOff) ha
        (by omega) (by omega)
      have ho := h.written hw hafree
      rw [hpokes]
      refine ⟨_, rfl, ho.put rfl rfl, fun j hj => ⟨?_, fun b hb => ?_⟩, ?_⟩
      · rw [put_other _ _ hj]
      · exact hw.others b fun hba => hj (h.one j i a (hba ▸ hb) hbuf)
      · refine ⟨?_, ?_, ?_, ?_, fun k hk => ?_⟩
        · rw [put_self]; exact hv.allocated
        · rw [put_self]; exact hv.bufSz
        · rw [put_self]; exact hv.startOff
        · rw [put_self]; exact congrArg (· + _) hstop
        · have hk : k < (v.mem ++ bs).length := hk
          rw [List.length_append] at hk
          rw [put_self]
          show h'.peek (m.buffer i).buf k = (v.mem ++ bs)[k]?
          rw [hbuf]
          by_cases hold : k < v.mem.length
          · have hmem := hv.mem k hold
            rw [hbuf] at hmem
            rw [hw.before k (by omega), hmem, List.getElem?_append_left hold]
          · have hnew := hw.bytes (k - v.mem.length) (by omega)
            have hcast : (m.buffer i).stopOff + ((k - v.mem.length : Nat) : Int) = k := by omega
            rw [hcast] at hnew
            rw [hnew, List.getElem?_append_right (by omega)]

theorem growBuf_of_room {stopOff minSize bufSz : Int} (hroom : ¬ bufSz - stopOff ≤ minSize) :
    ∀ n, growBuf stopOff minSize n bufSz = bufSz
  | 0 => rfl
  | n + 1 => by rw [growBuf, if_neg hroom]

/-- The addresses `malloc` and `realloc` choose are not in use when they are called. -/
def Unused (m : Memory ι) (i : ι) (c : Allocation) : Prop :=
  c.mallocAt ∉ m.heap.live ∧
  ∀ m1 ∈ Blocks.bufTakeBlock m i c, ∀ p ∈ (m1.buffer i).buf,
    ∀ m2 ∈ Blocks.retry c.reallocFails m1, c.reallocAt ∉ m2.heap.live.erase p

instance (m : Memory ι) (i : ι) (c : Allocation) : Decidable (Unused m i c) :=
  inferInstanceAs (Decidable (_ ∧ _))

/-- What the queue of a buffer has to do with the buffer. -/
structure Fitting (v : Buffer) : Prop where
  ok : v.Ok
  fits : v.stopOff ≤ v.bufSz
  empty : v.allocated = false → v.stopOff = 0 ∧ v.bufSz = 0

theorem Owned.writer (h : Owned m free) (hv : Shows m i v) (hk : Fitting v) {c : Allocation}
    (hunused : Unused m i c) (minSize : Int) :
    ∃ m' free', Blocks.bufAlloc m i minSize c = some m' ∧ Owned m' free' ∧ Apart m m' i ∧
      Shows m' i (Ref.bufGetWriter (poolSizes m.heap free) v minSize).2.1 ∧
      Fitting (Ref.bufGetWriter (poolSizes m.heap free) v minSize).2.1 := by
  obtain ⟨m1, free1, htake, ho, hapart, hbuf, hs⟩ :=
    h.takeBlock hunused.1 hv hk.ok fun hn => (hk.empty hn).1
  obtain ⟨p, hp⟩ := Option.ne_none_iff_exists'.mp hbuf
  have hoffsets := bufTakeBlock_offsets (poolSizes m.heap free) v
  have hok1 := (hk.ok.holds.of_eq hoffsets.1 hoffsets.2.1 hoffsets.2.2).toOk
  have hfits1 : (Ref.bufTakeBlock (poolSizes m.heap free) v).2.stopOff
      ≤ (Ref.bufTakeBlock (poolSizes m.heap free) v).2.bufSz := by
    cases halloc : v.allocated with
    | true =>
        rw [Ref.bufTakeBlock, halloc, if_pos rfl]
        exact hk.fits
    | false =>
        obtain ⟨hlive, -, hsz⟩ := ho.held i p hp
        have hroom := ho.room p hlive
        have hitem : itemSize = 12 := rfl
        rw [hoffsets.2.1, hs.bufSz, (hk.empty halloc).1]
        omega
  have halloc1 : (Ref.bufTakeBlock (poolSizes m.heap free) v).2.allocated = true := by
    rw [hs.allocated, hp]
    rfl
  have hunused := hunused.2 m1 htake p hp
  rw [Blocks.bufAlloc, htake, Ref.bufGetWriter, Ref.bufAlloc]
  generalize (Ref.bufTakeBlock (poolSizes m.heap free) v).2 = w at *
  have hgrow := growBuf_ge w.stopOff minSize (minSize + w.stopOff + 1 - w.bufSz).toNat w.bufSz
  simp only [← hs.bufSz, ← hs.stopOff]
  have hsized : Fitting { w with
      bufSz := growBuf w.stopOff minSize (minSize + w.stopOff + 1 - w.bufSz).toNat w.bufSz
      ops := .writer w.stopOff minSize :: w.ops } :=
    ⟨⟨hok1.start_nonneg, hok1.start_le_stop, hok1.mem_length⟩, Int.le_trans hfits1 hgrow,
      fun hn => absurd (halloc1.symm.trans hn) (by decide)⟩
  by_cases hroom : w.bufSz - w.stopOff ≤ minSize
  · rw [if_pos hroom]
    have hlarger : (m1.buffer i).bufSz
        ≤ growBuf w.stopOff minSize (minSize + w.stopOff + 1 - w.bufSz).toNat w.bufSz := by
      rw [← hs.bufSz]
      exact hgrow
    obtain ⟨m2, free2, hrealloc, ho2, hapart2, -, hs2⟩ :=
      ho.realloc hp hlarger hunused hs hok1 hfits1
    exact ⟨m2, free2, hrealloc, ho2, hapart.trans hapart2,
      ⟨hs2.allocated, hs2.bufSz, hs2.startOff, hs2.stopOff, hs2.mem⟩, hsized⟩
  · rw [if_neg hroom]
    have hsame := growBuf_of_room hroom (minSize + w.stopOff + 1 - w.bufSz).toNat
    refine ⟨m1, free1, rfl, ho, hapart,
      ⟨hs.allocated, ?_, hs.startOff, hs.stopOff, hs.mem⟩, hsized⟩
    exact hsame.trans hs.bufSz

theorem Owned.rollback (h : Owned m free) (hv : Shows m i v) (n : Int) :
    ∃ m', poolStep m (.rollback i n) = some m' ∧ Owned m' free ∧ Apart m m' i ∧
      Shows m' i (Ref.bufRollbackProduced v n) := by
  refine ⟨_, rfl, h.put rfl rfl, apart_put m _, ?_, ?_, ?_, ?_, fun k hk => ?_⟩
  · rw [put_self]; exact hv.allocated
  · rw [put_self]; exact hv.bufSz
  · rw [put_self]; exact hv.startOff
  · rw [put_self]; exact congrArg (· - n) hv.stopOff
  · have hk : k < (v.mem.take (v.stopOff - n).toNat).length := hk
    rw [List.length_take] at hk
    rw [put_self]
    show m.heap.peek (m.buffer i).buf k = (v.mem.take (v.stopOff - n).toNat)[k]?
    rw [hv.mem k (by omega), List.getElem?_take_of_lt (by omega)]

/-- Bytes are taken from a buffer with a block. -/
theorem Owned.consume (h : Owned m free) (hv : Shows m i v) (halloc : v.allocated = true)
    (n : Int) :
    ∃ m' free', poolStep m (.consume i n) = some m' ∧ Owned m' free' ∧ Apart m m' i ∧
      Shows m' i (Ref.bufConsume (poolSizes m.heap free) v n).2 := by
  obtain ⟨a, hbuf⟩ := Option.isSome_iff_exists.mp (hv.allocated.symm.trans halloc)
  have hstart := hv.startOff
  have hstop := hv.stopOff
  rw [poolStep, Blocks.bufConsume, Ref.bufConsume]
  simp only [hstart, hstop]
  by_cases hend : (m.buffer i).startOff + n = (m.buffer i).stopOff
  · rw [if_pos hend, if_pos hend]
    have ho : Owned (m.put i { m.buffer i with startOff := 0, stopOff := 0 }) free :=
      h.put rfl rfl
    obtain ⟨m', hrel, ho', hapart, hb, -⟩ :=
        ho.release (i := i) (a := a) (by rw [put_self]; exact hbuf)
    refine ⟨m', a :: free, hrel, ho', (apart_put m _).trans hapart, ?_⟩
    rw [put_self] at hb
    refine ⟨?_, ?_, ?_, ?_, fun k hk => absurd hk (Nat.not_lt_zero k)⟩
    · rw [hb]; rfl
    · rw [hb]; rfl
    · rw [hb]; rfl
    · rw [hb]; rfl
  · rw [if_neg hend, if_neg hend]
    refine ⟨_, free, rfl, h.put rfl rfl, apart_put m _, ?_, ?_, ?_, ?_, fun k hk => ?_⟩
    · rw [put_self]; exact hv.allocated
    · rw [put_self]; exact hv.bufSz
    · rw [put_self]
    · rw [put_self]
    · rw [put_self]; exact hv.mem k hk

end OneBuffer

/-! ## What the buffers are for

To its callers a buffer is a queue, with a tail that may be taken back. The conditions
on their calls are those of `Permitted`. They are about the queues alone, but that
`malloc` gives out blocks that nobody has. -/

/-- A buffer as its user sees it. -/
structure Queue where
  unread : Bytes := []
  /-- the size `buf_get_writer` returned last -/
  last : Int := 0
  /-- what has not been produced of it; it is gone with the block -/
  left : Int := 0
  freed : Bool := false

section Runs

variable {ι : Type} [DecidableEq ι]

/-- An operation changes its own queue. `m` is the memory afterwards: the size of a
writer's region is not the user's choice. -/
def queueStep (q : ι → Queue) (m : Memory ι) : PoolOp ι → ι → Queue
  | .getWriter i _ _ => Function.update q i
      { q i with last := writerSize (m.buffer i), left := writerSize (m.buffer i) }
  | .produce i bs => Function.update q i
      { q i with unread := (q i).unread ++ bs, left := (q i).left - bs.length }
  | .getReader _ => q
  | .consume i n => Function.update q i
      { q i with
        unread := (q i).unread.drop n.toNat
        left := if (q i).unread.drop n.toNat = [] then 0 else (q i).left }
  | .rollback i n => Function.update q i
      { q i with
        unread := (q i).unread.take ((q i).unread.length - n.toNat)
        left := (q i).left + n }
  | .free i => Function.update q i { q i with freed := true }
  | .poolFree => q

/-- Memory, and beside it what each buffer stands for. -/
abbrev Pooled (ι : Type) := Memory ι × (ι → Queue)

/-- An operation on memory, and what it means for the queues. -/
def pooledStep (s : Pooled ι) (op : PoolOp ι) : Option (Pooled ι) :=
  (poolStep s.1 op).map fun m => (m, queueStep s.2 m op)

def pooledStart (block : Addr → Block) : Pooled ι :=
  ({ heap := { block := block }, buffer := fun _ => {} }, fun _ => {})

/-- How buffers may be used. -/
def Permitted (s : Pooled ι) : PoolOp ι → Prop
  | .getWriter i _ c => (s.2 i).freed = false ∧ Unused s.1 i c
  | .produce i bs => (s.2 i).freed = false ∧ bs.length ≤ (s.2 i).left
  | .getReader i => (s.2 i).freed = false
  | .consume i n => (s.2 i).freed = false ∧ 1 ≤ n ∧ n ≤ (s.2 i).unread.length
  | .rollback i n => (s.2 i).freed = false ∧ 0 ≤ n ∧ n ≤ (s.2 i).unread.length
  | .free i => (s.2 i).freed = false
  | .poolFree => True

instance (s : Pooled ι) : ∀ op, Decidable (Permitted s op)
  | .getWriter _ _ _ => inferInstanceAs (Decidable (_ ∧ _))
  | .produce _ _ => inferInstanceAs (Decidable (_ ∧ _))
  | .getReader _ => inferInstanceAs (Decidable (_ = _))
  | .consume _ _ => inferInstanceAs (Decidable (_ ∧ _))
  | .rollback _ _ => inferInstanceAs (Decidable (_ ∧ _))
  | .free _ => inferInstanceAs (Decidable (_ = _))
  | .poolFree => isTrue trivial

/-- A buffer and its queue. -/
structure Queued (v : Buffer) (q : Queue) : Prop where
  sized : Fitting v
  reader : Ref.bufGetReader v = q.unread
  left : q.left = v.bufSz - v.stopOff

theorem Queued.holds {v : Buffer} {q : Queue} (h : Queued v q) : v.Holds q.unread :=
  ⟨h.sized.ok, h.reader⟩

/-- The invariant: the blocks are owned, and every buffer that has not been freed shows
one of the other model, which holds its queue. -/
def PooledInv (s : Pooled ι) : Prop :=
  ∃ free, Owned s.1 free ∧
    ∀ i, (s.2 i).freed = false → ∃ v, Shows s.1 i v ∧ Queued v (s.2 i)

omit [DecidableEq ι] in
theorem pooledInv_start (block : Addr → Block) : PooledInv (pooledStart block : Pooled ι) := by
  have hkept : Queued {} {} := ⟨⟨Buffer.holds_empty.toOk, Int.le_refl _, fun _ =>
      ⟨rfl, rfl⟩⟩, rfl, rfl⟩
  refine ⟨[], ⟨rfl, List.nodup_nil, nofun, fun a ha => ?_, nofun, nofun, fun a ha => ?_⟩,
    fun i _ => ⟨{}, ⟨rfl, rfl, rfl, rfl, fun k hk => nomatch hk⟩, hkept⟩⟩
  · exact absurd ha (Finset.notMem_empty a)
  · exact absurd ha (Finset.notMem_empty a)

/-- The buffers an operation is not about keep their queues. -/
theorem PooledInv.others {s : Pooled ι} {m : Memory ι} {free : List Addr} {i : ι} {q : Queue}
    (hkept : ∀ j, (s.2 j).freed = false → ∃ v, Shows s.1 j v ∧ Queued v (s.2 j))
    (ho : Owned m free) (hapart : Apart s.1 m i)
    (hown : q.freed = false → ∃ v, Shows m i v ∧ Queued v q) :
    PooledInv (m, Function.update s.2 i q) := by
  refine ⟨free, ho, fun j hj => ?_⟩
  by_cases hji : j = i
  · subst hji
    simp only [Function.update_self] at hj ⊢
    exact hown hj
  · simp only [Function.update_of_ne hji] at hj ⊢
    obtain ⟨v, hv, hk⟩ := hkept j hj
    exact ⟨v, hv.apart hapart hji, hk⟩

/-! Each operation of `Ref.Buffer` on a buffer and its queue. -/

section Queued

variable {v : Buffer} {q : Queue}

theorem Queued.writer (h : Queued v q) {p : Pool} {minSize size : Int}
    (hsized : Fitting (Ref.bufGetWriter p v minSize).2.1)
    (hsize : size = (Ref.bufGetWriter p v minSize).2.1.bufSz
      - (Ref.bufGetWriter p v minSize).2.1.stopOff) :
    Queued (Ref.bufGetWriter p v minSize).2.1 { q with last := size, left := size } :=
  ⟨hsized, (bufGetWriter_holds h.holds p minSize).reader, hsize⟩

theorem Queued.produce (h : Queued v q) {bs : Bytes} (hbs : bs.length ≤ q.left) :
    Queued (Ref.bufProduce v bs)
      { q with unread := q.unread ++ bs, left := q.left - bs.length } := by
  have hleft := h.left
  have hholds := bufProduce_holds h.holds bs
  refine ⟨⟨hholds.toOk, ?_, fun hn => ?_⟩, hholds.reader, ?_⟩
  · show v.stopOff + bs.length ≤ v.bufSz
    omega
  · obtain ⟨hstop, hsz⟩ := h.sized.empty hn
    refine ⟨?_, hsz⟩
    show v.stopOff + bs.length = 0
    omega
  · show q.left - bs.length = v.bufSz - (v.stopOff + bs.length)
    omega

theorem Queued.rollback (h : Queued v q) {n : Int} (h0 : 0 ≤ n) (hn : n ≤ q.unread.length) :
    Queued (Ref.bufRollbackProduced v n)
      { q with unread := q.unread.take (q.unread.length - n.toNat), left := q.left + n } := by
  have hleft := h.left
  have hfits := h.sized.fits
  have hsplit : v.Holds (q.unread.take (q.unread.length - n.toNat)
      ++ q.unread.drop (q.unread.length - n.toNat)) := by
    rw [List.take_append_drop]
    exact h.holds
  have hholds := bufRollbackProduced_holds hsplit (n := n) (by rw [List.length_drop]; omega)
  refine ⟨⟨hholds.toOk, ?_, fun hn => ?_⟩, hholds.reader, ?_⟩
  · show v.stopOff - n ≤ v.bufSz
    omega
  · obtain ⟨hstop, hsz⟩ := h.sized.empty hn
    have hused := h.holds.used
    have hstart := h.sized.ok.start_nonneg
    rw [bufGetUsed] at hused
    refine ⟨?_, hsz⟩
    show v.stopOff - n = 0
    omega
  · show q.left + n = v.bufSz - (v.stopOff - n)
    omega

theorem Queued.allocated (h : Queued v q) (hne : 1 ≤ (q.unread.length : Int)) :
    v.allocated = true := by
  by_contra hn
  obtain ⟨hstop, -⟩ := h.sized.empty (Bool.eq_false_iff.mpr hn)
  have hused := h.holds.used
  have hstart := h.sized.ok.start_nonneg
  rw [bufGetUsed] at hused
  omega

theorem Queued.consume (h : Queued v q) {p : Pool} {n : Int} (h1 : 1 ≤ n)
    (hn : n ≤ q.unread.length) :
    Queued (Ref.bufConsume p v n).2 { q with
      unread := q.unread.drop n.toNat
      left := if q.unread.drop n.toNat = [] then 0 else q.left } := by
  have hsplit : v.Holds (q.unread.take n.toNat ++ q.unread.drop n.toNat) := by
    rw [List.take_append_drop]
    exact h.holds
  have hholds := bufConsume_holds (p := p) hsplit (n := n) (by rw [List.length_take]; omega)
  have hused := h.holds.used
  rw [bufGetUsed] at hused
  have hend : q.unread.drop n.toNat = [] ↔ v.startOff + n = v.stopOff := by
    rw [List.drop_eq_nil_iff]
    omega
  refine ⟨⟨hholds.toOk, ?_, fun hn => ?_⟩, hholds.reader, ?_⟩
  · rw [Ref.bufConsume]
    split
    · exact Int.le_refl 0
    · exact h.sized.fits
  · rw [Ref.bufConsume] at hn ⊢
    split
    · exact ⟨rfl, rfl⟩
    · next hne =>
        rw [if_neg hne] at hn
        exact absurd ((h.allocated (by omega)).symm.trans hn) (by decide)
  · simp only [hend, Ref.bufConsume]
    split
    · rfl
    · exact h.left

end Queued

/-- A permitted operation can be done, and keeps everything in order. -/
theorem PooledInv.step {s : Pooled ι} (h : PooledInv s) {op : PoolOp ι} (hp : Permitted s op) :
    ∃ s', pooledStep s op = some s' ∧ PooledInv s' ∧
      ∀ i n c, op = .getWriter i n c → n < writerSize (s'.1.buffer i) := by
  obtain ⟨free, ho, hkept⟩ := h
  cases op with
  | getWriter i minSize c =>
      obtain ⟨v, hv, hk⟩ := hkept i hp.1
      obtain ⟨m', free', hm, ho', hapart, hv', hsized⟩ := ho.writer hv hk.sized hp.2 minSize
      have hsize : writerSize (m'.buffer i) = (Ref.bufGetWriter (poolSizes s.1.heap free) v
          minSize).2.1.bufSz - (Ref.bufGetWriter (poolSizes s.1.heap free) v
          minSize).2.1.stopOff := by
        rw [writerSize, ← hv'.bufSz, ← hv'.stopOff]
      refine ⟨(m', queueStep s.2 m' (.getWriter i minSize c)), ?_,
        PooledInv.others hkept ho' hapart fun _ => ⟨_, hv', hk.writer hsized hsize⟩, ?_⟩
      · rw [pooledStep, poolStep, hm]
        rfl
      · rintro j n c' hop
        cases hop
        rw [hsize]
        exact bufGetWriter_room _ v minSize
  | produce i bs =>
      obtain ⟨hnf, hbs⟩ := hp
      obtain ⟨v, hv, hk⟩ := hkept i hnf
      have hleft := hk.left
      obtain ⟨m', hm, ho', hapart, hv'⟩ := ho.produce hv hk.sized.ok bs (by omega)
        fun hn => List.eq_nil_of_length_eq_zero (by have hempty := hk.sized.empty hn; omega)
      refine ⟨(m', queueStep s.2 m' (.produce i bs)), ?_,
        PooledInv.others hkept ho' hapart fun _ => ⟨_, hv', hk.produce hbs⟩, nofun⟩
      rw [pooledStep, hm]
      rfl
  | getReader i =>
      obtain ⟨v, hv, hk⟩ := hkept i hp
      refine ⟨s, ?_, ⟨free, ho, hkept⟩, nofun⟩
      rw [pooledStep, poolStep, hv.reader hk.sized.ok]
      rfl
  | consume i n =>
      obtain ⟨hnf, h1, hn⟩ := hp
      obtain ⟨v, hv, hk⟩ := hkept i hnf
      obtain ⟨m', free', hm, ho', hapart, hv'⟩ := ho.consume hv (hk.allocated (by omega)) n
      refine ⟨(m', queueStep s.2 m' (.consume i n)), ?_,
        PooledInv.others hkept ho' hapart fun _ => ⟨_, hv', hk.consume h1 hn⟩, nofun⟩
      rw [pooledStep, hm]
      rfl
  | rollback i n =>
      obtain ⟨hnf, h0, hn⟩ := hp
      obtain ⟨v, hv, hk⟩ := hkept i hnf
      obtain ⟨m', hm, ho', hapart, hv'⟩ := ho.rollback hv n
      refine ⟨(m', queueStep s.2 m' (.rollback i n)), ?_,
        PooledInv.others hkept ho' hapart fun _ => ⟨_, hv', hk.rollback h0 hn⟩, nofun⟩
      rw [pooledStep, hm]
      rfl
  | free i =>
      have hfree : ∃ m' free', Blocks.bufFree s.1 i = some m' ∧ Owned m' free' ∧
          Apart s.1 m' i := by
        rw [Blocks.bufFree]
        cases hbuf : (s.1.buffer i).buf with
        | none => exact ⟨s.1, free, rfl, ho, fun j _ => ⟨rfl, fun _ _ => ⟨Iff.rfl, rfl⟩⟩⟩
        | some a =>
            obtain ⟨m', hm, ho', hapart, -⟩ := ho.release hbuf
            exact ⟨m', a :: free, hm, ho', hapart⟩
      obtain ⟨m', free', hm, ho', hapart⟩ := hfree
      refine ⟨(m', queueStep s.2 m' (.free i)), ?_,
        PooledInv.others hkept ho' hapart fun hf => Bool.noConfusion hf, nofun⟩
      rw [pooledStep, poolStep, hm]
      rfl
  | poolFree =>
      obtain ⟨m', hm, ho', hb, hsame, -⟩ := ho.poolFree
      refine ⟨(m', s.2), ?_, ⟨[], ho', fun i hnf => ?_⟩, nofun⟩
      · rw [pooledStep, poolStep, hm]
        rfl
      · obtain ⟨v, hv, hk⟩ := hkept i hnf
        exact ⟨v, hv.same (congrFun hb i) fun a ha => hsame a (ho.held i a ha).2.1, hk⟩

/-- No use of memory goes wrong. At any time a block has one buffer, or is once in the pool
with its size; a buffer that has not been freed is in order and shows the bytes that have
been produced and not taken back; and a writer gets more room than it asks for. -/
theorem pooledBuffers_independent (block : Addr → Block) {ops : List (PoolOp ι)}
    (hok : AllSteps pooledStep Permitted (pooledStart block) ops) :
    ∃ s, runSteps pooledStep (pooledStart block) ops = some s ∧
      (∃ free, Owned s.1 free) ∧
      (∀ i, (s.2 i).freed = false →
        0 ≤ (s.1.buffer i).startOff ∧ (s.1.buffer i).startOff ≤ (s.1.buffer i).stopOff ∧
        (s.1.buffer i).stopOff ≤ (s.1.buffer i).bufSz ∧
        Blocks.bufGetReader s.1 i = some (s.2 i).unread) ∧
      ∀ i minSize c, Permitted s (.getWriter i minSize c) →
        ∃ s', pooledStep s (.getWriter i minSize c) = some s' ∧
          minSize < writerSize (s'.1.buffer i) := by
  have hstep : ∀ (s : Pooled ι) op, PooledInv s → Permitted s op →
      ∃ s', pooledStep s op = some s' ∧ PooledInv s' := by
    intro s op h hp
    obtain ⟨s', hs, hinv, -⟩ := h.step hp
    exact ⟨s', hs, hinv⟩
  obtain ⟨s, hrun, hinv⟩ := runSteps_total hstep (pooledInv_start block) hok
  obtain ⟨free, ho, hkept⟩ := hinv
  refine ⟨s, hrun, ⟨free, ho⟩, fun i hnf => ?_, fun i minSize c hp => ?_⟩
  · obtain ⟨v, hv, hk⟩ := hkept i hnf
    rw [← hv.startOff, ← hv.stopOff, ← hv.bufSz, ← hk.reader]
    exact ⟨hk.sized.ok.start_nonneg, hk.sized.ok.start_le_stop, hk.sized.fits,
      hv.reader hk.sized.ok⟩
  · obtain ⟨s', hs, -, hsize⟩ := PooledInv.step ⟨free, ho, hkept⟩ hp
    exact ⟨s', hs, hsize i minSize c rfl⟩

end Runs

/-! ## Two things the offsets do not bear -/

def anyWriter : PoolOp Unit := .getWriter () 0 { mallocAt := 1, reallocAt := 2 }

def emptyMemory : Pooled Unit := pooledStart fun _ => { size := 0 }

theorem pooledBuffers_independent_rolledBack :
    ∃ s, runSteps pooledStep emptyMemory
        [anyWriter, .produce () [7, 8], .rollback () 1, .produce () [9], .consume () 1] = some s ∧
      (∃ free, Owned s.1 free) ∧
      (∀ i, (s.2 i).freed = false →
        0 ≤ (s.1.buffer i).startOff ∧ (s.1.buffer i).startOff ≤ (s.1.buffer i).stopOff ∧
        (s.1.buffer i).stopOff ≤ (s.1.buffer i).bufSz ∧
        Blocks.bufGetReader s.1 i = some (s.2 i).unread) ∧
      ∀ i minSize c, Permitted s (.getWriter i minSize c) →
        ∃ s', pooledStep s (.getWriter i minSize c) = some s' ∧
          minSize < writerSize (s'.1.buffer i) :=
  pooledBuffers_independent (fun _ => { size := 0 }) (by decide)

/-- Only the last writer's size limits what is produced. -/
def PermittedByLast (s : Pooled Unit) : PoolOp Unit → Prop
  | .produce i bs => (s.2 i).freed = false ∧ bs.length ≤ (s.2 i).last
  | op => Permitted s op

instance (s : Pooled Unit) : ∀ op, Decidable (PermittedByLast s op)
  | .produce _ _ => inferInstanceAs (Decidable (_ ∧ _))
  | .getWriter i minSize c => inferInstanceAs (Decidable (Permitted s (.getWriter i minSize c)))
  | .getReader i => inferInstanceAs (Decidable (Permitted s (.getReader i)))
  | .consume i n => inferInstanceAs (Decidable (Permitted s (.consume i n)))
  | .rollback i n => inferInstanceAs (Decidable (Permitted s (.rollback i n)))
  | .free i => inferInstanceAs (Decidable (Permitted s (.free i)))
  | .poolFree => isTrue trivial

/-- `buf_free` leaves the offsets; and the size of a region is too much for what is left
of it, and after the block has been given back. -/
theorem pooledBuffers_offsets :
    (AllSteps pooledStep PermittedByLast emptyMemory
        [anyWriter, .produce () [7], .free ()] ∧
      ∃ s, runSteps pooledStep emptyMemory [anyWriter, .produce () [7], .free ()] = some s ∧
        (s.1.buffer ()).bufSz < (s.1.buffer ()).stopOff) ∧
    (AllSteps pooledStep PermittedByLast emptyMemory [anyWriter, .produce () [7]] ∧
      ∃ s, runSteps pooledStep emptyMemory [anyWriter, .produce () [7]] = some s ∧
        (s.1.buffer ()).bufSz
          < (Blocks.bufProduce (s.1.buffer ()) (s.2 ()).last).stopOff) ∧
    (AllSteps pooledStep PermittedByLast emptyMemory
        [anyWriter, .produce () [7], .consume () 1] ∧
      ∃ s, runSteps pooledStep emptyMemory [anyWriter, .produce () [7], .consume () 1] = some s ∧
        1 ≤ (s.2 ()).last ∧ (s.1.buffer ()).bufSz
            < (Blocks.bufProduce (s.1.buffer ()) 1).stopOff) := by
  refine ⟨⟨by decide, ?_⟩, ⟨by decide, ?_⟩, by decide, ?_⟩
  · have h : (runSteps pooledStep emptyMemory [anyWriter, .produce () [7], .free ()]).map
        (fun s => s.1.buffer ()) = some { stopOff := 1 } := by decide
    obtain ⟨s, hs, hb⟩ := Option.map_eq_some_iff.mp h
    exact ⟨s, hs, by rw [hb]; decide⟩
  · have h : (runSteps pooledStep emptyMemory [anyWriter, .produce () [7]]).map
        (fun s => (s.1.buffer (), (s.2 ()).last))
        = some (⟨some 1, initialBufSize, 0, 1⟩, initialBufSize) := by decide
    obtain ⟨s, hs, hb⟩ := Option.map_eq_some_iff.mp h
    obtain ⟨hb, hlast⟩ := Prod.mk.inj hb
    exact ⟨s, hs, by rw [hb, hlast]; decide⟩
  · have h : (runSteps pooledStep emptyMemory [anyWriter, .produce () [7], .consume () 1]).map
        (fun s => (s.1.buffer (), (s.2 ()).last)) = some ({}, initialBufSize) := by decide
    obtain ⟨s, hs, hb⟩ := Option.map_eq_some_iff.mp h
    obtain ⟨hb, hlast⟩ := Prod.mk.inj hb
    exact ⟨s, hs, by rw [hlast]; decide, by rw [hb]; decide⟩

end Smalltable.Proofs
