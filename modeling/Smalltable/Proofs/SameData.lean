import Smalltable.Proofs.Batch
import Smalltable.Proofs.FsStore
import Smalltable.Ref.FsKeys

/-!
# Servers that cannot be told apart

Whether requests come in one batch or in many shows in one place only: the keys
that `process_multi` hints to the engine before it serves a batch, and the room
the handlers find. An engine that keeps to `HidesReadahead` lets neither be seen,
and two servers whose data is the same then answer alike and stay alike
(`serveBuiltin_alike`).

An engine need not be a map for this. What it has stored may be anything that
`storage_get` can be called for, its `set` may fail and leave what it likes; all
that is used of it is that equal data is treated equally. The two engines of the
development are at the end: every `MapEngine`, and the file system's
(`storageFs_hidesReadahead`), whose `readahead` has no effect on the tree.
-/

namespace Smalltable.Proofs

open Smalltable.Ref Smalltable.Spec

/-! ## Items read back from what is stored

What an engine has stored is some bytes, and the handlers read an item from them, with
the metadata at its end. -/

theorem McMetadata.toBytes_ofBytes {b : Bytes} (h : b.length = sizeofMcMetadata) :
    (McMetadata.ofBytes b).toBytes = b := by
  rw [sizeofMcMetadata] at h
  have h1 : leBytes 4 (leVal (slice b 0 4)) = slice b 0 4 := by
    have hs := leBytes_leVal (slice b 0 4)
    rwa [length_slice, h] at hs
  have h2 : leBytes 4 (leVal (slice b 4 4)) = slice b 4 4 := by
    have hs := leBytes_leVal (slice b 4 4)
    rwa [length_slice, h] at hs
  have h3 : leBytes 8 (leVal (slice b 8 8)) = slice b 8 8 := by
    have hs := leBytes_leVal (slice b 8 8)
    rwa [length_slice, h] at hs
  simp only [McMetadata.toBytes, McMetadata.ofBytes]
  rw [h1, h2, h3, slice, slice, slice, List.drop_zero, ← List.take_add, ← List.take_add,
    List.take_of_length_le (by omega)]

theorem McMetadata.ofBytes_ok {b : Bytes} (h : b.length = sizeofMcMetadata) :
    (McMetadata.ofBytes b).Ok := by
  rw [sizeofMcMetadata] at h
  have hword : ∀ off n, (slice b off n).length = n → leVal (slice b off n) < 256 ^ n := by
    intro off n hn
    have hlt := leVal_lt (slice b off n)
    rwa [hn] at hlt
  exact ⟨hword 0 4 (by rw [length_slice]; omega), hword 4 4 (by rw [length_slice]; omega),
    hword 8 8 (by rw [length_slice]; omega)⟩

/-- The item that a byte string stands for. -/
def Item.ofBytes (b : Bytes) : Item :=
  let md := McMetadata.ofBytes (b.drop (b.length - sizeofMcMetadata))
  { value := b.take (b.length - sizeofMcMetadata), flags := md.flags,
    expiration := md.expiration, cas := md.cas }

theorem Item.metadata_ofBytes (b : Bytes) : (Item.ofBytes b).metadata
    = McMetadata.ofBytes (b.drop (b.length - sizeofMcMetadata)) := by
  rw [Item.metadata, Item.ofBytes]

theorem Item.toBytes_ofBytes {b : Bytes} (h : sizeofMcMetadata ≤ b.length) :
    (Item.ofBytes b).toBytes = b := by
  rw [Item.toBytes, Item.metadata_ofBytes,
    McMetadata.toBytes_ofBytes (by rw [List.length_drop]; omega)]
  exact List.take_append_drop _ _

theorem Item.ofBytes_ok {b : Bytes} (h : sizeofMcMetadata ≤ b.length) (hle : b.length ≤ itemRoom) :
    (Item.ofBytes b).Ok := by
  refine ⟨?_, ?_⟩
  · show (b.take _).length ≤ maxValueSize
    rw [itemRoom] at hle
    rw [List.length_take]
    omega
  · rw [Item.metadata_ofBytes]
    exact McMetadata.ofBytes_ok (by rw [List.length_drop]; omega)

/-! ## Data that is the same

Two engines with the same data answer a call alike and have the same data afterwards. A
hint for one of them leaves it so, whatever keys it is about and however often it is
given. -/

section Same

variable {σ γ : Type} {api : StStorageApi σ} {Same : σ → σ → Prop}

/-- The items that `storage_get` finds. -/
def itemsOf (api : StStorageApi σ) (s : σ) : Map := fun key =>
  (api.get s itemRoom key).bind fun b =>
    if b.length < sizeofMcMetadata then none else some (Item.ofBytes b)

variable (hhides : HidesReadahead api Same) {s t : σ} (hsame : Same s t)
include hhides hsame

theorem same_left : Same s s :=
  hhides.trans s t s hsame (hhides.symm s t hsame)

theorem same_shows : StorageShows api t (itemsOf api s) := by
  constructor
  · intro size key hsize
    rw [storageGet, itemsOf, ← hhides.get s t hsame itemRoom size key (Int.le_refl _) hsize]
    cases hget : api.get s itemRoom key with
    | none => rfl
    | some b =>
        have hfits := hhides.fits s t hsame key b hget
        have hroom : (b.length : Int) ≤ size := by
          rw [itemRoom] at hfits
          omega
        simp only [Option.bind_some]
        by_cases hshort : b.length < sizeofMcMetadata
        · rw [if_pos hshort, if_pos hshort]
          rfl
        · rw [if_neg hshort, if_neg hshort, if_pos hroom, Option.map_some,
            Item.toBytes_ofBytes (Nat.le_of_not_lt hshort)]
          rfl
  · intro key it hit
    obtain ⟨b, hget, hb⟩ := Option.bind_eq_some_iff.mp hit
    split at hb
    · cases hb
    · next hlong =>
        cases hb
        exact Item.ofBytes_ok (Nat.le_of_not_lt hlong) (hhides.fits s t hsame key b hget)

theorem storagePrefetch_same (keys : List Bytes) : Same s (storagePrefetch api t keys) := by
  have ht : Same t t := same_left hhides (hhides.symm s t hsame)
  rw [storagePrefetch]
  split
  · next readahead hra => exact hhides.trans s t _ hsame (hhides.readahead readahead hra t ht keys)
  · exact hsame

/-- The same request finds the same and leaves the same. -/
theorem engineStep_same (m : Map) (counter : Nat) {req : StReq} (hok : ReqOk req) :
    (engineStep api s m counter req).2 = (engineStep api t m counter req).2 ∧
      Same (engineStep api s m counter req).1 (engineStep api t m counter req).1 := by
  simp only [engineStep]
  split
  · exact ⟨rfl, hsame⟩
  · split
    · split
      · exact ⟨rfl, hsame⟩
      · exact ⟨rfl, hsame⟩
    · split
      · obtain ⟨hret, hdel⟩ := hhides.del s t hsame req.key
        simp only [hret]
        exact ⟨trivial, hdel⟩
      · split
        · have hitem := newItem_ok req hok (nextCas_lt counter)
          have hlen : (newItem req (nextCas counter).2).toBytes.length ≤ itemRoom := by
            rw [Item.length_toBytes, itemRoom]
            exact Nat.add_le_add_right hitem.value _
          obtain ⟨hret, hset⟩ := hhides.set s t hsame _ req.key hlen
          simp only [hret]
          exact ⟨trivial, hset⟩
        · exact ⟨rfl, hsame⟩

theorem serveEngine_same (m : Map) (counter : Nat) {req : StReq} (hok : ReqOk req) :
    (serveEngine api s m counter req).2 = (serveEngine api t m counter req).2 ∧
      Same (serveEngine api s m counter req).1 (serveEngine api t m counter req).1 := by
  simp only [serveEngine]
  split
  · exact engineStep_same hhides hsame m counter hok
  · exact ⟨rfl, hsame⟩

end Same

/-! ## Servers with the same data

Two servers are alike when their tables and counters are the same, and their data is. A
builtin handler reads and writes nothing else, so it answers alike on both. -/

/-- The data of two servers is the same, and so is the counter of CAS values. -/
structure ServersAlike {σ γ : Type} (Same : σ → σ → Prop) (w w' : World σ γ) : Prop where
  left : World.Inv w
  right : World.Inv w'
  store : Same w.store w'.store
  counter : w.uniqueNumber = w'.uniqueNumber

section Servers

variable {σ γ : Type} {api : StStorageApi σ} {Same : σ → σ → Prop}
  (hhides : HidesReadahead api Same) (vx : Vx γ) (cfg : Config γ) {w w' : World σ γ}
include hhides

theorem ServersAlike.symm (h : ServersAlike Same w w') : ServersAlike Same w' w :=
  ⟨h.right, h.left, hhides.symm _ _ h.store, h.counter.symm⟩

theorem ServersAlike.trans {w'' : World σ γ} (h : ServersAlike Same w w')
    (h' : ServersAlike Same w' w'') :
    ServersAlike Same w w'' :=
  ⟨h.left, h'.right, hhides.trans _ _ _ h.store h'.store, h.counter.trans h'.counter⟩

/-- One request, on two servers that are alike: below the limit on the output both
give the same answer and stay alike. -/
theorem serveBuiltin_alike (h : ServersAlike Same w w') {io io' : Io} {out out' : Bytes}
    (hout : io.sendBuf.Holds out) (hout' : io'.sendBuf.Holds out') (hlt : out.length < outputLimit)
    (hlt' : out'.length < outputLimit) {request : Bytes} (hreq : DataRequest request) :
    ∃ (w1 w1' : World σ γ) (io1 io1' : Io) (answer : Bytes),
      serveBuiltin api vx cfg (w, io) request = some (w1, io1) ∧
      serveBuiltin api vx cfg (w', io') request = some (w1', io1') ∧
      ServersAlike Same w1 w1' ∧ answer ≠ [] ∧ io1.sendBuf.Holds (out ++ answer) ∧
      io1'.sendBuf.Holds (out' ++ answer) ∧ SameInput io io1 ∧ SameInput io' io1' := by
  have hself := same_left hhides h.store
  obtain ⟨io1, hs, hholds, hkeep⟩ :=
    serveBuiltin_engine vx cfg (same_shows hhides hself) h.left io hout hlt hreq
  obtain ⟨io1', hs', hholds', hkeep'⟩ :=
    serveBuiltin_engine vx cfg (same_shows hhides h.store) h.right io' hout' hlt' hreq
  obtain ⟨heq, hstore⟩ := serveEngine_same hhides h.store (itemsOf api w.store) w.uniqueNumber
    (WellFormed.reqOk hreq.1)
  rw [← h.counter] at hs' hholds'
  refine ⟨_, _, io1, io1', _, hs, hs',
    ⟨h.left.of_eq rfl rfl rfl, h.right.of_eq rfl rfl rfl, hstore, congrArg Prod.fst heq⟩, ?_,
    hholds, ?_, hkeep, hkeep'⟩
  · intro hnil
    have hlen := Response.length_frame (serveEngine api w.store (itemsOf api w.store)
      w.uniqueNumber (unpackRequest request)).2.2
    rw [hnil, memcacheHeaderSize_eq, List.length_nil] at hlen
    omega
  · rw [heq]
    exact hholds'

/-- The hints to the engine leave a server as it was, as far as can be seen. -/
theorem dispatchStart_alike (h : ServersAlike Same w w') (io : Io) {batch : List Bytes}
    (hwf : ∀ f ∈ batch, WellFormed 0x80 f) :
    ∃ d, dispatchStart api w' io batch.flatten = some d ∧ WholeGroup d ∧ d.group = {} ∧
      ServersAlike Same w d.world ∧ d.io.sendBuf = io.sendBuf ∧
      d.io.recvBuf = (bufGetWriter io.pool io.recvBuf sizeofMcMetadata).2.1 := by
  obtain ⟨d, hd, hwhole, hgroup, hstore, hcount, hsend, -, -, hrecv⟩ :=
    dispatchStart_invariant (P := fun s => Same w.store s)
      (fun _ keys hs => storagePrefetch_same hhides hs keys) h.store h.right io hwf
  exact ⟨d, hd, hwhole, hgroup, ⟨h.left, hwhole.inv, hstore, h.counter.trans hcount.symm⟩, hsend,
    hrecv⟩

end Servers

/-! ## Engines that keep to it

An engine whose data is a map keeps to it with the equality of maps, and the engine of
the file system with the equality of trees, since hinting a key changes none. Both take
it that nothing larger than an item is stored. -/

/-- Data of a map is the same when it shows the same, and holds nothing larger
than an item. -/
structure SameMap {σ : Type} (eng : MapEngine σ) (s t : σ) : Prop where
  view : eng.view s = eng.view t
  fits : ∀ key v, eng.view s key = some v → v.length ≤ itemRoom

theorem mapEngine_hidesReadahead {σ : Type} (eng : MapEngine σ) :
    HidesReadahead eng.toStStorageApi (SameMap eng) := by
  have hget : ∀ s t, SameMap eng s t → ∀ (size : Int) key, itemRoom ≤ size →
      eng.get s size key = eng.view s key := by
    intro s t h size key hsize
    refine eng.get_view s size key fun v hv => ?_
    have hle := h.fits key v hv
    omega
  have hsymm : ∀ s t, SameMap eng s t → SameMap eng t s := by
    intro s t h
    refine ⟨h.view.symm, fun key v hv => h.fits key v ?_⟩
    rw [h.view]
    exact hv
  have hupdate : ∀ s t, SameMap eng s t → ∀ key (new : Option Bytes),
      (∀ v, new = some v → v.length ≤ itemRoom) → ∀ s' t',
      eng.view s' = Function.update (eng.view s) key new →
      eng.view t' = Function.update (eng.view t) key new → SameMap eng s' t' := by
    intro s t h key new hnew s' t' hs' ht'
    refine ⟨by rw [hs', ht', h.view], fun k v hv => ?_⟩
    rw [hs'] at hv
    by_cases hk : k = key
    · subst hk
      rw [Function.update_self] at hv
      exact hnew v hv
    · rw [Function.update_of_ne hk] at hv
      exact h.fits k v hv
  constructor
  case symm => exact hsymm
  case trans => exact fun s t u h h' => ⟨h.view.trans h'.view, h.fits⟩
  case get =>
    intro s t h size size' key hsize hsize'
    rw [hget s t h size key hsize, hget t s (hsymm s t h) size' key hsize', h.view]
  case fits =>
    intro s t h key v hv
    rw [hget s t h _ key (Int.le_refl _)] at hv
    exact h.fits key v hv
  case set =>
    intro s t h v key hv
    refine ⟨iff_of_false (Int.not_lt.mpr (eng.set_ret s v key))
      (Int.not_lt.mpr (eng.set_ret t v key)), ?_⟩
    refine hupdate s t h key (some v) ?_ _ _ (eng.set_view s v key) (eng.set_view t v key)
    rintro v' ⟨⟩
    exact hv
  case del =>
    intro s t h key
    refine ⟨by rw [eng.del_ret, eng.del_ret, h.view], ?_⟩
    exact hupdate s t h key none nofun _ _ (eng.del_view s key) (eng.del_view t key)
  case readahead =>
    intro f hf s h keys
    exact ⟨(eng.readahead_view f hf s keys).symm, h.fits⟩

/-! ### The file system -/

/-- No file is larger than an item. -/
def FilesFit (t : FsTree) : Prop := ∀ p data, t.find p = some (.file data) → data.length ≤ itemRoom

namespace FilesFit

variable {t t' : FsTree} {p q : Bytes}

theorem put (h : FilesFit t) {data : Bytes} (hdata : data.length ≤ itemRoom) :
    FilesFit (t.put p (.file data)) := by
  intro q data' hq
  rw [DirTree.find_put] at hq
  split at hq
  · cases hq
    exact hdata
  · exact h q data' hq

theorem erase (h : FilesFit t) : FilesFit (t.erase p) := by
  intro q data hq
  rw [DirTree.find_erase] at hq
  split at hq
  · cases hq
  · exact h q data hq

theorem mkdir (h : FilesFit t) (hmk : t.mkdir slash p = .ok t') : FilesFit t' := by
  intro q data hq
  rw [DirTree.find_mkdir hmk] at hq
  split at hq
  · cases hq
  · exact h q data hq

theorem openWrite (h : FilesFit t) (hopen : t.openWrite slash p = .ok t') : FilesFit t' := by
  rw [(DirTree.openWrite_cases hopen).1]
  exact h.put (Nat.zero_le _)

theorem unlink (h : FilesFit t) (hun : t.unlink slash p = .ok t') : FilesFit t' := by
  unfold DirTree.unlink at hun
  split at hun
  · cases hun
  · cases hun
  · split at hun
    · cases hun
      exact h.erase
    · cases hun

theorem rename (h : FilesFit t) (hre : t.rename slash p q = .ok t') : FilesFit t' := by
  unfold DirTree.rename at hre
  split at hre
  · next data hfile =>
      split at hre
      · cases hre
      · split at hre
        · cases hre
        · cases hcheck : DirTree.checkParent slash t q with
          | error e =>
              rw [hcheck] at hre
              cases hre
          | ok u =>
              rw [hcheck] at hre
              cases hre
              exact h.erase.put (h p data hfile)
  · cases hre
  · cases hre

theorem openNew (h : FilesFit t) (dir key path : Bytes) : FilesFit (openNew dir t path key).1 :=
  openNew_inv (fun _ _ _ ht hmk => ht.mkdir hmk) (fun _ _ ht hopen => ht.openWrite hopen) h

theorem fsSet (h : FilesFit t) (dir : Bytes) {value : Bytes} (hvalue : value.length ≤ itemRoom)
    (key : Bytes) : FilesFit (fsSet dir t value key).1 := by
  have hnew := h.openNew dir key (pathNew dir key)
  rw [Ref.fsSet, ← pathNew]
  cases hopen : Ref.openNew dir t (pathNew dir key) key with
  | mk t1 opened =>
      rw [hopen] at hnew
      cases opened with
      | false => exact hnew
      | true =>
          have hwrite : FilesFit (t1.write (pathNew dir key) value) := hnew.put hvalue
          simp only []
          split
          · exact hwrite
          · next hre => exact hwrite.rename hre

theorem fsDel (h : FilesFit t) (dir key : Bytes) : FilesFit (fsDel dir t key).1 := by
  rw [Ref.fsDel]
  split
  · exact h
  · next hun => exact h.unlink hun

theorem openRead (h : FilesFit t) {data : Bytes} (hopen : t.openRead slash p = .ok (.file data)) :
    data.length ≤ itemRoom := by
  unfold DirTree.openRead at hopen
  split at hopen
  · cases hopen
  · cases hopen
  · next data' hfile =>
      split at hopen
      · cases hopen
        exact h _ _ hfile
      · cases hopen

/-- With room for an item, every file is read. -/
theorem fsGet (h : FilesFit t) (dir : Bytes) {size : Int} (hsize : itemRoom ≤ size) (key : Bytes) :
    fsGet dir t size key = fsGet dir t itemRoom key := by
  rw [Ref.fsGet, Ref.fsGet]
  cases hopen : t.openRead slash (keyToFullpath dir key) with
  | error e => rfl
  | ok node =>
      cases node with
      | dir => rfl
      | file data =>
          have hdata := h.openRead hopen
          have hlarge : ∀ n : Int, itemRoom ≤ n → ¬ asUint64 n < data.length := by
            intro n hn
            rw [asUint64]
            omega
          simp only []
          rw [if_neg (hlarge size hsize), if_neg (hlarge _ (Int.le_refl _))]

theorem length_fsGet (h : FilesFit t) {dir key v : Bytes} {size : Int}
    (hget : Ref.fsGet dir t size key = some v) : v.length ≤ itemRoom := by
  rw [Ref.fsGet] at hget
  split at hget
  · cases hget
  · cases hget
  · next hopen =>
      split at hget
      · cases hget
      · cases hget
        exact h.openRead hopen

end FilesFit

/-- The engine of the file system hides what it reads ahead, in any directory whose
files are no larger than an item. -/
theorem storageFs_hidesReadahead (stat : Bytes → Nat) (dir : Bytes) :
    HidesReadahead (storageFs stat dir) fun s t => s = t ∧ FilesFit s := by
  constructor
  case symm =>
    rintro s t ⟨rfl, h⟩
    exact ⟨rfl, h⟩
  case trans =>
    rintro s t u ⟨rfl, h⟩ h'
    exact h'
  case get =>
    rintro s t ⟨rfl, h⟩ size size' key hsize hsize'
    exact (h.fsGet dir hsize key).trans (h.fsGet dir hsize' key).symm
  case fits =>
    rintro s t ⟨rfl, h⟩ key v hv
    exact h.length_fsGet hv
  case set =>
    rintro s t ⟨rfl, h⟩ v key hv
    exact ⟨Iff.rfl, rfl, h.fsSet dir hv key⟩
  case del =>
    rintro s t ⟨rfl, h⟩ key
    exact ⟨Iff.rfl, rfl, h.fsDel dir key⟩
  case readahead =>
    rintro f hf s h keys
    cases hf
    exact h

end Smalltable.Proofs
