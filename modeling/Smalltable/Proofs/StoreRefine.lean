import Smalltable.Proofs.Table
import Smalltable.Spec.Store

/-!
# The store commands refine the map

The handlers of `sys_commands.c`, run over an engine that behaves as a map,
give the answers and make the changes `Spec.step` says. The work is in three
places: the metadata behind the value comes off again in `storage_get`
(`storageGet_represents`), every error leaves through `set_error_code` into a
frame of its own (`refuse_failure`), and the four tests of `cmd_set`, run on the
result of one optional read, amount to `Spec.Accepts` (`storeRefusal_eq`).

All of that holds of any engine (`processSingle_steps`); that what an engine makes
of `set` and `del` is what the map makes of them is the rest
(`engineStep_represents`). `serve_refines` puts them together for one request and
`serveAll_refines` for a history. The room for the response is whatever `buf_get_writer` gave, which
is more than `MAX_REQUEST_SIZE + sizeof(MC_METADATA)`.
-/

namespace Smalltable.Proofs

open Smalltable.Ref Smalltable.Spec

/-- The room `builtin_commands_callback` asks for, and gets. -/
def Roomy (resBufSz : Int) : Prop := (maxRequestSize + sizeofMcMetadata : Nat) < resBufSz

theorem Roomy.lt {resBufSz : Int} (h : Roomy resBufSz) : 4195016 < resBufSz := h

/-! ## Leaving with an error

The texts of the errors are those of the table, and a response with one of them has
nothing else in it. -/

/-- Every message of the table fits a response. -/
theorem errorCodes_spec {status : Nat} {str : Bytes} (h : errorCodes status = some str) :
    status < nelemErrorCodes ∧ str.length < 256 := by
  unfold errorCodes at h
  split at h
  case h_7 => exact absurd h (by simp)
  all_goals
    rw [Option.some.injEq] at h
    subst h
    exact ⟨by decide, by decide⟩

/-- A refusal with a message of the table packs to the answer `Spec.failure`
describes, whatever the handler had put into the response before. -/
theorem refuse_failure {σ γ : Type} (w : World σ γ) (io : Io) {res : StRes} {req : StReq}
    {resBufSz : Int} (status : Nat) (hstatus : errorCodes status ≠ none)
    (hop : res.opcode = req.opcode) (hid : res.opaqueId = req.opaqueId)
    (hbuf : res.bufSz = resBufSz - memcacheHeaderSize) (hroom : Roomy resBufSz) :
    ∃ res', refuse w io res status = some (w, io, res') ∧
      packResponse resBufSz res' = some (failure req status).frame := by
  obtain ⟨str, hstr⟩ := Option.ne_none_iff_exists'.mp hstatus
  obtain ⟨hlt, hshort⟩ := errorCodes_spec hstr
  have hr := hroom.lt
  rw [nelemErrorCodes] at hlt
  have hmsg : errorStr status none = some str := by
    rw [errorStr, if_pos (by rw [nelemErrorCodes]; omega), hstr]
  have h := packResponse_setErrorCode res (by omega) hmsg hshort hbuf
    (by rw [memcacheHeaderSize_eq]; omega)
  obtain ⟨res', hres, hpack⟩ := Option.bind_eq_some_iff.mp h
  refine ⟨res', by rw [refuse, hres], ?_⟩
  rw [hpack, Spec.failure, hstr, hop, hid]
  rfl

/-- A response without extras and value is its header. -/
theorem packResponse_bare {resBufSz : Int} {res : StRes} (hext : res.extrasSz = 0)
    (hkey : res.keySz = 0) (hval : res.valueSz = 0) (hroom : Roomy resBufSz) :
    packResponse resBufSz res = some (Response.frame
      { opcode := res.opcode, opaqueId := res.opaqueId, status := res.status,
        cas := res.cas }) := by
  have hr := hroom.lt
  refine packResponse_frame [] [] hkey hext (fun hne => absurd rfl hne) hval
    (fun hne => absurd rfl hne) ?_ (by decide) ?_
  · rw [List.length_nil, peek, List.take_zero]
    simp
  · rw [memcacheHeaderSize_eq, List.length_nil]
    omega

theorem prepareRes_opcode (resBufSz : Int) (request : Bytes) :
    (prepareRes resBufSz request).opcode = (unpackRequest request).opcode := rfl

/-! ## One request

What a handler reads is what the map has, since an item comes back from the engine as it
was stored, with the metadata at its end. -/

section Single

variable {σ γ : Type} (eng : MapEngine σ) (vx : Vx γ) (cfg : Config γ)

theorem processSingle_of {api : StStorageApi σ} {ptr : CmdPtr} {w w' : World σ γ} {io io' : Io}
    {request out : Bytes} {resBufSz : Int} {res : StRes}
    (hcall : callBuiltin api vx cfg ptr w io (unpackRequest request)
      (prepareRes resBufSz request) = some (w', io', res))
    (hpack : packResponse resBufSz res = some out) :
    processSingle api vx cfg ptr w io request resBufSz = some (w', io', out) := by
  simp only [processSingle, hcall, hpack]

theorem Item.length_toBytes (it : Item) :
    it.toBytes.length = it.value.length + sizeofMcMetadata := by
  rw [Item.toBytes, List.length_append, McMetadata.length_toBytes]

/-- With room for any item, the engine is looked up like the map. -/
theorem get_represents {s : σ} {m : Map} (h : Represents eng s m) {size : Int}
    (hsize : (maxValueSize + sizeofMcMetadata : Nat) ≤ size) (key : Bytes) :
    eng.get s size key = (m key).map Item.toBytes := by
  have hfit : ∀ v, eng.view s key = some v → (v.length : Int) ≤ size := by
    intro v hv
    rw [h.view key, Option.map_eq_some_iff] at hv
    obtain ⟨it, hit, rfl⟩ := hv
    have hval := (h.ok key it hit).value
    rw [Item.length_toBytes]
    omega
  rw [eng.get_view s size key hfit, h.view key]

/-- Reading through the storage layer is looking in the map. -/
theorem storageGet_represents {s : σ} {m : Map} (h : Represents eng s m) (valueSz : Int)
    (hsz : (maxValueSize + sizeofMcMetadata : Nat) ≤ valueSz) (key : Bytes) :
    storageGet eng.toStStorageApi s valueSz key
      = some ((m key).map fun it => (it.toBytes, it.metadata)) := by
  rw [storageGet, get_represents eng h hsz key]
  cases hit : m key with
  | none => rfl
  | some it =>
      have hlen := Item.length_toBytes it
      have hok := h.ok key it hit
      have hval := hok.value
      have hmd : it.toBytes.drop (it.toBytes.length - sizeofMcMetadata)
          = it.metadata.toBytes := by
        rw [hlen, Nat.add_sub_cancel, Item.toBytes, List.drop_left]
      simp only [Option.map_some]
      rw [if_neg (by omega), if_pos (by omega), hmd, McMetadata.ofBytes_toBytes hok.metadata]

/-- What is stored is in the map. -/
theorem represents_put {s : σ} {m : Map} (h : Represents eng s m) (key : Bytes) {it : Item}
    (hit : it.Ok) :
    Represents eng (eng.set s it.toBytes key).1 (Function.update m key (some it)) := by
  constructor
  · intro k
    rw [eng.set_view]
    by_cases hk : k = key
    · subst hk; simp
    · rw [Function.update_of_ne hk, Function.update_of_ne hk, h.view k]
  · intro k it' hit'
    by_cases hk : k = key
    · subst hk
      rw [Function.update_self, Option.some.injEq] at hit'
      exact hit' ▸ hit
    · rw [Function.update_of_ne hk] at hit'
      exact h.ok k it' hit'

/-- The four tests of `cmd_set` on a real read. -/
theorem storeRefusal_eq (m : Map) (req : StReq) :
    storeRefusal req ((m req.key).map Item.metadata)
      = if Accepts m req then none else some (refusalStatus m req) := by
  have hne : memcacheCmdAdd ≠ memcacheCmdReplace := by decide
  cases hit : m req.key with
  | none =>
      by_cases hcas : req.cas = 0 <;> by_cases hrep : req.opcode = memcacheCmdReplace <;>
        simp [storeRefusal, Accepts, refusalStatus, hit, hcas, hrep]
  | some it =>
      by_cases hcas : req.cas = 0
      · by_cases ha : req.opcode = memcacheCmdAdd
        · simp [storeRefusal, Accepts, refusalStatus, hit, hcas, ha]
        · simp [storeRefusal, Accepts, hit, hcas, ha]
      · by_cases hc : it.cas = req.cas
        · by_cases ha : req.opcode = memcacheCmdAdd
          · simp [storeRefusal, Accepts, refusalStatus, hit, hcas, ha, hc, Item.metadata]
          · simp [storeRefusal, Accepts, hit, hcas, ha, hc, Item.metadata]
        · simp [storeRefusal, Accepts, refusalStatus, hit, hcas, hc, Item.metadata]

/-- What the storage layer is told about: requests of the right size. -/
structure ReqOk (req : StReq) : Prop where
  value : req.value.length ≤ maxValueSize
  cas : req.cas < 2 ^ 64

theorem newItem_ok (req : StReq) (hok : ReqOk req) {cas : Nat} (hcas : cas < 2 ^ 64) :
    (newItem req cas).Ok := by
  have hword : ∀ off, beVal (slice req.extras off 4) < 2 ^ 32 := by
    intro off
    have hlen : (slice req.extras off 4).length ≤ 4 := by rw [length_slice]; omega
    exact Nat.lt_of_lt_of_le (beVal_lt _) (Nat.pow_le_pow_right (n := 256) (by decide) hlen)
  exact ⟨hok.value, ⟨hword 0, hword 4, hcas⟩⟩

theorem WellFormed.reqOk {f : Bytes} (h : WellFormed 0x80 f) : ReqOk (unpackRequest f) := by
  have hf := h.facts
  have h1 := hf.fits
  have h2 := hf.value
  constructor
  · rw [maxValueSize_eq] at h2 ⊢
    simp only [unpackRequest, length_slice]
    omega
  · have hlen : (slice f 16 8).length ≤ 8 := by rw [length_slice]; omega
    exact Nat.lt_of_lt_of_le (beVal_lt (slice f 16 8))
      (Nat.pow_le_pow_right (n := 256) (by decide) hlen)

theorem nextCas_lt (u : Nat) : (nextCas u).2 < 2 ^ 64 := by
  simp only [nextCas]
  split
  · show 1 < 2 ^ 64
    decide
  · show (if _ then 1 else 0) < 2 ^ 64
    split <;> decide

/-- The specification's step on a world whose store stands for `m`. -/
def specStep (w : World σ γ) (m : Map) (request : Bytes) : State × Response :=
  step nextCas ⟨m, w.uniqueNumber⟩ (unpackRequest request)

/-! ## One request on any engine

What a handler reads of the engine is what `storage_get` shows of it in the room
that every response has. What it writes, and what comes of it, is the engine's
affair: `set` and `del` may fail. -/

/-- `storage_get` shows the map `m`. -/
structure StorageShows (api : StStorageApi σ) (s : σ) (m : Map) : Prop where
  get : ∀ (size : Int) (key : Bytes), (maxValueSize + sizeofMcMetadata : Nat) ≤ size →
    storageGet api s size key = some ((m key).map fun it => (it.toBytes, it.metadata))
  ok : ∀ key it, m key = some it → it.Ok

theorem Represents.shows {eng : MapEngine σ} {s : σ} {m : Map} (h : Represents eng s m) :
    StorageShows eng.toStStorageApi s m :=
  ⟨fun size key hsize => storageGet_represents eng h size hsize key, h.ok⟩

/-- The engine's data and the counter after a request, and the answer. -/
def engineStep (api : StStorageApi σ) (s : σ) (m : Map) (counter : Nat) (req : StReq) :
    σ × Nat × Response :=
  if validArguments req = false then (s, counter, failure req memcacheStatusInvalidArguments)
  else if req.opcode = memcacheCmdGet then
    match m req.key with
    | none => (s, counter, failure req memcacheStatusKeyNotFound)
    | some it =>
        (s, counter, { answer req memcacheStatusOk with
          cas := it.cas, extras := beBytes 4 it.flags, value := it.value })
  else if req.opcode = memcacheCmdDelete then
    let r := api.del s req.key
    (r.1, counter,
      if r.2 < 0 then failure req memcacheStatusKeyNotFound else answer req memcacheStatusOk)
  else
    let drawn := nextCas counter
    if Accepts m req then
      let r := api.set s (newItem req drawn.2).toBytes req.key
      (r.1, drawn.1,
        if r.2 < 0 then failure req memcacheStatusItemNotStored
        else { answer req memcacheStatusOk with cas := drawn.2 })
    else (s, drawn.1, failure req (refusalStatus m req))

/-- A handler leaves the world, and the answer, of `engineStep`. -/
def Steps (api : StStorageApi σ) (handler : World σ γ → Io → StReq → StRes → Option (Reply σ γ))
    (w : World σ γ) (m : Map) (io : Io) (request : Bytes) (resBufSz : Int) : Prop :=
  let r := engineStep api w.store m w.uniqueNumber (unpackRequest request)
  ∃ res, handler w io (unpackRequest request) (prepareRes resBufSz request)
      = some ({ w with uniqueNumber := r.2.1, store := r.1 }, io, res) ∧
    packResponse resBufSz res = some r.2.2.frame

section Engine

variable {api : StStorageApi σ} {w : World σ γ} {m : Map} (h : StorageShows api w.store m) (io : Io)
include h

theorem cmdGet_steps {request : Bytes} {resBufSz : Int} (hroom : Roomy resBufSz)
    (hop : mcGetOpcode request = memcacheCmdGet) :
    Steps api (cmdGet api) w m io request resBufSz := by
  rw [Steps]
  have hr := hroom.lt
  set req := unpackRequest request with hreq
  have hopc : req.opcode = memcacheCmdGet := hop
  have hvalid : validArguments req = false ↔
      (req.extras ≠ [] ∨ req.key = [] ∨ req.value ≠ []) := by
    rw [validArguments, if_pos (.inl hopc)]
    simp only [decide_eq_false_iff_not]
    tauto
  rw [cmdGet]
  by_cases hargs : req.extras ≠ [] ∨ req.key = [] ∨ req.value ≠ []
  · rw [if_pos hargs, engineStep, if_pos (hvalid.mpr hargs)]
    obtain ⟨res, hres, hpack⟩ := refuse_failure w io memcacheStatusInvalidArguments (by decide)
      (prepareRes_opcode resBufSz request) rfl rfl hroom
    exact ⟨res, hres, hpack⟩
  · rw [if_neg hargs, engineStep, if_neg (fun hv => hargs (hvalid.mp hv)), if_pos hopc]
    have hget := h.get (resBufSz - memcacheHeaderSize - 4) req.key
      (by rw [memcacheHeaderSize_eq, maxValueSize_eq, sizeofMcMetadata]; omega)
    simp only [prepareRes, ← hreq, hget]
    cases hit : m req.key with
    | none =>
        have hsame : ({ prepareRes resBufSz request with
            extras := some 0, value := some 4 }).opcode = req.opcode := rfl
        obtain ⟨res, hres, hpack⟩ := refuse_failure w io memcacheStatusKeyNotFound (by decide)
          hsame rfl rfl hroom
        exact ⟨_, hres, hpack⟩
    | some it =>
        refine ⟨_, rfl, ?_⟩
        have hval := (h.ok _ _ hit).value
        have hlen := Item.length_toBytes it
        rw [maxValueSize_eq] at hval
        refine packResponse_frame (beBytes 4 it.flags) it.value rfl
          (length_beBytes _ _).symm (fun _ => rfl) ?_ (fun _ => ?_) ?_ ?_ ?_
        · show it.toBytes.length - sizeofMcMetadata = it.value.length
          omega
        · show some 4 = some (beBytes 4 it.flags).length
          rw [length_beBytes]
        · -- the flags are written in front of the item, whose metadata is cut off
          have hshort : it.value.length ≤ it.toBytes.length := by omega
          have hfront := take_poke_zero_poke [] (beBytes 4 it.flags) hshort
          rw [length_beBytes, Item.toBytes, List.take_left, ← Item.toBytes] at hfront
          show peek (poke (poke [] 4 it.toBytes) 0 (leBytes 4 (htonl it.flags))) _ = _
          rw [leBytes_htonl, length_beBytes, peek_of_le, hfront]
          have hl := congrArg List.length hfront
          rw [List.length_take, List.length_append, length_beBytes] at hl
          omega
        · rw [length_beBytes]; omega
        · rw [length_beBytes, memcacheHeaderSize_eq]; omega

omit h in
theorem cmdDelete_steps {request : Bytes} {resBufSz : Int} (hroom : Roomy resBufSz)
    (hop : mcGetOpcode request = memcacheCmdDelete) :
    Steps api (cmdDelete api) w m io request resBufSz := by
  rw [Steps]
  set req := unpackRequest request with hreq
  have hopc : req.opcode = memcacheCmdDelete := hop
  have hget : req.opcode ≠ memcacheCmdGet := by rw [hopc]; decide
  have hvalid : validArguments req = false ↔
      (req.extras ≠ [] ∨ req.key = [] ∨ req.value ≠ []) := by
    rw [validArguments, if_pos (.inr hopc)]
    simp only [decide_eq_false_iff_not]
    tauto
  rw [cmdDelete]
  by_cases hargs : req.extras ≠ [] ∨ req.key = [] ∨ req.value ≠ []
  · rw [if_pos hargs, engineStep, if_pos (hvalid.mpr hargs)]
    obtain ⟨res, hres, hpack⟩ := refuse_failure w io memcacheStatusInvalidArguments (by decide)
      (prepareRes_opcode resBufSz request) rfl rfl hroom
    exact ⟨res, hres, hpack⟩
  · rw [if_neg hargs, engineStep, if_neg (fun hv => hargs (hvalid.mp hv)), if_neg hget,
      if_pos hopc]
    simp only []
    by_cases hneg : (storageDelete api w.store req.key).2 < 0
    · rw [if_pos hneg, if_pos (show (api.del w.store req.key).2 < 0 from hneg)]
      obtain ⟨res, hres, hpack⟩ := refuse_failure
        { w with store := (api.del w.store req.key).1 } io memcacheStatusKeyNotFound (by decide)
        (prepareRes_opcode resBufSz request) rfl rfl hroom
      exact ⟨_, hres, hpack⟩
    · rw [if_neg hneg, if_neg (show ¬ (api.del w.store req.key).2 < 0 from hneg)]
      exact ⟨_, rfl, packResponse_bare rfl rfl rfl hroom⟩

/-- The optional read and the four tests on its result. A plain SET asks nothing
of the item, and is never refused. -/
theorem currentItem_accepts (req : StReq) (res : StRes)
    (hsz : (maxValueSize + sizeofMcMetadata : Nat) ≤ res.bufSz) :
    ∃ current mem, currentItem api w req res = some (current, mem) ∧
      storeRefusal req current
        = if Accepts m req then none else some (refusalStatus m req) := by
  rw [currentItem]
  by_cases hread : req.cas ≠ 0 ∨ req.opcode ≠ memcacheCmdSet
  · rw [if_pos hread, h.get res.bufSz req.key hsz, ← storeRefusal_eq]
    cases hit : m req.key with
    | none => exact ⟨none, res.mem, rfl, rfl⟩
    | some it => exact ⟨some it.metadata, poke res.mem 0 it.toBytes, rfl, rfl⟩
  · rw [if_neg hread]
    refine ⟨_, _, rfl, ?_⟩
    simp only [not_or, not_not] at hread
    obtain ⟨hcas, hset⟩ := hread
    have hadd : req.opcode ≠ memcacheCmdAdd := by rw [hset]; decide
    have hrep : req.opcode ≠ memcacheCmdReplace := by rw [hset]; decide
    have hacc : Accepts m req :=
      ⟨.inl hcas, fun hop => absurd hop hadd, fun hop => absurd hop hrep⟩
    rw [if_pos hacc]
    simp [storeRefusal, hcas, hadd]

theorem cmdSet_steps {request : Bytes} {resBufSz : Int} (hroom : Roomy resBufSz)
    (hop : IsStore (mcGetOpcode request)) : Steps api (cmdSet api) w m io request resBufSz := by
  rw [Steps]
  have hr := hroom.lt
  set req := unpackRequest request with hdef
  have hopc : IsStore req.opcode := hop
  have hget : req.opcode ≠ memcacheCmdGet := by
    rcases hopc with h | h | h <;> rw [h] <;> decide
  have hdel : req.opcode ≠ memcacheCmdDelete := by
    rcases hopc with h | h | h <;> rw [h] <;> decide
  have hvalid : validArguments req = false ↔ (req.extras.length ≠ 8 ∨ req.key = []) := by
    rw [validArguments, if_neg (by tauto)]
    simp only [decide_eq_false_iff_not]
    tauto
  rw [cmdSet]
  by_cases hargs : req.extras.length ≠ 8 ∨ req.key = []
  · rw [if_pos hargs, engineStep, if_pos (hvalid.mpr hargs)]
    obtain ⟨res, hres, hpack⟩ := refuse_failure w io memcacheStatusInvalidArguments (by decide)
      (prepareRes_opcode resBufSz request) rfl rfl hroom
    exact ⟨res, hres, hpack⟩
  · rw [if_neg hargs, engineStep, if_neg (fun hv => hargs (hvalid.mp hv)), if_neg hget, if_neg hdel]
    have h' : StorageShows api ({ w with uniqueNumber := (nextCas w.uniqueNumber).1 }).store m := h
    have hsz : (maxValueSize + sizeofMcMetadata : Nat) ≤ (prepareRes resBufSz request).bufSz := by
      show _ ≤ resBufSz - memcacheHeaderSize
      rw [maxValueSize_eq, sizeofMcMetadata, memcacheHeaderSize_eq]
      omega
    obtain ⟨current, mem, hcur, href⟩ := currentItem_accepts h' req _ hsz
    simp only [hcur, href]
    by_cases hacc : Accepts m req
    · have hkey : ¬ req.key.length = 0 := fun h0 => hargs (.inr (List.length_eq_zero_iff.mp h0))
      have hlen : req.extras.length = 8 := by
        by_contra hne
        exact hargs (.inl hne)
      have hset : storageSet api w.store
          { flags := ntohl (leVal (slice req.extras 0 4))
            expiration := ntohl (leVal (slice req.extras 4 4))
            cas := (nextCas w.uniqueNumber).2 } req.value req.key
          = api.set w.store (newItem req (nextCas w.uniqueNumber).2).toBytes req.key := by
        rw [storageSet, if_neg hkey, ntohl_leVal (by rw [length_slice]; omega),
          ntohl_leVal (by rw [length_slice]; omega)]
        rfl
      rw [if_pos hacc, if_pos hacc]
      simp only [hset]
      by_cases hneg : (api.set w.store (newItem req (nextCas w.uniqueNumber).2).toBytes
          req.key).2 < 0
      · rw [if_pos hneg, if_pos hneg]
        have hsame : ({ prepareRes resBufSz request with mem := mem }).opcode = req.opcode := rfl
        obtain ⟨res, hres, hpack⟩ := refuse_failure
          { w with
            uniqueNumber := (nextCas w.uniqueNumber).1
            store := (api.set w.store (newItem req (nextCas w.uniqueNumber).2).toBytes req.key).1 }
          io memcacheStatusItemNotStored (by decide) hsame rfl rfl hroom
        exact ⟨_, hres, hpack⟩
      · rw [if_neg hneg, if_neg hneg]
        exact ⟨_, rfl, packResponse_bare rfl rfl rfl hroom⟩
    · rw [if_neg hacc, if_neg hacc]
      have hstatus : errorCodes (refusalStatus m req) ≠ none := by
        rw [refusalStatus]
        split
        · decide
        · split <;> decide
      have hsame : ({ prepareRes resBufSz request with mem := mem }).opcode = req.opcode := rfl
      obtain ⟨res, hres, hpack⟩ := refuse_failure
        { w with uniqueNumber := (nextCas w.uniqueNumber).1 } io (refusalStatus m req) hstatus
        hsame rfl rfl hroom
      exact ⟨_, hres, hpack⟩

omit h in
theorem storeOpcode_ptr {op : UInt8} (hop : IsStoreOpcode op) :
    (cmdPointersInit op).isRo ∧
      ((op = memcacheCmdGet ∧ (cmdPointersInit op).ptr = .builtin .get) ∨
        (IsStore op ∧ (cmdPointersInit op).ptr = .builtin .set) ∨
        (op = memcacheCmdDelete ∧ (cmdPointersInit op).ptr = .builtin .delete)) := by
  rcases hop with rfl | rfl | rfl | rfl | rfl <;> decide

/-- One request through the slot of its opcode. -/
theorem processSingle_steps (hslots : w.BuiltinsIntact) {request : Bytes} {resBufSz : Int}
    (hroom : Roomy resBufSz) (hop : IsStoreOpcode (mcGetOpcode request)) :
    let r := engineStep api w.store m w.uniqueNumber (unpackRequest request)
    processSingle api vx cfg (w.cmdPointers (mcGetOpcode request)).ptr w io request resBufSz
      = some ({ w with uniqueNumber := r.2.1, store := r.1 }, io, r.2.2.frame) := by
  obtain ⟨hro, hcases⟩ := storeOpcode_ptr hop
  intro r
  rw [hslots _ hro]
  rcases hcases with ⟨hget, hptr⟩ | ⟨hset, hptr⟩ | ⟨hdel, hptr⟩
  · obtain ⟨res, hres, hpack⟩ := cmdGet_steps h io hroom hget
    refine processSingle_of vx cfg ?_ hpack
    rw [hptr]
    exact hres
  · obtain ⟨res, hres, hpack⟩ := cmdSet_steps h io hroom hset
    refine processSingle_of vx cfg ?_ hpack
    rw [hptr]
    exact hres
  · obtain ⟨res, hres, hpack⟩ := cmdDelete_steps io hroom hdel
    refine processSingle_of vx cfg ?_ hpack
    rw [hptr]
    exact hres

end Engine

/-! ## One request on an engine that is a map

Storing an item puts it into the map and deleting takes it out; the rest is what was
said of any engine. -/

theorem represents_delete {s : σ} {m : Map} (h : Represents eng s m) (key : Bytes) :
    Represents eng (eng.del s key).1 (Function.update m key none) := by
  constructor
  · intro k
    rw [eng.del_view]
    by_cases hk : k = key
    · subst hk; simp
    · rw [Function.update_of_ne hk, Function.update_of_ne hk, h.view k]
  · intro k it hit
    by_cases hk : k = key
    · subst hk; simp at hit
    · rw [Function.update_of_ne hk] at hit
      exact h.ok k it hit

/-- The engine's step is that of the map it stands for. -/
theorem engineStep_represents {s : σ} {m : Map} (h : Represents eng s m) (counter : Nat)
    {req : StReq} (hok : ReqOk req) :
    let r := engineStep eng.toStStorageApi s m counter req
    r.2.1 = (step nextCas ⟨m, counter⟩ req).1.counter ∧ r.2.2 = (step nextCas ⟨m, counter⟩ req).2 ∧
      Represents eng r.1 (step nextCas ⟨m, counter⟩ req).1.map := by
  intro r
  show _ ∧ _ ∧ Represents eng r.1 _
  simp only [r, engineStep, step]
  split
  · exact ⟨rfl, rfl, h⟩
  · split
    · cases m req.key with
      | none => exact ⟨rfl, rfl, h⟩
      | some it => exact ⟨rfl, rfl, h⟩
    · split
      · have hrep := represents_delete eng h req.key
        have hret : (eng.del s req.key).2 < 0 ↔ m req.key = none := by
          rw [eng.del_ret, h.view, Option.map_eq_none_iff]
        by_cases hnone : m req.key = none
        · have hsame : Function.update m req.key none = m := by
            rw [← hnone, Function.update_eq_self]
          rw [if_pos (hret.mpr hnone), if_pos hnone]
          exact ⟨rfl, rfl, hsame ▸ hrep⟩
        · rw [if_neg fun hneg => hnone (hret.mp hneg), if_neg hnone]
          exact ⟨rfl, rfl, hrep⟩
      · split
        · have hpos : ¬ (eng.set s (newItem req (nextCas counter).2).toBytes req.key).2 < 0 :=
            Int.not_lt.mpr (eng.set_ret _ _ _)
          rw [if_neg hpos]
          exact ⟨rfl, rfl, represents_put eng h _ (newItem_ok req hok (nextCas_lt _))⟩
        · exact ⟨rfl, rfl, h⟩

theorem processSingle_refines {w : World σ γ} {m : Map} (h : Represents eng w.store m) (io : Io)
    (hslots : w.BuiltinsIntact) {request : Bytes} {resBufSz : Int}
    (hroom : Roomy resBufSz) (hwf : WellFormed 0x80 request)
    (hop : IsStoreOpcode (mcGetOpcode request)) :
    ∃ s', processSingle eng.toStStorageApi vx cfg (w.cmdPointers (mcGetOpcode request)).ptr
        w io request resBufSz
          = some ({ w with uniqueNumber := (specStep w m request).1.counter, store := s' }, io,
              (specStep w m request).2.frame) ∧
      Represents eng s' (specStep w m request).1.map := by
  obtain ⟨hcounter, hanswer, hrep⟩ :=
    engineStep_represents eng h w.uniqueNumber (WellFormed.reqOk hwf)
  refine ⟨_, ?_, hrep⟩
  rw [specStep, ← hcounter, ← hanswer]
  exact processSingle_steps vx cfg (Represents.shows h) io hslots hroom hop

end Single

/-! ## Histories

The server is one thread: whatever the clients do, their requests reach the
handlers one after another, each on the connection it came in on. A history is
therefore a list of requests, with the connection's buffers at that moment,
about which nothing is assumed. -/

section History

variable {σ γ : Type} (api : StStorageApi σ) (vx : Vx γ) (cfg : Config γ)

/-- Serve one request as the loop of `builtin_commands_callback` does, with the
response as the result. -/
def serve (w : World σ γ) (io : Io) (request : Bytes) : Option (World σ γ × Bytes) :=
  let wr := bufGetWriter io.pool io.sendBuf (maxRequestSize + sizeofMcMetadata)
  match processSingle api vx cfg (w.cmdPointers (mcGetOpcode request)).ptr w
      { io with pool := wr.1, sendBuf := wr.2.1 } request wr.2.2 with
  | none => none
  | some (w, _, produced) => some (w, produced)

/-- A history of requests, with what each has added to the output. -/
def serveAll : World σ γ → List (Io × Bytes) → Option (World σ γ × List Bytes)
  | w, [] => some (w, [])
  | w, (io, request) :: rest =>
      match serve api vx cfg w io request with
      | none => none
      | some (w, produced) =>
          match serveAll w rest with
          | none => none
          | some (w, more) => some (w, produced :: more)

end History

section Refine

variable {σ γ : Type} (eng : MapEngine σ) (vx : Vx γ) (cfg : Config γ)

/-- A request of the store: a whole frame with one of the five opcodes. -/
def StoreRequest (request : Bytes) : Prop :=
  WellFormed 0x80 request ∧ IsStoreOpcode (mcGetOpcode request)

instance (request : Bytes) : Decidable (StoreRequest request) :=
  inferInstanceAs (Decidable (_ ∧ _))

theorem writer_roomy (p : Pool) (b : Buffer) :
    Roomy (bufGetWriter p b (maxRequestSize + sizeofMcMetadata)).2.2 :=
  bufGetWriter_room p b _

theorem serve_refines {w : World σ γ} {m : Map} (h : Represents eng w.store m)
    (hslots : w.BuiltinsIntact) (io : Io) {request : Bytes} (hreq : StoreRequest request) :
    ∃ w', serve eng.toStStorageApi vx cfg w io request
        = some (w', (specStep w m request).2.frame) ∧
      Represents eng w'.store (specStep w m request).1.map ∧ w'.BuiltinsIntact ∧
      w'.uniqueNumber = (specStep w m request).1.counter := by
  obtain ⟨hwf, hop⟩ := hreq
  obtain ⟨s', hs, hrep⟩ := processSingle_refines eng vx cfg h
    { io with
      pool := (bufGetWriter io.pool io.sendBuf (maxRequestSize + sizeofMcMetadata)).1
      sendBuf := (bufGetWriter io.pool io.sendBuf (maxRequestSize + sizeofMcMetadata)).2.1 }
    hslots (writer_roomy io.pool io.sendBuf) hwf hop
  refine ⟨{ w with uniqueNumber := (specStep w m request).1.counter, store := s' }, ?_, hrep,
    hslots, rfl⟩
  rw [serve]
  simp only [hs]

theorem serveAll_refines {w : World σ γ} {m : Map} (h : Represents eng w.store m)
    (hslots : w.BuiltinsIntact) {history : List (Io × Bytes)}
    (hreq : ∀ r ∈ history, StoreRequest r.2) :
    ∃ w', serveAll eng.toStStorageApi vx cfg w history
        = some (w', ((run nextCas ⟨m, w.uniqueNumber⟩
            (history.map fun r => unpackRequest r.2)).2).map Response.frame) ∧
      Represents eng w'.store
        (run nextCas ⟨m, w.uniqueNumber⟩ (history.map fun r => unpackRequest r.2)).1.map := by
  induction history generalizing w m with
  | nil => exact ⟨w, rfl, h⟩
  | cons r rest ih =>
      obtain ⟨io, request⟩ := r
      obtain ⟨w1, hserve, hrep, hslots1, hcounter⟩ :=
        serve_refines eng vx cfg h hslots io (hreq _ List.mem_cons_self)
      obtain ⟨w', hall, hrep'⟩ := ih hrep hslots1 fun r hr => hreq r (List.mem_cons_of_mem _ hr)
      rw [hcounter] at hall hrep'
      refine ⟨w', ?_, hrep'⟩
      simp only [serveAll, hserve, hall]
      rfl

/-- The builtin commands are a map. Every history gets the answers of `Spec.run`
and leaves the store that stands for its map; and what that map, and hence a
GET, has for a key is what the last successful store of it put there, seen from
the requests and answers alone. -/
theorem storeCommands_refine_map {w : World σ γ} {m : Map} (h : Represents eng w.store m)
    (hslots : w.BuiltinsIntact) (history : List (Io × Bytes))
    (hreq : ∀ r ∈ history, StoreRequest r.2) :
    ∃ w' st answers, run nextCas ⟨m, w.uniqueNumber⟩ (history.map fun r => unpackRequest r.2)
        = (st, answers) ∧
      serveAll eng.toStStorageApi vx cfg w history
        = some (w', answers.map Response.frame) ∧
      Represents eng w'.store st.map ∧
      ∀ key, st.map key
        = lastStore ((history.map fun r => unpackRequest r.2).zip answers) key (m key) := by
  obtain ⟨w', hall, hrep⟩ := serveAll_refines eng vx cfg h hslots hreq
  refine ⟨w', _, _, rfl, hall, hrep, fun key => ?_⟩
  refine run_map_eq_lastStore _ _ (fun req hmem => ?_) key
  obtain ⟨r, hr, rfl⟩ := List.mem_map.mp hmem
  exact (hreq r hr).2

end Refine

/-- A server that has just started, over an empty store. -/
def freshWorld : World (Bytes → Option Bytes) Unit := { store := fun _ => none }

def setRequest (key value : String) (cas : Nat) : Bytes :=
  Request.frame { opcode := memcacheCmdSet, cas := cas, extras := List.replicate 8 0,
                  key := ascii key, value := ascii value }

def getRequest (key : String) : Bytes :=
  Request.frame { opcode := memcacheCmdGet, key := ascii key }

theorem storeCommands_refine_map_setGet :
    StoreRequest (setRequest "a" "1" 0) ∧ StoreRequest (getRequest "a") ∧
    ∃ w' st answers,
      run nextCas ⟨fun _ => none, 0⟩
          [unpackRequest (setRequest "a" "1" 0), unpackRequest (getRequest "a")]
        = (st, answers) ∧
      serveAll mapEngine.toStStorageApi idleVx plainConfig freshWorld
          [({}, setRequest "a" "1" 0), ({}, getRequest "a")]
        = some (w', answers.map Response.frame) ∧
      Represents mapEngine w'.store st.map ∧
      ∀ key, st.map key = lastStore
        ([unpackRequest (setRequest "a" "1" 0), unpackRequest (getRequest "a")].zip answers)
        key none := by
  have hset : StoreRequest (setRequest "a" "1" 0) := by decide
  have hget : StoreRequest (getRequest "a") := by decide
  refine ⟨hset, hget, ?_⟩
  refine storeCommands_refine_map mapEngine idleVx plainConfig (w := freshWorld)
    represents_empty (fun _ _ => rfl)
    [({}, setRequest "a" "1" 0), ({}, getRequest "a")] ?_
  intro r hr
  rcases List.mem_cons.mp hr with rfl | hr
  · exact hset
  · rw [List.mem_singleton.mp hr]
    exact hget

end Smalltable.Proofs
