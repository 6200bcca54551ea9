import Smalltable.Proofs.IoMoves
import Smalltable.Proofs.StoreRefine
import Smalltable.Ref.FsKeys

/-!
# The size of the responses

The proxy takes a response for broken when its value is longer than
`MAX_VALUE_SIZE`. The server has no such limit of its own: a handler is given the
free room of the send buffer, and that is more. Items that were stored by
requests are within the limit, and so are messages. What the engine lists for
GET_KEYS and what a compiler that fails has to say fill the room they are given.
-/

namespace Smalltable.Proofs

open Smalltable.Ref Smalltable.Spec

/-- Whatever was packed without a key is a frame of the protocol when the value
is not too long. -/
theorem packResponse_wellFormed_iff {bufSz : Int} {res : StRes} {out : Bytes} (hkey : res.keySz = 0)
    (hextras : res.extrasSz ≤ 4) (hint : res.extrasSz + res.valueSz < 2 ^ 31)
    (h : packResponse bufSz res = some out) :
    WellFormed 0x81 out ↔ res.valueSz ≤ maxValueSize := by
  have hbody : asInt (res.extrasSz + res.keySz + res.valueSz)
      = (res.extrasSz + res.valueSz : Nat) := by
    rw [hkey, Nat.add_zero, asInt_of_lt hint]
  have hmod : (((res.extrasSz + res.valueSz : Nat) : Int) % 2 ^ 32).toNat
      = res.extrasSz + res.valueSz := by omega
  unfold packResponse at h
  simp only [] at h
  rw [hbody, hmod, Int.toNat_natCast] at h
  repeat' split at h
  all_goals cases h
  constructor
  · intro hwf
    have hvalue := hwf.facts.value
    rw [mcGetBodyLength_packHeader, mcGetExtrasLength_packHeader, mcGetKeyLength_packHeader,
      hkey] at hvalue
    omega
  · intro hvalue
    rw [maxValueSize_eq] at hvalue
    refine FrameFacts.wellFormed ⟨?_, ?_, rfl, ?_, ?_, ?_⟩
    · rw [List.length_append, length_packHeader]
      omega
    · rw [mcGetBodyLength_packHeader, List.length_append, length_packHeader, length_peek]
      omega
    · rw [mcGetBodyLength_packHeader, mcGetExtrasLength_packHeader, mcGetKeyLength_packHeader, hkey]
      omega
    · rw [mcGetBodyLength_packHeader, mcGetExtrasLength_packHeader, mcGetKeyLength_packHeader, hkey,
        maxValueSize_eq]
      omega
    · rw [mcGetKeyLength_packHeader, hkey, maxKeySize_eq]
      omega

/-- A response that is within the limits, whatever it is. -/
structure Small (res : StRes) : Prop where
  noKey : res.keySz = 0
  extras : res.extrasSz ≤ 4
  value : res.valueSz ≤ maxValueSize

theorem Small.wellFormed {bufSz : Int} {res : StRes} {out : Bytes} (hsmall : Small res)
    (h : packResponse bufSz res = some out) : WellFormed 0x81 out := by
  have hvalue := hsmall.value
  have hextras := hsmall.extras
  rw [maxValueSize_eq] at hvalue
  exact (packResponse_wellFormed_iff hsmall.noKey hextras (by omega) h).mpr hsmall.value

theorem length_errorStr {status : Nat} {errStr : Option Bytes} {str : Bytes}
    (hshort : ∀ s, errStr = some s → s.length < 256) (h : errorStr status errStr = some str) :
    str.length < 256 := by
  unfold errorStr at h
  split at h
  · next s => exact hshort str (congrArg some (Option.some.inj h))
  · split at h
    · exact (errorCodes_spec h).2
    · cases h
      decide

theorem setErrorCode_small {res res' : StRes} {status : Nat} {errStr : Option Bytes}
    (hshort : ∀ s, errStr = some s → s.length < 256)
    (h : setErrorCode res status errStr = some res') : Small res' := by
  unfold setErrorCode at h
  simp only [] at h
  split at h
  · cases h
  · next str hstr =>
      cases h
      have hlen := length_errorStr hshort hstr
      refine ⟨rfl, Nat.zero_le _, ?_⟩
      rw [maxValueSize_eq]
      show (if res.bufSz < 0 then str.length else min str.length res.bufSz.toNat) ≤ _
      split
      · omega
      · omega

theorem short_none : ∀ s, (none : Option Bytes) = some s → s.length < 256 := by
  intro s hs
  cases hs

theorem short_disabled : ∀ s, some commandDisabled = some s → s.length < 256 := by
  intro s hs
  cases hs
  decide

section Handlers

variable {σ γ : Type} {api : StStorageApi σ} {vx : Vx γ} {cfg : Config γ} {w w' : World σ γ}
  {io io' : Io} {req : StReq} {res res' : StRes}

theorem refuse_small {status : Nat} {errStr : Option Bytes}
    (hshort : ∀ s, errStr = some s → s.length < 256)
    (h : refuse w io res status errStr = some (w', io', res')) : Small res' := by
  unfold refuse at h
  split at h
  · cases h
  · next hres =>
      cases h
      exact setErrorCode_small hshort hres

/-- The items of the store were written by SET, ADD and REPLACE: a value that
was in a request, and its metadata. -/
def StoredItems (api : StStorageApi σ) (store : σ) : Prop :=
  ∀ (size : Int) (key item : Bytes), (maxValueSize + sizeofMcMetadata : Nat) ≤ size →
    api.get store size key = some item →
      ∃ (value : Bytes) (md : McMetadata), value.length ≤ maxValueSize ∧ item = value ++ md.toBytes

theorem cmdGet_small (hstore : StoredItems api w.store)
    (hroom : (maxValueSize + sizeofMcMetadata + 4 : Nat) ≤ res.bufSz) (hnew : Small res)
    (h : cmdGet api w io req res = some (w', io', res')) : Small res' := by
  unfold cmdGet at h
  split at h
  · exact refuse_small short_none h
  · simp only [] at h
    split at h
    · cases h
    · exact refuse_small short_none h
    · next item md hget =>
        cases h
        refine ⟨hnew.noKey, Nat.le_refl 4, ?_⟩
        unfold storageGet at hget
        split at hget
        · cases hget
        · next item' hitem =>
            obtain ⟨value, md', hvalue, hsplit⟩ := hstore _ _ _ (by omega) hitem
            repeat' split at hget
            all_goals cases hget
            have hlen := McMetadata.length_toBytes md'
            show item.length - sizeofMcMetadata ≤ maxValueSize
            rw [hsplit, List.length_append]
            omega

theorem cmdSet_small (hnew : Small res)
    (h : cmdSet api w io req res = some (w', io', res')) : Small res' := by
  unfold cmdSet at h
  simp only [] at h
  split at h
  · exact refuse_small short_none h
  · split at h
    · cases h
    · split at h
      · exact refuse_small short_none h
      · split at h
        · exact refuse_small short_none h
        · cases h
          exact ⟨hnew.noKey, hnew.extras, hnew.value⟩

/-- The handlers that only report whether they have done what was asked. -/
theorem callBuiltin_small {ptr : CmdPtr} (hkeys : ptr ≠ .builtin .getKeys)
    (hload : ptr ≠ .builtin .codeLoad) (hstore : StoredItems api w.store)
    (hroom : (maxValueSize + sizeofMcMetadata + 4 : Nat) ≤ res.bufSz) (hnew : Small res)
    (h : callBuiltin api vx cfg ptr w io req res = some (w', io', res')) : Small res' := by
  unfold callBuiltin at h
  split at h
  · exact refuse_small short_none h
  · exact cmdGet_small hstore hroom hnew h
  · exact cmdSet_small hnew h
  · unfold cmdDelete at h
    simp only [] at h
    repeat' split at h
    all_goals first
      | exact refuse_small short_none h
      | (cases h; exact ⟨hnew.noKey, hnew.extras, hnew.value⟩)
  · unfold cmdNoop at h
    repeat' split at h
    all_goals first
      | exact refuse_small short_none h
      | (cases h; exact ⟨hnew.noKey, hnew.extras, hnew.value⟩)
  · unfold cmdVersion at h
    split at h
    · exact refuse_small short_none h
    · cases h
      exact ⟨hnew.noKey, hnew.extras, show versionString.length ≤ maxValueSize by decide⟩
  · exact absurd rfl hkeys
  · exact absurd rfl hload
  · unfold cmdCodeUnload at h
    repeat' split at h
    all_goals first
      | exact refuse_small short_none h
      | exact refuse_small short_disabled h
      | cases h
    exact ⟨hnew.noKey, hnew.extras, hnew.value⟩
  · unfold cmdCodeCheck at h
    repeat' split at h
    all_goals first
      | exact refuse_small short_none h
      | exact refuse_small short_disabled h
      | cases h
  · cases h

/-! ## The answers that fill their room

The engine's listing and the compiler's output are written up to the room that is given.
What they write is a parameter, so the condition is on their lengths. -/

variable (api cfg) in
/-- The value of an answer that has only the room of the buffer for a limit: the
listing of GET_KEYS, and what CODE_LOAD has from a compiler that failed. -/
def bulk (ptr : CmdPtr) (w : World σ γ) (room : Int) (req : StReq) : Option Bytes :=
  match ptr with
  | .builtin .getKeys =>
      if req.extras ≠ [] ∨ req.value ≠ [] then none else storageGetKeys api w.store room req.key
  | .builtin .codeLoad =>
      let cFile := pluginFile cfg req.key ".c"
      let elfFile := pluginFile cfg req.key ".elf"
      let compiled := processCompile cfg cFile elfFile req.value room
      if req.extras ≠ [] ∨ req.key = [] ∨ req.value = [] then none
      else if cfg.vx32Disabled then none
      else if w.findProcess req.key ≠ some none then none
      else if cfg.writeFile cFile req.value ≠ none then none
      else if compiled.1 ≠ 0 then some compiled.2
      else none
  | _ => none

/-- The answer is within the limits, or it is its bulk. -/
def BulkOrSmall (text : Option Bytes) (res : StRes) : Prop :=
  match text with
  | none => Small res
  | some text => res.keySz = 0 ∧ res.extrasSz ≤ 4 ∧ res.valueSz = text.length

/-- What an engine lists fits in the room it was given. -/
def KeysFit (api : StStorageApi σ) (store : σ) : Prop :=
  ∀ (size : Int) (key listing : Bytes), 0 ≤ size →
    storageGetKeys api store size key = some listing → (listing.length : Int) ≤ size

/-- The texts of `strerror` are short. -/
def ShortErrors (cfg : Config γ) : Prop :=
  ∀ (file source err : Bytes), cfg.writeFile file source = some err → err.length < 256

theorem cmdGetKeys_bulk (hnew : Small res)
    (h : cmdGetKeys api w io req res = some (w', io', res')) :
    BulkOrSmall (bulk api cfg (.builtin .getKeys) w res.bufSz req) res' := by
  unfold cmdGetKeys at h
  unfold bulk
  simp only []
  split at h
  · next hbad =>
      rw [if_pos hbad]
      exact refuse_small short_none h
  · next hgood =>
      rw [if_neg hgood]
      split at h
      · next hnone =>
          rw [hnone]
          refine refuse_small (fun str hstr => ?_) h
          cases hstr
          decide
      · next listing hlisting =>
          rw [hlisting]
          cases h
          exact ⟨hnew.noKey, hnew.extras, rfl⟩

theorem codeLoadAnswer_small {text : Bytes} {status : Nat} (hnew : Small res)
    (hlen : text.length ≤ maxValueSize) : Small (codeLoadAnswer res text status) :=
  ⟨hnew.noKey, hnew.extras, hlen⟩

theorem cmdCodeLoad_bulk (hsave : ShortErrors cfg) (hnew : Small res)
    (h : cmdCodeLoad api vx cfg w io req res = some (w', io', res')) :
    BulkOrSmall (bulk api cfg (.builtin .codeLoad) w res.bufSz req) res' := by
  have hmax := maxValueSize_eq
  unfold cmdCodeLoad at h
  unfold bulk
  simp only [] at h ⊢
  split at h
  · next hbad =>
      rw [if_pos hbad]
      exact refuse_small short_none h
  · next haccepted =>
      rw [if_neg haccepted]
      split at h
      · next hoff =>
          rw [if_pos hoff]
          exact refuse_small short_disabled h
      · next hon =>
          rw [if_neg hon]
          split at h
          · cases h
          · next hknown =>
              rw [if_pos (by rw [hknown]; simp)]
              exact refuse_small short_none h
          · next hunknown =>
              rw [if_neg (by rw [hunknown]; simp)]
              split at h
              · next err herr =>
                  rw [if_pos (by rw [herr]; simp)]
                  cases h
                  have hlen := hsave _ _ _ herr
                  have htext : (ascii "Error while saving file: ").length = 25 := by decide
                  refine codeLoadAnswer_small hnew ?_
                  rw [List.length_append, htext]
                  omega
              · next hsaved =>
                  rw [if_neg (by rw [hsaved]; simp)]
                  split at h
                  · next hfails =>
                      rw [if_pos hfails]
                      cases h
                      exact ⟨hnew.noKey, hnew.extras, rfl⟩
                  · next hcompiled =>
                      rw [if_neg hcompiled]
                      have hlog : ∀ log : Bytes, (log.take 4096 ++ [0x0A, 0x0A]).length ≤ 4098 := by
                        intro log
                        rw [List.length_append, List.length_take]
                        simp
                      have hload : (ascii "Error while loading the binary").length = 30 := by decide
                      have hrun : (ascii "Error while running the binary").length = 30 := by decide
                      split at h
                      · cases h
                        refine codeLoadAnswer_small hnew ?_
                        have hlog := hlog (processCompile cfg (pluginFile cfg req.key ".c")
                          (pluginFile cfg req.key ".elf") req.value res.bufSz).2
                        rw [List.length_append, hload]
                        omega
                      · split at h
                        · cases h
                        · have hlog := hlog (processCompile cfg (pluginFile cfg req.key ".c")
                            (pluginFile cfg req.key ".elf") req.value res.bufSz).2
                          split at h
                          · cases h
                            refine codeLoadAnswer_small hnew ?_
                            rw [List.length_append, hrun]
                            omega
                          · cases h
                            exact codeLoadAnswer_small hnew (by omega)

theorem callBuiltin_bulk {ptr : CmdPtr} (hsave : ShortErrors cfg) (hstore : StoredItems api w.store)
    (hroom : (maxValueSize + sizeofMcMetadata + 4 : Nat) ≤ res.bufSz) (hnew : Small res)
    (h : callBuiltin api vx cfg ptr w io req res = some (w', io', res')) :
    BulkOrSmall (bulk api cfg ptr w res.bufSz req) res' := by
  by_cases hkeys : ptr = .builtin .getKeys
  · subst hkeys
    exact cmdGetKeys_bulk hnew h
  · by_cases hload : ptr = .builtin .codeLoad
    · subst hload
      exact cmdCodeLoad_bulk hsave hnew h
    · have hsmall := callBuiltin_small hkeys hload hstore hroom hnew h
      have hnone : bulk api cfg ptr w res.bufSz req = none := by
        unfold bulk
        split
        · exact absurd rfl hkeys
        · exact absurd rfl hload
        · rfl
      rw [hnone]
      exact hsmall

theorem length_bulk {ptr : CmdPtr} (hkeys : KeysFit api w.store) {room : Int}
    (hroom : 2048 ≤ room) {text : Bytes}
    (h : bulk api cfg ptr w room req = some text) : (text.length : Int) ≤ room := by
  unfold bulk at h
  simp only [] at h
  split at h
  · split at h
    · cases h
    · exact hkeys _ _ _ (by omega) h
  · repeat' split at h
    all_goals try cases h
    simp only [processCompile, List.length_append, List.length_take, snprintf, List.length_cons,
      List.length_nil]
    omega
  · cases h

/-! ## The frame that is appended

The header of the response has the length of the value, and the size check of the reader
compares it with `MAX_VALUE_SIZE`. -/

/-- The room for the value and what is in front of it. -/
def answerRoom (io : Io) : Int :=
  (bufGetWriter io.pool io.sendBuf (maxRequestSize + sizeofMcMetadata)).2.2 - memcacheHeaderSize

variable (api cfg) in
/-- The request is served, and the bulk of its answer is a value the protocol
allows. -/
def BulkFits (ptr : CmdPtr) (w : World σ γ) (io : Io) (request : Bytes) : Prop :=
  bufGetUsed io.sendBuf < maxRequestSize * 3 →
    ∀ text, bulk api cfg ptr w (answerRoom io) (unpackRequest request) = some text →
      text.length ≤ maxValueSize

/-- The bytes behind `out` are one response, and the proxy takes it. -/
def SaneAnswer (out : Bytes) (io : Io) : Prop :=
  ∃ frame, io.sendBuf.Holds (out ++ frame) ∧ WellFormed 0x81 frame

theorem saneAnswer_iff {out frame : Bytes} (h : io.sendBuf.Holds (out ++ frame)) :
    SaneAnswer out io ↔ WellFormed 0x81 frame := by
  refine ⟨?_, fun hwf => ⟨frame, h, hwf⟩⟩
  rintro ⟨frame', h', hwf⟩
  have heq : out ++ frame' = out ++ frame := h'.reader.symm.trans h.reader
  rwa [← List.append_cancel_left heq]

theorem prepareRes_small (resBufSz : Int) (request : Bytes) : Small (prepareRes resBufSz request) :=
  ⟨rfl, Nat.zero_le _, Nat.zero_le _⟩

theorem processSingle_wellFormed_iff {ptr : CmdPtr} {request produced : Bytes} {resBufSz : Int}
    (hsave : ShortErrors cfg) (hstore : StoredItems api w.store) (hkeys : KeysFit api w.store)
    (hroom : Roomy resBufSz) (hint : resBufSz < 2 ^ 31)
    (h : processSingle api vx cfg ptr w io request resBufSz = some (w', io', produced)) :
    io' = io ∧ (WellFormed 0x81 produced ↔
      ∀ text, bulk api cfg ptr w (resBufSz - memcacheHeaderSize) (unpackRequest request)
        = some text → text.length ≤ maxValueSize) := by
  have hlarge := hroom.lt
  have hheader := memcacheHeaderSize_eq
  unfold processSingle at h
  simp only [] at h
  split at h
  · cases h
  · next w1 io1 res hcall =>
      split at h
      · cases h
      · next out hpack =>
          cases h
          refine ⟨callBuiltin_io api vx cfg hcall, ?_⟩
          have hbulk := callBuiltin_bulk hsave hstore (by
            show ((maxValueSize + sizeofMcMetadata + 4 : Nat) : Int) ≤ resBufSz - memcacheHeaderSize
            rw [maxValueSize_eq, sizeofMcMetadata]
            omega) (prepareRes_small resBufSz request) hcall
          have hbulk : BulkOrSmall (bulk api cfg ptr w (resBufSz - memcacheHeaderSize)
            (unpackRequest request)) res := hbulk
          cases htext : bulk api cfg ptr w (resBufSz - memcacheHeaderSize)
              (unpackRequest request) with
          | none =>
              rw [htext] at hbulk
              exact ⟨fun _ _ hnone => absurd hnone (by simp), fun _ => hbulk.wellFormed hpack⟩
          | some text =>
              have hlen := length_bulk hkeys (by omega) htext
              rw [htext] at hbulk
              obtain ⟨hkey, hextras, hvalue⟩ := hbulk
              rw [packResponse_wellFormed_iff hkey hextras (by omega) hpack, hvalue]
              exact ⟨fun hle _ heq => Option.some.inj heq ▸ hle, fun hall => hall text rfl⟩

/-- The proxy takes the response to a request exactly when what the engine lists
for it, or what the compiler has to say to it, is no longer than
`MAX_VALUE_SIZE`. -/
theorem saneAnswer_iff_bulkFits {ptr : CmdPtr} {request out : Bytes}
    (hsave : ShortErrors cfg) (hstore : StoredItems api w.store) (hkeys : KeysFit api w.store)
    (hint : answerRoom io + memcacheHeaderSize < 2 ^ 31) (hout : io.sendBuf.Holds out)
    (h : builtinCommand api vx cfg ptr w io request = some (w', io')) :
    SaneAnswer out io' ↔ BulkFits api cfg ptr w io request := by
  have hwriter := bufGetWriter_holds hout io.pool (maxRequestSize + sizeofMcMetadata)
  have hroom := writer_roomy io.pool io.sendBuf
  have hint : (bufGetWriter io.pool io.sendBuf (maxRequestSize + sizeofMcMetadata)).2.2
      < 2 ^ 31 := by
    rw [answerRoom] at hint
    omega
  unfold builtinCommand at h
  simp only [] at h
  rw [bufGetUsed_writer] at h
  unfold BulkFits
  split at h
  · next hserved =>
      split at h
      · cases h
      · next w1 io1 produced hsingle =>
          cases h
          obtain ⟨rfl, hiff⟩ := processSingle_wellFormed_iff hsave hstore hkeys hroom hint hsingle
          rw [saneAnswer_iff (bufProduce_holds hwriter produced), hiff]
          exact ⟨fun hall _ => hall, fun hall => hall hserved⟩
  · next hrefused =>
      split at h
      · cases h
      · next produced hproduced =>
          cases h
          rw [saneAnswer_iff (bufProduce_holds hwriter produced)]
          refine ⟨fun _ hserved => absurd hserved hrefused, fun _ => ?_⟩
          unfold errorFromReqbuf at hproduced
          split at hproduced
          · cases hproduced
          · next hres => exact (setErrorCode_small short_none hres).wellFormed hproduced

end Handlers

/-! ### An engine that lists its keys -/

/-- As many keys as fit in the room, with an `i_cas` of 0. -/
def listKeys : Nat → List Bytes → Bytes
  | _, [] => []
  | room, key :: rest =>
      if (keyItem 0 key).length ≤ room then
        keyItem 0 key ++ listKeys (room - (keyItem 0 key).length) rest
      else []

theorem listKeys_all : ∀ {keys : List Bytes} {room : Nat},
    (keys.map (keyItem 0)).flatten.length ≤ room →
    listKeys room keys = (keys.map (keyItem 0)).flatten := by
  intro keys
  induction keys with
  | nil => intro room _; rfl
  | cons key rest ih =>
      intro room h
      rw [List.map_cons, List.flatten_cons, List.length_append] at h
      rw [listKeys, if_pos (by omega), ih (by omega), List.map_cons, List.flatten_cons]

theorem length_listKeys : ∀ (keys : List Bytes) (room : Nat),
    (listKeys room keys).length ≤ room := by
  intro keys
  induction keys with
  | nil => intro room; exact Nat.zero_le _
  | cons key rest ih =>
      intro room
      rw [listKeys]
      split
      · have hrest := ih (room - (keyItem 0 key).length)
        rw [List.length_append]
        omega
      · exact Nat.zero_le _

/-- An engine over a list of keys and items. -/
def listEngine : StStorageApi (List (Bytes × Bytes)) where
  get := fun s size key =>
    match s.lookup key with
    | none => none
    | some item => if (item.length : Int) ≤ size then some item else none
  set := fun s item key => (s.filter (fun p => p.1 ≠ key) ++ [(key, item)], item.length)
  del := fun s key => (s.filter fun p => p.1 ≠ key, if (s.lookup key).isNone then -1 else 0)
  getKeys := some fun s size start =>
    let keys := s.map Prod.fst
    some (listKeys size.toNat (if start = [] then keys else (keys.dropWhile (· ≠ start)).drop 1))

/-- An empty value as SET stores it. -/
def emptyItem : Bytes := McMetadata.toBytes ⟨0, 0, 1⟩

/-- `n` keys of four bytes, all with an empty value. -/
def numbered (n : Nat) : List (Bytes × Bytes) :=
  (List.range n).map fun i => (beBytes 4 i, emptyItem)

theorem lookup_numbered {n : Nat} {key item : Bytes} (h : (numbered n).lookup key = some item) :
    item = emptyItem := by
  obtain ⟨front, back, hsplit, -⟩ := List.lookup_eq_some_iff.mp h
  have hmem : (key, item) ∈ numbered n := by
    rw [hsplit]
    simp
  obtain ⟨i, -, heq⟩ := List.mem_map.mp hmem
  exact (Prod.mk.inj heq).2.symm

theorem numbered_storedItems (n : Nat) : StoredItems listEngine (numbered n) := by
  intro size key item _ hget
  refine ⟨[], ⟨0, 0, 1⟩, Nat.zero_le _, ?_⟩
  simp only [listEngine] at hget
  split at hget
  · cases hget
  · next item' hitem =>
      split at hget
      · cases hget
        exact lookup_numbered hitem
      · cases hget

theorem listEngine_keysFit (s : List (Bytes × Bytes)) : KeysFit listEngine s := by
  intro size key listing hsize h
  simp only [storageGetKeys, listEngine] at h
  cases h
  have hlen := length_listKeys (if key = [] then s.map Prod.fst
    else ((s.map Prod.fst).dropWhile (· ≠ key)).drop 1) size.toNat
  omega

def listWorld (n : Nat) : World (List (Bytes × Bytes)) Unit := { store := numbered n }

/-- GET_KEYS without a key. -/
def getKeysRequest : Bytes := [0x80, 0x73] ++ List.replicate 22 0

theorem saneAnswer_iff_bulkFits_fewKeys :
    ∃ w' io', builtinCommand listEngine idleVx plainConfig (.builtin .getKeys) (listWorld 2) {}
        getKeysRequest = some (w', io') ∧
      (SaneAnswer [] io' ↔
        BulkFits listEngine plainConfig (.builtin .getKeys) (listWorld 2) {} getKeysRequest) := by
  have h : (builtinCommand listEngine idleVx plainConfig (.builtin .getKeys) (listWorld 2) {}
      getKeysRequest).isSome = true := by decide +kernel
  obtain ⟨⟨w', io'⟩, hrun⟩ := Option.isSome_iff_exists.mp h
  exact ⟨w', io', hrun, saneAnswer_iff_bulkFits (fun _ _ _ h => nomatch h)
    (numbered_storedItems 2) (listEngine_keysFit _) (by decide) Buffer.holds_empty hrun⟩

theorem length_keyItem_beBytes (i : Nat) : (keyItem 0 (beBytes 4 i)).length = 13 := by
  rw [keyItem, List.length_append, List.length_append, length_leBytes, length_beBytes]
  rfl

theorem length_numberedItems (n : Nat) :
    (((numbered n).map Prod.fst).map (keyItem 0)).flatten.length = 13 * n := by
  have hlen : (fun x => ((List.length ∘ keyItem 0) ∘ Prod.fst) (beBytes 4 x, emptyItem))
      = fun _ => 13 := funext length_keyItem_beBytes
  rw [List.length_flatten, numbered, List.map_map, List.map_map, List.map_map]
  show (List.map (fun x => ((List.length ∘ keyItem 0) ∘ Prod.fst) (beBytes 4 x, emptyItem))
    (List.range n)).sum = _
  rw [hlen, List.map_const', List.sum_replicate_nat, List.length_range, Nat.mul_comm]

theorem packResponse_value (bufSz : Int) (res : StRes) (hkey : res.keySz = 0)
    (hextras : res.extrasSz = 0) (hvalue : res.value = some 0) (hint : res.valueSz < 2 ^ 31)
    (hroom : (memcacheHeaderSize + res.valueSz : Nat) ≤ bufSz) :
    ∃ out, packResponse bufSz res = some out := by
  have hbody : asInt (res.extrasSz + res.keySz + res.valueSz) = (res.valueSz : Nat) := by
    rw [hkey, hextras, Nat.zero_add, asInt_of_lt hint]
  unfold packResponse
  simp only []
  rw [hbody, if_neg (by omega), if_neg (fun h => h.1 hextras), if_neg (fun h => h.1 hkey),
    if_neg fun h => h.2 (by rw [hvalue, hextras, hkey])]
  exact ⟨_, rfl⟩

/-- A listing that fits in its room and is too long for a value goes out. -/
theorem getKeys_oversized {σ γ : Type} (api : StStorageApi σ) (vx : Vx γ) (cfg : Config γ)
    (w : World σ γ) (io : Io) {out listing : Bytes} (hout : io.sendBuf.Holds out)
    (hserved : bufGetUsed io.sendBuf < maxRequestSize * 3)
    (hlist : storageGetKeys api w.store (answerRoom io) [] = some listing)
    (hlong : maxValueSize < listing.length) (hfit : (listing.length : Int) ≤ answerRoom io)
    (hint : listing.length < 2 ^ 31) :
    ∃ io', builtinCommand api vx cfg (.builtin .getKeys) w io getKeysRequest = some (w, io') ∧
      ¬ SaneAnswer out io' := by
  unfold answerRoom at hlist hfit
  have hwriter := bufGetWriter_holds hout io.pool (maxRequestSize + sizeofMcMetadata)
  unfold builtinCommand
  simp only []
  rw [bufGetUsed_writer, if_pos hserved]
  generalize bufGetWriter io.pool io.sendBuf (maxRequestSize + sizeofMcMetadata) = wr
    at hlist hfit hwriter
  obtain ⟨produced, hpack⟩ := packResponse_value wr.2.2 { prepareRes wr.2.2 getKeysRequest with
      value := some 0
      valueSz := listing.length
      mem := poke (prepareRes wr.2.2 getKeysRequest).mem 0 listing
      status := memcacheStatusOk } rfl rfl rfl hint (by
        show ((memcacheHeaderSize + listing.length : Nat) : Int) ≤ wr.2.2
        omega)
  have hcall : callBuiltin api vx cfg (.builtin .getKeys) w
      { io with pool := wr.1, sendBuf := wr.2.1 } (unpackRequest getKeysRequest)
      (prepareRes wr.2.2 getKeysRequest) = some (w, { io with pool := wr.1, sendBuf := wr.2.1 },
        { prepareRes wr.2.2 getKeysRequest with
          value := some 0
          valueSz := listing.length
          mem := poke (prepareRes wr.2.2 getKeysRequest).mem 0 listing
          status := memcacheStatusOk }) := by
    have hkeys : storageGetKeys api w.store (prepareRes wr.2.2 getKeysRequest).bufSz
        (unpackRequest getKeysRequest).key = some listing := hlist
    unfold callBuiltin cmdGetKeys
    simp only []
    rw [if_neg (by decide), hkeys]
  refine ⟨_, by rw [processSingle_of vx cfg hcall hpack], ?_⟩
  rw [saneAnswer_iff (bufProduce_holds hwriter produced),
    packResponse_wellFormed_iff rfl (Nat.zero_le _)
        (by show 0 + listing.length < 2 ^ 31; omega) hpack]
  exact Nat.not_le.mpr hlong

theorem listEngine_listsAll {s : List (Bytes × Bytes)} {size : Int}
    (h : ((s.map Prod.fst).map (keyItem 0)).flatten.length ≤ size.toNat) :
    storageGetKeys listEngine s size [] = some ((s.map Prod.fst).map (keyItem 0)).flatten :=
  congrArg some (listKeys_all h)

/-- More keys than fit in a value, and fewer than fit in an empty buffer. -/
theorem saneAnswer_numbered {n : Nat} (hlong : maxValueSize < 13 * n) (hfit : 13 * n ≤ 4325352) :
    ∃ w' io', builtinCommand listEngine idleVx plainConfig (.builtin .getKeys) (listWorld n)
        {} getKeysRequest = some (w', io') ∧
      StoredItems listEngine (listWorld n).store ∧ ¬ SaneAnswer [] io' := by
  have hroom : answerRoom {} = 4325352 := by decide +kernel
  have hlen := length_numberedItems n
  obtain ⟨io', hrun, hbad⟩ := getKeys_oversized listEngine idleVx plainConfig
    (listWorld n) {} Buffer.holds_empty (by decide)
    (listEngine_listsAll (s := numbered n) (by rw [hlen, hroom]; omega))
    (by rw [hlen]; exact hlong) (by rw [hlen, hroom]; omega) (by rw [hlen]; omega)
  exact ⟨listWorld n, io', hrun, numbered_storedItems n, hbad⟩

theorem saneAnswer_manyKeys :
    ∃ w' io', builtinCommand listEngine idleVx plainConfig (.builtin .getKeys) (listWorld 322649)
        {} getKeysRequest = some (w', io') ∧
      StoredItems listEngine (listWorld 322649).store ∧ ¬ SaneAnswer [] io' :=
  saneAnswer_numbered (by decide) (by decide)

end Smalltable.Proofs
