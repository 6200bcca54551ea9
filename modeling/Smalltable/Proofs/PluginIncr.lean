import Smalltable.Proofs.StoreRefine
import Smalltable.Ref.PluginIncr
import Smalltable.Spec.Counter

/-!
# The counter plugin

INCR and DECR over an engine that behaves as a map do what `Spec.CounterStep` says, with
one exception. An item that is not a number is refused with a status that the table of
messages leaves out, and the length of the missing message is taken: the plugin goes
down, and there is no response at all.

`servePlugin_refines` is what one request does to the map, the crash included. A history
mixes the server's own commands with requests to the plugin, which is one program and
serves them one after another. In every state such a history reaches, a request meets
the specification exactly when its key holds a number or nothing (`counterStep_iff`),
and over any history in which a counter is left to the plugin its number grows by what
the successful requests asked for.
-/

namespace Smalltable.Proofs

open Smalltable.Ref Smalltable.Spec

/-! ## The library under the plugin

The calls of the library are system calls of the guest, whose handlers go to the engine.
In a memory that keeps what is written to it, the plugin gets the item of the map. -/

section Library

variable {σ : Type} (eng : MapEngine σ)

/-- The calls of the library are those of the server's system calls, for a guest whose
buffers are its own. -/
theorem syscallStGet_guest {γ : Type} (vx : Vx γ) (s : Sys σ γ) {dstSz : Nat} {key : Bytes}
    (hdst : vx.reg s.guest .ecx = dstSz) (hsmall : dstSz < 2 ^ 31)
    (hkey : vx.read s.guest (vx.reg s.guest .ebx) key.length = key)
    (hkeySz : vx.reg s.guest .edi = key.length) (hshort : key.length < 2 ^ 31)
    (hown : vx.checkperm s.guest (vx.reg s.guest .edx) dstSz .write)
    (hread : vx.checkperm s.guest (vx.reg s.guest .ebx) key.length .read) :
    syscallStGet eng.toStStorageApi vx s = some (
      match LibSt.syscallStGet eng.toStStorageApi s.world.store dstSz key with
      | none => { s with ret := -1 }
      | some item => { s with
          guest := vx.write s.guest (vx.reg s.guest .edx) item
          ret := item.length }) := by
  have h1 : asInt (vx.reg s.guest .ecx) = dstSz := by rw [hdst, asInt_of_lt hsmall]
  have h2 : asInt (vx.reg s.guest .edi) = key.length := by rw [hkeySz, asInt_of_lt hshort]
  have hpos : ¬ ((dstSz : Int) < 0 ∨ (key.length : Int) < 0) := by omega
  have hneg : ¬ (dstSz : Int) < 0 := by omega
  simp only [syscallStGet, h1, h2, Int.toNat_natCast, hown, hread, hkey, LibSt.syscallStGet,
    if_neg hpos, if_neg hneg, Bool.not_true, Bool.false_eq_true, if_false]
  cases eng.get s.world.store dstSz key <;> rfl

theorem syscallStSet_guest {γ : Type} (vx : Vx γ) (s : Sys σ γ) {value key : Bytes}
    (hvalue : vx.read s.guest (vx.reg s.guest .edx) value.length = value)
    (hvalueSz : vx.reg s.guest .ecx = value.length) (hsmall : value.length < 2 ^ 31)
    (hkey : vx.read s.guest (vx.reg s.guest .ebx) key.length = key)
    (hkeySz : vx.reg s.guest .edi = key.length) (hshort : key.length < 2 ^ 31)
    (hown : vx.checkperm s.guest (vx.reg s.guest .edx) value.length .read)
    (hread : vx.checkperm s.guest (vx.reg s.guest .ebx) key.length .read) :
    syscallStSet eng.toStStorageApi vx s = some { s with
      world := { s.world with
        store := (LibSt.syscallStSet eng.toStStorageApi s.world.store value key).1 }
      ret := (LibSt.syscallStSet eng.toStStorageApi s.world.store value key).2 } := by
  have h1 : asInt (vx.reg s.guest .ecx) = value.length := by rw [hvalueSz, asInt_of_lt hsmall]
  have h2 : asInt (vx.reg s.guest .edi) = key.length := by rw [hkeySz, asInt_of_lt hshort]
  simp only [syscallStSet, h1, h2, Int.toNat_natCast, hown, hread, hkey, hvalue,
    LibSt.syscallStSet, Bool.not_true, Bool.false_eq_true, if_false]
  by_cases hnil : key.length = 0
  · rw [if_pos (by omega), if_pos hnil]
  · rw [if_neg (by omega), if_neg hnil]

theorem libStorageGet_represents {s : σ} {m : Map} (h : Represents eng s m) {valueSz : Int}
    (hsz : (maxValueSize + sizeofMcMetadata : Nat) ≤ valueSz) (key : Bytes) :
    LibSt.storageGet eng.toStStorageApi s valueSz key = match m key with
      | none => ([], none)
      | some it => (it.toBytes, some (it.value.length, it.metadata)) := by
  rw [LibSt.storageGet, LibSt.syscallStGet, if_neg (by omega), get_represents eng h hsz key]
  cases hit : m key with
  | none => rfl
  | some it =>
      have hmd : it.toBytes.drop (it.toBytes.length - sizeofMcMetadata)
          = it.metadata.toBytes := by
        rw [Item.length_toBytes, Nat.add_sub_cancel, Item.toBytes, List.drop_left]
      simp only [Option.map_some]
      rw [if_neg (by rw [Item.length_toBytes]; omega), hmd,
        McMetadata.ofBytes_toBytes (h.ok key it hit).metadata, Item.length_toBytes,
        Nat.add_sub_cancel]

theorem libStorageSet_item (s : σ) (it : Item) {key : Bytes} (hkey : key ≠ []) :
    LibSt.storageSet eng.toStStorageApi s it.metadata it.value key = eng.set s it.toBytes key := by
  rw [LibSt.storageSet, LibSt.syscallStSet, if_neg (fun h => hkey (List.length_eq_zero_iff.mp h))]
  rfl

/-- A message that is there makes a response. -/
theorem libSetErrorCode_frame {res : StRes} {req : StReq} {status : Nat}
    (hstatus : errorCodes status ≠ none) (hop : res.opcode = req.opcode)
    (hid : res.opaqueId = req.opaqueId)
    (hbuf : res.bufSz = LibSt.writeResponsesBufSz - memcacheHeaderSize) :
    (LibSt.setErrorCode res status).bind (packResponse LibSt.writeResponsesBufSz)
      = some (failure req status).frame := by
  obtain ⟨str, hstr⟩ := Option.ne_none_iff_exists'.mp hstatus
  obtain ⟨hlt, hshort⟩ := errorCodes_spec hstr
  have hmsg : errorStr status none = some str := by
    rw [errorStr, if_pos hlt, hstr]
  rw [nelemErrorCodes] at hlt
  have hsame : LibSt.setErrorCode res status = setErrorCode res status none := by
    simp only [LibSt.setErrorCode, setErrorCode, Nat.mod_eq_of_lt (show status < 256 by omega)]
    rfl
  rw [hsame, packResponse_setErrorCode res (by omega) hmsg hshort hbuf
    (by rw [memcacheHeaderSize_eq, LibSt.writeResponsesBufSz, maxRequestSize_eq]; omega),
    Spec.failure, hstr, hop, hid]
  rfl

end Library

/-! ## One request

A counter is read, counted on and stored, or the request is refused; `incrStep` says it
of the map. All sums are those of 64 bits. -/

/-- What the plugin does to a map, with its own counter, and the response. There is none
where it goes down. -/
def incrStep (u : Nat) (m : Map) (req : StReq) : (Map × Nat) × Option Response :=
  if req.extras.length ≠ 20 ∨ ¬ NamesCounter req then
    ((m, u), some (failure req memcacheStatusInvalidArguments))
  else
    match m req.key with
    | none =>
        if expirationOf req = 0xffffffff then
          ((m, u), some (failure req memcacheStatusKeyNotFound))
        else
          let drawn := PluginIncr.drawCas u
          ((Function.update m req.key (some (seededItem req drawn.2)), drawn.1),
            some (numberAnswer req (initialOf req) drawn.2))
    | some it =>
        if it.value.length = 8 then
          ((Function.update m req.key (some (countedItem req it)), u),
            some (numberAnswer req (countedOn req (leVal it.value)) ((it.cas + 1) % 2 ^ 64)))
        else ((m, u), none)

theorem drawCas_lt (u : Nat) : (PluginIncr.drawCas u).2 < 2 ^ 64 := by
  rw [PluginIncr.drawCas]
  split
  · show 1 < 2 ^ 64
    omega
  · show (if _ then 1 else 0) < 2 ^ 64
    split <;> omega

theorem slice_lt {b : Bytes} (off : Nat) {n : Nat} : beVal (slice b off n) < 256 ^ n :=
  Nat.lt_of_lt_of_le (beVal_lt _)
    (Nat.pow_le_pow_right (by omega) (by rw [length_slice]; exact Nat.min_le_left _ _))

theorem leVal_leBytes_eight {n : Nat} (h : n < 2 ^ 64) : leVal (leBytes 8 n) = n := by
  rw [leVal_leBytes]
  exact Nat.mod_eq_of_lt h

theorem countedOn_lt (req : StReq) (n : Nat) : countedOn req n < 2 ^ 64 := by
  rw [countedOn]
  omega

/-- The machine's arithmetic. -/
theorem countedOn_eq (req : StReq) (n : Nat) : countedOn req n =
    if req.opcode = LibSt.memcacheCmdIncr then (n + amountOf req) % 2 ^ 64
    else (n + 2 ^ 64 - amountOf req) % 2 ^ 64 := by
  have hamount : amountOf req < 2 ^ 64 := slice_lt 0
  rw [countedOn, change]
  split <;> omega

section Single

variable {σ : Type} (eng : MapEngine σ)

/-- What a handler leaves: a store for `m`, the plugin's counter at `u`, and the response
`r`, packed, if there is one. -/
structure Leaves (out : LibSt.Guest σ × Option StRes) (m : Map) (u : Nat) (r : Option Response) :
    Prop where
  store : Represents eng out.1.store m
  counter : out.1.uniqueNumber = u
  response : out.2.bind (packResponse LibSt.writeResponsesBufSz) = r.map Response.frame

/-- The item with the number is stored, and the number is the response. -/
theorem storeCounter_leaves {s : σ} {m : Map} (h : Represents eng s m) {req : StReq}
    (hkey : req.key ≠ []) (u : Nat) {n : Nat} (hn : n < 2 ^ 64) {md : McMetadata} (hmd : md.Ok)
    {res : StRes} {mem : Bytes} (hmem : res.mem = poke mem 0 (leBytes 8 n))
    (hres : res.value = some 0) (hextras : res.extrasSz = 0) (hkeySz : res.keySz = 0)
    (hop : res.opcode = req.opcode) (hid : res.opaqueId = req.opaqueId) :
    Leaves eng (PluginIncr.storeCounter eng.toStStorageApi ⟨s, u⟩ req.key md res)
      (Function.update m req.key (some ⟨leBytes 8 n, md.flags, md.expiration, md.cas⟩)) u
      (some (numberAnswer req n md.cas)) := by
  have hlen := length_beBytes 8 n
  have hv : slice res.mem 0 8 = leBytes 8 n := by
    have htake := take_poke_zero mem (leBytes 8 n)
    rw [length_leBytes] at htake
    rw [hmem, slice, List.drop_zero, htake]
  have hok : Item.Ok ⟨leBytes 8 n, md.flags, md.expiration, md.cas⟩ := by
    refine ⟨?_, hmd⟩
    rw [maxValueSize_eq, length_leBytes]
    omega
  have hset : LibSt.storageSet eng.toStStorageApi s md (leBytes 8 n) req.key = _ :=
    libStorageSet_item eng s ⟨leBytes 8 n, md.flags, md.expiration, md.cas⟩ hkey
  have hpos := Int.not_lt.mpr (eng.set_ret s
    (Item.toBytes ⟨leBytes 8 n, md.flags, md.expiration, md.cas⟩) req.key)
  have hpack : packResponse LibSt.writeResponsesBufSz { res with
      mem := poke res.mem 0 (beBytes 8 n), valueSz := 8, status := memcacheStatusOk, cas := md.cas }
      = some (numberAnswer req n md.cas).frame := by
    refine Eq.trans (packResponse_frame [] (beBytes 8 n) hkeySz hextras
      (fun hne => absurd rfl hne) hlen.symm (fun _ => hres) ?_ ?_ ?_) ?_
    · show peek (poke res.mem 0 (beBytes 8 n)) ([].length + (beBytes 8 n).length) = _
      rw [List.length_nil, Nat.zero_add, List.nil_append, peek_of_le, take_poke_zero]
      rw [poke_zero, List.length_append]
      omega
    · rw [List.length_nil, hlen]
      omega
    · rw [List.length_nil, hlen, memcacheHeaderSize_eq, LibSt.writeResponsesBufSz,
        maxRequestSize_eq]
      omega
    · simp only [hop, hid, numberAnswer, answer]
  simp only [PluginIncr.storeCounter, hv, hset, if_neg hpos, leVal_leBytes_eight hn,
    LibSt.leBytes_htonll]
  exact ⟨represents_put eng h req.key hok, rfl, hpack⟩

theorem refusal_leaves {s : σ} {m : Map} (h : Represents eng s m) (u : Nat) {req : StReq}
    {res : StRes} {status : Nat} (hstatus : errorCodes status ≠ none)
    (hop : res.opcode = req.opcode) (hid : res.opaqueId = req.opaqueId)
    (hbuf : res.bufSz = LibSt.writeResponsesBufSz - memcacheHeaderSize) :
    Leaves eng (⟨s, u⟩, LibSt.setErrorCode res status) m u (some (failure req status)) :=
  ⟨h, rfl, libSetErrorCode_frame hstatus hop hid hbuf⟩

theorem cmdIncr_leaves {s : σ} {m : Map} (h : Represents eng s m) (u : Nat) {req : StReq}
    {res : StRes} (hop : res.opcode = req.opcode) (hid : res.opaqueId = req.opaqueId)
    (hbuf : res.bufSz = LibSt.writeResponsesBufSz - memcacheHeaderSize) (hmem : res.mem = [])
    (hextras : res.extrasSz = 0) (hkeySz : res.keySz = 0) :
    Leaves eng (PluginIncr.cmdIncr eng.toStStorageApi ⟨s, u⟩ req res) (incrStep u m req).1.1
      (incrStep u m req).1.2 (incrStep u m req).2 := by
  have hargs : req.extras.length ≠ 20 ∨ req.key = [] ∨ req.value ≠ [] ↔
      req.extras.length ≠ 20 ∨ ¬ NamesCounter req := by
    rw [NamesCounter, not_and_or, not_not]
  rw [PluginIncr.cmdIncr, incrStep, if_congr hargs rfl rfl]
  by_cases hbad : req.extras.length ≠ 20 ∨ ¬ NamesCounter req
  · rw [if_pos hbad, if_pos hbad]
    exact refusal_leaves eng h u (by decide) hop hid hbuf
  · rw [if_neg hbad, if_neg hbad]
    obtain ⟨hlen, hnames⟩ := not_or.mp hbad
    rw [not_not] at hlen hnames
    have hfield : ∀ off n, off + n ≤ 20 → (slice req.extras off n).length = n := by
      intro off n hle
      rw [length_slice]
      omega
    have hroom : (maxValueSize + sizeofMcMetadata : Nat) ≤ res.bufSz := by
      rw [hbuf, LibSt.writeResponsesBufSz, maxValueSize_eq, sizeofMcMetadata,
        memcacheHeaderSize_eq, maxRequestSize_eq]
      omega
    have hexpiration : expirationOf req < 2 ^ 32 := slice_lt 16
    have h1 : LibSt.ntohll (leVal (slice req.extras 0 8)) = amountOf req :=
      LibSt.ntohll_leVal (hfield 0 8 (by omega))
    have h2 : LibSt.ntohll (leVal (slice req.extras 8 8)) = initialOf req :=
      LibSt.ntohll_leVal (hfield 8 8 (by omega))
    have h3 : ntohl (leVal (slice req.extras 16 4)) = expirationOf req :=
      ntohl_leVal (hfield 16 4 (by omega))
    simp only [libStorageGet_represents eng h hroom req.key, h1, h2, h3, hmem]
    cases hit : m req.key with
    | none =>
        simp only []
        by_cases hno : expirationOf req = 0xffffffff
        · rw [if_pos hno, if_pos hno]
          exact refusal_leaves eng h u (by decide) hop hid hbuf
        · rw [if_neg hno, if_neg hno]
          have hmd : McMetadata.Ok ⟨0, expirationOf req, (PluginIncr.drawCas u).2⟩ :=
            ⟨Nat.two_pow_pos 32, hexpiration, drawCas_lt u⟩
          exact storeCounter_leaves eng h hnames.1 _ (slice_lt 8) hmd rfl rfl hextras hkeySz hop hid
    | some it =>
        simp only []
        by_cases height : it.value.length = 8
        · have hok := (h.ok req.key it hit).metadata
          have hread : slice (poke [] 0 it.toBytes) 0 8 = it.value := by
            rw [poke_zero, List.drop_nil, List.append_nil, Item.toBytes, ← height,
              slice_append_left (by omega), slice_all]
          rw [if_neg (not_not.mpr height), if_pos height, hread]
          rw [← countedOn_eq]
          have hcas : (it.cas + 1) % 2 ^ 64 < 2 ^ 64 := Nat.mod_lt _ (Nat.two_pow_pos 64)
          have hmd : McMetadata.Ok { it.metadata with cas := (it.cas + 1) % 2 ^ 64 } :=
            ⟨hok.flags, hok.expiration, hcas⟩
          exact storeCounter_leaves eng h hnames.1 _ (countedOn_lt req _) hmd rfl rfl hextras
            hkeySz hop hid
        · rw [if_pos height, if_neg height]
          exact ⟨h, rfl, rfl⟩

/-- A request to the plugin, over a store and with the plugin's counter. -/
def servePlugin (s : σ) (u : Nat) (request : Bytes) : LibSt.Guest σ × Option Bytes :=
  LibSt.processSingleCommand (PluginIncr.commandsPointers eng.toStStorageApi) ⟨s, u⟩ request

theorem servePlugin_refines {s : σ} {m : Map} (h : Represents eng s m) (u : Nat)
    {request : Bytes} (hop : IsCounterOpcode (mcGetOpcode request)) :
    Represents eng (servePlugin eng s u request).1.store
        (incrStep u m (unpackRequest request)).1.1 ∧
      (servePlugin eng s u request).1.uniqueNumber
        = (incrStep u m (unpackRequest request)).1.2 ∧
      (servePlugin eng s u request).2
        = (incrStep u m (unpackRequest request)).2.map Response.frame := by
  have hptr : PluginIncr.commandsPointers eng.toStStorageApi (unpackRequest request).opcode
      = some (PluginIncr.cmdIncr eng.toStStorageApi) := if_pos hop
  have hleaves : Leaves eng (PluginIncr.cmdIncr eng.toStStorageApi ⟨s, u⟩ (unpackRequest request)
      (prepareRes LibSt.writeResponsesBufSz request)) _ _ _ :=
    cmdIncr_leaves eng h u rfl rfl rfl rfl rfl rfl
  simp only [servePlugin, LibSt.processSingleCommand, hptr]
  exact ⟨hleaves.store, hleaves.counter, hleaves.response⟩

end Single

/-! ## Meeting the specification

Where the key holds a number, or nothing, the answers are those of the specification,
case by case. Otherwise there is no answer, and so the specification is not met. -/

/-- The key of the request holds a number, or nothing. -/
def NumericTarget (m : Map) (req : StReq) : Prop :=
  NamesCounter req → ∀ it, m req.key = some it → it.value.length = 8

/-- There is a response, and with what is then stored it is one that `CounterStep`
allows. -/
def MeetsCounterStep {σ : Type} (eng : MapEngine σ) (s : σ) (u : Nat) (m : Map)
    (request : Bytes) : Prop :=
  ∃ m' answer, (servePlugin eng s u request).2 = some (Response.frame answer) ∧
    Represents eng (servePlugin eng s u request).1.store m' ∧
    CounterStep m (unpackRequest request) m' answer

theorem incrStep_isSome_iff {u : Nat} {m : Map} {req : StReq} (hlen : req.extras.length = 20) :
    (incrStep u m req).2 ≠ none ↔ NumericTarget m req := by
  rw [incrStep, NumericTarget]
  by_cases hnames : NamesCounter req
  · rw [if_neg (by simp [hlen, hnames])]
    cases hit : m req.key with
    | none =>
        simp only []
        split <;> simp
    | some it =>
        simp only []
        split <;> simp_all
  · rw [if_pos (.inr hnames)]
    simp [hnames]

section Cases

variable {m m' : Map} {req : StReq} {r : Response}

theorem counterStep_of_none (hnames : NamesCounter req) (hnone : m req.key = none)
    (hno : expirationOf req = 0xffffffff → r.status = memcacheStatusKeyNotFound)
    (hyes : expirationOf req ≠ 0xffffffff → ∃ cas,
      m' = Function.update m req.key (some (seededItem req cas)) ∧
        r = numberAnswer req (initialOf req) cas)
    (herror : r.status ≠ memcacheStatusOk → m' = m) : CounterStep m req m' r := by
  refine ⟨absurd hnames, fun _ _ => hno, fun _ _ => hyes, fun _ it hit => ?_, fun _ it hit => ?_,
    herror⟩
  · rw [hnone] at hit
    cases hit
  · rw [hnone] at hit
    cases hit

theorem counterStep_of_number {it : Item} (hnames : NamesCounter req) (hit : m req.key = some it)
    (hlen : it.value.length = 8)
    (hm : m' = Function.update m req.key (some (countedItem req it)))
    (hr : r = numberAnswer req (countedOn req (leVal it.value)) ((it.cas + 1) % 2 ^ 64)) :
    CounterStep m req m' r := by
  refine ⟨absurd hnames, fun _ hnone => ?_, fun _ hnone => ?_, fun _ it' hit' _ => ?_,
    fun _ it' hit' hne => ?_, fun herror => ?_⟩
  · rw [hit] at hnone
    cases hnone
  · rw [hit] at hnone
    cases hnone
  · rw [hit] at hit'
    cases hit'
    exact ⟨hm, hr⟩
  · rw [hit] at hit'
    cases hit'
    exact absurd hlen hne
  · rw [hr] at herror
    exact absurd rfl herror

/-- Every response of the plugin is right. -/
theorem incrStep_counterStep {u : Nat} (hlen : req.extras.length = 20)
    (h : (incrStep u m req).2 = some r) : CounterStep m req (incrStep u m req).1.1 r := by
  rw [incrStep] at h ⊢
  by_cases hnames : NamesCounter req
  · have hvalid : ¬ (req.extras.length ≠ 20 ∨ ¬ NamesCounter req) := by simp [hlen, hnames]
    rw [if_neg hvalid] at h ⊢
    cases hit : m req.key with
    | none =>
        rw [hit] at h
        simp only [] at h ⊢
        refine counterStep_of_none hnames hit (fun hno => ?_) (fun hyes => ?_) fun herror => ?_
        · rw [if_pos hno] at h
          cases h
          rfl
        · rw [if_neg hyes] at h ⊢
          cases h
          exact ⟨_, rfl, rfl⟩
        · by_cases hno : expirationOf req = 0xffffffff
          · rw [if_pos hno]
          · rw [if_neg hno] at h
            cases h
            exact absurd rfl herror
    | some it =>
        rw [hit] at h
        simp only [] at h ⊢
        by_cases height : it.value.length = 8
        · rw [if_pos height] at h ⊢
          cases h
          exact counterStep_of_number hnames hit height rfl rfl
        · rw [if_neg height] at h
          cases h
  · rw [if_pos (.inr hnames)] at h ⊢
    cases h
    exact ⟨fun _ => rfl, fun hn => absurd hn hnames, fun hn => absurd hn hnames,
      fun hn => absurd hn hnames, fun hn => absurd hn hnames, fun _ => rfl⟩

end Cases

theorem meetsCounterStep_iff {σ : Type} (eng : MapEngine σ) {s : σ} {m : Map}
    (h : Represents eng s m) (u : Nat) {request : Bytes}
    (hop : IsCounterOpcode (mcGetOpcode request))
    (hlen : (unpackRequest request).extras.length = 20) :
    MeetsCounterStep eng s u m request ↔ NumericTarget m (unpackRequest request) := by
  obtain ⟨hstore, -, hanswer⟩ := servePlugin_refines eng h u hop
  rw [← incrStep_isSome_iff (u := u) hlen]
  constructor
  · rintro ⟨m', r, hr, -, -⟩ hnone
    rw [hanswer, hnone] at hr
    cases hr
  · intro hsome
    obtain ⟨r, hr⟩ := Option.ne_none_iff_exists'.mp hsome
    exact ⟨_, r, by rw [hanswer, hr]; rfl, hstore, incrStep_counterStep hlen hr⟩

/-! ## Histories

The server is one thread and the plugin one program, so the calls come one after another,
whichever clients they are from. A plugin that went down is gone until the code is
loaded again. -/

/-- A server and its counter plugin, which keeps `unique_number` while it runs. -/
structure Counting (σ γ : Type) where
  world : World σ γ
  plugin : Option Nat := none

/-- A step of a history. -/
inductive CountCall where
  /-- SET, DELETE and the other commands of the store, on some connection -/
  | builtin (io : Io) (request : Bytes)
  /-- the plugin is started, with the random number it asks for -/
  | load (random : Nat)
  /-- INCR and DECR -/
  | plugin (request : Bytes)

/-- What the clients can send. -/
def CountCall.Ok : CountCall → Prop
  | .builtin _ request => StoreRequest request
  | .load _ => True
  | .plugin request => IsCounterOpcode (mcGetOpcode request)

/-- The key is left to the plugin: the server's own commands only read it. -/
def CountCall.Leaves (key : Bytes) : CountCall → Prop
  | .builtin _ request => (unpackRequest request).key = key → mcGetOpcode request = memcacheCmdGet
  | _ => True

/-- What a call adds to the number at a key, seen from its response. -/
def gain (key : Bytes) : CountCall → Option Bytes → Int
  | .plugin request, some response =>
      if (unpackRequest request).key = key ∧ mcGetStatus response = memcacheStatusOk then
        change (unpackRequest request)
      else 0
  | _, _ => 0

/-- By how much the successful requests for a counter have asked for it to grow. -/
def totalGain (key : Bytes) (calls : List CountCall) (answers : List (Option Bytes)) : Int :=
  ((calls.zip answers).map fun p => gain key p.1 p.2).sum

section History

variable {σ γ : Type} (eng : MapEngine σ) (vx : Vx γ) (cfg : Config γ)

/-- A call, and its response. Without the plugin INCR and DECR are not served. -/
def countCall (c : Counting σ γ) : CountCall → Option (Counting σ γ × Option Bytes)
  | .builtin io request =>
      match serve eng.toStStorageApi vx cfg c.world io request with
      | none => none
      | some (w, response) => some ({ c with world := w }, some response)
  | .load random => some ({ c with plugin := some random }, none)
  | .plugin request =>
      match c.plugin with
      | none => some (c, none)
      | some u =>
          let r := servePlugin eng c.world.store u request
          some ({ world := { c.world with store := r.1.store }
                  plugin := r.2.map fun _ => r.1.uniqueNumber }, r.2)

theorem countCall_plugin {c : Counting σ γ} {u : Nat} (h : c.plugin = some u) (request : Bytes) :
    countCall eng vx cfg c (.plugin request) = some (
      { world := { c.world with store := (servePlugin eng c.world.store u request).1.store }
        plugin := (servePlugin eng c.world.store u request).2.map fun _ =>
          (servePlugin eng c.world.store u request).1.uniqueNumber },
      (servePlugin eng c.world.store u request).2) := by
  simp only [countCall, h]

/-- A history, with the response to every request that has one. -/
def countRun : Counting σ γ → List CountCall → Option (Counting σ γ × List (Option Bytes))
  | c, [] => some (c, [])
  | c, call :: rest =>
      match countCall eng vx cfg c call with
      | none => none
      | some (c, answer) =>
          match countRun c rest with
          | none => none
          | some (c, answers) => some (c, answer :: answers)

/-- The item is a number that has grown by `n`. -/
def GrownBy (n : Int) (before after : Option Item) : Prop :=
  ∀ it, before = some it → it.value.length = 8 →
    ∃ it', after = some it' ∧ it'.value.length = 8 ∧
      (leVal it'.value : Int) = (leVal it.value + n) % 2 ^ 64

theorem grownBy_zero (it : Option Item) : GrownBy 0 it it := by
  intro it' hit hlen
  have hlt := leVal_lt it'.value
  rw [hlen] at hlt
  refine ⟨it', hit, hlen, ?_⟩
  omega

theorem GrownBy.trans {n k : Int} {a b c : Option Item} (h : GrownBy n a b) (h' : GrownBy k b c) :
    GrownBy (n + k) a c := by
  intro it hit hlen
  obtain ⟨it1, hit1, hlen1, hn⟩ := h it hit hlen
  obtain ⟨it2, hit2, hlen2, hk⟩ := h' it1 hit1 hlen1
  refine ⟨it2, hit2, hlen2, ?_⟩
  rw [hk, hn]
  omega

theorem gain_of_failure (key request : Bytes) {r : Response}
    (h : r.status % 2 ^ 16 ≠ memcacheStatusOk) :
    gain key (.plugin request) (some r.frame) = 0 := by
  rw [gain, if_neg]
  rw [Response.mcGetStatus_frame]
  exact fun hc => h hc.2

theorem gain_of_other {key request : Bytes} (h : (unpackRequest request).key ≠ key)
    (answer : Option Bytes) : gain key (.plugin request) answer = 0 := by
  cases answer with
  | none => rfl
  | some r =>
      rw [gain, if_neg]
      exact fun hc => h hc.1

theorem gain_of_success (request : Bytes) {r : Response} (h : r.status = memcacheStatusOk) :
    gain (unpackRequest request).key (.plugin request) (some r.frame)
      = change (unpackRequest request) := by
  rw [gain, if_pos]
  rw [Response.mcGetStatus_frame, h]
  exact ⟨rfl, rfl⟩

theorem countedItem_grows (req : StReq) {it : Item} :
    GrownBy (change req) (some it) (some (countedItem req it)) := by
  intro it' hit _
  cases hit
  refine ⟨_, rfl, length_leBytes 8 _, ?_⟩
  rw [countedItem, leVal_leBytes_eight (countedOn_lt req _), countedOn]
  omega

/-- A request to the plugin changes no other key. -/
theorem incrStep_other (u : Nat) (m : Map) (req : StReq) {key : Bytes} (h : req.key ≠ key) :
    (incrStep u m req).1.1 key = m key := by
  have hput : ∀ it, Function.update m req.key it key = m key := fun it =>
    Function.update_of_ne (fun he => h he.symm) _ _
  rw [incrStep]
  split
  · rfl
  · split
    · split
      · rfl
      · exact hput _
    · split
      · exact hput _
      · rfl

/-- A request to the plugin, seen from a key: its number grows by what the response of
the plugin stands for. -/
theorem incrStep_grows (u : Nat) (m : Map) (request key : Bytes) :
    GrownBy (gain key (.plugin request)
      ((incrStep u m (unpackRequest request)).2.map Response.frame)) (m key)
      ((incrStep u m (unpackRequest request)).1.1 key) := by
  by_cases hkey : (unpackRequest request).key = key
  · subst hkey
    rw [incrStep]
    split
    · have hstatus : memcacheStatusInvalidArguments % 2 ^ 16 ≠ memcacheStatusOk := by decide
      rw [Option.map_some, gain_of_failure _ _ hstatus]
      exact grownBy_zero _
    · cases hit : m (unpackRequest request).key with
      | none => exact fun it hsome => by cases hsome
      | some it =>
          simp only []
          split
          · simp only [Option.map_some, Function.update_self]
            rw [gain_of_success _ rfl]
            exact countedItem_grows _
          · next hlen =>
              intro it' hsome hlen'
              cases hsome
              exact absurd hlen' hlen
  · rw [incrStep_other u m _ hkey, gain_of_other hkey]
    exact grownBy_zero _

/-- A call of a history: it is served, the store stands for a map again, and a number
that is left to the plugin grows as the response says. -/
theorem countCall_step {c : Counting σ γ} {m : Map} (h : Represents eng c.world.store m)
    (hslots : c.world.BuiltinsIntact) {call : CountCall} (hok : call.Ok) :
    ∃ c' answer m', countCall eng vx cfg c call = some (c', answer) ∧
      Represents eng c'.world.store m' ∧ c'.world.BuiltinsIntact ∧
      ∀ key, call.Leaves key → GrownBy (gain key call answer) (m key) (m' key) := by
  cases call with
  | builtin io request =>
      obtain ⟨w', hserve, hrep, hslots', -⟩ := serve_refines eng vx cfg h hslots io hok
      refine ⟨{ c with world := w' }, _, _, by rw [countCall, hserve], hrep, hslots', ?_⟩
      intro key hleaves
      have hkeep : (specStep c.world m request).1.map key = m key := by
        rw [specStep, step_map_eq_observe nextCas _ _ hok.2, observe]
        split
        · next hkey =>
            have hget : (unpackRequest request).opcode = memcacheCmdGet := hleaves hkey.2
            rw [hget, if_neg (by decide), if_neg (by decide)]
        · rfl
      rw [hkeep]
      exact grownBy_zero _
  | load random => exact ⟨_, none, m, rfl, h, hslots, fun key _ => grownBy_zero _⟩
  | plugin request =>
      cases hplugin : c.plugin with
      | none =>
          refine ⟨c, none, m, by rw [countCall, hplugin], h, hslots, fun key _ => grownBy_zero _⟩
      | some u =>
          obtain ⟨hstore, -, hanswer⟩ := servePlugin_refines eng h u hok
          refine ⟨_, _, _, countCall_plugin eng vx cfg hplugin request, hstore, hslots,
            fun key _ => ?_⟩
          rw [hanswer]
          exact incrStep_grows u m request key

theorem countRun_spec : ∀ {calls : List CountCall} {c : Counting σ γ} {m : Map},
    Represents eng c.world.store m → c.world.BuiltinsIntact → (∀ call ∈ calls, call.Ok) →
      ∃ c' answers m', countRun eng vx cfg c calls = some (c', answers) ∧
        Represents eng c'.world.store m' ∧ c'.world.BuiltinsIntact ∧
        ∀ key, (∀ call ∈ calls, call.Leaves key) →
          GrownBy (totalGain key calls answers) (m key) (m' key) := by
  intro calls
  induction calls with
  | nil =>
      intro c m h hslots _
      exact ⟨c, [], m, rfl, h, hslots, fun key _ => grownBy_zero _⟩
  | cons call rest ih =>
      intro c m h hslots hok
      obtain ⟨c1, answer, m1, hcall, h1, hslots1, hgrow⟩ :=
        countCall_step eng vx cfg h hslots (hok call List.mem_cons_self)
      obtain ⟨c', answers, m', hrun, h', hslots', hrest⟩ :=
        ih h1 hslots1 fun call hmem => hok call (List.mem_cons_of_mem _ hmem)
      refine ⟨c', answer :: answers, m', by rw [countRun, hcall]; simp only [hrun], h', hslots', ?_⟩
      intro key hleaves
      have htotal : totalGain key (call :: rest) (answer :: answers)
          = gain key call answer + totalGain key rest answers := List.sum_cons
      rw [htotal]
      exact (hgrow key (hleaves call List.mem_cons_self)).trans
        (hrest key fun call hmem => hleaves call (List.mem_cons_of_mem _ hmem))

/-- In every state that SET, DELETE and the plugin can reach from an empty store, a
request meets the specification exactly when its key holds a number or nothing. And from
there on the numbers add up. -/
theorem counterStep_iff {start c : Counting σ γ} {calls : List CountCall}
    {answers : List (Option Bytes)} (hempty : ∀ key, eng.view start.world.store key = none)
    (hslots : start.world.BuiltinsIntact) (hok : ∀ call ∈ calls, call.Ok)
    (hrun : countRun eng vx cfg start calls = some (c, answers)) :
    ∃ m, Represents eng c.world.store m ∧
      (∀ (u : Nat) (request : Bytes), IsCounterOpcode (mcGetOpcode request) →
        (unpackRequest request).extras.length = 20 →
          (MeetsCounterStep eng c.world.store u m request ↔
            NumericTarget m (unpackRequest request))) ∧
      ∀ (more : List CountCall) (key : Bytes), (∀ call ∈ more, call.Ok ∧ call.Leaves key) →
        ∃ c' answers' m', countRun eng vx cfg c more = some (c', answers') ∧
          Represents eng c'.world.store m' ∧
          GrownBy (totalGain key more answers') (m key) (m' key) := by
  have hstart : Represents eng start.world.store fun _ => none :=
    ⟨fun key => hempty key, fun _ _ hit => by cases hit⟩
  obtain ⟨c1, answers1, m, hrun1, hrep, hslots1, -⟩ := countRun_spec eng vx cfg hstart hslots hok
  rw [hrun] at hrun1
  cases hrun1
  refine ⟨m, hrep, fun u request hop hlen => meetsCounterStep_iff eng hrep u hop hlen, ?_⟩
  intro more key hmore
  obtain ⟨c', answers', m', hrun', hrep', -, hgrow⟩ :=
    countRun_spec eng vx cfg hrep hslots1 fun call hmem => (hmore call hmem).1
  exact ⟨c', answers', m', hrun', hrep', hgrow key fun call hmem => (hmore call hmem).2⟩

end History

def incrRequest (key : String) (amount initial expiration : Nat) : Bytes :=
  Request.frame
    { opcode := LibSt.memcacheCmdIncr
      extras := beBytes 8 amount ++ beBytes 8 initial ++ beBytes 4 expiration
      key := ascii key }

theorem counterStep_iff_seeded : ∃ c answers,
    countRun mapEngine idleVx plainConfig { world := freshWorld }
      [.load 7, .plugin (incrRequest "a" 1 5 0)] = some (c, answers) ∧
    ∃ m, Represents mapEngine c.world.store m ∧
      (∀ (u : Nat) (request : Bytes), IsCounterOpcode (mcGetOpcode request) →
        (unpackRequest request).extras.length = 20 →
          (MeetsCounterStep mapEngine c.world.store u m request ↔
            NumericTarget m (unpackRequest request))) ∧
      ∀ (more : List CountCall) (key : Bytes), (∀ call ∈ more, call.Ok ∧ call.Leaves key) →
        ∃ c' answers' m', countRun mapEngine idleVx plainConfig c more = some (c', answers') ∧
          Represents mapEngine c'.world.store m' ∧
          GrownBy (totalGain key more answers') (m key) (m' key) := by
  have hslots : freshWorld.BuiltinsIntact := fun _ _ => rfl
  have hok : ∀ call ∈ [CountCall.load 7, .plugin (incrRequest "a" 1 5 0)], call.Ok := by
    intro call hcall
    rcases List.mem_cons.mp hcall with rfl | hcall
    · exact trivial
    · rw [List.mem_singleton.mp hcall]
      exact show IsCounterOpcode (mcGetOpcode (incrRequest "a" 1 5 0)) by decide
  have hstart : Represents mapEngine freshWorld.store fun _ => none := represents_empty
  obtain ⟨c, answers, m, hrun, -⟩ := countRun_spec mapEngine idleVx plainConfig
    (c := ⟨freshWorld, none⟩) hstart hslots hok
  exact ⟨c, answers, hrun,
    counterStep_iff mapEngine idleVx plainConfig (fun _ => rfl) hslots hok hrun⟩

/-- The item is a text of one byte: the plugin is told to say so, and goes down. -/
theorem counterStep_text : ∃ c answers m,
    countRun mapEngine idleVx plainConfig { world := freshWorld }
      [.builtin {} (setRequest "a" "1" 0), .load 7] = some (c, answers) ∧
    Represents mapEngine c.world.store m ∧
    IsCounterOpcode (mcGetOpcode (incrRequest "a" 1 0 0)) ∧
    (unpackRequest (incrRequest "a" 1 0 0)).extras.length = 20 ∧
    ¬ MeetsCounterStep mapEngine c.world.store 7 m (incrRequest "a" 1 0 0) := by
  have hslots : freshWorld.BuiltinsIntact := fun _ _ => rfl
  have hstart : Represents mapEngine freshWorld.store fun _ => none := represents_empty
  have hok : ∀ call ∈ [CountCall.builtin {} (setRequest "a" "1" 0), .load 7], call.Ok := by
    intro call hcall
    rcases List.mem_cons.mp hcall with rfl | hcall
    · exact show StoreRequest (setRequest "a" "1" 0) by decide
    · rw [List.mem_singleton.mp hcall]
      exact trivial
  obtain ⟨c, answers, m, hrun, hrep, -⟩ := countRun_spec mapEngine idleVx plainConfig
    (c := ⟨freshWorld, none⟩) hstart hslots hok
  refine ⟨c, answers, m, hrun, hrep, by decide, by decide, ?_⟩
  have hstored : ((countRun mapEngine idleVx plainConfig { world := freshWorld }
      [.builtin {} (setRequest "a" "1" 0), .load 7]).bind fun r =>
        (r.1.world.store (ascii "a")).map List.length) = some 17 := by decide +kernel
  rw [hrun, Option.bind_some] at hstored
  have hview : c.world.store (ascii "a") = (m (ascii "a")).map Item.toBytes :=
    hrep.view (ascii "a")
  rw [hview, Option.map_map] at hstored
  obtain ⟨it, hit, hlen⟩ := Option.map_eq_some_iff.mp hstored
  have hlen : it.value.length + sizeofMcMetadata = 17 := by
    rw [← Item.length_toBytes]
    exact hlen
  rw [meetsCounterStep_iff mapEngine hrep 7 (by decide) (by decide)]
  intro hnumber
  have height := hnumber (by decide) it hit
  rw [height, sizeofMcMetadata] at hlen
  omega

end Smalltable.Proofs
