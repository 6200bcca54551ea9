import Smalltable.Proofs.Grouping
import Smalltable.Proofs.StoreRefine

/-!
# Batches of builtin commands

Grouping is invisible as long as the commands are builtin: their slots never
change, so a batch is served as if every request were given to its handler on
its own (`dispatch_builtin`). This also splits a batch at its first builtin
request after anything else, which is how the proxy's closing NOOP is reached.

What a handler answers also depends on the output that has piled up: with
`3 * MAX_REQUEST_SIZE` bytes waiting, `builtin_commands_callback` answers
INTERNAL_ERROR and does not call the handler at all. For the commands on data
this is `Spec.batchStep`, and `serveBatch_refines` follows a whole batch.

What makes it more than an unfolding is that the loop reads the entry of a request
before it runs the group in front. Of a builtin slot it makes no difference when it is
read (`IsBuiltin.slot`).
-/

namespace Smalltable.Proofs

open Smalltable.Ref Smalltable.Spec

section Dispatch

variable {σ γ : Type} (api : StStorageApi σ) (vx : Vx γ) (cfg : Config γ)

/-- One builtin command through the slot of its opcode. -/
def serveBuiltin (st : World σ γ × Io) (f : Bytes) : Option (World σ γ × Io) :=
  builtinCommand api vx cfg (st.1.cmdPointers (mcGetOpcode f)).ptr st.1 st.2 f

/-- The commands of a batch, each on its own. -/
def serveBatch (st : World σ γ × Io) (batch : List Bytes) : Option (World σ γ × Io) :=
  foldFrames (fun st f => (serveBuiltin api vx cfg st f).map .yield) st batch

theorem serveBatch_cons (st : World σ γ × Io) (f : Bytes) (rest : List Bytes) :
    serveBatch api vx cfg st (f :: rest)
      = (serveBuiltin api vx cfg st f).bind fun st' => serveBatch api vx cfg st' rest := by
  rw [serveBatch, foldFrames]
  cases serveBuiltin api vx cfg st f with
  | none => rfl
  | some st' => rfl

/-- The opcode belongs to a builtin slot. -/
def IsBuiltin (f : Bytes) : Prop := (cmdPointersInit (mcGetOpcode f)).isRo = true

theorem IsBuiltin.slot {w : World σ γ} (h : World.Inv w) {f : Bytes} (hf : IsBuiltin f) :
    w.cmdPointers (mcGetOpcode f) = cmdPointersInit (mcGetOpcode f) := h.builtins _ hf

/-- Builtin slots hold no process. -/
theorem IsBuiltin.not_process {f : Bytes} (hf : IsBuiltin f) :
    (cmdPointersInit (mcGetOpcode f)).isProcess = false := by
  have hall : ∀ n < 256, (cmdPointersInit n.toUInt8).isRo = true →
      (cmdPointersInit n.toUInt8).isProcess = false := by decide +kernel
  have hcmd : (mcGetOpcode f).toNat.toUInt8 = mcGetOpcode f := by simp
  have h := hall (mcGetOpcode f).toNat (mcGetOpcode f).toNat_lt
  rw [hcmd] at h
  exact h hf

/-- The callback over a group of whole requests. -/
theorem builtinCommandsCallback_flatten (ptr : CmdPtr) (w : World σ γ) (io : Io)
    {pending : List Bytes} (hwf : ∀ f ∈ pending, WellFormed 0x80 f) :
    builtinCommandsCallback api vx cfg ptr w io pending.flatten
      = foldFrames (fun st f => (builtinCommand api vx cfg ptr st.1 st.2 f).map .yield) (w, io)
          pending :=
  forRequests_flatten hwf _ _

theorem length_flatten_ne_zero {pending : List Bytes} (hwf : ∀ f ∈ pending, WellFormed 0x80 f)
    (hne : pending ≠ []) : ¬ pending.flatten.length = 0 := by
  have hlen := length_le_length_flatten fun f hf => (hwf f hf).1
  have hpos := List.length_pos_iff.mpr hne
  omega

/-- A builtin request that joins a group is served after it. -/
theorem runGroup_snoc {e : CmdEntry} (he : e.isProcess = false) (w : World σ γ) (io : Io)
    {pending : List Bytes} (hwf : ∀ f ∈ pending, WellFormed 0x80 f) (hne : pending ≠ [])
    {f : Bytes} (hf : WellFormed 0x80 f) :
    runGroup api vx cfg ⟨some e, pending.flatten ++ f⟩ w io
      = (runGroup api vx cfg ⟨some e, pending.flatten⟩ w io).bind fun st =>
          builtinCommand api vx cfg e.ptr st.1 st.2 f := by
  have hwf' : ∀ g ∈ pending ++ [f], WellFormed 0x80 g := by
    intro g hg
    rcases List.mem_append.mp hg with hg | hg
    · exact hwf g hg
    · rw [List.mem_singleton.mp hg]
      exact hf
  have hflat : pending.flatten ++ f = (pending ++ [f]).flatten := by
    rw [List.flatten_append, List.flatten_singleton]
  rw [hflat, runGroup, runGroup]
  simp only [if_neg (length_flatten_ne_zero hwf hne),
    if_neg (length_flatten_ne_zero hwf' (by simp)), he, Bool.false_eq_true, if_false]
  rw [builtinCommandsCallback_flatten api vx cfg _ _ _ hwf,
    builtinCommandsCallback_flatten api vx cfg _ _ _ hwf', foldFrames_yield_append]
  congr 1
  funext st
  exact foldFrames_yield_singleton _ _ _

theorem runGroup_singleton {e : CmdEntry} (he : e.isProcess = false) (w : World σ γ) (io : Io)
    {f : Bytes} (hf : WellFormed 0x80 f) :
    runGroup api vx cfg ⟨some e, f⟩ w io = builtinCommand api vx cfg e.ptr w io f := by
  have hwf : ∀ g ∈ [f], WellFormed 0x80 g := by
    intro g hg
    rw [List.mem_singleton.mp hg]
    exact hf
  have hcall := builtinCommandsCallback_flatten api vx cfg e.ptr w io hwf
  rw [List.flatten_singleton, foldFrames_yield_singleton] at hcall
  have hpos := List.length_pos_iff.mpr hf.1
  rw [runGroup]
  simp only [if_neg (Nat.ne_of_gt hpos), he, Bool.false_eq_true, if_false]
  exact hcall

/-- The group being collected is made of whole requests. -/
structure WholeGroup (d : Dispatch σ γ) : Prop where
  inv : World.Inv d.world
  whole : ∃ pending : List Bytes, Collecting d pending ∧ (∀ f ∈ pending, WellFormed 0x80 f) ∧
    (pending = [] → d.group.entry = none)

/-- Builtin requests behind any group are served one by one, after it. -/
theorem dispatch_builtin {d : Dispatch σ γ} (hd : WholeGroup d) {batch : List Bytes}
    (hwf : ∀ f ∈ batch, WellFormed 0x80 f) (hro : ∀ f ∈ batch, IsBuiltin f) :
    (dispatchAll api vx cfg d batch).bind (fun d' =>
        runGroup api vx cfg d'.group d'.world d'.io)
      = (runGroup api vx cfg d.group d.world d.io).bind fun st =>
          serveBatch api vx cfg st batch := by
  induction batch generalizing d with
  | nil =>
      show runGroup api vx cfg d.group d.world d.io = _
      cases runGroup api vx cfg d.group d.world d.io with
      | none => rfl
      | some st => rfl
  | cons f rest ih =>
      obtain ⟨hinv, pending, hc, hpwf, hempty⟩ := hd
      have hf := hwf f List.mem_cons_self
      have hfro := hro f List.mem_cons_self
      have hrest : ∀ g ∈ rest, WellFormed 0x80 g := fun g hg => hwf g (List.mem_cons_of_mem _ hg)
      have hrestro : ∀ g ∈ rest, IsBuiltin g := fun g hg => hro g (List.mem_cons_of_mem _ hg)
      have hslot := hfro.slot hinv
      rw [dispatchAll_cons]
      by_cases hsame : d.group.entry = some (d.world.cmdPointers (mcGetOpcode f))
      · have hne : pending ≠ [] := by
          intro hnil
          rw [hempty hnil] at hsame
          cases hsame
        have hgroup : d.group = ⟨some (cmdPointersInit (mcGetOpcode f)), pending.flatten⟩ := by
          rw [← hslot, ← hsame, ← hc.handed]
        rw [dispatchStep_swallow api vx cfg hsame, Option.bind_some]
        have hd' : WholeGroup { d with group := { d.group with
            reqBuf := d.group.reqBuf ++ f } } := by
          refine ⟨hinv, pending ++ [f], ⟨?_, ?_⟩, ?_, ?_⟩
          · show d.group.reqBuf ++ f = _
            rw [hc.handed, List.flatten_append, List.flatten_singleton]
          · intro _
            show d.group.entry ≠ none
            rw [hsame]
            exact Option.some_ne_none _
          · intro g hg
            rcases List.mem_append.mp hg with hg | hg
            · exact hpwf g hg
            · rw [List.mem_singleton.mp hg]
              exact hf
          · intro hnil
            exact absurd hnil (by simp)
        rw [ih hd' hrest hrestro]
        show (runGroup api vx cfg ⟨d.group.entry, d.group.reqBuf ++ f⟩ d.world d.io).bind _ = _
        rw [hgroup, runGroup_snoc api vx cfg hfro.not_process _ _ hpwf hne hf, Option.bind_assoc]
        cases hrun : runGroup api vx cfg ⟨some (cmdPointersInit (mcGetOpcode f)),
            pending.flatten⟩ d.world d.io with
        | none => rfl
        | some st =>
            have hst := runGroup_inv api vx cfg hinv hrun
            rw [Option.bind_some, Option.bind_some, serveBatch_cons, serveBuiltin,
              hfro.slot hst]
      · cases hs : dispatchStep api vx cfg d f with
        | none =>
            rw [(dispatchStep_none api vx cfg hs).2]
            rfl
        | some d1 =>
            obtain ⟨hrun, hgroup⟩ := dispatchStep_next api vx cfg hsame hs
            have hinv1 := runGroup_inv api vx cfg hinv hrun
            rw [hslot] at hgroup
            have hd1 : WholeGroup d1 := by
              refine ⟨hinv1, [f], ⟨?_, ?_⟩, ?_, ?_⟩
              · rw [hgroup, List.flatten_singleton]
              · intro _
                rw [hgroup]
                exact Option.some_ne_none _
              · intro g hg
                rw [List.mem_singleton.mp hg]
                exact hf
              · intro hnil
                exact absurd hnil (by simp)
            rw [Option.bind_some, ih hd1 hrest hrestro, hrun, hgroup,
              runGroup_singleton api vx cfg hfro.not_process _ _ hf, Option.bind_some,
              serveBatch_cons, serveBuiltin, hfro.slot hinv1]

end Dispatch

/-! ## Data commands

Where the engine represents a map, a command on data answers as the map does, with the
counter for the CAS values. The limit on the output goes into this: `dataStep` looks at
how much is waiting, as the callback does. -/

section Data

variable {σ γ : Type} (eng : MapEngine σ) (vx : Vx γ) (cfg : Config γ)

/-- A request of the data commands: a whole frame with one of seven opcodes. -/
def DataRequest (request : Bytes) : Prop :=
  WellFormed 0x80 request ∧ IsDataOpcode (mcGetOpcode request)

instance (request : Bytes) : Decidable (DataRequest request) :=
  inferInstanceAs (Decidable (_ ∧ _))

theorem DataRequest.isBuiltin {request : Bytes} (h : DataRequest request) :
    IsBuiltin request := by
  rcases h.2 with hop | hop | hop
  · exact (storeOpcode_ptr hop).1
  · rw [IsBuiltin, hop]; decide
  · rw [IsBuiltin, hop]; decide

/-- What the specification does with a request in this world. -/
def dataStep (w : World σ γ) (m : Map) (request : Bytes) : State × Response :=
  serveStep nextCas ⟨m, w.uniqueNumber⟩ (unpackRequest request)

theorem cmdNoop_answer (w : World σ γ) (io : Io) {request : Bytes} {resBufSz : Int} {m : Map}
    (hroom : Roomy resBufSz) (hop : mcGetOpcode request = memcacheCmdNoop) :
    ∃ res, cmdNoop w io (unpackRequest request) (prepareRes resBufSz request)
        = some (w, io, res) ∧
      packResponse resBufSz res = some (dataStep w m request).2.frame ∧
      (dataStep w m request).1 = ⟨m, w.uniqueNumber⟩ := by
  have hopc : (unpackRequest request).opcode = memcacheCmdNoop := hop
  have hns : ¬ IsStoreOpcode (unpackRequest request).opcode := by rw [hopc]; decide
  have hnv : (unpackRequest request).opcode ≠ memcacheCmdVersion := by rw [hopc]; decide
  rw [cmdNoop, dataStep, serveStep, if_neg hns]
  by_cases hargs : (unpackRequest request).extras ≠ [] ∨ (unpackRequest request).key ≠ [] ∨
      (unpackRequest request).value ≠ []
  · rw [if_pos hargs, if_pos hargs]
    obtain ⟨res, hres, hpack⟩ := refuse_failure w io memcacheStatusInvalidArguments (by decide)
      (prepareRes_opcode resBufSz request) rfl rfl hroom
    exact ⟨res, hres, hpack, rfl⟩
  · rw [if_neg hargs, if_neg hargs, if_neg hnv]
    exact ⟨_, rfl, packResponse_bare rfl rfl rfl hroom, rfl⟩

theorem cmdVersion_answer (w : World σ γ) (io : Io) {request : Bytes} {resBufSz : Int} {m : Map}
    (hroom : Roomy resBufSz) (hop : mcGetOpcode request = memcacheCmdVersion) :
    ∃ res, cmdVersion w io (unpackRequest request) (prepareRes resBufSz request)
        = some (w, io, res) ∧
      packResponse resBufSz res = some (dataStep w m request).2.frame ∧
      (dataStep w m request).1 = ⟨m, w.uniqueNumber⟩ := by
  have hr := hroom.lt
  have hopc : (unpackRequest request).opcode = memcacheCmdVersion := hop
  have hns : ¬ IsStoreOpcode (unpackRequest request).opcode := by rw [hopc]; decide
  rw [cmdVersion, dataStep, serveStep, if_neg hns]
  by_cases hargs : (unpackRequest request).extras ≠ [] ∨ (unpackRequest request).key ≠ [] ∨
      (unpackRequest request).value ≠ []
  · rw [if_pos hargs, if_pos hargs]
    obtain ⟨res, hres, hpack⟩ := refuse_failure w io memcacheStatusInvalidArguments (by decide)
      (prepareRes_opcode resBufSz request) rfl rfl hroom
    exact ⟨res, hres, hpack, rfl⟩
  · rw [if_neg hargs, if_neg hargs, if_pos hopc]
    refine ⟨_, rfl, ?_, rfl⟩
    refine packResponse_frame [] versionText rfl rfl (fun hne => absurd rfl hne) rfl
      (fun _ => rfl) ?_ (by decide) ?_
    · have hsz : versionString.length ≤ ((prepareRes resBufSz request).bufSz - 1).toNat := by
        show 16 ≤ (resBufSz - memcacheHeaderSize - 1).toNat
        rw [memcacheHeaderSize_eq]
        omega
      show peek (poke [] 0 (versionString.take _)) 16 = versionText
      rw [List.take_of_length_le hsz]
      decide
    · rw [memcacheHeaderSize_eq]
      show ((24 + 0 + 16 : Nat) : Int) ≤ resBufSz
      omega

/-- What a connection keeps while data commands are served on it: everything
but its output and the pool. -/
structure SameInput (io io' : Io) : Prop where
  conn : io'.conn = io.conn
  requests : io'.requests = io.requests
  recvBuf : io'.recvBuf = io.recvBuf

/-- A data command on any engine: its data and the counter after it, and the answer. -/
def serveEngine (api : StStorageApi σ) (s : σ) (m : Map) (counter : Nat) (req : StReq) :
    σ × Nat × Response :=
  if IsStoreOpcode req.opcode then engineStep api s m counter req
  else (s, counter, (serveStep nextCas ⟨m, counter⟩ req).2)

section Engine

variable {api : StStorageApi σ} {w : World σ γ} {m : Map} (h : StorageShows api w.store m)
  (hinv : World.Inv w) (io : Io)
include h hinv

theorem processSingle_data {request : Bytes} {resBufSz : Int} (hroom : Roomy resBufSz)
    (hreq : DataRequest request) :
    let r := serveEngine api w.store m w.uniqueNumber (unpackRequest request)
    processSingle api vx cfg (w.cmdPointers (mcGetOpcode request)).ptr w io request resBufSz
      = some ({ w with uniqueNumber := r.2.1, store := r.1 }, io, r.2.2.frame) := by
  intro r
  have hother : ∀ {op : UInt8}, mcGetOpcode request = op → ¬ IsStoreOpcode op →
      (cmdPointersInit op).isRo = true →
      (∃ res, callBuiltin api vx cfg (cmdPointersInit op).ptr w io (unpackRequest request)
          (prepareRes resBufSz request) = some (w, io, res) ∧
        packResponse resBufSz res = some (dataStep w m request).2.frame) →
      processSingle api vx cfg (w.cmdPointers (mcGetOpcode request)).ptr w io request resBufSz
        = some ({ w with uniqueNumber := r.2.1, store := r.1 }, io, r.2.2.frame) := by
    rintro op rfl hns hro ⟨res, hres, hpack⟩
    have hr : r = (w.store, w.uniqueNumber, (dataStep w m request).2) := if_neg hns
    rw [hr, hinv.builtins _ hro]
    exact processSingle_of vx cfg hres hpack
  rcases hreq.2 with hop | hop | hop
  · have hr : r = engineStep api w.store m w.uniqueNumber (unpackRequest request) := if_pos hop
    rw [hr]
    exact processSingle_steps vx cfg h io hinv.builtins hroom hop
  · obtain ⟨res, hres, hpack, -⟩ := cmdNoop_answer w io (m := m) hroom hop
    exact hother hop (by decide) (by decide) ⟨res, hres, hpack⟩
  · obtain ⟨res, hres, hpack, -⟩ := cmdVersion_answer w io (m := m) hroom hop
    exact hother hop (by decide) (by decide) ⟨res, hres, hpack⟩

/-- One request of a batch, below the limit on the output. -/
theorem serveBuiltin_engine {out : Bytes} (hout : io.sendBuf.Holds out)
    (hlt : out.length < outputLimit) {request : Bytes} (hreq : DataRequest request) :
    let r := serveEngine api w.store m w.uniqueNumber (unpackRequest request)
    ∃ io', serveBuiltin api vx cfg (w, io) request
        = some ({ w with uniqueNumber := r.2.1, store := r.1 }, io') ∧
      io'.sendBuf.Holds (out ++ r.2.2.frame) ∧ SameInput io io' := by
  have hout' := bufGetWriter_holds hout io.pool (maxRequestSize + sizeofMcMetadata)
  have hlimit : bufGetUsed (bufGetWriter io.pool io.sendBuf
      (maxRequestSize + sizeofMcMetadata)).2.1 < maxRequestSize * 3 := by
    rw [hout'.used]
    rw [outputLimit] at hlt
    omega
  have hsingle := processSingle_data vx cfg h hinv
    { io with
      pool := (bufGetWriter io.pool io.sendBuf (maxRequestSize + sizeofMcMetadata)).1
      sendBuf := (bufGetWriter io.pool io.sendBuf (maxRequestSize + sizeofMcMetadata)).2.1 }
    (writer_roomy io.pool io.sendBuf) hreq
  simp only [serveBuiltin, builtinCommand]
  rw [if_pos hlimit, hsingle]
  exact ⟨_, rfl, bufProduce_holds hout' _, ⟨rfl, rfl, rfl⟩⟩

end Engine

/-- On an engine that is a map, it is the step of the specification. -/
theorem serveEngine_represents {w : World σ γ} {m : Map} (h : Represents eng w.store m)
    {request : Bytes} (hreq : DataRequest request) :
    let r := serveEngine eng.toStStorageApi w.store m w.uniqueNumber (unpackRequest request)
    r.2.1 = (dataStep w m request).1.counter ∧ r.2.2 = (dataStep w m request).2 ∧
      Represents eng r.1 (dataStep w m request).1.map := by
  intro r
  by_cases hop : IsStoreOpcode (mcGetOpcode request)
  · have hr : r = engineStep eng.toStStorageApi w.store m w.uniqueNumber (unpackRequest request) :=
      if_pos hop
    have hstep : dataStep w m request = step nextCas ⟨m, w.uniqueNumber⟩ (unpackRequest request) :=
      if_pos hop
    rw [hr, hstep]
    exact engineStep_represents eng h w.uniqueNumber (WellFormed.reqOk hreq.1)
  · have hr : r = (w.store, w.uniqueNumber, (dataStep w m request).2) := if_neg hop
    have hsame : (dataStep w m request).1 = ⟨m, w.uniqueNumber⟩ := by
      rw [dataStep, serveStep,
        if_neg (show ¬ IsStoreOpcode (unpackRequest request).opcode from hop)]
      split
      · rfl
      · split
        · rfl
        · rfl
    rw [hr, hsame]
    exact ⟨rfl, rfl, h⟩

variable {w : World σ γ} {m : Map} (h : Represents eng w.store m) (hinv : World.Inv w) (io : Io)
include h hinv

/-- One request of a batch, below the limit or above. -/
theorem serveBuiltin_refines {out : Bytes} (hout : io.sendBuf.Holds out) {request : Bytes}
    (hreq : DataRequest request) :
    let r := if out.length < outputLimit then dataStep w m request
      else (⟨m, w.uniqueNumber⟩, overloaded (unpackRequest request))
    ∃ w' io', serveBuiltin eng.toStStorageApi vx cfg (w, io) request = some (w', io') ∧
      Represents eng w'.store r.1.map ∧ World.Inv w' ∧ w'.uniqueNumber = r.1.counter ∧
      io'.sendBuf.Holds (out ++ r.2.frame) ∧ SameInput io io' := by
  intro r
  by_cases hlt : out.length < outputLimit
  · have hr : r = dataStep w m request := if_pos hlt
    obtain ⟨hcounter, hanswer, hrep⟩ := serveEngine_represents eng h hreq
    obtain ⟨io', hs, hout', hsame⟩ :=
      serveBuiltin_engine vx cfg (Represents.shows h) hinv io hout hlt hreq
    rw [hr]
    refine ⟨_, io', hs, hrep, hinv.of_eq rfl rfl rfl, hcounter, ?_, hsame⟩
    rw [← hanswer]
    exact hout'
  · have hr : r = (⟨m, w.uniqueNumber⟩, overloaded (unpackRequest request)) := if_neg hlt
    have hout' := bufGetWriter_holds hout io.pool (maxRequestSize + sizeofMcMetadata)
    have hlimit : ¬ bufGetUsed (bufGetWriter io.pool io.sendBuf
        (maxRequestSize + sizeofMcMetadata)).2.1 < maxRequestSize * 3 := by
      rw [hout'.used]
      rw [outputLimit] at hlt
      omega
    have hmsg : errorStr memcacheStatusInternalError none
        = some (ascii "Unknown error code") := rfl
    have hbig := Roomy.lt (writer_roomy io.pool io.sendBuf)
    have herr := errorFromReqbuf_eq request (by decide) hmsg (by decide)
      (show ((memcacheHeaderSize + 256 : Nat) : Int) ≤ (bufGetWriter io.pool io.sendBuf
        (maxRequestSize + sizeofMcMetadata)).2.2 by rw [memcacheHeaderSize_eq]; omega)
    simp only [serveBuiltin, builtinCommand]
    rw [if_neg hlimit, hr]
    simp only [herr]
    exact ⟨_, _, rfl, h, hinv, rfl, bufProduce_holds hout' _, ⟨rfl, rfl, rfl⟩⟩

omit h hinv in
theorem serveBatch_refines {w : World σ γ} {m : Map} {io : Io} (h : Represents eng w.store m)
    (hinv : World.Inv w) {out : Bytes} (hout : io.sendBuf.Holds out) {batch : List Bytes}
    (hreq : ∀ f ∈ batch, DataRequest f) :
    ∃ w' io', serveBatch eng.toStStorageApi vx cfg (w, io) batch = some (w', io') ∧
      Represents eng w'.store
        (batchRun nextCas ⟨m, w.uniqueNumber⟩ out.length (batch.map unpackRequest)).1.map ∧
      World.Inv w' ∧ w'.uniqueNumber
        = (batchRun nextCas ⟨m, w.uniqueNumber⟩ out.length (batch.map unpackRequest)).1.counter ∧
      io'.sendBuf.Holds (out ++ bytesOf
        (batchRun nextCas ⟨m, w.uniqueNumber⟩ out.length (batch.map unpackRequest)).2) ∧
      SameInput io io' := by
  induction batch generalizing w m io out with
  | nil =>
      refine ⟨w, io, rfl, h, hinv, rfl, ?_, ⟨rfl, rfl, rfl⟩⟩
      show io.sendBuf.Holds (out ++ [])
      rw [List.append_nil]
      exact hout
  | cons f rest ih =>
      obtain ⟨w1, io1, hs, hrep1, hinv1, hcount1, hout1, hsame1⟩ :=
        serveBuiltin_refines eng vx cfg h hinv io hout (hreq f List.mem_cons_self)
      obtain ⟨w', io', hrest, hrep', hinv', hcount', hout', hsame'⟩ :=
        ih hrep1 hinv1 hout1 fun g hg => hreq g (List.mem_cons_of_mem _ hg)
      rw [hcount1, List.length_append] at hrep' hcount' hout'
      refine ⟨w', io', ?_, hrep', hinv', hcount', ?_, ?_⟩
      · rw [serveBatch_cons, hs]
        exact hrest
      · rw [List.append_assoc] at hout'
        exact hout'
      · exact ⟨hsame'.conn.trans hsame1.conn, hsame'.requests.trans hsame1.requests,
          hsame'.recvBuf.trans hsame1.recvBuf⟩

/-! ## The batch in `process_multi`

Before the first group `process_multi` hints the keys to the engine and gets a block for
the metadata. Both leave what the map is, and what is waiting to be sent; so the batch
is served from the state it was handed over in. -/

omit h hinv in
theorem storagePrefetch_represents {s : σ} {m : Map} (h : Represents eng s m)
    (keys : List Bytes) : Represents eng (storagePrefetch eng.toStStorageApi s keys) m := by
  rw [storagePrefetch]
  split
  · next readahead hra =>
      refine ⟨fun key => ?_, h.ok⟩
      rw [eng.readahead_view readahead hra]
      exact h.view key
  · exact h

omit h hinv in
/-- What every hint to the engine keeps, those of a batch keep. -/
theorem tryPrefetch_invariant {api : StStorageApi σ} {P : σ → Prop}
    (hkeep : ∀ s keys, P s → P (storagePrefetch api s keys)) {s : σ} (h : P s) (t : CmdTable)
    {batch : List Bytes} (hwf : ∀ f ∈ batch, WellFormed 0x80 f) :
    ∃ s', tryPrefetch api t s batch.flatten = some s' ∧ P s' := by
  have hfold : ∀ (fs : List Bytes) (p : Prefetch σ), P p.store →
      ∃ p', foldFrames (fun p request => some (.yield (prefetchStep api t p request))) p fs
        = some p' ∧ P p'.store := by
    intro fs
    induction fs with
    | nil => exact fun p hp => ⟨p, rfl, hp⟩
    | cons f rest ih =>
        intro p hp
        rw [foldFrames]
        refine ih _ ?_
        rw [prefetchStep]
        split
        · have hclear : P (if p.firstRun then storagePrefetch api p.store [] else p.store) := by
            split
            · exact hkeep _ [] hp
            · exact hp
          simp only []
          split
          · exact hkeep _ _ hclear
          · exact hclear
        · exact hp
  obtain ⟨p, hp, hrep⟩ := hfold batch { store := s } h
  rw [tryPrefetch, forRequests_flatten hwf, hp]
  simp only []
  split
  · exact ⟨_, rfl, hkeep _ _ hrep⟩
  · exact ⟨_, rfl, hrep⟩

omit h hinv in
/-- The dispatch loop starts with what the hints have left of the engine's data. -/
theorem dispatchStart_invariant {api : StStorageApi σ} {P : σ → Prop}
    (hkeep : ∀ s keys, P s → P (storagePrefetch api s keys)) {w : World σ γ} (h : P w.store)
    (hinv : World.Inv w) (io : Io) {batch : List Bytes} (hwf : ∀ f ∈ batch, WellFormed 0x80 f) :
    ∃ d, dispatchStart api w io batch.flatten = some d ∧ WholeGroup d ∧
      d.group = {} ∧ P d.world.store ∧ d.world.uniqueNumber = w.uniqueNumber ∧
      d.io.sendBuf = io.sendBuf ∧ d.io.conn = io.conn ∧ d.io.requests = io.requests ∧
      d.io.recvBuf = (bufGetWriter io.pool io.recvBuf sizeofMcMetadata).2.1 := by
  obtain ⟨s', hs', hrep⟩ := tryPrefetch_invariant hkeep h w.cmdPointers hwf
  refine ⟨_, by rw [dispatchStart, hs'], ⟨hinv.of_eq rfl rfl rfl, [], ⟨rfl, ?_⟩, ?_, ?_⟩, rfl,
    hrep, rfl, rfl, rfl, rfl, rfl⟩
  · exact fun hne => absurd rfl hne
  · exact fun f hf => absurd hf List.not_mem_nil
  · exact fun _ => rfl

omit h hinv in
/-- The dispatch loop starts in a world that looks the same. -/
theorem dispatchStart_data {w : World σ γ} {m : Map} (h : Represents eng w.store m)
    (hinv : World.Inv w) (io : Io) {batch : List Bytes}
    (hwf : ∀ f ∈ batch, WellFormed 0x80 f) :
    ∃ d, dispatchStart eng.toStStorageApi w io batch.flatten = some d ∧ WholeGroup d ∧
      d.group = {} ∧ Represents eng d.world.store m ∧ d.world.uniqueNumber = w.uniqueNumber ∧
      d.io.sendBuf = io.sendBuf ∧ d.io.conn = io.conn ∧ d.io.requests = io.requests ∧
      d.io.recvBuf = (bufGetWriter io.pool io.recvBuf sizeofMcMetadata).2.1 :=
  dispatchStart_invariant (P := fun s => Represents eng s m)
    (fun _ keys hs => storagePrefetch_represents eng hs keys) h hinv io hwf

omit h hinv in
/-- `process_multi` on builtin requests serves them one by one. -/
theorem processMulti_serveBatch {api : StStorageApi σ} {w : World σ γ} {io : Io}
    {batch : List Bytes} (hreq : ∀ f ∈ batch, DataRequest f) {d : Dispatch σ γ}
    (hd : dispatchStart api w io batch.flatten = some d) (hwhole : WholeGroup d)
    (hgroup : d.group = {}) {r : World σ γ × Io}
    (hserve : serveBatch api vx cfg (d.world, d.io) batch = some r) :
    processMulti api vx cfg w io batch.flatten
      = some (r.1, r.2, (batch.flatten.length : Int)) := by
  have hwf : ∀ f ∈ batch, WellFormed 0x80 f := fun f hf => (hreq f hf).1
  have hall := dispatch_builtin api vx cfg hwhole hwf fun f hf => (hreq f hf).isBuiltin
  have hempty : runGroup api vx cfg d.group d.world d.io = some (d.world, d.io) := by
    rw [hgroup]
    rfl
  rw [hempty, Option.bind_some, hserve] at hall
  rw [processMulti_flatten _ vx cfg hwf, hd, Option.bind_some]
  obtain ⟨d', hd', hlast⟩ := Option.bind_eq_some_iff.mp hall
  rw [hd', Option.bind_some, hlast]
  rfl

/-- `process_multi` on a batch of data commands. -/
theorem processMulti_data {out : Bytes} (hout : io.sendBuf.Holds out)
    {batch : List Bytes} (hreq : ∀ f ∈ batch, DataRequest f) :
    ∃ (w' : World σ γ) (io' : Io), processMulti eng.toStStorageApi vx cfg w io batch.flatten
        = some (w', io', (batch.flatten.length : Int)) ∧
      Represents eng w'.store
        (batchRun nextCas ⟨m, w.uniqueNumber⟩ out.length (batch.map unpackRequest)).1.map ∧
      World.Inv w' ∧ w'.uniqueNumber
        = (batchRun nextCas ⟨m, w.uniqueNumber⟩ out.length (batch.map unpackRequest)).1.counter ∧
      io'.sendBuf.Holds (out ++ bytesOf
        (batchRun nextCas ⟨m, w.uniqueNumber⟩ out.length (batch.map unpackRequest)).2) ∧
      ∀ held, io.recvBuf.Holds held → io'.recvBuf.Holds held := by
  have hwf : ∀ f ∈ batch, WellFormed 0x80 f := fun f hf => (hreq f hf).1
  obtain ⟨d, hd, hwhole, hgroup, hrep, hcount, hsend, -, -, hrecv⟩ :=
    dispatchStart_data eng h hinv io hwf
  have hout' : d.io.sendBuf.Holds out := by rw [hsend]; exact hout
  obtain ⟨w', io', hserve, hrep', hinv', hcount', hout', hsame⟩ :=
    serveBatch_refines eng vx cfg hrep hwhole.inv hout' hreq
  rw [hcount] at hrep' hcount' hout'
  refine ⟨w', io', processMulti_serveBatch vx cfg hreq hd hwhole hgroup hserve, hrep', hinv',
    hcount', hout', ?_⟩
  intro held hheld
  rw [hsame.recvBuf, hrecv]
  exact bufGetWriter_holds hheld io.pool sizeofMcMetadata

end Data

end Smalltable.Proofs
