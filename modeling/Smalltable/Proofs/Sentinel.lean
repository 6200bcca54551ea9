import Smalltable.Proofs.Batch
import Smalltable.Proofs.Exchange

/-!
# The reply to the proxy's closing NOOP

The proxy ends what it forwards to a server with a NOOP, and cuts 24 bytes off
the end of what comes back. The server answers a NOOP with 24 bytes, unless the
answers to the requests before it have filled the output to the limit of
`builtin_commands_callback`: then the NOOP is refused like any other request,
and the refusal carries a text.

`processMulti_snoc_builtin` is what makes the NOOP's answer a matter of the
state the requests before it leave. For data commands that state is known from
the requests and the store (`batchRun_below_iff`).
-/

namespace Smalltable.Proofs

open Smalltable.Ref Smalltable.Spec

/-! ## The last request of a batch

A builtin request behind others is served from the state they have left, in whatever
groups the others were. -/

section Last

variable {σ γ : Type} (api : StStorageApi σ) (vx : Vx γ) (cfg : Config γ)

theorem dispatchAll_whole {d d' : Dispatch σ γ} (hd : WholeGroup d) {batch : List Bytes}
    (hwf : ∀ f ∈ batch, WellFormed 0x80 f) (hs : dispatchAll api vx cfg d batch = some d') :
    WholeGroup d' := by
  induction batch generalizing d with
  | nil => cases hs; exact hd
  | cons f rest ih =>
      rw [dispatchAll_cons] at hs
      obtain ⟨d1, hd1, hrest⟩ := Option.bind_eq_some_iff.mp hs
      refine ih ?_ (fun g hg => hwf g (List.mem_cons_of_mem _ hg)) hrest
      have hinv := dispatchStep_inv api vx cfg hd.inv hd1
      have hf := hwf f List.mem_cons_self
      obtain ⟨pending, hc, hpwf, -⟩ := hd.whole
      by_cases hsame : d.group.entry = some (d.world.cmdPointers (mcGetOpcode f))
      · rw [dispatchStep_swallow api vx cfg hsame] at hd1
        cases hd1
        refine ⟨hinv, pending ++ [f], ⟨?_, ?_⟩, ?_, fun hnil => absurd hnil (by simp)⟩
        · show d.group.reqBuf ++ f = _
          rw [hc.handed, List.flatten_append, List.flatten_singleton]
        · intro _
          show d.group.entry ≠ none
          rw [hsame]
          exact Option.some_ne_none _
        · intro g hg
          rcases List.mem_append.mp hg with hg | hg
          · exact hpwf g hg
          · rw [List.mem_singleton.mp hg]
            exact hf
      · obtain ⟨-, hgroup⟩ := dispatchStep_next api vx cfg hsame hd1
        refine ⟨hinv, [f], ⟨?_, ?_⟩, ?_, fun hnil => absurd hnil (by simp)⟩
        · rw [hgroup, List.flatten_singleton]
        · intro _
          rw [hgroup]
          exact Option.some_ne_none _
        · intro g hg
          rw [List.mem_singleton.mp hg]
          exact hf

theorem forRequests_snoc {τ : Type} {batch : List Bytes} {f : Bytes}
    (hwf : ∀ g ∈ batch ++ [f], WellFormed 0x80 g) (s : τ) (g : τ → Bytes → Option τ) :
    forRequests (batch ++ [f]).flatten s (fun s r => (g s r).map .yield)
      = (forRequests batch.flatten s fun s r => (g s r).map .yield).bind fun s' => g s' f := by
  rw [forRequests_flatten hwf, forRequests_flatten
    (fun h hh => hwf h (List.mem_append_left _ hh)), foldFrames_yield_append]
  congr 1
  funext s'
  exact foldFrames_yield_singleton _ _ _

/-- A last request that is not looked up in advance does not change the hints. -/
theorem dispatchStart_snoc {w : World σ γ} (io : Io) {batch : List Bytes} {f : Bytes}
    (hwf : ∀ g ∈ batch ++ [f], WellFormed 0x80 g)
    (hno : (w.cmdPointers (mcGetOpcode f)).isPrefetch = false) :
    dispatchStart api w io (batch ++ [f]).flatten = dispatchStart api w io batch.flatten := by
  have hpre : tryPrefetch api w.cmdPointers w.store (batch ++ [f]).flatten
      = tryPrefetch api w.cmdPointers w.store batch.flatten := by
    have hsnoc := forRequests_snoc hwf ({ store := w.store } : Prefetch σ)
      (fun p r => some (prefetchStep api w.cmdPointers p r))
    simp only [Option.map_some] at hsnoc
    rw [tryPrefetch, tryPrefetch, hsnoc]
    have hsame : ∀ p : Prefetch σ, prefetchStep api w.cmdPointers p f = p := by
      intro p
      rw [prefetchStep, hno]
      rfl
    cases forRequests batch.flatten ({ store := w.store } : Prefetch σ) _ with
    | none => rfl
    | some p => rw [Option.bind_some, hsame]
  rw [dispatchStart, dispatchStart, hpre]

/-- A batch that ends with a builtin request: the batch without it, and then
the request. -/
theorem processMulti_snoc_builtin {w : World σ γ} (hinv : World.Inv w) (io : Io)
    {batch : List Bytes} {f : Bytes} (hwf : ∀ g ∈ batch ++ [f], WellFormed 0x80 g)
    (hf : IsBuiltin f) (hno : (cmdPointersInit (mcGetOpcode f)).isPrefetch = false) :
    processMulti api vx cfg w io (batch ++ [f]).flatten
      = (processMulti api vx cfg w io batch.flatten).bind fun r =>
          (serveBuiltin api vx cfg (r.1, r.2.1) f).map fun st =>
            (st.1, st.2, ((batch ++ [f]).flatten.length : Int)) := by
  have hbatch : ∀ g ∈ batch, WellFormed 0x80 g := fun g hg => hwf g (List.mem_append_left _ hg)
  have hlast : ∀ g ∈ [f], WellFormed 0x80 g := fun g hg => hwf g (List.mem_append_right _ hg)
  rw [processMulti_flatten api vx cfg hwf, processMulti_flatten api vx cfg hbatch,
    dispatchStart_snoc api io hwf (by rw [hf.slot hinv]; exact hno)]
  cases hd : dispatchStart api w io batch.flatten with
  | none => rfl
  | some d =>
      have hwhole : WholeGroup d := by
        rw [dispatchStart] at hd
        split at hd
        · cases hd
        · cases hd
          exact ⟨hinv.of_eq rfl rfl rfl, [], ⟨rfl, fun hne => absurd rfl hne⟩,
            fun g hg => absurd hg List.not_mem_nil, fun _ => rfl⟩
      rw [Option.bind_some, Option.bind_some, dispatchAll, foldFrames_yield_append,
        ← dispatchAll]
      cases hd' : dispatchAll api vx cfg d batch with
      | none => rfl
      | some d' =>
          have hwhole' := dispatchAll_whole api vx cfg hwhole hbatch hd'
          have hone := dispatch_builtin api vx cfg hwhole' hlast fun g hg => by
            rw [List.mem_singleton.mp hg]
            exact hf
          have hmap := congrArg (Option.map fun st : World σ γ × Io =>
            (st.1, st.2, ((batch ++ [f]).flatten.length : Int))) hone
          rw [Option.map_bind, Option.map_bind] at hmap
          rw [Option.bind_some, Option.bind_some, ← dispatchAll]
          refine hmap.trans ?_
          cases runGroup api vx cfg d'.group d'.world d'.io with
          | none => rfl
          | some st =>
              rw [Option.bind_some, Function.comp_apply, serveBatch, foldFrames_yield_singleton]
              rfl

/-! ## The answer to the NOOP

It is a header when the output is below the limit, and longer otherwise. So the proxy
takes back what it should exactly in the first case. -/

theorem noop_isBuiltin : IsBuiltin noop := by rw [IsBuiltin]; decide

/-- What the server answers to the closing NOOP, given the output in front of
it. -/
def noopReply (used : Int) : Response :=
  if used < outputLimit then answer (unpackRequest noop) memcacheStatusOk
  else overloaded (unpackRequest noop)

theorem noopReply_length (used : Int) :
    (noopReply used).frame.length = if used < outputLimit then 24 else 42 := by
  rw [noopReply]
  split
  · rw [Response.length_frame]; rfl
  · rw [Response.length_frame]; rfl

theorem noopReply_wellFormed (used : Int) : WellFormed 0x81 (noopReply used).frame := by
  rw [noopReply]
  split
  · exact Response.frame_wellFormed (by decide) (by decide)
  · exact Response.frame_wellFormed (by decide) (by decide)

theorem serveBuiltin_noop {w : World σ γ} (hinv : World.Inv w) (io : Io) :
    ∃ io', serveBuiltin api vx cfg (w, io) noop = some (w, io') ∧
      io'.sendBuf.startOff = io.sendBuf.startOff ∧
      io'.sendBuf.stopOff = io.sendBuf.stopOff
        + (noopReply (bufGetUsed io.sendBuf)).frame.length ∧
      io'.sendBuf.mem = io.sendBuf.mem ++ (noopReply (bufGetUsed io.sendBuf)).frame := by
  obtain ⟨hstart, hstop, hmem⟩ := bufTakeBlock_offsets io.pool io.sendBuf
  have hroom : Roomy _ := writer_roomy io.pool io.sendBuf
  have hbig := hroom.lt
  have hused : bufGetUsed (bufGetWriter io.pool io.sendBuf
      (maxRequestSize + sizeofMcMetadata)).2.1 = bufGetUsed io.sendBuf := by
    show (bufTakeBlock io.pool io.sendBuf).2.stopOff
      - (bufTakeBlock io.pool io.sendBuf).2.startOff = _
    rw [hstart, hstop]
    rfl
  have hlimit : (maxRequestSize : Int) * 3 = (outputLimit : Nat) := by rw [outputLimit]; omega
  simp only [serveBuiltin, builtinCommand]
  rw [noop_isBuiltin.slot hinv, hused, hlimit, noopReply]
  by_cases hlt : bufGetUsed io.sendBuf < (outputLimit : Nat)
  · rw [if_pos hlt, if_pos hlt]
    have hsingle : processSingle api vx cfg (cmdPointersInit (mcGetOpcode noop)).ptr w
        { io with
          pool := (bufGetWriter io.pool io.sendBuf (maxRequestSize + sizeofMcMetadata)).1
          sendBuf := (bufGetWriter io.pool io.sendBuf (maxRequestSize + sizeofMcMetadata)).2.1 }
        noop (bufGetWriter io.pool io.sendBuf (maxRequestSize + sizeofMcMetadata)).2.2
        = some (w, { io with
            pool := (bufGetWriter io.pool io.sendBuf (maxRequestSize + sizeofMcMetadata)).1
            sendBuf :=
              (bufGetWriter io.pool io.sendBuf (maxRequestSize + sizeofMcMetadata)).2.1 },
          (answer (unpackRequest noop) memcacheStatusOk).frame) :=
      processSingle_of vx cfg rfl (packResponse_bare rfl rfl rfl hroom)
    simp only [hsingle]
    refine ⟨_, rfl, hstart, ?_, ?_⟩
    · show (bufTakeBlock io.pool io.sendBuf).2.stopOff + _ = _
      rw [hstop]
    · show (bufTakeBlock io.pool io.sendBuf).2.mem ++ _ = _
      rw [hmem]
  · rw [if_neg hlt, if_neg hlt]
    have hmsg : errorStr memcacheStatusInternalError none
        = some (ascii "Unknown error code") := rfl
    have herr := errorFromReqbuf_eq noop (by decide) hmsg (by decide)
      (show ((memcacheHeaderSize + 256 : Nat) : Int) ≤ (bufGetWriter io.pool io.sendBuf
        (maxRequestSize + sizeofMcMetadata)).2.2 by rw [memcacheHeaderSize_eq]; omega)
    simp only [herr]
    refine ⟨_, rfl, hstart, ?_, ?_⟩
    · show (bufTakeBlock io.pool io.sendBuf).2.stopOff + _ = _
      rw [hstop]
      rfl
    · show (bufTakeBlock io.pool io.sendBuf).2.mem ++ _ = _
      rw [hmem]
      rfl

/-- What the proxy is left with after cutting off 24 bytes. -/
theorem rollback_noopReply {used : Int} {recvBuf : Buffer} {responses : Bytes}
    (h : recvBuf.Holds (responses ++ (noopReply used).frame)) :
    (bufRollbackProduced recvBuf 24).Holds responses ↔ used < outputLimit := by
  have hlen := noopReply_length used
  constructor
  · intro hcut
    by_contra hno
    rw [if_neg hno] at hlen
    have h1 := h.used
    have h2 := hcut.used
    have h3 : bufGetUsed (bufRollbackProduced recvBuf 24) = bufGetUsed recvBuf - 24 := by
      show recvBuf.stopOff - 24 - recvBuf.startOff = recvBuf.stopOff - recvBuf.startOff - 24
      omega
    rw [List.length_append] at h1
    omega
  · intro hlt
    rw [if_pos hlt] at hlen
    exact bufRollbackProduced_holds h (by rw [hlen]; rfl)

end Last

/-! ## The output of data commands

With a map behind the server the output of a batch is the sum of the answers, each of
them known from its request and the map it meets, up to the limit. -/

theorem batchRun_below_iff (draw : Nat → Nat × Nat) (st : State) (used : Nat)
    (reqs : List StReq) :
    used + (bytesOf (batchRun draw st used reqs).2).length < outputLimit ↔
      used + (bytesOf (serveRun draw st reqs).2).length < outputLimit := by
  constructor
  · intro h
    induction reqs generalizing st used with
    | nil => exact h
    | cons req rest ih =>
        have hlt : used < outputLimit := by omega
        simp only [batchRun, if_pos hlt, bytesOf_cons, List.length_append] at h
        simp only [serveRun, bytesOf_cons, List.length_append]
        have hrest : used + (serveStep draw st req).2.frame.length
            + (bytesOf (serveRun draw (serveStep draw st req).1 rest).2).length < outputLimit :=
          ih _ _ (by omega)
        omega
  · intro h
    rw [batchRun_eq_serveRun (by omega)]
    exact h

/-- The reply to the NOOP behind `forwarded` is 24 bytes, and cutting 24 bytes
leaves the replies to `forwarded`, exactly when these have not filled the
output; for data commands, exactly when the replies they get one at a time,
behind what was waiting, stay below the limit. -/
theorem sentinelReply_iff {σ γ : Type} (api : StStorageApi σ) (vx : Vx γ) (cfg : Config γ)
    {w w1 : World σ γ} (hinv : World.Inv w) (io : Io) {io1 : Io} {n1 : Int}
    (forwarded : List Bytes) (hwf : ∀ f ∈ forwarded, WellFormed 0x80 f)
    (hdone : processMulti api vx cfg w io forwarded.flatten = some (w1, io1, n1)) :
    ∃ io2 reply, processMulti api vx cfg w io (forwarded ++ [noop]).flatten
        = some (w1, io2, ((forwarded ++ [noop]).flatten.length : Int)) ∧
      io2.sendBuf.mem = io1.sendBuf.mem ++ reply ∧ WellFormed 0x81 reply ∧
      (reply.length = 24 ↔ bufGetUsed io1.sendBuf < outputLimit) ∧
      (∀ recvBuf responses, Buffer.Holds recvBuf (responses ++ reply) →
        ((bufRollbackProduced recvBuf 24).Holds responses ↔
          bufGetUsed io1.sendBuf < outputLimit)) ∧
      ∀ (eng : MapEngine σ) (m : Map) (out : Bytes), eng.toStStorageApi = api →
        Represents eng w.store m → io.sendBuf.Holds out → (∀ f ∈ forwarded, DataRequest f) →
        (bufGetUsed io1.sendBuf < outputLimit ↔
          out.length + (bytesOf (serveRun nextCas ⟨m, w.uniqueNumber⟩
            (forwarded.map unpackRequest)).2).length < outputLimit) := by
  have hwf' : ∀ f ∈ forwarded ++ [noop], WellFormed 0x80 f := by
    intro f hf
    rcases List.mem_append.mp hf with hf | hf
    · exact hwf f hf
    · rw [List.mem_singleton.mp hf]
      exact noop_wellFormed
  have hinv1 := processMulti_inv api vx cfg hinv hdone
  obtain ⟨io2, hnoop, -, -, hmem⟩ := serveBuiltin_noop api vx cfg hinv1 io1
  refine ⟨io2, _, ?_, hmem, noopReply_wellFormed _, ?_, ?_, ?_⟩
  · rw [processMulti_snoc_builtin api vx cfg hinv io hwf' noop_isBuiltin (by decide), hdone,
      Option.bind_some, hnoop]
    rfl
  · rw [noopReply_length]
    split
    · next hlt => exact ⟨fun _ => hlt, fun _ => rfl⟩
    · next hno => exact ⟨fun h => absurd h (by decide), fun h => absurd h hno⟩
  · exact fun recvBuf responses h => rollback_noopReply h
  · rintro eng m out rfl hrep hout hdata
    obtain ⟨w', io', hs, -, -, -, hout', -⟩ :=
      processMulti_data eng vx cfg hrep hinv io hout hdata
    rw [hdone] at hs
    cases hs
    rw [hout'.used, List.length_append, ← batchRun_below_iff]
    omega

theorem sentinelReply_iff_oneGet :
    ∃ w1 io1 n1, processMulti mapEngine.toStStorageApi idleVx plainConfig freshWorld {}
        [getRequest "a"].flatten = some (w1, io1, n1) ∧
      ∃ io2 reply, processMulti mapEngine.toStStorageApi idleVx plainConfig freshWorld {}
          ([getRequest "a"] ++ [noop]).flatten
            = some (w1, io2, (([getRequest "a"] ++ [noop]).flatten.length : Int)) ∧
        io2.sendBuf.mem = io1.sendBuf.mem ++ reply ∧ WellFormed 0x81 reply ∧
        (reply.length = 24 ↔ bufGetUsed io1.sendBuf < outputLimit) := by
  have hdata : ∀ f ∈ [getRequest "a"], DataRequest f := by decide
  obtain ⟨w1, io1, hdone, -⟩ := processMulti_data mapEngine idleVx plainConfig
    (w := freshWorld) represents_empty (World.inv_start _) {} Buffer.holds_empty hdata
  obtain ⟨io2, reply, h1, h2, h3, h4, -⟩ := sentinelReply_iff mapEngine.toStStorageApi idleVx
    plainConfig (w := freshWorld) (World.inv_start _) {} [getRequest "a"]
    (fun f hf => (hdata f hf).1) hdone
  exact ⟨w1, io1, _, hdone, io2, reply, h1, h2, h3, h4⟩

/-! ## Four reads of a big item -/

def bigItem : Item := { value := List.replicate maxValueSize 0, flags := 0, expiration := 0,
                        cas := 1 }

def bigMap : Map := fun key => if key = ascii "a" then some bigItem else none

/-- A server whose store has one item, of the maximal size. -/
def bigWorld : World (Bytes → Option Bytes) Unit where
  store := fun key => if key = ascii "a" then some bigItem.toBytes else none

theorem bigWorld_represents : Represents mapEngine bigWorld.store bigMap := by
  constructor
  · intro key
    show (if key = ascii "a" then some bigItem.toBytes else none)
      = Option.map Item.toBytes (if key = ascii "a" then some bigItem else none)
    split <;> rfl
  · intro key it hit
    rw [bigMap] at hit
    split at hit
    · cases hit
      refine ⟨?_, ⟨by decide, by decide, by decide⟩⟩
      rw [bigItem, List.length_replicate]
    · cases hit

/-- A quiet GET, as a client sends it in a bulk. -/
def quietGet : Bytes :=
  Request.frame { opcode := memcacheCmdGet, reserved := 1, key := ascii "a" }

theorem quietGet_data : DataRequest quietGet := by decide

def bigReply : Response :=
  { answer (unpackRequest quietGet) memcacheStatusOk with
      cas := bigItem.cas, extras := beBytes 4 bigItem.flags, value := bigItem.value }

theorem bigReply_length : bigReply.frame.length = 4194460 := by
  have hext : bigReply.extras.length = 4 := length_beBytes _ _
  have hval : bigReply.value.length = maxValueSize := List.length_replicate
  rw [Response.length_frame, hext, hval, maxValueSize_eq, memcacheHeaderSize_eq]

theorem serveStep_quietGet :
    serveStep nextCas ⟨bigMap, 0⟩ (unpackRequest quietGet) = (⟨bigMap, 0⟩, bigReply) := by
  have hitem : bigMap (unpackRequest quietGet).key = some bigItem := if_pos (by decide)
  rw [serveStep, if_pos (by decide), step, if_neg (by decide), if_pos (by decide)]
  simp only [hitem]
  rw [bigReply]

theorem serveRun_quietGets (n : Nat) :
    (bytesOf (serveRun nextCas ⟨bigMap, 0⟩
      ((List.replicate n quietGet).map unpackRequest)).2).length = n * 4194460 := by
  induction n with
  | zero => rfl
  | succ n ih =>
      simp only [List.replicate_succ, List.map_cons, serveRun, serveStep_quietGet, bytesOf_cons,
        List.length_append, ih, bigReply_length]
      omega

/-- The fourth read of the item takes the output past the limit, and the NOOP
behind it is answered with 42 bytes. -/
theorem sentinelReply_overflow :
    ∃ w1 io1 n1 io2 n2 reply,
      processMulti mapEngine.toStStorageApi idleVx plainConfig bigWorld {}
        (List.replicate 4 quietGet).flatten = some (w1, io1, n1) ∧
      processMulti mapEngine.toStStorageApi idleVx plainConfig bigWorld {}
        (List.replicate 4 quietGet ++ [noop]).flatten = some (w1, io2, n2) ∧
      io2.sendBuf.mem = io1.sendBuf.mem ++ reply ∧ reply.length = 42 := by
  have hinv : World.Inv bigWorld := World.inv_start _
  have hdata : ∀ f ∈ List.replicate 4 quietGet, DataRequest f := by
    intro f hf
    rw [List.eq_of_mem_replicate hf]
    exact quietGet_data
  have hwf : ∀ f ∈ List.replicate 4 quietGet ++ [noop], WellFormed 0x80 f := by
    intro f hf
    rcases List.mem_append.mp hf with hf | hf
    · exact (hdata f hf).1
    · rw [List.mem_singleton.mp hf]
      exact noop_wellFormed
  obtain ⟨w1, io1, hdone, -, hinv1, -, hout, -⟩ := processMulti_data mapEngine idleVx plainConfig
    bigWorld_represents hinv {} Buffer.holds_empty hdata
  obtain ⟨io2, hnoop, -, -, hmem⟩ :=
    serveBuiltin_noop mapEngine.toStStorageApi idleVx plainConfig hinv1 io1
  refine ⟨w1, io1, _, io2, ((List.replicate 4 quietGet ++ [noop]).flatten.length : Int),
    (noopReply (bufGetUsed io1.sendBuf)).frame, hdone, ?_, hmem, ?_⟩
  · rw [processMulti_snoc_builtin _ idleVx plainConfig hinv {} hwf noop_isBuiltin (by decide),
      hdone, Option.bind_some, hnoop]
    rfl
  · have hfull : ¬ bufGetUsed io1.sendBuf < (outputLimit : Nat) := by
      have hsum := serveRun_quietGets 4
      have hbelow := batchRun_below_iff nextCas ⟨bigMap, 0⟩ 0
        ((List.replicate 4 quietGet).map unpackRequest)
      have hu : bigWorld.uniqueNumber = 0 := rfl
      rw [hu, List.length_nil] at hout
      have hused := hout.used
      rw [List.length_append, List.length_nil] at hused
      rw [hsum] at hbelow
      rw [outputLimit, maxRequestSize_eq] at hbelow ⊢
      omega
    rw [noopReply_length, if_neg hfull]

end Smalltable.Proofs
