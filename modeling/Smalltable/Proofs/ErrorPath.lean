import Smalltable.Proofs.Responses

/-!
# The error path of `process_commands_callback`

When a process fails its group, what it has sent for it is taken back and every
request gets an error. How much there is to take back is `send_sz`, a field of
the process: it counts from 0 in every invocation, and between two of them it
keeps the count of the last. Of the three jumps to `error` one is made before
the count is reset, when the group does not fit in the buffer of the process.
So the path is clean exactly when the group fits or the process has sent
nothing before.

The errors depend on nothing but the requests: each has the opcode and the opaque value
of its request. So it is only the rollback in front of them that can do any harm.
-/

namespace Smalltable.Proofs

open Smalltable.Ref

/-- The answer to a request of a group that failed. -/
def unknownCommand (request : Bytes) : Response :=
  { opcode := mcGetOpcode request
    opaqueId := mcGetOpaque request
    status := memcacheStatusUnknownCommand
    value := ascii "Unknown command" }

/-- What a group is answered when its process has failed. -/
def unknownAnswers (reqs : List Bytes) : Bytes :=
  (reqs.map fun req => (unknownCommand req).frame).flatten

theorem unknownAnswers_cons (req : Bytes) (rest : List Bytes) :
    unknownAnswers (req :: rest) = (unknownCommand req).frame ++ unknownAnswers rest := by
  rw [unknownAnswers, List.map_cons, List.flatten_cons, unknownAnswers]

/-! ## Bytes added to a buffer

A rollback by too much leaves a buffer that is not in order, so what the error
messages do to it is said of the offsets and the block. -/

/-- Bytes were added behind what is there, whatever it is; the start has not moved. -/
structure Appended (b b' : Buffer) (bs : Bytes) : Prop where
  start : b'.startOff = b.startOff
  stop : b'.stopOff = b.stopOff + bs.length
  mem : b'.mem = b.mem ++ bs

theorem Appended.refl (b : Buffer) : Appended b b [] :=
  ⟨rfl, by simp, by simp⟩

theorem Appended.trans {b b' b'' : Buffer} {xs ys : Bytes} (h : Appended b b' xs)
    (h' : Appended b' b'' ys) : Appended b b'' (xs ++ ys) where
  start := h'.start.trans h.start
  stop := by rw [h'.stop, h.stop, List.length_append, Int.natCast_add, Int.add_assoc]
  mem := by rw [h'.mem, h.mem, List.append_assoc]

theorem appended_write (p : Pool) (b : Buffer) (minSize : Int) (bs : Bytes) :
    Appended b (bufProduce (bufGetWriter p b minSize).2.1 bs) bs := by
  obtain ⟨hstart, hstop, hmem⟩ := bufTakeBlock_offsets p b
  exact ⟨hstart, congrArg (· + (bs.length : Int)) hstop, congrArg (· ++ bs) hmem⟩

theorem Appended.holds {b b' : Buffer} {out bs : Bytes} (h : Appended b b' bs)
    (hout : b.Holds out) : b'.Holds (out ++ bs) :=
  (bufProduce_holds hout bs).of_eq h.start h.stop h.mem

/-! ## The error messages

Behind the rollback one message for each request of the group is added, whatever is in
the buffer then. -/

theorem errorFromReqbuf_unknown (request : Bytes) (p : Pool) (b : Buffer) :
    errorFromReqbuf request (bufGetWriter p b maxRequestSize).2.2 memcacheStatusUnknownCommand none
      = some (unknownCommand request).frame := by
  have hroom := bufGetWriter_room p b maxRequestSize
  have hmax := maxRequestSize_eq
  refine errorFromReqbuf_eq request (by decide) rfl (by decide) ?_
  rw [memcacheHeaderSize_eq]
  omega

theorem unknownCommands_appends {reqs : List Bytes} (hwf : ∀ f ∈ reqs, WellFormed 0x80 f)
    (io : Io) :
    ∃ io', unknownCommands io reqs.flatten = some io' ∧
      Appended io.sendBuf io'.sendBuf (unknownAnswers reqs) := by
  unfold unknownCommands
  rw [forRequests_flatten hwf]
  simp only [errorFromReqbuf_unknown]
  clear hwf
  induction reqs generalizing io with
  | nil => exact ⟨io, rfl, .refl _⟩
  | cons req rest ih =>
      obtain ⟨io', hfold, happ⟩ := ih { io with
        pool := (bufGetWriter io.pool io.sendBuf maxRequestSize).1
        sendBuf := bufProduce (bufGetWriter io.pool io.sendBuf maxRequestSize).2.1
          (unknownCommand req).frame }
      refine ⟨io', hfold, ?_⟩
      rw [unknownAnswers_cons]
      exact (appended_write _ _ _ _).trans happ

/-- The error exit is clean when `send_sz` is what the process has sent. -/
theorem processFailed_clean {σ γ : Type} {pid : Nat} {w : World σ γ} {io : Io} {out sent : Bytes}
    (hsent : Sent pid out sent w io) {reqs : List Bytes} (hwf : ∀ f ∈ reqs, WellFormed 0x80 f) :
    ∃ w' io', processFailed pid w io reqs.flatten = some (w', io') ∧
      io'.sendBuf.Holds (out ++ unknownAnswers reqs) := by
  obtain ⟨pr, hpr, hcount⟩ := hsent.counted
  have hback : (if pr.sendSz ≠ 0 then
      { io with sendBuf := bufRollbackProduced io.sendBuf pr.sendSz }
        else io).sendBuf.Holds out := by
    split
    · exact bufRollbackProduced_holds hsent.holds hcount
    · next hzero =>
        have hnil : sent = [] := List.eq_nil_of_length_eq_zero (by omega)
        have hholds := hsent.holds
        rwa [hnil, List.append_nil] at hholds
  obtain ⟨io', hrun, happ⟩ := unknownCommands_appends hwf (if pr.sendSz ≠ 0 then
      { io with sendBuf := bufRollbackProduced io.sendBuf pr.sendSz } else io)
  refine ⟨w.processFree pid, io', ?_, happ.holds hback⟩
  unfold processFailed
  simp only [hpr, hrun]

/-- And only then: what is taken back is `send_sz`, whatever it counts. -/
theorem processFailed_sendSz {σ γ : Type} {pid : Nat} {w w' : World σ γ} {io io' : Io}
    {pr : Process γ} (hpr : w.procs pid = some pr) {out : Bytes} (hout : io.sendBuf.Holds out)
    {reqs : List Bytes} (hwf : ∀ f ∈ reqs, WellFormed 0x80 f)
    (h : processFailed pid w io reqs.flatten = some (w', io'))
    (hclean : io'.sendBuf.Holds (out ++ unknownAnswers reqs)) : pr.sendSz = 0 := by
  apply Decidable.byContradiction
  intro hne
  obtain ⟨io1, hrun, happ⟩ := unknownCommands_appends hwf
    { io with sendBuf := bufRollbackProduced io.sendBuf pr.sendSz }
  unfold processFailed at h
  simp only [hpr, if_pos hne, hrun] at h
  cases h
  have hstart : io'.sendBuf.startOff = io.sendBuf.startOff := happ.start
  have hstop : io'.sendBuf.stopOff
      = io.sendBuf.stopOff - pr.sendSz + (unknownAnswers reqs).length := happ.stop
  have hused := hclean.used
  have hused0 := hout.used
  rw [List.length_append, Int.natCast_add] at hused
  unfold bufGetUsed at hused hused0
  omega

/-! ## The three jumps

The jump for a group that does not fit comes before `send_sz` is set to 0. Behind that,
what it counts is what the process has sent for this group, and taking it back leaves
the buffer as it was. -/

section ErrorPath

variable {σ γ : Type} (api : StStorageApi σ) (vx : Vx γ) (cfg : Config γ)

/-- `process_commands_callback` gets to `error`, and what the world and the
connection are like there. -/
inductive Fails (w : World σ γ) (io : Io) (reqBuf : Bytes) (pid : Nat) : World σ γ → Io → Prop
  /-- request buffer too small -/
  | tooSmall {pr : Process γ} : w.procs pid = some pr → pr.userBufSz < reqBuf.length →
      Fails w io reqBuf pid w io
  /-- dead after request -/
  | dead {pr : Process γ} {g : γ} {w1 : World σ γ} {io1 : Io} {r : Int} :
      w.procs pid = some pr → ¬ pr.userBufSz < reqBuf.length → pr.machine = some g →
      processRun api vx (cfg.syscallLimit * io.requests + 128) pid
        (w.setProc pid (some (invoked vx pr g io reqBuf))) io = some (w1, io1, r) → r ≠ 0 →
      Fails w io reqBuf pid w1 io1
  /-- no response given -/
  | silent {pr pr1 : Process γ} {g : γ} {w1 : World σ γ} {io1 : Io} :
      w.procs pid = some pr → ¬ pr.userBufSz < reqBuf.length → pr.machine = some g →
      processRun api vx (cfg.syscallLimit * io.requests + 128) pid
        (w.setProc pid (some (invoked vx pr g io reqBuf))) io = some (w1, io1, 0) →
      w1.procs pid = some pr1 → pr1.sendSz = 0 →
      Fails w io reqBuf pid w1 io1

variable {api vx cfg} {w : World σ γ} {io : Io} {pid : Nat}

theorem Fails.callback {reqBuf : Bytes} {w1 : World σ γ} {io1 : Io}
    (h : Fails api vx cfg w io reqBuf pid w1 io1) :
    processCommandsCallback api vx cfg w io reqBuf pid = processFailed pid w1 io1 reqBuf := by
  cases h with
  | tooSmall hpr hsmall =>
      unfold processCommandsCallback
      simp only [hpr, if_pos hsmall]
  | dead hpr hfits hg hrun hr =>
      unfold invoked at hrun
      unfold processCommandsCallback
      simp only [hpr, if_neg hfits, hg, hrun, if_pos hr]
  | silent hpr hfits hg hrun hpr1 hzero =>
      unfold invoked at hrun
      unfold processCommandsCallback
      simp only [hpr, if_neg hfits, hg, hrun, hpr1, if_pos hzero]
      exact if_neg fun h => h rfl

theorem Fails.alive {reqBuf : Bytes} {w1 : World σ γ} {io1 : Io}
    (h : Fails api vx cfg w io reqBuf pid w1 io1) {out : Bytes} (hout : io.sendBuf.Holds out)
    (hreset : ∀ pr, w.procs pid = some pr → ¬ pr.userBufSz < reqBuf.length ∨ pr.sendSz = 0) :
    ∃ sent, Sent pid out sent w1 io1 := by
  cases h with
  | @tooSmall pr hpr hsmall =>
      have hzero : pr.sendSz = 0 := (hreset pr hpr).resolve_left fun hfits => hfits hsmall
      exact ⟨[], by rwa [List.append_nil], pr, hpr, hzero⟩
  | dead hpr hfits hg hrun hr => exact processRun_sent cfg hrun hout
  | silent hpr hfits hg hrun hpr1 hzero => exact processRun_sent cfg hrun hout

/-- In every way the callback can fail, the bytes from before are still there
and each request has its error after them. -/
def FailsClean (api : StStorageApi σ) (vx : Vx γ) (cfg : Config γ) (w : World σ γ) (io : Io)
    (reqs : List Bytes) (pid : Nat) (out : Bytes) : Prop :=
  ∀ w1 io1, Fails api vx cfg w io reqs.flatten pid w1 io1 →
    ∃ w' io', processCommandsCallback api vx cfg w io reqs.flatten pid = some (w', io') ∧
      io'.sendBuf.Holds (out ++ unknownAnswers reqs)

theorem not_failsClean {pr : Process γ} (hpr : w.procs pid = some pr) {reqs : List Bytes}
    (hwf : ∀ f ∈ reqs, WellFormed 0x80 f) {out : Bytes} (hout : io.sendBuf.Holds out)
    (hsmall : pr.userBufSz < reqs.flatten.length) (hne : pr.sendSz ≠ 0) :
    ¬ FailsClean api vx cfg w io reqs pid out := by
  intro hclean
  have hfails : Fails api vx cfg w io reqs.flatten pid w io := .tooSmall hpr hsmall
  obtain ⟨w', io', hrun, hholds⟩ := hclean w io hfails
  rw [hfails.callback] at hrun
  exact hne (processFailed_sendSz hpr hout hwf hrun hholds)

/-- The error path is clean exactly when the group fits in the buffer of the
process, or the process has sent nothing when it was last invoked. -/
theorem failsClean_iff (api : StStorageApi σ) (vx : Vx γ) (cfg : Config γ) {pr : Process γ}
    (hpr : w.procs pid = some pr) {reqs : List Bytes} (hwf : ∀ f ∈ reqs, WellFormed 0x80 f)
    {out : Bytes} (hout : io.sendBuf.Holds out) :
    FailsClean api vx cfg w io reqs pid out ↔
      (reqs.flatten.length : Int) ≤ pr.userBufSz ∨ pr.sendSz = 0 := by
  constructor
  · intro hclean
    apply Decidable.byContradiction
    intro hno
    exact not_failsClean hpr hwf hout (by omega) (fun hzero => hno (.inr hzero)) hclean
  · intro hreset w1 io1 hfails
    obtain ⟨sent, hsent⟩ := hfails.alive hout fun pr' hpr' => by
      rw [hpr] at hpr'
      cases hpr'
      exact hreset.imp Int.not_lt.mpr id
    obtain ⟨w', io', hrun, hholds⟩ := processFailed_clean hsent hwf
    exact ⟨w', io', hfails.callback.trans hrun, hholds⟩

end ErrorPath

/-- A process that exits when it is woken. -/
def exiter : Process (List (Reg → Nat)) where
  machine := some [fun _ => 0, callWith 0x01 0 0]
  key := ascii "p"
  registercnt := 1
  userBufSz := maxRequestSize

def exiterWorld : World Unit (List (Reg → Nat)) where
  cmdPointers := cmdPointersInit.put 0x80 (processEntry 0 0)
  procs := fun i => if i = 0 then some exiter else none
  nextProc := 1
  store := ()

theorem bareRequest_wellFormed : WellFormed 0x80 bareRequest := by decide

theorem failsClean_iff_exits :
    FailsClean emptyEngine (scriptVx []) writerConfig exiterWorld {} [bareRequest] 0 [] ↔
      ([bareRequest].flatten.length : Int) ≤ exiter.userBufSz ∨ exiter.sendSz = 0 := by
  have hpr : exiterWorld.procs 0 = some exiter := rfl
  have hwf : ∀ f ∈ [bareRequest], WellFormed 0x80 f := fun f hf => by
    rw [List.mem_singleton.mp hf]
    exact bareRequest_wellFormed
  exact failsClean_iff emptyEngine (scriptVx []) writerConfig hpr hwf Buffer.holds_empty

/-- One request served, then a group of many. -/
def manyRequests : List Bytes := List.replicate 175000 bareRequest

theorem length_manyRequests : manyRequests.flatten.length = 4200000 := by
  rw [manyRequests, List.length_flatten, List.map_replicate, List.sum_replicate_nat]
  rfl

/-- The frame from the first group is taken back when the second does not fit. -/
theorem failsClean_secondGroup :
    ∃ w io out, processCommandsCallback emptyEngine (scriptVx pluginResponse) writerConfig
        (writerWorld 24) {} bareRequest 0 = some (w, io) ∧
      (∀ f ∈ manyRequests, WellFormed 0x80 f) ∧ io.sendBuf.Holds out ∧
      ¬ FailsClean emptyEngine (scriptVx pluginResponse) writerConfig w io manyRequests 0 out := by
  have h : ((processCommandsCallback emptyEngine (scriptVx pluginResponse) writerConfig
      (writerWorld 24) {} bareRequest 0).map fun r =>
        (r.1.procs 0).map fun pr => (pr.userBufSz, pr.sendSz))
      = some (some ((maxRequestSize : Int), 24)) := by
    decide +kernel
  obtain ⟨⟨w, io⟩, hrun, hview⟩ := Option.map_eq_some_iff.mp h
  obtain ⟨pr, hpr, heq⟩ := Option.map_eq_some_iff.mp hview
  obtain ⟨hsz, hsend⟩ := Prod.mk.inj heq
  obtain ⟨gs, hserves⟩ := processCommandsCallback_serves writerConfig hrun
    (fun hnone => by rw [hnone] at hpr; cases hpr)
  have hout := hserves.sends Buffer.holds_empty
  have hwf : ∀ f ∈ manyRequests, WellFormed 0x80 f := fun f hf => by
    rw [List.eq_of_mem_replicate hf]
    exact bareRequest_wellFormed
  refine ⟨w, io, _, hrun, hwf, hout, not_failsClean hpr hwf hout ?_ ?_⟩
  · rw [length_manyRequests, hsz, maxRequestSize_eq]
    decide
  · rw [hsend]
    decide

end Smalltable.Proofs
