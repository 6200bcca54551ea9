import Smalltable.Proofs.Batch
import Smalltable.Proofs.BatchBound
import Smalltable.Proofs.BufferRange
import Smalltable.Proofs.ErrorPath

/-!
# How far the buffers of a connection get

Three things can take a buffer out of the range of an `int`, and each has its
bound in something that is known beforehand.

`recv_buf` rewinds when it is empty, so its `stop_off` is what has been received
since (`Received`). A client that never lets it become empty, with one large
request or with many that overlap, decides how much that is.

`send_buf` is empty whenever the connection reads, so what is in it when a group
of requests is handed to its callback is what the groups before have left there.
Builtin commands stop at `3 * MAX_REQUEST_SIZE` and answer with a short error from
there on; below that an answer can fill the block, and the block is the one the
buffer has or the pool has for it (`builtinReach`). A process is stopped at
`3 * MAX_REQUEST_SIZE` too, but only after the call that takes it there, and that
can hand over as much as the guest has memory.

What a failing process takes back is `send_sz`, and that counts what is there,
unless it is left from an earlier group. That happens when a group does not fit
in the buffer of the process.

`GroupFits` and `StepFits` say this of the state before a group is handed over and
before a step. `connection_range` follows every call of `buf_get_writer` and of
`buf_rollback_produced` from there.
-/

namespace Smalltable.Proofs

open Smalltable.Ref Smalltable.Spec Relation

/-! ## What is written at once

A builtin command gets its writer before it knows its answer, and asks for the room of
the longest one. So the block may be made larger for an answer of 24 bytes. -/

/-- The block of `send_buf`, or the one the pool has for it. -/
def sendBlock (io : Io) : Int :=
  if io.sendBuf.allocated then io.sendBuf.bufSz else (poolGet io.pool).1

/-- The longest of the short errors: a header and `Unknown error code`. -/
def shortError : Nat := 42

theorem bufGetWriter_bufSz_le (io : Io) (n : Int) :
    (bufGetWriter io.pool io.sendBuf n).2.1.bufSz
      ≤ max (sendBlock io) (io.sendBuf.stopOff + n + initialBufSize) := by
  have hgrow := growBuf_le (bufTakeBlock io.pool io.sendBuf).2.stopOff n
    (n + (bufTakeBlock io.pool io.sendBuf).2.stopOff + 1
      - (bufTakeBlock io.pool io.sendBuf).2.bufSz).toNat
    (bufTakeBlock io.pool io.sendBuf).2.bufSz
  have hblock : (bufTakeBlock io.pool io.sendBuf).2.bufSz = sendBlock io := by
    rw [bufTakeBlock, sendBlock]
    split
    · rfl
    · rfl
  rw [hblock, (bufTakeBlock_offsets io.pool io.sendBuf).2.1] at hgrow
  show growBuf (bufTakeBlock io.pool io.sendBuf).2.stopOff n
    (n + (bufTakeBlock io.pool io.sendBuf).2.stopOff + 1
      - (bufTakeBlock io.pool io.sendBuf).2.bufSz).toNat
    (bufTakeBlock io.pool io.sendBuf).2.bufSz ≤ _
  rw [hblock, (bufTakeBlock_offsets io.pool io.sendBuf).2.1]
  omega

theorem length_errorFromReqbuf {request : Bytes} {sz : Int} {status : Nat} {out : Bytes}
    (hroom : (maxRequestSize : Int) < sz)
    (hstatus : status = memcacheStatusUnknownCommand ∨ status = memcacheStatusInternalError)
    (h : errorFromReqbuf request sz status none = some out) : out.length ≤ shortError := by
  have hmax := maxRequestSize_eq
  have hheader := memcacheHeaderSize_eq
  have hroom' : (memcacheHeaderSize + 256 : Nat) ≤ sz := by omega
  rcases hstatus with rfl | rfl
  · rw [errorFromReqbuf_eq request (by decide) rfl (by decide) hroom'] at h
    cases h
    rw [Response.length_frame]
    exact (by decide : 24 + 0 + (ascii "Unknown command").length ≤ 42)
  · rw [errorFromReqbuf_eq request (by decide) rfl (by decide) hroom'] at h
    cases h
    rw [Response.length_frame]
    exact (by decide : 24 + 0 + (ascii "Unknown error code").length ≤ 42)

/-! ## A group of builtin requests

By induction on the requests of the group. Below the limit an answer ends within the
block that the writer found or made; from the limit on each adds one short error. So
what can be waiting behind a group is known from what was waiting before it and the
number of requests. -/

section Builtin

variable {σ γ : Type} (api : StStorageApi σ) (vx : Vx γ) (cfg : Config γ)

/-- What a builtin command does to the connection. -/
structure Wrote (io io' : Io) (minSize : Int) (out : Bytes) : Prop where
  after : io' = { io with
    pool := (bufGetWriter io.pool io.sendBuf minSize).1
    sendBuf := bufProduce (bufGetWriter io.pool io.sendBuf minSize).2.1 out }
  room : (out.length : Int) ≤ (bufGetWriter io.pool io.sendBuf minSize).2.2

theorem builtinCommand_wrote {ptr : CmdPtr} {w w' : World σ γ} {io io' : Io} {request : Bytes}
    (hs : builtinCommand api vx cfg ptr w io request = some (w', io')) :
    ∃ out, Wrote io io' (maxRequestSize + sizeofMcMetadata) out ∧
      (¬ bufGetUsed io.sendBuf < maxRequestSize * 3 → out.length ≤ shortError) := by
  have hroom := bufGetWriter_room io.pool io.sendBuf (maxRequestSize + sizeofMcMetadata)
  have hle : (memcacheHeaderSize : Int) ≤ maxRequestSize + sizeofMcMetadata := by decide
  have hused := bufGetUsed_writer io.pool io.sendBuf (maxRequestSize + sizeofMcMetadata)
  unfold builtinCommand at hs
  simp only [] at hs
  split at hs
  · next hfree =>
      unfold processSingle at hs
      simp only [] at hs
      split at hs
      · cases hs
      · next w1 io1 out hout =>
          split at hout
          · cases hout
          · next w2 io2 res hcall =>
              split at hout
              · cases hout
              · next hpack =>
                  cases hout
                  cases hs
                  rw [callBuiltin_io api vx cfg hcall]
                  exact ⟨out, ⟨rfl, length_packResponse_le (by omega) hpack⟩,
                    fun hfull => absurd (hused ▸ hfree) hfull⟩
  · split at hs
    · cases hs
    · next produced hpack =>
        cases hs
        have hmeta : (0 : Int) ≤ sizeofMcMetadata := by decide
        exact ⟨produced, ⟨rfl, length_errorFromReqbuf_le (by omega) hpack⟩, fun _ =>
          length_errorFromReqbuf (by omega) (.inr rfl) hpack⟩

variable {io io' : Io} {minSize : Int} {out : Bytes}

theorem Wrote.startOff (h : Wrote io io' minSize out) :
    io'.sendBuf.startOff = io.sendBuf.startOff := by
  rw [h.after]
  exact (bufTakeBlock_offsets _ _).1

theorem Wrote.stopOff (h : Wrote io io' minSize out) :
    io'.sendBuf.stopOff = io.sendBuf.stopOff + out.length := by
  rw [h.after]
  exact congrArg (· + (out.length : Int)) (bufTakeBlock_offsets _ _).2.1

theorem Wrote.allFit (h : Wrote io io' minSize out) (hfit : AllFit io)
    (hroom : io.sendBuf.stopOff + minSize < writerLimit) : AllFit io' := by
  rw [h.after]
  refine ⟨hfit.1, fun op hop => ?_⟩
  have hops := ops_bufGetWriter io.pool io.sendBuf minSize
  rw [show (bufProduce (bufGetWriter io.pool io.sendBuf minSize).2.1 out).ops
    = (bufGetWriter io.pool io.sendBuf minSize).2.1.ops from rfl, hops] at hop
  rcases List.mem_cons.mp hop with rfl | hop
  · exact hroom
  · exact hfit.2 op hop

/-- The block is the one that was there or has grown, and holds what was written. -/
theorem Wrote.block (h : Wrote io io' minSize out) :
    sendBlock io' ≤ max (sendBlock io) (io.sendBuf.stopOff + minSize + initialBufSize) ∧
      io'.sendBuf.stopOff ≤ sendBlock io' := by
  have hle := bufGetWriter_bufSz_le io minSize
  have hroom := h.room
  have hsz : (bufGetWriter io.pool io.sendBuf minSize).2.2
      = (bufGetWriter io.pool io.sendBuf minSize).2.1.bufSz
        - (bufGetWriter io.pool io.sendBuf minSize).2.1.stopOff := rfl
  have hstop : (bufGetWriter io.pool io.sendBuf minSize).2.1.stopOff = io.sendBuf.stopOff :=
    (bufTakeBlock_offsets _ _).2.1
  have hal : (bufGetWriter io.pool io.sendBuf minSize).2.1.allocated = true := by
    show (bufTakeBlock io.pool io.sendBuf).2.allocated = true
    rw [bufTakeBlock]
    split
    · next hal => exact hal
    · rfl
  have hblock : sendBlock io' = (bufGetWriter io.pool io.sendBuf minSize).2.1.bufSz := by
    rw [sendBlock, h.after]
    exact if_pos hal
  rw [hblock, h.stopOff]
  exact ⟨hle, by omega⟩

/-- Where a group of builtin requests starts: nothing has been sent of what is in the
buffer. -/
structure Unsent (io : Io) : Prop where
  start : io.sendBuf.startOff = 0
  fit : AllFit io

theorem Wrote.unsent (h : Wrote io io' minSize out) (hio : Unsent io)
    (hroom : io.sendBuf.stopOff + minSize < writerLimit) : Unsent io' :=
  ⟨h.startOff.trans hio.start, h.allFit hio.fit hroom⟩

/-- The loop of `builtin_commands_callback`. Up to the limit the block `block` bounds
what there is; from there on each request adds a short error. -/
theorem builtinFold_unsent {ptr : CmdPtr} {block : Int}
    (hblock : 4 * maxRequestSize + sizeofMcMetadata + initialBufSize ≤ block) :
    ∀ {reqs : List Bytes} {w : World σ γ} {io : Io} {r : World σ γ × Io} {reach : Int}, Unsent io →
      (io.sendBuf.stopOff < maxRequestSize * 3 → sendBlock io ≤ block) →
      io.sendBuf.stopOff ≤ reach → block ≤ reach →
      reach + shortError * reqs.length + (maxRequestSize + sizeofMcMetadata) < writerLimit →
      foldFrames (fun st f => (builtinCommand api vx cfg ptr st.1 st.2 f).map .yield) (w, io) reqs
        = some r → Unsent r.2 := by
  intro reqs
  induction reqs with
  | nil => intro w io r reach hio _ _ _ _ h; cases h; exact hio
  | cons f rest ih =>
      intro w io r reach hio hfree hreach hle hlimit h
      rw [List.length_cons, shortError] at hlimit
      rw [foldFrames] at h
      cases hs : builtinCommand api vx cfg ptr w io f with
      | none => rw [hs] at h; cases h
      | some st =>
          rw [hs] at h
          obtain ⟨w1, io1⟩ := st
          obtain ⟨out, hwrote, hshort⟩ := builtinCommand_wrote api vx cfg hs
          have hstop := hwrote.stopOff
          have hio1 : Unsent io1 := hwrote.unsent hio (by push_cast at hlimit; omega)
          obtain ⟨hgrown, hheld⟩ := hwrote.block
          have hmax := maxRequestSize_eq
          have hused : bufGetUsed io.sendBuf = io.sendBuf.stopOff := by
            rw [bufGetUsed, hio.start, Int.sub_zero]
          push_cast at hlimit
          rw [hused, shortError] at hshort
          by_cases hbelow : io.sendBuf.stopOff < maxRequestSize * 3
          · have hsmall := hfree hbelow
            have hgrown1 : sendBlock io1 ≤ block := by omega
            exact ih hio1 (fun _ => hgrown1) (by omega) hle (by rw [shortError]; omega) h
          · have hlen := hshort hbelow
            have hlast : ¬ io1.sendBuf.stopOff < maxRequestSize * 3 := by omega
            exact ih hio1 (fun hbelow' => absurd hbelow' hlast) (by omega)
              (show block ≤ reach + 42 by omega) (by rw [shortError]; omega) h

end Builtin

/-! ## A group for a process

A process writes as much as it likes until it has written too much, and no call of it
can write more than the memory of the guest. If it fails, everything since the beginning
of the group is taken back, and each request is answered with a short error instead. -/

section Process

variable {σ γ : Type} {api : StStorageApi σ} {vx : Vx γ} (cfg : Config γ)

/-- What is in front of the unread bytes stays. -/
theorem IoMoves.startOff {io io' : Io} (h : IoMoves io io') :
    io'.sendBuf.startOff = io.sendBuf.startOff := by
  induction h with
  | refl => rfl
  | tail _ hmove ih =>
      rw [← ih]
      cases hmove with
      | recvRoom n => rfl
      | sendRoom n => exact (bufTakeBlock_offsets _ _).1
      | produce bs _ => rfl
      | rollback n => rfl

/-- The one call that writes asks for as much room as the guest says. -/
theorem doSyscall_allFit {pid : Nat} {s s' : Sys σ γ} (hs : doSyscall api vx pid s = some s')
    (hfit : AllFit s.io) (hroom : Writes vx s.guest →
      s.io.sendBuf.stopOff + asInt (vx.reg s.guest .ecx) < writerLimit) : AllFit s'.io := by
  unfold doSyscall at hs
  split at hs
  · cases hs
  · next s1 hs1 =>
      cases hs
      by_cases hnum : vx.reg s.guest .eax = 0xFF03
      · rw [hnum] at hs1
        have hs1 : syscallWriteresponses vx pid { s with next := .continue } = some s1 := hs1
        unfold syscallWriteresponses withProc at hs1
        split at hs1
        · cases hs1
        · simp only [] at hs1
          split at hs1
          · cases hs1; exact hfit
          · next hlen =>
              split at hs1
              · cases hs1; exact hfit
              · next hperm =>
                  have hw : Writes vx s.guest := ⟨hnum, hlen, by simpa using hperm⟩
                  have hnew : ∀ op ∈ (bufGetWriter s.io.pool s.io.sendBuf
                      (asInt (vx.reg s.guest .ecx))).2.1.ops, FittingOp op := by
                    intro op hop
                    rw [ops_bufGetWriter] at hop
                    rcases List.mem_cons.mp hop with rfl | hop
                    · exact hroom hw
                    · exact hfit.2 op hop
                  split at hs1
                  · cases hs1
                  · split at hs1
                    all_goals
                      cases hs1
                      exact ⟨hfit.1, hnew⟩
      · have hio := syscalls_io api vx hnum hs1
        show AllFit s1.io
        rw [hio]
        exact hfit

/-- A process that goes on has sent less than the limit. -/
theorem doSyscall_goesOn {pid : Nat} {s s' : Sys σ γ} (hs : doSyscall api vx pid s = some s')
    (hnext : s'.next = .continue) {pr pr' : Process γ} (hpr : s.world.procs pid = some pr)
    (hpr' : s'.world.procs pid = some pr') (hbelow : pr.sendSz < maxRequestSize * 3) :
    pr'.sendSz < maxRequestSize * 3 := by
  unfold doSyscall at hs
  split at hs
  · cases hs
  · next s1 hs1 =>
      cases hs
      have hpr' : s1.world.procs pid = some pr' := hpr'
      by_cases hnum : vx.reg s.guest .eax = 0xFF03
      · rw [hnum] at hs1
        have hs1 : syscallWriteresponses vx pid { s with next := .continue } = some s1 := hs1
        unfold syscallWriteresponses withProc at hs1
        simp only [hpr] at hs1
        split at hs1
        · cases hs1
          rw [hpr] at hpr'
          cases hpr'
          exact hbelow
        · split at hs1
          · cases hs1
            rw [hpr] at hpr'
            cases hpr'
            exact hbelow
          · split at hs1
            · cases hs1
            · split at hs1
              · cases hs1
                cases hnext
              · next hroom =>
                  cases hs1
                  have hself := (procs_setProc_self _ _ _).symm.trans hpr'
                  cases hself
                  exact Int.not_le.mp hroom
      · have hsend := syscalls_sending api vx hnum hs1
        rw [sending, sending, hpr, hpr', Option.map_some, Option.map_some] at hsend
        have hsz : pr'.sendSz = pr.sendSz := congrArg Prod.snd (Option.some.inj hsend)
        rw [hsz]
        exact hbelow

variable {most : Int}

/-- One call of a process that has not reached its limit. -/
theorem doSyscall_unsent {pid : Nat} {out sent : Bytes} {s s' : Sys σ γ}
    (hmost : ∀ g, Writes vx g → asInt (vx.reg g .ecx) ≤ most)
    (hroom : out.length + maxRequestSize * 3 + most < writerLimit)
    (hsent : Sent pid out sent s.world s.io) (hio : Unsent s.io)
    (hbelow : (sent.length : Int) < maxRequestSize * 3)
    (hs : doSyscall api vx pid s = some s') : Unsent s'.io := by
  refine ⟨(doSyscall_moves api vx hs).startOff.trans hio.start, doSyscall_allFit hs hio.fit ?_⟩
  intro hw
  have hlen := hmost s.guest hw
  have hused := hsent.holds.used
  rw [bufGetUsed, hio.start, Int.sub_zero, List.length_append, Int.natCast_add] at hused
  omega

/-- The loop of `process_run`. -/
theorem processRunLoop_unsent {pid : Nat} {out : Bytes}
    (hmost : ∀ g, Writes vx g → asInt (vx.reg g .ecx) ≤ most)
    (hroom : out.length + maxRequestSize * 3 + most < writerLimit) :
    ∀ (left : Nat) (irqSeen : Bool) {sent : Bytes} {s s' : Sys σ γ},
      Sent pid out sent s.world s.io → Unsent s.io →
      (sent.length : Int) < maxRequestSize * 3 →
      processRunLoop api vx pid left irqSeen s = some s' →
      Unsent s'.io ∧ ∃ sent', Sent pid out sent' s'.world s'.io := by
  intro left
  induction left with
  | zero =>
      intro irqSeen sent s s' hsent hio _ h
      rw [processRunLoop] at h
      split at h
      all_goals
        cases h
        exact ⟨hio, sent, hsent⟩
  | succ left ih =>
      intro irqSeen sent s s' hsent hio hbelow h
      rw [processRunLoop] at h
      split at h
      · next g irqSeen' _ =>
          simp only [] at h
          split at h
          · cases h
          · next s1 hcall =>
              have hsent1 := doSyscall_sent (by exact hsent) hcall
              have hio1 : Unsent s1.io :=
                doSyscall_unsent hmost hroom (by exact hsent) (by exact hio) hbelow hcall
              split at h
              · next hnext =>
                  obtain ⟨pr, hpr, hcount⟩ := hsent.counted
                  obtain ⟨pr1, hpr1, hcount1⟩ := hsent1.counted
                  have hgoes := doSyscall_goesOn hcall hnext hpr hpr1 (by omega)
                  exact ih irqSeen' hsent1 hio1 (by omega) h
              · cases h; exact ⟨hio1, _, hsent1⟩
              · cases h; exact ⟨hio1, _, hsent1⟩
              · unfold withProc at h
                split at h
                · cases h
                · cases h; exact ⟨hio1, _, hsent1⟩
      · cases h; exact ⟨hio, sent, hsent⟩

/-- The loop over the error answers of a group. -/
theorem unknownCommands_unsent {reqs : List Bytes} (hwf : ∀ f ∈ reqs, WellFormed 0x80 f)
    {io io' : Io} (hio : Unsent io)
    (hroom : io.sendBuf.stopOff + shortError * reqs.length + maxRequestSize < writerLimit)
    (h : unknownCommands io reqs.flatten = some io') : Unsent io' := by
  unfold unknownCommands at h
  rw [forRequests_flatten hwf] at h
  clear hwf
  induction reqs generalizing io with
  | nil => cases h; exact hio
  | cons f rest ih =>
      rw [List.length_cons, shortError] at hroom
      push_cast at hroom
      rw [foldFrames] at h
      have hspace := bufGetWriter_room io.pool io.sendBuf maxRequestSize
      cases hout : errorFromReqbuf f (bufGetWriter io.pool io.sendBuf maxRequestSize).2.2
          memcacheStatusUnknownCommand none with
      | none => simp only [hout] at h; cases h
      | some out =>
          have hlen := length_errorFromReqbuf hspace (.inl rfl) hout
          have hheader : (memcacheHeaderSize : Int) ≤ maxRequestSize := by decide
          have hwrote : Wrote io { io with
              pool := (bufGetWriter io.pool io.sendBuf maxRequestSize).1
              sendBuf := bufProduce (bufGetWriter io.pool io.sendBuf maxRequestSize).2.1 out }
              maxRequestSize out :=
            ⟨rfl, length_errorFromReqbuf_le (by omega) hout⟩
          have hstop := hwrote.stopOff
          simp only [hout] at h
          rw [shortError] at hlen
          refine ih (hwrote.unsent hio (by omega)) ?_ h
          rw [hstop, shortError]
          omega

/-- The error exit takes back what the process has sent. -/
theorem processFailed_unsent {pid : Nat} {w w' : World σ γ} {io io' : Io} {out sent : Bytes}
    (hsent : Sent pid out sent w io) (hio : Unsent io) {reqs : List Bytes}
    (hwf : ∀ f ∈ reqs, WellFormed 0x80 f)
    (hroom : out.length + shortError * reqs.length + maxRequestSize < writerLimit)
    (h : processFailed pid w io reqs.flatten = some (w', io')) : Unsent io' := by
  obtain ⟨pr, hpr, hcount⟩ := hsent.counted
  have hused := hsent.holds.used
  have hstop : io.sendBuf.stopOff = out.length + sent.length := by
    rw [bufGetUsed, hio.start, Int.sub_zero, List.length_append, Int.natCast_add] at hused
    exact hused
  unfold processFailed at h
  simp only [hpr] at h
  split at h
  · cases h
  · next io1 hunknown =>
      cases h
      refine unknownCommands_unsent hwf ?_ ?_ hunknown
      · split
        · refine ⟨hio.start, hio.fit.1, fun op hop => ?_⟩
          rcases List.mem_cons.mp hop with rfl | hop
          · refine ⟨by omega, ?_⟩
            rw [hused, List.length_append, Int.natCast_add]
            omega
          · exact hio.fit.2 op hop
        · exact hio
      · split
        · show io.sendBuf.stopOff - pr.sendSz + shortError * reqs.length + maxRequestSize
            < writerLimit
          omega
        · next hzero =>
            have hzero : pr.sendSz = 0 := not_not.mp hzero
            omega

theorem processCommandsCallback_unsent {pid : Nat} {w w' : World σ γ} {io io' : Io} {out : Bytes}
    (hmost : ∀ g, Writes vx g → asInt (vx.reg g .ecx) ≤ most)
    (hout : io.sendBuf.Holds out) (hio : Unsent io) {reqs : List Bytes}
    (hwf : ∀ f ∈ reqs, WellFormed 0x80 f)
    (hguest : out.length + maxRequestSize * 3 + most < writerLimit)
    (herrors : out.length + shortError * reqs.length + maxRequestSize < writerLimit)
    (hclean : ∀ pr, w.procs pid = some pr →
      (reqs.flatten.length : Int) ≤ pr.userBufSz ∨ pr.sendSz = 0)
    (h : processCommandsCallback api vx cfg w io reqs.flatten pid = some (w', io')) :
    Unsent io' := by
  unfold processCommandsCallback at h
  split at h
  · cases h
  · next pr hpr =>
      split at h
      · next hsmall =>
          have hzero : pr.sendSz = 0 := (hclean pr hpr).resolve_left (by omega)
          have hnone : Sent pid out [] w io :=
            ⟨by rwa [List.append_nil], pr, hpr, hzero⟩
          exact processFailed_unsent hnone hio hwf herrors h
      · split at h
        · cases h
        · next g hg =>
            simp only [] at h
            split at h
            · cases h
            · next w1 io1 r hrun =>
                obtain ⟨pr1, g1, s, pr2, -, -, hs, hpr2, rfl, rfl, -⟩ := processRun_loop _ _ hrun
                have hstart : Sent pid out [] (w.setProc pid (some (invoked vx pr g io
                    reqs.flatten))) io :=
                  ⟨by rwa [List.append_nil], _, procs_setProc_self w pid _, rfl⟩
                have hzero : (([] : Bytes).length : Int) < maxRequestSize * 3 := by decide
                obtain ⟨hio1, sent, hsent⟩ := processRunLoop_unsent hmost hguest _ _
                  (by exact hstart) (by exact hio) hzero hs
                have hsent1 : Sent pid out sent (s.world.setProc pid
                    (some { pr2 with machine := some s.guest })) s.io := by
                  obtain ⟨pr3, hpr3, hcount⟩ := hsent.counted
                  rw [hpr2] at hpr3
                  cases hpr3
                  exact ⟨hsent.holds, _, procs_setProc_self s.world pid _, hcount⟩
                split at h
                · exact processFailed_unsent hsent1 hio1 hwf herrors h
                · split at h
                  · cases h
                  · split at h
                    · exact processFailed_unsent hsent1 hio1 hwf herrors h
                    · cases h
                      exact hio1

end Process

/-! ## The groups of a batch

One group after another, from what the one before has left. The table may change on the
way, so whether a group is builtin or a process's is asked when it is served. -/

section Groups

variable {σ γ : Type} (api : StStorageApi σ) (vx : Vx γ) (cfg : Config γ)

/-- The most that can be in `send_buf` below the limit of builtin commands. -/
def builtinReach (io : Io) : Int :=
  max (bufGetUsed io.sendBuf)
    (max (sendBlock io) (4 * maxRequestSize + sizeofMcMetadata + initialBufSize))

/-- A process that finds no room for a group has not sent anything before. -/
def StartsClean (r : GroupRun σ γ) (e : CmdEntry) : Prop :=
  ∀ pid pr, e.ptr = .process pid → r.world.procs pid = some pr →
    (r.group.reqBuf.length : Int) ≤ pr.userBufSz ∨ pr.sendSz = 0

/-- What is waiting in `send_buf` when a group is handed over leaves room for what its
callback can write, with a guest that hands over `most` bytes at once. -/
def GroupFits (most : Int) (r : GroupRun σ γ) : Prop :=
  ∀ e, r.group.entry = some e →
    if e.isProcess then
      bufGetUsed r.io.sendBuf + maxRequestSize * 3 + most < writerLimit ∧
        bufGetUsed r.io.sendBuf + shortError * r.requests.length + maxRequestSize < writerLimit ∧
        StartsClean r e
    else
      builtinReach r.io + shortError * r.requests.length + (maxRequestSize + sizeofMcMetadata)
        < writerLimit

variable {api vx cfg} {most : Int}

theorem runGroup_unsent {d : Dispatch σ γ} {pending : List Bytes} {w' : World σ γ} {io' : Io}
    (hmost : ∀ g, Writes vx g → asInt (vx.reg g .ecx) ≤ most) (hc : Collecting d pending)
    (hwf : ∀ f ∈ pending, WellFormed 0x80 f) (hio : Unsent d.io) (hsized : SizedIo d.io)
    (hfits : ∀ r ∈ flush d pending, GroupFits most r)
    (h : runGroup api vx cfg d.group d.world d.io = some (w', io')) : Unsent io' := by
  have hused : bufGetUsed d.io.sendBuf = d.io.sendBuf.stopOff := by
    rw [bufGetUsed, hio.start, Int.sub_zero]
  have hbuf := hc.handed
  unfold runGroup at h
  split at h
  · cases h; exact hio
  · next hlen =>
      have hne : pending ≠ [] := by
        rintro rfl
        rw [hbuf] at hlen
        exact hlen rfl
      have hgroup : GroupFits most ⟨d.world, d.io, d.group, pending⟩ := by
        refine hfits _ ?_
        rw [flush, if_neg hne]
        exact List.mem_singleton_self _
      split at h
      · cases h
      · next e he =>
          have hroom := hgroup e he
          split at h
          · next hproc =>
              rw [if_pos hproc] at hroom
              obtain ⟨hguest, herrors, hclean⟩ := hroom
              split at h
              · next pid hptr =>
                  have hout := hsized.send.toOk.holds
                  have hwaiting := hout.used
                  rw [hbuf] at h
                  refine processCommandsCallback_unsent cfg hmost hout hio hwf ?_ ?_
                    (fun pr hpr => ?_) h
                  · rw [← hwaiting]
                    exact hguest
                  · rw [← hwaiting]
                    exact herrors
                  · rw [← hbuf]
                    exact hclean pid pr hptr hpr
              · cases h
          · next hbuiltin =>
              rw [if_neg hbuiltin] at hroom
              rw [hbuf, builtinCommandsCallback_flatten api vx cfg e.ptr _ _ hwf] at h
              have hwaiting : d.io.sendBuf.stopOff ≤ builtinReach d.io := by
                rw [← hused]
                exact le_max_left _ _
              exact builtinFold_unsent api vx cfg (le_max_right (sendBlock d.io) _) hio
                (fun _ => le_max_left _ _) hwaiting (le_max_right _ _) hroom h

/-- The grouping loop and the group behind it. -/
theorem groupRuns_unsent (hmost : ∀ g, Writes vx g → asInt (vx.reg g .ecx) ≤ most) :
    ∀ {batch : List Bytes} {d : Dispatch σ γ} {pending : List Bytes} {w' : World σ γ} {io' : Io},
      Collecting d pending → (∀ f ∈ pending, WellFormed 0x80 f) →
      (∀ f ∈ batch, WellFormed 0x80 f) → Unsent d.io → SizedIo d.io →
      (∀ r ∈ groupRuns api vx cfg d pending batch, GroupFits most r) →
      ((dispatchAll api vx cfg d batch).bind fun d' =>
        runGroup api vx cfg d'.group d'.world d'.io) = some (w', io') → Unsent io' := by
  intro batch
  induction batch with
  | nil =>
      intro d pending w' io' hc hpend _ hio hsized hfits h
      exact runGroup_unsent hmost hc hpend hio hsized hfits h
  | cons f rest ih =>
      intro d pending w' io' hc hpend hbatch hio hsized hfits h
      have hf := hbatch f List.mem_cons_self
      have hrest : ∀ g ∈ rest, WellFormed 0x80 g := fun g hg => hbatch g (List.mem_cons_of_mem f hg)
      rw [dispatchAll_cons] at h
      rw [groupRuns] at hfits
      cases hs : dispatchStep api vx cfg d f with
      | none => rw [hs] at h; cases h
      | some d' =>
          rw [hs] at h hfits
          rw [Option.bind_some] at h
          simp only [] at hfits
          split at hfits
          · next hsame =>
              rw [dispatchStep_swallow api vx cfg hsame] at hs
              cases hs
              refine ih (hc.swallow hsame) (fun g hg => ?_) hrest hio hsized hfits h
              rcases List.mem_append.mp hg with hg | hg
              · exact hpend g hg
              · rw [List.mem_singleton.mp hg]
                exact hf
          · next hnew =>
              obtain ⟨hrun, hgroup⟩ := dispatchStep_next api vx cfg hnew hs
              rw [List.forall_mem_append] at hfits
              have hio' := runGroup_unsent hmost hc hpend hio hsized hfits.1 hrun
              have hsized' := (runGroup_moves api vx cfg hrun).sized (fun _ => hsized) hio'.fit
              refine ih (Collecting.next hgroup) (fun g hg => ?_) hrest hio' hsized' hfits.2 h
              rw [List.mem_singleton.mp hg]
              exact hf

theorem processMulti_unsent (hmost : ∀ g, Writes vx g → asInt (vx.reg g .ecx) ≤ most)
    {w w' : World σ γ} {io io' : Io} {n : Int} {batch : List Bytes}
    (hwf : ∀ f ∈ batch, WellFormed 0x80 f) (hio : Unsent io) (hsized : SizedIo io)
    (hmeta : io.recvBuf.stopOff + sizeofMcMetadata < writerLimit)
    (hfits : ∀ r ∈ batchRuns api vx cfg w io batch, GroupFits most r)
    (h : processMulti api vx cfg w io batch.flatten = some (w', io', n)) : Unsent io' := by
  rw [processMulti_flatten api vx cfg hwf] at h
  rw [batchRuns] at hfits
  cases hd : dispatchStart api w io batch.flatten with
  | none => rw [hd] at h; cases h
  | some d =>
      rw [hd, Option.bind_some] at h
      rw [hd] at hfits
      have hstart := dispatchStart_collecting api hd
      unfold dispatchStart at hd
      simp only [] at hd
      split at hd
      · cases hd
      · next store _ =>
          cases hd
          have hmove : IoMove io _ := .recvRoom io sizeofMcMetadata
          have hio' : Unsent { io with
              pool := (bufGetWriter io.pool io.recvBuf sizeofMcMetadata).1
              recvBuf := (bufGetWriter io.pool io.recvBuf sizeofMcMetadata).2.1 } := by
            refine ⟨hio.start, fun op hop => ?_, hio.fit.2⟩
            rw [ops_bufGetWriter] at hop
            rcases List.mem_cons.mp hop with rfl | hop
            · exact hmeta
            · exact hio.fit.1 op hop
          obtain ⟨d', hd', hlast⟩ := Option.bind_eq_some_iff.mp h
          obtain ⟨r, hr, hres⟩ := Option.map_eq_some_iff.mp hlast
          cases hres
          exact groupRuns_unsent hmost hstart (fun _ hf => (List.not_mem_nil hf).elim) hwf hio'
            (hmove.sized hsized hio'.fit) hfits
            (Option.bind_eq_some_iff.mpr ⟨d', hd', hr⟩)

end Groups

/-! ## Runs of a connection

The counters of `Received` go along with the run: what has come since `recv_buf` was
last empty, and what is waiting to be sent. They are kept by the network and not by the
buffers, and `ReachInv` says that the buffers agree with them. -/

/-- A connection, with the bytes received since `recv_buf` was last empty. -/
structure Received (σ γ : Type) where
  conn : Conn (World σ γ)
  received : Nat := 0

/-- What has come off the stream is added, until the buffer is empty. -/
def Received.next {σ γ : Type} (s : Received σ γ) (c' : Conn (World σ γ)) : Received σ γ where
  conn := c'
  received := if bufGetReader c'.io.recvBuf = [] then 0
    else s.received + (s.conn.input.length - c'.input.length)

section Runs

variable {σ γ : Type} (api : StStorageApi σ) (vx : Vx γ) (cfg : Config γ) (most : Int)

/-- What has been received is within reach of the next writer; and so is what waits
to be sent, for every group of a batch that is handed over. -/
def StepFits (s : Received σ γ) : ConnAction → Prop
  | .recv _ => s.received < writerLimit
  | .run => ∀ batch frames, HandsOver s.conn batch → BatchOk batch frames →
      s.received + sizeofMcMetadata < writerLimit ∧
        ∀ r ∈ batchRuns api vx cfg s.conn.world
          { s.conn.io with requests := s.conn.io.requests + 1 } frames, GroupFits most r
  | _ => True

/-- A step that fits, or one of the others. -/
inductive FittingStep : Received σ γ → Received σ γ → Prop
  | own {s : Received σ γ} {c' : Conn (World σ γ)} {a : ConnAction}
      (h : connStep (processMulti api vx cfg) s.conn a = some c')
      (hfits : StepFits api vx cfg most s a) : FittingStep s (s.next c')
  | others (s : Received σ γ) (w : World σ γ) {p : Pool} (hp : GoodPool p) :
      FittingStep s
        { s with conn := { s.conn with world := w, io := { s.conn.io with pool := p } } }

/-- An empty buffer starts at its beginning, and `stop_off` counts what has come. -/
structure RecvCounted (c : Conn (World σ γ)) (received : Nat) : Prop where
  stop : c.io.recvBuf.stopOff = received
  rewound : bufGetReader c.io.recvBuf = [] → c.io.recvBuf.stopOff = 0

/-- Nothing has been sent of the output, unless the connection is about to send, or
waits for it, or is closed. -/
def Drained (c : Conn (World σ γ)) : Prop :=
  c.io.sendBuf.startOff = 0 ∨
    (bufGetReader c.io.sendBuf ≠ [] ∧
      (c.pc = .connSend ∨ c.pc = .eventLoop ∧ c.mode = .onlyWrite)) ∨
    c.pc = .closed

/-- The invariant: everything has fitted so far, and the buffers hold what the counters
say. -/
structure ReachInv (s : Received σ γ) : Prop where
  range : RangeInv s.conn
  gathered : ∃ pend more, Gathered s.conn pend more
  fit : AllFit s.conn.io
  recv : RecvCounted s.conn s.received
  drained : Drained s.conn

variable {api vx cfg most} {s : Received σ γ} {c c' : Conn (World σ γ)} {received : Nat}

theorem RecvCounted.of_eq (h : RecvCounted s.conn s.received)
    (hstop : c'.io.recvBuf.stopOff = s.conn.io.recvBuf.stopOff)
    (hreader : bufGetReader c'.io.recvBuf = bufGetReader s.conn.io.recvBuf)
    (hinput : c'.input = s.conn.input) : RecvCounted c' (s.next c').received := by
  have hrewound : bufGetReader c'.io.recvBuf = [] → c'.io.recvBuf.stopOff = 0 := by
    intro hnil
    rw [hreader] at hnil
    rw [hstop]
    exact h.rewound hnil
  refine ⟨?_, hrewound⟩
  show c'.io.recvBuf.stopOff = ((if _ then _ else _ : Nat) : Int)
  split
  · next hnil => exact hrewound hnil
  · rw [hstop, hinput, h.stop, Nat.sub_self, Nat.add_zero]

/-- The one writer of `retry_recv` is at what has been received. -/
theorem allFit_recvRoom (hfit : AllFit c.io) (hroom : c.io.recvBuf.stopOff < writerLimit)
    (p : Pool) (bs : Bytes) : AllFit { c.io with
      pool := p
      recvBuf := bufProduce (bufGetWriter c.io.pool c.io.recvBuf 0).2.1 bs } := by
  refine ⟨fun op hop => ?_, hfit.2⟩
  have hop : op ∈ (bufGetWriter c.io.pool c.io.recvBuf 0).2.1.ops := hop
  rw [ops_bufGetWriter] at hop
  rcases List.mem_cons.mp hop with rfl | hop
  · show c.io.recvBuf.stopOff + 0 < writerLimit
    omega
  · exact hfit.1 op hop

theorem ReachInv.step_recv (h : ReachInv s) (hpc : s.conn.pc = .retryRecv) {r : RecvResult}
    (hfits : s.received < writerLimit) (hs : connRetryRecv s.conn r = some c') :
    AllFit c'.io ∧ RecvCounted c' (s.next c').received ∧ Drained c' := by
  have hroom : s.conn.io.recvBuf.stopOff < writerLimit := by
    rw [h.recv.stop]
    exact hfits
  have hstart : s.conn.io.sendBuf.startOff = 0 := by
    rcases h.drained with hzero | ⟨-, hsend | ⟨hloop, -⟩⟩ | hclosed
    · exact hzero
    · rw [hpc] at hsend; cases hsend
    · rw [hpc] at hloop; cases hloop
    · rw [hpc] at hclosed; cases hclosed
  have hsame := bufGetReader_writer s.conn.io.pool s.conn.io.recvBuf 0
  have hstop : (bufGetWriter s.conn.io.pool s.conn.io.recvBuf 0).2.1.stopOff
      = s.conn.io.recvBuf.stopOff := (bufTakeBlock_offsets _ _).2.1
  unfold connRetryRecv at hs
  cases r with
  | got n =>
      simp only [] at hs
      split at hs
      · next hn =>
          cases hs
          refine ⟨allFit_recvRoom h.fit hroom _ _, ?_, .inl hstart⟩
          obtain ⟨pend, more, hg⟩ := h.gathered
          have hheld := bufProduce_holds (bufGetWriter_holds hg.held s.conn.io.pool 0)
            (s.conn.input.take n)
          have htaken : (s.conn.input.take n).length = n := by
            rw [List.length_take]
            omega
          have hsome : bufGetReader (bufProduce (bufGetWriter s.conn.io.pool
              s.conn.io.recvBuf 0).2.1 (s.conn.input.take n)) ≠ [] := by
            rw [hheld.reader]
            intro hnil
            have hlen := congrArg List.length hnil
            rw [List.length_append, htaken, List.length_nil] at hlen
            omega
          refine ⟨?_, fun hnil => absurd hnil hsome⟩
          show (bufGetWriter s.conn.io.pool s.conn.io.recvBuf 0).2.1.stopOff
            + ((s.conn.input.take n).length : Nat) = ((if _ then _ else _ : Nat) : Int)
          rw [if_neg hsome, htaken, hstop, h.recv.stop]
          show (s.received : Int) + n
            = ((s.received + (s.conn.input.length - (s.conn.input.drop n).length) : Nat) : Int)
          rw [List.length_drop]
          omega
      · cases hs
  | again =>
      cases hs
      refine ⟨allFit_recvRoom h.fit hroom _ _, ?_, .inl hstart⟩
      refine h.recv.of_eq ?_ ?_ rfl
      · show (bufGetWriter s.conn.io.pool s.conn.io.recvBuf 0).2.1.stopOff + (0 : Nat) = _
        rw [hstop]
        exact Int.add_zero _
      · rw [bufProduce, List.append_nil]
        exact hsame
  | eof =>
      cases hs
      have hfit := allFit_recvRoom h.fit hroom
        (bufGetWriter s.conn.io.pool s.conn.io.recvBuf 0).1 []
      exact ⟨hfit, h.recv.of_eq hstop hsame rfl, .inl hstart⟩
  | error =>
      cases hs
      have hfit := allFit_recvRoom h.fit hroom
        (bufGetWriter s.conn.io.pool s.conn.io.recvBuf 0).1 []
      exact ⟨hfit, h.recv.of_eq hstop hsame rfl, .inl hstart⟩

theorem IoMoves.recvStop {io io' : Io} (h : IoMoves io io') :
    io'.recvBuf.stopOff = io.recvBuf.stopOff := by
  induction h with
  | refl => rfl
  | tail _ hmove ih =>
      rw [← ih]
      cases hmove with
      | recvRoom n => exact (bufTakeBlock_offsets _ _).2.1
      | sendRoom n => rfl
      | produce bs _ => rfl
      | rollback n => rfl

/-- A batch is consumed: either nothing is left, or `stop_off` stays. -/
theorem recvCounted_consume {p : Pool} {b : Buffer} {n : Int} (hok : (bufConsume p b n).2.Ok)
    (hstop : b.stopOff = received) :
    (bufConsume p b n).2.stopOff
        = ((if bufGetReader (bufConsume p b n).2 = [] then 0 else received : Nat) : Int) ∧
      (bufGetReader (bufConsume p b n).2 = [] → (bufConsume p b n).2.stopOff = 0) := by
  have hused := hok.holds.used
  have hle := hok.start_le_stop
  rw [bufConsume] at hused hle ⊢
  split at hused
  · next hempty =>
      rw [if_pos hempty]
      exact ⟨rfl, fun _ => rfl⟩
  · next hleft =>
      rw [if_neg hleft] at hle ⊢
      have hsome : bufGetReader { b with startOff := b.startOff + n } ≠ [] := by
        intro hnil
        rw [hnil, List.length_nil, bufGetUsed] at hused
        have hleft : ¬ b.startOff + n = b.stopOff := hleft
        have hused : b.stopOff - (b.startOff + n) = (0 : Nat) := hused
        omega
      rw [if_neg hsome]
      exact ⟨hstop, fun hnil => absurd hnil hsome⟩

theorem ReachInv.start (h : ReachInv s) (hsend : s.conn.pc ≠ .connSend)
    (hloop : s.conn.pc ≠ .eventLoop) (hclosed : s.conn.pc ≠ .closed) :
    s.conn.io.sendBuf.startOff = 0 := by
  rcases h.drained with hzero | ⟨-, hpc | ⟨hpc, -⟩⟩ | hpc
  · exact hzero
  · exact absurd hpc hsend
  · exact absurd hpc hloop
  · exact absurd hpc hclosed

theorem ReachInv.step_swallow (h : ReachInv s)
    (hmost : ∀ g, Writes vx g → asInt (vx.reg g .ecx) ≤ most) {written : Bool}
    (hpc : s.conn.pc = .swallowNextRequest written) (hfits : StepFits api vx cfg most s .run)
    (hs : connSwallow (processMulti api vx cfg) s.conn written = some c')
    (hok : c'.io.recvBuf.Ok) :
    AllFit c'.io ∧ RecvCounted c' (s.next c').received ∧ Drained c' := by
  have hstart := h.start (by rw [hpc]; exact nofun) (by rw [hpc]; exact nofun)
    (by rw [hpc]; exact nofun)
  unfold connSwallow at hs
  simp only [] at hs
  split at hs
  · cases hs; exact ⟨h.fit, h.recv.of_eq rfl rfl rfl, .inl hstart⟩
  · next hsane =>
      split at hs
      · cases hs; exact ⟨h.fit, h.recv.of_eq rfl rfl rfl, .inl hstart⟩
      · next hmore =>
          split at hs
          · cases hs; exact ⟨h.fit, h.recv.of_eq rfl rfl rfl, .inl hstart⟩
          · next hloud =>
              obtain ⟨hpos, -⟩ := reqbufGetSaneRequestSz_take hsane hmore
              obtain ⟨pend, more, hg⟩ := h.gathered
              have hover : HandsOver s.conn _ := ⟨⟨written, hpc⟩, hpos, hloud, rfl⟩
              obtain ⟨frames, hbatch⟩ := hg.batchOk hover
              obtain ⟨hmeta, hgroups⟩ := hfits _ frames hover hbatch
              have hsized := h.range.sized h.fit
              have hsized' : SizedIo { s.conn.io with requests := s.conn.io.requests + 1 } :=
                ⟨hsized.pool, hsized.recv, hsized.send⟩
              unfold connProcess at hs
              simp only [] at hs
              split at hs
              · cases hs
              · next w io consumed hmulti =>
                  rw [hbatch.flatten] at hmulti
                  have hbefore : Unsent { s.conn.io with requests := s.conn.io.requests + 1 } :=
                    ⟨hstart, h.fit⟩
                  rw [← h.recv.stop] at hmeta
                  have hunsent : Unsent io :=
                    processMulti_unsent hmost hbatch.wf hbefore hsized' hmeta hgroups hmulti
                  have hstop := (processMulti_moves api vx cfg hmulti).1.recvStop
                  cases hs
                  have hcount := recvCounted_consume hok (hstop.trans h.recv.stop)
                  refine ⟨⟨fun op hop => hunsent.fit.1 op ?_, hunsent.fit.2⟩, ⟨?_, hcount.2⟩,
                    .inl hunsent.start⟩
                  · have hops := bufGetReader_bufConsume_ops io.pool io.recvBuf consumed
                    rw [← hops]
                    exact hop
                  · show _ = ((if _ then _ else s.received + (s.conn.input.length
                      - s.conn.input.length) : Nat) : Int)
                    rw [Nat.sub_self, Nat.add_zero]
                    exact hcount.1

theorem drained_afterSend (hleft : bufGetReader c.io.sendBuf ≠ []) :
    Drained (connAfterSend c false) :=
  .inr (.inl ⟨hleft, .inr ⟨rfl, rfl⟩⟩)

theorem drained_allSent (hstart : c.io.sendBuf.startOff = 0) (b : Bool) :
    Drained (connAfterSend c b) := by
  refine .inl ?_
  cases b with
  | true => exact hstart
  | false => exact hstart

theorem connAfterSend_io (b : Bool) :
    (connAfterSend c b).io = c.io ∧ (connAfterSend c b).input = c.input := by
  cases b with
  | true => exact ⟨rfl, rfl⟩
  | false => exact ⟨rfl, rfl⟩

theorem ReachInv.step_send (h : ReachInv s) {r : SendResult}
    (hs : connSend s.conn r = some c') :
    AllFit c'.io ∧ RecvCounted c' (s.next c').received ∧ Drained c' := by
  unfold connSend at hs
  simp only [] at hs
  split at hs
  · cases hs
  · next hlen =>
      have hsome : bufGetReader s.conn.io.sendBuf ≠ [] := fun hnil => hlen (by rw [hnil]; rfl)
      cases r with
      | sent n =>
          simp only [] at hs
          split at hs
          · next hn =>
              have hholds := (h.range.sized h.fit).send.toOk.holds
              have hops := bufGetReader_bufConsume_ops s.conn.io.pool s.conn.io.sendBuf n
              have hfit : AllFit { s.conn.io with
                  pool := (bufConsume s.conn.io.pool s.conn.io.sendBuf n).1
                  sendBuf := (bufConsume s.conn.io.pool s.conn.io.sendBuf n).2 } :=
                ⟨h.fit.1, fun op hop => h.fit.2 op (by rw [← hops]; exact hop)⟩
              cases hs
              refine ⟨?_, ?_, ?_⟩
              · rw [(connAfterSend_io _).1]
                exact hfit
              · refine h.recv.of_eq ?_ ?_ (connAfterSend_io _).2
                · rw [(connAfterSend_io _).1]
                · rw [(connAfterSend_io _).1]
              · by_cases hall : (bufGetReader s.conn.io.sendBuf).length = n
                · -- the offsets have met
                  refine drained_allSent ?_ _
                  have hused := hholds.used
                  rw [bufGetUsed, hall] at hused
                  show (bufConsume s.conn.io.pool s.conn.io.sendBuf n).2.startOff = 0
                  have hmet : s.conn.io.sendBuf.startOff + (n : Int)
                      = s.conn.io.sendBuf.stopOff := by
                    omega
                  rw [bufConsume]
                  simp only [if_pos hmet]
                  rfl
                · rw [decide_eq_false hall]
                  refine drained_afterSend ?_
                  rw [← List.take_append_drop n (bufGetReader s.conn.io.sendBuf)] at hholds
                  have hrest := bufConsume_holds (p := s.conn.io.pool) (n := n) hholds
                    (by rw [List.length_take]; omega)
                  show bufGetReader (bufConsume s.conn.io.pool s.conn.io.sendBuf n).2 ≠ []
                  rw [hrest.reader]
                  intro hnil
                  have hzero := congrArg List.length hnil
                  rw [List.length_drop, List.length_nil] at hzero
                  omega
          · cases hs
      | again =>
          cases hs
          exact ⟨h.fit, h.recv.of_eq rfl rfl rfl, drained_afterSend hsome⟩
      | error =>
          cases hs
          exact ⟨h.fit, h.recv.of_eq rfl rfl rfl, .inr (.inr rfl)⟩

theorem ReachInv.step (hmost : ∀ g, Writes vx g → asInt (vx.reg g .ecx) ≤ most) {t : Received σ γ}
    (h : ReachInv s) (hstep : FittingStep api vx cfg most s t) : ReachInv t := by
  obtain ⟨pend, more, hg⟩ := h.gathered
  cases hstep with
  | others w hp =>
      exact ⟨h.range.step api vx cfg (.others s.conn w hp), ⟨pend, more, hg.of_eq rfl rfl rfl⟩,
        h.fit, ⟨h.recv.stop, h.recv.rewound⟩, h.drained⟩
  | @own c' a hs hfits =>
      have hrange := h.range.step api vx cfg (.own hs)
      have hgathered := hg.step (serverHandler api vx cfg) (.own hs)
      have hrest : AllFit c'.io ∧ RecvCounted c' (s.next c').received ∧ Drained c' := by
        rcases connStep_cases _ hs with ⟨hpc, rfl, rfl⟩ | ⟨r, hpc, rfl, hrecv⟩ |
          ⟨written, hpc, rfl, hswallow⟩ | ⟨r, -, rfl, hsend⟩ | ⟨hpc, rfl, hempty, rfl⟩
        · refine ⟨h.fit, h.recv.of_eq rfl rfl rfl, ?_⟩
          rcases h.drained with hzero | ⟨hsome, hsend | ⟨-, hmode⟩⟩ | hclosed
          · exact .inl hzero
          · rw [hpc] at hsend; cases hsend
          · refine .inr (.inl ⟨hsome, .inl ?_⟩)
            simp only [hmode]
          · rw [hpc] at hclosed; cases hclosed
        · exact h.step_recv hpc hfits hrecv
        · obtain ⟨pend', more', hg'⟩ := hgathered
          exact h.step_swallow hmost hpc hfits hswallow hg'.held.toOk
        · exact h.step_send hsend
        · refine ⟨h.fit, h.recv.of_eq rfl rfl rfl, drained_allSent ?_ true⟩
          rcases h.drained with hzero | ⟨hsome, -⟩ | hclosed
          · exact hzero
          · exact absurd (List.eq_nil_of_length_eq_zero hempty) hsome
          · rw [hpc] at hclosed; cases hclosed
      exact ⟨hrange, hgathered, hrest.1, hrest.2.1, hrest.2.2⟩

/-- In every run whose steps fit, the offsets, the sizes and the blocks in the pool are
`int`s and in order, and so they were whenever a block grew. -/
theorem connection_range (api : StStorageApi σ) (vx : Vx γ) (cfg : Config γ) {most : Int}
    (hmost : ∀ g, Writes vx g → asInt (vx.reg g .ecx) ≤ most) (w : World σ γ) (conn : Nat)
    {pool : Pool} (hpool : GoodPool pool) (stream : Bytes)
    (hrun : ReflTransGen (FittingStep api vx cfg most) { conn := connNew w conn pool stream } s) :
    InRange s.conn.io.recvBuf ∧ InRange s.conn.io.sendBuf ∧
      (∀ sz ∈ s.conn.io.pool, sz ≤ intMax) ∧ AllFit s.conn.io := by
  have hstart : ReachInv ({ conn := connNew w conn pool stream } : Received σ γ) :=
    ⟨rangeInv_connNew w conn hpool stream, ⟨[], [], gathered_connNew w conn pool stream⟩,
      ⟨nofun, nofun⟩, ⟨rfl, fun _ => rfl⟩, .inl rfl⟩
  have hinv : ReachInv s := run_invariant (fun _ _ h hstep => h.step hmost hstep) hstart hrun
  obtain ⟨hrecv, hsend, hblocks⟩ := hinv.range.inRange hinv.fit
  exact ⟨hrecv, hsend, hblocks, hinv.fit⟩

end Runs

/-- A NOOP that is received and answered. -/
theorem connection_range_noop :
    ∃ s, ReflTransGen (FittingStep mapEngine.toStStorageApi idleVx plainConfig 0)
        { conn := connNew freshWorld 0 [] noop } s ∧
      (bufGetReader s.conn.io.sendBuf).length = 24 ∧
      InRange s.conn.io.recvBuf ∧ InRange s.conn.io.sendBuf := by
  have hmost : ∀ g, Writes idleVx g → asInt (idleVx.reg g .ecx) ≤ 0 := by
    intro g hw
    exact absurd hw.1 (show ¬ (0 : Nat) = 0xFF03 by decide)
  have hrecv := receivedConn_recv (processMulti mapEngine.toStStorageApi idleVx plainConfig)
    freshWorld [] noop_wellFormed.1 (by decide)
  have hserve : (connStep (processMulti mapEngine.toStStorageApi idleVx plainConfig)
      (receivedConn freshWorld noop []) .run).map (fun c => (bufGetReader c.io.sendBuf).length)
        = some 24 := by decide +kernel
  obtain ⟨c, hrun, hlen⟩ := Option.map_eq_some_iff.mp hserve
  have hgroups : (batchRuns mapEngine.toStStorageApi idleVx plainConfig freshWorld
      { (receivedConn freshWorld noop []).io with requests := 1 } [noop]).map (fun r =>
        (r.group.entry, builtinReach r.io, r.requests.length))
      = [(some (cmdPointersInit memcacheCmdNoop), 21105392, 1)] := by decide +kernel
  have hfits : StepFits mapEngine.toStStorageApi idleVx plainConfig 0
      { conn := receivedConn freshWorld noop [], received := 24 } .run := by
    intro batch frames hover hbatch
    have hnoop : batch = noop := by
      rw [hover.batch]
      decide
    have hflat : [noop].flatten ++ [] = frames.flatten := by
      rw [← hbatch.flatten, hnoop]
      rfl
    obtain ⟨hs, hframes, hnil⟩ := (wireFraming 0x80).prefix_of_flatten
      (show ∀ f ∈ [noop], WellFormed 0x80 f from fun f hf =>
          List.mem_singleton.mp hf ▸ noop_wellFormed) hbatch.wf hflat
    have hlast : hs = [] := by
      cases hs with
      | nil => rfl
      | cons f rest =>
          have hf := hbatch.wf f (hframes ▸ List.mem_append_right _ List.mem_cons_self)
          rw [List.flatten_cons] at hnil
          exact absurd (List.append_eq_nil_iff.mp hnil.symm).1 hf.1
    rw [hlast] at hframes
    refine ⟨by decide, fun r hr e he => ?_⟩
    rw [hframes] at hr
    have hmem := List.mem_map_of_mem
      (f := fun r : GroupRun _ _ => (r.group.entry, builtinReach r.io, r.requests.length)) hr
    have hview := List.mem_singleton.mp (hgroups ▸ hmem)
    simp only [Prod.mk.injEq] at hview
    obtain ⟨hentry, hreach, hcount⟩ := hview
    rw [he] at hentry
    cases hentry
    rw [if_neg (by decide), hreach, hcount]
    decide
  have hsteps := ((ReflTransGen.single (FittingStep.own (a := .event)
    (s := { conn := connNew freshWorld 0 [] noop }) rfl trivial)).tail
      (.own hrecv (show ((0 : Nat) : Int) < writerLimit by decide))).tail (.own hrun hfits)
  have hpool : GoodPool [] := fun _ hsz => absurd hsz List.not_mem_nil
  obtain ⟨hrange, hrange', -⟩ := connection_range mapEngine.toStStorageApi idleVx plainConfig hmost
    freshWorld 0 hpool noop hsteps
  exact ⟨_, hsteps, hlen, hrange, hrange'⟩

end Smalltable.Proofs
