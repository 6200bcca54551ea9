import Smalltable.Proofs.IoMoves
import Smalltable.Proofs.Lifecycle

/-!
# What a process answers

A process answers through `st_write_responses`, which copies its bytes to the
buffer `process->send_buf`. The field is set when a group of requests is handed
to the process, so in a run that serves one it is the buffer of the connection
the group came from. In the first run, which CODE_LOAD starts, it is still
unset, and nothing keeps the process from making the call.

Of the answers `process_commands_callback` only asks that there are some. What
the process has written in its calls, from the one that wakes it to the one in
which it waits again, is what the client gets (`Serves.sends`), in pieces cut as
the process likes. The reader at the other end, `do_read` of the proxy, counts
frames in what has arrived so far. So it stays in step exactly when a reader
that looks after each call counts one answer for each request and nothing is
left over (`groupFraming_iff`).
-/

namespace Smalltable.Proofs

open Smalltable.Ref

section SendBuf

variable {σ γ : Type} {api : StStorageApi σ} {vx : Vx γ}

/-- No system call changes where the answers of the process go. -/
theorem SysEffect.sendBuf {pid : Nat} {g : γ} {w w' : World σ γ} (he : SysEffect vx pid g w w')
    {pr' : Process γ} (hpr' : w'.procs pid = some pr') :
    ∃ pr, w.procs pid = some pr ∧ pr'.sendBuf = pr.sendBuf := by
  cases he with
  | same hsame =>
      rw [hsame.2.1] at hpr'
      exact ⟨pr', hpr', rfl⟩
  | touch hpr hkeeps =>
      rw [procs_setProc_self] at hpr'
      cases hpr'
      exact ⟨_, hpr, hkeeps.sendBuf⟩
  | @take w1 pr flags _ _ _ _ hdrop hpr =>
      have hself : some { pr with registercnt := pr.registercnt + 1 } = some pr' :=
        (procs_setProc_self w1 pid _).symm.trans hpr'
      cases hself
      rw [dropLooser_self hdrop] at hpr
      exact ⟨pr, hpr, rfl⟩
  | @give pr cmd _ _ hpr =>
      have hself : some { pr with registercnt := pr.registercnt - 1 } = some pr' :=
        (procs_setProc_self w pid _).symm.trans hpr'
      cases hself
      exact ⟨pr, hpr, rfl⟩

variable (vx) in
/-- The guest calls `st_write_responses` with arguments that pass its tests. -/
def Writes (g : γ) : Prop :=
  vx.reg g .eax = 0xFF03 ∧ ¬ asInt (vx.reg g .ecx) < 1 ∧
    vx.checkperm g (vx.reg g .edx) (vx.reg g .ecx) .read = true

instance (g : γ) : Decidable (Writes vx g) := inferInstanceAs (Decidable (_ ∧ _ ∧ _))

variable (vx) in
/-- The bytes the call hands over. -/
def response (g : γ) : Bytes :=
  if Writes vx g then vx.read g (vx.reg g .edx) (asInt (vx.reg g .ecx)).toNat else []

/-- What a system call sends, and to whom. -/
theorem doSyscall_io {pid : Nat} {s s' : Sys σ γ} (hs : doSyscall api vx pid s = some s') :
    s'.io.conn = s.io.conn ∧
      ∀ out, s.io.sendBuf.Holds out → s'.io.sendBuf.Holds (out ++ response vx s.guest) := by
  unfold doSyscall at hs
  split at hs
  · cases hs
  · next s1 hs1 =>
      cases hs
      by_cases hnum : vx.reg s.guest .eax = 0xFF03
      · rw [hnum] at hs1
        have hs1 : syscallWriteresponses vx pid { s with next := .continue } = some s1 := hs1
        unfold syscallWriteresponses withProc at hs1
        split at hs1
        · cases hs1
        · simp only [] at hs1
          split at hs1
          · next hlen =>
              cases hs1
              refine ⟨rfl, fun out hout => ?_⟩
              rw [response, if_neg fun hw => hw.2.1 hlen, List.append_nil]
              exact hout
          · next hlen =>
              split at hs1
              · next hperm =>
                  cases hs1
                  have hno : ¬ Writes vx s.guest := by
                    rintro ⟨-, -, hread⟩
                    simp [hread] at hperm
                  refine ⟨rfl, fun out hout => ?_⟩
                  rw [response, if_neg hno, List.append_nil]
                  exact hout
              · next hperm =>
                  have hw : Writes vx s.guest := ⟨hnum, hlen, by simpa using hperm⟩
                  split at hs1
                  · cases hs1
                  · split at hs1
                    all_goals
                      cases hs1
                      refine ⟨rfl, fun out hout => ?_⟩
                      rw [response, if_pos hw]
                      exact bufProduce_holds (bufGetWriter_holds hout _ _) _
      · have hio : s1.io = ({ s with next := .continue } : Sys σ γ).io :=
          syscalls_io api vx hnum hs1
        refine ⟨congrArg Io.conn hio, fun out hout => ?_⟩
        rw [response, if_neg fun hw => hnum hw.1, List.append_nil]
        show s1.io.sendBuf.Holds out
        rw [hio]
        exact hout

/-- `send_sz` goes up by what the call sends. -/
theorem doSyscall_sendSz {pid : Nat} {s s' : Sys σ γ} (hs : doSyscall api vx pid s = some s')
    {pr : Process γ} (hpr : s.world.procs pid = some pr) :
    ∃ pr', s'.world.procs pid = some pr' ∧
      pr'.sendSz = pr.sendSz + (response vx s.guest).length := by
  unfold doSyscall at hs
  split at hs
  · cases hs
  · next s1 hs1 =>
      cases hs
      by_cases hnum : vx.reg s.guest .eax = 0xFF03
      · rw [hnum] at hs1
        have hs1 : syscallWriteresponses vx pid { s with next := .continue } = some s1 := hs1
        unfold syscallWriteresponses withProc at hs1
        simp only [hpr] at hs1
        split at hs1
        · next hlen =>
            cases hs1
            refine ⟨pr, hpr, ?_⟩
            rw [response, if_neg fun hw => hw.2.1 hlen]
            simp
        · next hlen =>
            split at hs1
            · next hperm =>
                cases hs1
                have hno : ¬ Writes vx s.guest := by
                  rintro ⟨-, -, hread⟩
                  simp [hread] at hperm
                refine ⟨pr, hpr, ?_⟩
                rw [response, if_neg hno]
                simp
            · next hperm =>
                have hw : Writes vx s.guest := ⟨hnum, hlen, by simpa using hperm⟩
                have hsz : ((response vx s.guest).length : Int)
                    = asInt (vx.reg s.guest .ecx) := by
                  rw [response, if_pos hw, vx.length_read]
                  omega
                split at hs1
                · cases hs1
                · split at hs1
                  all_goals
                    cases hs1
                    exact ⟨_, procs_setProc_self s.world pid _, by rw [hsz]⟩
      · have hsend := syscalls_sending api vx hnum hs1
        rw [sending, sending, hpr] at hsend
        obtain ⟨pr', hpr', heq⟩ := Option.map_eq_some_iff.mp hsend
        have hsz : pr'.sendSz = pr.sendSz := congrArg Prod.snd heq
        refine ⟨pr', hpr', ?_⟩
        rw [response, if_neg fun hw => hnum hw.1, hsz]
        simp

/-- `send_buf` of the running process. -/
def SendsRight (l : Life σ γ) : Prop :=
  ∀ a ∈ l.active, ∀ pr, l.world.procs a.pid = some pr →
    pr.sendBuf = if a.serving then some a.io.conn else none

theorem LifeMove.sendsRight {l l' : Life σ γ} {e : LifeEvent σ γ} (hmove : LifeMove api vx l e l')
    (hlife : LifeInv l) (h : SendsRight l) : SendsRight l' := by
  cases hmove with
  | @born io key g _ _ =>
      intro a ha pr hpr
      cases ha
      have hself : some { key := key, machine := some g } = some pr :=
        (procs_setProc_self _ _ _).symm.trans hpr
      cases hself
      rfl
  | @woken io pid reqBuf pr0 g _ _ _ _ =>
      intro a ha pr hpr
      cases ha
      have hself := (procs_setProc_self _ _ _).symm.trans hpr
      cases hself
      rfl
  | @called a g s hactive hcall _ =>
      intro a' ha pr hpr
      cases ha
      have hrun : World.Running l.world a.pid := ⟨hlife.inv, hlife.active a hactive⟩
      obtain ⟨pr0, hpr0, heq⟩ := (doSyscall_effect api vx hrun hcall).sendBuf hpr
      rw [heq, h a hactive pr0 hpr0, (doSyscall_io hcall).1]
  | stillborn _ _ => intro a ha; cases ha
  | unloaded _ _ => intro a ha; cases ha
  | overrun _ _ _ => intro a ha; cases ha
  | rested _ _ _ _ _ => intro a ha; cases ha
  | ended _ _ _ => intro a ha; cases ha
  | killed _ => intro a ha; cases ha
  | data hidle =>
      intro a ha
      have ha : l.active = some a := ha
      rw [hidle] at ha
      cases ha

theorem lifeStep_sendsRight {l l' : Life σ γ} {e : LifeEvent σ γ}
    (h : LifeInv l ∧ SendsRight l) (hstep : lifeStep api vx l e = some l') :
    LifeInv l' ∧ SendsRight l' :=
  have hmove := lifeStep_move api vx hstep
  ⟨hmove.inv h.1, hmove.sendsRight h.1 h.2⟩

variable (vx)

/-- Whenever `syscall_writeresponses` reaches `buf_get_writer`, the process serves
a group and `send_buf` is the buffer of its connection. -/
def WritesToItsGroup (l : Life σ γ) : LifeEvent σ γ → Prop
  | .syscall g => Writes vx g → ∀ a ∈ l.active,
      a.serving = true ∧ ∃ pr, l.world.procs a.pid = some pr ∧ pr.sendBuf = some a.io.conn
  | _ => True

/-- The process does not answer before it was asked. -/
def WritesWhenServing (l : Life σ γ) : LifeEvent σ γ → Prop
  | .syscall g => Writes vx g → ∀ a ∈ l.active, a.serving = true
  | _ => True

theorem writesToItsGroup_iff {l : Life σ γ} (h : LifeInv l ∧ SendsRight l) (e : LifeEvent σ γ) :
    WritesToItsGroup vx l e ↔ WritesWhenServing vx l e := by
  cases e with
  | syscall g =>
      refine ⟨fun hw hg a ha => (hw hg a ha).1, fun hw hg a ha => ⟨hw hg a ha, ?_⟩⟩
      obtain ⟨pr, hpr⟩ := Option.ne_none_iff_exists'.mp (h.1.active a ha)
      have hsend := h.2 a ha pr hpr
      rw [hw hg a ha, if_pos rfl] at hsend
      exact ⟨pr, hpr, hsend⟩
  | codeLoad io key elf => exact Iff.rfl
  | codeUnload key => exact Iff.rfl
  | callback io pid reqBuf => exact Iff.rfl
  | killed => exact Iff.rfl
  | data store n => exact Iff.rfl

/-- In a run, every answer goes to the connection that asked exactly when none
is given in a first run. -/
theorem responses_served_iff (api : StStorageApi σ) (store : σ) (es : List (LifeEvent σ γ)) :
    AllSteps (lifeStep api vx) (WritesToItsGroup vx) (lifeStart store) es ↔
      AllSteps (lifeStep api vx) (WritesWhenServing vx) (lifeStart store) es := by
  have hstart : SendsRight (lifeStart store : Life σ γ) :=
    fun a ha => absurd ha (Option.not_mem_none a)
  exact allSteps_congr (fun _ _ _ => lifeStep_sendsRight) (fun _ e h => writesToItsGroup_iff vx h e)
    ⟨lifeInv_start store, hstart⟩

end SendBuf

/-- A program answers as soon as it is loaded. -/
def answersEarly : List (LifeEvent Unit (Reg → Nat)) :=
  [.codeLoad {} (ascii "p") (some fun _ => 0), .syscall (callWith 0xFF03 0 1)]

theorem responses_unasked :
    ¬ AllSteps (lifeStep emptyEngine registersVx) (WritesToItsGroup registersVx) (lifeStart ())
      answersEarly := by
  intro h
  obtain ⟨-, h⟩ := h
  have hservice := (h _ rfl).1 (by decide) _ rfl
  exact Bool.noConfusion hservice.1

/-! ## The framing of the answers

The calls of the process between two waits are a list, each with the bytes it writes.
The bytes reach `send_buf` in this order; so whether the frames in them are whole after
each call can be asked of the calls (`AnswersWhole`). -/

section Framing

variable {σ γ : Type} (api : StStorageApi σ) (vx : Vx γ) (cfg : Config γ)

/-- What a process hands over in its calls. -/
def responses (gs : List γ) : List Bytes := gs.map (response vx)

/-- A group of requests wakes the process, which makes the calls `gs` up to the next
`st_read_requests` that lets it wait, and is alive then. -/
def Serves (w : World σ γ) (io : Io) (pid : Nat) (reqBuf : Bytes) (gs : List γ) (w' : World σ γ)
    (io' : Io) : Prop :=
  (∃ l, lifeStep api vx { world := w } (.callback io pid reqBuf) = some l ∧
    CallsUntil api vx l gs io' { world := w' }) ∧ w'.procs pid ≠ none

variable {api vx}

/-- Between the invocation of a process and its end: `out` was there before,
`sent` is what the process has sent since, and `send_sz` counts it. -/
structure Sent (pid : Nat) (out sent : Bytes) (w : World σ γ) (io : Io) : Prop where
  holds : io.sendBuf.Holds (out ++ sent)
  counted : ∃ pr, w.procs pid = some pr ∧ pr.sendSz = sent.length

theorem doSyscall_sent {pid : Nat} {out sent : Bytes} {s s' : Sys σ γ}
    (h : Sent pid out sent s.world s.io) (hs : doSyscall api vx pid s = some s') :
    Sent pid out (sent ++ response vx s.guest) s'.world s'.io := by
  obtain ⟨pr, hpr, hcount⟩ := h.counted
  obtain ⟨pr', hpr', hcount'⟩ := doSyscall_sendSz hs hpr
  refine ⟨?_, pr', hpr', ?_⟩
  · rw [← List.append_assoc]
    exact (doSyscall_io hs).2 _ h.holds
  · rw [hcount', hcount, List.length_append, Int.natCast_add]

/-- The loop of `process_run` sends something, and counts it. -/
theorem processRunLoop_sent {pid : Nat} {out : Bytes} {left : Nat} {irqSeen : Bool} {s s' : Sys σ γ}
    (hsent : ∃ sent, Sent pid out sent s.world s.io)
    (h : processRunLoop api vx pid left irqSeen s = some s') :
    ∃ sent, Sent pid out sent s'.world s'.io :=
  processRunLoop_invariant api vx (P := fun w io => ∃ sent, Sent pid out sent w io)
    (fun ⟨_, hsent⟩ hcall => ⟨_, doSyscall_sent hsent hcall⟩) _ _ hsent h

/-- What the process was handed: the group in its memory, its length in `eax`,
and a count that starts at 0. -/
def invoked (vx : Vx γ) (pr : Process γ) (g : γ) (io : Io) (reqBuf : Bytes) : Process γ :=
  { pr with
    machine := some (vx.setReg (vx.write g pr.userBuf reqBuf) .eax reqBuf.length)
    sendBuf := some io.conn
    sendSz := 0 }

theorem processRun_sent {pid : Nat} {w w1 : World σ γ} {io io1 : Io} {reqBuf : Bytes} {r : Int}
    {pr : Process γ} {g : γ}
    (hrun : processRun api vx (cfg.syscallLimit * io.requests + 128) pid
      (w.setProc pid (some (invoked vx pr g io reqBuf))) io = some (w1, io1, r))
    {out : Bytes} (hout : io.sendBuf.Holds out) : ∃ sent, Sent pid out sent w1 io1 := by
  obtain ⟨pr1, g1, s, pr2, -, -, hs, hpr2, rfl, rfl, -⟩ := processRun_loop _ _ hrun
  have hstart : Sent pid out [] (w.setProc pid (some (invoked vx pr g io reqBuf))) io :=
    ⟨by rwa [List.append_nil], _, procs_setProc_self w pid _, rfl⟩
  obtain ⟨sent, hsent⟩ := processRunLoop_sent ⟨[], by exact hstart⟩ hs
  obtain ⟨pr3, hpr3, hcount⟩ := hsent.counted
  rw [hpr2] at hpr3
  cases hpr3
  exact ⟨sent, hsent.holds, _, procs_setProc_self s.world pid _, hcount⟩

theorem startGroup_woken {pid : Nat} {w : World σ γ} {io : Io} {reqBuf : Bytes} {pr : Process γ}
    {g : γ} (hpr : w.procs pid = some pr) (hfits : ¬ pr.userBufSz < reqBuf.length)
    (hg : pr.machine = some g) :
    lifeStep api vx { world := w } (.callback io pid reqBuf) = some {
      world := w.setProc pid (some (invoked vx pr g io reqBuf))
      active := some ⟨pid, io, true⟩ } := by
  simp [lifeStep, startGroup, hpr, hfits, hg, invoked]

/-- The process is alive afterwards, as it is only when the callback returns
without an error: then it has made its calls and waits. -/
theorem processCommandsCallback_serves {w w' : World σ γ} {io io' : Io} {reqBuf : Bytes} {pid : Nat}
    (h : processCommandsCallback api vx cfg w io reqBuf pid = some (w', io'))
    (hsuccess : w'.procs pid ≠ none) : ∃ gs, Serves api vx w io pid reqBuf gs w' io' := by
  have hfailed : ∀ {w1 : World σ γ} {io1 : Io},
      processFailed pid w1 io1 reqBuf ≠ some (w', io') := by
    intro w1 io1 hbad
    rw [processFailed_world hbad] at hsuccess
    exact hsuccess (if_pos rfl)
  unfold processCommandsCallback at h
  split at h
  · cases h
  · next pr hpr =>
      split at h
      · exact absurd h hfailed
      · next hfits =>
          split at h
          · cases h
          · next g hg =>
              simp only [] at h
              split at h
              · cases h
              · next w1 io1 r hrun =>
                  obtain ⟨hrest, -⟩ := processRun_life true hrun
                  split at h
                  · exact absurd h hfailed
                  · next hzero =>
                      split at h
                      · cases h
                      · next pr1 hpr1 =>
                          split at h
                          · exact absurd h hfailed
                          · next hsome =>
                              cases h
                              have hcalls := hrest (not_not.mp hzero) pr1 hpr1
                                fun hbad => hsome hbad.2
                              exact ⟨_, ⟨_, startGroup_woken hpr hfits hg, hcalls⟩, hsuccess⟩

/-- The process has been woken, and `sent` is what it has sent since. -/
def InService (pid : Nat) (out sent : Bytes) (l : Life σ γ) : Prop :=
  ∃ a, l.active = some a ∧ a.pid = pid ∧ Sent pid out sent l.world a.io

/-- A call after which the process goes on. -/
theorem InService.call {pid : Nat} {out sent : Bytes} {l l' : Life σ γ} {g : γ}
    (h : InService pid out sent l) (hstep : lifeStep api vx l (.syscall g) = some l')
    (hactive : l'.active ≠ none) : InService pid out (sent ++ response vx g) l' := by
  obtain ⟨a, ha, rfl, hsent⟩ := h
  cases lifeStep_move api vx hstep with
  | @called a' _ s hactive' hcall _ =>
      rw [ha] at hactive'
      cases hactive'
      exact ⟨_, rfl, rfl, doSyscall_sent (by exact hsent) hcall⟩
  | rested _ _ _ _ _ => exact absurd rfl hactive
  | ended _ _ _ => exact absurd rfl hactive

/-- A run of calls, in each of which the process is still running. -/
theorem InService.calls {pid : Nat} {out : Bytes} :
    ∀ {gs : List γ} {sent : Bytes} {l l' : Life σ γ}, InService pid out sent l →
      lifeRun api vx l (gs.map .syscall) = some l' → l'.active ≠ none →
      InService pid out (sent ++ (responses vx gs).flatten) l' := by
  intro gs
  induction gs with
  | nil =>
      intro sent l l' h hrun _
      cases hrun
      rw [responses, List.map_nil, List.flatten_nil, List.append_nil]
      exact h
  | cons g gs ih =>
      intro sent l l' h hrun hactive
      rw [List.map_cons, lifeRun, runSteps] at hrun
      split at hrun
      · cases hrun
      · next l1 hstep =>
          have hgoing : l1.active ≠ none := by
            intro hnone
            -- nobody is left to make the other calls
            cases gs with
            | nil => cases hrun; exact hactive hnone
            | cons g' gs =>
                rw [List.map_cons, runSteps] at hrun
                simp only [lifeStep, trapSyscall, hnone] at hrun
                cases hrun
          have hnext := ih (h.call hstep hgoing) hrun hactive
          rw [List.append_assoc] at hnext
          rw [responses, List.map_cons, List.flatten_cons]
          exact hnext

/-- What the process has written in its calls is what is in the buffer. -/
theorem Serves.sends {w w' : World σ γ} {io io' : Io} {pid : Nat} {reqBuf : Bytes} {gs : List γ}
    (h : Serves api vx w io pid reqBuf gs w' io') {out : Bytes} (hout : io.sendBuf.Holds out) :
    io'.sendBuf.Holds (out ++ (responses vx gs).flatten) := by
  obtain ⟨⟨l, hstart, before, last, l1, a, rfl, hrun, ha, rfl, hlast⟩, halive⟩ := h
  have hservice : InService pid out [] l := by
    cases lifeStep_move api vx hstart with
    | woken _ hpr _ hg =>
        exact ⟨_, rfl, rfl, by rwa [List.append_nil], _, procs_setProc_self _ _ _, rfl⟩
    | overrun _ _ _ =>
        -- the process is gone, and makes no call
        cases before with
        | nil =>
            cases hrun
            cases ha
        | cons g gs =>
            rw [List.map_cons, lifeRun, runSteps] at hrun
            cases hrun
  obtain ⟨a', ha', rfl, hsent⟩ := hservice.calls hrun (by rw [ha]; exact Option.some_ne_none _)
  rw [ha] at ha'
  cases ha'
  have hnone : response vx last = [] := by
    refine if_neg fun hw => ?_
    cases lifeStep_move api vx hlast with
    | @rested a' _ s _ hactive' hcall hnext _ _ =>
        have hnum := (doSyscall_yield api vx hcall hnext).num
        rw [hw.1] at hnum
        exact absurd hnum (by decide)
    | ended hactive' _ _ =>
        rw [ha] at hactive'
        cases hactive'
        exact halive (if_pos rfl)
  rw [responses, List.map_append, List.flatten_append, List.map_singleton, hnone]
  simpa [responses] using hsent.holds

/-- `k` complete responses one after the other. -/
def FramedAs (k : Nat) (bytes : Bytes) : Prop :=
  ∃ frames : List Bytes, bytes = frames.flatten ∧ frames.length = k ∧
    ∀ f ∈ frames, WellFormed 0x81 f

variable (vx) in
/-- A reader that looks after each call sees `k` answers, and nothing broken, and comes
out even. -/
def AnswersWhole (k : Nat) (gs : List γ) : Prop :=
  readPieces (fun bytes => reqbufGetSaneRequestSz bytes 0x81) {} (responses vx gs) = some ⟨k, []⟩

instance (k : Nat) (gs : List γ) : Decidable (AnswersWhole vx k gs) :=
  inferInstanceAs (Decidable (_ = _))

theorem answersWhole_iff (k : Nat) (gs : List γ) :
    AnswersWhole vx k gs ↔ FramedAs k (responses vx gs).flatten := by
  have hwhole : ∀ b : Bytes, 0 < (wireFraming 0x81).size b →
      (wireFraming 0x81).Frame (b.take ((wireFraming 0x81).size b).toNat) := by
    intro b hpos
    have hpos : 0 < reqbufGetSaneRequestSz b 0x81 := hpos
    exact (reqbufGetSaneRequestSz_take (by omega) (by omega)).2.2
  exact (wireFraming 0x81).readPieces_iff hwhole k (responses vx gs)

variable (api vx)

/-- A callback that returns with the process alive has seen it make some calls and
wait; and whatever calls a process makes, one frame for each request is added exactly
when they come to so many answers. -/
theorem groupFraming_iff (w : World σ γ) (io : Io) (reqs : List Bytes) (pid : Nat) {out : Bytes}
    (hout : io.sendBuf.Holds out) :
    (∀ w' io', processCommandsCallback api vx cfg w io reqs.flatten pid = some (w', io') →
      w'.procs pid ≠ none → ∃ gs, Serves api vx w io pid reqs.flatten gs w' io') ∧
    ∀ gs w' io', Serves api vx w io pid reqs.flatten gs w' io' →
      ((∃ added, io'.sendBuf.Holds (out ++ added) ∧ FramedAs reqs.length added) ↔
        AnswersWhole vx reqs.length gs) := by
  refine ⟨fun w' io' hrun halive => processCommandsCallback_serves cfg hrun halive, ?_⟩
  intro gs w' io' hserves
  have hsent := hserves.sends hout
  rw [answersWhole_iff]
  constructor
  · rintro ⟨added, hadded, hframed⟩
    have heq : out ++ added = out ++ (responses vx gs).flatten :=
      hadded.reader.symm.trans hsent.reader
    rw [← List.append_cancel_left heq]
    exact hframed
  · exact fun hframed => ⟨_, hsent, hframed⟩

end Framing

/-! ### A scripted guest -/

/-- A guest that makes one system call after the other, each with the registers
the script has for it; its memory is the same all the time. -/
def scriptVx (mem : Bytes) : Vx (List (Reg → Nat)) where
  run := fun g => (if g.tail.isEmpty then .other else .syscall, g.tail)
  reg := fun g r => (g.headD fun _ => 0) r
  setReg := fun g r v =>
    match g with
    | [] => []
    | regs :: rest => (fun r' => if r' = r then v else regs r') :: rest
  checkperm := fun _ _ _ _ => true
  read := fun _ addr n => peek (mem.drop addr) n
  write := fun g _ _ => g
  memSize := fun _ => 0
  resize := fun _ _ => none
  setperm := fun _ _ _ => none
  fillRandom := fun g _ _ => g
  base := fun _ => 0
  ptrSz := 4
  length_read := fun _ _ n => length_peek _ n

/-- The process waits for requests; woken, it writes `n` bytes and waits again. -/
def writerWorld (n : Nat) : World Unit (List (Reg → Nat)) where
  cmdPointers := cmdPointersInit.put 0x80 (processEntry 0 0)
  procs := fun i =>
    if i = 0 then
      some {
        machine := some [fun _ => 0, callWith 0xFF03 0 n, callWith 0xFF02 0 maxRequestSize]
        key := ascii "p"
        registercnt := 1
        userBufSz := maxRequestSize }
    else none
  nextProc := 1
  store := ()

def writerConfig : Config (List (Reg → Nat)) where
  gccCommand := fun _ _ _ => []
  writeFile := fun _ _ => none
  system := fun _ _ => (1, none)
  loadElf := fun _ _ => none

/-- A request of 24 bytes for command 0x80, and a response like it. -/
def bareRequest : Bytes := [0x80, 0x80] ++ List.replicate 22 0
def pluginResponse : Bytes := [0x81, 0x80] ++ List.replicate 22 0

/-- Woken, the process writes a frame in two pieces. -/
def piecewiseWorld : World Unit (List (Reg → Nat)) where
  cmdPointers := cmdPointersInit.put 0x80 (processEntry 0 0)
  procs := fun i =>
    if i = 0 then
      some {
        machine := some [fun _ => 0, callWith 0xFF03 0 10, callWith 0xFF03 10 14,
          callWith 0xFF02 0 maxRequestSize]
        key := ascii "p"
        registercnt := 1
        userBufSz := maxRequestSize }
    else none
  nextProc := 1
  store := ()

theorem groupFraming_iff_twoPieces :
    ∃ w' io' gs, Serves emptyEngine (scriptVx pluginResponse) piecewiseWorld {} 0
        [bareRequest].flatten gs w' io' ∧
      (∃ added, io'.sendBuf.Holds ([] ++ added) ∧ FramedAs [bareRequest].length added) := by
  have h : ((processCommandsCallback emptyEngine (scriptVx pluginResponse) writerConfig
      piecewiseWorld {} [bareRequest].flatten 0).map fun r =>
        ((r.1.procs 0).isSome, bufGetReader r.2.sendBuf)) = some (true, pluginResponse) := by
    decide +kernel
  obtain ⟨⟨w', io'⟩, hrun, hview⟩ := Option.map_eq_some_iff.mp h
  obtain ⟨halive, hread⟩ := Prod.mk.inj hview
  obtain ⟨hserves, hiff⟩ := groupFraming_iff emptyEngine (scriptVx pluginResponse) writerConfig
    piecewiseWorld {} [bareRequest] 0 Buffer.holds_empty
  obtain ⟨gs, hgs⟩ := hserves w' io' hrun (Option.ne_none_iff_isSome.mpr halive)
  refine ⟨w', io', gs, hgs, (hiff gs w' io' hgs).mpr ?_⟩
  have hsent := (hgs.sends Buffer.holds_empty).reader.symm.trans hread
  rw [answersWhole_iff]
  refine ⟨[pluginResponse], ?_, rfl, by decide⟩
  simpa using hsent

/-- Three bytes are not a frame, and are sent all the same. -/
theorem groupFraming_threeBytes :
    ∃ w' io', processCommandsCallback emptyEngine (scriptVx (ascii "abc")) writerConfig
        (writerWorld 3) {} [bareRequest].flatten 0 = some (w', io') ∧
      w'.procs 0 ≠ none ∧
      ¬ ∃ added, io'.sendBuf.Holds ([] ++ added) ∧ FramedAs [bareRequest].length added := by
  have h : ((processCommandsCallback emptyEngine (scriptVx (ascii "abc")) writerConfig
      (writerWorld 3) {} [bareRequest].flatten 0).map
        fun r => ((r.1.procs 0).isSome, bufGetReader r.2.sendBuf)) = some (true, ascii "abc") := by
    decide +kernel
  obtain ⟨⟨w', io'⟩, hrun, hview⟩ := Option.map_eq_some_iff.mp h
  obtain ⟨halive, hread⟩ := Prod.mk.inj hview
  refine ⟨w', io', hrun, Option.ne_none_iff_isSome.mpr halive, ?_⟩
  rintro ⟨added, hadded, frames, rfl, hlen, hframes⟩
  obtain ⟨f, rfl⟩ := List.length_eq_one_iff.mp hlen
  have hshort : f = ascii "abc" := by
    have heq := hadded.reader.symm.trans hread
    simpa using heq
  have hwf := hframes f List.mem_cons_self
  rw [hshort] at hwf
  exact absurd hwf (by decide)

end Smalltable.Proofs
