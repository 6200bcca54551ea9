import Smalltable.Proofs.Access

/-!
# Syscalls stay inside the sandbox

Whatever runs of the server lead to, a byte of guest memory is touched only
where `vxmem_checkperm` has said yes before, if no call of `st_prefetch` comes
with arrays too long to be asked about or with the sizes among the pointers.

A run has a trace for each process, and the invariant (`TraceInv`) says of every process
that waits that its buffer was granted for writing when it began to wait. So the server
may copy requests into it without asking again. What is granted once stays granted.
-/

namespace Smalltable.Proofs

open Smalltable.Ref

/-! ## All calls

Every call without a trace is the same call with one, and every one of them keeps a
trace guarded; for `st_prefetch` this takes the condition on its arrays. -/

section Calls

variable {σ γ : Type} (api : StStorageApi σ) (vx : Vx γ)

theorem untraced_erase (f : Sys σ γ → Option (Sys σ γ)) (t : Traced σ γ) :
    erased (untraced f t) = f t.sys := by
  unfold untraced
  cases f t.sys <;> rfl

theorem untraced_guards (f : Sys σ γ → Option (Sys σ γ)) {t : Traced σ γ} (ht : Guarded t.trace) :
    Guards (untraced f t) := by
  unfold untraced
  cases f t.sys with
  | none => exact guards_none
  | some s => exact (guards_some _ _).mpr ht

/-- Leaving the trace out gives the handlers of the model. -/
theorem tracedSyscalls_erase (pid num : Nat) (t : Traced σ γ) :
    erased (tracedSyscalls api vx pid num t) = syscalls api vx pid num t.sys := by
  generalize h : syscalls api vx pid num t.sys = r
  unfold syscalls at h
  split at h
  · exact (untraced_erase _ t).trans h
  · exact (untraced_erase _ t).trans h
  · exact (tracedWrite_erase vx t).trans h
  · exact (untraced_erase _ t).trans h
  · exact (untraced_erase _ t).trans h
  · exact (tracedReadrequests_erase vx pid t).trans h
  · exact (tracedWriteresponses_erase vx pid t).trans h
  · exact (tracedStGet_erase api vx t).trans h
  · exact (tracedStPrefetch_erase api vx t).trans h
  · exact (tracedStSet_erase api vx t).trans h
  · exact (tracedStDel_erase api vx t).trans h
  · exact (tracedStGetrandom_erase vx t).trans h
  · unfold tracedSyscalls
    split
    all_goals first | contradiction | exact h

theorem tracedSyscall_erase (pid : Nat) (s : Sys σ γ) (trace : List MemEvent) :
    (tracedSyscall api vx pid s trace).map Prod.fst = doSyscall api vx pid s := by
  have h := tracedSyscalls_erase api vx pid (vx.reg s.guest .eax)
    { sys := { s with next := .continue }, trace := trace }
  unfold tracedSyscall doSyscall
  rw [← h]
  cases tracedSyscalls api vx pid (vx.reg s.guest .eax)
    { sys := { s with next := .continue }, trace := trace } <;> rfl

variable {vx}

theorem tracedSyscalls_guards (m : HostMemory vx) (hfits : ∀ store n key item, 0 ≤ n →
      api.get store n key = some item → item.length ≤ n.toNat) (pid : Nat)
    {t : Traced σ γ} (ht : Guarded t.trace) {num : Nat} (hnum : vx.reg t.sys.guest .eax = num)
    (hapart : ReachesLoop api vx t.sys.guest → ArraysApart api vx t.trace t.sys.guest) :
    Guards (tracedSyscalls api vx pid num t) := by
  unfold tracedSyscalls
  split
  · exact untraced_guards _ ht
  · exact untraced_guards _ ht
  · exact tracedWrite_guards vx ht
  · exact untraced_guards _ ht
  · exact untraced_guards _ ht
  · exact tracedReadrequests_guards vx pid ht
  · exact tracedWriteresponses_guards vx pid ht
  · exact tracedStGet_guards api vx ht hfits
  · exact tracedStPrefetch_guards api m ht hnum hapart
  · exact tracedStSet_guards api vx ht
  · exact tracedStDel_guards api vx ht
  · exact tracedStGetrandom_guards vx ht
  · exact (guards_some _ _).mpr ht

theorem tracedSyscall_guards (m : HostMemory vx) (hfits : ∀ store n key item, 0 ≤ n →
      api.get store n key = some item → item.length ≤ n.toNat) {pid : Nat} {s s' : Sys σ γ}
    {trace trace' : List MemEvent} (ht : Guarded trace)
    (hapart : ReachesLoop api vx s.guest → ArraysApart api vx trace s.guest)
    (h : tracedSyscall api vx pid s trace = some (s', trace')) : Guarded trace' := by
  have hguards := tracedSyscalls_guards api m hfits pid
    (t := { sys := { s with next := .continue }, trace := trace }) ht rfl hapart
  unfold tracedSyscall at h
  split at h
  · cases h
  · next ret t' hrun =>
      cases h
      exact hguards ret t' hrun

/-- A process that waits has been granted its buffer. -/
theorem tracedReadrequests_granted {pid : Nat} {t t' : Traced σ γ} {ret : Int}
    (hperm : vx.checkperm t.sys.guest (vx.reg t.sys.guest .edx) (vx.reg t.sys.guest .ecx) .write
      = true) {pr : Process γ} (hpr : t.sys.world.procs pid = some pr) (hcnt : pr.registercnt ≠ 0)
    (h : tracedReadrequests vx pid t = some (ret, t')) :
    .granted (vx.reg t.sys.guest .edx) (vx.reg t.sys.guest .ecx) .write ∈ t'.trace := by
  simp only [tracedReadrequests, setNext, setProc, bind_run, getProc_run hpr, Option.bind_some,
    ite_run, if_neg hcnt, getReg_run, checkperm_bind, hperm, modifySys_run, pure_run, Bool.not_true,
    Bool.false_eq_true, if_false] at h
  split at h <;> cases h <;> exact List.mem_cons_self

theorem tracedSyscall_granted {pid : Nat} {s s' : Sys σ γ} {trace trace' : List MemEvent}
    (h : tracedSyscall api vx pid s trace = some (s', trace')) (hnext : s'.next = .yield) :
    .granted (vx.reg s.guest .edx) (vx.reg s.guest .ecx) .write ∈ trace' := by
  have hcall : doSyscall api vx pid s = some s' := by
    rw [← tracedSyscall_erase api vx pid s trace, h]
    rfl
  have hwaits := doSyscall_yield api vx hcall hnext
  obtain ⟨pr, hpr, hcnt, -⟩ := hwaits.world
  unfold tracedSyscall at h
  rw [hwaits.num] at h
  split at h
  · cases h
  · next ret t' hrun =>
      cases h
      exact tracedReadrequests_granted
        (t := { sys := { s with next := .continue }, trace := trace })
        hwaits.writable hpr hcnt hrun

end Calls

/-! ## Runs

An engine may write sizes back, and then the condition also asks that they were granted
for writing; the run at the end has such an engine, and a program that has not asked for
it. -/

section Runs

variable {σ γ : Type} (api : StStorageApi σ) (vx : Vx γ)

/-- The traces are kept beside the life of the processes. -/
theorem tracedStep_life (t : TracedLife σ γ) (e : LifeEvent σ γ) :
    (tracedStep api vx t e).map TracedLife.life = lifeStep api vx t.life e := by
  unfold tracedStep
  cases lifeStep api vx t.life e <;> rfl

theorem tracedRun_life (t : TracedLife σ γ) (es : List (LifeEvent σ γ)) :
    (tracedRun api vx t es).map TracedLife.life = lifeRun api vx t.life es := by
  unfold tracedRun lifeRun
  induction es generalizing t with
  | nil => rfl
  | cons e es ih =>
      rw [runSteps, runSteps, ← tracedStep_life]
      cases tracedStep api vx t e with
      | none => rfl
      | some u => exact ih u

/-- The other processes keep the buffers they wait with. -/
def KeepsBuffers (pid : Nat) (w w' : World σ γ) : Prop :=
  ∀ q ≠ pid, ∀ pr', w'.procs q = some pr' → ∃ pr, w.procs q = some pr ∧
    pr'.userBuf = pr.userBuf ∧ pr'.userBufSz = pr.userBufSz

variable {api vx}

theorem keepsBuffers_setProc (w : World σ γ) (pid : Nat) (pr : Option (Process γ)) :
    KeepsBuffers pid w (w.setProc pid pr) := by
  intro q hq pr' hpr'
  have hpr' : (if q = pid then pr else w.procs q) = some pr' := hpr'
  rw [if_neg hq] at hpr'
  exact ⟨pr', hpr', rfl, rfl⟩

theorem keepsBuffers_dropLooser {w w' : World σ γ} {pid : Nat} {e : CmdEntry}
    (hd : dropLooser w pid e = some w') : KeepsBuffers pid w w' := by
  intro q _ pr' hpr'
  rcases dropLooser_cases hd with ⟨rfl, -⟩ | ⟨p, pr, -, -, hpr, ⟨-, rfl⟩ | ⟨-, rfl⟩⟩
  · exact ⟨pr', hpr', rfl, rfl⟩
  · have hpr' : (if q = p then none else w.procs q) = some pr' := hpr'
    split at hpr'
    · cases hpr'
    · exact ⟨pr', hpr', rfl, rfl⟩
  · have hpr' : (if q = p then some { pr with registercnt := pr.registercnt - 1 }
      else w.procs q) = some pr' := hpr'
    split at hpr'
    · next heq =>
        cases hpr'
        exact ⟨pr, by rw [heq]; exact hpr, rfl, rfl⟩
    · exact ⟨pr', hpr', rfl, rfl⟩

theorem SysEffect.keepsBuffers {pid : Nat} {g : γ} {w w' : World σ γ}
    (he : SysEffect vx pid g w w') : KeepsBuffers pid w w' := by
  cases he with
  | same hsame =>
      intro q _ pr' hpr'
      rw [hsame.2.1] at hpr'
      exact ⟨pr', hpr', rfl, rfl⟩
  | touch hpr hkeeps => exact keepsBuffers_setProc w pid _
  | @take w1 pr flags _ _ _ _ hdrop hpr =>
      intro q hq pr' hpr'
      obtain ⟨pr1, hpr1, h1, h2⟩ := keepsBuffers_setProc w1 pid
        (some { pr with registercnt := pr.registercnt + 1 }) q hq pr' hpr'
      obtain ⟨pr0, hpr0, h3, h4⟩ := keepsBuffers_dropLooser hdrop q hq pr1 hpr1
      exact ⟨pr0, hpr0, h1.trans h3, h2.trans h4⟩
  | give cmd _ _ hpr => exact keepsBuffers_setProc w pid _

/-- The processes that wait were granted the buffers they wait with. -/
def BuffersGranted (traces : Nat → List MemEvent) (running : Option Nat) (w : World σ γ) : Prop :=
  ∀ pid pr, running ≠ some pid → w.procs pid = some pr → pr.userBufSz ≤ 0 ∨
    ∃ n : Nat, .granted pr.userBuf n .write ∈ traces pid ∧ pr.userBufSz ≤ n

/-- One process is at work. -/
theorem BuffersGranted.work {traces : Nat → List MemEvent} {running : Option Nat} {pid : Nat}
    {w w' : World σ γ} (h : BuffersGranted traces running w) (hrun : ∀ q ∈ running, q = pid)
    (hkeeps : KeepsBuffers pid w w') (trace : List MemEvent) :
    BuffersGranted (Function.update traces pid trace) (some pid) w' := by
  intro q pr' hq hpr'
  have hq : q ≠ pid := fun heq => hq (by rw [heq])
  obtain ⟨pr, hpr, hbuf, hsz⟩ := hkeeps q hq pr' hpr'
  rw [Function.update_of_ne hq, hbuf, hsz]
  exact h q pr (fun heq => hq (hrun q heq)) hpr

theorem BuffersGranted.free {traces : Nat → List MemEvent} {running : Option Nat} {pid : Nat}
    {w : World σ γ} (h : BuffersGranted traces running w) (hrun : ∀ q ∈ running, q = pid) :
    BuffersGranted traces none (w.processFree pid) := by
  intro q pr _ hpr
  have hpr : (if q = pid then none else w.procs q) = some pr := hpr
  split at hpr
  · cases hpr
  · next hq => exact h q pr (fun heq => hq (hrun q heq)) hpr

/-- The process goes to wait. -/
theorem BuffersGranted.rest {traces : Nat → List MemEvent} {pid n : Nat} {w : World σ γ}
    (h : BuffersGranted traces (some pid) w) {pr : Process γ}
    (hgranted : .granted pr.userBuf n .write ∈ traces pid) (hsz : pr.userBufSz ≤ n) :
    BuffersGranted traces none (w.setProc pid (some pr)) := by
  intro q pr' _ hpr'
  have hpr' : (if q = pid then some pr else w.procs q) = some pr' := hpr'
  split at hpr'
  · next heq =>
      cases hpr'
      rw [heq]
      exact .inr ⟨n, hgranted, hsz⟩
  · next hq => exact h q pr' (fun heq => hq (Option.some.inj heq).symm) hpr'

/-- What holds between two steps. -/
structure TraceInv (t : TracedLife σ γ) : Prop where
  life : LifeInv t.life
  guarded : ∀ pid, Guarded (t.traces pid)
  buffers : BuffersGranted t.traces (t.life.active.map Activation.pid) t.life.world

theorem guarded_update {traces : Nat → List MemEvent} (h : ∀ pid, Guarded (traces pid))
    (pid : Nat) {trace : List MemEvent} (htrace : Guarded trace) (q : Nat) :
    Guarded (Function.update traces pid trace q) := by
  by_cases hq : q = pid
  · rw [hq, Function.update_self]; exact htrace
  · rw [Function.update_of_ne hq]; exact h q

variable (api vx)

/-- The calls of `st_prefetch` come with arrays that the checks are good for. -/
def PrefetchOk (t : TracedLife σ γ) : LifeEvent σ γ → Prop
  | .syscall g => ∀ a ∈ t.life.active, ReachesLoop api vx g →
      ArraysApart api vx (t.traces a.pid) g
  | _ => True

variable {api vx}

theorem LifeMove.traceInv (m : HostMemory vx) (hfits : ∀ store n key item, 0 ≤ n →
      api.get store n key = some item → item.length ≤ n.toNat) {t : TracedLife σ γ}
    {e : LifeEvent σ γ} {l : Life σ γ} (hmove : LifeMove api vx t.life e l) (h : TraceInv t)
    (hok : PrefetchOk api vx t e) : TraceInv { life := l, traces := nextTraces api vx t e } := by
  have hinv := hmove.inv h.life
  have hcalled : ∀ {a : Activation} {g : γ} {s : Sys σ γ}, e = .syscall g →
      t.life.active = some a →
      doSyscall api vx a.pid { world := t.life.world, io := a.io, guest := g } = some s →
      ∃ trace, nextTraces api vx t e = Function.update t.traces a.pid trace ∧ Guarded trace ∧
        (s.next = .yield → .granted (vx.reg g .edx) (vx.reg g .ecx) .write ∈ trace) ∧
        BuffersGranted (Function.update t.traces a.pid trace) (some a.pid) s.world := by
    intro a g s he hactive hcall
    subst he
    have herase := tracedSyscall_erase api vx a.pid
      { world := t.life.world, io := a.io, guest := g } (t.traces a.pid)
    rw [hcall, Option.map_eq_some_iff] at herase
    obtain ⟨⟨s', trace⟩, htraced, hs'⟩ := herase
    have hs' : s' = s := hs'
    subst hs'
    have heffect := doSyscall_effect api vx ⟨h.life.inv, h.life.active a hactive⟩ hcall
    have hbuffers := h.buffers
    rw [hactive] at hbuffers
    have hguarded : Guarded trace :=
      tracedSyscall_guards api m hfits (s := { world := t.life.world, io := a.io, guest := g })
        (h.guarded a.pid) (hok a hactive) htraced
    refine ⟨trace, ?_, hguarded, tracedSyscall_granted api htraced,
      hbuffers.work (fun q hq => ?_) heffect.keepsBuffers trace⟩
    · simp only [nextTraces, hactive, htraced]
    · cases hq; rfl
  have hnone : t.life.active = none → ∀ pid, ∀ q ∈ t.life.active.map Activation.pid, q = pid := by
    intro hidle pid q hq
    rw [hidle] at hq
    cases hq
  have hnew : ∀ (pr : Process γ), KeepsBuffers t.life.world.nextProc t.life.world
      ((t.life.world.processNew pr.key).setProc t.life.world.nextProc (some pr)) := by
    intro pr q hq pr' hpr'
    have hpr' : (if q = t.life.world.nextProc then some pr
      else if q = t.life.world.nextProc then some _ else t.life.world.procs q) = some pr' := hpr'
    rw [if_neg hq, if_neg hq] at hpr'
    exact ⟨pr', hpr', rfl, rfl⟩
  cases hmove with
  | @stillborn io key hidle hkey =>
      refine ⟨hinv, guarded_update h.guarded _ trivial, ?_⟩
      have hwork := h.buffers.work (hnone hidle _) (keepsBuffers_setProc t.life.world
        t.life.world.nextProc (some { key := key })) []
      exact hwork.free fun q hq => by cases hq; rfl
  | @born io key g hidle hkey =>
      exact ⟨hinv, guarded_update h.guarded _ trivial,
        h.buffers.work (hnone hidle _) (hnew { key := key, machine := some g }) []⟩
  | @unloaded key pid hidle hkey =>
      exact ⟨hinv, h.guarded, h.buffers.free (hnone hidle pid)⟩
  | @overrun io pid reqBuf pr hidle hpr hlong =>
      have htraces : nextTraces api vx t (.callback io pid reqBuf) = t.traces := by
        simp only [nextTraces, hpr, if_pos hlong]
      rw [htraces]
      exact ⟨hinv, h.guarded, h.buffers.free (hnone hidle pid)⟩
  | @woken io pid reqBuf pr g hidle hpr hfits' hg =>
      have htraces : nextTraces api vx t (.callback io pid reqBuf) = Function.update t.traces pid
          (.touched pr.userBuf reqBuf.length .write :: t.traces pid) := by
        simp only [nextTraces, hpr, if_neg hfits']
      rw [htraces]
      -- the copy stays in the buffer, and the buffer was granted
      have hcopy : Covers (t.traces pid) pr.userBuf reqBuf.length .write := by
        have hrunning : t.life.active.map Activation.pid ≠ some pid := by
          rw [hidle]
          exact (Option.some_ne_none pid).symm
        rcases h.buffers pid pr hrunning hpr with hempty | ⟨n, hgranted, hsz⟩
        · rw [show reqBuf.length = 0 by omega]
          exact covers_zero _ _ _
        · exact covers_of_granted hgranted rfl (Nat.le_refl _) (by omega)
      exact ⟨hinv, guarded_update h.guarded pid ⟨hcopy, h.guarded pid⟩,
        h.buffers.work (hnone hidle pid) (keepsBuffers_setProc _ pid _) _⟩
  | @called a g s hactive hcall _ =>
      obtain ⟨trace, htraces, hguarded, -, hbuffers⟩ := hcalled rfl hactive hcall
      rw [htraces]
      exact ⟨hinv, guarded_update h.guarded a.pid hguarded, hbuffers⟩
  | @rested a g s pr hactive hcall hnext hpr _ =>
      obtain ⟨trace, htraces, hguarded, hgranted, hbuffers⟩ := hcalled rfl hactive hcall
      have hwaits := doSyscall_yield api vx hcall hnext
      obtain ⟨pr0, -, -, hworld⟩ := hwaits.world
      rw [hworld, procs_setProc_self] at hpr
      cases hpr
      rw [htraces]
      refine ⟨hinv, guarded_update h.guarded a.pid hguarded, ?_⟩
      refine hbuffers.rest (n := vx.reg g .ecx) ?_ ?_
      · rw [Function.update_self]
        exact hgranted hnext
      · have hlen := toNat_asInt_le (vx.reg g .ecx)
        show asInt (vx.reg g .ecx) ≤ (vx.reg g .ecx : Int)
        omega
  | @ended a g s hactive hcall _ =>
      obtain ⟨trace, htraces, hguarded, -, hbuffers⟩ := hcalled rfl hactive hcall
      rw [htraces]
      exact ⟨hinv, guarded_update h.guarded a.pid hguarded,
        hbuffers.free fun q hq => by cases hq; rfl⟩
  | @killed a hactive =>
      refine ⟨hinv, h.guarded, h.buffers.free fun q hq => ?_⟩
      rw [hactive] at hq
      cases hq
      rfl
  | @data store n hidle => exact ⟨hinv, h.guarded, h.buffers⟩

/-- In every run of the server, a byte of a guest that is read or written was
granted before, as long as every `st_prefetch` comes with arrays that are as
long as was asked about and apart from one another, and with sizes that the
engine leaves alone or that the guest has shown it may write. -/
theorem accesses_guarded (api : StStorageApi σ) (m : HostMemory vx) (hfits : ∀ store n key item,
      0 ≤ n → api.get store n key = some item → item.length ≤ n.toNat) (store : σ)
    (es : List (LifeEvent σ γ))
    (hok : AllSteps (tracedStep api vx) (PrefetchOk api vx) { life := lifeStart store } es)
    {t : TracedLife σ γ} (h : tracedRun api vx { life := lifeStart store } es = some t)
    (pid : Nat) : Guarded (t.traces pid) := by
  have hstart : TraceInv ({ life := lifeStart store } : TracedLife σ γ) :=
    ⟨lifeInv_start store, fun _ => trivial,
      fun _ _ _ hpr => absurd hpr (Option.some_ne_none _).symm⟩
  have hstep : ∀ t e t', TraceInv t → PrefetchOk api vx t e → tracedStep api vx t e = some t' →
      TraceInv t' := by
    intro t e t' ht hok hstep
    unfold tracedStep at hstep
    split at hstep
    · cases hstep
    · next l hl =>
        cases hstep
        exact (lifeStep_move api vx hl).traceInv m hfits ht hok
  exact (runSteps_invariant hstep hstart hok h).guarded pid

end Runs

/-- A sandbox with 16 MB of memory, at a fixed place. -/
def fixedVx : Vx FlatGuest :=
  { flatVx with
    checkperm := fun _ addr n _ => chunkCheckperm (2 ^ 24) addr n
    base := fun _ => 2 ^ 16 }

def fixedMemory : HostMemory fixedVx where
  byte g x := g.mem x
  four_le_ptrSz := by decide
  read_eq _ _ _ := rfl
  byte_write _ _ _ _ := rfl
  reg_write _ _ _ _ := rfl
  checkperm_write _ _ _ _ _ _ := rfl
  base_write _ _ _ := rfl
  mapped g addr len perm h hlen := by
    have hin : chunkCheckperm (2 ^ 24) addr len = true := h
    have hin : addr + len < 2 ^ 32 := of_decide_eq_true (Bool.and_eq_true_iff.mp hin).1
    show 2 ^ 16 + addr < 256 ^ 8
    omega

/-- A guest about to make a call, its memory filled with one byte. -/
def flatCall (fill : UInt8) (num edx ecx ebx : Nat) : FlatGuest where
  regs := fun
    | .eax => num
    | .edx => edx
    | .ecx => ecx
    | .ebx => ebx
    | .edi => 0
  mem := fun _ => fill
  base := 0

/-- A program registers a command, hints at a key, waits, and is handed a
request. -/
def hintsAndServes : List (LifeEvent Unit FlatGuest) :=
  [.codeLoad {} (ascii "p") (some (flatCall 0 0 0 0 0)),
   .syscall (flatCall 1 0xFF00 0x80 0 0),
   .syscall (flatCall 0 0xFF05 64 128 1),
   .syscall (flatCall 0 0xFF02 4096 maxRequestSize 0),
   .callback {} 0 (ascii "request")]

theorem hintsAndServes_ok : AllSteps (tracedStep hintedEngine fixedVx)
    (PrefetchOk hintedEngine fixedVx) { life := lifeStart () } hintsAndServes := by
  refine allSteps_of_mem (fun e he s => ?_) _
  have hone (trace : List MemEvent) :
      ArraysApart hintedEngine fixedVx trace (flatCall 0 0xFF05 64 128 1) := by
    refine ⟨fun i hi _ => ?_, fun _ => ⟨.inr (.inr (by decide)), covers_zero _ _ _⟩⟩
    have hi : i < 1 := hi
    rw [show i = 0 by omega]
    decide
  simp only [hintsAndServes, List.mem_cons, List.not_mem_nil, or_false] at he
  rcases he with rfl | rfl | rfl | rfl | rfl
  · trivial
  · exact fun _ _ hloop => absurd hloop.1 (by decide)
  · exact fun _ _ _ => hone _
  · exact fun _ _ hloop => absurd hloop.1 (by decide)
  · trivial

theorem accesses_guarded_serves :
    ∃ t, tracedRun hintedEngine fixedVx { life := lifeStart () } hintsAndServes = some t ∧
      Guarded (t.traces 0) := by
  have h : (tracedRun hintedEngine fixedVx { life := lifeStart () } hintsAndServes).isSome
      = true := by decide +kernel
  obtain ⟨t, ht⟩ := Option.isSome_iff_exists.mp h
  exact ⟨t, ht, accesses_guarded hintedEngine fixedMemory
    (fun _ _ _ _ _ hget => absurd hget (Option.some_ne_none _).symm) () hintsAndServes
    hintsAndServes_ok ht 0⟩

/-- An engine that takes hints as `sto_ydb.c` does. -/
def narrowingEngine : StStorageApi Unit := { hintedEngine with readaheadSizes := narrowedSizes }

/-- `st_prefetch` of 2 ^ 30 keys: the server asks about nothing, and reads the
first pointer far outside the guest. And with an engine that narrows the sizes
one key is enough for a write to memory that was asked about for reading. -/
theorem prefetch_outside :
    (∃ t, tracedRun hintedEngine fixedVx { life := lifeStart () }
        [.codeLoad {} (ascii "p") (some (flatCall 0 0 0 0 0)),
         .syscall (flatCall 0xFF 0xFF05 (2 ^ 25) (2 ^ 26) (2 ^ 30))] = some t ∧
      ¬ Guarded (t.traces 0)) ∧
    ∃ t, tracedRun narrowingEngine fixedVx { life := lifeStart () }
        [.codeLoad {} (ascii "p") (some (flatCall 0 0 0 0 0)),
         .syscall (flatCall 0 0xFF05 64 128 1)] = some t ∧
      ¬ Guarded (t.traces 0) := by
  have h : ((tracedRun hintedEngine fixedVx { life := lifeStart () }
      [.codeLoad {} (ascii "p") (some (flatCall 0 0 0 0 0)),
       .syscall (flatCall 0xFF 0xFF05 (2 ^ 25) (2 ^ 26) (2 ^ 30))]).map fun t => t.traces 0)
      = some [.touched (2 ^ 26) 4 .read, .touched (2 ^ 25) 8 .read, .granted (2 ^ 26) 0 .read,
          .granted (2 ^ 25) 0 .readWrite] := by decide +kernel
  have h' : ((tracedRun narrowingEngine fixedVx { life := lifeStart () }
      [.codeLoad {} (ascii "p") (some (flatCall 0 0 0 0 0)),
       .syscall (flatCall 0 0xFF05 64 128 1)]).map fun t => t.traces 0)
      = some [.touched 64 8 .write, .touched 0 0 .read, .touched 64 8 .read, .touched 128 2 .write,
          .touched 128 4 .read, .touched 64 8 .write, .granted 0 0 .read, .touched 128 4 .read,
          .touched 64 8 .read, .granted 128 4 .read, .granted 64 8 .readWrite] := by decide +kernel
  obtain ⟨t, ht, htrace⟩ := Option.map_eq_some_iff.mp h
  obtain ⟨t', ht', htrace'⟩ := Option.map_eq_some_iff.mp h'
  refine ⟨⟨t, ht, ?_⟩, t', ht', ?_⟩
  · rw [htrace]
    rintro ⟨-, hcovers, -⟩
    obtain ⟨a, n, p, hmem, -, hlo, hhi⟩ := hcovers (2 ^ 25) (Nat.le_refl _) (by decide)
    simp at hmem
    omega
  · rw [htrace']
    rintro ⟨-, -, -, hcovers, -⟩
    obtain ⟨a, n, p, hmem, hp, hlo, hhi⟩ := hcovers 128 (Nat.le_refl _) (by decide)
    simp only [List.mem_cons, List.not_mem_nil, or_false, reduceCtorEq, false_or,
      MemEvent.granted.injEq] at hmem
    rcases hmem with ⟨rfl, rfl, rfl⟩ | ⟨rfl, rfl, rfl⟩ | ⟨rfl, rfl, rfl⟩
    · omega
    · cases hp
    · omega

end Smalltable.Proofs
