import Smalltable.Proofs.Responses

/-!
# A CODE_LOAD that fails

CODE_LOAD runs the new program before it knows whether to keep it, and what the
program does in this first run happens at once. Commands that were free come
back free when the process is freed in the end. A command that another process
had does not: the other process was counted down, or freed with the last of its
commands, when the new one registered it.

The table has one slot for each command and does not remember whose it was. So what the
second program has taken cannot be put back, whatever is done behind the run; it could
only be refused.
-/

namespace Smalltable.Proofs

open Smalltable.Ref

section Calls

variable {σ γ : Type} (api : StStorageApi σ) (vx : Vx γ)

/-- The world between the system calls of a run. -/
inductive Calls (pid : Nat) : World σ γ → List γ → World σ γ → Prop
  | nil (w : World σ γ) : Calls pid w [] w
  | cons {s s1 : Sys σ γ} {gs : List γ} {w : World σ γ}
      (hcall : doSyscall api vx pid s = some s1) (hrest : Calls pid s1.world gs w) :
      Calls pid s.world (s.guest :: gs) w

variable {api vx}

theorem processRunLoop_calls {pid : Nat} : ∀ (left : Nat) (irqSeen : Bool) {s s' : Sys σ γ},
    processRunLoop api vx pid left irqSeen s = some s' →
      Calls api vx pid s.world (callsLoop api vx pid left irqSeen s) s'.world := by
  intro left
  induction left with
  | zero =>
      intro irqSeen s s' h
      rcases htrap : runToTrap vx irqSeen s.guest with ⟨t, g, irqSeen'⟩
      rw [processRunLoop, htrap] at h
      rw [callsLoop, htrap]
      cases t
      all_goals
        cases h
        exact .nil _
  | succ left ih =>
      intro irqSeen s s' h
      rcases htrap : runToTrap vx irqSeen s.guest with ⟨t, g, irqSeen'⟩
      rw [processRunLoop, htrap] at h
      rw [callsLoop, htrap]
      cases t with
      | syscall =>
          simp only [] at h ⊢
          cases hcall : doSyscall api vx pid { s with guest := g } with
          | none => rw [hcall] at h; cases h
          | some s1 =>
              rw [hcall] at h
              simp only [] at h ⊢
              refine Calls.cons (s := { s with guest := g }) hcall ?_
              cases hnext : s1.next with
              | «continue» => rw [hnext] at h; exact ih irqSeen' h
              | yield => rw [hnext] at h; cases h; exact .nil _
              | kill => rw [hnext] at h; cases h; exact .nil _
              | exit =>
                  rw [hnext] at h
                  simp only [] at h
                  unfold withProc at h
                  split at h
                  · cases h
                  · cases h
                    exact .nil _
      | irq => cases h; exact .nil _
      | pagefault => cases h; exact .nil _
      | other => cases h; exact .nil _

end Calls

/-! ## What a program takes

A program takes a command from another process by registering it. `Untouched` is what
holds as long as it has not done so, and `Robbed` what holds from then on: a command
that had a process has the new one, or none, whatever the program does later. -/

section Takes

variable {σ γ : Type} {api : StStorageApi σ} (vx : Vx γ)

/-- A call of `st_register` with a number that can be a command. -/
structure Registers (g : γ) : Prop where
  num : vx.reg g .eax = 0xFF00
  low : ¬ asInt (vx.reg g .edx) < 0
  high : ¬ asInt (vx.reg g .edx) > 255

/-- The call names a command that some process has. -/
def TakesFrom (w : World σ γ) (g : γ) : Prop :=
  Registers vx g ∧ ∃ q, (w.cmdPointers (registerCmd vx g)).ptr = .process q

/-- The new process `pid` has nothing but commands that were free. -/
structure Untouched (w0 : World σ γ) (pid : Nat) (w : World σ γ) : Prop
    extends World.Running w pid where
  table : ∀ cmd, w.cmdPointers cmd = w0.cmdPointers cmd ∨
    (w0.cmdPointers cmd = {} ∧ (w.cmdPointers cmd).ptr = .process pid)
  others : ∀ i, i ≠ pid → w.procs i = w0.procs i

/-- A command that had a process has the new one, or none. -/
def Robbed (w0 : World σ γ) (pid : Nat) (w : World σ γ) : Prop :=
  ∃ cmd q, (w0.cmdPointers cmd).ptr = .process q ∧
    ((w.cmdPointers cmd).ptr = .process pid ∨ (w.cmdPointers cmd).ptr = .null)

variable {vx} {w0 w w' : World σ γ} {pid : Nat}

theorem SysEffect.untouched {g : γ} (he : SysEffect vx pid g w w') (h0 : World.Inv w0)
    (hnew : w0.procs pid = none) (h : Untouched w0 pid w) (hfree : ¬ TakesFrom vx w0 g) :
    Untouched w0 pid w' := by
  have hrun : World.Running w' pid := he.running h.toRunning
  cases he with
  | same hsame =>
      refine ⟨hrun, fun cmd => ?_, fun i hi => ?_⟩
      · rw [hsame.1]; exact h.table cmd
      · rw [hsame.2.1]; exact h.others i hi
  | touch hpr hkeeps => exact ⟨hrun, h.table, fun i hi => (if_neg hi).trans (h.others i hi)⟩
  | @take w1 pr flags hnum hlow hhigh hro hdrop hpr =>
      -- the slot was not another's, so there is no looser
      have hown : ∀ q, (w0.cmdPointers (registerCmd vx g)).ptr ≠ .process q :=
        fun q hq => hfree ⟨⟨hnum, hlow, hhigh⟩, q, hq⟩
      have hsame : w1 = w := by
        rcases dropLooser_cases hdrop with ⟨heq, -⟩ | ⟨q, -, hptr, hne, -⟩
        · exact heq
        · rcases h.table (registerCmd vx g) with heq | ⟨-, hmine⟩
          · rw [heq] at hptr; exact absurd hptr (hown q)
          · rw [hmine] at hptr; exact absurd (CmdPtr.process.inj hptr).symm hne
      subst hsame
      refine ⟨hrun, fun cmd => ?_, fun i hi => (if_neg hi).trans (h.others i hi)⟩
      show (if cmd = registerCmd vx g then processEntry pid flags else w1.cmdPointers cmd) = _ ∨
        _ ∧ (if cmd = registerCmd vx g then processEntry pid flags else w1.cmdPointers cmd).ptr = _
      split
      · next heq =>
          refine .inr ⟨?_, rfl⟩
          rw [h.isRo_iff] at hro
          rw [heq]
          exact (h0.slots _ hro).resolve_right fun ⟨q, fl, hq, _⟩ => hown q (by rw [hq]; rfl)
      · exact h.table cmd
  | @give pr cmd hro hptr hpr =>
      refine ⟨hrun, fun c => ?_, fun i hi => (if_neg hi).trans (h.others i hi)⟩
      show (if c = cmd then {} else w.cmdPointers c) = _ ∨
        _ ∧ (if c = cmd then ({} : CmdEntry) else w.cmdPointers c).ptr = _
      split
      · next heq =>
          refine .inl ?_
          rw [heq]
          rcases h.table cmd with hsame | ⟨hempty, -⟩
          · rw [hsame] at hptr
            exact absurd hnew (h0.slot_process hptr).2
          · exact hempty.symm
      · exact h.table c

theorem Untouched.processFree (h : Untouched w0 pid w) (h0 : World.Inv w0)
    (hnew : w0.procs pid = none) :
    (w.processFree pid).cmdPointers = w0.cmdPointers ∧ (w.processFree pid).procs = w0.procs := by
  constructor
  · refine (h.unregisterAll pid).trans (funext fun cmd => ?_)
    rcases h.table cmd with hsame | ⟨hempty, hmine⟩
    · rw [hsame]
      exact if_neg fun hptr => (h0.slot_process hptr).2 hnew
    · rw [if_pos hmine, hempty]
  · funext i
    show (if i = pid then none else w.procs i) = w0.procs i
    split
    · next heq => rw [heq, hnew]
    · next hne => exact h.others i hne

theorem SysEffect.robbed {g : γ} (he : SysEffect vx pid g w w') (hrun : World.Running w pid)
    (h : Robbed w0 pid w) : Robbed w0 pid w' := by
  obtain ⟨cmd, q, h0, hnow⟩ := h
  refine ⟨cmd, q, h0, ?_⟩
  cases he with
  | same hsame => rw [hsame.1]; exact hnow
  | touch _ _ => exact hnow
  | @take w1 pr flags _ _ _ _ hdrop _ =>
      show (if cmd = registerCmd vx g then processEntry pid flags else w1.cmdPointers cmd).ptr = _ ∨
        (if cmd = registerCmd vx g then processEntry pid flags else w1.cmdPointers cmd).ptr = _
      split
      · exact .inl rfl
      · rcases dropLooser_cases hdrop with ⟨rfl, -⟩ | ⟨p, prp, -, hne, -, ⟨-, rfl⟩ | ⟨-, rfl⟩⟩
        · exact hnow
        · rw [show (w.processFree p).cmdPointers = _ from hrun.unregisterAll p]
          simp only []
          split
          · exact .inr rfl
          · exact hnow
        · exact hnow
  | @give pr c hro hptr hpr =>
      show (if cmd = c then ({} : CmdEntry) else w.cmdPointers cmd).ptr = _ ∨
        (if cmd = c then ({} : CmdEntry) else w.cmdPointers cmd).ptr = _
      split
      · exact .inr rfl
      · exact hnow

theorem Robbed.processFree (h : Robbed w0 pid w) (hw : World.Inv w) (h0 : World.Inv w0)
    (hnew : w0.procs pid = none) : (w.processFree pid).cmdPointers ≠ w0.cmdPointers := by
  obtain ⟨cmd, q, hbefore, hnow⟩ := h
  have hne : q ≠ pid := by
    rintro rfl
    exact (h0.slot_process hbefore).2 hnew
  have hafter : ((w.processFree pid).cmdPointers cmd).ptr = .null := by
    rw [show (w.processFree pid).cmdPointers = _ from hw.unregisterAll pid]
    simp only []
    split
    · rfl
    · next hother => exact hnow.resolve_left hother
  intro heq
  rw [heq, hbefore] at hafter
  cases hafter

/-- After a call of `st_register` the command is the caller's, unless it is
builtin. -/
theorem doSyscall_registers {s s' : Sys σ γ} (h : World.Running s.world pid)
    (hreg : Registers vx s.guest)
    (hro : (s.world.cmdPointers (registerCmd vx s.guest)).isRo = false)
    (hs : doSyscall api vx pid s = some s') :
    (s'.world.cmdPointers (registerCmd vx s.guest)).ptr = .process pid := by
  unfold doSyscall at hs
  rw [hreg.num] at hs
  split at hs
  · cases hs
  · next s1 hs1 =>
      cases hs
      have hs1 : syscallRegister vx pid { s with next := .continue } = some s1 := hs1
      unfold syscallRegister at hs1
      simp only [] at hs1
      rw [if_neg (not_or.mpr ⟨hreg.low, hreg.high⟩)] at hs1
      split at hs1
      · cases hs1
      · next w hw =>
          have hfree := ((dropLooser_running h hw).isRo_iff (registerCmd vx s.guest)).trans
            (h.isRo_iff (registerCmd vx s.guest)).symm
          rw [hro] at hfree
          split at hs1
          · cases hs1
          · rw [show (asInt (vx.reg s.guest .edx)).toNat.toUInt8 = registerCmd vx s.guest from rfl,
              commandRegister, hfree, if_neg Bool.false_ne_true] at hs1
            cases hs1
            exact congrArg CmdEntry.ptr (if_pos rfl)

theorem Calls.untouched {gs : List γ} (hcalls : Calls api vx pid w gs w') (h0 : World.Inv w0)
    (hnew : w0.procs pid = none) (hfree : ∀ g ∈ gs, ¬ TakesFrom vx w0 g)
    (h : Untouched w0 pid w) : Untouched w0 pid w' := by
  induction hcalls with
  | nil w => exact h
  | @cons s s1 gs w hcall hrest ih =>
      have he := doSyscall_effect api vx h.toRunning hcall
      exact ih (fun g hg => hfree g (List.mem_cons_of_mem _ hg))
        (he.untouched h0 hnew h (hfree s.guest List.mem_cons_self))

theorem Calls.robbed {gs : List γ} (hcalls : Calls api vx pid w gs w') (h0 : World.Inv w0)
    (hrun : World.Running w pid)
    (h : Robbed w0 pid w ∨ ∃ g ∈ gs, TakesFrom vx w0 g) : Robbed w0 pid w' := by
  induction hcalls with
  | nil w => exact h.resolve_right fun ⟨_, hg, _⟩ => nomatch hg
  | @cons s s1 gs w hcall hrest ih =>
      have he := doSyscall_effect api vx hrun hcall
      refine ih (he.running hrun) ?_
      rcases h with hrobbed | ⟨g, hg, htakes⟩
      · exact .inl (he.robbed hrun hrobbed)
      · rcases List.mem_cons.mp hg with rfl | hg
        · obtain ⟨hreg, q, hq⟩ := htakes
          have hro := hrun.isRo_iff (registerCmd vx s.guest)
          rw [(h0.slot_process hq).1] at hro
          exact .inl ⟨_, q, hq, .inl (doSyscall_registers hrun hreg hro hcall)⟩
        · exact .inr ⟨g, hg, htakes⟩

theorem Calls.running {gs : List γ} (hcalls : Calls api vx pid w gs w')
    (hrun : World.Running w pid) : World.Running w' pid := by
  induction hcalls with
  | nil w => exact hrun
  | cons hcall hrest ih => exact ih (doSyscall_running api vx hrun hcall)

end Takes

/-! ## The command

It gives up in front of the first run, or behind it. In front of it nothing has happened
but that a process was made and freed again. Behind it the process is freed with all it
has registered, which are commands that were free before if it was `Untouched`. -/

section CodeLoad

variable {σ γ : Type} (api : StStorageApi σ) (vx : Vx γ) (cfg : Config γ)

/-- CODE_LOAD gets as far as running the program `g`. -/
structure Started (w : World σ γ) (req : StReq) (res : StRes) (g : γ) : Prop where
  accepted : ¬ (req.extras ≠ [] ∨ req.key = [] ∨ req.value = [])
  enabled : ¬ cfg.vx32Disabled = true
  unknown : w.findProcess req.key = some none
  saved : cfg.writeFile (pluginFile cfg req.key ".c") req.value = none
  compiled : ¬ (processCompile cfg (pluginFile cfg req.key ".c") (pluginFile cfg req.key ".elf")
    req.value res.bufSz).1 ≠ 0
  loaded : cfg.loadElf (pluginFile cfg req.key ".elf") req.value = some g

/-- The system calls of the first run. -/
def firstCalls (w : World σ γ) (io : Io) (key : Bytes) (g : γ) : List γ :=
  callsLoop api vx w.nextProc (cfg.syscallLimit * io.requests + 128 + 1).toNat false
    { world := (w.processNew key).setProc w.nextProc (some { key := key, machine := some g })
      io := io
      guest := g }

variable {api vx cfg} {w w' : World σ γ} {io io' : Io} {req : StReq} {res res' : StRes}

/-- What is left of a CODE_LOAD that failed. -/
theorem cmdCodeLoad_failed
    (hrun : cmdCodeLoad api vx cfg w io req res = some (w', io', res'))
    (hfail : res'.status ≠ memcacheStatusOk) :
    ((∀ g, ¬ Started cfg w req res g) ∧
        (w' = w ∨ w' = (w.processNew req.key).processFree w.nextProc)) ∨
      ∃ g w1, Started cfg w req res g ∧
        Calls api vx w.nextProc
          ((w.processNew req.key).setProc w.nextProc (some { key := req.key, machine := some g }))
          (firstCalls api vx cfg w io req.key g) w1 ∧
        w' = w1.processFree w.nextProc := by
  unfold cmdCodeLoad at hrun
  split at hrun
  · next hbad => exact .inl ⟨fun g hg => hg.accepted hbad, .inl (refuse_same hrun).1⟩
  · next haccepted =>
      split at hrun
      · next hoff => exact .inl ⟨fun g hg => hg.enabled hoff, .inl (refuse_same hrun).1⟩
      · next hon =>
          split at hrun
          · cases hrun
          · next hknown =>
              refine .inl ⟨fun g hg => ?_, .inl (refuse_same hrun).1⟩
              have hunknown := hg.unknown
              rw [hknown] at hunknown
              cases hunknown
          · next hunknown =>
              simp only [] at hrun
              split at hrun
              · next herr =>
                  cases hrun
                  refine .inl ⟨fun g hg => ?_, .inl rfl⟩
                  have hsaved := hg.saved
                  rw [herr] at hsaved
                  cases hsaved
              · next hsaved =>
                  split at hrun
                  · next hbad => cases hrun; exact .inl ⟨fun g hg => hg.compiled hbad, .inl rfl⟩
                  · next hcompiled =>
                      split at hrun
                      · next hnone =>
                          cases hrun
                          refine .inl ⟨fun g hg => ?_, .inr rfl⟩
                          have hloaded := hg.loaded
                          rw [hnone] at hloaded
                          cases hloaded
                      · next g hloaded =>
                          split at hrun
                          · cases hrun
                          · next w1 io1 r hr =>
                              split at hrun
                              · cases hrun
                                obtain ⟨pr1, g1, s, pr2, hpr1, hg1, hs, -, rfl, -, -⟩ :=
                                  processRun_loop _ _ hr
                                rw [procs_setProc_self] at hpr1
                                cases hpr1
                                cases hg1
                                refine .inr ⟨g, s.world, ⟨haccepted, hon, hunknown, hsaved,
                                  hcompiled, hloaded⟩, processRunLoop_calls _ _ hs, ?_⟩
                                exact processFree_setProc _ _ _
                              · cases hrun
                                exact absurd rfl hfail

theorem untouched_new (h : World.Inv w) (key : Bytes) (pr : Process γ) :
    Untouched w w.nextProc ((w.processNew key).setProc w.nextProc (some pr)) where
  toRunning := (h.processNew key).setProc (h.processNew key).alive pr
  table := fun _ => .inl rfl
  others := fun _ hi => (if_neg hi).trans (if_neg hi)

theorem processNew_processFree (h : World.Inv w) (key : Bytes) :
    ((w.processNew key).processFree w.nextProc).cmdPointers = w.cmdPointers ∧
      ((w.processNew key).processFree w.nextProc).procs = w.procs := by
  have hfree := (untouched_new h key { key := key }).processFree h (h.fresh _ (Nat.le_refl _))
  rwa [processFree_setProc] at hfree

/-- A CODE_LOAD that is not answered with OK leaves commands and processes as
they were exactly when the program has not registered, in its first run, a
command that a process had. -/
theorem codeLoad_failure_iff (api : StStorageApi σ) (vx : Vx γ) (cfg : Config γ) (h : World.Inv w)
    (hrun : cmdCodeLoad api vx cfg w io req res = some (w', io', res'))
    (hfail : res'.status ≠ memcacheStatusOk) :
    (w'.cmdPointers = w.cmdPointers ∧ w'.procs = w.procs) ↔
      ∀ g, Started cfg w req res g →
        ∀ call ∈ firstCalls api vx cfg w io req.key g, ¬ TakesFrom vx w call := by
  have hnew := h.fresh w.nextProc (Nat.le_refl _)
  rcases cmdCodeLoad_failed hrun hfail with ⟨hnot, rfl | rfl⟩ | ⟨g, w1, hstarted, hcalls, rfl⟩
  · exact ⟨fun _ g hg => absurd hg (hnot g), fun _ => ⟨rfl, rfl⟩⟩
  · exact ⟨fun _ g hg => absurd hg (hnot g), fun _ => processNew_processFree h req.key⟩
  · have hstart := untouched_new h req.key { key := req.key, machine := some g }
    constructor
    · rintro ⟨htab, -⟩ g' hg' call hcall htakes
      have hg : g' = g := Option.some.inj (hg'.loaded.symm.trans hstarted.loaded)
      subst hg
      have hrobbed := hcalls.robbed h hstart.toRunning (.inr ⟨call, hcall, htakes⟩)
      exact hrobbed.processFree (hcalls.running hstart.toRunning).toInv h hnew htab
    · intro hfree
      exact (hcalls.untouched h hnew (hfree g hstarted) hstart).processFree h hnew

end CodeLoad

/-! ### Three programs -/

/-- Two programs register 0x80; one of them then waits for requests, the other exits. The
third registers 0x81, and exits. -/
def uploadConfig : Config (List (Reg → Nat)) where
  gccCommand := fun _ _ _ => []
  writeFile := fun _ _ => none
  system := fun _ _ => (0, none)
  loadElf := fun _ source =>
    if source = ascii "waits" then
      some [fun _ => 0, callWith 0xFF00 0x80 0, callWith 0xFF02 0 maxRequestSize]
    else if source = ascii "beside" then
      some [fun _ => 0, callWith 0xFF00 0x81 0, callWith 0x01 0 0]
    else some [fun _ => 0, callWith 0xFF00 0x80 0, callWith 0x01 0 0]

def uploadReq (key source : String) : StReq where
  opcode := memcacheXcmdCodeLoad
  status := 0
  opaqueId := 0
  cas := 0
  extras := []
  key := ascii key
  value := ascii source

def uploadRes : StRes := { opcode := memcacheXcmdCodeLoad, opaqueId := 0, bufSz := 8192 }

def upload (w : World Unit (List (Reg → Nat))) (key source : String) :
    Option (Reply Unit (List (Reg → Nat))) :=
  cmdCodeLoad emptyEngine (scriptVx []) uploadConfig w {} (uploadReq key source) uploadRes

/-- One process is there, with 0x80, and a second one fails beside it. -/
theorem codeLoad_failure_iff_beside :
    ∃ w io res w' io' res', upload { store := () } "p" "waits" = some (w, io, res) ∧
      (w.cmdPointers 0x80).ptr = .process 0 ∧ upload w "q" "beside" = some (w', io', res') ∧
      (w'.cmdPointers 0x80).ptr = .process 0 ∧
      ((w'.cmdPointers = w.cmdPointers ∧ w'.procs = w.procs) ↔
        ∀ g, Started uploadConfig w (uploadReq "q" "beside") uploadRes g →
          ∀ call ∈ firstCalls emptyEngine (scriptVx []) uploadConfig w {} (ascii "q") g,
          ¬ TakesFrom (scriptVx []) w call) := by
  have h : ((upload { store := () } "p" "waits").bind fun r =>
      (upload r.1 "q" "beside").map fun r' =>
      (r'.2.2.status, (r.1.cmdPointers 0x80).ptr, (r'.1.cmdPointers 0x80).ptr))
        = some (memcacheStatusItemNotStored, .process 0, .process 0) := by
    decide +kernel
  obtain ⟨⟨w, io, res⟩, hfirst, hsecond⟩ := Option.bind_eq_some_iff.mp h
  obtain ⟨⟨w', io', res'⟩, hrun, hview⟩ := Option.map_eq_some_iff.mp hsecond
  simp only [Prod.mk.injEq] at hview
  obtain ⟨hfail, hbefore, hafter⟩ := hview
  have hinv : World.Inv w := cmdCodeLoad_inv _ _ _ (World.inv_start ()) hfirst
  refine ⟨w, io, res, w', io', res', hfirst, hbefore, hrun, hafter, ?_⟩
  exact codeLoad_failure_iff emptyEngine (scriptVx []) uploadConfig hinv hrun
    (by rw [hfail]; decide)

/-- A program that waits is freed by one that exits. -/
theorem codeLoad_failure_takeover :
    ∃ w io res w' io' res', upload { store := () } "p" "waits" = some (w, io, res) ∧
      res.status = memcacheStatusOk ∧ upload w "q" "exits" = some (w', io', res') ∧
      res'.status ≠ memcacheStatusOk ∧
      ¬ (w'.cmdPointers = w.cmdPointers ∧ w'.procs = w.procs) := by
  have h : ((upload { store := () } "p" "waits").bind fun r =>
      (upload r.1 "q" "exits").map fun r' =>
      (r.2.2.status, r'.2.2.status, (r.1.cmdPointers 0x80).ptr, (r'.1.cmdPointers 0x80).ptr))
        = some (memcacheStatusOk, memcacheStatusItemNotStored, .process 0, .null) := by
    decide +kernel
  obtain ⟨⟨w, io, res⟩, hfirst, hsecond⟩ := Option.bind_eq_some_iff.mp h
  obtain ⟨⟨w', io', res'⟩, hrun, hview⟩ := Option.map_eq_some_iff.mp hsecond
  simp only [Prod.mk.injEq] at hview
  obtain ⟨hok, hfail, hbefore, hafter⟩ := hview
  refine ⟨w, io, res, w', io', res', hfirst, hok, hrun, by rw [hfail]; decide, ?_⟩
  rintro ⟨htab, -⟩
  rw [htab, hbefore] at hafter
  cases hafter

end Smalltable.Proofs
