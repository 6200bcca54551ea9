import Smalltable.Proofs.IoMoves
import Smalltable.Ref.Lifecycle

/-!
# The life of the processes, and the table they leave

`LifeMove` says once what a step of `lifeStep` can do; the invariants of the
processes are case analyses of it. The first is that the table can be followed
at any time: a slot is builtin and untouched, or empty, or marked as a process
and pointing to one that is alive and loaded.

The machine is an account of the server and not beside it: whatever a batch
does to table and processes is a run of it (`processMulti_life`).
-/

namespace Smalltable.Proofs

open Smalltable.Ref

section Moves

variable {σ γ : Type} (api : StStorageApi σ) (vx : Vx γ)

/-- What an event does to the server. -/
inductive LifeMove (l : Life σ γ) : LifeEvent σ γ → Life σ γ → Prop
  | stillborn {io : Io} {key : Bytes} (hidle : l.active = none)
      (hkey : l.world.findProcess key = some none) :
      LifeMove l (.codeLoad io key none)
        { world := (l.world.processNew key).processFree l.world.nextProc }
  | born {io : Io} {key : Bytes} {g : γ} (hidle : l.active = none)
      (hkey : l.world.findProcess key = some none) :
      LifeMove l (.codeLoad io key (some g))
        { world := (l.world.processNew key).setProc l.world.nextProc
            (some { key := key, machine := some g })
          active := some ⟨l.world.nextProc, io, false⟩ }
  | unloaded {key : Bytes} {pid : Nat} (hidle : l.active = none)
      (hkey : l.world.findProcess key = some (some pid)) :
      LifeMove l (.codeUnload key) { world := l.world.processFree pid }
  | overrun {io : Io} {pid : Nat} {reqBuf : Bytes} {pr : Process γ} (hidle : l.active = none)
      (hpr : l.world.procs pid = some pr) (hlong : pr.userBufSz < reqBuf.length) :
      LifeMove l (.callback io pid reqBuf) { world := l.world.processFree pid }
  | woken {io : Io} {pid : Nat} {reqBuf : Bytes} {pr : Process γ} {g : γ}
      (hidle : l.active = none) (hpr : l.world.procs pid = some pr)
      (hfits : ¬ pr.userBufSz < reqBuf.length) (hg : pr.machine = some g) :
      LifeMove l (.callback io pid reqBuf)
        { world := l.world.setProc pid (some { pr with
            machine := some (vx.setReg (vx.write g pr.userBuf reqBuf) .eax reqBuf.length)
            sendBuf := some io.conn
            sendSz := 0 })
          active := some ⟨pid, io, true⟩ }
  | called {a : Activation} {g : γ} {s : Sys σ γ} (hactive : l.active = some a)
      (hcall : doSyscall api vx a.pid { world := l.world, io := a.io, guest := g } = some s)
      (hnext : s.next = .continue) :
      LifeMove l (.syscall g) { world := s.world, active := some { a with io := s.io } }
  | rested {a : Activation} {g : γ} {s : Sys σ γ} {pr : Process γ} (hactive : l.active = some a)
      (hcall : doSyscall api vx a.pid { world := l.world, io := a.io, guest := g } = some s)
      (hnext : s.next = .yield) (hpr : s.world.procs a.pid = some pr)
      (hanswer : ¬ (a.serving ∧ pr.sendSz = 0)) :
      LifeMove l (.syscall g)
        { world := s.world.setProc a.pid (some { pr with machine := some s.guest }) }
  | ended {a : Activation} {g : γ} {s : Sys σ γ} (hactive : l.active = some a)
      (hcall : doSyscall api vx a.pid { world := l.world, io := a.io, guest := g } = some s)
      (hnext : s.next ≠ .continue) :
      LifeMove l (.syscall g) { world := s.world.processFree a.pid }
  | killed {a : Activation} (hactive : l.active = some a) :
      LifeMove l .killed { world := l.world.processFree a.pid }
  | data {store : σ} {n : Nat} (hidle : l.active = none) :
      LifeMove l (.data store n)
        { l with world := { l.world with store := store, uniqueNumber := n } }

theorem processFree_setProc (w : World σ γ) (pid : Nat) (pr : Option (Process γ)) :
    (w.setProc pid pr).processFree pid = w.processFree pid := by
  have hprocs : (fun i => if i = pid then none else if i = pid then pr else w.procs i)
      = fun i => if i = pid then none else w.procs i := by
    funext i
    split <;> rfl
  simp only [World.processFree, World.setProc, hprocs]

theorem lifeStep_move {l l' : Life σ γ} {e : LifeEvent σ γ} (h : lifeStep api vx l e = some l') :
    LifeMove api vx l e l' := by
  cases e with
  | codeLoad io key elf =>
      simp only [lifeStep, startLoad] at h
      split at h
      · next hidle hkey =>
          split at h
          · cases h; exact .stillborn hidle hkey
          · cases h; exact .born hidle hkey
      · cases h
  | codeUnload key =>
      simp only [lifeStep, unloadProcess] at h
      split at h
      · next hidle hkey => cases h; exact .unloaded hidle hkey
      · cases h
  | callback io pid reqBuf =>
      simp only [lifeStep, startGroup] at h
      split at h
      · next hidle hpr =>
          split at h
          · next hlong => cases h; exact .overrun hidle hpr hlong
          · next hfits =>
              split at h
              · cases h
              · next hg => cases h; exact .woken hidle hpr hfits hg
      · cases h
  | syscall g =>
      simp only [lifeStep, trapSyscall] at h
      split at h
      · cases h
      · next a hactive =>
          split at h
          · cases h
          · next s hcall =>
              split at h
              · next hnext => cases h; exact .called hactive hcall hnext
              · next hnext =>
                  unfold yieldProcess at h
                  split at h
                  · cases h
                  · next pr hpr =>
                      simp only [] at h
                      split at h
                      · cases h
                        rw [processFree_setProc]
                        exact .ended hactive hcall (by simp [hnext])
                      · next hanswer => cases h; exact .rested hactive hcall hnext hpr hanswer
              · next hcont _ => cases h; exact .ended hactive hcall hcont
  | killed =>
      simp only [lifeStep, killProcess] at h
      split at h
      · cases h
      · next a hactive => cases h; exact .killed hactive
  | data store n =>
      simp only [lifeStep] at h
      split at h
      · next hidle => cases h; exact .data (Option.isNone_iff_eq_none.mp hidle)
      · cases h

/-- What a process does that is allowed to wait. -/
structure Waits (pid : Nat) (w : World σ γ) (g : γ) (s : Sys σ γ) : Prop where
  num : vx.reg g .eax = 0xFF02
  writable : vx.checkperm g (vx.reg g .edx) (vx.reg g .ecx) .write = true
  room : ¬ asInt (vx.reg g .ecx) < maxRequestSize
  world : ∃ pr, w.procs pid = some pr ∧ pr.registercnt ≠ 0 ∧
    s.world = w.setProc pid (some { pr with
      userBuf := vx.reg g .edx
      userBufSz := asInt (vx.reg g .ecx) })

theorem syscallReadrequests_yield {pid : Nat} {s s' : Sys σ γ} (hnum : vx.reg s.guest .eax = 0xFF02)
    (hs : syscallReadrequests vx pid s = some s') (hcont : s.next = .continue)
    (hnext : s'.next = .yield) : Waits vx pid s.world s.guest s' := by
  unfold syscallReadrequests withProc at hs
  split at hs
  · cases hs
  · next pr hpr =>
      simp only [] at hs
      split at hs
      · cases hs; rw [hcont] at hnext; cases hnext
      · next hcnt =>
          split at hs
          · cases hs; rw [hcont] at hnext; cases hnext
          · next hperm =>
              split at hs
              · cases hs; cases hnext
              · next hlen =>
                  cases hs
                  exact ⟨hnum, by simpa using hperm, hlen, pr, hpr, hcnt, rfl⟩

/-- The other calls never yield. -/
theorem doSyscall_yield {pid : Nat} {s s' : Sys σ γ} (hs : doSyscall api vx pid s = some s')
    (hnext : s'.next = .yield) : Waits vx pid s.world s.guest s' := by
  unfold doSyscall at hs
  split at hs
  · cases hs
  · next s1 hs1 =>
      cases hs
      have hnext : s1.next = .yield := hnext
      unfold syscalls at hs1
      split at hs1
      case h_6 hnum =>
        obtain ⟨-, hperm, hroom, hworld⟩ := syscallReadrequests_yield vx
          (s := { s with next := .continue }) hnum hs1 rfl hnext
        exact ⟨hnum, hperm, hroom, hworld⟩
      all_goals
        simp only [syscallExit, syscallBrk, syscallWrite, syscallRegister, syscallUnregister,
          syscallWriteresponses, syscallStGet, syscallStPrefetch, syscallStSet, syscallStDel,
          syscallStGetrandom, withProc] at hs1
        repeat' split at hs1
        all_goals
          cases hs1
          try cases hnext

theorem doSyscall_yield_io {pid : Nat} {s s' : Sys σ γ} (hs : doSyscall api vx pid s = some s')
    (hnext : s'.next = .yield) : s'.io = s.io := by
  have hnum := (doSyscall_yield api vx hs hnext).num
  unfold doSyscall at hs
  split at hs
  · cases hs
  · next s1 hs1 =>
      cases hs
      rw [hnum] at hs1
      have hno : (0xFF02 : Nat) ≠ 0xFF03 := by decide
      have hio := syscalls_io api vx hno hs1
      exact hio

/-! ## The invariant

A process is alive from the time it is made until it is freed, and as long as it runs no
other one does. Every event keeps the invariant of the table, so it holds in every state
of a run. -/

/-- The table can be followed, the running process is alive, and every process
has its program. -/
structure LifeInv (l : Life σ γ) : Prop where
  inv : World.Inv l.world
  active : ∀ a ∈ l.active, l.world.procs a.pid ≠ none
  loaded : ∀ pid pr, l.world.procs pid = some pr → pr.machine ≠ none

theorem lifeInv_start (store : σ) : LifeInv (lifeStart store : Life σ γ) :=
  ⟨World.inv_start store, fun a ha => absurd ha (Option.not_mem_none a),
    fun _ _ h => absurd h (Option.some_ne_none _).symm⟩

variable {api vx}

/-- Every process has its program. -/
abbrev Loaded (w : World σ γ) : Prop := ∀ pid pr, w.procs pid = some pr → pr.machine ≠ none

theorem Loaded.setProc {w : World σ γ} (h : Loaded w) {pid : Nat} {pr : Process γ}
    (hpr : pr.machine ≠ none) : Loaded (w.setProc pid (some pr)) := by
  intro i p hi
  have hi : (if i = pid then some pr else w.procs i) = some p := hi
  split at hi
  · cases hi; exact hpr
  · exact h i p hi

theorem Loaded.processFree {w : World σ γ} (h : Loaded w) (pid : Nat) :
    Loaded (w.processFree pid) := by
  intro i p hi
  have hi : (if i = pid then none else w.procs i) = some p := hi
  split at hi
  · cases hi
  · exact h i p hi

theorem dropLooser_loaded {w w' : World σ γ} {pid : Nat} {e : CmdEntry} (h : Loaded w)
    (hd : dropLooser w pid e = some w') : Loaded w' := by
  rcases dropLooser_cases hd with ⟨rfl, -⟩ | ⟨q, pr, -, -, hpr, hcase⟩
  · exact h
  · rcases hcase with ⟨-, rfl⟩ | ⟨-, rfl⟩
    · exact h.processFree q
    · exact h.setProc (show pr.machine ≠ none from h q pr hpr)

theorem SysEffect.loaded {pid : Nat} {g : γ} {w w' : World σ γ} (he : SysEffect vx pid g w w')
    (h : Loaded w) : Loaded w' := by
  cases he with
  | same hsame =>
      intro i p hi
      rw [hsame.2.1] at hi
      exact h i p hi
  | touch hpr hkeeps => exact h.setProc (by rw [hkeeps.machine]; exact h pid _ hpr)
  | @take w1 pr flags _ _ _ _ hdrop hpr =>
      have h1 := dropLooser_loaded h hdrop
      exact h1.setProc (show pr.machine ≠ none from h1 pid pr hpr)
  | @give pr cmd _ _ hpr => exact h.setProc (show pr.machine ≠ none from h pid pr hpr)

/-- What is needed to go on: the table can be followed, and the running process is
alive. -/
structure LifeSafe (l : Life σ γ) : Prop where
  inv : World.Inv l.world
  active : ∀ a ∈ l.active, l.world.procs a.pid ≠ none

theorem lifeSafe_idle {w : World σ γ} (h : World.Inv w) : LifeSafe ({ world := w } : Life σ γ) :=
  ⟨h, fun a ha => absurd ha (Option.not_mem_none a)⟩

/-- The process that makes a system call is alive and stays so. -/
theorem LifeSafe.call {l : Life σ γ} (h : LifeSafe l) {a : Activation} {g : γ} {s : Sys σ γ}
    (hactive : l.active = some a)
    (hcall : doSyscall api vx a.pid { world := l.world, io := a.io, guest := g } = some s) :
    World.Running l.world a.pid ∧ World.Running s.world a.pid := by
  have hrun : World.Running l.world a.pid := ⟨h.inv, h.active a hactive⟩
  exact ⟨hrun, (doSyscall_effect api vx hrun hcall).running hrun⟩

theorem LifeMove.safe {l l' : Life σ γ} {e : LifeEvent σ γ} (hmove : LifeMove api vx l e l')
    (h : LifeSafe l) : LifeSafe l' := by
  have hnew : ∀ (key : Bytes) (g : γ), World.Running ((l.world.processNew key).setProc
      l.world.nextProc (some { key := key, machine := some g })) l.world.nextProc :=
    fun key g => (h.inv.processNew key).setProc (h.inv.processNew key).alive _
  cases hmove with
  | @stillborn io key hidle hkey =>
      exact lifeSafe_idle ((h.inv.processNew key).toInv.processFree l.world.nextProc)
  | @born io key g hidle hkey =>
      refine ⟨(hnew key g).toInv, ?_⟩
      intro a ha
      cases ha
      exact (hnew key g).alive
  | @unloaded key pid _ _ => exact lifeSafe_idle (h.inv.processFree pid)
  | @overrun io pid reqBuf pr _ _ _ => exact lifeSafe_idle (h.inv.processFree pid)
  | @woken io pid reqBuf pr g hidle hpr hfits hg =>
      have hrun : World.Running l.world pid := ⟨h.inv, by rw [hpr]; exact Option.some_ne_none pr⟩
      have hrun' := hrun.setProc hrun.alive { pr with
        machine := some (vx.setReg (vx.write g pr.userBuf reqBuf) .eax reqBuf.length)
        sendBuf := some io.conn
        sendSz := 0 }
      refine ⟨hrun'.toInv, ?_⟩
      intro a ha
      cases ha
      exact hrun'.alive
  | called hactive hcall _ =>
      obtain ⟨-, hrun⟩ := h.call hactive hcall
      refine ⟨hrun.toInv, ?_⟩
      intro a ha
      cases ha
      exact hrun.alive
  | @rested a g s pr hactive hcall _ hpr _ =>
      obtain ⟨-, hrun⟩ := h.call hactive hcall
      exact lifeSafe_idle (hrun.setProc hrun.alive { pr with machine := some s.guest }).toInv
  | @ended a g s hactive hcall _ =>
      obtain ⟨-, hrun⟩ := h.call hactive hcall
      exact lifeSafe_idle (hrun.toInv.processFree a.pid)
  | @killed a hactive => exact lifeSafe_idle (h.inv.processFree a.pid)
  | data hidle => exact ⟨h.inv.of_eq rfl rfl rfl, h.active⟩

theorem LifeMove.loaded {l l' : Life σ γ} {e : LifeEvent σ γ} (hmove : LifeMove api vx l e l')
    (h : LifeSafe l) (hloaded : Loaded l.world) : Loaded l'.world := by
  have hcalled : ∀ {a : Activation} {g : γ} {s : Sys σ γ}, l.active = some a →
      doSyscall api vx a.pid { world := l.world, io := a.io, guest := g } = some s →
      Loaded s.world :=
    fun hactive hcall => (doSyscall_effect api vx (h.call hactive hcall).1 hcall).loaded hloaded
  cases hmove with
  | @stillborn io key hidle hkey =>
      intro i p hi
      have hi : (if i = l.world.nextProc then none
        else if i = l.world.nextProc then some _ else l.world.procs i) = some p := hi
      split at hi
      · cases hi
      · exact hloaded i p hi
  | @born io key g hidle hkey =>
      intro i p hi
      have hi : (if i = l.world.nextProc then some _
        else if i = l.world.nextProc then some _ else l.world.procs i) = some p := hi
      split at hi
      · cases hi; exact nofun
      · exact hloaded i p hi
  | @unloaded key pid _ _ => exact hloaded.processFree pid
  | @overrun io pid reqBuf pr _ _ _ => exact hloaded.processFree pid
  | woken _ _ _ _ => exact hloaded.setProc nofun
  | called hactive hcall _ => exact hcalled hactive hcall
  | rested hactive hcall _ _ _ => exact (hcalled hactive hcall).setProc nofun
  | @ended a g s hactive hcall _ => exact (hcalled hactive hcall).processFree a.pid
  | @killed a hactive => exact hloaded.processFree a.pid
  | data hidle => exact hloaded

theorem LifeMove.inv {l l' : Life σ γ} {e : LifeEvent σ γ} (hmove : LifeMove api vx l e l')
    (h : LifeInv l) : LifeInv l' := by
  have hsafe : LifeSafe l := ⟨h.inv, h.active⟩
  exact ⟨(hmove.safe hsafe).inv, (hmove.safe hsafe).active, hmove.loaded hsafe h.loaded⟩

theorem lifeRun_inv {store : σ} {es : List (LifeEvent σ γ)} {l : Life σ γ}
    (h : lifeRun api vx (lifeStart store) es = some l) : LifeInv l := by
  have hok : AllSteps (lifeStep api vx) (fun _ _ => True) (lifeStart store) es :=
    allSteps_of_forall (fun _ _ => trivial) es _
  exact runSteps_invariant (fun _ _ _ hs _ hstep => (lifeStep_move api vx hstep).inv hs)
    (lifeInv_start store) hok h

end Moves

/-! ## What a batch does is a run

`Lives` says that a world has become another one by some run of the machine. A group of
a process is its wakening, the calls it makes and what it ends with; CODE_LOAD is an
upload and the calls of the first run; everything else leaves table and processes alone.
-/

section Batches

variable {σ γ : Type} (api : StStorageApi σ) (vx : Vx γ) (cfg : Config γ)

/-- Between two runs of processes, the events lead from one world to the other. -/
def Lives (w w' : World σ γ) : Prop :=
  ∃ es, lifeRun api vx { world := w } es = some { world := w' }

/-- The running process makes the calls `gs`, with the last of which it goes to wait;
`io'` is what it leaves of the connection, and `l'` what is left then. -/
def CallsUntil (l : Life σ γ) (gs : List γ) (io' : Io) (l' : Life σ γ) : Prop :=
  ∃ before last l1 a, gs = before ++ [last] ∧
    lifeRun api vx l (before.map .syscall) = some l1 ∧ l1.active = some a ∧ a.io = io' ∧
    lifeStep api vx l1 (.syscall last) = some l'

/-- The states of the guest at the system calls of a run. -/
def callsLoop (pid : Nat) : Nat → Bool → Sys σ γ → List γ
  | left, irqSeen, s =>
      match runToTrap vx irqSeen s.guest with
      | (.syscall, g, irqSeen) =>
          match left with
          | 0 => []
          | left + 1 =>
              match doSyscall api vx pid { s with guest := g } with
              | none => []
              | some s =>
                  g ::
                    (match s.next with
                    | .continue => callsLoop pid left irqSeen s
                    | _ => [])
      | _ => []

/-- The system calls of a process that has been started. -/
def runCalls (limit : Int) (pid : Nat) (w : World σ γ) (io : Io) : List γ :=
  match w.procs pid with
  | none => []
  | some pr =>
      match pr.machine with
      | none => []
      | some g =>
          callsLoop api vx pid (limit + 1).toNat false { world := w, io := io, guest := g }

/-- The running process makes the calls `gs` and is freed: by the last of them, or
because it is stopped after it. -/
def CallsAndEnds (l : Life σ γ) (gs : List γ) (w' : World σ γ) : Prop :=
  ∃ tail, (tail = [] ∨ tail = [.killed]) ∧
    lifeRun api vx l (gs.map .syscall ++ tail) = some { world := w' }

variable {api vx}

theorem Lives.refl (w : World σ γ) : Lives api vx w w := ⟨[], rfl⟩

theorem Lives.trans {w w1 w2 : World σ γ} (h1 : Lives api vx w w1) (h2 : Lives api vx w1 w2) :
    Lives api vx w w2 := by
  obtain ⟨es1, h1⟩ := h1
  obtain ⟨es2, h2⟩ := h2
  exact ⟨es1 ++ es2, (runSteps_append h1 es2).trans h2⟩

theorem SameWorld.lives {w w' : World σ γ} (h : SameWorld w w') : Lives api vx w w' := by
  refine ⟨[.data w'.store w'.uniqueNumber], ?_⟩
  obtain ⟨hptrs, hprocs, hnext⟩ := h
  obtain ⟨ptrs, procs, next, num, store⟩ := w'
  cases hptrs
  cases hprocs
  cases hnext
  rfl

section Traps

variable {pid : Nat} {s s1 : Sys σ γ} {g : γ} (serving : Bool)
  (hcall : doSyscall api vx pid { world := s.world, io := s.io, guest := g } = some s1)
include hcall

theorem lifeStep_continue (hnext : s1.next = .continue) :
    lifeStep api vx { world := s.world, active := some ⟨pid, s.io, serving⟩ } (.syscall g)
      = some { world := s1.world, active := some ⟨pid, s1.io, serving⟩ } := by
  simp only [lifeStep, trapSyscall, hcall, hnext]

theorem lifeStep_yield (hnext : s1.next = .yield) :
    lifeStep api vx { world := s.world, active := some ⟨pid, s.io, serving⟩ } (.syscall g)
      = yieldProcess s1 ⟨pid, s.io, serving⟩ := by
  simp only [lifeStep, trapSyscall, hcall, hnext]

theorem lifeStep_ends (hnext : s1.next = .kill ∨ s1.next = .exit) :
    lifeStep api vx { world := s.world, active := some ⟨pid, s.io, serving⟩ } (.syscall g)
      = some { world := s1.world.processFree pid } := by
  rcases hnext with hnext | hnext
  · simp only [lifeStep, trapSyscall, hcall, hnext]
  · simp only [lifeStep, trapSyscall, hcall, hnext]

end Traps

theorem CallsUntil.cons {l l1 l' : Life σ γ} {g : γ} {gs : List γ} {io' : Io}
    (hstep : lifeStep api vx l (.syscall g) = some l1)
    (h : CallsUntil api vx l1 gs io' l') :
    CallsUntil api vx l (g :: gs) io' l' := by
  obtain ⟨before, last, l2, a, rfl, hrun, hrest⟩ := h
  exact ⟨g :: before, last, l2, a, rfl, (runSteps_cons hstep).trans hrun, hrest⟩

theorem CallsUntil.run {l l' : Life σ γ} {gs : List γ} {io' : Io}
    (h : CallsUntil api vx l gs io' l') : lifeRun api vx l (gs.map .syscall) = some l' := by
  obtain ⟨before, last, l1, a, rfl, hrun, -, -, hlast⟩ := h
  rw [List.map_append]
  exact (runSteps_append hrun _).trans ((runSteps_cons hlast).trans rfl)

theorem CallsUntil.ends {l : Life σ γ} {gs : List γ} {io' : Io} {w' : World σ γ}
    (h : CallsUntil api vx l gs io' { world := w' }) : CallsAndEnds api vx l gs w' :=
  ⟨[], .inl rfl, by rw [List.append_nil]; exact h.run⟩

theorem CallsAndEnds.cons {l l1 : Life σ γ} {g : γ} {gs : List γ} {w' : World σ γ}
    (hstep : lifeStep api vx l (.syscall g) = some l1)
    (h : CallsAndEnds api vx l1 gs w') : CallsAndEnds api vx l (g :: gs) w' := by
  obtain ⟨tail, htail, hrun⟩ := h
  exact ⟨tail, htail, (runSteps_cons hstep).trans hrun⟩

theorem CallsAndEnds.killed {w : World σ γ} {a : Activation} :
    CallsAndEnds api vx { world := w, active := some a } [] (w.processFree a.pid) :=
  ⟨[.killed], .inr rfl, rfl⟩

theorem CallsAndEnds.last {l : Life σ γ} {g : γ} {w' : World σ γ}
    (hstep : lifeStep api vx l (.syscall g) = some { world := w' }) :
    CallsAndEnds api vx l [g] w' :=
  ⟨[], .inl rfl, (runSteps_cons hstep).trans rfl⟩

/-- The loop of `process_run` ends with a process that waits, or with one that
will be freed. -/
theorem processRunLoop_life {pid : Nat} (serving : Bool) :
    ∀ (left : Nat) (irqSeen : Bool) {s s' : Sys σ γ},
      processRunLoop api vx pid left irqSeen s = some s' →
      (s'.ret = 0 → ∀ l, yieldProcess s' ⟨pid, s'.io, serving⟩ = some l →
        CallsUntil api vx { world := s.world, active := some ⟨pid, s.io, serving⟩ }
          (callsLoop api vx pid left irqSeen s) s'.io l) ∧
      (s'.ret ≠ 0 →
        CallsAndEnds api vx { world := s.world, active := some ⟨pid, s.io, serving⟩ }
          (callsLoop api vx pid left irqSeen s) (s'.world.processFree pid)) := by
  intro left
  induction left with
  | zero =>
      intro irqSeen s s' h
      rcases htrap : runToTrap vx irqSeen s.guest with ⟨t, g, irqSeen'⟩
      rw [processRunLoop, htrap] at h
      rw [callsLoop, htrap]
      cases t
      all_goals
        cases h
        exact ⟨fun hzero => absurd hzero (by simp), fun _ => .killed⟩
  | succ left ih =>
      intro irqSeen s s' h
      rcases htrap : runToTrap vx irqSeen s.guest with ⟨t, g, irqSeen'⟩
      rw [processRunLoop, htrap] at h
      rw [callsLoop, htrap]
      cases t with
      | syscall =>
          simp only [] at h ⊢
          cases hcall : doSyscall api vx pid { s with guest := g } with
          | none => rw [hcall] at h; cases h
          | some s1 =>
              have hcall' : doSyscall api vx pid { world := s.world, io := s.io, guest := g }
                  = some s1 := hcall
              rw [hcall] at h
              simp only [] at h ⊢
              cases hnext : s1.next with
              | «continue» =>
                  rw [hnext] at h
                  have hstep := lifeStep_continue serving hcall' hnext
                  obtain ⟨hyield, hfree⟩ := ih irqSeen' h
                  exact ⟨fun hzero l hl => (hyield hzero l hl).cons hstep,
                    fun hne => (hfree hne).cons hstep⟩
              | yield =>
                  rw [hnext] at h
                  have hstep := lifeStep_yield serving hcall' hnext
                  cases h
                  refine ⟨fun _ l hl => ?_, fun hne => absurd rfl hne⟩
                  exact ⟨[], g, _, _, rfl, rfl, rfl,
                    (doSyscall_yield_io api vx hcall' hnext).symm, hstep.trans hl⟩
              | kill =>
                  rw [hnext] at h
                  have hstep := lifeStep_ends serving hcall' (.inl hnext)
                  cases h
                  exact ⟨fun hzero => absurd hzero (by simp), fun _ => .last hstep⟩
              | exit =>
                  rw [hnext] at h
                  have hstep := lifeStep_ends serving hcall' (.inr hnext)
                  simp only [] at h
                  unfold withProc at h
                  split at h
                  · cases h
                  · next pr _ =>
                      cases h
                      have hpos : max 1 |pr.exitCode| ≠ 0 := by omega
                      exact ⟨fun hzero => absurd hzero hpos, fun _ => .last hstep⟩
      | irq => cases h; exact ⟨fun hzero => absurd hzero (by simp), fun _ => .killed⟩
      | pagefault => cases h; exact ⟨fun hzero => absurd hzero (by simp), fun _ => .killed⟩
      | other => cases h; exact ⟨fun hzero => absurd hzero (by simp), fun _ => .killed⟩

/-- `process_run` of a process that has just been started. -/
theorem processRun_life {limit : Int} {pid : Nat} {w w' : World σ γ} {io io' : Io} {r : Int}
    (serving : Bool) (h : processRun api vx limit pid w io = some (w', io', r)) :
    (r = 0 → ∀ pr, w'.procs pid = some pr → ¬ (serving ∧ pr.sendSz = 0) →
      CallsUntil api vx { world := w, active := some ⟨pid, io, serving⟩ }
        (runCalls api vx limit pid w io) io' { world := w' }) ∧
    (r ≠ 0 ∨ (serving ∧ ∃ pr, w'.procs pid = some pr ∧ pr.sendSz = 0) →
      CallsAndEnds api vx { world := w, active := some ⟨pid, io, serving⟩ }
        (runCalls api vx limit pid w io) (w'.processFree pid)) := by
  obtain ⟨pr0, g, s, pr, hpr0, hg, hs, hpr, rfl, rfl, rfl⟩ := processRun_loop api vx h
  obtain ⟨hyield, hfree⟩ := processRunLoop_life serving _ _ hs
  have hcalls : runCalls api vx limit pid w io
      = callsLoop api vx pid (limit + 1).toNat false { world := w, io := io, guest := g } := by
    simp only [runCalls, hpr0, hg]
  have hself := procs_setProc_self s.world pid { pr with machine := some s.guest }
  rw [hcalls]
  refine ⟨fun hzero pr' hpr' hanswer => ?_, fun hend => ?_⟩
  · rw [hself] at hpr'
    cases hpr'
    refine hyield hzero _ ?_
    simp only [yieldProcess, hpr]
    exact if_neg hanswer
  · rw [processFree_setProc]
    by_cases hzero : s.ret = 0
    · obtain ⟨hserving, pr', hpr', hnone⟩ := hend.resolve_left fun hne => hne hzero
      rw [hself] at hpr'
      cases hpr'
      refine (hyield hzero { world := s.world.processFree pid } ?_).ends
      simp only [yieldProcess, hpr]
      rw [if_pos ⟨hserving, hnone⟩, processFree_setProc]
    · exact hfree hzero

theorem processRun_alive {limit : Int} {pid : Nat} {w w' : World σ γ} {io io' : Io} {r : Int}
    (h : processRun api vx limit pid w io = some (w', io', r)) : ∃ pr, w'.procs pid = some pr := by
  obtain ⟨-, g, s, pr, -, -, -, -, rfl, -, -⟩ := processRun_loop api vx h
  exact ⟨_, procs_setProc_self _ _ _⟩

theorem processFailed_world {pid : Nat} {w w' : World σ γ} {io io' : Io} {reqBuf : Bytes}
    (h : processFailed pid w io reqBuf = some (w', io')) : w' = w.processFree pid := by
  unfold processFailed at h
  split at h
  · cases h
  · simp only [] at h
    split at h
    · cases h
    · cases h; rfl

/-- The system calls a process makes for a group of requests. -/
def groupCalls (api : StStorageApi σ) (vx : Vx γ) (cfg : Config γ) (w : World σ γ) (io : Io)
    (reqBuf : Bytes) (pid : Nat) : List γ :=
  match startGroup vx { world := w } io pid reqBuf with
  | some ⟨w1, some _⟩ => runCalls api vx (cfg.syscallLimit * io.requests + 128) pid w1 io
  | _ => []

/-- `process_commands_callback` wakes the process, which then makes its calls and
waits or is freed. -/
theorem processCommandsCallback_calls {pid : Nat} {w w' : World σ γ} {io io' : Io} {reqBuf : Bytes}
    (h : processCommandsCallback api vx cfg w io reqBuf pid = some (w', io')) :
    ∃ l, lifeStep api vx { world := w } (.callback io pid reqBuf) = some l ∧
      CallsAndEnds api vx l (groupCalls api vx cfg w io reqBuf pid) w' := by
  unfold processCommandsCallback at h
  split at h
  · cases h
  · next pr hpr =>
      split at h
      · next hlong =>
          have hstart : startGroup vx { world := w } io pid reqBuf
              = some { world := w.processFree pid } := by
            simp [startGroup, hpr, hlong]
          refine ⟨_, hstart, ?_⟩
          rw [processFailed_world h, groupCalls, hstart]
          exact ⟨[], .inl rfl, rfl⟩
      · next hfits =>
          split at h
          · cases h
          · next g hg =>
              simp only [] at h
              split at h
              · cases h
              · next w1 io1 r hrun =>
                  have hstart : startGroup vx { world := w } io pid reqBuf
                      = some {
                        world := w.setProc pid (some { pr with
                          machine := some (vx.setReg (vx.write g pr.userBuf reqBuf) .eax
                            reqBuf.length)
                          sendBuf := some io.conn
                          sendSz := 0 })
                        active := some ⟨pid, io, true⟩ } := by
                    simp [startGroup, hpr, hfits, hg]
                  obtain ⟨hrest, hend⟩ := processRun_life true hrun
                  refine ⟨_, hstart, ?_⟩
                  rw [groupCalls, hstart]
                  simp only []
                  split at h
                  · next hne =>
                      rw [processFailed_world h]
                      exact hend (.inl hne)
                  · next hzero =>
                      split at h
                      · cases h
                      · next pr1 hpr1 =>
                          split at h
                          · next hnone =>
                              rw [processFailed_world h]
                              exact hend (.inr ⟨rfl, pr1, hpr1, hnone⟩)
                          · next hsome =>
                              cases h
                              exact (hrest (not_not.mp hzero) pr1 hpr1
                                fun hbad => hsome hbad.2).ends

theorem processCommandsCallback_life {pid : Nat} {w w' : World σ γ} {io io' : Io} {reqBuf : Bytes}
    (h : processCommandsCallback api vx cfg w io reqBuf pid = some (w', io')) :
    Lives api vx w w' := by
  obtain ⟨l, hstart, tail, -, hrun⟩ := processCommandsCallback_calls cfg h
  exact ⟨_ :: _, (runSteps_cons hstart).trans hrun⟩

theorem cmdCodeLoad_life {w w' : World σ γ} {io io' : Io} {req : StReq} {res res' : StRes}
    (h : cmdCodeLoad api vx cfg w io req res = some (w', io', res')) : Lives api vx w w' := by
  rcases cmdCodeLoad_cases api vx cfg h with
    ⟨rfl, -⟩ | ⟨hkey, rfl, -⟩ | ⟨g, w1, r, hkey, hrun, hend⟩
  · exact .refl w'
  · refine ⟨[.codeLoad io req.key none], ?_⟩
    simp [lifeRun, runSteps, lifeStep, startLoad, hkey]
  · have hstart : lifeStep api vx { world := w } (.codeLoad io req.key (some g))
        = some {
          world := (w.processNew req.key).setProc w.nextProc
            (some { key := req.key, machine := some g })
          active := some ⟨w.nextProc, io, false⟩ } := by
      simp [lifeStep, startLoad, hkey]
    obtain ⟨hrest, hfree⟩ := processRun_life false hrun
    rcases hend with ⟨hne, rfl⟩ | ⟨hzero, rfl⟩
    · obtain ⟨tail, -, hes⟩ := hfree (.inl hne)
      exact ⟨_ :: _, (runSteps_cons hstart).trans hes⟩
    · obtain ⟨pr1, hpr1⟩ := processRun_alive hrun
      exact ⟨_, (runSteps_cons hstart).trans (hrest hzero pr1 hpr1 (by simp)).run⟩

theorem callBuiltin_life {ptr : CmdPtr} {w w' : World σ γ} {io io' : Io} {req : StReq}
    {res res' : StRes} (h : callBuiltin api vx cfg ptr w io req res = some (w', io', res')) :
    Lives api vx w w' := by
  by_cases hload : ptr = .builtin .codeLoad
  · subst hload
    exact cmdCodeLoad_life cfg h
  · by_cases hunload : ptr = .builtin .codeUnload
    · subst hunload
      unfold callBuiltin cmdCodeUnload at h
      simp only [] at h
      split at h
      · rw [(refuse_same h).1]; exact .refl w
      · split at h
        · rw [(refuse_same h).1]; exact .refl w
        · split at h
          · cases h
          · rw [(refuse_same h).1]; exact .refl w
          · next hkey =>
              cases h
              refine ⟨[.codeUnload req.key], ?_⟩
              simp [lifeRun, runSteps, lifeStep, unloadProcess, hkey]
    · exact (callBuiltin_same api vx cfg hload hunload h).lives

theorem builtinCommand_life {ptr : CmdPtr} {w w' : World σ γ} {io io' : Io} {request : Bytes}
    (h : builtinCommand api vx cfg ptr w io request = some (w', io')) : Lives api vx w w' := by
  rcases builtinCommand_cases api vx cfg h with rfl | ⟨_, _, _, _, hcall⟩
  · exact .refl w'
  · exact callBuiltin_life cfg hcall

theorem runGroup_life {g : Group} {w w' : World σ γ} {io io' : Io}
    (h : runGroup api vx cfg g w io = some (w', io')) : Lives api vx w w' := by
  unfold runGroup at h
  split at h
  · cases h; exact .refl w
  · split at h
    · cases h
    · split at h
      · split at h
        · exact processCommandsCallback_life cfg h
        · cases h
      · refine walk_invariant (P := fun st : World σ γ × Io => Lives api vx w st.1) ?_ (.refl w) h
        intro st f st' hst hb
        simp only [Option.map_eq_some_iff] at hb
        rcases hb with ⟨r, hr, hy⟩ | ⟨r, hr, hy⟩
        · cases hy
          exact hst.trans (builtinCommand_life cfg hr)
        · cases hy

/-- Whatever a batch does to table and processes, the machine can do. -/
theorem processMulti_life {w w' : World σ γ} {io io' : Io} {reqBuf : Bytes} {n : Int}
    (h : processMulti api vx cfg w io reqBuf = some (w', io', n)) : Lives api vx w w' := by
  unfold processMulti at h
  simp only [] at h
  split at h
  · cases h
  · next store _ =>
      split at h
      · cases h
      · next d hd =>
          have hsame : SameWorld w { w with store := store } := ⟨rfl, rfl, rfl⟩
          have h1 : Lives api vx w d.world := by
            refine walk_invariant (P := fun d : Dispatch σ γ => Lives api vx w d.world) ?_
              hsame.lives hd
            intro d f d' hlives hb
            simp only [Option.map_eq_some_iff] at hb
            rcases hb with ⟨r, hr, hy⟩ | ⟨r, hr, hy⟩
            · cases hy
              unfold dispatchStep at hr
              simp only [] at hr
              split at hr
              · cases hr; exact hlives
              · split at hr
                · cases hr
                · next w1 io1 hrun =>
                    cases hr
                    exact hlives.trans (runGroup_life cfg hrun)
            · cases hy
          split at h
          · cases h
          · next hrun =>
              cases h
              exact h1.trans (runGroup_life cfg hrun)

end Batches

/-! ## The command table

What was shown of the pointers is said of every slot of the table, whatever has led
there. -/

section Table

variable {σ γ : Type}

/-- A slot that does not belong to the program itself is empty, or it is a
process command, perhaps one that wants its keys fetched, of a live process. -/
structure ProcessSlot (w : World σ γ) (e : CmdEntry) : Prop where
  flags : e.flags = cmdFlagProcess ∨ e.flags = cmdFlagProcess ||| cmdFlagPrefetch
  live : ∃ pid pr, e.ptr = .process pid ∧ w.procs pid = some pr ∧ pr.machine ≠ none

/-- The table, slot by slot. None of the slots is left with a process that is freed. -/
structure TableWellFormed (w : World σ γ) : Prop where
  builtin : ∀ cmd, (cmdPointersInit cmd).isRo = true → w.cmdPointers cmd = cmdPointersInit cmd
  other : ∀ cmd, (cmdPointersInit cmd).isRo = false →
    w.cmdPointers cmd = ⟨.null, 0⟩ ∨ ProcessSlot w (w.cmdPointers cmd)
  freed : ∀ pid cmd, ((w.processFree pid).cmdPointers cmd).ptr ≠ .process pid

theorem processEntry_flags (pid userFlags : Nat) :
    (processEntry pid userFlags).flags = cmdFlagProcess ∨
      (processEntry pid userFlags).flags = cmdFlagProcess ||| cmdFlagPrefetch := by
  have hle : userFlags &&& cmdFlagPrefetch ≤ 4 := Nat.and_le_right
  have hbit : userFlags &&& cmdFlagPrefetch
      = (userFlags &&& cmdFlagPrefetch) &&& cmdFlagPrefetch := by
    rw [Nat.and_assoc, Nat.and_self]
  have hall : ∀ n ≤ 4, n = n &&& cmdFlagPrefetch →
      cmdFlagProcess ||| n = cmdFlagProcess ∨
          cmdFlagProcess ||| n = cmdFlagProcess ||| cmdFlagPrefetch := by
    decide
  exact hall _ hle hbit

theorem commandTable_wellFormed {σ γ : Type} (api : StStorageApi σ) (vx : Vx γ) (store : σ)
    (es : List (LifeEvent σ γ)) {l : Life σ γ}
    (h : lifeRun api vx (lifeStart store) es = some l) : TableWellFormed l.world := by
  have hinv := lifeRun_inv h
  refine ⟨hinv.inv.builtins, ?_, ?_⟩
  · intro cmd hro
    rcases hinv.inv.slots cmd hro with hempty | ⟨pid, flags, hentry, hlive⟩
    · exact .inl hempty
    · obtain ⟨pr, hpr⟩ := Option.ne_none_iff_exists'.mp hlive
      rw [hentry]
      exact .inr ⟨processEntry_flags pid flags, pid, pr, rfl, hpr, hinv.loaded pid pr hpr⟩
  · intro pid cmd
    show (World.unregisterAll pid 256 l.world.cmdPointers cmd).ptr ≠ .process pid
    rw [hinv.inv.unregisterAll]
    simp only []
    split
    · exact nofun
    · next hne => exact hne

end Table

/-! ### A sandbox of registers -/

/-- A guest that is its registers. All of its memory is accessible and reads as
zero. -/
def registersVx : Vx (Reg → Nat) where
  run := fun g => (.other, g)
  reg := fun g r => g r
  setReg := fun g r v => fun r' => if r' = r then v else g r'
  checkperm := fun _ _ _ _ => true
  read := fun _ _ n => List.replicate n 0
  write := fun g _ _ => g
  memSize := fun _ => 0
  resize := fun _ _ => none
  setperm := fun _ _ _ => none
  fillRandom := fun g _ _ => g
  base := fun _ => 0
  ptrSz := 4
  length_read := fun _ _ _ => List.length_replicate

/-- The registers of a guest about to make a system call. -/
def callWith (num edx ecx : Nat) : Reg → Nat
  | .eax => num
  | .edx => edx
  | .ecx => ecx
  | _ => 0

/-- An engine without data. -/
def emptyEngine : StStorageApi Unit where
  get := fun _ _ _ => none
  set := fun s _ _ => (s, 0)
  del := fun s _ => (s, -1)

/-- A program registers command 0x80 and waits for requests. -/
def registersAndWaits : List (LifeEvent Unit (Reg → Nat)) :=
  [.codeLoad {} (ascii "p") (some fun _ => 0),
   .syscall (callWith 0xFF00 0x80 cmdFlagPrefetch),
   .syscall (callWith 0xFF02 0 maxRequestSize)]

theorem commandTable_wellFormed_registered :
    ∃ l, lifeRun emptyEngine registersVx (lifeStart ()) registersAndWaits = some l ∧
      l.world.cmdPointers 0x80 = ⟨.process 0, cmdFlagProcess ||| cmdFlagPrefetch⟩ ∧
      TableWellFormed l.world := by
  have h : ((lifeRun emptyEngine registersVx (lifeStart ()) registersAndWaits).map
      fun l => l.world.cmdPointers 0x80)
        = some ⟨.process 0, cmdFlagProcess ||| cmdFlagPrefetch⟩ := by decide +kernel
  obtain ⟨l, hl, hslot⟩ := Option.map_eq_some_iff.mp h
  exact ⟨l, hl, hslot, commandTable_wellFormed emptyEngine registersVx () registersAndWaits hl⟩

end Smalltable.Proofs
