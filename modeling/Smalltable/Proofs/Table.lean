import Smalltable.Ref.Command

/-!
# The command table and the processes it points to

Slots of `cmd_pointers` hold raw pointers to processes, and processes come and
go while requests are being served: a CODE_LOAD starts one, a CODE_UNLOAD or a
failure frees one, and a running process may take commands from another and so
free it. `World.Inv` is what makes following a slot safe: the builtin slots are
as the program starts with them, and every other slot is empty or points to a
live process.

The invariant is carried through the twelve system calls, the loop of
`process_run`, both callbacks and every builtin handler. While a process runs,
it is alive as well (`World.Running`): the calls a guest can make never free
the process that makes them.

Everything that is called while a request is served is shown to keep it, once for each
function, with the effect of the twelve system calls summed up in `SysEffect`. The other
modules start from that and do not look at the calls again.
-/

namespace Smalltable.Proofs

open Smalltable.Ref

/-- The entry `command_register` writes. -/
def processEntry (pid userFlags : Nat) : CmdEntry :=
  ⟨.process pid, cmdFlagProcess ||| (userFlags &&& cmdFlagPrefetch)⟩

theorem processEntry_ptr (pid userFlags : Nat) :
    (processEntry pid userFlags).ptr = .process pid := rfl

theorem processEntry_isRo (pid userFlags : Nat) :
    (processEntry pid userFlags).isRo = false := by
  have h : (cmdFlagProcess ||| (userFlags &&& cmdFlagPrefetch)) &&& cmdFlagRo = 0 := by
    rw [Nat.and_or_distrib_right, Nat.and_assoc]
    simp [cmdFlagProcess, cmdFlagPrefetch, cmdFlagRo]
  simp only [CmdEntry.isRo, processEntry, h]
  decide

section Invariant

variable {σ γ : Type}

/-- A slot that is not builtin: nothing, or a live process. -/
def SlotOk (w : World σ γ) (e : CmdEntry) : Prop :=
  e = {} ∨ ∃ pid userFlags, e = processEntry pid userFlags ∧ w.procs pid ≠ none

theorem SlotOk.mono {w w' : World σ γ} {e : CmdEntry} (h : SlotOk w e)
    (hlive : ∀ pid, w.procs pid ≠ none → w'.procs pid ≠ none) : SlotOk w' e := by
  rcases h with rfl | ⟨pid, fl, rfl, hpid⟩
  · exact .inl rfl
  · exact .inr ⟨pid, fl, rfl, hlive pid hpid⟩

/-- The invariant of the table: following a slot is safe, and a process that will be
created is not there yet. -/
structure World.Inv (w : World σ γ) : Prop where
  builtins : w.BuiltinsIntact
  slots : ∀ cmd, (cmdPointersInit cmd).isRo = false → SlotOk w (w.cmdPointers cmd)
  fresh : ∀ pid, w.nextProc ≤ pid → w.procs pid = none

/-- The process `pid` is being run. -/
structure World.Running (w : World σ γ) (pid : Nat) : Prop extends World.Inv w where
  alive : w.procs pid ≠ none

/-- The counter and the engine's data do not matter. -/
theorem World.Inv.of_eq {w w' : World σ γ} (h : World.Inv w)
    (htab : w'.cmdPointers = w.cmdPointers) (hprocs : w'.procs = w.procs)
    (hnext : w'.nextProc = w.nextProc) : World.Inv w' := by
  refine ⟨?_, ?_, ?_⟩
  · intro cmd hro
    rw [htab]
    exact h.builtins cmd hro
  · intro cmd hro
    rw [htab]
    exact (h.slots cmd hro).mono fun pid hpid => by rw [hprocs]; exact hpid
  · intro pid hpid
    rw [hprocs]
    exact h.fresh pid (by omega)

theorem World.Running.of_eq {w w' : World σ γ} {pid : Nat} (h : World.Running w pid)
    (htab : w'.cmdPointers = w.cmdPointers) (hprocs : w'.procs = w.procs)
    (hnext : w'.nextProc = w.nextProc) : World.Running w' pid :=
  ⟨h.toInv.of_eq htab hprocs hnext, by rw [hprocs]; exact h.alive⟩

theorem World.Inv.isRo_iff {w : World σ γ} (h : World.Inv w) (cmd : UInt8) :
    (w.cmdPointers cmd).isRo = (cmdPointersInit cmd).isRo := by
  cases hro : (cmdPointersInit cmd).isRo with
  | true => rw [h.builtins cmd hro, hro]
  | false =>
      rcases h.slots cmd hro with he | ⟨pid, fl, he, -⟩
      · rw [he]; rfl
      · rw [he]; exact processEntry_isRo pid fl

/-- Whether a slot leads to a process, and not to a handler of the server or to nothing.
-/
def pointsToProcess : CmdPtr → Bool
  | .process _ => true
  | _ => false

/-- The program starts without processes. -/
theorem cmdPointersInit_ptr (cmd : UInt8) (pid : Nat) :
    (cmdPointersInit cmd).ptr ≠ .process pid := by
  have hall : ∀ n < 256, pointsToProcess (cmdPointersInit n.toUInt8).ptr = false := by
    decide +kernel
  have hcmd : cmd.toNat.toUInt8 = cmd := by simp
  have h := hall cmd.toNat cmd.toNat_lt
  rw [hcmd] at h
  intro hbad
  rw [hbad, pointsToProcess] at h
  exact Bool.noConfusion h

/-- A slot the program starts without protection starts empty. -/
theorem cmdPointersInit_empty {cmd : UInt8} (hro : (cmdPointersInit cmd).isRo = false) :
    cmdPointersInit cmd = {} := by
  have hall : ∀ n < 256, (cmdPointersInit n.toUInt8).isRo = false →
      cmdPointersInit n.toUInt8 = {} := by decide +kernel
  have hcmd : cmd.toNat.toUInt8 = cmd := by simp
  have h := hall cmd.toNat cmd.toNat_lt
  rw [hcmd] at h
  exact h hro

/-- The server starts with the invariant. -/
theorem World.inv_start (s : σ) : World.Inv ({ store := s } : World σ γ) :=
  ⟨fun _ _ => rfl, fun _ hro => .inl (cmdPointersInit_empty hro), fun _ _ => rfl⟩

/-- A slot with a process in it is not builtin, and the process is alive. -/
theorem World.Inv.slot_process {w : World σ γ} (h : World.Inv w) {cmd : UInt8} {pid : Nat}
    (hptr : (w.cmdPointers cmd).ptr = .process pid) :
    (cmdPointersInit cmd).isRo = false ∧ w.procs pid ≠ none := by
  cases hro : (cmdPointersInit cmd).isRo with
  | true =>
      rw [h.builtins cmd hro] at hptr
      exact absurd hptr (cmdPointersInit_ptr cmd pid)
  | false =>
      refine ⟨rfl, ?_⟩
      rcases h.slots cmd hro with he | ⟨p, fl, he, hlive⟩
      · rw [he] at hptr
        exact CmdPtr.noConfusion hptr
      · rw [he] at hptr
        exact CmdPtr.process.inj hptr ▸ hlive

/-! ## Changes to one process or one slot

The invariant asks little of a process: that it is there when a slot points to it. So
any field may change, and a slot may become empty at any time. -/

theorem procs_setProc_ne_none {w : World σ γ} {pid : Nat} {pr : Process γ} {i : Nat}
    (h : w.procs i ≠ none) : (w.setProc pid (some pr)).procs i ≠ none := by
  show (if i = pid then some pr else w.procs i) ≠ none
  split
  · exact Option.some_ne_none pr
  · exact h

theorem procs_setProc_self (w : World σ γ) (pid : Nat) (pr : Process γ) :
    (w.setProc pid (some pr)).procs pid = some pr := if_pos rfl

theorem World.Running.setProc {w : World σ γ} {pid p : Nat} (h : World.Running w p)
    (hlive : w.procs pid ≠ none) (pr : Process γ) :
    World.Running (w.setProc pid (some pr)) p := by
  refine ⟨⟨h.builtins, ?_, ?_⟩, procs_setProc_ne_none h.alive⟩
  · intro cmd hro
    exact (h.slots cmd hro).mono fun i hi => procs_setProc_ne_none hi
  · intro i hi
    have hne : i ≠ pid := by
      rintro rfl
      exact hlive (h.fresh i hi)
    show (if i = pid then some pr else w.procs i) = none
    rw [if_neg hne]
    exact h.fresh i hi

/-- A slot that is not builtin may be given to a live process, or cleared. -/
theorem World.Running.put {w : World σ γ} {p : Nat} (h : World.Running w p) {cmd : UInt8}
    {e : CmdEntry} (hro : (cmdPointersInit cmd).isRo = false) (he : SlotOk w e) :
    World.Running { w with cmdPointers := w.cmdPointers.put cmd e } p := by
  refine ⟨⟨?_, ?_, h.fresh⟩, h.alive⟩
  · intro c hc
    show (if c = cmd then e else w.cmdPointers c) = _
    split
    · next heq => rw [heq, hro] at hc; exact absurd hc (by decide)
    · exact h.builtins c hc
  · intro c hc
    show SlotOk w (if c = cmd then e else w.cmdPointers c)
    split
    · exact he
    · exact h.slots c hc

/-! ## Freeing a process

`process_free` goes through all slots first and empties those of the process, so that
none points to it when it is gone. -/

theorem mem_allCmds (cmd : UInt8) : cmd ∈ allCmds := by
  refine List.mem_map.mpr ⟨cmd.toNat, List.mem_range.mpr cmd.toNat_lt, ?_⟩
  simp

/-- The loop of `process_free` takes every slot from the process and leaves the
others alone. -/
theorem unregisterAll_eq (pid : Nat) : ∀ (n : Nat) (t : CmdTable),
    (∀ c, (t c).ptr = .process pid → (t c).isRo = false) →
    (allCmds.filter fun c => (t c).ptr = .process pid).length ≤ n →
    World.unregisterAll pid n t = fun c => if (t c).ptr = .process pid then {} else t c := by
  intro n
  induction n with
  | zero =>
      intro t _ hlen
      have hnil := List.eq_nil_of_length_eq_zero (Nat.le_zero.mp hlen)
      funext c
      have hc : ¬ (t c).ptr = .process pid := by
        simpa using List.filter_eq_nil_iff.mp hnil c (mem_allCmds c)
      rw [if_neg hc, World.unregisterAll]
  | succ n ih =>
      intro t hro hlen
      rw [World.unregisterAll]
      cases hfind : commandFindByProcessUd t pid with
      | none =>
          funext c
          have hc : ¬ (t c).ptr = .process pid := by
            simpa using List.find?_eq_none.mp hfind c (mem_allCmds c)
          rw [if_neg hc]
      | some cmd =>
          have hcmd : (t cmd).ptr = .process pid := by
            simpa using List.find?_some hfind
          have hun : commandUnregister t cmd = t.put cmd {} := by
            rw [commandUnregister, hro cmd hcmd]
            rfl
          have hput : ∀ c, (t.put cmd {} c).ptr = .process pid ↔
              ((t c).ptr = .process pid ∧ c ≠ cmd) := by
            intro c
            rw [CmdTable.put]
            split
            · next heq => simp [heq]
            · next hne => simp [hne]
          simp only []
          rw [hun, ih]
          · funext c
            by_cases hc : c = cmd
            · subst hc
              simp [hcmd, CmdTable.put]
            · simp [hc, CmdTable.put]
          · intro c hc
            have hc := (hput c).mp hc
            rw [CmdTable.put, if_neg hc.2]
            exact hro c hc.1
          · -- one slot less is left to clear
            have hfil : (allCmds.filter fun c => (t.put cmd {} c).ptr = .process pid)
                = (allCmds.filter fun c => (t c).ptr = .process pid).filter fun c => c ≠ cmd := by
              rw [List.filter_filter]
              refine List.filter_congr fun c _ => ?_
              simp only [hput, ne_eq, decide_not, Bool.decide_and]
              rw [Bool.and_comm]
            have hlt : ((allCmds.filter fun c => (t c).ptr = .process pid).filter
                fun c => c ≠ cmd).length
                  < (allCmds.filter fun c => (t c).ptr = .process pid).length := by
              refine List.length_filter_lt_length_iff_exists.mpr ⟨cmd, ?_, by simp⟩
              exact List.mem_filter.mpr ⟨mem_allCmds cmd, by simpa using hcmd⟩
            rw [hfil]
            omega

theorem World.Inv.unregisterAll {w : World σ γ} (h : World.Inv w) (pid : Nat) :
    World.unregisterAll pid 256 w.cmdPointers
      = fun c => if (w.cmdPointers c).ptr = .process pid then {} else w.cmdPointers c := by
  refine unregisterAll_eq pid 256 w.cmdPointers ?_ ?_
  · intro c hc
    rw [h.isRo_iff c]
    exact (h.slot_process hc).1
  · have hlen : allCmds.length = 256 := by
      rw [allCmds, List.length_map, List.length_range]
    rw [← hlen]
    exact List.length_filter_le _ _

theorem World.Inv.processFree {w : World σ γ} (h : World.Inv w) (pid : Nat) :
    World.Inv (w.processFree pid) := by
  have htab : (w.processFree pid).cmdPointers
      = fun c => if (w.cmdPointers c).ptr = .process pid then {} else w.cmdPointers c :=
    h.unregisterAll pid
  have hprocs : ∀ i, (w.processFree pid).procs i = if i = pid then none else w.procs i :=
    fun _ => rfl
  refine ⟨?_, ?_, ?_⟩
  · intro cmd hro
    rw [htab]
    simp only []
    split
    · next hptr => rw [(h.slot_process hptr).1] at hro; exact absurd hro (by decide)
    · exact h.builtins cmd hro
  · intro cmd hro
    rw [htab]
    simp only []
    split
    · exact .inl rfl
    · next hptr =>
        rcases h.slots cmd hro with he | ⟨p, fl, he, hlive⟩
        · exact .inl he
        · refine .inr ⟨p, fl, he, ?_⟩
          have hne : p ≠ pid := by
            rintro rfl
            exact hptr (by rw [he]; rfl)
          rw [hprocs, if_neg hne]
          exact hlive
  · intro i hi
    rw [hprocs]
    split
    · rfl
    · exact h.fresh i hi

theorem World.Running.processFree {w : World σ γ} {p : Nat} (h : World.Running w p)
    {pid : Nat} (hne : p ≠ pid) : World.Running (w.processFree pid) p := by
  refine ⟨h.toInv.processFree pid, ?_⟩
  show (if p = pid then none else w.procs p) ≠ none
  rw [if_neg hne]
  exact h.alive

theorem World.Inv.processNew {w : World σ γ} (h : World.Inv w) (key : Bytes) :
    World.Running (w.processNew key) w.nextProc := by
  have hprocs : ∀ i, (w.processNew key).procs i
      = if i = w.nextProc then some { key := key } else w.procs i := fun _ => rfl
  refine ⟨⟨h.builtins, ?_, ?_⟩, ?_⟩
  · intro cmd hro
    refine (h.slots cmd hro).mono fun i hi => ?_
    rw [hprocs]
    split
    · exact Option.some_ne_none _
    · exact hi
  · intro i hi
    have hlt : w.nextProc + 1 ≤ i := hi
    rw [hprocs, if_neg (by omega)]
    exact h.fresh i (by omega)
  · rw [hprocs, if_pos rfl]
    exact Option.some_ne_none _

end Invariant

/-! ## System calls

Only `register` and `unregister` touch the table; the others change at most
the process that runs and the engine's data. -/

section Syscalls

variable {σ γ : Type} (api : StStorageApi σ) (vx : Vx γ) {pid : Nat} {s s' : Sys σ γ}

/-- Nothing of the world but the engine's data changed. -/
def SameWorld (w w' : World σ γ) : Prop :=
  w'.cmdPointers = w.cmdPointers ∧ w'.procs = w.procs ∧ w'.nextProc = w.nextProc

theorem SameWorld.running {w w' : World σ γ} (hsame : SameWorld w w')
    (h : World.Running w pid) : World.Running w' pid :=
  h.of_eq hsame.1 hsame.2.1 hsame.2.2

theorem syscallBrk_same (hs : syscallBrk vx s = some s') : SameWorld s.world s'.world := by
  unfold syscallBrk at hs
  simp only [] at hs
  repeat' split at hs
  all_goals (cases hs; exact ⟨rfl, rfl, rfl⟩)

theorem syscallWrite_same (hs : syscallWrite vx s = some s') : SameWorld s.world s'.world := by
  unfold syscallWrite at hs
  simp only [] at hs
  repeat' split at hs
  all_goals (cases hs; exact ⟨rfl, rfl, rfl⟩)

theorem syscallStGet_same (hs : syscallStGet api vx s = some s') :
    SameWorld s.world s'.world := by
  unfold syscallStGet at hs
  simp only [] at hs
  repeat' split at hs
  all_goals (cases hs; exact ⟨rfl, rfl, rfl⟩)

theorem syscallStPrefetch_same (hs : syscallStPrefetch api vx s = some s') :
    SameWorld s.world s'.world := by
  unfold syscallStPrefetch at hs
  simp only [] at hs
  repeat' split at hs
  all_goals (cases hs; exact ⟨rfl, rfl, rfl⟩)

theorem syscallStSet_same (hs : syscallStSet api vx s = some s') :
    SameWorld s.world s'.world := by
  unfold syscallStSet at hs
  simp only [] at hs
  repeat' split at hs
  all_goals (cases hs; exact ⟨rfl, rfl, rfl⟩)

theorem syscallStDel_same (hs : syscallStDel api vx s = some s') :
    SameWorld s.world s'.world := by
  unfold syscallStDel at hs
  simp only [] at hs
  repeat' split at hs
  all_goals (cases hs; exact ⟨rfl, rfl, rfl⟩)

theorem syscallStGetrandom_same (hs : syscallStGetrandom vx s = some s') :
    SameWorld s.world s'.world := by
  unfold syscallStGetrandom at hs
  simp only [] at hs
  repeat' split at hs
  all_goals (cases hs; exact ⟨rfl, rfl, rfl⟩)

/-- What of a process only the server itself changes. -/
structure Process.Keeps (pr pr' : Process γ) : Prop where
  machine : pr'.machine = pr.machine
  key : pr'.key = pr.key
  registercnt : pr'.registercnt = pr.registercnt
  sendBuf : pr'.sendBuf = pr.sendBuf

/-- The command a guest names in a call to register. -/
def registerCmd (g : γ) : UInt8 := (asInt (vx.reg g .edx)).toNat.toUInt8

/-- What a system call of the process `pid` can do to table and processes. -/
inductive SysEffect (pid : Nat) (g : γ) (w : World σ γ) : World σ γ → Prop
  | same {w' : World σ γ} (hsame : SameWorld w w') : SysEffect pid g w w'
  | touch {pr pr' : Process γ} (hpr : w.procs pid = some pr) (hkeeps : Process.Keeps pr pr') :
      SysEffect pid g w (w.setProc pid (some pr'))
  | take {w1 : World σ γ} {pr : Process γ} (flags : Nat) (hnum : vx.reg g .eax = 0xFF00)
      (hlow : ¬ asInt (vx.reg g .edx) < 0) (hhigh : ¬ asInt (vx.reg g .edx) > 255)
      (hro : (w.cmdPointers (registerCmd vx g)).isRo = false)
      (hdrop : dropLooser w pid (w.cmdPointers (registerCmd vx g)) = some w1)
      (hpr : w1.procs pid = some pr) :
      SysEffect pid g w
        { w1.setProc pid (some { pr with registercnt := pr.registercnt + 1 }) with
          cmdPointers := w1.cmdPointers.put (registerCmd vx g) (processEntry pid flags) }
  | give {pr : Process γ} (cmd : UInt8) (hro : (w.cmdPointers cmd).isRo = false)
      (hptr : (w.cmdPointers cmd).ptr = .process pid) (hpr : w.procs pid = some pr) :
      SysEffect pid g w
        { w.setProc pid (some { pr with registercnt := pr.registercnt - 1 }) with
          cmdPointers := w.cmdPointers.put cmd {} }

/-- What becomes of the process a slot is taken from. -/
theorem dropLooser_cases {w w' : World σ γ} {e : CmdEntry} (hd : dropLooser w pid e = some w') :
    (w' = w ∧ ∀ q, e.ptr = .process q → q = pid) ∨
      ∃ q pr, e.ptr = .process q ∧ q ≠ pid ∧ w.procs q = some pr ∧
        ((pr.registercnt = 1 ∧ w' = w.processFree q) ∨
          (pr.registercnt ≠ 1 ∧
            w' = w.setProc q (some { pr with registercnt := pr.registercnt - 1 }))) := by
  unfold dropLooser at hd
  split at hd
  · next q hptr =>
      split at hd
      · next heq =>
          cases hd
          refine .inl ⟨rfl, fun q' hq' => ?_⟩
          rw [hptr] at hq'
          cases hq'
          exact heq
      · next hne =>
          split at hd
          · cases hd
          · next pr hpr =>
              refine .inr ⟨q, pr, hptr, hne, hpr, ?_⟩
              split at hd
              · next hone => cases hd; exact .inl ⟨hone, rfl⟩
              · next hmore => cases hd; exact .inr ⟨hmore, rfl⟩
  · next hother =>
      cases hd
      exact .inl ⟨rfl, fun q hq => absurd hq (hother q)⟩

/-- Taking a slot from another process leaves the taker running. -/
theorem dropLooser_running {w w' : World σ γ} (h : World.Running w pid) {e : CmdEntry}
    (hd : dropLooser w pid e = some w') : World.Running w' pid := by
  rcases dropLooser_cases hd with ⟨rfl, -⟩ | ⟨q, pr, -, hne, hpr, hcase⟩
  · exact h
  · rcases hcase with ⟨-, rfl⟩ | ⟨-, rfl⟩
    · exact h.processFree hne.symm
    · exact h.setProc (by rw [hpr]; exact Option.some_ne_none pr) _

variable {vx} in
theorem SysEffect.running {g : γ} {w w' : World σ γ} (he : SysEffect vx pid g w w')
    (h : World.Running w pid) : World.Running w' pid := by
  cases he with
  | same hsame => exact hsame.running h
  | touch _ _ => exact h.setProc h.alive _
  | take flags _ _ _ hro hdrop _ =>
      have h1 := dropLooser_running h hdrop
      have hfree : (cmdPointersInit (registerCmd vx g)).isRo = false := by
        rw [← h.isRo_iff]
        exact hro
      exact (h1.put hfree (.inr ⟨pid, flags, rfl, h1.alive⟩)).setProc h1.alive _
  | give cmd hro _ _ =>
      rw [h.isRo_iff] at hro
      exact (h.put hro (.inl rfl)).setProc h.alive _

theorem syscallExit_effect (hs : syscallExit vx pid s = some s') :
    SysEffect vx pid s.guest s.world s'.world := by
  unfold syscallExit withProc at hs
  split at hs
  · cases hs
  · next pr hpr =>
      cases hs
      exact .touch hpr ⟨rfl, rfl, rfl, rfl⟩

theorem syscallReadrequests_effect (hs : syscallReadrequests vx pid s = some s') :
    SysEffect vx pid s.guest s.world s'.world := by
  unfold syscallReadrequests withProc at hs
  split at hs
  · cases hs
  · next pr hpr =>
      simp only [] at hs
      repeat' split at hs
      all_goals cases hs
      · exact .same ⟨rfl, rfl, rfl⟩
      · exact .same ⟨rfl, rfl, rfl⟩
      · exact .same ⟨rfl, rfl, rfl⟩
      · exact .touch hpr ⟨rfl, rfl, rfl, rfl⟩

theorem syscallWriteresponses_effect (hs : syscallWriteresponses vx pid s = some s') :
    SysEffect vx pid s.guest s.world s'.world := by
  unfold syscallWriteresponses withProc at hs
  split at hs
  · cases hs
  · next pr hpr =>
      simp only [] at hs
      repeat' split at hs
      all_goals cases hs
      · exact .same ⟨rfl, rfl, rfl⟩
      · exact .same ⟨rfl, rfl, rfl⟩
      · exact .touch hpr ⟨rfl, rfl, rfl, rfl⟩
      · exact .touch hpr ⟨rfl, rfl, rfl, rfl⟩

theorem syscallUnregister_effect (hs : syscallUnregister vx pid s = some s') :
    SysEffect vx pid s.guest s.world s'.world := by
  unfold syscallUnregister withProc at hs
  simp only [] at hs
  split at hs
  · cases hs; exact .same ⟨rfl, rfl, rfl⟩
  · split at hs
    · cases hs; exact .same ⟨rfl, rfl, rfl⟩
    · next hptr =>
        have hptr := not_not.mp hptr
        split at hs
        · cases hs
        · next pr hpr =>
            cases hs
            unfold commandGet at hptr
            split at hptr
            · cases hptr
            · next hro =>
                have hro := Bool.eq_false_iff.mpr hro
                rw [commandUnregister, hro, if_neg Bool.false_ne_true]
                exact .give _ hro hptr hpr

variable (h : World.Running s.world pid)
include h

theorem syscallRegister_effect (hnum : vx.reg s.guest .eax = 0xFF00)
    (hs : syscallRegister vx pid s = some s') :
    SysEffect vx pid s.guest s.world s'.world := by
  unfold syscallRegister at hs
  simp only [] at hs
  split at hs
  · cases hs; exact .same ⟨rfl, rfl, rfl⟩
  · next hrange =>
      obtain ⟨hlow, hhigh⟩ := not_or.mp hrange
      split at hs
      · cases hs
      · next w hdrop =>
          have hw : dropLooser s.world pid (commandGet s.world.cmdPointers
            (registerCmd vx s.guest)) = some w := hdrop
          have hw' := dropLooser_running h hw
          have hro := (hw'.isRo_iff (registerCmd vx s.guest)).trans
            (h.isRo_iff (registerCmd vx s.guest)).symm
          split at hs
          · cases hs
          · next pr hpr =>
              cases hfree : (s.world.cmdPointers (registerCmd vx s.guest)).isRo with
              | true =>
                  -- a builtin slot looks empty and is refused
                  rw [commandGet, hfree, if_pos rfl] at hw
                  cases hw
                  rw [show (asInt (vx.reg s.guest .edx)).toNat.toUInt8
                    = registerCmd vx s.guest from rfl, commandRegister, hfree, if_pos rfl] at hs
                  cases hs
                  exact .same ⟨rfl, rfl, rfl⟩
              | false =>
                  rw [commandGet, hfree, if_neg Bool.false_ne_true] at hw
                  rw [hfree] at hro
                  rw [show (asInt (vx.reg s.guest .edx)).toNat.toUInt8
                    = registerCmd vx s.guest from rfl, commandRegister, hro,
                    if_neg Bool.false_ne_true] at hs
                  cases hs
                  exact .take (vx.reg s.guest .ecx) hnum hlow hhigh hfree hw hpr

theorem doSyscall_effect (hs : doSyscall api vx pid s = some s') :
    SysEffect vx pid s.guest s.world s'.world := by
  unfold doSyscall at hs
  split at hs
  · cases hs
  · next s1 hs1 =>
      cases hs
      have h1 : World.Running ({ s with next := .continue } : Sys σ γ).world pid := h
      show SysEffect vx pid ({ s with next := .continue } : Sys σ γ).guest
        ({ s with next := .continue } : Sys σ γ).world s1.world
      unfold syscalls at hs1
      split at hs1
      · exact syscallExit_effect vx hs1
      · exact .same (syscallBrk_same vx hs1)
      · exact .same (syscallWrite_same vx hs1)
      · next hnum => exact syscallRegister_effect vx h1 hnum hs1
      · exact syscallUnregister_effect vx hs1
      · exact syscallReadrequests_effect vx hs1
      · exact syscallWriteresponses_effect vx hs1
      · exact .same (syscallStGet_same api vx hs1)
      · exact .same (syscallStPrefetch_same api vx hs1)
      · exact .same (syscallStSet_same api vx hs1)
      · exact .same (syscallStDel_same api vx hs1)
      · exact .same (syscallStGetrandom_same vx hs1)
      · cases hs1
        exact .same ⟨rfl, rfl, rfl⟩

theorem doSyscall_running (hs : doSyscall api vx pid s = some s') :
    World.Running s'.world pid :=
  (doSyscall_effect api vx h hs).running h

end Syscalls

/-! ## Running a process, and the groups

From one call to all calls of a run, from there to a group and to a batch. A process
that fails is freed, which is a case of the above. -/

section Groups

variable {σ γ : Type} (api : StStorageApi σ) (vx : Vx γ) (cfg : Config γ)

/-- What every system call keeps, a run of them keeps. -/
theorem processRunLoop_invariant {pid : Nat} {P : World σ γ → Io → Prop}
    (hcall : ∀ {s s' : Sys σ γ}, P s.world s.io → doSyscall api vx pid s = some s' →
      P s'.world s'.io) :
    ∀ (left : Nat) (irqSeen : Bool) {s s' : Sys σ γ}, P s.world s.io →
      processRunLoop api vx pid left irqSeen s = some s' → P s'.world s'.io := by
  intro left
  induction left with
  | zero =>
      intro irqSeen s s' h hs
      rw [processRunLoop] at hs
      split at hs
      · cases hs; exact h
      · cases hs; exact h
  | succ left ih =>
      intro irqSeen s s' h hs
      rw [processRunLoop] at hs
      split at hs
      · next g _ _ =>
          simp only [] at hs
          split at hs
          · cases hs
          · next s1 hs1 =>
              have h1 := hcall (s := { s with guest := g }) h hs1
              split at hs
              · exact ih _ h1 hs
              · cases hs; exact h1
              · cases hs; exact h1
              · unfold withProc at hs
                split at hs
                · cases hs
                · cases hs; exact h1
      · cases hs; exact h

theorem processRunLoop_running {pid : Nat} (left : Nat) (irqSeen : Bool) {s s' : Sys σ γ}
    (h : World.Running s.world pid) (hs : processRunLoop api vx pid left irqSeen s = some s') :
    World.Running s'.world pid :=
  processRunLoop_invariant api vx (P := fun w _ => World.Running w pid)
    (fun h hcall => doSyscall_running api vx h hcall) left irqSeen h hs

/-- A run is its loop, and the guest is put back behind it. -/
theorem processRun_loop {limit : Int} {pid : Nat} {w w' : World σ γ} {io io' : Io} {r : Int}
    (hs : processRun api vx limit pid w io = some (w', io', r)) :
    ∃ pr g s pr', w.procs pid = some pr ∧ pr.machine = some g ∧
      processRunLoop api vx pid (limit + 1).toNat false { world := w, io := io, guest := g }
        = some s ∧
      s.world.procs pid = some pr' ∧
      w' = s.world.setProc pid (some { pr' with machine := some s.guest }) ∧ io' = s.io ∧
      r = s.ret := by
  unfold processRun at hs
  split at hs
  · cases hs
  · next pr hpr =>
      split at hs
      · cases hs
      · next g hg =>
          split at hs
          · cases hs
          · next s hloop =>
              split at hs
              · cases hs
              · next pr' hpr' =>
                  cases hs
                  exact ⟨pr, g, s, pr', hpr, hg, hloop, hpr', rfl, rfl, rfl⟩

theorem processRun_running {limit : Int} {pid : Nat} {w w' : World σ γ} {io io' : Io} {r : Int}
    (h : World.Running w pid) (hs : processRun api vx limit pid w io = some (w', io', r)) :
    World.Running w' pid := by
  obtain ⟨pr, g, s, pr', -, -, hloop, -, rfl, -, -⟩ := processRun_loop api vx hs
  have h1 := processRunLoop_running api vx _ _ (by exact h) hloop
  exact h1.setProc h1.alive _

theorem processFailed_inv {pid : Nat} {w w' : World σ γ} {io io' : Io} {reqBuf : Bytes}
    (h : World.Inv w) (hs : processFailed pid w io reqBuf = some (w', io')) :
    World.Inv w' := by
  unfold processFailed at hs
  split at hs
  · cases hs
  · simp only [] at hs
    split at hs
    · cases hs
    · cases hs
      exact h.processFree pid

theorem processCommandsCallback_inv {pid : Nat} {w w' : World σ γ} {io io' : Io}
    {reqBuf : Bytes} (h : World.Inv w)
    (hs : processCommandsCallback api vx cfg w io reqBuf pid = some (w', io')) :
    World.Inv w' := by
  unfold processCommandsCallback at hs
  split at hs
  · cases hs
  · next pr hpr =>
      have hrun : World.Running w pid := ⟨h, by rw [hpr]; exact Option.some_ne_none pr⟩
      split at hs
      · exact processFailed_inv h hs
      · split at hs
        · cases hs
        · simp only [] at hs
          split at hs
          · cases hs
          · next w1 io1 r hr =>
              have h1 := processRun_running api vx (hrun.setProc hrun.alive _) hr
              split at hs
              · exact processFailed_inv h1.toInv hs
              · split at hs
                · cases hs
                · split at hs
                  · exact processFailed_inv h1.toInv hs
                  · cases hs; exact h1.toInv

theorem refuse_same {w w' : World σ γ} {io io' : Io} {res res' : StRes} {status : Nat}
    {errStr : Option Bytes} (hs : refuse w io res status errStr = some (w', io', res')) :
    w' = w ∧ io' = io := by
  unfold refuse at hs
  split at hs
  · cases hs
  · cases hs; exact ⟨rfl, rfl⟩

/-- What CODE_LOAD can come to: it ends before there is a process, or the binary is
none and the process is freed, or the process has run and is freed if that failed. -/
theorem cmdCodeLoad_cases {w w' : World σ γ} {io io' : Io} {req : StReq} {res res' : StRes}
    (hs : cmdCodeLoad api vx cfg w io req res = some (w', io', res')) :
    (w' = w ∧ io' = io) ∨
      (w.findProcess req.key = some none ∧
        w' = (w.processNew req.key).processFree w.nextProc ∧ io' = io) ∨
      ∃ g w1 r, w.findProcess req.key = some none ∧
        processRun api vx (cfg.syscallLimit * io.requests + 128) w.nextProc
          ((w.processNew req.key).setProc w.nextProc (some { key := req.key, machine := some g }))
          io = some (w1, io', r) ∧
        (r ≠ 0 ∧ w' = w1.processFree w.nextProc ∨ r = 0 ∧ w' = w1) := by
  unfold cmdCodeLoad at hs
  split at hs
  · exact .inl (refuse_same hs)
  · split at hs
    · exact .inl (refuse_same hs)
    · split at hs
      · cases hs
      · exact .inl (refuse_same hs)
      · next hkey =>
          simp only [] at hs
          split at hs
          · cases hs
            exact .inl ⟨rfl, rfl⟩
          · split at hs
            · cases hs
              exact .inl ⟨rfl, rfl⟩
            · split at hs
              · cases hs
                exact .inr (.inl ⟨hkey, rfl, rfl⟩)
              · next g _ =>
                  split at hs
                  · cases hs
                  · next w1 io1 r hr =>
                      split at hs
                      · next hne =>
                          cases hs
                          exact .inr (.inr ⟨g, w1, r, hkey, hr, .inl ⟨hne, rfl⟩⟩)
                      · next hzero =>
                          cases hs
                          exact .inr (.inr ⟨g, w', r, hkey, hr, .inr ⟨not_not.mp hzero, rfl⟩⟩)

theorem cmdCodeLoad_inv {w w' : World σ γ} {io io' : Io} {req : StReq} {res res' : StRes}
    (h : World.Inv w) (hs : cmdCodeLoad api vx cfg w io req res = some (w', io', res')) :
    World.Inv w' := by
  have hnew := h.processNew req.key
  rcases cmdCodeLoad_cases api vx cfg hs with ⟨rfl, -⟩ | ⟨-, rfl, -⟩ | ⟨g, w1, r, -, hr, hend⟩
  · exact h
  · exact hnew.toInv.processFree _
  · have h1 := processRun_running api vx (hnew.setProc hnew.alive _) hr
    rcases hend with ⟨-, rfl⟩ | ⟨-, rfl⟩
    · exact h1.toInv.processFree _
    · exact h1.toInv

/-- The handlers other than CODE_LOAD and CODE_UNLOAD leave table and processes
alone. -/
theorem callBuiltin_same {ptr : CmdPtr} {w w' : World σ γ} {io io' : Io} {req : StReq}
    {res res' : StRes} (hload : ptr ≠ .builtin .codeLoad) (hunload : ptr ≠ .builtin .codeUnload)
    (hs : callBuiltin api vx cfg ptr w io req res = some (w', io', res')) :
    SameWorld w w' := by
  unfold callBuiltin at hs
  split at hs
  · unfold cmdUnknown at hs
    rw [(refuse_same hs).1]; exact ⟨rfl, rfl, rfl⟩
  · unfold cmdGet at hs
    split at hs
    · rw [(refuse_same hs).1]; exact ⟨rfl, rfl, rfl⟩
    · simp only [] at hs
      split at hs
      · cases hs
      · rw [(refuse_same hs).1]; exact ⟨rfl, rfl, rfl⟩
      · cases hs; exact ⟨rfl, rfl, rfl⟩
  · unfold cmdSet at hs
    split at hs
    · rw [(refuse_same hs).1]; exact ⟨rfl, rfl, rfl⟩
    · simp only [] at hs
      split at hs
      · cases hs
      · split at hs
        · rw [(refuse_same hs).1]; exact ⟨rfl, rfl, rfl⟩
        · split at hs
          · rw [(refuse_same hs).1]; exact ⟨rfl, rfl, rfl⟩
          · cases hs; exact ⟨rfl, rfl, rfl⟩
  · unfold cmdDelete at hs
    split at hs
    · rw [(refuse_same hs).1]; exact ⟨rfl, rfl, rfl⟩
    · simp only [] at hs
      split at hs
      · rw [(refuse_same hs).1]; exact ⟨rfl, rfl, rfl⟩
      · cases hs; exact ⟨rfl, rfl, rfl⟩
  · unfold cmdNoop at hs
    split at hs
    · rw [(refuse_same hs).1]; exact ⟨rfl, rfl, rfl⟩
    · cases hs; exact ⟨rfl, rfl, rfl⟩
  · unfold cmdVersion at hs
    split at hs
    · rw [(refuse_same hs).1]; exact ⟨rfl, rfl, rfl⟩
    · cases hs; exact ⟨rfl, rfl, rfl⟩
  · unfold cmdGetKeys at hs
    split at hs
    · rw [(refuse_same hs).1]; exact ⟨rfl, rfl, rfl⟩
    · split at hs
      · rw [(refuse_same hs).1]; exact ⟨rfl, rfl, rfl⟩
      · cases hs; exact ⟨rfl, rfl, rfl⟩
  · exact absurd rfl hload
  · exact absurd rfl hunload
  · unfold cmdCodeCheck at hs
    split at hs
    · rw [(refuse_same hs).1]; exact ⟨rfl, rfl, rfl⟩
    · split at hs
      · rw [(refuse_same hs).1]; exact ⟨rfl, rfl, rfl⟩
      · split at hs
        · cases hs
        · rw [(refuse_same hs).1]; exact ⟨rfl, rfl, rfl⟩
        · rw [(refuse_same hs).1]; exact ⟨rfl, rfl, rfl⟩
  · cases hs

theorem callBuiltin_inv {ptr : CmdPtr} {w w' : World σ γ} {io io' : Io} {req : StReq}
    {res res' : StRes} (h : World.Inv w)
    (hs : callBuiltin api vx cfg ptr w io req res = some (w', io', res')) :
    World.Inv w' := by
  by_cases hload : ptr = .builtin .codeLoad
  · subst hload
    exact cmdCodeLoad_inv api vx cfg h hs
  · by_cases hunload : ptr = .builtin .codeUnload
    · subst hunload
      unfold callBuiltin cmdCodeUnload at hs
      simp only [] at hs
      split at hs
      · rw [(refuse_same hs).1]; exact h
      · split at hs
        · rw [(refuse_same hs).1]; exact h
        · split at hs
          · cases hs
          · rw [(refuse_same hs).1]; exact h
          · cases hs
            exact h.processFree _
    · obtain ⟨h1, h2, h3⟩ := callBuiltin_same api vx cfg hload hunload hs
      exact h.of_eq h1 h2 h3

/-- The step of the loop over a builtin group. -/
theorem builtinCommand_cases {ptr : CmdPtr} {w w' : World σ γ} {io io' : Io} {request : Bytes}
    (hs : builtinCommand api vx cfg ptr w io request = some (w', io')) :
    w' = w ∨ ∃ io1 io2 res res', callBuiltin api vx cfg ptr w io1 (unpackRequest request) res
      = some (w', io2, res') := by
  unfold builtinCommand at hs
  simp only [] at hs
  split at hs
  · unfold processSingle at hs
    simp only [] at hs
    split at hs
    · cases hs
    · next w1 io1 out hout =>
        split at hout
        · cases hout
        · next w2 io2 res hcall =>
            split at hout
            · cases hout
            · cases hout
              cases hs
              exact .inr ⟨_, _, _, _, hcall⟩
  · split at hs
    · cases hs
    · cases hs; exact .inl rfl

theorem builtinCommand_inv {ptr : CmdPtr} {w w' : World σ γ} {io io' : Io} {request : Bytes}
    (h : World.Inv w) (hs : builtinCommand api vx cfg ptr w io request = some (w', io')) :
    World.Inv w' := by
  rcases builtinCommand_cases api vx cfg hs with rfl | ⟨_, _, _, _, hcall⟩
  · exact h
  · exact callBuiltin_inv api vx cfg h hcall

theorem builtinCommandsCallback_inv {ptr : CmdPtr} {w w' : World σ γ} {io io' : Io}
    {reqBuf : Bytes} (h : World.Inv w)
    (hs : builtinCommandsCallback api vx cfg ptr w io reqBuf = some (w', io')) :
    World.Inv w' := by
  refine walk_invariant (P := fun st : World σ γ × Io => World.Inv st.1) ?_ h hs
  intro st f st' hst hb
  simp only [Option.map_eq_some_iff] at hb
  rcases hb with ⟨r, hr, hy⟩ | ⟨r, hr, hy⟩
  · cases hy
    exact builtinCommand_inv api vx cfg hst hr
  · cases hy

theorem runGroup_inv {g : Group} {w w' : World σ γ} {io io' : Io} (h : World.Inv w)
    (hs : runGroup api vx cfg g w io = some (w', io')) : World.Inv w' := by
  unfold runGroup at hs
  split at hs
  · cases hs; exact h
  · split at hs
    · cases hs
    · split at hs
      · split at hs
        · exact processCommandsCallback_inv api vx cfg h hs
        · cases hs
      · exact builtinCommandsCallback_inv api vx cfg h hs

theorem dispatchStep_inv {d d' : Dispatch σ γ} {request : Bytes} (h : World.Inv d.world)
    (hs : dispatchStep api vx cfg d request = some d') : World.Inv d'.world := by
  unfold dispatchStep at hs
  simp only [] at hs
  split at hs
  · cases hs; exact h
  · split at hs
    · cases hs
    · next w io hrun =>
        cases hs
        exact runGroup_inv api vx cfg h hrun

/-- Every batch leaves the table safe to follow. -/
theorem processMulti_inv {w w' : World σ γ} {io io' : Io} {reqBuf : Bytes} {n : Int}
    (h : World.Inv w) (hs : processMulti api vx cfg w io reqBuf = some (w', io', n)) :
    World.Inv w' := by
  unfold processMulti at hs
  simp only [] at hs
  split at hs
  · cases hs
  · next store _ =>
      split at hs
      · cases hs
      · next d hd =>
          have h1 : World.Inv d.world := by
            refine walk_invariant (P := fun d : Dispatch σ γ => World.Inv d.world) ?_
              (h.of_eq rfl rfl rfl) hd
            intro d f d' hinv hb
            simp only [Option.map_eq_some_iff] at hb
            rcases hb with ⟨r, hr, hy⟩ | ⟨r, hr, hy⟩
            · cases hy
              exact dispatchStep_inv api vx cfg hinv hr
            · cases hy
          split at hs
          · cases hs
          · next w1 io1 hrun =>
              cases hs
              exact runGroup_inv api vx cfg h1 hrun

end Groups

/-- A sandbox in which nothing runs. -/
def idleVx : Vx Unit where
  run := fun g => (.other, g)
  reg := fun _ _ => 0
  setReg := fun g _ _ => g
  checkperm := fun _ _ _ _ => false
  read := fun _ _ n => List.replicate n 0
  write := fun g _ _ => g
  memSize := fun _ => 0
  resize := fun _ _ => none
  setperm := fun _ _ _ => none
  fillRandom := fun g _ _ => g
  base := fun _ => 0
  ptrSz := 4
  length_read := fun _ _ _ => List.length_replicate

/-- A server started without the sandbox. -/
def plainConfig : Config Unit where
  vx32Disabled := true
  gccCommand := fun _ _ _ => []
  writeFile := fun _ _ => none
  system := fun _ _ => (1, none)
  loadElf := fun _ _ => none

end Smalltable.Proofs
