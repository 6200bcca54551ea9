import Mathlib.Data.List.Nodup
import Smalltable.Proofs.Lifecycle

/-!
# The registration count

`registercnt` is meant to be the number of slots that point to a process. It
decides two things: a process without a command is not allowed to wait for
requests, and one that loses its last command is freed. `Registered` is the
invariant that makes both right, over the whole life of the processes.

It holds as long as no process registers a command it owns already. Then
`syscall_register` counts the command a second time, the process outlives its
last command, and nothing can find it any more.

The conditions are on the calls of `st_register`, and they are about a state that the
program knows: whether it has the command already. Taking a command from another process
is no problem.
-/

namespace Smalltable.Proofs

open Smalltable.Ref

/-! ## Counting slots

`owned` counts the slots of a process. Writing one slot changes the counts of the
process that was there and of the one that is now. -/

/-- Changing one element of a list without repetitions changes a count by what
it counted before and counts now. -/
theorem countP_change {α : Type} [DecidableEq α] {p q : α → Bool} {a : α} :
    ∀ {l : List α}, l.Nodup → a ∈ l → (∀ b ∈ l, b ≠ a → p b = q b) →
      l.countP q + (if p a then 1 else 0) = l.countP p + (if q a then 1 else 0) := by
  intro l
  induction l with
  | nil => intro _ hmem; cases hmem
  | cons b l ih =>
      intro hnodup hmem hsame
      obtain ⟨hnot, hnodup⟩ := List.nodup_cons.mp hnodup
      simp only [List.countP_cons]
      by_cases hb : b = a
      · subst hb
        have hrest : l.countP q = l.countP p := by
          refine List.countP_congr fun c hc => ?_
          rw [hsame c (List.mem_cons_of_mem b hc) fun h => hnot (h ▸ hc)]
        omega
      · have hmem : a ∈ l := (List.mem_cons.mp hmem).resolve_left fun h => hb h.symm
        have hrest := ih hnodup hmem fun c hc => hsame c (List.mem_cons_of_mem b hc)
        have hhead := hsame b List.mem_cons_self hb
        rw [hhead]
        omega

/-- The number of slots that point to a process. -/
def owned (t : CmdTable) (pid : Nat) : Nat :=
  allCmds.countP fun cmd => (t cmd).ptr = .process pid

theorem allCmds_nodup : allCmds.Nodup := by
  refine List.Nodup.map_on ?_ List.nodup_range
  intro x hx y hy hxy
  have hx := List.mem_range.mp hx
  have hy := List.mem_range.mp hy
  have hmod : x % 256 = y % 256 := by simpa using congrArg UInt8.toNat hxy
  omega

theorem owned_put (t : CmdTable) (cmd : UInt8) (e : CmdEntry) (pid : Nat) :
    owned (t.put cmd e) pid + (if (t cmd).ptr = .process pid then 1 else 0)
      = owned t pid + (if e.ptr = .process pid then 1 else 0) := by
  have h := countP_change (p := fun c => decide ((t c).ptr = .process pid))
    (q := fun c => decide ((t.put cmd e c).ptr = .process pid)) allCmds_nodup (mem_allCmds cmd)
    (fun b _ hb => by simp [CmdTable.put, hb])
  simpa [owned, CmdTable.put] using h

theorem owned_pos_iff {t : CmdTable} {pid : Nat} :
    0 < owned t pid ↔ ∃ cmd, (t cmd).ptr = .process pid := by
  rw [owned, List.countP_pos_iff]
  simp [mem_allCmds]

section Count

variable {σ γ : Type} {w : World σ γ}

theorem owned_processFree (h : World.Inv w) (pid p : Nat) :
    owned (w.processFree pid).cmdPointers p = if p = pid then 0 else owned w.cmdPointers p := by
  have htab : (w.processFree pid).cmdPointers
      = fun c => if (w.cmdPointers c).ptr = .process pid then {} else w.cmdPointers c :=
    h.unregisterAll pid
  have hslot : ∀ c, ((w.processFree pid).cmdPointers c).ptr = .process p ↔
      (w.cmdPointers c).ptr = .process p ∧ p ≠ pid := by
    intro c
    rw [htab]
    simp only []
    split
    · next heq =>
        rw [heq]
        constructor
        · exact nofun
        · rintro ⟨hp, hne⟩
          cases hp
          exact absurd rfl hne
    · next hne =>
        refine ⟨fun hp => ⟨hp, ?_⟩, fun hp => hp.1⟩
        rintro rfl
        exact hne hp
  rw [owned]
  split
  · next heq =>
      subst heq
      simp [hslot]
  · next hne => simp [hslot, hne, owned]

/-- A number that was not given to a process yet is in no slot. -/
theorem owned_fresh (h : World.Inv w) {pid : Nat} (hpid : w.nextProc ≤ pid) :
    owned w.cmdPointers pid = 0 := by
  by_contra hpos
  obtain ⟨cmd, hcmd⟩ := owned_pos_iff.mp (Nat.pos_of_ne_zero hpos)
  exact (h.slot_process hcmd).2 (h.fresh pid hpid)

/-- `find_process` overlooks no slot. -/
theorem findProcessIn_none {key : Bytes} : ∀ {cmds : List UInt8},
    w.findProcessIn key cmds = some none → ∀ cmd ∈ cmds, ∀ pid pr,
      (commandGet w.cmdPointers cmd).ptr = .process pid → w.procs pid = some pr → pr.key ≠ key := by
  intro cmds
  induction cmds with
  | nil => exact fun _ _ hmem => absurd hmem List.not_mem_nil
  | cons c cmds ih =>
      intro h cmd hmem pid pr hptr hpr
      rw [World.findProcessIn] at h
      rcases List.mem_cons.mp hmem with rfl | hmem
      · rw [hptr] at h
        simp only [hpr] at h
        split at h
        · cases h
        · next hne => exact hne
      · split at h
        · split at h
          · cases h
          · split at h
            · cases h
            · exact ih h cmd hmem pid pr hptr hpr
        · exact ih h cmd hmem pid pr hptr hpr

/-- It finds the process with a key, if there is one with a command. -/
theorem findProcessIn_some {pid : Nat} {pr : Process γ} (hpr : w.procs pid = some pr)
    (hlive : ∀ cmd q, (commandGet w.cmdPointers cmd).ptr = .process q → w.procs q ≠ none)
    (hkeys : ∀ q pr', w.procs q = some pr' → pr'.key = pr.key → q = pid) :
    ∀ {cmds : List UInt8}, (∃ cmd ∈ cmds, (commandGet w.cmdPointers cmd).ptr = .process pid) →
      w.findProcessIn pr.key cmds = some (some pid) := by
  intro cmds
  induction cmds with
  | nil => rintro ⟨_, hmem, _⟩; cases hmem
  | cons c cmds ih =>
      rintro ⟨cmd, hmem, hptr⟩
      rw [World.findProcessIn]
      rcases List.mem_cons.mp hmem with rfl | hmem
      · rw [hptr]
        simp [hpr]
      · split
        · next q hq =>
            obtain ⟨pr', hpr'⟩ := Option.ne_none_iff_exists'.mp (hlive c q hq)
            simp only [hpr']
            split
            · next hkey => rw [hkeys q pr' hpr' hkey]
            · exact ih ⟨cmd, hmem, hptr⟩
        · exact ih ⟨cmd, hmem, hptr⟩

theorem commandGet_of_inv (h : World.Inv w) {cmd : UInt8} {pid : Nat} :
    (commandGet w.cmdPointers cmd).ptr = .process pid ↔ (w.cmdPointers cmd).ptr = .process pid := by
  unfold commandGet
  split
  · next hro =>
      refine ⟨nofun, fun hptr => ?_⟩
      rw [h.isRo_iff, (h.slot_process hptr).1] at hro
      cases hro
  · exact Iff.rfl

end Count

/-! ## The invariant

The counts are exact, no two processes have the same key, and every process has a
command but perhaps the one that runs, which may not have registered any yet. -/

section Invariant

variable {σ γ : Type}

/-- Every count is the number of slots of its process. -/
def CountExact (w : World σ γ) : Prop :=
  ∀ pid pr, w.procs pid = some pr → pr.registercnt = owned w.cmdPointers pid

/-- No two processes have the same key. -/
def KeysDistinct (w : World σ γ) : Prop :=
  ∀ p q pr pr', w.procs p = some pr → w.procs q = some pr' → pr.key = pr'.key → p = q

/-- Every process but perhaps `pid` has a command. -/
def OthersOwn (pid : Option Nat) (w : World σ γ) : Prop :=
  ∀ p pr, w.procs p = some pr → pid ≠ some p → 0 < owned w.cmdPointers p

/-- The three of them, `pid` being the process that runs. -/
structure Counted (pid : Option Nat) (w : World σ γ) : Prop where
  inv : World.Inv w
  count : CountExact w
  keys : KeysDistinct w
  own : OthersOwn pid w

/-- A process changes in what does not matter here. -/
theorem Counted.setProc {pid : Option Nat} {w : World σ γ} (h : Counted pid w) {p : Nat}
    {pr pr' : Process γ} (hpr : w.procs p = some pr) (hkey : pr'.key = pr.key)
    (hcnt : pr'.registercnt = pr.registercnt) : Counted pid (w.setProc p (some pr')) := by
  have hlive : w.procs p ≠ none := by rw [hpr]; exact Option.some_ne_none pr
  have hold : ∀ i x, (w.setProc p (some pr')).procs i = some x →
      ∃ y, w.procs i = some y ∧ x.key = y.key ∧ x.registercnt = y.registercnt := by
    intro i x hi
    have hi : (if i = p then some pr' else w.procs i) = some x := hi
    split at hi
    · next heq =>
        cases hi
        subst heq
        exact ⟨pr, hpr, hkey, hcnt⟩
    · exact ⟨x, hi, rfl, rfl⟩
  have hrun : World.Running w p := ⟨h.inv, hlive⟩
  refine ⟨(hrun.setProc hlive pr').toInv, ?_, ?_, ?_⟩
  · intro i x hi
    obtain ⟨y, hy, -, hxy⟩ := hold i x hi
    rw [hxy]
    exact h.count i y hy
  · intro i j x x' hi hj hkeys
    obtain ⟨y, hy, hxy, -⟩ := hold i x hi
    obtain ⟨y', hy', hxy', -⟩ := hold j x' hj
    exact h.keys i j y y' hy hy' (by rw [← hxy, ← hxy', hkeys])
  · intro i x hi hne
    obtain ⟨y, hy, -, -⟩ := hold i x hi
    exact h.own i y hy hne

theorem Counted.processFree {pid : Option Nat} {w : World σ γ} (h : Counted pid w) (p : Nat)
    {pid' : Option Nat} (hpid : ∀ q, q ≠ p → pid = some q → pid' = some q) :
    Counted pid' (w.processFree p) := by
  have hold : ∀ i x, (w.processFree p).procs i = some x → i ≠ p ∧ w.procs i = some x := by
    intro i x hi
    have hi : (if i = p then none else w.procs i) = some x := hi
    split at hi
    · cases hi
    · next hne => exact ⟨hne, hi⟩
  refine ⟨h.inv.processFree p, ?_, ?_, ?_⟩
  · intro i x hi
    obtain ⟨hne, hi⟩ := hold i x hi
    rw [owned_processFree h.inv, if_neg hne]
    exact h.count i x hi
  · intro i j x x' hi hj hkeys
    exact h.keys i j x x' (hold i x hi).2 (hold j x' hj).2 hkeys
  · intro i x hi hrun
    obtain ⟨hne, hi⟩ := hold i x hi
    rw [owned_processFree h.inv, if_neg hne]
    exact h.own i x hi fun heq => hrun (hpid i hne heq)

/-- A slot that no other process has is given to a process, or taken from it, and
counted. -/
theorem Counted.put {run : Option Nat} {pid : Nat} {w : World σ γ} (h : Counted run w)
    (cnt : Int) {pr : Process γ} (hpr : w.procs pid = some pr) {cmd : UInt8}
    (hro : (cmdPointersInit cmd).isRo = false) {e : CmdEntry} (he : SlotOk w e)
    (hslot : ∀ q, (w.cmdPointers cmd).ptr = .process q → q = pid)
    (hentry : ∀ q, e.ptr = .process q → q = pid)
    (hown : run ≠ some pid → 0 < owned (w.cmdPointers.put cmd e) pid)
    (hcnt : cnt + (if (w.cmdPointers cmd).ptr = .process pid then 1 else 0)
      = pr.registercnt + (if e.ptr = .process pid then 1 else 0)) :
    Counted run { w.setProc pid (some { pr with registercnt := cnt }) with
      cmdPointers := w.cmdPointers.put cmd e } := by
  have hlive : w.procs pid ≠ none := by rw [hpr]; exact Option.some_ne_none pr
  have hrun : World.Running w pid := ⟨h.inv, hlive⟩
  have hself := owned_put w.cmdPointers cmd e pid
  have hother : ∀ q, q ≠ pid → owned (w.cmdPointers.put cmd e) q = owned w.cmdPointers q := by
    intro q hne
    have hq := owned_put w.cmdPointers cmd e q
    rw [if_neg fun heq => hne (hslot q heq), if_neg fun heq => hne (hentry q heq)] at hq
    omega
  have hold : ∀ i x, (w.setProc pid (some { pr with registercnt := cnt })).procs i = some x →
      (i = pid ∧ x = { pr with registercnt := cnt }) ∨ (i ≠ pid ∧ w.procs i = some x) := by
    intro i x hi
    have hi : (if i = pid then some _ else w.procs i) = some x := hi
    split at hi
    · next heq => cases hi; exact .inl ⟨heq, rfl⟩
    · next hne => exact .inr ⟨hne, hi⟩
  refine ⟨((hrun.put hro he).setProc hlive _).toInv, ?_, ?_, ?_⟩
  · intro i x hi
    show x.registercnt = owned (w.cmdPointers.put cmd e) i
    rcases hold i x hi with ⟨rfl, rfl⟩ | ⟨hne, hi⟩
    · have hbefore := h.count i pr hpr
      show cnt = owned (w.cmdPointers.put cmd e) i
      by_cases hold : (w.cmdPointers cmd).ptr = .process i
      · by_cases hnew : e.ptr = .process i
        · simp only [if_pos hold, if_pos hnew] at hself hcnt
          omega
        · simp only [if_pos hold, if_neg hnew] at hself hcnt
          omega
      · by_cases hnew : e.ptr = .process i
        · simp only [if_neg hold, if_pos hnew] at hself hcnt
          omega
        · simp only [if_neg hold, if_neg hnew] at hself hcnt
          omega
    · rw [hother i hne]
      exact h.count i x hi
  · intro i j x x' hi hj hkeys
    rcases hold i x hi with ⟨rfl, rfl⟩ | ⟨hi, hi'⟩ <;> rcases hold j x' hj with ⟨rfl, rfl⟩
        | ⟨hj, hj'⟩
    · rfl
    · exact h.keys i j pr x' hpr hj' hkeys
    · exact h.keys i j x pr hi' hpr hkeys
    · exact h.keys i j x x' hi' hj' hkeys
  · intro i x hi hidle
    show 0 < owned (w.cmdPointers.put cmd e) i
    rcases hold i x hi with ⟨rfl, rfl⟩ | ⟨hne, hi⟩
    · exact hown hidle
    · rw [hother i hne]
      exact h.own i x hi hidle

theorem SameWorld.counted {run : Option Nat} {w w' : World σ γ} (hsame : SameWorld w w')
    (h : Counted run w) : Counted run w' := by
  obtain ⟨hptrs, hprocs, hnext⟩ := hsame
  refine ⟨h.inv.of_eq hptrs hprocs hnext, ?_, ?_, ?_⟩
  · intro i x hi
    rw [hptrs]
    exact h.count i x (by rw [← hprocs]; exact hi)
  · intro i j x x' hi hj
    rw [hprocs] at hi hj
    exact h.keys i j x x' hi hj
  · intro i x hi
    rw [hptrs]
    exact h.own i x (by rw [← hprocs]; exact hi)

/-- The slot is no other process's after `syscall_register` has dealt with the one
it belonged to. -/
theorem Counted.take {pid : Nat} {w w1 : World σ γ} (h : Counted (some pid) w) {cmd : UInt8}
    (hro : (cmdPointersInit cmd).isRo = false)
    (hfresh : (w.cmdPointers cmd).ptr ≠ .process pid)
    (hdrop : dropLooser w pid (w.cmdPointers cmd) = some w1) {pr : Process γ}
    (hpr : w1.procs pid = some pr) (flags : Nat) :
    Counted (some pid) { w1.setProc pid (some { pr with registercnt := pr.registercnt + 1 }) with
      cmdPointers := w1.cmdPointers.put cmd (processEntry pid flags) } := by
  have hentry : ∀ q, (processEntry pid flags).ptr = .process q → q = pid := by
    intro q hq
    cases hq
    rfl
  have hlive : ∀ {w' : World σ γ}, w'.procs pid = some pr → SlotOk w' (processEntry pid flags) :=
    fun hw' => .inr ⟨pid, flags, rfl, by rw [hw']; exact Option.some_ne_none pr⟩
  rcases dropLooser_cases hdrop with ⟨rfl, hnone⟩ | ⟨q, prq, hptr, hne, hprq, hcase⟩
  · refine h.put _ hpr hro (hlive hpr) hnone hentry (fun hrun => absurd rfl hrun) ?_
    rw [if_neg hfresh, if_pos (processEntry_ptr pid flags)]
    omega
  · rcases hcase with ⟨-, rfl⟩ | ⟨hmore, rfl⟩
    · -- the other process is freed and its slots are empty
      have h1 : Counted (some pid) (w.processFree q) := h.processFree q fun _ _ heq => heq
      have hempty : (w.processFree q).cmdPointers cmd = {} := by
        show World.unregisterAll q 256 w.cmdPointers cmd = {}
        rw [h.inv.unregisterAll]
        simp only []
        rw [if_pos hptr]
      refine h1.put _ hpr hro (hlive hpr) (fun p hp => ?_) hentry (fun hrun => absurd rfl hrun) ?_
      · rw [hempty] at hp
        cases hp
      · rw [hempty, if_neg (by exact nofun), if_pos (processEntry_ptr pid flags)]
        omega
    · -- it keeps others, and this slot is overwritten
      have hcount := h.count q prq hprq
      have hput := owned_put w.cmdPointers cmd {} q
      rw [if_pos hptr, if_neg (by exact nofun)] at hput
      have h1 := h.put (prq.registercnt - 1) (e := {}) hprq hro (.inl rfl)
        (fun p hp => by rw [hptr] at hp; cases hp; rfl) nofun (fun _ => by omega)
        (by rw [if_pos hptr, if_neg (by exact nofun)]; omega)
      have htwice : (w.cmdPointers.put cmd {}).put cmd (processEntry pid flags)
          = w.cmdPointers.put cmd (processEntry pid flags) := by
        funext c
        simp only [CmdTable.put]
        split <;> rfl
      have h2 := h1.put (pr.registercnt + 1) (e := processEntry pid flags) hpr hro
        (hlive hpr) (fun p hp => ?_) hentry (fun hrun => absurd rfl hrun) ?_
      · rw [show ({ w.setProc q (some { prq with registercnt := prq.registercnt - 1 }) with
          cmdPointers := w.cmdPointers.put cmd {} } : World σ γ).cmdPointers
            = w.cmdPointers.put cmd {} from rfl, htwice] at h2
        exact h2
      · have hp : (w.cmdPointers.put cmd {} cmd).ptr = .process p := hp
        rw [CmdTable.put, if_pos rfl] at hp
        cases hp
      · show _ + (if (w.cmdPointers.put cmd {} cmd).ptr = .process pid then 1 else 0) = _
        rw [CmdTable.put, if_pos rfl, if_neg (by exact nofun),
          if_pos (processEntry_ptr pid flags)]
        omega

/-- The call does not register a command the process owns already. -/
def NotOwned (vx : Vx γ) (pid : Nat) (w : World σ γ) (g : γ) : Prop :=
  vx.reg g .eax = 0xFF00 → ¬ asInt (vx.reg g .edx) < 0 → ¬ asInt (vx.reg g .edx) > 255 →
    (w.cmdPointers (registerCmd vx g)).ptr ≠ .process pid

theorem SysEffect.counted {vx : Vx γ} {pid : Nat} {g : γ} {w w' : World σ γ}
    (he : SysEffect vx pid g w w') (hnot : NotOwned vx pid w g) (h : Counted (some pid) w) :
    Counted (some pid) w' := by
  cases he with
  | same hsame => exact hsame.counted h
  | touch hpr hkeeps => exact h.setProc hpr hkeeps.key hkeeps.registercnt
  | take flags hnum hlow hhigh hro hdrop hpr =>
      have hfree : (cmdPointersInit (registerCmd vx g)).isRo = false := by
        rw [← h.inv.isRo_iff]
        exact hro
      exact h.take hfree (hnot hnum hlow hhigh) hdrop hpr flags
  | give cmd hro hptr hpr =>
      rw [h.inv.isRo_iff] at hro
      refine h.put _ hpr hro (.inl rfl) (fun q hq => ?_) nofun (fun hrun => absurd rfl hrun) ?_
      · rw [hptr] at hq
        cases hq
        rfl
      · rw [if_pos hptr, if_neg (by exact nofun)]
        omega

theorem Counted.weaken {w : World σ γ} (h : Counted none w) (run : Option Nat) : Counted run w :=
  ⟨h.inv, h.count, h.keys, fun p pr hpr _ => h.own p pr hpr (Option.some_ne_none p).symm⟩

/-- A process that has a command may be counted among those that wait. -/
theorem Counted.wait {pid : Nat} {w : World σ γ} (h : Counted (some pid) w)
    (hown : 0 < owned w.cmdPointers pid) : Counted none w := by
  refine ⟨h.inv, h.count, h.keys, fun p pr hpr _ => ?_⟩
  by_cases hp : p = pid
  · rw [hp]; exact hown
  · exact h.own p pr hpr fun heq => hp (Option.some.inj heq).symm

/-- The name of a new process is one that none of the others has. -/
theorem Counted.processNew {w : World σ γ} (h : Counted none w) {key : Bytes}
    (hkey : w.findProcess key = some none) :
    Counted (some w.nextProc) (w.processNew key) := by
  have hold : ∀ i x, (w.processNew key).procs i = some x →
      (i = w.nextProc ∧ x = { key := key }) ∨ w.procs i = some x := by
    intro i x hi
    have hi : (if i = w.nextProc then some { key := key } else w.procs i) = some x := hi
    split at hi
    · next heq => cases hi; exact .inl ⟨heq, rfl⟩
    · exact .inr hi
  have hnew : ∀ i x, w.procs i = some x → x.key ≠ key := by
    intro i x hi
    obtain ⟨cmd, hcmd⟩ := owned_pos_iff.mp (h.own i x hi (Option.some_ne_none i).symm)
    exact findProcessIn_none hkey cmd (mem_allCmds cmd) i x
      ((commandGet_of_inv h.inv).mpr hcmd) hi
  refine ⟨(h.inv.processNew key).toInv, ?_, ?_, ?_⟩
  · intro i x hi
    show x.registercnt = owned w.cmdPointers i
    rcases hold i x hi with ⟨rfl, rfl⟩ | hi
    · rw [owned_fresh h.inv (Nat.le_refl _)]
      rfl
    · exact h.count i x hi
  · intro i j x x' hi hj hkeys
    rcases hold i x hi with ⟨rfl, rfl⟩ | hi
    · rcases hold j x' hj with ⟨rfl, -⟩ | hj
      · rfl
      · exact absurd hkeys.symm (hnew j x' hj)
    · rcases hold j x' hj with ⟨rfl, rfl⟩ | hj
      · exact absurd hkeys (hnew i x hi)
      · exact h.keys i j x x' hi hj hkeys
  · intro i x hi hne
    show 0 < owned w.cmdPointers i
    rcases hold i x hi with ⟨rfl, -⟩ | hi
    · exact absurd rfl hne
    · exact h.own i x hi (Option.some_ne_none i).symm

end Invariant

/-! ## Runs

Each move keeps the counts if it does not register what its process has already. From
the invariant the two decisions that are made by `registercnt` are read off. -/

section Runs

variable {σ γ : Type} (api : StStorageApi σ) (vx : Vx γ)

/-- The process that is being run. -/
def Life.pid (l : Life σ γ) : Option Nat := l.active.map (·.pid)

/-- No event is a call that registers a command of the caller's own. -/
def RegistersOthers (l : Life σ γ) : LifeEvent σ γ → Prop
  | .syscall g => ∀ pid, Life.pid l = some pid → NotOwned vx pid l.world g
  | _ => True

variable {api vx}

theorem LifeMove.counted {l l' : Life σ γ} {e : LifeEvent σ γ} (hmove : LifeMove api vx l e l')
    (hok : RegistersOthers vx l e) (hlife : LifeInv l) (h : Counted (Life.pid l) l.world) :
    Counted (Life.pid l') l'.world := by
  -- between two runs all processes wait
  have hidle : l.active = none → Counted none l.world := by
    intro hnone
    rw [Life.pid, hnone] at h
    exact h
  have hfree : ∀ {run : Option Nat} {w : World σ γ} (pid : Nat), Counted run w →
      (run = none ∨ run = some pid) → Counted none (w.processFree pid) := by
    intro run w pid hw hrun
    refine hw.processFree pid fun q hne heq => ?_
    rcases hrun with rfl | rfl
    · cases heq
    · cases heq; exact absurd rfl hne
  have hcalled : ∀ {a : Activation} {g : γ} {s : Sys σ γ}, l.active = some a →
      e = .syscall g →
      doSyscall api vx a.pid { world := l.world, io := a.io, guest := g } = some s →
      Counted (some a.pid) s.world := by
    intro a g s hactive he hcall
    subst he
    have hpid : Life.pid l = some a.pid := by rw [Life.pid, hactive]; rfl
    rw [hpid] at h
    have hrun : World.Running l.world a.pid := ⟨h.inv, hlife.active a hactive⟩
    exact (doSyscall_effect api vx hrun hcall).counted (hok a.pid hpid) h
  cases hmove with
  | stillborn hnone hkey =>
      exact hfree l.world.nextProc ((hidle hnone).processNew hkey) (.inr rfl)
  | @born io key g hnone hkey =>
      exact ((hidle hnone).processNew hkey).setProc
        (procs_setProc_self l.world l.world.nextProc { key := key }) rfl rfl
  | @unloaded key pid hnone hkey => exact hfree pid (hidle hnone) (.inl rfl)
  | @overrun io pid reqBuf pr hnone hpr hlong => exact hfree pid (hidle hnone) (.inl rfl)
  | @woken io pid reqBuf pr g hnone hpr _ _ =>
      have h1 : Counted none (l.world.setProc pid (some { pr with
          machine := some (vx.setReg (vx.write g pr.userBuf reqBuf) .eax reqBuf.length)
          sendBuf := some io.conn
          sendSz := 0 })) := (hidle hnone).setProc hpr rfl rfl
      exact h1.weaken (some pid)
  | @called a g s hactive hcall _ =>
      have h1 := hcalled hactive rfl hcall
      exact h1
  | @rested a g s pr hactive hcall hnext hpr _ =>
      have h1 := hcalled hactive rfl hcall
      obtain ⟨pr0, hpr0, hcnt, hworld⟩ := (doSyscall_yield api vx hcall hnext).world
      have hown : 0 < owned s.world.cmdPointers a.pid := by
        have hcount := h1.count a.pid pr hpr
        rw [hworld, procs_setProc_self] at hpr
        cases hpr
        have hcnt : pr0.registercnt ≠ 0 := hcnt
        have hcount : pr0.registercnt = owned s.world.cmdPointers a.pid := hcount
        omega
      exact (h1.wait hown).setProc hpr rfl rfl
  | @ended a g s hactive hcall _ => exact hfree a.pid (hcalled hactive rfl hcall) (.inr rfl)
  | @killed a hactive =>
      have hpid : Life.pid l = some a.pid := by rw [Life.pid, hactive]; rfl
      exact hfree a.pid h (.inr hpid)
  | @data store n hnone =>
      have hsame : SameWorld l.world { l.world with store := store, uniqueNumber := n } :=
        ⟨rfl, rfl, rfl⟩
      have h1 := hsame.counted h
      exact h1

/-- What the count is there for. -/
structure RegistrationExact (l : Life σ γ) : Prop where
  count : ∀ pid pr, l.world.procs pid = some pr →
    pr.registercnt = (allCmds.filter fun cmd => (l.world.cmdPointers cmd).ptr = .process pid).length
  /-- a process that waits has a command and is found under its key -/
  found : ∀ pid pr, l.world.procs pid = some pr → Life.pid l ≠ some pid →
    (∃ cmd, (l.world.cmdPointers cmd).ptr = .process pid) ∧
      l.world.findProcess pr.key = some (some pid)
  /-- a process is freed when another takes the only command it has -/
  takenOver : ∀ pid q cmd, (l.world.cmdPointers cmd).ptr = .process q → q ≠ pid →
    (∀ c, (l.world.cmdPointers c).ptr = .process q → c = cmd) →
      dropLooser l.world pid (l.world.cmdPointers cmd) = some (l.world.processFree q)

theorem owned_eq_one {t : CmdTable} {q : Nat} {cmd : UInt8} (hptr : (t cmd).ptr = .process q)
    (honly : ∀ c, (t c).ptr = .process q → c = cmd) : owned t q = 1 := by
  have hput := owned_put t cmd {} q
  rw [if_pos hptr, if_neg (by exact nofun)] at hput
  have hzero : owned (t.put cmd {}) q = 0 := by
    by_contra hne
    obtain ⟨c, hc⟩ := owned_pos_iff.mp (Nat.pos_of_ne_zero hne)
    rw [CmdTable.put] at hc
    split at hc
    · cases hc
    · next hother => exact hother (honly c hc)
  omega

theorem registrationExact_of_counted {l : Life σ γ} (h : Counted (Life.pid l) l.world) :
    RegistrationExact l := by
  refine ⟨?_, ?_, ?_⟩
  · intro pid pr hpr
    rw [h.count pid pr hpr, owned, List.countP_eq_length_filter]
  · intro pid pr hpr hidle
    obtain ⟨cmd, hcmd⟩ := owned_pos_iff.mp (h.own pid pr hpr hidle)
    refine ⟨⟨cmd, hcmd⟩, findProcessIn_some hpr ?_ ?_ ⟨cmd, mem_allCmds cmd, ?_⟩⟩
    · intro c q hq
      exact (h.inv.slot_process ((commandGet_of_inv h.inv).mp hq)).2
    · intro q pr' hpr' hkey
      exact h.keys q pid pr' pr hpr' hpr hkey
    · exact (commandGet_of_inv h.inv).mpr hcmd
  · intro pid q cmd hptr hne honly
    obtain ⟨pr, hpr⟩ := Option.ne_none_iff_exists'.mp (h.inv.slot_process hptr).2
    have hone : pr.registercnt = 1 := by
      rw [h.count q pr hpr, owned_eq_one hptr honly]
      rfl
    simp [dropLooser, hptr, hne, hpr, hone]

/-- The count stays exact in every run in which no process registers a command
it owns already. -/
theorem registration_exact (api : StStorageApi σ) (vx : Vx γ) (store : σ)
    (es : List (LifeEvent σ γ))
    (hok : AllSteps (lifeStep api vx) (RegistersOthers vx) (lifeStart store) es) {l : Life σ γ}
    (h : lifeRun api vx (lifeStart store) es = some l) : RegistrationExact l := by
  have hstart : Counted none (lifeStart store : Life σ γ).world :=
    ⟨World.inv_start store, fun _ _ hpr => absurd hpr (Option.some_ne_none _).symm,
      fun _ _ _ _ hpr => absurd hpr (Option.some_ne_none _).symm,
      fun _ _ hpr => absurd hpr (Option.some_ne_none _).symm⟩
  have hinv := runSteps_invariant
    (P := fun l : Life σ γ => LifeInv l ∧ Counted (Life.pid l) l.world)
    (fun s e t hs hok hstep =>
      have hmove := lifeStep_move api vx hstep
      ⟨hmove.inv hs.1, hmove.counted hok hs.1 hs.2⟩)
    ⟨lifeInv_start store, hstart⟩ hok h
  exact registrationExact_of_counted hinv.2

end Runs

theorem registration_exact_registered :
    ∃ l, lifeRun emptyEngine registersVx (lifeStart ()) registersAndWaits = some l ∧
      RegistrationExact l := by
  have hok : AllSteps (lifeStep emptyEngine registersVx) (RegistersOthers registersVx)
      (lifeStart ()) registersAndWaits := by
    refine ⟨trivial, fun l1 h1 => ⟨fun pid _ _ _ _ => ?_, fun l2 _ => ⟨?_, fun _ _ => trivial⟩⟩⟩
    · -- nothing is registered when the program starts
      cases h1
      show (cmdPointersInit _).ptr ≠ .process pid
      exact cmdPointersInit_ptr _ pid
    · intro pid _ hnum
      exact absurd hnum (by decide)
  have h : (lifeRun emptyEngine registersVx (lifeStart ()) registersAndWaits).isSome = true := by
    decide +kernel
  obtain ⟨l, hl⟩ := Option.isSome_iff_exists.mp h
  exact ⟨l, hl, registration_exact emptyEngine registersVx () registersAndWaits hok hl⟩

/-- A program registers command 0x80 twice, gives it back, and waits. -/
def registersTwice : List (LifeEvent Unit (Reg → Nat)) :=
  [.codeLoad {} (ascii "p") (some fun _ => 0),
   .syscall (callWith 0xFF00 0x80 0),
   .syscall (callWith 0xFF00 0x80 0),
   .syscall (callWith 0xFF01 0x80 0),
   .syscall (callWith 0xFF02 0 maxRequestSize)]

/-- It is counted with one command, has none, and is never found again. -/
theorem registration_countedTwice :
    ∃ l, lifeRun emptyEngine registersVx (lifeStart ()) registersTwice = some l ∧
      ¬ RegistrationExact l := by
  have h : ((lifeRun emptyEngine registersVx (lifeStart ()) registersTwice).map fun l =>
      ((l.world.procs 0).map (·.registercnt),
        (allCmds.filter fun cmd => (l.world.cmdPointers cmd).ptr = .process 0).length))
        = some (some 1, 0) := by decide +kernel
  obtain ⟨l, hl, hview⟩ := Option.map_eq_some_iff.mp h
  obtain ⟨hcnt, hslots⟩ := Prod.mk.inj hview
  obtain ⟨pr, hpr, hone⟩ := Option.map_eq_some_iff.mp hcnt
  refine ⟨l, hl, fun hexact => ?_⟩
  have hcount := hexact.count 0 pr hpr
  rw [hone, hslots] at hcount
  exact absurd hcount (by decide)

end Smalltable.Proofs
