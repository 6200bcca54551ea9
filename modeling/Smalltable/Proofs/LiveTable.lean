import Smalltable.Proofs.CodeLoad
import Smalltable.Proofs.Grouping
import Smalltable.Proofs.Registration

/-!
# The handler a request is served by, and the one the table holds for it

The entry of a group is read off its first request, before the group in front of
it is run; the requests that join the group are read when that one has been run,
and before this one is. So the entry of a request is always a little old. What
can come in between is known: the processes that are loaded, woken and freed, and
the system calls they make. Each of these is an event of the machine of
`Ref.Lifecycle`, and `slotTouched` says of an event, from the state it happens in,
what it writes into a given slot of the table, if anything.

A batch is then told request by request. Every group that is handed over is a
`HandOver`: its requests, each with the events of carrying it out. For builtin
commands these come one request at a time. A process has all requests of its group
in front of it, and which of its calls it makes for which of them is its own
affair, so the calls may be divided among the requests in any way; only that it is
woken comes with the first of them.

`HandOver.Live` is what one wants: when its turn comes, the table holds for a
request the entry of the group it is in. `processMulti_live_iff` says when that is
so: whatever was written into the slot of a request between the reading and its
turn, the last of it was the entry that had been read.
-/

namespace Smalltable.Proofs

open Smalltable.Ref

/-! ## What an event writes into a slot

Each event is looked at in the state it happens in: which slots a process has, whether a
call stops it, and what becomes of the process that had the command before. `lastTouch`
is the last thing written into a slot by a list of events, which is what is there
afterwards (`lifeRun_slot`). -/

section Slots

variable {σ γ : Type} (api : StStorageApi σ) (vx : Vx γ) (op : UInt8)

instance decidableRegisters (g : γ) : Decidable (Registers vx g) :=
  decidable_of_iff (vx.reg g .eax = 0xFF00 ∧ ¬ asInt (vx.reg g .edx) < 0 ∧
      ¬ asInt (vx.reg g .edx) > 255)
    ⟨fun h => ⟨h.1, h.2.1, h.2.2⟩, fun h => ⟨h.num, h.low, h.high⟩⟩

/-- A call of `st_unregister` for the command `op`. -/
def Unregisters (g : γ) : Prop :=
  vx.reg g .eax = 0xFF01 ∧ asInt (vx.reg g .edx) = op.toNat

instance decidableUnregisters (g : γ) : Decidable (Unregisters vx op g) :=
  inferInstanceAs (Decidable (_ ∧ _))

/-- Freeing a process empties the slots it has. -/
def freeTouches (w : World σ γ) (pid : Nat) : Option CmdEntry :=
  if (w.cmdPointers op).ptr = .process pid then some {} else none

/-- The process that loses its last command when `pid` takes `cmd`. -/
def looserOf (w : World σ γ) (pid : Nat) (cmd : UInt8) : Option Nat :=
  match (w.cmdPointers cmd).ptr with
  | .process q => if q ≠ pid ∧ (w.procs q).map (·.registercnt) = some 1 then some q else none
  | _ => none

/-- A call of the process `pid` that registers or unregisters. -/
def callTouches (w : World σ γ) (pid : Nat) (g : γ) : Option CmdEntry :=
  if Registers vx g then
    -- builtin commands are refused
    if (w.cmdPointers (registerCmd vx g)).isRo then none
    else if op = registerCmd vx g then some (processEntry pid (vx.reg g .ecx))
    else (looserOf w pid (registerCmd vx g)).bind (freeTouches op w)
  else if Unregisters vx op g then freeTouches op w pid
  else none

/-- The memory a guest asks for cannot be had. -/
def brkFails (g : γ) : Bool :=
  let inc := 2 ^ 20
  let addr := (vx.reg g .edx + inc - 1) % 2 ^ 32 / inc * inc
  decide (vx.memSize g < addr) &&
    match vx.resize g addr with
    | none => true
    | some g' => (vx.setperm g' (vx.memSize g) (addr - vx.memSize g)).isNone

/-- The calls that end the process: an exit, memory that cannot be had, a wait with a
buffer that is too small or without an answer to the group, and an answer that goes
beyond all bounds. -/
def endsProcess (w : World σ γ) (a : Activation) (g : γ) : Bool :=
  match w.procs a.pid with
  | none => false
  | some pr =>
      let len := asInt (vx.reg g .ecx)
      if vx.reg g .eax = 0x01 then true
      else if vx.reg g .eax = 0x02 then brkFails vx g
      else if vx.reg g .eax = 0xFF02 then
        decide (pr.registercnt ≠ 0) && vx.checkperm g (vx.reg g .edx) (vx.reg g .ecx) .write &&
          (decide (len < maxRequestSize) || (a.serving && decide (pr.sendSz = 0)))
      else if vx.reg g .eax = 0xFF03 then
        decide (1 ≤ len) && vx.checkperm g (vx.reg g .edx) (vx.reg g .ecx) .read &&
          decide (maxRequestSize * 3 ≤ pr.sendSz + len)
      else false

/-- What an event writes into the slot of `op`. -/
def slotTouched (l : Life σ γ) : LifeEvent σ γ → Option CmdEntry
  | .codeLoad _ _ _ => none
  | .codeUnload key =>
      match l.world.findProcess key with
      | some (some pid) => freeTouches op l.world pid
      | _ => none
  | .callback _ pid reqBuf =>
      match l.world.procs pid with
      | none => none
      | some pr => if pr.userBufSz < reqBuf.length then freeTouches op l.world pid else none
  | .syscall g =>
      l.active.bind fun a =>
        if endsProcess vx l.world a g then freeTouches op l.world a.pid
        else callTouches vx op l.world a.pid g
  | .killed => l.active.bind fun a => freeTouches op l.world a.pid
  | .data _ _ => none

variable {api vx op}

theorem processFree_slot {w : World σ γ} (h : World.Inv w) (pid : Nat) :
    (w.processFree pid).cmdPointers op = (freeTouches op w pid).getD (w.cmdPointers op) := by
  rw [show (w.processFree pid).cmdPointers = _ from h.unregisterAll pid, freeTouches]
  split
  · next hptr => exact if_pos hptr
  · next hptr => exact if_neg hptr

theorem dropLooser_slot {w w' : World σ γ} (h : World.Inv w) {pid : Nat} {cmd : UInt8}
    (hd : dropLooser w pid (w.cmdPointers cmd) = some w') :
    w'.cmdPointers op
      = ((looserOf w pid cmd).bind (freeTouches op w)).getD (w.cmdPointers op) := by
  rcases dropLooser_cases hd with ⟨rfl, hown⟩ | ⟨q, pr, hptr, hne, hpr, ⟨hone, rfl⟩ | ⟨hmore, rfl⟩⟩
  · have hnone : looserOf w' pid cmd = none := by
      unfold looserOf
      split
      · next q hptr => exact if_neg fun hbad => hbad.1 (hown q hptr)
      · rfl
    rw [hnone]
    rfl
  · have hsome : looserOf w pid cmd = some q := by
      rw [looserOf, hptr]
      exact if_pos ⟨hne, by rw [hpr, Option.map_some, hone]⟩
    rw [hsome]
    exact processFree_slot h q
  · have hnone : looserOf w pid cmd = none := by
      rw [looserOf, hptr]
      refine if_neg fun hbad => hmore ?_
      rw [hpr, Option.map_some] at hbad
      exact Option.some.inj hbad.2
    rw [hnone]
    rfl

/-- The calls that are not about commands leave the table alone. -/
theorem doSyscall_table {pid : Nat} {s s' : Sys σ γ} (hreg : vx.reg s.guest .eax ≠ 0xFF00)
    (hunreg : vx.reg s.guest .eax ≠ 0xFF01) (hs : doSyscall api vx pid s = some s') :
    s'.world.cmdPointers = s.world.cmdPointers := by
  unfold doSyscall at hs
  split at hs
  · cases hs
  · next s1 hs1 =>
      cases hs
      show s1.world.cmdPointers = s.world.cmdPointers
      unfold syscalls at hs1
      split at hs1
      case h_4 hnum => exact absurd hnum hreg
      case h_5 hnum => exact absurd hnum hunreg
      case h_1 | h_6 | h_7 =>
        simp only [syscallExit, syscallReadrequests, syscallWriteresponses, withProc] at hs1
        repeat' split at hs1
        all_goals
          cases hs1
          try rfl
      · exact (syscallBrk_same vx hs1).1
      · exact (syscallWrite_same vx hs1).1
      · exact (syscallStGet_same api vx hs1).1
      · exact (syscallStPrefetch_same api vx hs1).1
      · exact (syscallStSet_same api vx hs1).1
      · exact (syscallStDel_same api vx hs1).1
      · exact (syscallStGetrandom_same vx hs1).1
      · cases hs1; rfl

theorem doSyscall_register_slot {pid : Nat} {s s' : Sys σ γ} (h : World.Running s.world pid)
    (hnum : vx.reg s.guest .eax = 0xFF00) (hs : doSyscall api vx pid s = some s') :
    s'.world.cmdPointers op
      = (callTouches vx op s.world pid s.guest).getD (s.world.cmdPointers op) := by
  unfold doSyscall at hs
  rw [hnum] at hs
  split at hs
  · cases hs
  · next s1 hs1 =>
      cases hs
      have hs1 : syscallRegister vx pid { s with next := .continue } = some s1 := hs1
      unfold syscallRegister at hs1
      simp only [] at hs1
      have hno : ¬ Unregisters vx op s.guest := by
        rintro ⟨hbad, -⟩
        rw [hnum] at hbad
        cases hbad
      rw [callTouches, if_neg hno]
      split at hs1
      · next hrange =>
          cases hs1
          rw [if_neg fun hreg => not_or.mpr ⟨hreg.low, hreg.high⟩ hrange]
          rfl
      · next hrange =>
          obtain ⟨hlow, hhigh⟩ := not_or.mp hrange
          rw [if_pos ⟨hnum, hlow, hhigh⟩]
          split at hs1
          · cases hs1
          · next w hw =>
              have hfree := ((dropLooser_running h hw).isRo_iff (registerCmd vx s.guest)).trans
                (h.isRo_iff (registerCmd vx s.guest)).symm
              split at hs1
              · cases hs1
              · next pr hpr =>
                  rw [show (asInt (vx.reg s.guest .edx)).toNat.toUInt8
                    = registerCmd vx s.guest from rfl] at hs1 hw
                  cases hro : (s.world.cmdPointers (registerCmd vx s.guest)).isRo with
                  | true =>
                      rw [hro] at hfree
                      rw [commandGet, hro, if_pos rfl] at hw
                      cases hw
                      rw [commandRegister, hro, if_pos rfl] at hs1
                      cases hs1
                      rfl
                  | false =>
                      rw [hro] at hfree
                      rw [commandGet, hro, if_neg Bool.false_ne_true] at hw
                      rw [commandRegister, hfree, if_neg Bool.false_ne_true] at hs1
                      cases hs1
                      rw [if_neg Bool.false_ne_true]
                      show (if op = registerCmd vx s.guest then processEntry pid
                          (vx.reg s.guest .ecx)
                        else w.cmdPointers op) = _
                      split
                      · rfl
                      · exact dropLooser_slot h.toInv hw

theorem doSyscall_unregister_slot {pid : Nat} {s s' : Sys σ γ} (h : World.Running s.world pid)
    (hnum : vx.reg s.guest .eax = 0xFF01) (hs : doSyscall api vx pid s = some s') :
    s'.world.cmdPointers op
      = (callTouches vx op s.world pid s.guest).getD (s.world.cmdPointers op) := by
  unfold doSyscall at hs
  rw [hnum] at hs
  split at hs
  · cases hs
  · next s1 hs1 =>
      cases hs
      have hs1 : syscallUnregister vx pid { s with next := .continue } = some s1 := hs1
      unfold syscallUnregister at hs1
      simp only [] at hs1
      have hno : ¬ Registers vx s.guest := by
        intro hbad
        have hbad := hbad.num
        rw [hnum] at hbad
        cases hbad
      rw [callTouches, if_neg hno]
      split at hs1
      · next hrange =>
          cases hs1
          have hout : ¬ Unregisters vx op s.guest := by
            rintro ⟨-, hop⟩
            have hlt := op.toNat_lt
            omega
          rw [if_neg hout]
          rfl
      · next hrange =>
          obtain ⟨hlow, hhigh⟩ := not_or.mp hrange
          have hop : Unregisters vx op s.guest ↔
              op = (asInt (vx.reg s.guest .edx)).toNat.toUInt8 := by
            have hcast : (asInt (vx.reg s.guest .edx)).toNat.toUInt8.toNat
                = (asInt (vx.reg s.guest .edx)).toNat := by
              rw [Nat.toUInt8_eq, UInt8.toNat_ofNat']
              exact Nat.mod_eq_of_lt (by omega)
            constructor
            · rintro ⟨-, hop⟩
              refine UInt8.toNat_inj.mp ?_
              omega
            · intro hop
              have hval := congrArg UInt8.toNat hop
              exact ⟨hnum, by omega⟩
          split at hs1
          · next hother =>
              cases hs1
              split
              · next hmine =>
                  rw [hop.mp hmine, freeTouches, if_neg fun hptr =>
                    hother ((commandGet_of_inv h.toInv).mpr hptr)]
                  rfl
              · rfl
          · next hmine =>
              have hmine := (commandGet_of_inv h.toInv).mp (not_not.mp hmine)
              have hro := (h.isRo_iff _).trans (h.slot_process hmine).1
              unfold withProc at hs1
              split at hs1
              · cases hs1
              · next pr hpr =>
                  cases hs1
                  show commandUnregister s.world.cmdPointers _ op = _
                  rw [commandUnregister, hro, if_neg Bool.false_ne_true]
                  show (if op = _ then {} else s.world.cmdPointers op) = _
                  split
                  · next heq =>
                      rw [if_pos (hop.mpr heq), freeTouches, if_pos (by rw [heq]; exact hmine)]
                      rfl
                  · next hne => rw [if_neg fun hbad => hne (hop.mp hbad)]; rfl

theorem doSyscall_slot {pid : Nat} {s s' : Sys σ γ} (h : World.Running s.world pid)
    (hs : doSyscall api vx pid s = some s') :
    s'.world.cmdPointers op
      = (callTouches vx op s.world pid s.guest).getD (s.world.cmdPointers op) := by
  by_cases hreg : vx.reg s.guest .eax = 0xFF00
  · exact doSyscall_register_slot h hreg hs
  · by_cases hunreg : vx.reg s.guest .eax = 0xFF01
    · exact doSyscall_unregister_slot h hunreg hs
    · rw [doSyscall_table hreg hunreg hs, callTouches, if_neg fun hbad => hreg hbad.num,
        if_neg fun hbad => hunreg hbad.1]
      rfl

theorem syscallBrk_next {s s' : Sys σ γ} (hnext : s.next = .continue)
    (hs : syscallBrk vx s = some s') :
    (s'.next = .kill ∧ brkFails vx s.guest = true) ∨
      (s'.next = .continue ∧ brkFails vx s.guest = false) := by
  simp only [syscallBrk] at hs
  simp only [brkFails]
  generalize (vx.reg s.guest .edx + 2 ^ 20 - 1) % 2 ^ 32 / 2 ^ 20 * 2 ^ 20 = addr at hs ⊢
  split at hs
  · next heq => cases hs; simp [heq, hnext]
  · split at hs
    · next hgt =>
        split at hs
        · next hres => cases hs; simp [show vx.memSize s.guest < addr from hgt, hres]
        · next g hres =>
            split at hs
            · next hperm =>
                cases hs
                simp [show vx.memSize s.guest < addr from hgt, hres, hperm]
            · next hperm => cases hs; simp [hres, hperm, hnext]
    · next hle => cases hs; simp [show ¬ vx.memSize s.guest < addr from hle, hnext]

/-- What `do_syscall` tells `process_run` to do next is what `endsProcess` says. -/
theorem doSyscall_next {a : Activation} {pr : Process γ} {s s' : Sys σ γ}
    (hpr : s.world.procs a.pid = some pr) (hs : doSyscall api vx a.pid s = some s') :
    endsProcess vx s.world a s.guest = true ↔
      s'.next = .kill ∨ s'.next = .exit ∨
        (s'.next = .yield ∧ a.serving = true ∧ pr.sendSz = 0) := by
  unfold doSyscall at hs
  split at hs
  · cases hs
  · next s1 hs1 =>
      cases hs
      show _ ↔ s1.next = .kill ∨ s1.next = .exit ∨ (s1.next = .yield ∧ _)
      unfold syscalls at hs1
      simp only [endsProcess, hpr]
      split at hs1
      case h_1 hnum =>
        simp only [syscallExit, withProc, hpr] at hs1
        cases hs1
        simp [hnum]
      case h_2 hnum =>
        rcases syscallBrk_next rfl hs1 with ⟨hnext, hbrk⟩ | ⟨hnext, hbrk⟩
        · rw [hnext]; simp [hnum, show brkFails vx s.guest = true from hbrk]
        · rw [hnext]; simp [hnum, show brkFails vx s.guest = false from hbrk]
      case h_6 hnum =>
        simp only [syscallReadrequests, withProc, hpr] at hs1
        simp only [hnum]
        split at hs1
        · next hcnt => cases hs1; simp [hcnt]
        · next hcnt =>
            split at hs1
            · next hperm =>
                cases hs1
                simp [hcnt, show vx.checkperm _ _ _ _ = false by simpa using hperm]
            · next hperm =>
                have hperm : vx.checkperm s.guest (vx.reg s.guest .edx) (vx.reg s.guest .ecx) .write
                    = true := by simpa using hperm
                split at hs1
                · next hlen => cases hs1; simp [hcnt, hperm, hlen]
                · next hlen => cases hs1; simp [hcnt, hperm, hlen]
      case h_7 hnum =>
        simp only [syscallWriteresponses, withProc, hpr] at hs1
        simp only [hnum]
        split at hs1
        · next hlen => cases hs1; simp [hlen]
        · next hlen =>
            split at hs1
            · next hperm => cases hs1; simp [show vx.checkperm _ _ _ _ = false by simpa using hperm]
            · next hperm =>
                have hperm : vx.checkperm s.guest (vx.reg s.guest .edx) (vx.reg s.guest .ecx) .read
                    = true := by simpa using hperm
                split at hs1
                · cases hs1
                · split at hs1
                  · next hmany => cases hs1; simp [not_lt.mp hlen, hperm, hmany]
                  · next hfew => cases hs1; simp [hfew]
      case h_13 hexit hbrk _ _ _ hread hwrite _ _ _ _ _ =>
        cases hs1
        rw [if_neg hexit, if_neg hbrk, if_neg hread, if_neg hwrite]
        simp
      all_goals
        have hnext : s1.next = .continue := by
          simp only [syscallWrite, syscallRegister, syscallUnregister, syscallStGet,
            syscallStPrefetch, syscallStSet, syscallStDel, syscallStGetrandom, withProc] at hs1
          repeat' split at hs1
          all_goals
            cases hs1
            try rfl
        next hnum => simp [hnum, hnext]

theorem endsProcess_table {a : Activation} {s s' : Sys σ γ}
    (hends : endsProcess vx s.world a s.guest = true) (hs : doSyscall api vx a.pid s = some s') :
    s'.world.cmdPointers = s.world.cmdPointers := by
  refine doSyscall_table ?_ ?_ hs
  · intro hnum
    unfold endsProcess at hends
    split at hends
    · cases hends
    · simp [hnum] at hends
  · intro hnum
    unfold endsProcess at hends
    split at hends
    · cases hends
    · simp [hnum] at hends

/-- A process that goes to wait has as much to show for it as it had before. -/
theorem doSyscall_yield_sendSz {pid : Nat} {pr : Process γ} {s s' : Sys σ γ}
    (hpr : s.world.procs pid = some pr) (hs : doSyscall api vx pid s = some s')
    (hnext : s'.next = .yield) : ∃ pr', s'.world.procs pid = some pr' ∧ pr'.sendSz = pr.sendSz := by
  obtain ⟨pr0, hpr0, -, hworld⟩ := (doSyscall_yield api vx hs hnext).world
  rw [hpr] at hpr0
  cases hpr0
  rw [hworld]
  exact ⟨_, procs_setProc_self _ _ _, rfl⟩

theorem trapSyscall_slot {l l' : Life σ γ} {g : γ} (h : LifeSafe l)
    (hs : trapSyscall api vx l g = some l') :
    l'.world.cmdPointers op
      = (slotTouched vx op l (.syscall g)).getD (l.world.cmdPointers op) := by
  unfold trapSyscall at hs
  split at hs
  · cases hs
  · next a hactive =>
      split at hs
      · cases hs
      · next s hcall =>
          obtain ⟨hrun, hrun'⟩ := h.call hactive hcall
          obtain ⟨pr, hpr⟩ := Option.ne_none_iff_exists'.mp hrun.alive
          have hslot : s.world.cmdPointers op = _ := doSyscall_slot hrun hcall
          have hends := doSyscall_next (s := ⟨l.world, a.io, g, 0, .continue⟩) hpr hcall
          simp only [slotTouched, hactive, Option.bind_some]
          by_cases hend : endsProcess vx l.world a g = true
          · have htable : s.world.cmdPointers = l.world.cmdPointers :=
              endsProcess_table (s := ⟨l.world, a.io, g, 0, .continue⟩) hend hcall
            have hfree : (s.world.processFree a.pid).cmdPointers op
                = (freeTouches op l.world a.pid).getD (l.world.cmdPointers op) := by
              rw [processFree_slot hrun'.toInv, freeTouches, freeTouches, htable]
            rw [if_pos hend]
            rcases hends.mp hend with hkill | hexit | ⟨hyield, hserving, hnone⟩
            · rw [hkill] at hs; cases hs; exact hfree
            · rw [hexit] at hs; cases hs; exact hfree
            · obtain ⟨pr', hpr', hsz⟩ := doSyscall_yield_sendSz
                (s := ⟨l.world, a.io, g, 0, .continue⟩) hpr hcall hyield
              rw [hyield] at hs
              simp only [yieldProcess, hpr', if_pos (show a.serving = true ∧ pr'.sendSz = 0 from
                ⟨hserving, hsz.trans hnone⟩), processFree_setProc] at hs
              cases hs
              exact hfree
          · rw [if_neg hend]
            cases hnext : s.next with
            | «continue» => rw [hnext] at hs; cases hs; exact hslot
            | yield =>
                obtain ⟨pr', hpr', hsz⟩ := doSyscall_yield_sendSz
                  (s := ⟨l.world, a.io, g, 0, .continue⟩) hpr hcall hnext
                have hanswer : ¬ (a.serving = true ∧ pr'.sendSz = 0) := fun hbad =>
                  hend (hends.mpr (.inr (.inr ⟨hnext, hbad.1, hsz.symm.trans hbad.2⟩)))
                rw [hnext] at hs
                simp only [yieldProcess, hpr', if_neg hanswer] at hs
                cases hs
                exact hslot
            | kill => exact absurd (hends.mpr (.inl hnext)) hend
            | exit => exact absurd (hends.mpr (.inr (.inl hnext))) hend

/-- The slots after an event. -/
theorem lifeStep_slot {l l' : Life σ γ} {e : LifeEvent σ γ} (h : LifeSafe l)
    (hs : lifeStep api vx l e = some l') :
    l'.world.cmdPointers op = (slotTouched vx op l e).getD (l.world.cmdPointers op) := by
  cases e with
  | codeLoad io key elf =>
      cases lifeStep_move api vx hs with
      | stillborn hidle hkey =>
          have hnew := (h.inv.processNew key).toInv
          rw [processFree_slot hnew, freeTouches, if_neg]
          · rfl
          · exact fun hptr => (h.inv.slot_process hptr).2 (h.inv.fresh _ (Nat.le_refl _))
      | born hidle hkey => rfl
  | codeUnload key =>
      cases lifeStep_move api vx hs with
      | unloaded hidle hkey =>
          rw [processFree_slot h.inv, slotTouched, hkey]
  | callback io pid reqBuf =>
      cases lifeStep_move api vx hs with
      | overrun hidle hpr hlong =>
          simp only [slotTouched, hpr, if_pos hlong]
          exact processFree_slot h.inv pid
      | woken hidle hpr hfits hg =>
          simp only [slotTouched, hpr, if_neg hfits]
          rfl
  | syscall g => exact trapSyscall_slot h hs
  | killed =>
      cases lifeStep_move api vx hs with
      | killed hactive =>
          rw [processFree_slot h.inv, slotTouched, hactive]
          rfl
  | data store n =>
      cases lifeStep_move api vx hs with
      | data hidle => rfl

variable (api vx op) in
/-- What the events write last into the slot of `op`. -/
def lastTouch (w : World σ γ) (es : List (LifeEvent σ γ)) : Option CmdEntry :=
  lastWrite (lifeStep api vx) (slotTouched vx op) { world := w } es

theorem lifeRun_slot {w : World σ γ} {es : List (LifeEvent σ γ)} {l : Life σ γ}
    (h : World.Inv w) (hs : lifeRun api vx { world := w } es = some l) :
    LifeSafe l ∧ l.world.cmdPointers op = (lastTouch api vx op w es).getD (w.cmdPointers op) := by
  have hkeep : ∀ (s : Life σ γ) e t, LifeSafe s → lifeStep api vx s e = some t → LifeSafe t :=
    fun s e t hsafe hstep => (lifeStep_move api vx hstep).safe hsafe
  constructor
  · have hall : AllSteps (lifeStep api vx) (fun _ _ => True) { world := w } es :=
      allSteps_of_forall (fun _ _ => trivial) es _
    exact runSteps_invariant (fun s e t hsafe _ => hkeep s e t hsafe) (lifeSafe_idle h) hall hs
  · have hwrite : ∀ (s : Life σ γ) e t, LifeSafe s → lifeStep api vx s e = some t →
        t.world.cmdPointers op = (slotTouched vx op s e).getD (s.world.cmdPointers op) :=
      fun _ _ _ hsafe hstep => lifeStep_slot hsafe hstep
    exact runSteps_lastWrite hkeep hwrite (lifeSafe_idle h) hs

end Slots

/-! ## A batch, request by request -/

section HandOvers

variable {σ γ : Type} (api : StStorageApi σ) (vx : Vx γ) (cfg : Config γ)

/-- A request of a group, with what happens while it is carried out. -/
structure Turn (σ γ : Type) where
  request : Bytes
  events : List (LifeEvent σ γ)

/-- The events of the turns, one behind the other. -/
def eventsOf (turns : List (Turn σ γ)) : List (LifeEvent σ γ) := turns.flatMap (·.events)

/-- A group that is handed over, request by request. -/
structure HandOver (σ γ : Type) where
  run : GroupRun σ γ
  turns : List (Turn σ γ)

/-- Builtin commands are carried out one after the other, up to one that does not
come back. -/
inductive BuiltinTurns (ptr : CmdPtr) : World σ γ → Io → List (Turn σ γ) → World σ γ → Prop
  | done (w : World σ γ) (io : Io) : BuiltinTurns ptr w io [] w
  | stuck {w : World σ γ} {io : Io} {request : Bytes}
      (hnone : builtinCommand api vx cfg ptr w io request = none) :
      BuiltinTurns ptr w io [⟨request, []⟩] w
  | next {w w1 w' : World σ γ} {io io1 : Io} {t : Turn σ γ} {ts : List (Turn σ γ)}
      (hone : builtinCommand api vx cfg ptr w io t.request = some (w1, io1))
      (hevents : lifeRun api vx { world := w } t.events = some { world := w1 })
      (hrest : BuiltinTurns ptr w1 io1 ts w') : BuiltinTurns ptr w io (t :: ts) w'

/-- The turns of a group lead to `l`. A process is woken when the turn of the first
request comes; it makes its calls, and is stopped after the last of them unless that
has ended its run. -/
inductive Plays (s : HandOver σ γ) : Life σ γ → Prop
  | builtin {e : CmdEntry} {w' : World σ γ} (hentry : s.run.group.entry = some e)
      (hbuiltin : e.isProcess = false)
      (hturns : BuiltinTurns api vx cfg e.ptr s.run.world s.run.io s.turns w') :
      Plays s { world := w' }
  | process {e : CmdEntry} {pid : Nat} {l : Life σ γ} (hentry : s.run.group.entry = some e)
      (hprocess : e.isProcess = true) (hptr : e.ptr = .process pid)
      (hwoken : ∀ t rest, s.turns = t :: rest → t.events = [] → eventsOf rest = [])
      (hevents : eventsOf s.turns <+: .callback s.run.io pid s.run.group.reqBuf ::
        ((groupCalls api vx cfg s.run.world s.run.io s.run.group.reqBuf pid).map .syscall
          ++ [.killed]))
      (hrun : lifeRun api vx { world := s.run.world } (eventsOf s.turns) = some l) : Plays s l

/-- The turns recount the group that was handed over: all of it if the callback comes
back, and what it began with otherwise. -/
structure Recounts (s : HandOver σ γ) : Prop where
  some_turn : s.turns ≠ []
  order : s.turns.map (·.request) <+: s.run.requests
  plays : ∃ l, Plays api vx cfg s l ∧
    ∀ w' io', runGroup api vx cfg s.run.group s.run.world s.run.io = some (w', io') →
      l = { world := w' } ∧ s.turns.map (·.request) = s.run.requests

/-- The groups of a batch, in their order. -/
structure BatchTold (w : World σ γ) (io : Io) (batch : List Bytes) (ss : List (HandOver σ γ)) :
    Prop where
  runs : ss.map (·.run) = batchRuns api vx cfg w io batch
  tells : ∀ s ∈ ss, Recounts api vx cfg s

/-- The table holds `entry` for the request, and a process in it is alive. -/
structure HandlerLive (w : World σ γ) (entry : Option CmdEntry) (request : Bytes) : Prop where
  slot : entry = some (w.cmdPointers (mcGetOpcode request))
  alive : ∀ e pid, entry = some e → e.ptr = .process pid → w.procs pid ≠ none

/-- The group is made of its requests, and each of them is served by the handler the
table holds for it when all requests before it have been carried out. -/
structure HandOver.Live (s : HandOver σ γ) : Prop where
  handed : s.run.group.reqBuf = s.run.requests.flatten
  handlers : ∀ before t after, s.turns = before ++ t :: after →
    ∀ l, lifeRun api vx { world := s.run.world } (eventsOf before) = some l →
      HandlerLive l.world s.run.group.entry t.request

/-- What is written last into the slot of the request is the entry it is served with. -/
def Restored (w : World σ γ) (es : List (LifeEvent σ γ)) (entry : Option CmdEntry)
    (request : Bytes) : Prop :=
  ∀ e ∈ lastTouch api vx (mcGetOpcode request) w es, entry = some e

/-- The slots of the requests that joined the group, while those in front of them in
the group are carried out. -/
def HandOver.KeepsOwn (s : HandOver σ γ) : Prop :=
  ∀ before t after, s.turns = before ++ t :: after → before ≠ [] →
    Restored api vx s.run.world (eventsOf before) s.run.group.entry t.request

/-- The slot of the first request of the next group, while the group is run. -/
def HandOver.KeepsNext (s s' : HandOver σ γ) : Prop :=
  ∀ f ∈ s'.run.requests.head?,
    Restored api vx s.run.world (eventsOf s.turns) s'.run.group.entry f

/-- Whatever is written into a slot between the reading of an entry and its use, the
last of it is that entry. -/
structure KeepsHandlers (ss : List (HandOver σ γ)) : Prop where
  own : ∀ s ∈ ss, s.KeepsOwn api vx
  next : ss.IsChain (HandOver.KeepsNext api vx)

variable {api vx cfg}

theorem lifeRun_append {l l1 : Life σ γ} {es : List (LifeEvent σ γ)}
    (h : lifeRun api vx l es = some l1) (es' : List (LifeEvent σ γ)) :
    lifeRun api vx l (es ++ es') = lifeRun api vx l1 es' :=
  runSteps_append h es'

theorem BuiltinTurns.run {ptr : CmdPtr} {w w' : World σ γ} {io : Io} {ts : List (Turn σ γ)}
    (h : BuiltinTurns api vx cfg ptr w io ts w') :
    lifeRun api vx { world := w } (eventsOf ts) = some { world := w' } := by
  induction h with
  | done w io => rfl
  | stuck _ => rfl
  | next _ hevents _ ih =>
      rw [eventsOf, List.flatMap_cons]
      exact (lifeRun_append hevents _).trans ih

theorem Plays.run {s : HandOver σ γ} {l : Life σ γ} (h : Plays api vx cfg s l) :
    lifeRun api vx { world := s.run.world } (eventsOf s.turns) = some l := by
  cases h with
  | builtin _ _ hturns => exact hturns.run
  | process _ _ _ _ _ hrun => exact hrun

/-- A request keeps its handler exactly when the last that is written into its slot is
the entry it had. -/
theorem restored_iff {w : World σ γ} (h : World.Inv w) {es : List (LifeEvent σ γ)} {l : Life σ γ}
    (hrun : lifeRun api vx { world := w } es = some l) {entry : Option CmdEntry} {request : Bytes}
    (hread : entry = some (w.cmdPointers (mcGetOpcode request))) :
    HandlerLive l.world entry request ↔ Restored api vx w es entry request := by
  obtain ⟨hsafe, hslot⟩ : LifeSafe l ∧ l.world.cmdPointers (mcGetOpcode request) = _ :=
    lifeRun_slot h hrun
  have hiff : HandlerLive l.world entry request ↔
      entry = some (l.world.cmdPointers (mcGetOpcode request)) := by
    refine ⟨fun hlive => hlive.slot, fun heq => ⟨heq, fun e pid he hptr => ?_⟩⟩
    rw [heq, Option.some.injEq] at he
    rw [← he] at hptr
    exact (hsafe.inv.slot_process hptr).2
  rw [hiff, hslot, Restored]
  cases htouch : lastTouch api vx (mcGetOpcode request) w es with
  | none => exact ⟨fun _ e he => (Option.not_mem_none e he).elim, fun _ => hread⟩
  | some e =>
      exact ⟨fun heq e' he' => Option.mem_some_iff.mp he' ▸ heq, fun hr => hr e rfl⟩

/-! ## When the entries are read

A group is started with the request whose entry differs, in front of the run of the
group before. So between the reading of an entry and its use there are the events of one
group, and for the requests that join, those of none. -/

/-- The entry of the group was read for its first request in the world `w`, and for
the others in the world it is handed over in. -/
structure ReadIn (w : World σ γ) (r : GroupRun σ γ) : Prop where
  before : World.Inv w
  inv : World.Inv r.world
  some_request : r.requests ≠ []
  handed : r.group.reqBuf = r.requests.flatten
  first : ∀ f ∈ r.requests.head?, r.group.entry = some (w.cmdPointers (mcGetOpcode f))
  joined : ∀ f ∈ r.requests.tail, r.group.entry = some (r.world.cmdPointers (mcGetOpcode f))

variable (api vx cfg) in
/-- The second group was read before the first was run. -/
structure Follows (r r' : GroupRun σ γ) : Prop where
  ran : runGroup api vx cfg r.group r.world r.io = some (r'.world, r'.io)
  read : ReadIn r.world r'

theorem groupRuns_follows (batch : List Bytes) {w0 : World σ γ} {d : Dispatch σ γ}
    {pending : List Bytes} (h : ReadIn w0 ⟨d.world, d.io, d.group, pending⟩) :
    ∃ g requests rs, groupRuns api vx cfg d pending batch = ⟨d.world, d.io, g, requests⟩ :: rs ∧
      ReadIn w0 ⟨d.world, d.io, g, requests⟩ ∧
      (⟨d.world, d.io, g, requests⟩ :: rs : List (GroupRun σ γ)).IsChain (Follows api vx cfg) := by
  induction batch generalizing w0 d pending with
  | nil =>
      refine ⟨d.group, pending, [], ?_, h, .singleton _⟩
      rw [groupRuns, flush, if_neg h.some_request]
  | cons f rest ih =>
      rw [groupRuns]
      cases hs : dispatchStep api vx cfg d f with
      | none =>
          refine ⟨d.group, pending, [], ?_, h, .singleton _⟩
          rw [flush, if_neg h.some_request]
      | some d' =>
          simp only []
          split
          · next hsame =>
              rw [dispatchStep_swallow api vx cfg hsame] at hs
              cases hs
              refine ih (d := { d with group := { d.group with reqBuf := d.group.reqBuf ++ f } }) ?_
              have hne : pending ≠ [] := h.some_request
              refine ⟨h.before, h.inv, by simp, ?_, ?_, ?_⟩
              · show d.group.reqBuf ++ f = (pending ++ [f]).flatten
                rw [show d.group.reqBuf = _ from h.handed, List.flatten_append,
                  List.flatten_singleton]
              · intro g hg
                rw [List.head?_append_of_ne_nil pending hne] at hg
                exact h.first g hg
              · intro g hg
                rw [List.tail_append_of_ne_nil hne] at hg
                rcases List.mem_append.mp hg with hg | hg
                · exact h.joined g hg
                · rw [List.mem_singleton.mp hg]
                  exact hsame
          · next hnew =>
              obtain ⟨hrun, hgroup⟩ := dispatchStep_next api vx cfg hnew hs
              have hread : ReadIn d.world ⟨d'.world, d'.io, d'.group, [f]⟩ := by
                refine ⟨h.inv, dispatchStep_inv api vx cfg h.inv hs, by simp, ?_, ?_, by simp⟩
                · rw [hgroup, List.flatten_singleton]
                · intro g hg
                  rw [hgroup]
                  cases hg
                  rfl
              obtain ⟨g, requests, rs, hruns, hfirst, hchain⟩ := ih hread
              refine ⟨d.group, pending, ⟨d'.world, d'.io, g, requests⟩ :: rs, ?_, h, ?_⟩
              · rw [flush, if_neg h.some_request, hruns]
                rfl
              · exact List.isChain_cons_cons.mpr ⟨⟨hrun, hfirst⟩, hchain⟩

/-- In front of the first request nothing waits to be run, so the first group is
handed over as it was read. -/
theorem groupRuns_start {d : Dispatch σ γ} (h : World.Inv d.world) (hgroup : d.group = {})
    (batch : List Bytes) :
    (groupRuns api vx cfg d [] batch).IsChain (Follows api vx cfg) ∧
      ∀ r ∈ (groupRuns api vx cfg d [] batch).head?, ReadIn r.world r := by
  cases batch with
  | nil =>
      rw [groupRuns, flush, if_pos rfl]
      exact ⟨.nil, fun r hr => (Option.not_mem_none r hr).elim⟩
  | cons f rest =>
      have hnew : d.group.entry ≠ some (d.world.cmdPointers (mcGetOpcode f)) := by
        rw [hgroup]
        exact (Option.some_ne_none _).symm
      have hstep : dispatchStep api vx cfg d f
          = some ⟨d.world, d.io, ⟨some (d.world.cmdPointers (mcGetOpcode f)), f⟩⟩ := by
        have hidle : runGroup api vx cfg d.group d.world d.io = some (d.world, d.io) := by
          rw [hgroup]
          rfl
        rw [dispatchStep]
        simp only [if_neg hnew, hidle]
      have hread : ReadIn d.world
          ⟨d.world, d.io, ⟨some (d.world.cmdPointers (mcGetOpcode f)), f⟩, [f]⟩ := by
        refine ⟨h, h, by simp, by simp, ?_, by simp⟩
        intro g hg
        cases hg
        rfl
      obtain ⟨g, requests, rs, hruns, hfirst, hchain⟩ := groupRuns_follows rest
        (d := ⟨d.world, d.io, ⟨some (d.world.cmdPointers (mcGetOpcode f)), f⟩⟩) hread
      rw [groupRuns, hstep]
      simp only [if_neg hnew]
      rw [flush, if_pos rfl, List.nil_append, hruns]
      refine ⟨hchain, fun r hr => ?_⟩
      cases hr
      exact hfirst

variable (api vx cfg) in
theorem batchRuns_follows {w : World σ γ} (h : World.Inv w) (io : Io) (batch : List Bytes) :
    (batchRuns api vx cfg w io batch).IsChain (Follows api vx cfg) ∧
      ∀ r ∈ (batchRuns api vx cfg w io batch).head?, ReadIn r.world r := by
  rw [batchRuns]
  cases hd : dispatchStart api w io batch.flatten with
  | none => exact ⟨.nil, fun r hr => (Option.not_mem_none r hr).elim⟩
  | some d =>
      rw [dispatchStart] at hd
      split at hd
      · cases hd
      · cases hd
        exact groupRuns_start (h.of_eq rfl rfl rfl) rfl batch

/-! ## The turns of a group, and of a batch

A request is live when the slot is the one that was read, which is a matter of the last
event that has touched it. In a group this goes from one request to the next. -/

theorem Recounts.first_turn {s : HandOver σ γ} (ht : Recounts api vx cfg s) :
    ∃ t ts, s.turns = t :: ts ∧ s.run.requests.head? = some t.request := by
  obtain ⟨t, ts, hts⟩ := List.exists_cons_of_ne_nil ht.some_turn
  obtain ⟨rest, hrest⟩ := ht.order
  refine ⟨t, ts, hts, ?_⟩
  rw [← hrest, hts]
  rfl

theorem Recounts.later_turn {s : HandOver σ γ} (ht : Recounts api vx cfg s)
    {before after : List (Turn σ γ)} {t : Turn σ γ} (hts : s.turns = before ++ t :: after)
    (hne : before ≠ []) :
    t.request ∈ s.run.requests.tail := by
  obtain ⟨rest, hrest⟩ := ht.order
  obtain ⟨t0, ts0, rfl⟩ := List.exists_cons_of_ne_nil hne
  rw [← hrest, hts]
  simp

/-- A group is in order when its first request is, and its own turns keep the slots of
the others. -/
theorem Recounts.live_iff {s : HandOver σ γ} (ht : Recounts api vx cfg s) {w : World σ γ}
    (hread : ReadIn w s.run) :
    s.Live api vx ↔
      (∀ f ∈ s.run.requests.head?, HandlerLive s.run.world s.run.group.entry f) ∧
        s.KeepsOwn api vx := by
  obtain ⟨l, hplays, -⟩ := ht.plays
  have hrun := hplays.run
  constructor
  · intro hlive
    refine ⟨fun f hf => ?_, fun before t after hts hne => ?_⟩
    · obtain ⟨t, ts, hts, hhead⟩ := ht.first_turn
      rw [hhead] at hf
      cases hf
      exact hlive.handlers [] t ts hts _ rfl
    · rw [hts, eventsOf, List.flatMap_append] at hrun
      obtain ⟨l1, hl1, -⟩ := runSteps_split hrun
      exact (restored_iff hread.inv hl1 (hread.joined _ (ht.later_turn hts hne))).mp
        (hlive.handlers before t after hts l1 hl1)
  · rintro ⟨hfirst, hkeeps⟩
    refine ⟨hread.handed, fun before t after hts l1 hl1 => ?_⟩
    by_cases hne : before = []
    · subst hne
      cases hl1
      refine hfirst _ ?_
      obtain ⟨t0, ts, hts0, hhead⟩ := ht.first_turn
      rw [hts, List.nil_append] at hts0
      cases hts0
      exact hhead
    · exact (restored_iff hread.inv hl1 (hread.joined _ (ht.later_turn hts hne))).mpr
        (hkeeps before t after hts hne)

/-- A group of one request is in order if the table holds its entry when it is handed
over. -/
theorem Recounts.live_single {s : HandOver σ γ} {f : Bytes} (ht : Recounts api vx cfg s)
    (hreq : s.run.requests = [f])
    (hhanded : s.run.group.reqBuf = s.run.requests.flatten)
    (hlive : HandlerLive s.run.world s.run.group.entry f) : s.Live api vx := by
  refine ⟨hhanded, fun before t after hts l hl => ?_⟩
  by_cases hne : before = []
  · subst hne
    cases hl
    obtain ⟨t0, ts, hts0, hhead⟩ := ht.first_turn
    rw [hts, List.nil_append] at hts0
    cases hts0
    rw [hreq] at hhead
    cases hhead
    exact hlive
  · have hlater := ht.later_turn hts hne
    rw [hreq] at hlater
    exact (List.not_mem_nil hlater).elim

/-- The first request of the next group has its handler when running the group in front
has kept its slot. -/
theorem Recounts.next_iff {s s' : HandOver σ γ} (ht : Recounts api vx cfg s)
    (hinv : World.Inv s.run.world) (hf : Follows api vx cfg s.run s'.run) :
    (∀ f ∈ s'.run.requests.head?, HandlerLive s'.run.world s'.run.group.entry f) ↔
      s.KeepsNext api vx s' := by
  obtain ⟨l, hplays, hback⟩ := ht.plays
  obtain ⟨rfl, -⟩ := hback _ _ hf.ran
  exact forall₂_congr fun f hfirst => restored_iff hinv hplays.run (hf.read.first f hfirst)

theorem handOvers_live_iff : ∀ {ss : List (HandOver σ γ)} {w : World σ γ},
    (ss.map (·.run)).IsChain (Follows api vx cfg) → (∀ s ∈ ss, Recounts api vx cfg s) →
    (∀ s ∈ ss.head?, ReadIn w s.run) →
    ((∀ s ∈ ss, s.Live api vx) ↔
      (∀ s ∈ ss.head?, ∀ f ∈ s.run.requests.head?,
        HandlerLive s.run.world s.run.group.entry f) ∧ KeepsHandlers api vx ss) := by
  intro ss
  induction ss with
  | nil =>
      intro w _ _ _
      have hnone : ∀ s : HandOver σ γ, s ∉ [] := fun s => List.not_mem_nil
      exact ⟨fun _ => ⟨fun s h => Option.not_mem_none s h |>.elim, fun s h =>
          (hnone s h).elim, .nil⟩,
        fun _ s h => (hnone s h).elim⟩
  | cons s ss ih =>
      intro w hchain htells hhead
      have ht := htells s List.mem_cons_self
      have hread := hhead s rfl
      have hown := ht.live_iff hread
      rw [List.forall_mem_cons, hown]
      cases ss with
      | nil =>
          constructor
          · rintro ⟨⟨hfirst, hkeeps⟩, -⟩
            refine ⟨fun s' hs' => ?_, fun s' hs' => ?_, .singleton s⟩
            · cases hs'; exact hfirst
            · rw [List.mem_singleton.mp hs']; exact hkeeps
          · rintro ⟨hfirst, hkeeps⟩
            exact ⟨⟨hfirst s rfl, hkeeps.own s List.mem_cons_self⟩,
              fun t h => (List.not_mem_nil h).elim⟩
      | cons s' ss =>
          obtain ⟨hnext, hchain'⟩ := List.isChain_cons_cons.mp hchain
          rw [ih hchain' (fun t h => htells t (List.mem_cons_of_mem _ h))
            (w := s.run.world) (fun t h => by cases h; exact hnext.read)]
          have hiff := ht.next_iff hread.inv hnext
          constructor
          · rintro ⟨⟨hfirst, hkeeps⟩, hfirst', hkeeps'⟩
            refine ⟨fun t h => by cases h; exact hfirst, fun t h => ?_, ?_⟩
            · rcases List.mem_cons.mp h with rfl | h
              · exact hkeeps
              · exact hkeeps'.own t h
            · exact List.isChain_cons_cons.mpr ⟨hiff.mp (hfirst' s' rfl), hkeeps'.next⟩
          · rintro ⟨hfirst, hkeeps⟩
            obtain ⟨hn, hc⟩ := List.isChain_cons_cons.mp hkeeps.next
            exact ⟨⟨hfirst s rfl, hkeeps.own s List.mem_cons_self⟩,
              fun t h => by cases h; exact hiff.mpr hn,
              fun t h => hkeeps.own t (List.mem_cons_of_mem _ h), hc⟩

/-! ## Every batch can be told

What a group does is a list of events of the machine, and they can be divided among its
requests; so there is a telling of each batch, and the conditions are not about nothing.
-/

theorem World.Inv.process_ptr {w : World σ γ} (h : World.Inv w) {cmd : UInt8}
    (hprocess : (w.cmdPointers cmd).isProcess = true) :
    ∃ pid, (w.cmdPointers cmd).ptr = .process pid := by
  cases hro : (cmdPointersInit cmd).isRo with
  | true =>
      have hall : ∀ n < 256, (cmdPointersInit n.toUInt8).isProcess = false := by decide +kernel
      have hcmd := hall cmd.toNat cmd.toNat_lt
      rw [show cmd.toNat.toUInt8 = cmd by simp, ← h.builtins cmd hro, hprocess] at hcmd
      cases hcmd
  | false =>
      rcases h.slots cmd hro with hempty | ⟨pid, flags, hentry, -⟩
      · rw [hempty] at hprocess
        cases hprocess
      · exact ⟨pid, by rw [hentry]; rfl⟩

variable (api vx cfg) in
/-- The requests of a builtin group, one after the other. -/
theorem exists_builtinTurns (ptr : CmdPtr) : ∀ (fs : List Bytes) (w : World σ γ) (io : Io),
    ∃ ts w', BuiltinTurns api vx cfg ptr w io ts w' ∧ ts.map (·.request) <+: fs ∧
      (fs ≠ [] → ts ≠ []) ∧
      ∀ r, foldFrames (fun (st : World σ γ × Io) request =>
          (builtinCommand api vx cfg ptr st.1 st.2 request).map .yield) (w, io) fs = some r →
        w' = r.1 ∧ ts.map (·.request) = fs := by
  intro fs
  induction fs with
  | nil =>
      intro w io
      refine ⟨[], w, .done w io, List.nil_prefix, fun hne => absurd rfl hne, fun r hr => ?_⟩
      cases hr
      exact ⟨rfl, rfl⟩
  | cons f fs ih =>
      intro w io
      cases hone : builtinCommand api vx cfg ptr w io f with
      | none =>
          refine ⟨[⟨f, []⟩], w, .stuck hone, List.prefix_iff_eq_take.mpr rfl, fun _ => by simp,
            fun r hr => ?_⟩
          rw [foldFrames] at hr
          simp only [hone] at hr
          cases hr
      | some r1 =>
          obtain ⟨w1, io1⟩ := r1
          obtain ⟨es, hes⟩ := builtinCommand_life cfg hone
          obtain ⟨ts, w', hturns, hprefix, -, hback⟩ := ih w1 io1
          refine ⟨⟨f, es⟩ :: ts, w', .next hone hes hturns, List.prefix_cons_inj f |>.mpr hprefix,
            fun _ => by simp, fun r hr => ?_⟩
          rw [foldFrames] at hr
          simp only [hone] at hr
          obtain ⟨hw, hrequests⟩ := hback r hr
          exact ⟨hw, by rw [List.map_cons, hrequests]⟩

theorem flatten_ne_nil {magic : UInt8} {fs : List Bytes} (hwf : ∀ f ∈ fs, WellFormed magic f)
    (hne : fs ≠ []) : ¬ fs.flatten.length = 0 := by
  obtain ⟨f, rest, rfl⟩ := List.exists_cons_of_ne_nil hne
  have hf := List.length_pos_of_ne_nil (hwf f List.mem_cons_self).1
  rw [List.flatten_cons, List.length_append]
  omega

/-- A group of a process can be told: its calls, with what ends it, are those of the first request,
and the others have none. -/
theorem exists_processRecount {w : World σ γ} {r : GroupRun σ γ} {f : Bytes} {rest : List Bytes}
    {pid : Nat} (hreq : r.requests = f :: rest)
    (hentry : r.group.entry = some (w.cmdPointers (mcGetOpcode f)))
    (hprocess : (w.cmdPointers (mcGetOpcode f)).isProcess = true)
    (hptr : (w.cmdPointers (mcGetOpcode f)).ptr = .process pid)
    (hgroup : runGroup api vx cfg r.group r.world r.io =
      processCommandsCallback api vx cfg r.world r.io r.group.reqBuf pid) :
    ∃ s, s.run = r ∧ Recounts api vx cfg s := by
  cases hback : runGroup api vx cfg r.group r.world r.io with
  | none =>
      refine ⟨⟨r, [⟨f, []⟩]⟩, rfl, by simp, ?_, { world := r.world }, ?_, fun w' io' hr => ?_⟩
      · rw [hreq]
        exact List.prefix_iff_eq_take.mpr rfl
      · exact .process hentry hprocess hptr (fun t ts h _ => by cases h; rfl)
          (List.nil_prefix) rfl
      · rw [show runGroup api vx cfg r.group r.world r.io = _ from hback] at hr
        cases hr
  | some r1 =>
      obtain ⟨w1, io1⟩ := r1
      obtain ⟨l, hwake, tail, htail, hcalls⟩ :=
        processCommandsCallback_calls cfg (hgroup.symm.trans hback)
      have hidle : eventsOf (rest.map fun g => (⟨g, []⟩ : Turn σ γ)) = [] := by
        simp [eventsOf]
      refine ⟨⟨r, ⟨f, .callback r.io pid r.group.reqBuf :: ((groupCalls api vx cfg r.world r.io
        r.group.reqBuf pid).map .syscall ++ tail)⟩ :: rest.map fun g => ⟨g, []⟩⟩, rfl,
        by simp, ?_, { world := w1 }, ?_, fun w' io' hr => ?_⟩
      · simp [hreq, Function.comp_def]
      · refine .process hentry hprocess hptr (fun t ts h hno => ?_) ?_ ?_
        · cases h
          cases hno
        · rw [eventsOf, List.flatMap_cons, ← eventsOf, hidle, List.append_nil]
          refine (List.prefix_cons_inj _).mpr ((List.prefix_append_right_inj _).mpr ?_)
          rcases htail with rfl | rfl
          · exact List.nil_prefix
          · exact List.prefix_rfl
        · rw [eventsOf, List.flatMap_cons, ← eventsOf, hidle, List.append_nil]
          exact (runSteps_cons hwake).trans hcalls
      · rw [show runGroup api vx cfg r.group r.world r.io = _ from hback] at hr
        cases hr
        exact ⟨rfl, by simp [hreq, Function.comp_def]⟩

/-- Every group that is handed over can be told. -/
theorem exists_recounts {w : World σ γ} {r : GroupRun σ γ} (hread : ReadIn w r)
    (hwf : ∀ f ∈ r.requests, WellFormed 0x80 f) : ∃ s, s.run = r ∧ Recounts api vx cfg s := by
  obtain ⟨f, rest, hreq⟩ := List.exists_cons_of_ne_nil hread.some_request
  have hentry := hread.first f (by rw [hreq]; rfl)
  have hsome : ¬ r.group.reqBuf.length = 0 := by
    rw [hread.handed]
    exact flatten_ne_nil hwf hread.some_request
  cases hprocess : (w.cmdPointers (mcGetOpcode f)).isProcess with
  | true =>
      obtain ⟨pid, hptr⟩ := hread.before.process_ptr hprocess
      have hgroup : runGroup api vx cfg r.group r.world r.io =
          processCommandsCallback api vx cfg r.world r.io r.group.reqBuf pid := by
        simp only [runGroup, if_neg hsome, hentry, hprocess, hptr, if_true]
      exact exists_processRecount hreq hentry hprocess hptr hgroup
  | false =>
      have hgroup : runGroup api vx cfg r.group r.world r.io = builtinCommandsCallback api vx cfg
          (w.cmdPointers (mcGetOpcode f)).ptr r.world r.io r.group.reqBuf := by
        simp only [runGroup, if_neg hsome, hentry, hprocess, Bool.false_eq_true, if_false]
      rw [builtinCommandsCallback, hread.handed, forRequests_flatten hwf] at hgroup
      obtain ⟨ts, w', hturns, hprefix, hne, hback⟩ := exists_builtinTurns api vx cfg
        (w.cmdPointers (mcGetOpcode f)).ptr r.requests r.world r.io
      refine ⟨⟨r, ts⟩, rfl, hne hread.some_request, hprefix, { world := w' },
        .builtin hentry hprocess hturns, fun w1 io1 hr => ?_⟩
      obtain ⟨hw, hrequests⟩ := hback (w1, io1) (hgroup.symm.trans hr)
      exact ⟨by rw [hw], hrequests⟩

theorem exists_handOvers : ∀ {rs : List (GroupRun σ γ)} {w : World σ γ},
    rs.IsChain (Follows api vx cfg) → (∀ r ∈ rs.head?, ReadIn w r) →
    (∀ r ∈ rs, ∀ f ∈ r.requests, WellFormed 0x80 f) →
    ∃ ss : List (HandOver σ γ), ss.map (·.run) = rs ∧ ∀ s ∈ ss, Recounts api vx cfg s := by
  intro rs
  induction rs with
  | nil => exact fun _ _ _ => ⟨[], rfl, fun s h => (List.not_mem_nil h).elim⟩
  | cons r rs ih =>
      intro w hchain hhead hwf
      obtain ⟨s, hs, ht⟩ := exists_recounts (hhead r rfl) (hwf r List.mem_cons_self)
      have hrest : rs.IsChain (Follows api vx cfg) ∧ ∀ r' ∈ rs.head?, ReadIn r.world r' := by
        cases rs with
        | nil => exact ⟨.nil, fun r' hr' => (Option.not_mem_none r' hr').elim⟩
        | cons r1 rs =>
            obtain ⟨hfollows, hchain'⟩ := List.isChain_cons_cons.mp hchain
            exact ⟨hchain', fun r' hr' => by cases hr'; exact hfollows.read⟩
      obtain ⟨ss, hss, hts⟩ := ih hrest.1 hrest.2 fun r' h => hwf r' (List.mem_cons_of_mem _ h)
      refine ⟨s :: ss, by rw [List.map_cons, hs, hss], ?_⟩
      exact List.forall_mem_cons.mpr ⟨ht, hts⟩

theorem exists_batchTold {w : World σ γ} (h : World.Inv w) (io : Io) {batch : List Bytes}
    (hwf : ∀ f ∈ batch, WellFormed 0x80 f) : ∃ ss, BatchTold api vx cfg w io batch ss := by
  obtain ⟨hchain, hhead⟩ := batchRuns_follows api vx cfg h io batch
  have hin : ∀ r ∈ batchRuns api vx cfg w io batch, ∀ f ∈ r.requests, WellFormed 0x80 f :=
    fun r hr f hf => hwf f ((batchRuns_neighbours api vx cfg r hr).2.subset hf)
  cases hruns : batchRuns api vx cfg w io batch with
  | nil => exact ⟨[], hruns.symm, fun s hs => (List.not_mem_nil hs).elim⟩
  | cons r rs =>
      rw [hruns] at hchain hhead hin
      obtain ⟨ss, hss, hts⟩ := exists_handOvers hchain (w := r.world)
        (fun r' h => by cases h; exact hhead r rfl) hin
      exact ⟨ss, hss.trans hruns.symm, hts⟩

/-- A batch that is served has each of its requests in one group, in order. It can be told
request by request, and however it is told, each request is served by the handler the table
holds for it when its turn comes exactly when between the reading of its entry and its turn
nothing but this entry was left in its slot. -/
theorem processMulti_live_iff (api : StStorageApi σ) (vx : Vx γ) (cfg : Config γ) {w : World σ γ}
    (h : World.Inv w) (io : Io) (batch : List Bytes) (hwf : ∀ f ∈ batch, WellFormed 0x80 f) :
    (∀ r, processMulti api vx cfg w io batch.flatten = some r →
      (batchRuns api vx cfg w io batch).flatMap (·.requests) = batch) ∧
    (∃ ss, BatchTold api vx cfg w io batch ss) ∧
    ∀ ss, BatchTold api vx cfg w io batch ss →
      ((∀ s ∈ ss, s.Live api vx) ↔ KeepsHandlers api vx ss) := by
  refine ⟨fun r hr => processMulti_requests api vx cfg hwf hr, exists_batchTold h io hwf,
    fun ss hss => ?_⟩
  obtain ⟨hchain, hhead⟩ := batchRuns_follows api vx cfg h io batch
  rw [← hss.runs] at hchain hhead
  cases ss with
  | nil => exact ⟨fun _ => ⟨fun s hs => (List.not_mem_nil hs).elim, .nil⟩,
      fun _ s hs => (List.not_mem_nil hs).elim⟩
  | cons s ss =>
      have hread : ReadIn s.run.world s.run := hhead s.run rfl
      rw [handOvers_live_iff hchain hss.tells (w := s.run.world)
        fun s' h => by cases h; exact hread]
      have hfirst : ∀ s' ∈ (s :: ss).head?, ∀ f ∈ s'.run.requests.head?,
          HandlerLive s'.run.world s'.run.group.entry f := by
        intro s' hs' f hf
        cases hs'
        have hrestored : Restored api vx s.run.world [] s.run.group.entry f :=
          fun e he => (Option.not_mem_none e he).elim
        exact (restored_iff hread.inv rfl (hread.first f hf)).mpr hrestored
      exact ⟨fun hk => hk.2, fun hk => ⟨hfirst, hk⟩⟩

end HandOvers

/-! ## A process that is freed on the way -/

/-- An engine that stores nothing. -/
def noStore : StStorageApi Unit where
  get := fun _ _ _ => none
  set := fun s _ _ => (s, -1)
  del := fun s _ => (s, -1)

/-- A server on which one plugin, `p`, is loaded and serves the command `0x80`. -/
def loadedWorld : World Unit Unit where
  cmdPointers := cmdPointersInit.put 0x80 (processEntry 0 0)
  procs := fun pid => if pid = 0 then
      some { key := ascii "p", machine := some (), registercnt := 1,
             userBufSz := maxRequestSize }
    else none
  nextProc := 1
  store := ()

theorem loadedWorld_inv : World.Inv loadedWorld := by
  have hslot : (cmdPointersInit 0x80).isRo = false := by decide
  refine ⟨?_, ?_, ?_⟩
  · intro cmd hro
    show (if cmd = 0x80 then processEntry 0 0 else cmdPointersInit cmd) = _
    rw [if_neg]
    rintro rfl
    rw [hslot] at hro
    cases hro
  · intro cmd hro
    show SlotOk loadedWorld (if cmd = 0x80 then processEntry 0 0 else cmdPointersInit cmd)
    split
    · exact .inr ⟨0, 0, rfl, Option.some_ne_none _⟩
    · exact .inl (cmdPointersInit_empty hro)
  · intro pid hpid
    show (if pid = 0 then _ else none) = none
    have hpos : 1 ≤ pid := hpid
    rw [if_neg (by omega)]

def codeUnloadRequest : Bytes :=
  Request.frame { opcode := memcacheXcmdCodeUnload, key := ascii "p" }

def pluginRequest : Bytes := Request.frame { opcode := 0x80 }

def liveConfig : Config Unit := { plainConfig with vx32Disabled := false }

/-- What can be seen of the hand-overs of a batch. -/
def handOverView (r : GroupRun Unit Unit) : List Bytes × Option CmdEntry × List CmdEntry × Bool :=
  (r.requests, r.group.entry, r.requests.map fun f => r.world.cmdPointers (mcGetOpcode f),
    (r.world.procs 0).isNone)

/-- The plugin is unloaded and called in one batch: its process is freed by the
first group, and the second group is handed to it all the same. -/
theorem processMulti_serves_freed_process :
    World.Inv loadedWorld ∧ (∀ f ∈ [codeUnloadRequest, pluginRequest], WellFormed 0x80 f) ∧
    (∃ ss, BatchTold noStore idleVx liveConfig loadedWorld {}
      [codeUnloadRequest, pluginRequest] ss) ∧
    ∀ ss, BatchTold noStore idleVx liveConfig loadedWorld {} [codeUnloadRequest, pluginRequest] ss →
      ∃ s ∈ ss, s.run.requests = [pluginRequest] ∧ s.run.group.entry = some (processEntry 0 0) ∧
        s.run.world.cmdPointers 0x80 = {} ∧ s.run.world.procs 0 = none ∧
        ¬ s.Live noStore idleVx := by
  have hwf : ∀ f ∈ [codeUnloadRequest, pluginRequest], WellFormed 0x80 f := by decide
  refine ⟨loadedWorld_inv, hwf, exists_batchTold loadedWorld_inv {} hwf, fun ss hss => ?_⟩
  have hruns : (batchRuns noStore idleVx liveConfig loadedWorld {}
      [codeUnloadRequest, pluginRequest]).map handOverView
      = [([codeUnloadRequest], some (cmdPointersInit memcacheXcmdCodeUnload),
          [cmdPointersInit memcacheXcmdCodeUnload], false),
        ([pluginRequest], some (processEntry 0 0), [{}], true)] := by decide +kernel
  rw [← hss.runs, List.map_map] at hruns
  have hmem := List.mem_cons_of_mem ([codeUnloadRequest],
    some (cmdPointersInit memcacheXcmdCodeUnload), [cmdPointersInit memcacheXcmdCodeUnload], false)
    (List.mem_singleton_self ([pluginRequest], some (processEntry 0 0), [({} : CmdEntry)], true))
  rw [← hruns] at hmem
  obtain ⟨s, hs, heq⟩ := List.mem_map.mp hmem
  simp only [Function.comp_apply, handOverView, Prod.mk.injEq, Option.isNone_iff_eq_none] at heq
  obtain ⟨hreq, hentry, hslot, hfreed⟩ := heq
  rw [hreq] at hslot
  refine ⟨s, hs, hreq, hentry, List.singleton_inj.mp hslot, hfreed, fun hlive => ?_⟩
  obtain ⟨t, ts, hts, -⟩ := (hss.tells s hs).first_turn
  exact (hlive.handlers [] t ts hts _ rfl).alive _ 0 hentry rfl hfreed

def unloadOtherRequest : Bytes :=
  Request.frame { opcode := memcacheXcmdCodeUnload, key := ascii "q" }

/-- Unloading what is not there does no harm to the plugin. -/
theorem processMulti_live_iff_unloadOther :
    World.Inv loadedWorld ∧ (∀ f ∈ [unloadOtherRequest, pluginRequest], WellFormed 0x80 f) ∧
    (∃ ss, BatchTold noStore idleVx liveConfig loadedWorld {} [unloadOtherRequest, pluginRequest]
      ss) ∧
    ∀ ss, BatchTold noStore idleVx liveConfig loadedWorld {}
        [unloadOtherRequest, pluginRequest] ss →
      ss.length = 2 ∧ (∀ s ∈ ss, s.Live noStore idleVx) ∧ KeepsHandlers noStore idleVx ss := by
  have hwf : ∀ f ∈ [unloadOtherRequest, pluginRequest], WellFormed 0x80 f := by decide
  obtain ⟨-, htold, hiff⟩ := processMulti_live_iff noStore idleVx liveConfig loadedWorld_inv {}
    [unloadOtherRequest, pluginRequest] hwf
  refine ⟨loadedWorld_inv, hwf, htold, fun ss hss => ?_⟩
  have hruns : (batchRuns noStore idleVx liveConfig loadedWorld {}
      [unloadOtherRequest, pluginRequest]).map handOverView
      = [([unloadOtherRequest], some (cmdPointersInit memcacheXcmdCodeUnload),
          [cmdPointersInit memcacheXcmdCodeUnload], false),
        ([pluginRequest], some (processEntry 0 0), [processEntry 0 0], false)] := by decide +kernel
  have hlive : ∀ s ∈ ss, s.Live noStore idleVx := by
    intro s hs
    have hmem : s.run ∈ batchRuns noStore idleVx liveConfig loadedWorld {}
        [unloadOtherRequest, pluginRequest] := hss.runs ▸ List.mem_map_of_mem hs
    have hhanded := (batchRuns_neighbours noStore idleVx liveConfig s.run hmem).1
    have hview := List.mem_map_of_mem (f := handOverView) hmem
    rw [hruns] at hview
    simp only [List.mem_cons, handOverView, Prod.mk.injEq, List.not_mem_nil, or_false] at hview
    have ht := hss.tells s hs
    rcases hview with ⟨hreq, hentry, hslot, -⟩ | ⟨hreq, hentry, hslot, halive⟩
    · rw [hreq] at hslot
      refine ht.live_single hreq hhanded ⟨?_, fun e pid he hptr => ?_⟩
      · exact hentry.trans (congrArg some (List.singleton_inj.mp hslot).symm)
      · rw [hentry, Option.some.injEq] at he
        rw [← he] at hptr
        exact absurd hptr (cmdPointersInit_ptr _ pid)
    · rw [hreq] at hslot
      refine ht.live_single hreq hhanded ⟨?_, fun e pid he hptr => ?_⟩
      · exact hentry.trans (congrArg some (List.singleton_inj.mp hslot).symm)
      · rw [hentry, Option.some.injEq] at he
        rw [← he] at hptr
        cases hptr
        exact fun hfreed => Bool.false_ne_true (halive ▸ Option.isNone_iff_eq_none.mpr hfreed)
  refine ⟨?_, hlive, (hiff ss hss).mp hlive⟩
  have hlen := congrArg List.length hruns
  rw [← hss.runs, List.length_map, List.length_map] at hlen
  exact hlen

end Smalltable.Proofs
