import Mathlib.Data.Nat.ModEq
import Smalltable.Proofs.Lifecycle

/-!
# Where the guest's memory is mapped

The host maps the memory of a guest at some address `m->base`, which the guest
has no business knowing. All but one of the system calls work on guest
addresses alone and cannot tell. `syscall_st_prefetch` replaces the guest's key
pointers by host pointers, one after the other, in the guest's own memory. It
clears them when it is done, and does not when it meets a bad pointer on the
way: the host addresses of the keys before it are then there to be read
(`LeavesHostPointers`).

A call that does get through hands the two arrays to the engine, which may write
the sizes back in another form. Where the sizes are apart from the pointers they
are the same at every mapping, and so is what is written back
(`not_sizesTell`). Where they are not, a size can be a piece of a host pointer,
and what the engine writes outside of the pointers is not cleared afterwards
(`SizesTell`). Nothing else tells the mapping (`hidesMapping_iff`).
-/

namespace Smalltable.Proofs

open Smalltable.Ref

/-- A sandbox as a memory of bytes: what is written is there to be read, and the
rest of the guest is not touched. -/
structure FlatMemory {γ : Type} (vx : Vx γ) where
  byte : γ → Nat → UInt8
  /-- a pointer holds a guest address -/
  four_le_ptrSz : 4 ≤ vx.ptrSz
  read_eq : ∀ g addr n, vx.read g addr n = (List.range n).map fun i => byte g (addr + i)
  byte_write : ∀ g addr bs x, byte (vx.write g addr bs) x =
    if addr ≤ x ∧ x < addr + bs.length then bs.getD (x - addr) 0 else byte g x
  reg_write : ∀ g addr bs r, vx.reg (vx.write g addr bs) r = vx.reg g r
  checkperm_write : ∀ g addr bs a n p,
    vx.checkperm (vx.write g addr bs) a n p = vx.checkperm g a n p
  base_write : ∀ g addr bs, vx.base (vx.write g addr bs) = vx.base g

/-- A memory that can be mapped anywhere: `move` is the same guest at another
address. -/
structure Mapping {γ : Type} (vx : Vx γ) extends FlatMemory vx where
  move : γ → Nat → γ
  reg_setReg : ∀ g r v r', vx.reg (vx.setReg g r v) r' = if r' = r then v else vx.reg g r'
  byte_setReg : ∀ g r v x, byte (vx.setReg g r v) x = byte g x
  base_move : ∀ g b, vx.base (move g b) = b
  byte_move : ∀ g b x, byte (move g b) x = byte g x
  reg_move : ∀ g b r, vx.reg (move g b) r = vx.reg g r
  checkperm_move : ∀ g b a n p, vx.checkperm (move g b) a n p = vx.checkperm g a n p
  memSize_move : ∀ g b, vx.memSize (move g b) = vx.memSize g
  setReg_move : ∀ g b r v, vx.setReg (move g b) r v = move (vx.setReg g r v) b
  write_move : ∀ g b addr bs, vx.write (move g b) addr bs = move (vx.write g addr bs) b
  fillRandom_move : ∀ g b addr n, vx.fillRandom (move g b) addr n = move (vx.fillRandom g addr n) b
  /-- the mapping may be elsewhere after it -/
  resize_move : ∀ g b n, ∃ b', vx.resize (move g b) n = (vx.resize g n).map (move · b')
  setperm_move : ∀ g b a n, vx.setperm (move g b) a n = (vx.setperm g a n).map (move · b)

section Loop

variable {σ γ : Type} (api : StStorageApi σ) {vx : Vx γ}

theorem FlatMemory.read_congr (m : FlatMemory vx) {g1 g2 : γ} {addr n : Nat}
    (h : ∀ i < n, m.byte g1 (addr + i) = m.byte g2 (addr + i)) :
    vx.read g1 addr n = vx.read g2 addr n := by
  rw [m.read_eq, m.read_eq]
  exact List.map_congr_left fun i hi => h i (List.mem_range.mp hi)

theorem FlatMemory.read_write_self (m : FlatMemory vx) (g : γ) (addr : Nat) (bs : Bytes) :
    vx.read (vx.write g addr bs) addr bs.length = bs := by
  rw [m.read_eq]
  refine List.ext_getElem (by simp) fun i h1 h2 => ?_
  simp only [List.getElem_map, List.getElem_range, m.byte_write]
  rw [if_pos (by omega), Nat.add_sub_cancel_left, List.getD_eq_getElem?_getD,
    List.getElem?_eq_getElem h2, Option.getD_some]

theorem FlatMemory.read_write_apart (m : FlatMemory vx) (g : γ) {addr addr' n : Nat} {bs : Bytes}
    (h : addr' + n ≤ addr ∨ addr + bs.length ≤ addr') :
    vx.read (vx.write g addr bs) addr' n = vx.read g addr' n := by
  refine m.read_congr fun i hi => ?_
  rw [m.byte_write, if_neg (by omega)]

/-! ## The loop over the key pointers

By induction on the number of keys. After some of them, these pointers are replaced and
nothing else is changed; the sizes, if they are somewhere else, are what the guest has
put there. -/

section Prefetch

/-- The key pointer `i` as the guest has it. -/
def keyPointer (vx : Vx γ) (keysAddr : Nat) (g : γ) (i : Nat) : Nat :=
  leVal (vx.read g (keysAddr + vx.ptrSz * i) vx.ptrSz) % 2 ^ 32

/-- The guest once its first `i` key pointers are replaced by host pointers. -/
def hostPointers (vx : Vx γ) (keysAddr : Nat) (g : γ) : Nat → γ
  | 0 => g
  | i + 1 => vx.write (hostPointers vx keysAddr g i) (keysAddr + vx.ptrSz * i)
      (leBytes vx.ptrSz (vx.base g + keyPointer vx keysAddr g i))

/-- The test the loop makes of key `i`. The size is read with the pointers before
it replaced, which matters when the two arrays overlap. -/
def keyReadable (vx : Vx γ) (keysAddr keysSzAddr : Nat) (g : γ) (i : Nat) : Bool :=
  vx.checkperm g (keyPointer vx keysAddr g i)
    (leVal (vx.read (hostPointers vx keysAddr g i) (keysSzAddr + 4 * i) 4)) .read

/-! Every operation sees the replaced pointers only in their own slots. -/

variable (m : FlatMemory vx) (keysAddr keysSzAddr : Nat)
include m

theorem hostPointers_checkperm (g : γ) (i a n : Nat) (p : Perm) :
    vx.checkperm (hostPointers vx keysAddr g i) a n p = vx.checkperm g a n p := by
  induction i with
  | zero => rfl
  | succ i ih => rw [hostPointers, m.checkperm_write, ih]

theorem hostPointers_base (g : γ) (i : Nat) :
    vx.base (hostPointers vx keysAddr g i) = vx.base g := by
  induction i with
  | zero => rfl
  | succ i ih => rw [hostPointers, m.base_write, ih]

theorem hostPointers_reg (g : γ) (i : Nat) (r : Reg) :
    vx.reg (hostPointers vx keysAddr g i) r = vx.reg g r := by
  induction i with
  | zero => rfl
  | succ i ih => rw [hostPointers, m.reg_write, ih]

/-- From key `i` to key `k` only the slots between them are written. -/
theorem hostPointers_between (g : γ) {i k : Nat} (hik : i ≤ k) (x : Nat)
    (h : x < keysAddr + vx.ptrSz * i ∨ keysAddr + vx.ptrSz * k ≤ x) :
    m.byte (hostPointers vx keysAddr g k) x = m.byte (hostPointers vx keysAddr g i) x := by
  induction k, hik using Nat.le_induction with
  | base => rfl
  | succ k hik ih =>
      have hle : vx.ptrSz * i ≤ vx.ptrSz * k := Nat.mul_le_mul_left _ hik
      rw [Nat.mul_succ] at h
      rw [hostPointers, m.byte_write, length_leBytes, if_neg (by omega)]
      exact ih (by omega)

theorem hostPointers_byte (g : γ) (i x : Nat)
    (h : x < keysAddr ∨ keysAddr + vx.ptrSz * i ≤ x) :
    m.byte (hostPointers vx keysAddr g i) x = m.byte g x :=
  hostPointers_between m keysAddr g (Nat.zero_le i) x (by rw [Nat.mul_zero]; exact h)

/-- The slots from `i` on are still the guest's. -/
theorem hostPointers_later (g : γ) {i j : Nat} (h : i ≤ j) :
    vx.read (hostPointers vx keysAddr g i) (keysAddr + vx.ptrSz * j) vx.ptrSz
      = vx.read g (keysAddr + vx.ptrSz * j) vx.ptrSz := by
  have hle : vx.ptrSz * i ≤ vx.ptrSz * j := Nat.mul_le_mul_left _ h
  exact m.read_congr fun k _ => hostPointers_byte m keysAddr g i _ (by omega)

/-- The slots before it hold host pointers. -/
theorem hostPointers_earlier (g : γ) {i j : Nat} (h : j < i) :
    vx.read (hostPointers vx keysAddr g i) (keysAddr + vx.ptrSz * j) vx.ptrSz
      = leBytes vx.ptrSz (vx.base g + keyPointer vx keysAddr g j) := by
  induction i with
  | zero => omega
  | succ i ih =>
      rw [hostPointers]
      by_cases hj : j = i
      · subst hj
        have hself := m.read_write_self (hostPointers vx keysAddr g j)
          (keysAddr + vx.ptrSz * j)
          (leBytes vx.ptrSz (vx.base g + keyPointer vx keysAddr g j))
        rwa [length_leBytes] at hself
      · have hle : vx.ptrSz * (j + 1) ≤ vx.ptrSz * i := Nat.mul_le_mul_left _ (by omega)
        rw [Nat.mul_succ] at hle
        rw [m.read_write_apart _ (.inl (by omega))]
        exact ih (by omega)

/-- The loop goes as far as the keys are readable. -/
theorem fixKeyPointers_spec (g : γ) : ∀ n i, ∃ k, i ≤ k ∧ k ≤ i + n ∧
    (∀ j, i ≤ j → j < k → keyReadable vx keysAddr keysSzAddr g j = true) ∧
    ((k = i + n ∧ fixKeyPointers vx keysAddr keysSzAddr n i (hostPointers vx keysAddr g i)
        = (some (hostPointers vx keysAddr g k), hostPointers vx keysAddr g k)) ∨
      (k < i + n ∧ keyReadable vx keysAddr keysSzAddr g k = false ∧
        fixKeyPointers vx keysAddr keysSzAddr n i (hostPointers vx keysAddr g i)
          = (none, hostPointers vx keysAddr g k))) := by
  intro n
  induction n with
  | zero => exact fun i => ⟨i, Nat.le_refl i, Nat.le_refl i, fun j h1 h2 => by omega,
      .inl ⟨rfl, rfl⟩⟩
  | succ n ih =>
      intro i
      have htest : vx.checkperm (hostPointers vx keysAddr g i)
          (leVal (vx.read (hostPointers vx keysAddr g i) (keysAddr + vx.ptrSz * i)
            vx.ptrSz) % 2 ^ 32)
          (leVal (vx.read (hostPointers vx keysAddr g i) (keysSzAddr + 4 * i) 4)) .read
            = keyReadable vx keysAddr keysSzAddr g i := by
        rw [hostPointers_checkperm m, hostPointers_later m keysAddr g (Nat.le_refl i)]
        rfl
      simp only [fixKeyPointers]
      rw [htest]
      cases hkey : keyReadable vx keysAddr keysSzAddr g i with
      | false =>
          exact ⟨i, Nat.le_refl i, by omega, fun j h1 h2 => by omega, .inr ⟨by omega, hkey, rfl⟩⟩
      | true =>
          have hnext : vx.write (hostPointers vx keysAddr g i) (keysAddr + vx.ptrSz * i)
              (leBytes vx.ptrSz (vx.base (hostPointers vx keysAddr g i) +
                leVal (vx.read (hostPointers vx keysAddr g i) (keysAddr + vx.ptrSz * i)
                  vx.ptrSz) % 2 ^ 32)) = hostPointers vx keysAddr g (i + 1) := by
            rw [hostPointers_base m, hostPointers_later m keysAddr g (Nat.le_refl i)]
            rfl
          simp only [Bool.not_true, Bool.false_eq_true, if_false]
          rw [hnext]
          obtain ⟨k, hk1, hk2, hbefore, hend⟩ := ih (i + 1)
          refine ⟨k, by omega, by omega, fun j h1 h2 => ?_, ?_⟩
          · by_cases hj : j = i
            · rw [hj]; exact hkey
            · exact hbefore j (by omega) h2
          · rw [show i + 1 + n = i + (n + 1) by omega] at hend
            exact hend

theorem fixKeyPointers_end (g : γ) (n : Nat) : ∃ k ≤ n,
    (∀ j < k, keyReadable vx keysAddr keysSzAddr g j = true) ∧
    ((k = n ∧ fixKeyPointers vx keysAddr keysSzAddr n 0 g
        = (some (hostPointers vx keysAddr g n), hostPointers vx keysAddr g n)) ∨
      (k < n ∧ keyReadable vx keysAddr keysSzAddr g k = false ∧
        fixKeyPointers vx keysAddr keysSzAddr n 0 g = (none, hostPointers vx keysAddr g k))) := by
  obtain ⟨k, -, hk, hbefore, hend⟩ := fixKeyPointers_spec m keysAddr keysSzAddr g n 0
  rw [Nat.zero_add] at hk hend
  refine ⟨k, hk, fun j hj => hbefore j (Nat.zero_le j) hj, ?_⟩
  rcases hend with ⟨rfl, hend⟩ | hend
  · exact .inl ⟨rfl, hend⟩
  · exact .inr hend

end Prefetch

/-- The guest calls `st_prefetch`, and the call gets past its checks of the two
arrays to the loop over the keys. -/
def ReachesLoop (vx : Vx γ) (g : γ) : Prop :=
  vx.reg g .eax = 0xFF05 ∧ 0 ≤ asInt (vx.reg g .ebx) ∧
  ¬ (vx.reg g .edx = 0 ∧ vx.reg g .ecx = 0 ∧ asInt (vx.reg g .ebx) = 0) ∧
  vx.checkperm g (vx.reg g .edx) (vx.ptrSz * (asInt (vx.reg g .ebx)).toNat % 2 ^ 32)
    .readWrite = true ∧
  vx.checkperm g (vx.reg g .ecx) (4 * (asInt (vx.reg g .ebx)).toNat % 2 ^ 32) .read = true ∧
  api.readahead.isSome = true

/-- The number of keys of the call. -/
def keyCount (vx : Vx γ) (g : γ) : Nat := (asInt (vx.reg g .ebx)).toNat

/-- The test of key `i` in the call that the guest is about to make. -/
def keyOk (vx : Vx γ) (g : γ) (i : Nat) : Bool :=
  keyReadable vx (vx.reg g .edx) (vx.reg g .ecx) g i

/-- The guest when the engine has been handed the keys. -/
def sizesWritten (vx : Vx γ) (g : γ) : γ :=
  vx.write (hostPointers vx (vx.reg g .edx) g (keyCount vx g)) (vx.reg g .ecx)
    (api.readaheadSizes (hintedSizes vx (hostPointers vx (vx.reg g .edx) g (keyCount vx g))
      (vx.reg g .ecx) (keyCount vx g)))

/-- The guest after a call that went through: the array of pointers is cleared. -/
def clearedKeys (vx : Vx γ) (g : γ) : γ :=
  vx.write (sizesWritten api vx g) (vx.reg g .edx) (List.replicate (vx.ptrSz * keyCount vx g) 0)

/-- A call that reaches the loop ends with all the pointers cleared, or with those
before the first bad one replaced. -/
theorem syscallStPrefetch_loop {s : Sys σ γ} (m : FlatMemory vx)
    (hloop : ReachesLoop api vx s.guest) :
    ∃ k ≤ keyCount vx s.guest,
    (∀ j < k, keyOk vx s.guest j = true) ∧
    ((k = keyCount vx s.guest ∧ ∃ w, syscallStPrefetch api vx s
        = some { s with world := w, guest := clearedKeys api vx s.guest, ret := 0 }) ∨
      (k < keyCount vx s.guest ∧ keyOk vx s.guest k = false ∧ syscallStPrefetch api vx s
        = some { s with guest := hostPointers vx (vx.reg s.guest .edx) s.guest k,
                        ret := minusEinval })) := by
  obtain ⟨-, hitems, hzero, hkeys, hsizes, hr⟩ := hloop
  obtain ⟨readahead, hr⟩ := Option.isSome_iff_exists.mp hr
  obtain ⟨k, hk, hbefore, hend⟩ := fixKeyPointers_end m (vx.reg s.guest .edx) (vx.reg s.guest .ecx)
    s.guest (keyCount vx s.guest)
  refine ⟨k, hk, hbefore, ?_⟩
  simp only [syscallStPrefetch, hkeys, hsizes, hr, if_neg hzero, if_neg (Int.not_lt.mpr hitems),
    Bool.not_true, Bool.false_eq_true, if_false]
  rcases hend with ⟨hk, hend⟩ | ⟨hk, hbad, hend⟩
  · refine .inl ⟨hk, ?_⟩
    rw [keyCount] at hend
    rw [hend]
    exact ⟨_, rfl⟩
  · refine .inr ⟨hk, hbad, ?_⟩
    rw [keyCount] at hend
    rw [hend]

end Loop

section Hidden

variable {σ γ : Type} (api : StStorageApi σ) {vx : Vx γ} (m : Mapping vx)

theorem Mapping.read_move (m : Mapping vx) (g : γ) (b addr n : Nat) :
    vx.read (m.move g b) addr n = vx.read g addr n := by
  exact m.read_congr fun i _ => m.byte_move g b _

/-- The guest sees the same registers and the same memory. -/
structure Mapping.Alike (g1 g2 : γ) : Prop where
  regs : ∀ r, vx.reg g1 r = vx.reg g2 r
  bytes : ∀ x, m.byte g1 x = m.byte g2 x

/-- The state of a call, with the guest mapped at `b`. -/
def Mapping.at (s : Sys σ γ) (b : Nat) : Sys σ γ := { s with guest := m.move s.guest b }

/-! ## Calls that do not look at the mapping

They work on guest addresses. Moving the mapping and making the call can be done in
either order, and the guest cannot tell which. -/

theorem syscallBrk_move (s : Sys σ γ) (b : Nat) :
    ∃ b', syscallBrk vx (m.at s b) = (syscallBrk vx s).map (m.at · b') := by
  simp only [syscallBrk, Mapping.at, m.reg_move, m.memSize_move]
  split
  · exact ⟨b, rfl⟩
  · split
    · obtain ⟨b', hb'⟩ := m.resize_move s.guest b
        ((vx.reg s.guest .edx + 2 ^ 20 - 1) % 2 ^ 32 / 2 ^ 20 * 2 ^ 20)
      rw [hb']
      cases vx.resize s.guest _ with
      | none => exact ⟨b, rfl⟩
      | some g =>
          refine ⟨b', ?_⟩
          simp only [Option.map_some, m.setperm_move]
          cases vx.setperm g _ _ <;> rfl
    · exact ⟨b, rfl⟩

/-- The call and the mapping do not see each other. -/
theorem syscalls_move {num : Nat} (hnum : num ≠ 0xFF05) (pid : Nat) (s : Sys σ γ) (b : Nat) :
    ∃ b', syscalls api vx pid num (m.at s b) = (syscalls api vx pid num s).map (m.at · b') := by
  unfold syscalls
  split
  case h_2 => exact syscallBrk_move m s b
  case h_9 => exact absurd rfl hnum
  -- in the others the mapping goes through every operation on the guest
  all_goals
    refine ⟨b, ?_⟩
    simp only [syscallExit, syscallWrite, syscallRegister, syscallUnregister, syscallReadrequests,
      syscallWriteresponses, syscallStGet, syscallStSet, syscallStDel, syscallStGetrandom, withProc,
      Mapping.at, m.reg_move, m.checkperm_move, m.read_move, m.write_move, m.fillRandom_move]
    repeat' split
    all_goals rfl

/-! ## The call that looks at the mapping

The condition is on the guest in front of the call: with the arrays it has prepared the
loop comes to a bad pointer behind a good one, or the engine is given sizes that are
pieces of pointers. In every other case the pointers are cleared, and the rest is the
same at every mapping. -/

theorem reachesLoop_move (g : γ) (b : Nat) :
    ReachesLoop api vx (m.move g b) ↔ ReachesLoop api vx g := by
  simp only [ReachesLoop, m.reg_move, m.checkperm_move]

/-- A call that stops before the loop does not see the mapping. -/
theorem syscallStPrefetch_move {s : Sys σ γ} (hnum : vx.reg s.guest .eax = 0xFF05)
    (hloop : ¬ ReachesLoop api vx s.guest) (b : Nat) :
    syscallStPrefetch api vx (m.at s b) = (syscallStPrefetch api vx s).map (m.at · b) := by
  simp only [syscallStPrefetch, Mapping.at, m.reg_move, m.checkperm_move]
  split
  · rfl
  · split
    · rfl
    · split
      · rfl
      · split
        · rfl
        · next h1 h2 h3 h4 =>
            cases hr : api.readahead with
            | none => rfl
            | some readahead =>
                refine absurd ⟨hnum, by omega, h2, ?_, ?_, by rw [hr]; rfl⟩ hloop
                · simpa using h3
                · simpa using h4

/-- Mapped at any two addresses that fit a pointer, the guest ends the call with
the same registers and the same memory. -/
def HidesMapping (pid : Nat) (s : Sys σ γ) : Prop :=
  ∀ b1 < 256 ^ vx.ptrSz, ∀ b2 < 256 ^ vx.ptrSz,
    Option.Rel (fun s1 s2 => m.Alike s1.guest s2.guest)
      (doSyscall api vx pid (m.at s b1)) (doSyscall api vx pid (m.at s b2))

/-- The guest calls `st_prefetch` with arrays it may access, the first key is
readable, and for some mapping a later one is not. -/
def LeavesHostPointers (s : Sys σ γ) : Prop :=
  ReachesLoop api vx s.guest ∧ keyOk vx s.guest 0 = true ∧
  ∃ b < 256 ^ vx.ptrSz, ∃ i < keyCount vx s.guest, keyOk vx (m.move s.guest b) i = false

/-- The guest calls `st_prefetch` with arrays it may access, all keys are readable,
and what the engine writes over the sizes is not the same for all mappings
outside of the array of pointers. -/
def SizesTell (s : Sys σ γ) : Prop :=
  ReachesLoop api vx s.guest ∧ ∃ b1 < 256 ^ vx.ptrSz, ∃ b2 < 256 ^ vx.ptrSz,
    (∀ i < keyCount vx s.guest, keyOk vx (m.move s.guest b1) i = true) ∧
    (∀ i < keyCount vx s.guest, keyOk vx (m.move s.guest b2) i = true) ∧
    ∃ x, (x < vx.reg s.guest .edx ∨
        vx.reg s.guest .edx + vx.ptrSz * keyCount vx s.guest ≤ x) ∧
      m.byte (sizesWritten api vx (m.move s.guest b1)) x
        ≠ m.byte (sizesWritten api vx (m.move s.guest b2)) x

theorem keyCount_move (g : γ) (b : Nat) : keyCount vx (m.move g b) = keyCount vx g := by
  rw [keyCount, keyCount, m.reg_move]

/-- The first key is tested before anything is replaced. -/
theorem keyOk_zero_move (g : γ) (b : Nat) : keyOk vx (m.move g b) 0 = keyOk vx g 0 := by
  simp only [keyOk, keyReadable, keyPointer, hostPointers, m.reg_move, m.read_move,
    m.checkperm_move]

theorem keyPointer_move (keysAddr : Nat) (g : γ) (b i : Nat) :
    keyPointer vx keysAddr (m.move g b) i = keyPointer vx keysAddr g i := by
  rw [keyPointer, keyPointer, m.read_move]

theorem Mapping.Alike.setReg {g1 g2 : γ} (h : m.Alike g1 g2) (r : Reg) (v : Nat) :
    m.Alike (vx.setReg g1 r v) (vx.setReg g2 r v) where
  regs r' := by rw [m.reg_setReg, m.reg_setReg, h.regs]
  bytes x := by rw [m.byte_setReg, m.byte_setReg, h.bytes]

theorem Mapping.alike_move (g : γ) (b1 b2 : Nat) : m.Alike (m.move g b1) (m.move g b2) where
  regs r := by rw [m.reg_move, m.reg_move]
  bytes x := by rw [m.byte_move, m.byte_move]

/-- Outside of the pointers the loop leaves no trace of the mapping. -/
theorem hostPointers_outside (g : γ) (keysAddr b1 b2 i : Nat) {x : Nat}
    (h : x < keysAddr ∨ keysAddr + vx.ptrSz * i ≤ x) :
    m.byte (hostPointers vx keysAddr (m.move g b1) i) x
      = m.byte (hostPointers vx keysAddr (m.move g b2) i) x := by
  rw [hostPointers_byte m.toFlatMemory _ _ _ _ h, hostPointers_byte m.toFlatMemory _ _ _ _ h,
    m.byte_move, m.byte_move]

/-- Sizes that are apart from the pointers are the same at every mapping. -/
theorem hintedSizes_apart (g : γ) {keysAddr keysSzAddr n : Nat}
    (h : keysSzAddr + 4 * n ≤ keysAddr ∨ keysAddr + vx.ptrSz * n ≤ keysSzAddr) (b1 b2 : Nat) :
    hintedSizes vx (hostPointers vx keysAddr (m.move g b1) n) keysSzAddr n
      = hintedSizes vx (hostPointers vx keysAddr (m.move g b2) n) keysSzAddr n := by
  refine List.map_congr_left fun i hi => ?_
  have hi := List.mem_range.mp hi
  refine congrArg leVal (m.read_congr fun k hk => ?_)
  exact hostPointers_outside m g keysAddr b1 b2 n (by omega)

/-- Nothing is told by an engine that leaves the sizes alone, nor when the two
arrays are apart. -/
theorem not_sizesTell {s : Sys σ γ} (h : (∀ sizes, api.readaheadSizes sizes = []) ∨
      vx.reg s.guest .ecx + 4 * keyCount vx s.guest ≤ vx.reg s.guest .edx ∨
      vx.reg s.guest .edx + vx.ptrSz * keyCount vx s.guest ≤ vx.reg s.guest .ecx) :
    ¬ SizesTell api m s := by
  rintro ⟨-, b1, -, b2, -, -, -, x, hx, hne⟩
  refine hne ?_
  simp only [sizesWritten, m.reg_move, keyCount_move, m.byte_write]
  have hsame : api.readaheadSizes (hintedSizes vx
        (hostPointers vx (vx.reg s.guest .edx) (m.move s.guest b1) (keyCount vx s.guest))
        (vx.reg s.guest .ecx) (keyCount vx s.guest))
      = api.readaheadSizes (hintedSizes vx
        (hostPointers vx (vx.reg s.guest .edx) (m.move s.guest b2) (keyCount vx s.guest))
        (vx.reg s.guest .ecx) (keyCount vx s.guest)) := by
    rcases h with hleft | hapart
    · rw [hleft, hleft]
    · rw [hintedSizes_apart m s.guest hapart b1 b2]
  rw [hsame, hostPointers_outside m s.guest _ b1 b2 _ hx]

/-- The cleared array hides what was in it. -/
theorem clearedKeys_alike_iff (g : γ) (b1 b2 : Nat) :
    m.Alike (clearedKeys api vx (m.move g b1)) (clearedKeys api vx (m.move g b2)) ↔
      ∀ x, (x < vx.reg g .edx ∨ vx.reg g .edx + vx.ptrSz * keyCount vx g ≤ x) →
        m.byte (sizesWritten api vx (m.move g b1)) x
          = m.byte (sizesWritten api vx (m.move g b2)) x := by
  constructor
  · intro halike x hx
    have hbyte := halike.bytes x
    simp only [clearedKeys, m.byte_write, keyCount_move, m.reg_move, List.length_replicate] at hbyte
    rwa [if_neg (by omega), if_neg (by omega)] at hbyte
  · intro hsame
    refine ⟨fun r => ?_, fun x => ?_⟩
    · simp only [clearedKeys, sizesWritten, m.reg_write, hostPointers_reg m.toFlatMemory,
          m.reg_move]
    · simp only [clearedKeys, m.byte_write, keyCount_move, m.reg_move, List.length_replicate]
      split
      · rfl
      · exact hsame x (by omega)

/-- Calls that do not see the mapping do not show it. -/
theorem hidesMapping_of_move {pid : Nat} {s : Sys σ γ}
    (h : ∀ b, ∃ b', syscalls api vx pid (vx.reg s.guest .eax) (m.at { s with next := .continue } b)
      = (syscalls api vx pid (vx.reg s.guest .eax) { s with next := .continue }).map (m.at · b')) :
    HidesMapping api m pid s := by
  intro b1 _ b2 _
  obtain ⟨b1', h1⟩ := h b1
  obtain ⟨b2', h2⟩ := h b2
  simp only [doSyscall, Mapping.at, m.reg_move] at h1 h2 ⊢
  rw [h1, h2]
  cases syscalls api vx pid (vx.reg s.guest .eax) { s with next := .continue } with
  | none => exact .none
  | some t => exact .some ((m.alike_move t.guest b1' b2').setReg m .eax _)

/-- How a call that reaches the loop ends for the guest mapped at `b`. -/
theorem doSyscall_loop {s : Sys σ γ} (hloop : ReachesLoop api vx s.guest) (pid b : Nat) :
    ∃ k, (∀ j < k, keyOk vx (m.move s.guest b) j = true) ∧
      ∃ t, doSyscall api vx pid (m.at s b) = some t ∧
      ((k = keyCount vx s.guest ∧
          t.guest = vx.setReg (clearedKeys api vx (m.move s.guest b)) .eax 0) ∨
        (k < keyCount vx s.guest ∧ keyOk vx (m.move s.guest b) k = false ∧
          t.guest = vx.setReg (hostPointers vx (vx.reg s.guest .edx) (m.move s.guest b) k)
            .eax (minusEinval % 2 ^ 32).toNat)) := by
  have hat : ReachesLoop api vx (m.move s.guest b) := (reachesLoop_move api m s.guest b).mpr hloop
  obtain ⟨k, -, hbefore, hend⟩ := syscallStPrefetch_loop api m.toFlatMemory
      (s := { m.at s b with next := .continue }) hat
  have hnum : vx.reg (m.move s.guest b) .eax = 0xFF05 := hat.1
  have hcall : syscalls api vx pid 0xFF05 { m.at s b with next := .continue }
      = syscallStPrefetch api vx { m.at s b with next := .continue } := rfl
  refine ⟨k, hbefore, ?_⟩
  simp only [Mapping.at, keyCount_move, m.reg_move] at hend hcall
  simp only [doSyscall, Mapping.at]
  rw [hnum, hcall]
  rcases hend with ⟨hk, w, hend⟩ | ⟨hk, hbad, hend⟩
  · rw [hend]
    exact ⟨_, rfl, .inl ⟨hk, rfl⟩⟩
  · rw [hend]
    exact ⟨_, rfl, .inr ⟨hk, hbad, rfl⟩⟩

/-- What is left in the first slot tells the mapping. -/
theorem hostPointers_tell (keysAddr : Nat) (g : γ) {b1 b2 k1 k2 : Nat} (hk1 : 0 < k1) (hk2 : 0 < k2)
    (hb1 : b1 < 256 ^ vx.ptrSz) (hb2 : b2 < 256 ^ vx.ptrSz)
    (h : ∀ x, m.byte (hostPointers vx keysAddr (m.move g b1) k1) x
      = m.byte (hostPointers vx keysAddr (m.move g b2) k2) x) : b1 = b2 := by
  have hread : leVal (leBytes vx.ptrSz (b1 + keyPointer vx keysAddr g 0))
      = leVal (leBytes vx.ptrSz (b2 + keyPointer vx keysAddr g 0)) := by
    have h1 := hostPointers_earlier m.toFlatMemory keysAddr (m.move g b1) hk1
    have h2 := hostPointers_earlier m.toFlatMemory keysAddr (m.move g b2) hk2
    rw [m.base_move, keyPointer_move] at h1 h2
    rw [← h1, ← h2]
    exact congrArg leVal (m.read_congr fun i _ => h _)
  rw [leVal_leBytes, leVal_leBytes] at hread
  have hmod := Nat.ModEq.add_right_cancel' (keyPointer vx keysAddr g 0) hread
  rwa [Nat.ModEq, Nat.mod_eq_of_lt hb1, Nat.mod_eq_of_lt hb2] at hmod

/-- As long as no call stops between two keys, and no size that is written back
tells it, the mapping is hidden. -/
theorem hidesMapping_of_clears {s : Sys σ γ} (pid : Nat) (h : ¬ LeavesHostPointers api m s)
    (htell : ¬ SizesTell api m s) : HidesMapping api m pid s := by
  by_cases hnum : vx.reg s.guest .eax = 0xFF05
  · by_cases hloop : ReachesLoop api vx s.guest
    · intro b1 hb1 b2 hb2
      -- a call that stops does so at the first key, whatever the mapping
      have hstop : ∀ b < 256 ^ vx.ptrSz, ∀ k < keyCount vx s.guest,
          (∀ j < k, keyOk vx (m.move s.guest b) j = true) →
          keyOk vx (m.move s.guest b) k = false → k = 0 ∧ keyOk vx s.guest 0 = false := by
        intro b hb k hk hbefore hbad
        by_cases hk0 : k = 0
        · subst hk0
          exact ⟨rfl, by rw [← keyOk_zero_move m s.guest b]; exact hbad⟩
        · have hfirst := hbefore 0 (by omega)
          rw [keyOk_zero_move] at hfirst
          exact absurd ⟨hloop, hfirst, b, hb, k, hk, hbad⟩ h
      have hgo : ∀ b, ∀ k, 0 < k → (∀ j < k, keyOk vx (m.move s.guest b) j = true) →
          keyOk vx s.guest 0 = true := by
        intro b k hk hbefore
        rw [← keyOk_zero_move m s.guest b]
        exact hbefore 0 hk
      obtain ⟨k1, hbefore1, t1, ht1, hend1⟩ := doSyscall_loop api m hloop pid b1
      obtain ⟨k2, hbefore2, t2, ht2, hend2⟩ := doSyscall_loop api m hloop pid b2
      rw [ht1, ht2]
      refine .some ?_
      rcases hend1 with ⟨hk1, hg1⟩ | ⟨hk1, hbad1, hg1⟩ <;>
        rcases hend2 with ⟨hk2, hg2⟩ | ⟨hk2, hbad2, hg2⟩ <;> rw [hg1, hg2]
      · subst hk1 hk2
        refine ((clearedKeys_alike_iff api m s.guest b1 b2).mpr fun x hx => ?_).setReg m .eax _
        by_contra hne
        exact htell ⟨hloop, b1, hb1, b2, hb2, hbefore1, hbefore2, x, hx, hne⟩
      · obtain ⟨rfl, hno⟩ := hstop b2 hb2 k2 hk2 hbefore2 hbad2
        rw [hgo b1 k1 (by omega) hbefore1] at hno
        cases hno
      · obtain ⟨rfl, hno⟩ := hstop b1 hb1 k1 hk1 hbefore1 hbad1
        rw [hgo b2 k2 (by omega) hbefore2] at hno
        cases hno
      · obtain ⟨rfl, -⟩ := hstop b1 hb1 k1 hk1 hbefore1 hbad1
        obtain ⟨rfl, -⟩ := hstop b2 hb2 k2 hk2 hbefore2 hbad2
        exact (m.alike_move s.guest b1 b2).setReg m .eax _
    · refine hidesMapping_of_move api m fun b => ⟨b, ?_⟩
      rw [hnum]
      exact syscallStPrefetch_move api m (s := { s with next := .continue }) hnum hloop b
  · exact hidesMapping_of_move api m fun b => syscalls_move api m hnum pid _ b

/-- A call that stops between two keys shows it. -/
theorem not_hidesMapping_of_leaves {s : Sys σ γ} (pid : Nat) (h : LeavesHostPointers api m s) :
    ¬ HidesMapping api m pid s := by
  obtain ⟨hloop, hfirst, b, hb, i, hi, hbad⟩ := h
  have hone : 1 < 256 ^ vx.ptrSz := Nat.one_lt_pow (by have := m.four_le_ptrSz; omega) (by decide)
  intro hhides
  have hb' : (b + 1) % 256 ^ vx.ptrSz < 256 ^ vx.ptrSz := Nat.mod_lt _ (by omega)
  have hne : b ≠ (b + 1) % 256 ^ vx.ptrSz := by
    by_cases hlast : b + 1 < 256 ^ vx.ptrSz
    · rw [Nat.mod_eq_of_lt hlast]; omega
    · rw [show b + 1 = 256 ^ vx.ptrSz by omega, Nat.mod_self]; omega
  have hpos : ∀ b k, keyOk vx (m.move s.guest b) k = false → 0 < k := by
    intro b k hk
    refine Nat.pos_of_ne_zero fun hzero => ?_
    rw [hzero, keyOk_zero_move, hfirst] at hk
    cases hk
  have halike := hhides b hb _ hb'
  obtain ⟨k1, hbefore1, t1, ht1, hend1⟩ := doSyscall_loop api m hloop pid b
  obtain ⟨k2, hbefore2, t2, ht2, hend2⟩ := doSyscall_loop api m hloop pid
    ((b + 1) % 256 ^ vx.ptrSz)
  rw [ht1, ht2] at halike
  obtain ⟨halike⟩ := halike
  rcases hend1 with ⟨hk1, -⟩ | ⟨hk1, hbad1, hg1⟩
  · rw [hbefore1 i (by omega)] at hbad
    cases hbad
  rw [hg1] at halike
  rcases hend2 with ⟨hk2, hg2⟩ | ⟨hk2, hbad2, hg2⟩
  · -- one call fails, the other does not
    have heax := halike.regs .eax
    rw [hg2, m.reg_setReg, m.reg_setReg, if_pos rfl, if_pos rfl] at heax
    exact absurd heax (by decide)
  · rw [hg2] at halike
    refine hne (hostPointers_tell m (vx.reg s.guest .edx) s.guest (hpos b k1 hbad1)
      (hpos _ k2 hbad2) hb hb' fun x => ?_)
    have hbyte := halike.bytes x
    rwa [m.byte_setReg, m.byte_setReg] at hbyte

/-- What is written back and not cleared shows it. -/
theorem not_hidesMapping_of_tells {s : Sys σ γ} (pid : Nat) (h : SizesTell api m s) :
    ¬ HidesMapping api m pid s := by
  obtain ⟨hloop, b1, hb1, b2, hb2, hok1, hok2, x, hx, hne⟩ := h
  intro hhides
  have halike := hhides b1 hb1 b2 hb2
  obtain ⟨k1, -, t1, ht1, hend1⟩ := doSyscall_loop api m hloop pid b1
  obtain ⟨k2, -, t2, ht2, hend2⟩ := doSyscall_loop api m hloop pid b2
  rw [ht1, ht2] at halike
  obtain ⟨halike⟩ := halike
  rcases hend1 with ⟨-, hg1⟩ | ⟨hk1, hbad1, -⟩
  · rcases hend2 with ⟨-, hg2⟩ | ⟨hk2, hbad2, -⟩
    · rw [hg1, hg2] at halike
      refine hne ((clearedKeys_alike_iff api m s.guest b1 b2).mp ⟨fun r => ?_, fun y => ?_⟩ x hx)
      · simp only [clearedKeys, sizesWritten, m.reg_write, hostPointers_reg m.toFlatMemory,
          m.reg_move]
      · have hbyte := halike.bytes y
        rwa [m.byte_setReg, m.byte_setReg] at hbyte
    · rw [hok2 k2 hk2] at hbad2
      cases hbad2
  · rw [hok1 k1 hk1] at hbad1
    cases hbad1

/-- A system call keeps the mapping to itself unless it is an `st_prefetch` that
meets a bad key after a good one, or hands the engine sizes that lie among the
pointers and that the engine writes back. -/
theorem hidesMapping_iff (pid : Nat) (s : Sys σ γ) :
    HidesMapping api m pid s ↔ ¬ LeavesHostPointers api m s ∧ ¬ SizesTell api m s :=
  ⟨fun hhides => ⟨fun hleaves => not_hidesMapping_of_leaves api m pid hleaves hhides,
      fun htells => not_hidesMapping_of_tells api m pid htells hhides⟩,
    fun h => hidesMapping_of_clears api m pid h.1 h.2⟩

end Hidden

/-! ## A guest that reads a host address

A memory of one page with the checks of the sandbox's chunks, in which the first key is
good and the second begins behind the end. -/

/-- A guest with one page of memory. -/
structure FlatGuest where
  regs : Reg → Nat
  mem : Nat → UInt8
  base : Nat

/-- `chunk_checkperm` of libvx32 for a chunk of `size` bytes whose pages all have
every permission. The last page asked about is that of the byte before the last,
so a single byte at the beginning of a page is granted unseen. -/
def chunkCheckperm (size addr len : Nat) : Bool :=
  let pn := addr / 4096
  let pe := (addr + len - 1 + 4095) % 2 ^ 32 / 4096
  let cpe := (size + 4095) / 4096
  decide (addr + len < 2 ^ 32) &&
    (len == 0 || (List.range' pn (pe - pn)).all fun pn => decide (pn < cpe))

def flatVx : Vx FlatGuest where
  run g := (.other, g)
  reg g r := g.regs r
  setReg g r v := { g with regs := fun r' => if r' = r then v else g.regs r' }
  checkperm _ addr n _ := chunkCheckperm 4096 addr n
  read g addr n := (List.range n).map fun i => g.mem (addr + i)
  write g addr bs := { g with mem := fun x =>
    if addr ≤ x ∧ x < addr + bs.length then bs.getD (x - addr) 0 else g.mem x }
  memSize _ := 4096
  resize _ _ := none
  setperm _ _ _ := none
  fillRandom g addr n := { g with mem := fun x => if addr ≤ x ∧ x < addr + n then 4 else g.mem x }
  base g := g.base
  ptrSz := 8
  length_read g addr n := by simp

/-- This memory can be moved, as its bytes have addresses of their own. -/
def flatMapping : Mapping flatVx where
  byte g x := g.mem x
  move g b := { g with base := b }
  four_le_ptrSz := by decide
  read_eq _ _ _ := rfl
  byte_write _ _ _ _ := rfl
  reg_write _ _ _ _ := rfl
  checkperm_write _ _ _ _ _ _ := rfl
  base_write _ _ _ := rfl
  reg_setReg _ _ _ _ := rfl
  byte_setReg _ _ _ _ := rfl
  base_move _ _ := rfl
  byte_move _ _ _ := rfl
  reg_move _ _ _ := rfl
  checkperm_move _ _ _ _ _ := rfl
  memSize_move _ _ := rfl
  setReg_move _ _ _ _ := rfl
  write_move _ _ _ _ := rfl
  fillRandom_move _ _ _ _ := rfl
  resize_move _ b _ := ⟨b, rfl⟩
  setperm_move _ _ _ _ := rfl

/-- An engine that takes hints and has no use for them. -/
def hintedEngine : StStorageApi Unit := { emptyEngine with readahead := some fun s _ => s }

/-- `st_prefetch` of two keys of one byte each. The first is at 256, the second
lies outside the page, and not at the beginning of one. -/
def secondKeyBad : Sys Unit FlatGuest where
  world := { store := () }
  io := {}
  guest :=
    { regs := fun
        | .eax => 0xFF05
        | .edx => 64
        | .ecx => 128
        | .ebx => 2
        | .edi => 0
      mem := fun
        | 65 => 0x01  -- keys[0] = 0x100
        | 72 => 0x01  -- keys[1] = 0x2001
        | 73 => 0x20
        | 128 => 1
        | 132 => 1
        | _ => 0
      base := 0 }

theorem secondKeyBad_shows : ¬ HidesMapping hintedEngine flatMapping 0 secondKeyBad := by
  refine not_hidesMapping_of_leaves _ _ 0 ⟨⟨rfl, ?_, ?_, rfl, rfl, rfl⟩, rfl, 4096, ?_, 1, ?_, rfl⟩
  all_goals decide

end Smalltable.Proofs
