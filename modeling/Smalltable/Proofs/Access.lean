import Smalltable.Proofs.HostAddress
import Smalltable.Ref.Access

/-!
# Every byte that is touched was granted

A trace is guarded when each byte that it touches lies in a range that was
granted before, with the permission the access needs. Handlers keep traces
guarded, and so does the copy of the requests into `user_buf`, because the
process that waits for them was granted its buffer before it could wait.

`syscall_st_prefetch` is the exception. It multiplies its number of items by
the size of an element and asks about the low 32 bits of the product, and it
has the sizes of the keys read a second time after it has written to the array
next to them. And the array of sizes is asked about for reading only, while the
engine may write to it (`narrowedSizes`).

`ArraysApart` is the condition on a call under which none of this matters: the
loop stays in what was asked about, the sizes and what the engine makes of them
are not among the pointers, and what the engine writes lies where an earlier call
was allowed to write. With an engine that leaves the sizes alone the last part
says nothing.
-/

namespace Smalltable.Proofs

open Smalltable.Ref

/-! ## Guarded traces

A trace has its last event first, so that an access is judged by what stands behind it.
Which call has granted a range does not matter, nor how ranges are put together: each
byte of an access may lie in a range of its own. -/

/-- What a grant is good for: a range that was granted for both is good for each. -/
def Perm.allows : Perm → Perm → Bool
  | .readWrite, _ => true
  | p, q => p == q

/-- Each byte of the range was granted before, perhaps not by one call. -/
def Covers (trace : List MemEvent) (addr len : Nat) (perm : Perm) : Prop :=
  ∀ x, addr ≤ x → x < addr + len →
    ∃ a n p, .granted a n p ∈ trace ∧ Perm.allows p perm = true ∧ a ≤ x ∧ x < a + n

/-- Every access is covered by the events behind it, which are those that came before.
-/
def Guarded : List MemEvent → Prop
  | [] => True
  | .granted _ _ _ :: trace => Guarded trace
  | .touched addr len perm :: trace => Covers trace addr len perm ∧ Guarded trace

@[simp]
theorem guarded_granted (addr len : Nat) (perm : Perm) (trace : List MemEvent) :
    Guarded (.granted addr len perm :: trace) ↔ Guarded trace := Iff.rfl

@[simp]
theorem guarded_touched (addr len : Nat) (perm : Perm) (trace : List MemEvent) :
    Guarded (.touched addr len perm :: trace) ↔ Covers trace addr len perm ∧ Guarded trace :=
  Iff.rfl

theorem covers_of_granted {trace : List MemEvent} {a n : Nat} {p : Perm}
    (h : .granted a n p ∈ trace) {addr len : Nat} {perm : Perm} (hp : Perm.allows p perm = true)
    (hlo : a ≤ addr) (hhi : addr + len ≤ a + n) : Covers trace addr len perm :=
  fun x hx hx' => ⟨a, n, p, h, hp, by omega, by omega⟩

/-- What was asked last. -/
theorem covers_head {trace : List MemEvent} {a n len : Nat} {p perm : Perm}
    (hp : Perm.allows p perm = true) (hlen : len ≤ n) :
    Covers (.granted a n p :: trace) a len perm :=
  covers_of_granted List.mem_cons_self hp (Nat.le_refl a) (Nat.add_le_add_left hlen a)

theorem covers_zero (trace : List MemEvent) (addr : Nat) (perm : Perm) :
    Covers trace addr 0 perm :=
  fun x hx hx' => absurd hx (by omega)

theorem Covers.mono {trace trace' : List MemEvent} {addr len : Nat} {perm : Perm}
    (h : Covers trace addr len perm) (hsub : trace ⊆ trace') : Covers trace' addr len perm := by
  intro x hx hx'
  obtain ⟨a, n, p, hmem, hrest⟩ := h x hx hx'
  exact ⟨a, n, p, hsub hmem, hrest⟩

theorem Covers.cons {trace : List MemEvent} {addr len : Nat} {perm : Perm}
    (h : Covers trace addr len perm) (e : MemEvent) : Covers (e :: trace) addr len perm :=
  h.mono (List.subset_cons_self e trace)

/-! ## Running a handler

A handler is a function to `Option`, with the trace in its state. These say what each of
its operations is when it is run, and `simp` goes through a handler with them; what is
left are its branches. -/

section Run

variable {σ γ α β : Type} (api : StStorageApi σ) (vx : Vx γ)

@[simp]
theorem bind_run (x : Handler σ γ α) (f : α → Handler σ γ β) (t : Traced σ γ) :
    (x >>= f) t = (x t).bind fun r => f r.1 r.2 := rfl

@[simp]
theorem map_run (f : α → β) (x : Handler σ γ α) (t : Traced σ γ) :
    (f <$> x) t = (x t).bind fun r => some (f r.1, r.2) := rfl

@[simp]
theorem pure_run (a : α) (t : Traced σ γ) : (pure a : Handler σ γ α) t = some (a, t) := rfl

@[simp]
theorem get_run (t : Traced σ γ) : (get : Handler σ γ (Traced σ γ)) t = some (t, t) := rfl

@[simp]
theorem failure_run (t : Traced σ γ) : (failure : Handler σ γ α) t = none := rfl

@[simp]
theorem ite_run (c : Prop) [Decidable c] (x y : Handler σ γ α) (t : Traced σ γ) :
    (if c then x else y) t = if c then x t else y t := by
  split <;> rfl

@[simp]
theorem getReg_run (r : Reg) (t : Traced σ γ) :
    getReg vx r t = some (vx.reg t.sys.guest r, t) := rfl

@[simp]
theorem getStore_run (t : Traced σ γ) :
    (getStore : Handler σ γ σ) t = some (t.sys.world.store, t) := rfl

@[simp]
theorem readMem_run (addr len : Nat) (t : Traced σ γ) :
    readMem vx addr len t = some (vx.read t.sys.guest addr len,
      { t with trace := .touched addr len .read :: t.trace }) := rfl

@[simp]
theorem writeMem_run (addr : Nat) (bs : Bytes) (t : Traced σ γ) :
    writeMem vx addr bs t = some ((), {
      sys := { t.sys with guest := vx.write t.sys.guest addr bs }
      trace := .touched addr bs.length .write :: t.trace }) := rfl

@[simp]
theorem randomMem_run (addr len : Nat) (t : Traced σ γ) :
    randomMem vx addr len t = some ((), {
      sys := { t.sys with guest := vx.fillRandom t.sys.guest addr len }
      trace := .touched addr len .write :: t.trace }) := rfl

@[simp]
theorem modifySys_run (f : Sys σ γ → Sys σ γ) (t : Traced σ γ) :
    modifySys f t = some ((), { t with sys := f t.sys }) := rfl

@[simp]
theorem checkperm_bind (addr len : Nat) (perm : Perm) (t : Traced σ γ)
    (f : Bool × Traced σ γ → Option β) :
    (checkperm vx addr len perm t).bind f =
      if !vx.checkperm t.sys.guest addr len perm then f (false, t)
      else f (true, { t with trace := .granted addr len perm :: t.trace }) := by
  unfold checkperm
  cases vx.checkperm t.sys.guest addr len perm <;> rfl

theorem getProc_run {pid : Nat} {t : Traced σ γ} {pr : Process γ}
    (h : t.sys.world.procs pid = some pr) : getProc pid t = some (pr, t) := by
  rw [getProc, h]

theorem getProc_none {pid : Nat} {t : Traced σ γ} (h : t.sys.world.procs pid = none) :
    getProc pid t = none := by
  rw [getProc, h]

/-! ## Without the trace

The handlers of the model do not keep a trace. A handler with a trace is the handler
with the same name when the trace is forgotten, so what is shown of traces is shown of
the calls that all other results are about. -/

/-- What `do_syscall` makes of the value a handler returns. -/
def erased (r : Option (Int × Traced σ γ)) : Option (Sys σ γ) :=
  r.map fun r => { r.2.sys with ret := r.1 }

@[simp]
theorem erased_none : erased (none : Option (Int × Traced σ γ)) = none := rfl

@[simp]
theorem erased_some (ret : Int) (t : Traced σ γ) :
    erased (some (ret, t)) = some { t.sys with ret := ret } := rfl

@[simp]
theorem erased_ite (c : Prop) [Decidable c] (x y : Option (Int × Traced σ γ)) :
    erased (if c then x else y) = if c then erased x else erased y := by
  split <;> rfl

theorem tracedWrite_erase (t : Traced σ γ) :
    erased (tracedWrite vx t) = syscallWrite vx t.sys := by
  simp [tracedWrite, syscallWrite]

theorem tracedReadrequests_erase (pid : Nat) (t : Traced σ γ) :
    erased (tracedReadrequests vx pid t) = syscallReadrequests vx pid t.sys := by
  cases hpr : t.sys.world.procs pid with
  | none => simp [tracedReadrequests, syscallReadrequests, withProc, hpr, getProc_none hpr]
  | some pr => simp [tracedReadrequests, syscallReadrequests, withProc, setNext, setProc, hpr,
      getProc_run hpr]

theorem tracedWriteresponses_erase (pid : Nat) (t : Traced σ γ) :
    erased (tracedWriteresponses vx pid t) = syscallWriteresponses vx pid t.sys := by
  cases hpr : t.sys.world.procs pid with
  | none => simp [tracedWriteresponses, syscallWriteresponses, withProc, hpr, getProc_none hpr]
  | some pr => simp [tracedWriteresponses, syscallWriteresponses, withProc, setNext, hpr,
      getProc_run hpr]

theorem tracedStGet_erase (t : Traced σ γ) :
    erased (tracedStGet api vx t) = syscallStGet api vx t.sys := by
  cases hget : api.get t.sys.world.store (asInt (vx.reg t.sys.guest .ecx))
    (vx.read t.sys.guest (vx.reg t.sys.guest .ebx) (asInt (vx.reg t.sys.guest .edi)).toNat) <;>
    simp [tracedStGet, syscallStGet, hget]

theorem tracedStSet_erase (t : Traced σ γ) :
    erased (tracedStSet api vx t) = syscallStSet api vx t.sys := by
  simp [tracedStSet, syscallStSet, setStore]

theorem tracedStDel_erase (t : Traced σ γ) :
    erased (tracedStDel api vx t) = syscallStDel api vx t.sys := by
  simp [tracedStDel, syscallStDel, setStore]

theorem tracedStGetrandom_erase (t : Traced σ γ) :
    erased (tracedStGetrandom vx t) = syscallStGetrandom vx t.sys := by
  simp [tracedStGetrandom, syscallStGetrandom]

/-! ## The trace

Every handler but one asks for a range and then touches nothing but this range, once for
each buffer it is given. A handler that stops in between has touched less. -/

/-- If the handler comes back, the trace it leaves is guarded. -/
def Guards (r : Option (α × Traced σ γ)) : Prop :=
  ∀ a t, r = some (a, t) → Guarded t.trace

@[simp]
theorem guards_none : Guards (none : Option (α × Traced σ γ)) :=
  fun _ _ h => absurd h (Option.some_ne_none _).symm

@[simp]
theorem guards_some (a : α) (t : Traced σ γ) : Guards (some (a, t)) ↔ Guarded t.trace :=
  ⟨fun h => h a t rfl, fun h a' t' heq => by cases heq; exact h⟩

@[simp]
theorem guards_ite (c : Prop) [Decidable c] (x y : Option (α × Traced σ γ)) :
    Guards (if c then x else y) ↔ (c → Guards x) ∧ (¬ c → Guards y) := by
  split <;> simp_all

theorem minSize_le (n r : Nat) (hn : n ≤ 2 ^ 31) : minSize n (asInt r) ≤ r := by
  unfold minSize asInt
  split <;> split <;> omega

theorem toNat_asInt_le (r : Nat) : (asInt r).toNat ≤ r := by
  unfold asInt
  split <;> omega

theorem tracedWrite_guards {t : Traced σ γ} (ht : Guarded t.trace) : Guards (tracedWrite vx t) := by
  have hlen := minSize_le 1024 (vx.reg t.sys.guest .ebx) (by decide)
  simp [tracedWrite, ht, covers_head, Perm.allows, hlen]

theorem tracedReadrequests_guards (pid : Nat) {t : Traced σ γ} (ht : Guarded t.trace) :
    Guards (tracedReadrequests vx pid t) := by
  cases hpr : t.sys.world.procs pid with
  | none => simp [tracedReadrequests, getProc_none hpr]
  | some pr => simp [tracedReadrequests, setNext, setProc, getProc_run hpr, ht]

theorem tracedWriteresponses_guards (pid : Nat) {t : Traced σ γ} (ht : Guarded t.trace) :
    Guards (tracedWriteresponses vx pid t) := by
  have hlen := toNat_asInt_le (vx.reg t.sys.guest .ecx)
  cases hpr : t.sys.world.procs pid with
  | none => simp [tracedWriteresponses, getProc_none hpr]
  | some pr =>
      simp [tracedWriteresponses, setNext, getProc_run hpr, ht, covers_head, Perm.allows, hlen]

theorem tracedStGet_guards {t : Traced σ γ} (ht : Guarded t.trace) (hfits : ∀ store n key item,
      0 ≤ n → api.get store n key = some item → item.length ≤ n.toNat) :
    Guards (tracedStGet api vx t) := by
  by_cases hsz : 0 ≤ asInt (vx.reg t.sys.guest .ecx)
  · cases hget : api.get t.sys.world.store (asInt (vx.reg t.sys.guest .ecx))
      (vx.read t.sys.guest (vx.reg t.sys.guest .ebx) (asInt (vx.reg t.sys.guest .edi)).toNat) with
    | none => simp [tracedStGet, hget, ht, covers_head, Perm.allows]
    | some item =>
        have hdst (e e' : MemEvent) : Covers (e' :: e :: .granted (vx.reg t.sys.guest .edx)
            (asInt (vx.reg t.sys.guest .ecx)).toNat .write :: t.trace) (vx.reg t.sys.guest .edx)
            item.length .write := ((covers_head rfl (hfits _ _ _ _ hsz hget)).cons e).cons e'
        simp [tracedStGet, hget, ht, covers_head, Perm.allows, hdst]
  · simp [tracedStGet, ht, Int.not_le.mp hsz]

theorem tracedStSet_guards {t : Traced σ γ} (ht : Guarded t.trace) :
    Guards (tracedStSet api vx t) := by
  have hvalue (trace : List MemEvent) : Covers (.granted (vx.reg t.sys.guest .edx)
      (asInt (vx.reg t.sys.guest .ecx)).toNat .read :: trace) (vx.reg t.sys.guest .edx)
      (asInt (vx.reg t.sys.guest .ecx)).toNat .read := covers_head rfl (Nat.le_refl _)
  have hkey (trace : List MemEvent) : Covers (.granted (vx.reg t.sys.guest .ebx)
      (asInt (vx.reg t.sys.guest .edi)).toNat .read :: trace) (vx.reg t.sys.guest .ebx)
      (asInt (vx.reg t.sys.guest .edi)).toNat .read := covers_head rfl (Nat.le_refl _)
  simp [tracedStSet, setStore, ht, (hvalue _).cons, (hkey _).cons]

theorem tracedStDel_guards {t : Traced σ γ} (ht : Guarded t.trace) :
    Guards (tracedStDel api vx t) := by
  simp [tracedStDel, setStore, ht, covers_head, Perm.allows]

theorem tracedStGetrandom_guards {t : Traced σ γ} (ht : Guarded t.trace) :
    Guards (tracedStGetrandom vx t) := by
  simp [tracedStGetrandom, ht, covers_head, Perm.allows]

end Run

/-! ## `st_prefetch`

The loop has written over the array of pointers when the engine is called, and the
engine reads both arrays, and may write to the second. What the loop touches is in
`SlotsWithin`; `hintSize` and `hintAddr` are what the engine finds there, which is what
the loop has seen only if the arrays are apart (`keySize_eq`). -/

section Prefetch

variable {σ γ : Type} (api : StStorageApi σ) (vx : Vx γ) (keysAddr keysSzAddr : Nat)

theorem tracedFixKeys_run : ∀ (n i : Nat) (t : Traced σ γ), ∃ ok g trace,
    tracedFixKeys vx keysAddr keysSzAddr n i t
      = some (ok, { sys := { t.sys with guest := g }, trace := trace }) ∧
    fixKeyPointers vx keysAddr keysSzAddr n i t.sys.guest = (if ok then some g else none, g) := by
  intro n
  induction n with
  | zero => exact fun i t => ⟨true, t.sys.guest, t.trace, rfl, rfl⟩
  | succ n ih =>
      intro i t
      simp only [tracedFixKeys, fixKeyPointers, bind_run, readMem_run, Option.bind_some,
        checkperm_bind, ite_run, pure_run, get_run, writeMem_run]
      cases vx.checkperm t.sys.guest _ _ .read with
      | false => exact ⟨false, t.sys.guest, _, rfl, rfl⟩
      | true =>
          obtain ⟨ok, g, trace, hrun, hres⟩ := ih (i + 1) _
          exact ⟨ok, g, trace, hrun, hres⟩

/-! What the engine reads of the arrays is a list of reads of one guest. -/

/-- A handler that reads, and does nothing else. -/
def OnlyReads {α : Type} (h : Handler σ γ α) (value : γ → α) (events : γ → List MemEvent) : Prop :=
  ∀ t, h t = some (value t.sys.guest, { t with trace := events t.sys.guest ++ t.trace })

/-- One event, on top of a trace: a grant needs nothing. -/
def CoversEvent (trace : List MemEvent) : MemEvent → Prop
  | .granted _ _ _ => True
  | .touched addr len perm => Covers trace addr len perm

theorem guarded_append {trace events : List MemEvent} (ht : Guarded trace)
    (h : ∀ e ∈ events, CoversEvent trace e) : Guarded (events ++ trace) := by
  induction events with
  | nil => exact ht
  | cons e events ih =>
      have hrest := ih fun e' he' => h e' (List.mem_cons_of_mem e he')
      have he := h e List.mem_cons_self
      cases e with
      | granted addr len perm => exact hrest
      | touched addr len perm => exact ⟨he.mono (List.subset_append_right events trace), hrest⟩

theorem CoversEvent.mono {trace trace' : List MemEvent} {e : MemEvent}
    (h : CoversEvent trace e) (hsub : trace ⊆ trace') : CoversEvent trace' e := by
  cases e with
  | granted addr len perm => trivial
  | touched addr len perm => exact Covers.mono h hsub

theorem mapM_reads {α β : Type} {h : α → Handler σ γ β} {value : α → γ → β}
    {events : α → γ → List MemEvent} (hreads : ∀ a, OnlyReads (h a) (value a) (events a))
    (l : List α) (t : Traced σ γ) : ∃ trace,
    l.mapM h t = some (l.map fun a => value a t.sys.guest, { t with trace := trace }) ∧
    t.trace ⊆ trace ∧
    ((∀ a ∈ l, ∀ e ∈ events a t.sys.guest, CoversEvent t.trace e) → Guarded t.trace →
      Guarded trace) := by
  induction l generalizing t with
  | nil => exact ⟨t.trace, rfl, List.Subset.refl _, fun _ h => h⟩
  | cons a l ih =>
      obtain ⟨trace, hrun, hsub, hguard⟩ :=
        ih { t with trace := events a t.sys.guest ++ t.trace }
      have hold := List.subset_append_right (events a t.sys.guest) t.trace
      refine ⟨trace, ?_, fun e he => hsub (hold he), fun hcover ht => hguard ?_ ?_⟩
      · rw [List.mapM_cons, bind_run, hreads a t, Option.bind_some, bind_run, hrun]
        rfl
      · intro a' ha' e he
        exact (hcover a' (List.mem_cons_of_mem a ha') e he).mono hold
      · exact guarded_append ht (hcover a List.mem_cons_self)

/-- The size and the key the engine is handed, in the memory `g`. -/
def hintSize (vx : Vx γ) (keysSzAddr : Nat) (g : γ) (i : Nat) : Nat :=
  leVal (vx.read g (keysSzAddr + 4 * i) 4)

/-- The guest address of key `i`, as the engine finds it in the array of host pointers.
-/
def hintAddr (vx : Vx γ) (keysAddr : Nat) (g : γ) (i : Nat) : Nat :=
  leVal (vx.read g (keysAddr + vx.ptrSz * i) vx.ptrSz) - vx.base g

theorem tracedHintSize_reads (i : Nat) :
    OnlyReads (σ := σ) (tracedHintSize vx keysSzAddr i) (fun g => hintSize vx keysSzAddr g i)
      fun _ => [.touched (keysSzAddr + 4 * i) 4 .read] := fun _ => rfl

theorem tracedHint_reads (k : Nat × Nat) :
    OnlyReads (σ := σ) (tracedHint vx keysAddr k.1 k.2)
      (fun g => vx.read g (hintAddr vx keysAddr g k.2) k.1)
      fun g => [.touched (hintAddr vx keysAddr g k.2) k.1 .read,
        .touched (keysAddr + vx.ptrSz * k.2) vx.ptrSz .read] := fun _ => rfl

/-- What `readahead` writes over the sizes, in the memory `g`. -/
def sizesBack (g : γ) (n : Nat) : Bytes := api.readaheadSizes (hintedSizes vx g keysSzAddr n)

/-- All that `readahead` touches was granted. -/
structure CoversReadahead (trace : List MemEvent) (g : γ) (n : Nat) : Prop where
  sizes : ∀ i < n, Covers trace (keysSzAddr + 4 * i) 4 .read
  back : Covers trace keysSzAddr (sizesBack api vx keysSzAddr g n).length .write
  pointers : ∀ i < n, Covers trace (keysAddr + vx.ptrSz * i) vx.ptrSz .read
  keys : ∀ i < n, Covers trace
    (hintAddr vx keysAddr (vx.write g keysSzAddr (sizesBack api vx keysSzAddr g n)) i)
    (hintSize vx keysSzAddr g i) .read

theorem mem_zipIdx_hintedSizes {g : γ} {n : Nat} {k : Nat × Nat}
    (h : k ∈ (hintedSizes vx g keysSzAddr n).zipIdx) :
    k.2 < n ∧ k.1 = hintSize vx keysSzAddr g k.2 := by
  obtain ⟨-, hlt, hget⟩ := List.mem_zipIdx h
  rw [hintedSizes, List.length_map, List.length_range, Nat.zero_add] at hlt
  refine ⟨hlt, hget.trans ?_⟩
  simp only [hintedSizes, List.getElem_map, List.getElem_range, Nat.sub_zero, hintSize]

theorem tracedReadahead_run (readahead : σ → List Bytes → σ) (n : Nat) (t : Traced σ γ) :
    ∃ trace, tracedReadahead api vx readahead keysAddr keysSzAddr n t = some ((), {
      sys := { t.sys with
        world := { t.sys.world with
          store := readahead t.sys.world.store (hintedKeys vx
            (vx.write t.sys.guest keysSzAddr (sizesBack api vx keysSzAddr t.sys.guest n)) keysAddr
            (hintedSizes vx t.sys.guest keysSzAddr n)) }
        guest := vx.write t.sys.guest keysSzAddr (sizesBack api vx keysSzAddr t.sys.guest n) }
      trace := trace }) ∧
    t.trace ⊆ trace ∧
    (CoversReadahead api vx keysAddr keysSzAddr t.trace t.sys.guest n → Guarded t.trace →
      Guarded trace) := by
  obtain ⟨trace1, hsizes, hsub1, hguard1⟩ := mapM_reads
    (tracedHintSize_reads (σ := σ) vx keysSzAddr) (List.range n) t
  obtain ⟨trace2, hkeys, hsub2, hguard2⟩ := mapM_reads
    (tracedHint_reads (σ := σ) vx keysAddr) (hintedSizes vx t.sys.guest keysSzAddr n).zipIdx
    { sys := { t.sys with
        guest := vx.write t.sys.guest keysSzAddr (sizesBack api vx keysSzAddr t.sys.guest n) }
      trace := .touched keysSzAddr (sizesBack api vx keysSzAddr t.sys.guest n).length .write
        :: trace1 }
  have hold : t.trace ⊆ .touched keysSzAddr (sizesBack api vx keysSzAddr t.sys.guest n).length
      .write :: trace1 := List.Subset.trans hsub1 (List.subset_cons_self _ _)
  refine ⟨trace2, ?_, List.Subset.trans hold hsub2, fun hcover ht => hguard2 ?_ ⟨?_, hguard1 ?_ ht⟩⟩
  · rw [tracedReadahead, bind_run, hsizes, Option.bind_some, bind_run, writeMem_run,
      Option.bind_some, bind_run]
    exact congrArg (Option.bind · _) hkeys
  · intro k hk e he
    obtain ⟨hlt, hsz⟩ := mem_zipIdx_hintedSizes vx keysSzAddr hk
    simp only [List.mem_cons, List.not_mem_nil, or_false] at he
    rcases he with rfl | rfl
    · rw [hsz]
      exact Covers.mono (hcover.keys k.2 hlt) hold
    · exact Covers.mono (hcover.pointers k.2 hlt) hold
  · exact hcover.back.mono hsub1
  · intro i hi e he
    rw [List.mem_singleton.mp he]
    exact hcover.sizes i (List.mem_range.mp hi)

theorem tracedStPrefetch_erase (t : Traced σ γ) :
    erased (tracedStPrefetch api vx t) = syscallStPrefetch api vx t.sys := by
  cases hr : api.readahead with
  | none => simp [tracedStPrefetch, syscallStPrefetch, setStore, hr]
  | some readahead =>
      obtain ⟨ok, g, trace, hrun, hres⟩ := tracedFixKeys_run vx (vx.reg t.sys.guest .edx)
        (vx.reg t.sys.guest .ecx) (asInt (vx.reg t.sys.guest .ebx)).toNat 0
        { t with trace := (
            .granted (vx.reg t.sys.guest .ecx)
              (4 * (asInt (vx.reg t.sys.guest .ebx)).toNat % 2 ^ 32) .read ::
            .granted (vx.reg t.sys.guest .edx)
              (vx.ptrSz * (asInt (vx.reg t.sys.guest .ebx)).toNat % 2 ^ 32) .readWrite :: t.trace) }
      obtain ⟨trace', hhints, -, -⟩ := tracedReadahead_run api vx (vx.reg t.sys.guest .edx)
        (vx.reg t.sys.guest .ecx) readahead (asInt (vx.reg t.sys.guest .ebx)).toNat
        { sys := { t.sys with guest := g }, trace := trace }
      simp only [tracedStPrefetch, syscallStPrefetch, setStore, hr, bind_run, getReg_run,
        getStore_run, Option.bind_some, ite_run, pure_run, checkperm_bind, modifySys_run,
        writeMem_run, erased_ite, erased_some, Bool.not_false, Bool.not_true, Bool.false_eq_true,
        if_true, if_false, hrun]
      cases ok with
      | false => simp [hres]
      | true => simp [hres, hhints, sizesBack]

/-- A memory that is mapped where pointers reach: the address of a byte that the
guest may access does not wrap. -/
structure HostMemory {γ : Type} (vx : Vx γ) extends FlatMemory vx where
  mapped : ∀ g addr len perm, vx.checkperm g addr len perm = true → 0 < len →
    vx.base g + addr < 256 ^ vx.ptrSz

variable {vx}

/-- The size of key `i` when the loop looks at it. -/
def keySize (vx : Vx γ) (keysAddr keysSzAddr : Nat) (g : γ) (i : Nat) : Nat :=
  leVal (vx.read (hostPointers vx keysAddr g i) (keysSzAddr + 4 * i) 4)

/-- The slots that the loop over `N` keys comes to lie in the first `len` bytes
of the array of pointers and in the first `szLen` bytes of the array of sizes. -/
def SlotsWithin (vx : Vx γ) (keysAddr keysSzAddr : Nat) (g : γ) (N len szLen : Nat) : Prop :=
  ∀ i < N, (∀ j < i, keyReadable vx keysAddr keysSzAddr g j = true) →
    vx.ptrSz * (i + 1) ≤ len ∧ 4 * (i + 1) ≤ szLen

/-- The loop asks about every key before it replaces its pointer. -/
theorem tracedFixKeys_guards (m : FlatMemory vx) (g : γ) {N len szLen : Nat}
    (hwithin : SlotsWithin vx keysAddr keysSzAddr g N len szLen) : ∀ (n i : Nat)
    {t t' : Traced σ γ} {ok : Bool}, i + n = N → t.sys.guest = hostPointers vx keysAddr g i →
    (∀ j < i, keyReadable vx keysAddr keysSzAddr g j = true) →
    .granted keysAddr len .readWrite ∈ t.trace →
    .granted keysSzAddr szLen .read ∈ t.trace → Guarded t.trace →
    tracedFixKeys vx keysAddr keysSzAddr n i t = some (ok, t') →
    Guarded t'.trace ∧ t.trace ⊆ t'.trace ∧
      (ok = true → t'.sys.guest = hostPointers vx keysAddr g N ∧
        ∀ j, i ≤ j → j < N → keyReadable vx keysAddr keysSzAddr g j = true ∧
          .granted (keyPointer vx keysAddr g j) (keySize vx keysAddr keysSzAddr g j) .read
            ∈ t'.trace) := by
  intro n
  induction n with
  | zero =>
      intro i t t' ok hN hguest _ _ _ ht h
      cases h
      exact ⟨ht, List.Subset.refl _, fun _ => ⟨by rw [hguest, ← hN]; rfl, fun j h1 h2 => by omega⟩⟩
  | succ n ih =>
      intro i t t' ok hN hguest hbefore hkeys hsizes ht h
      obtain ⟨hslot, hszSlot⟩ := hwithin i (by omega) hbefore
      rw [Nat.mul_succ] at hslot
      have hpointer : Covers t.trace (keysAddr + vx.ptrSz * i) vx.ptrSz .read :=
        covers_of_granted hkeys rfl (by omega) (by omega)
      have hwrite : Covers t.trace (keysAddr + vx.ptrSz * i) vx.ptrSz .write :=
        covers_of_granted hkeys rfl (by omega) (by omega)
      have hsize : Covers t.trace (keysSzAddr + 4 * i) 4 .read :=
        covers_of_granted hsizes rfl (by omega) (by omega)
      simp only [tracedFixKeys, bind_run, readMem_run, Option.bind_some, checkperm_bind, ite_run,
        pure_run, get_run, writeMem_run, Bool.not_false, Bool.not_true, Bool.false_eq_true,
        if_true, if_false] at h
      rw [hguest, hostPointers_checkperm m, hostPointers_later m keysAddr g (Nat.le_refl i),
        hostPointers_base m] at h
      split at h
      · cases h
        exact ⟨⟨hsize.cons _, hpointer, ht⟩, fun e he => by simp [he], fun hok => by cases hok⟩
      · next hreadable =>
          have hreadable : ¬ (!keyReadable vx keysAddr keysSzAddr g i) = true := hreadable
          have hkey : keyReadable vx keysAddr keysSzAddr g i = true := by simpa using hreadable
          have hbefore' : ∀ j < i + 1, keyReadable vx keysAddr keysSzAddr g j = true := by
            intro j hj
            by_cases hji : j = i
            · rw [hji]; exact hkey
            · exact hbefore j (by omega)
          obtain ⟨hguard, hsub, hrest⟩ := ih (i + 1) (by omega) rfl hbefore' (by simp [hkeys])
            (by simp [hsizes])
            (by simp [ht, hpointer, hsize.cons, ((hwrite.cons _).cons _).cons _]) h
          refine ⟨hguard, fun e he => hsub (by simp [he]), fun hok => ?_⟩
          obtain ⟨hend, hgranted⟩ := hrest hok
          refine ⟨hend, fun j h1 h2 => ?_⟩
          by_cases hj : j = i
          · subst hj
            refine ⟨hkey, hsub ?_⟩
            simp [keyPointer, keySize]
          · exact hgranted j (by omega) h2

/-- What is written over the sizes when all keys are readable. -/
def callSizesBack (vx : Vx γ) (g : γ) : Bytes :=
  sizesBack api vx (vx.reg g .ecx) (hostPointers vx (vx.reg g .edx) g (keyCount vx g))
    (keyCount vx g)

/-- The loop stays in the ranges that the server asks about, whose lengths are
32-bit values. And where it gets through, the sizes are not among the pointers,
and what the engine writes over the sizes is not either and lies in memory that
an earlier call has asked about, for writing. -/
def ArraysApart (vx : Vx γ) (trace : List MemEvent) (g : γ) : Prop :=
  SlotsWithin vx (vx.reg g .edx) (vx.reg g .ecx) g (keyCount vx g)
    (vx.ptrSz * keyCount vx g % 2 ^ 32) (4 * keyCount vx g % 2 ^ 32) ∧
  ((∀ i < keyCount vx g, keyOk vx g i = true) →
    (keyCount vx g = 0 ∨
      (vx.reg g .ecx + 4 ≤ vx.reg g .edx ∧
        vx.reg g .ecx + (callSizesBack api vx g).length ≤ vx.reg g .edx) ∨
      vx.reg g .edx + vx.ptrSz * keyCount vx g ≤ vx.reg g .ecx) ∧
    Covers trace (vx.reg g .ecx) (callSizesBack api vx g).length .write)

/-- A size that is not among the pointers is still what the loop has seen. -/
theorem keySize_eq (m : FlatMemory vx) (g : γ) {i N : Nat} (hi : i < N)
    (h : keysSzAddr + 4 ≤ keysAddr ∨ keysAddr + vx.ptrSz * N ≤ keysSzAddr) :
    hintSize vx keysSzAddr (hostPointers vx keysAddr g N) i
      = keySize vx keysAddr keysSzAddr g i := by
  have hslots : 4 * i ≤ vx.ptrSz * i := Nat.mul_le_mul_right i m.four_le_ptrSz
  rw [hintSize, keySize]
  refine congrArg leVal (m.read_congr fun k hk => ?_)
  exact hostPointers_between m keysAddr g hi.le _ (by omega)

/-- The host pointer leads back to the key, whatever is written beside the
pointers. -/
theorem hintAddr_eq (m : HostMemory vx) (g : γ) {i N : Nat} (hi : i < N)
    (hreadable : keyReadable vx keysAddr keysSzAddr g i = true)
    (hsize : 0 < keySize vx keysAddr keysSzAddr g i) {back : Bytes}
    (hback : keysSzAddr + back.length ≤ keysAddr ∨ keysAddr + vx.ptrSz * N ≤ keysSzAddr) :
    hintAddr vx keysAddr (vx.write (hostPointers vx keysAddr g N) keysSzAddr back) i
      = keyPointer vx keysAddr g i := by
  have hfits : vx.base g + keyPointer vx keysAddr g i < 256 ^ vx.ptrSz :=
    m.mapped g _ _ .read hreadable hsize
  have hslot : vx.ptrSz * (i + 1) ≤ vx.ptrSz * N := Nat.mul_le_mul_left _ hi
  rw [Nat.mul_succ] at hslot
  rw [hintAddr, m.read_write_apart _ (by omega), m.base_write,
    hostPointers_earlier m.toFlatMemory keysAddr g hi, leVal_leBytes,
    Nat.mod_eq_of_lt hfits, hostPointers_base m.toFlatMemory, Nat.add_sub_cancel_left]

/-- What the engine looks up was asked about in the loop. -/
theorem coversReadahead_of_granted (m : HostMemory vx) (g : γ) {N len szLen : Nat}
    {trace : List MemEvent} (hkeys : .granted keysAddr len .readWrite ∈ trace)
    (hsizes : .granted keysSzAddr szLen .read ∈ trace) (hlen : vx.ptrSz * N ≤ len)
    (hszLen : 4 * N ≤ szLen)
    (hapart : N = 0 ∨ (keysSzAddr + 4 ≤ keysAddr ∧ keysSzAddr +
        (sizesBack api vx keysSzAddr (hostPointers vx keysAddr g N) N).length ≤ keysAddr) ∨
      keysAddr + vx.ptrSz * N ≤ keysSzAddr)
    (hback : Covers trace keysSzAddr
      (sizesBack api vx keysSzAddr (hostPointers vx keysAddr g N) N).length .write)
    (hreadable : ∀ i < N, keyReadable vx keysAddr keysSzAddr g i = true ∧
      .granted (keyPointer vx keysAddr g i) (keySize vx keysAddr keysSzAddr g i) .read ∈ trace) :
    CoversReadahead api vx keysAddr keysSzAddr trace (hostPointers vx keysAddr g N) N where
  sizes i hi := covers_of_granted hsizes rfl (by omega) (by omega)
  back := hback
  pointers i hi := by
    have hslot : vx.ptrSz * (i + 1) ≤ vx.ptrSz * N := Nat.mul_le_mul_left _ hi
    rw [Nat.mul_succ] at hslot
    exact covers_of_granted hkeys rfl (by omega) (by omega)
  keys i hi := by
    obtain ⟨hread, hgranted⟩ := hreadable i hi
    rw [keySize_eq keysAddr keysSzAddr m.toFlatMemory g hi (by omega)]
    by_cases hsize : 0 < keySize vx keysAddr keysSzAddr g i
    · rw [hintAddr_eq keysAddr keysSzAddr m g hi hread hsize (by omega)]
      exact covers_of_granted hgranted rfl (Nat.le_refl _) (Nat.le_refl _)
    · rw [Nat.eq_zero_of_not_pos hsize]
      exact covers_zero trace _ .read

theorem tracedStPrefetch_guards (m : HostMemory vx) {t : Traced σ γ} (ht : Guarded t.trace)
    (hnum : vx.reg t.sys.guest .eax = 0xFF05)
    (hapart : ReachesLoop api vx t.sys.guest → ArraysApart api vx t.trace t.sys.guest) :
    Guards (tracedStPrefetch api vx t) := by
  cases hr : api.readahead with
  | none => simp [tracedStPrefetch, setStore, hr, ht]
  | some readahead =>
      simp only [tracedStPrefetch, setStore, hr, bind_run, getReg_run,
        getStore_run, Option.bind_some, ite_run, pure_run, checkperm_bind, modifySys_run,
        writeMem_run, guards_ite, guards_some, Bool.not_false, Bool.not_true, Bool.false_eq_true,
        if_true, if_false]
      refine ⟨fun _ => ht, fun hitems => ⟨fun _ => ht, fun hzero => ⟨fun _ => ht, fun hkeys =>
        ⟨fun _ => ht, fun hsizes => ?_⟩⟩⟩⟩
      obtain ⟨hwithin, hapart⟩ := hapart ⟨hnum, by omega, hzero, by simpa using hkeys,
        by simpa using hsizes, by rw [hr]; rfl⟩
      simp only [keyOk, callSizesBack, keyCount] at hwithin hapart
      generalize (asInt (vx.reg t.sys.guest .ebx)).toNat = N at hwithin hapart ⊢
      generalize vx.reg t.sys.guest .edx = keysAddr at hwithin hapart ⊢
      generalize vx.reg t.sys.guest .ecx = keysSzAddr at hwithin hapart ⊢
      generalize vx.ptrSz * N % 2 ^ 32 = len at hwithin ⊢
      generalize 4 * N % 2 ^ 32 = szLen at hwithin ⊢
      obtain ⟨ok, g, trace, hrun, -⟩ := tracedFixKeys_run vx keysAddr keysSzAddr N 0
        { t with trace := (.granted keysSzAddr szLen .read ::
          .granted keysAddr len .readWrite :: t.trace) }
      obtain ⟨hguard, hsub, hend⟩ := tracedFixKeys_guards keysAddr keysSzAddr m.toFlatMemory
        t.sys.guest hwithin N 0 (t := { t with trace := (.granted keysSzAddr szLen .read ::
          .granted keysAddr len .readWrite :: t.trace) })
        (Nat.zero_add N) rfl (fun j hj => absurd hj (Nat.not_lt_zero j)) (by simp) (by simp) ht hrun
      have hkeys : .granted keysAddr len .readWrite ∈ trace := hsub (by simp)
      have hsizes : .granted keysSzAddr szLen .read ∈ trace := hsub (by simp)
      have hold : t.trace ⊆ trace := fun e he => hsub (by simp [he])
      rw [hrun, Option.bind_some]
      cases ok with
      | false => simpa using hguard
      | true =>
          obtain ⟨hguest, hgranted⟩ := hend rfl
          have hguest : g = hostPointers vx keysAddr t.sys.guest N := hguest
          have hreadable : ∀ i < N, keyReadable vx keysAddr keysSzAddr t.sys.guest i = true :=
            fun i hi => (hgranted i (Nat.zero_le i) hi).1
          have hlen : vx.ptrSz * N ≤ len ∧ 4 * N ≤ szLen := by
            cases N with
            | zero => exact ⟨Nat.zero_le len, Nat.zero_le szLen⟩
            | succ k => exact hwithin k (by omega) fun j hj => hreadable j (by omega)
          obtain ⟨hplace, hback⟩ := hapart hreadable
          obtain ⟨trace', hhints, hsub', hguard'⟩ := tracedReadahead_run api vx keysAddr keysSzAddr
            readahead N { sys := { t.sys with guest := g }, trace := trace }
          have hcover : CoversReadahead api vx keysAddr keysSzAddr trace g N := by
            rw [hguest]
            exact coversReadahead_of_granted api keysAddr keysSzAddr m t.sys.guest hkeys hsizes
              hlen.1 hlen.2 hplace (hback.mono hold) fun i hi => hgranted i (Nat.zero_le i) hi
          have hclear : Covers trace' keysAddr (vx.ptrSz * N) .write :=
            covers_of_granted (hsub' hkeys) rfl (Nat.le_refl _) (by omega)
          simp [hhints, hclear, hguard' hcover hguard]

end Prefetch

end Smalltable.Proofs
