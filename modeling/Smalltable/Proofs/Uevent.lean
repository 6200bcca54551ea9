import Smalltable.Proofs.ProxyServe
import Smalltable.Ref.Uevent

/-!
# No callback is lost

What has happened to one descriptor reads registration, call, registration, call, with
the same arguments in a registration and its call; a registration without its call is
the last, and there is one as long as the descriptor is in one of the sets (`Tracks`).
That holds wherever the loop can be, and `used_slots` is the size of the two sets, as long
as a callback registers nothing but its own descriptor: the scan goes through a copy of
the sets, and what it has not come to yet is still registered then (`Unscanned`). The
callbacks of the proxy keep to that (`chain_ownOnly`).

An error of `select`, `EINTR` or another, leaves the sets as they were, and the loop
goes round again. So nothing is lost by it, and the history has no event of it.
-/

namespace Smalltable.Proofs

open Smalltable.Ref

variable {κ υ : Type}

def LoopEvent.fd : LoopEvent κ υ → Nat
  | .yielded r => r.fd
  | .called r => r.fd

/-- What has happened to one descriptor. -/
def logOf (fd : Nat) (log : List (LoopEvent κ υ)) : List (LoopEvent κ υ) :=
  log.filter fun e => LoopEvent.fd e = fd

/-- Each of the registrations with its call, one after another. -/
def answered (rs : List (Registration κ υ)) : List (LoopEvent κ υ) :=
  rs.flatMap fun r => [.yielded r, .called r]

/-- The registration a descriptor waits with. -/
def outstanding (u : Uevent κ υ) (fd : Nat) : List (Registration κ υ) :=
  if fd ∈ u.readfds then [⟨fd, ueventRead, (u.fdmap fd).1, (u.fdmap fd).2⟩]
  else if fd ∈ u.writefds then [⟨fd, ueventWrite, (u.fdmap fd).1, (u.fdmap fd).2⟩]
  else []

/-- A registration for reading or for writing, and not for both. -/
def SingleDirection (mask : Nat) : Prop := mask = ueventRead ∨ mask = ueventWrite

instance (mask : Nat) : Decidable (SingleDirection mask) :=
  inferInstanceAs (Decidable (_ ∨ _))

/-- What the log has to do with the sets, the map and the counter. -/
structure Tracks (u : Uevent κ υ) (log : List (LoopEvent κ υ)) : Prop where
  slots : u.usedSlots = u.readfds.card + u.writefds.card
  disjoint : ∀ fd ∈ u.readfds, fd ∉ u.writefds
  max : ∀ fd, outstanding u fd ≠ [] → fd ≤ u.maxFd ∧ fd < fdSetsize
  log : ∀ fd, ∃ rs, logOf fd log = answered rs ++ (outstanding u fd).map .yielded

/-! ## The operations

`uevent_yield` puts a descriptor into the sets and adds a registration to the log, and
the scan takes it out before it calls back. Neither does anything to other descriptors.
-/

theorem outstanding_eq_nil {u : Uevent κ υ} {fd : Nat} :
    outstanding u fd = [] ↔ fd ∉ u.readfds ∧ fd ∉ u.writefds := by
  rw [outstanding]
  split
  · next h => simp [h]
  · next h =>
      split
      · next h' => simp [h']
      · next h' => simp [h, h']

theorem outstanding_congr {u u' : Uevent κ υ} {fd : Nat}
    (hread : fd ∈ u'.readfds ↔ fd ∈ u.readfds) (hwrite : fd ∈ u'.writefds ↔ fd ∈ u.writefds)
    (hmap : u'.fdmap fd = u.fdmap fd) : outstanding u' fd = outstanding u fd := by
  simp only [outstanding, hread, hwrite, hmap]

theorem logOf_append (fd : Nat) (log more : List (LoopEvent κ υ)) :
    logOf fd (log ++ more) = logOf fd log ++ logOf fd more :=
  List.filter_append ..

theorem answered_append (rs ss : List (Registration κ υ)) :
    answered (rs ++ ss) = answered rs ++ answered ss :=
  List.flatMap_append

variable {u u' : Uevent κ υ} {log : List (LoopEvent κ υ)}

/-- An operation on one descriptor leaves the others as they are. -/
theorem Tracks.log_step (h : Tracks u log) {e : LoopEvent κ υ}
    (hframe : ∀ fd, fd ≠ LoopEvent.fd e → outstanding u' fd = outstanding u fd)
    (hown : ∃ rs, logOf (LoopEvent.fd e) log ++ [e]
      = answered rs ++ (outstanding u' (LoopEvent.fd e)).map .yielded) (fd : Nat) :
    ∃ rs, logOf fd (log ++ [e]) = answered rs ++ (outstanding u' fd).map .yielded := by
  rw [logOf_append]
  by_cases hfd : fd = LoopEvent.fd e
  · have hone : logOf fd [e] = [e] := by simp [logOf, hfd]
    rw [hone, hfd]
    exact hown
  · have hnone : logOf fd [e] = [] := by simp [logOf, Ne.symm hfd]
    rw [hnone, List.append_nil, hframe fd hfd]
    exact h.log fd

/-- `uevent_yield` with one direction. -/
def registered (u : Uevent κ υ) (r : Registration κ υ) : Uevent κ υ :=
  { u with
    readfds := if r.mask = ueventRead then insert r.fd u.readfds else u.readfds
    writefds := if r.mask = ueventRead then u.writefds else insert r.fd u.writefds
    fdmap := Function.update u.fdmap r.fd (r.callback, r.userdata)
    maxFd := max u.maxFd r.fd
    usedSlots := u.usedSlots + 1 }

theorem ueventYield_eq {r : Registration κ υ} (hdir : SingleDirection r.mask) :
    ueventYield u r = if r.fd < fdSetsize then some (registered u r) else none := by
  rw [ueventYield]
  by_cases hfd : r.fd < fdSetsize
  · rw [if_neg (Nat.not_le.mpr hfd), if_pos hfd, registered]
    cases hdir with
    | inl hm => rw [hm]; rfl
    | inr hm => rw [hm]; rfl
  · rw [if_pos (Nat.le_of_not_lt hfd), if_neg hfd]

theorem outstanding_registered (r : Registration κ υ) {fd : Nat} (hne : fd ≠ r.fd) :
    outstanding (registered u r) fd = outstanding u fd := by
  refine outstanding_congr ?_ ?_ (Function.update_of_ne hne _ _)
  · rw [registered]
    split <;> simp [hne]
  · rw [registered]
    split <;> simp [hne]

theorem outstanding_registered_self {r : Registration κ υ} (hdir : SingleDirection r.mask)
    (hfree : outstanding u r.fd = []) : outstanding (registered u r) r.fd = [r] := by
  have hfree := outstanding_eq_nil.mp hfree
  obtain ⟨fd, mask, callback, userdata⟩ := r
  cases hdir with
  | inl hm =>
      subst hm
      simp [outstanding, registered]
  | inr hm =>
      subst hm
      have hne : ueventWrite ≠ ueventRead := by decide
      simp [outstanding, registered, hne, hfree.1]

theorem Tracks.yield (h : Tracks u log) {r : Registration κ υ} (hdir : SingleDirection r.mask)
    (hfd : r.fd < fdSetsize) (hfree : outstanding u r.fd = []) :
    Tracks (registered u r) (log ++ [.yielded r]) := by
  obtain ⟨hnr, hnw⟩ := outstanding_eq_nil.mp hfree
  have hout := outstanding_registered_self hdir hfree
  refine ⟨?_, fun fd hread hwrite => ?_, fun fd hne => ?_,
    h.log_step (fun fd hne => outstanding_registered r hne) ?_⟩
  · have hslots := h.slots
    simp only [registered]
    split
    · rw [Finset.card_insert_of_notMem hnr]
      omega
    · rw [Finset.card_insert_of_notMem hnw]
      omega
  · have hdisj := h.disjoint fd
    simp only [registered] at hread hwrite
    split at hread
    · next hm =>
        rw [if_pos hm] at hwrite
        rcases Finset.mem_insert.mp hread with rfl | hread
        · exact hnw hwrite
        · exact hdisj hread hwrite
    · next hm =>
        rw [if_neg hm] at hwrite
        rcases Finset.mem_insert.mp hwrite with rfl | hwrite
        · exact hnr hread
        · exact hdisj hread hwrite
  · by_cases hfd' : fd = r.fd
    · rw [hfd']
      exact ⟨Nat.le_max_right _ _, hfd⟩
    · rw [outstanding_registered r hfd'] at hne
      exact ⟨Nat.le_trans (h.max fd hne).1 (Nat.le_max_left _ _), (h.max fd hne).2⟩
  · obtain ⟨rs, hrs⟩ := h.log r.fd
    rw [hfree, List.map_nil, List.append_nil] at hrs
    refine ⟨rs, ?_⟩
    show logOf r.fd log ++ _ = answered rs ++ (outstanding (registered u r) r.fd).map _
    rw [hrs, hout]
    rfl

/-- A descriptor is taken out of the sets to be called. -/
def taken (u : Uevent κ υ) (fd : Nat) : Uevent κ υ :=
  { u with
    readfds := u.readfds.erase fd
    writefds := u.writefds.erase fd
    usedSlots := u.usedSlots - 1 }

theorem outstanding_taken_self (fd : Nat) : outstanding (taken u fd) fd = [] :=
  outstanding_eq_nil.mpr ⟨Finset.notMem_erase fd _, Finset.notMem_erase fd _⟩

theorem outstanding_taken {i fd : Nat} (hne : fd ≠ i) :
    outstanding (taken u i) fd = outstanding u fd :=
  outstanding_congr (by simp [taken, hne]) (by simp [taken, hne]) rfl

theorem Tracks.call (h : Tracks u log) {r : Registration κ υ} (hout : outstanding u r.fd = [r]) :
    Tracks (taken u r.fd) (log ++ [.called r]) := by
  refine ⟨?_, fun fd hread hwrite => ?_, fun fd hne => ?_,
    h.log_step (fun fd hne => outstanding_taken hne) ?_⟩
  · have hslots := h.slots
    have hdisj := h.disjoint r.fd
    simp only [taken]
    by_cases hread : r.fd ∈ u.readfds
    · have hcard := Finset.card_erase_add_one hread
      rw [Finset.erase_eq_of_notMem (hdisj hread)]
      omega
    · have hwrite : r.fd ∈ u.writefds := by
        by_contra hwrite
        rw [outstanding_eq_nil.mpr ⟨hread, hwrite⟩] at hout
        cases hout
      have hcard := Finset.card_erase_add_one hwrite
      rw [Finset.erase_eq_of_notMem hread]
      omega
  · exact h.disjoint fd (Finset.mem_of_mem_erase hread) (Finset.mem_of_mem_erase hwrite)
  · by_cases hfd : fd = r.fd
    · rw [hfd] at hne
      exact absurd (outstanding_taken_self r.fd) hne
    · rw [outstanding_taken hfd] at hne
      exact h.max fd hne
  · obtain ⟨rs, hrs⟩ := h.log r.fd
    rw [hout] at hrs
    refine ⟨rs ++ [r], ?_⟩
    show logOf r.fd log ++ _ = answered (rs ++ [r]) ++ (outstanding (taken u r.fd) r.fd).map _
    rw [hrs, outstanding_taken_self, answered_append, List.map_nil, List.append_nil,
      List.append_assoc]
    rfl

/-! ## The loop

The scan goes through the descriptors in order. One that it has not come to yet is in
the sets if it was when `select` returned; a callback registers its own, which is
behind. -/

/-- What the scan has still to come to is registered as it was when `select` was called. -/
def Unscanned (u : Uevent κ υ) (i : Nat) (rfds wfds : Finset Nat) : Prop :=
  ∀ fd, i ≤ fd → (fd ∈ rfds → fd ∈ u.readfds) ∧ (fd ∈ wfds → fd ∈ u.writefds)

def PcInv (u : Uevent κ υ) : LoopPc → Prop
  | .head => True
  | .select => True
  | .scan i rfds wfds => Unscanned u i rfds wfds
  | .callback i rfds wfds =>
      Unscanned u (i + 1) rfds wfds ∧ outstanding u i = [] ∧ i < fdSetsize
  | .returned => u.usedSlots = 0

/-- The invariant of the loop. -/
structure LoopInv (s : UeventLoop κ υ) : Prop where
  tracks : Tracks s.uevent s.log
  pc : PcInv s.uevent s.pc

/-- The descriptor whose callback runs. -/
def inCallback : LoopPc → Option Nat
  | .callback i _ _ => some i
  | _ => none

/-- A callback registers at most its own descriptor, with one direction. -/
def OwnOnly (s : UeventLoop κ υ) : LoopInput κ υ → Prop
  | .callback yields => ∀ i ∈ inCallback s.pc,
      yields.length ≤ 1 ∧ ∀ r ∈ yields, r.fd = i ∧ SingleDirection r.mask
  | _ => True

instance (s : UeventLoop κ υ) : ∀ input, Decidable (OwnOnly s input)
  | .run => isTrue trivial
  | .select _ => isTrue trivial
  | .callback _ => inferInstanceAs (Decidable (∀ i ∈ inCallback s.pc, _ ∧ _))

theorem OwnOnly.cases {s : UeventLoop κ υ} {yields : List (Registration κ υ)} {i : Nat}
    {rfds wfds : Finset Nat} (h : OwnOnly s (.callback yields))
    (hpc : s.pc = .callback i rfds wfds) :
    yields = [] ∨ ∃ r, yields = [r] ∧ r.fd = i ∧ SingleDirection r.mask := by
  obtain ⟨hlen, hown⟩ := h i (by rw [hpc]; rfl)
  match yields with
  | [] => exact .inl rfl
  | [r] => exact .inr ⟨r, rfl, hown r List.mem_cons_self⟩
  | _ :: _ :: _ => simp at hlen

theorem Unscanned.mono {i j : Nat} {rfds wfds : Finset Nat} (h : Unscanned u i rfds wfds)
    (hij : i ≤ j) : Unscanned u j rfds wfds :=
  fun fd hfd => h fd (Nat.le_trans hij hfd)

/-- What is done with a descriptor the scan has passed does not matter to it. -/
theorem Unscanned.frame {i : Nat} {rfds wfds : Finset Nat} (h : Unscanned u (i + 1) rfds wfds)
    (hread : ∀ fd, fd ≠ i → fd ∈ u.readfds → fd ∈ u'.readfds)
    (hwrite : ∀ fd, fd ≠ i → fd ∈ u.writefds → fd ∈ u'.writefds) :
    Unscanned u' (i + 1) rfds wfds := by
  intro fd hfd
  have hne : fd ≠ i := by omega
  exact ⟨fun hr => hread fd hne ((h fd hfd).1 hr), fun hw => hwrite fd hne ((h fd hfd).2 hw)⟩

/-- A ready descriptor is taken out of the sets, and what is called is what it waits with. -/
theorem scanClear_taken (h : Tracks u log) {i : Nat} {rfds wfds : Finset Nat}
    (hscan : Unscanned u i rfds wfds) (hmask : scanMask i rfds wfds ≠ 0) :
    { scanClear u i rfds wfds with usedSlots := (scanClear u i rfds wfds).usedSlots - 1 }
        = taken u i ∧
      outstanding u i = [⟨i, scanMask i rfds wfds, ((scanClear u i rfds wfds).fdmap i).1,
        ((scanClear u i rfds wfds).fdmap i).2⟩] := by
  obtain ⟨hr, hw⟩ := hscan i (Nat.le_refl i)
  by_cases hread : i ∈ rfds
  · have hnw : i ∉ u.writefds := h.disjoint i (hr hread)
    have hwfds : i ∉ wfds := fun hwfds => hnw (hw hwfds)
    rw [scanClear, if_pos hread, if_neg hwfds, taken, Finset.erase_eq_of_notMem hnw,
      outstanding, if_pos (hr hread), scanMask, if_pos hread, if_neg hwfds]
    exact ⟨rfl, rfl⟩
  · by_cases hwrite : i ∈ wfds
    · have hnr : i ∉ u.readfds := fun hr => h.disjoint i hr (hw hwrite)
      rw [scanClear, if_neg hread, if_pos hwrite, taken, Finset.erase_eq_of_notMem hnr,
        outstanding, if_neg hnr, if_pos (hw hwrite), scanMask, if_neg hread, if_pos hwrite]
      exact ⟨rfl, rfl⟩
    · rw [scanMask, if_neg hread, if_neg hwrite] at hmask
      exact absurd rfl hmask

/-- The scan comes to a descriptor. -/
theorem LoopInv.scan {s s' : UeventLoop κ υ} {i : Nat} {rfds wfds : Finset Nat}
    (h : LoopInv s) (hpc : s.pc = .scan i rfds wfds) (hs : ueventLoopStep s .run = some s') :
    LoopInv s' := by
  have hscan : Unscanned s.uevent i rfds wfds := by
    have hinv := h.pc
    rwa [hpc] at hinv
  simp only [ueventLoopStep, hpc] at hs
  split at hs
  · split at hs
    · next hmask =>
        obtain ⟨htaken, hout⟩ := scanClear_taken h.tracks hscan hmask
        have hfd := (h.tracks.max i (by rw [hout]; exact List.cons_ne_nil _ _)).2
        cases hs
        rw [htaken]
        refine ⟨h.tracks.call (r := ⟨i, _, _, _⟩) hout,
            (hscan.mono (Nat.le_succ i)).frame (fun fd hne hr => ?_)
          (fun fd hne hw => ?_), outstanding_taken_self i, hfd⟩
        · exact Finset.mem_erase.mpr ⟨hne, hr⟩
        · exact Finset.mem_erase.mpr ⟨hne, hw⟩
    · next hmask =>
        have hread : i ∉ rfds := fun hread => by
          rw [scanMask, if_pos hread] at hmask
          split at hmask <;> exact absurd hmask (by decide)
        have hwrite : i ∉ wfds := fun hwrite => by
          rw [scanMask, if_neg hread, if_pos hwrite] at hmask
          exact absurd hmask (by decide)
        rw [scanClear, if_neg hread, if_neg hwrite] at hs
        cases hs
        exact ⟨h.tracks, hscan.mono (Nat.le_succ i)⟩
  · cases hs
    exact ⟨h.tracks, trivial⟩

/-- The callback returns to the scan. -/
theorem LoopInv.callback {s s' : UeventLoop κ υ} {yields : List (Registration κ υ)}
    {i : Nat} {rfds wfds : Finset Nat} (h : LoopInv s) (hpc : s.pc = .callback i rfds wfds)
    (hok : OwnOnly s (.callback yields)) (hs : ueventLoopStep s (.callback yields) = some s') :
    LoopInv s' := by
  have hinv := h.pc
  rw [hpc] at hinv
  obtain ⟨hscan, hfree, hfd⟩ := hinv
  simp only [ueventLoopStep, hpc] at hs
  rcases hok.cases hpc with rfl | ⟨r, rfl, rfl, hdir⟩
  · cases hs
    exact ⟨by rw [List.map_nil, List.append_nil]; exact h.tracks, hscan⟩
  · simp only [ueventYields, ueventYield_eq hdir, if_pos hfd] at hs
    cases hs
    refine ⟨h.tracks.yield hdir hfd hfree, hscan.frame (fun fd _ hr => ?_) (fun fd _ hw => ?_)⟩
    · rw [registered]
      split
      · exact Finset.mem_insert_of_mem hr
      · exact hr
    · rw [registered]
      split
      · exact hw
      · exact Finset.mem_insert_of_mem hw

theorem LoopInv.step {s s' : UeventLoop κ υ} {input : LoopInput κ υ} (h : LoopInv s)
    (hok : OwnOnly s input) (hs : ueventLoopStep s input = some s') : LoopInv s' := by
  cases hpc : s.pc with
  | head =>
      cases input with
      | run =>
          simp only [ueventLoopStep, hpc] at hs
          split at hs
          · cases hs
            exact ⟨h.tracks, trivial⟩
          · next hzero =>
              cases hs
              exact ⟨h.tracks, not_not.mp hzero⟩
      | _ => simp [ueventLoopStep, hpc] at hs
  | select =>
      cases input with
      | select r =>
          simp only [ueventLoopStep, hpc] at hs
          cases r with
          | eintr =>
              cases hs
              exact ⟨h.tracks, trivial⟩
          | error =>
              cases hs
              exact ⟨h.tracks, fun fd _ => ⟨id, id⟩⟩
          | ready rfds wfds =>
              cases hs
              exact ⟨h.tracks, fun fd _ => ⟨Finset.mem_of_mem_inter_left,
                Finset.mem_of_mem_inter_left⟩⟩
      | _ => simp [ueventLoopStep, hpc] at hs
  | scan i rfds wfds =>
      cases input with
      | run => exact h.scan hpc hs
      | _ => simp [ueventLoopStep, hpc] at hs
  | callback i rfds wfds =>
      cases input with
      | callback yields => exact h.callback hpc hok hs
      | _ => simp [ueventLoopStep, hpc] at hs
  | returned => simp [ueventLoopStep, hpc] at hs

/-! ## From the start

So at any point of any run the registrations and the calls of a descriptor alternate,
and the counter is the number of descriptors that wait. -/

theorem tracks_new (u : Uevent κ υ) : Tracks (ueventNew u) [] := by
  refine ⟨rfl, fun fd hfd => absurd hfd (Finset.notMem_empty fd), fun fd hne => ?_,
    fun fd => ⟨[], rfl⟩⟩
  exact absurd (outstanding_eq_nil.mpr ⟨Finset.notMem_empty fd, Finset.notMem_empty fd⟩) hne

theorem Tracks.yields {regs : List (Registration κ υ)} :
    ∀ {u u' : Uevent κ υ} {log : List (LoopEvent κ υ)}, Tracks u log →
    (regs.map (·.fd)).Nodup → (∀ r ∈ regs, SingleDirection r.mask) →
    (∀ r ∈ regs, outstanding u r.fd = []) → ueventYields u regs = some u' →
    Tracks u' (log ++ regs.map .yielded) := by
  induction regs with
  | nil =>
      intro u u' log h _ _ _ hy
      cases hy
      rw [List.map_nil, List.append_nil]
      exact h
  | cons r rest ih =>
      intro u u' log h hnodup hdir hfree hy
      have hr := hdir r List.mem_cons_self
      obtain ⟨hnew, hnodup⟩ := List.nodup_cons.mp hnodup
      rw [ueventYields, ueventYield_eq hr] at hy
      by_cases hfd : r.fd < fdSetsize
      · simp only [if_pos hfd] at hy
        have h1 := h.yield hr hfd (hfree r List.mem_cons_self)
        have hrest := ih h1 hnodup (fun q hq => hdir q (List.mem_cons_of_mem r hq))
          (fun q hq => ?_) hy
        · rw [List.map_cons, ← List.singleton_append, ← List.append_assoc]
          exact hrest
        · have hne : q.fd ≠ r.fd := fun heq => hnew (List.mem_map.mpr ⟨q, hq, heq⟩)
          rw [outstanding_registered r hne]
          exact hfree q (List.mem_cons_of_mem r hq)
      · simp [hfd] at hy

/-- Wherever the loop is: the count is right, and what has happened to a descriptor is
registrations with their calls, and then the registration it still waits with. Nothing
waits any more once the loop has returned. -/
theorem ueventLoop_counts (u : Uevent κ υ) {regs : List (Registration κ υ)}
    (hfds : (regs.map (·.fd)).Nodup) (hdir : ∀ r ∈ regs, SingleDirection r.mask)
    {start : Uevent κ υ} (hstart : ueventYields (ueventNew u) regs = some start)
    {inputs : List (LoopInput κ υ)} {s : UeventLoop κ υ}
    (hok : AllSteps ueventLoopStep OwnOnly (ueventLoop start regs) inputs)
    (hrun : runSteps ueventLoopStep (ueventLoop start regs) inputs = some s) :
    s.uevent.usedSlots = s.uevent.readfds.card + s.uevent.writefds.card ∧
    (∀ fd, ∃ rs, logOf fd s.log = answered rs ++ (outstanding s.uevent fd).map .yielded) ∧
    (s.pc = .returned → s.uevent.readfds = ∅ ∧ s.uevent.writefds = ∅ ∧
      ∀ fd, ∃ rs, logOf fd s.log = answered rs) := by
  have hnew : ∀ r ∈ regs, outstanding (ueventNew u) r.fd = [] := fun r _ =>
    outstanding_eq_nil.mpr ⟨Finset.notMem_empty _, Finset.notMem_empty _⟩
  have hfirst : LoopInv (ueventLoop start regs) :=
    ⟨(tracks_new u).yields hfds hdir hnew hstart, trivial⟩
  have hinv := runSteps_invariant (fun _ _ _ => LoopInv.step) hfirst hok hrun
  have hslots := hinv.tracks.slots
  refine ⟨hslots, hinv.tracks.log, fun hpc => ?_⟩
  have hzero := hinv.pc
  rw [hpc] at hzero
  have hzero : s.uevent.usedSlots = 0 := hzero
  have hread : s.uevent.readfds = ∅ := Finset.card_eq_zero.mp (by omega)
  have hwrite : s.uevent.writefds = ∅ := Finset.card_eq_zero.mp (by omega)
  refine ⟨hread, hwrite, fun fd => ?_⟩
  obtain ⟨rs, hrs⟩ := hinv.tracks.log fd
  have hnone : outstanding s.uevent fd = [] := by
    rw [outstanding_eq_nil, hread, hwrite]
    exact ⟨Finset.notMem_empty fd, Finset.notMem_empty fd⟩
  rw [hnone, List.map_nil, List.append_nil] at hrs
  exact ⟨rs, hrs⟩

/-- A callback that keeps to the rule is never too much for the sets. -/
theorem LoopInv.callback_returns {s : UeventLoop κ υ} {yields : List (Registration κ υ)}
    {i : Nat} {rfds wfds : Finset Nat} (h : LoopInv s) (hpc : s.pc = .callback i rfds wfds)
    (hok : OwnOnly s (.callback yields)) :
    ∃ s', ueventLoopStep s (.callback yields) = some s' := by
  have hinv := h.pc
  rw [hpc] at hinv
  simp only [ueventLoopStep, hpc]
  rcases hok.cases hpc with rfl | ⟨r, rfl, rfl, hdir⟩
  · exact ⟨_, rfl⟩
  · simp only [ueventYields, ueventYield_eq hdir, if_pos hinv.2.2]
    exact ⟨_, rfl⟩

def twoDescriptors : List (Registration Nat Nat) :=
  [⟨0, ueventWrite, 10, 20⟩, ⟨1, ueventRead, 11, 21⟩]

/-- Both are ready at once, one of them waits again, and `select` fails. -/
def interruptedRun : List (LoopInput Nat Nat) :=
  [.run, .select .eintr, .run, .select (.ready {1} {0}), .run,
    .callback [⟨0, ueventRead, 12, 22⟩], .run, .callback [], .run, .run, .select .error, .run,
    .callback [], .run, .run, .run]

def noDescriptors : Uevent Nat Nat := { fdmap := fun _ => (0, 0) }

theorem ueventLoop_counts_interrupted :
    ∃ start s, ueventYields (ueventNew noDescriptors) twoDescriptors = some start ∧
      runSteps ueventLoopStep (ueventLoop start twoDescriptors) interruptedRun = some s ∧
      s.pc = .returned ∧
      s.uevent.usedSlots = s.uevent.readfds.card + s.uevent.writefds.card ∧
      (∀ fd, ∃ rs, logOf fd s.log = answered rs ++ (outstanding s.uevent fd).map .yielded) ∧
      (s.pc = .returned → s.uevent.readfds = ∅ ∧ s.uevent.writefds = ∅ ∧
        ∀ fd, ∃ rs, logOf fd s.log = answered rs) := by
  have hpc : (runSteps ueventLoopStep (ueventLoop (registered (registered
      (ueventNew noDescriptors) ⟨0, ueventWrite, 10, 20⟩) ⟨1, ueventRead, 11, 21⟩)
      twoDescriptors) interruptedRun).map (·.pc) = some .returned := by decide
  obtain ⟨s, hrun, hpc⟩ := Option.map_eq_some_iff.mp hpc
  exact ⟨_, s, rfl, hrun, hpc, ueventLoop_counts noDescriptors (by decide) (by decide) rfl
    (by decide) hrun⟩

/-! ## The proxy keeps to the rule

A chain of callbacks is about one connection, and whatever it registers is the
descriptor of this connection. A descriptor that is new comes from `connect`, at the
start of an exchange. -/

section Proxy

/-- The registration a chain waits with; its callback is the control point. -/
def chainYields (x : Exchange) : List (Registration ClientPc Unit) :=
  match x.pc with
  | .doConnected => [⟨x.srv.sd.toNat, ueventWrite, .doConnected, ()⟩]
  | .doWrite => [⟨x.srv.sd.toNat, ueventWrite, .doWrite, ()⟩]
  | .doRead => [⟨x.srv.sd.toNat, ueventRead, .doRead, ()⟩]
  | _ => []

theorem clientStep_descriptor {p p' : Pool} {x x' : Exchange} {a : ClientAction}
    (h : clientStep p x a = some (p', x')) (hpc : x.pc ≠ .doStart) :
    x'.pc = .done ∨ (x'.pc ≠ .doStart ∧ x'.srv.sd = x.srv.sd) := by
  rcases clientStep_cases h with ⟨now, connect, hstart, -⟩ | ⟨ok, -, hs⟩ | ⟨r, -, hs⟩ |
    ⟨r, -, hs⟩ | ⟨hswallow, hs⟩
  · exact absurd hstart hpc
  · rw [doConnected] at hs
    split at hs
    · cases hs
      exact .inr ⟨by simp, rfl⟩
    · exact .inl (doError_pc hs)
  · have hwritten : ∀ bs n, (doWritten x bs n).pc ≠ .doStart := by
      intro bs n
      rw [doWritten]
      split <;> simp
    cases r with
    | sent n =>
        simp only [doWrite] at hs
        split at hs
        · cases hs
          exact .inr ⟨hwritten _ _, rfl⟩
        · cases hs
    | again =>
        cases hs
        exact .inr ⟨hwritten _ _, rfl⟩
    | error => exact .inl (doError_pc hs)
  · cases r with
    | got bs =>
        simp only [doRead] at hs
        split at hs
        · cases hs
          refine .inr ⟨?_, rfl⟩
          dsimp only
          split <;> simp
        · cases hs
    | again =>
        cases hs
        refine .inr ⟨?_, rfl⟩
        dsimp only
        split <;> simp
    | closed => exact .inl (doError_pc hs)
  · simp only [doSwallow] at hs
    split at hs
    · exact .inl (doError_pc hs)
    · split at hs
      · cases hs
        exact .inr ⟨by simp, rfl⟩
      · split at hs
        · cases hs
          exact .inl rfl
        · cases hs
          exact .inr ⟨hpc, rfl⟩

theorem Chain.descriptor {x x' : Exchange} {as : List ClientAction} (h : Chain x as x')
    (hpc : x.pc ≠ .doStart) : x'.pc = .done ∨ x'.srv.sd = x.srv.sd := by
  induction h with
  | nil x => exact .inr rfl
  | @cons p p' x x1 x' a as hs hrest ih =>
      rcases clientStep_descriptor hs hpc with hdone | ⟨hpc1, hsd⟩
      · -- nothing happens after the end
        cases hrest with
        | nil x => exact .inl hdone
        | cons hs1 _ => simp [clientStep, hdone] at hs1
      · rw [← hsd]
        exact ih hpc1

/-- Whatever a callback of the proxy does until it waits again, it asks for nothing but its
own descriptor in one direction. -/
theorem chain_ownOnly {x x' : Exchange} {as : List ClientAction} (h : Chain x as x')
    (hpc : x.pc ≠ .doStart) :
    chainYields x' = [] ∨
      ∃ r, chainYields x' = [r] ∧ r.fd = x.srv.sd.toNat ∧ SingleDirection r.mask := by
  rcases h.descriptor hpc with hdone | hsd
  · exact .inl (by rw [chainYields, hdone])
  · rw [chainYields, ← hsd]
    split
    · exact .inr ⟨_, rfl, rfl, .inr rfl⟩
    · exact .inr ⟨_, rfl, rfl, .inr rfl⟩
    · exact .inr ⟨_, rfl, rfl, .inl rfl⟩
    · exact .inl rfl

end Proxy

end Smalltable.Proofs
