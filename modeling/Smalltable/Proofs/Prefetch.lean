import Mathlib.Algebra.Order.BigOperators.Group.List
import Smalltable.Proofs.Framing
import Smalltable.Ref.Prefetch

/-!
# Every key is hinted at once

The walk keeps an array that is not full between two requests: what is in it, behind the
bulks that have been passed on, are the keys of the flagged requests so far
(`PrefetchInv`). Therefore no key is written behind the end, and with what is left at the
end the bulks are the keys of the whole batch. The engine that is passed these pointers
is told what `tryPrefetch` tells it.

The two arrays are static. What was in them before is arbitrary, and no call passes on
more of them than has been written since the last one.
-/

namespace Smalltable.Proofs

open Smalltable.Ref

/-- Pointer and length of the keys of the flagged requests, for a batch from `off` on. -/
def flaggedKeys (t : CmdTable) : Int → List Bytes → List (Int × Nat)
  | _, [] => []
  | off, f :: rest =>
      if (t (mcGetOpcode f)).isPrefetch then
        (off + memcacheHeaderSize + mcGetExtrasLength f, mcGetKeyLength f)
          :: flaggedKeys t (off + f.length) rest
      else flaggedKeys t (off + f.length) rest

theorem flaggedKeys_append (t : CmdTable) (off : Int) (fs gs : List Bytes) :
    flaggedKeys t off (fs ++ gs)
      = flaggedKeys t off fs ++ flaggedKeys t (off + fs.flatten.length) gs := by
  induction fs generalizing off with
  | nil => rw [List.nil_append, List.flatten_nil, List.length_nil, Int.natCast_zero,
      Int.add_zero]; rfl
  | cons f rest ih =>
      have hoff : off + (f :: rest).flatten.length = off + f.length + rest.flatten.length := by
        rw [List.flatten_cons, List.length_append, Int.natCast_add, Int.add_assoc]
      rw [List.cons_append, flaggedKeys, flaggedKeys, ih, hoff]
      split <;> rfl

/-- Between two requests: `keys` have been met, `bulks` have been passed on, and the
rest is in the arrays. -/
structure PrefetchInv (keys : List (Int × Nat)) (bulks : List (List (Int × Nat)))
    (p : PrefetchWalk) : Prop where
  room : p.bSz < bulkSz
  held : bulks.flatten ++ p.entries = keys
  full : ∀ b ∈ bulks, b.length = bulkSz
  first : p.firstRun = keys.isEmpty
  calls : p.calls = if keys.isEmpty then [] else .clear :: bulks.map .bulk

theorem entries_push {p p' : PrefetchWalk} {key : Int} {keySz : Nat}
    (hkey : p'.bKey = Function.update p.bKey p.bSz key)
    (hkeySz : p'.bKeySz = Function.update p.bKeySz p.bSz keySz) (hsz : p'.bSz = p.bSz + 1) :
    p'.entries = p.entries ++ [(key, keySz)] := by
  rw [PrefetchWalk.entries, hsz, hkey, hkeySz, List.range_succ, List.map_append,
    List.map_singleton, Function.update_self, Function.update_self]
  congr 1
  refine List.map_congr_left fun i hi => ?_
  have hne : i ≠ p.bSz := Nat.ne_of_lt (List.mem_range.mp hi)
  rw [Function.update_of_ne hne, Function.update_of_ne hne]

theorem length_entries (p : PrefetchWalk) : p.entries.length = p.bSz := by
  rw [PrefetchWalk.entries, List.length_map, List.length_range]

variable {t : CmdTable} {keys : List (Int × Nat)} {bulks : List (List (Int × Nat))}
  {p : PrefetchWalk}

theorem clear_reqBuf (p : PrefetchWalk) : p.clear.reqBuf = p.reqBuf := by
  rw [PrefetchWalk.clear]
  split <;> rfl

theorem prefetchWalkStep_reqBuf {p' : PrefetchWalk} {f : Bytes} (hwf : WellFormed 0x80 f)
    (hs : prefetchWalkStep t p f = some p') : p'.reqBuf = p.reqBuf + f.length := by
  have hsz : mcGetRequestSz f = f.length := by
    have hsz := mcGetRequestSz_append hwf []
    rwa [List.append_nil] at hsz
  rw [prefetchWalkStep, hsz] at hs
  split at hs
  · simp only [clear_reqBuf] at hs
    generalize p.clear = p1 at hs
    split at hs
    · cases hs
      dsimp only
      split <;> rfl
    · cases hs
  · cases hs
    rfl

theorem PrefetchInv.bulks_nil (h : PrefetchInv keys bulks p) (hkeys : keys = []) :
    bulks = [] ∧ p.entries = [] := by
  have hheld := h.held
  rw [hkeys, List.append_eq_nil_iff] at hheld
  refine ⟨List.eq_nil_iff_forall_not_mem.mpr fun b hb => ?_, hheld.2⟩
  have hlen := h.full b hb
  rw [List.flatten_eq_nil_iff.mp hheld.1 b hb] at hlen
  cases hlen

/-- Once a key has been met, the engine has been told to forget the old ones. -/
theorem PrefetchInv.cleared (h : PrefetchInv keys bulks p) :
    p.clear = { p with firstRun := false, calls := .clear :: bulks.map .bulk } := by
  rw [PrefetchWalk.clear]
  cases hkeys : keys with
  | nil =>
      have hfirst := h.first
      have hcalls := h.calls
      rw [hkeys] at hfirst hcalls
      rw [hfirst, hcalls, (h.bulks_nil hkeys).1]
      rfl
  | cons key keys' =>
      have hfirst := h.first
      have hcalls := h.calls
      rw [hkeys] at hfirst hcalls
      rw [hfirst, ← show p.calls = .clear :: bulks.map .bulk from hcalls,
        ← show p.firstRun = false from hfirst]
      rfl

theorem PrefetchInv.step_flagged (h : PrefetchInv keys bulks p) {f : Bytes}
    (hflag : (t (mcGetOpcode f)).isPrefetch) :
    ∃ bulks' p', prefetchWalkStep t p f = some p' ∧
      PrefetchInv (keys ++ [(p.reqBuf + memcacheHeaderSize + mcGetExtrasLength f,
        mcGetKeyLength f)]) bulks' p' := by
  have hroom := h.room
  have hsome : (keys ++ [(p.reqBuf + memcacheHeaderSize + mcGetExtrasLength f,
      mcGetKeyLength f)]).isEmpty = false := by simp
  rw [prefetchWalkStep, if_pos hflag, h.cleared]
  simp only [if_pos hroom]
  by_cases hfull : p.bSz + 1 = bulkSz
  · -- the arrays are full, and passed on
    simp only [if_pos hfull]
    refine ⟨bulks ++ [p.entries ++ [(p.reqBuf + memcacheHeaderSize + mcGetExtrasLength f,
      mcGetKeyLength f)]], _, rfl, ⟨Nat.zero_lt_succ 4095, ?_, ?_, hsome.symm, ?_⟩⟩
    · show (bulks ++ [_]).flatten ++ [] = _
      rw [List.append_nil, ← h.held, List.flatten_append, List.flatten_singleton,
        List.append_assoc]
    · intro b hb
      rcases List.mem_append.mp hb with hb | hb
      · exact h.full b hb
      · rw [List.mem_singleton.mp hb, List.length_append, length_entries]
        exact hfull
    · rw [hsome, if_neg Bool.false_ne_true, List.map_append, List.map_singleton]
      refine congrArg (fun e => PrefetchCall.clear :: bulks.map .bulk ++ [.bulk e]) ?_
      exact entries_push rfl rfl rfl
  · simp only [if_neg hfull]
    refine ⟨bulks, _, rfl, ⟨?_, ?_, h.full, hsome.symm, ?_⟩⟩
    · show p.bSz + 1 < bulkSz
      omega
    · rw [← h.held, List.append_assoc]
      exact congrArg (bulks.flatten ++ ·) (entries_push rfl rfl rfl)
    · rw [hsome, if_neg Bool.false_ne_true]

theorem PrefetchInv.step (h : PrefetchInv keys bulks p) (f : Bytes) :
    ∃ bulks' p', prefetchWalkStep t p f = some p' ∧
      PrefetchInv (keys ++ flaggedKeys t p.reqBuf [f]) bulks' p' := by
  simp only [flaggedKeys]
  by_cases hflag : (t (mcGetOpcode f)).isPrefetch
  · rw [if_pos hflag]
    exact h.step_flagged hflag
  · rw [if_neg hflag, List.append_nil, prefetchWalkStep, if_neg hflag]
    exact ⟨bulks, _, rfl, ⟨h.room, h.held, h.full, h.first, h.calls⟩⟩

theorem PrefetchInv.run : ∀ {frames : List Bytes} {keys : List (Int × Nat)}
    {bulks : List (List (Int × Nat))} {p : PrefetchWalk}, PrefetchInv keys bulks p →
    (∀ f ∈ frames, WellFormed 0x80 f) →
    ∃ bulks' p', foldFrames (fun p f => (prefetchWalkStep t p f).map .yield) p frames = some p' ∧
      PrefetchInv (keys ++ flaggedKeys t p.reqBuf frames) bulks' p' := by
  intro frames
  induction frames with
  | nil =>
      intro keys bulks p h _
      rw [flaggedKeys, List.append_nil]
      exact ⟨bulks, p, rfl, h⟩
  | cons f rest ih =>
      intro keys bulks p h hwf
      obtain ⟨bulks1, p1, hs, h1⟩ := h.step (t := t) f
      have hoff := prefetchWalkStep_reqBuf (hwf f List.mem_cons_self) hs
      obtain ⟨bulks', p', hrun, h'⟩ := ih h1 fun g hg => hwf g (List.mem_cons_of_mem f hg)
      refine ⟨bulks', p', ?_, ?_⟩
      · rw [foldFrames, hs]
        exact hrun
      · rw [← List.singleton_append, flaggedKeys_append, List.flatten_singleton, ← hoff,
          ← List.append_assoc]
        exact h'

/-! ## What the engine is told

The pointers of a bulk are turned into keys again, each a piece of the batch. Both walks
pass on the same keys at the same requests. -/

section Engine

variable {σ : Type} (api : StStorageApi σ) (batch : Bytes) (store : σ)

def bulkKey (e : Int × Nat) : Bytes := slice batch e.1.toNat e.2

/-- The two walks side by side. -/
structure Tells (p : PrefetchWalk) (q : Prefetch σ) : Prop where
  store : q.store = p.calls.foldl (prefetchCall api batch) store
  firstRun : q.firstRun = p.firstRun
  bKey : q.bKey = p.entries.map (bulkKey batch)

variable {api batch store} {p p' : PrefetchWalk} {q : Prefetch σ}

theorem bulkKey_inside {before f after : Bytes} (hwf : WellFormed 0x80 f) :
    bulkKey (before ++ (f ++ after)) (before.length + memcacheHeaderSize + mcGetExtrasLength f,
      mcGetKeyLength f) = reqbufGetKey f := by
  have hf := hwf.facts
  have hlen := hf.length
  have hfits := hf.fits
  have hoff : ((before.length : Int) + memcacheHeaderSize + mcGetExtrasLength f).toNat
      = before.length + (memcacheHeaderSize + mcGetExtrasLength f) := by omega
  rw [bulkKey, hoff, slice_append_right (Nat.le_add_right _ _), Nat.add_sub_cancel_left,
    slice_append_left (by omega), reqbufGetKey]

/-- Both forget the old keys before the first new one. -/
theorem Tells.clear (h : Tells api batch store p q) :
    Tells api batch store p.clear
      { q with
        store := if q.firstRun then storagePrefetch api q.store [] else q.store
        firstRun := false } := by
  rw [PrefetchWalk.clear]
  have hfirst := h.firstRun
  cases hp : p.firstRun with
  | true =>
      rw [hp] at hfirst
      refine ⟨?_, rfl, h.bKey⟩
      rw [if_pos rfl, if_pos hfirst, List.foldl_append, ← h.store]
      rfl
  | false =>
      rw [hp] at hfirst
      rw [if_neg Bool.false_ne_true, hfirst, if_neg Bool.false_ne_true]
      exact ⟨h.store, hp.symm, h.bKey⟩

theorem Tells.step (h : Tells api batch store p q) {t : CmdTable} {f : Bytes}
    (hkey : bulkKey batch (p.reqBuf + memcacheHeaderSize + mcGetExtrasLength f, mcGetKeyLength f)
      = reqbufGetKey f) (hs : prefetchWalkStep t p f = some p') :
    Tells api batch store p' (prefetchStep api t q f) := by
  rw [prefetchWalkStep] at hs
  rw [prefetchStep]
  by_cases hflag : (t (mcGetOpcode f)).isPrefetch
  · rw [if_pos hflag] at hs ⊢
    have hclear := h.clear
    simp only [clear_reqBuf] at hs
    generalize p.clear = p1 at hs hclear
    split at hs
    · have hpush : ∀ p2 : PrefetchWalk,
          p2.bKey = Function.update p1.bKey p1.bSz
            (p.reqBuf + memcacheHeaderSize + mcGetExtrasLength f) →
          p2.bKeySz = Function.update p1.bKeySz p1.bSz (mcGetKeyLength f) →
          p2.bSz = p1.bSz + 1 → q.bKey ++ [reqbufGetKey f] = p2.entries.map (bulkKey batch) := by
        intro p2 h1 h2 h3
        rw [entries_push h1 h2 h3, List.map_append, List.map_singleton, hkey, ← hclear.bKey]
      have hlen : (q.bKey ++ [reqbufGetKey f]).length = p1.bSz + 1 := by
        rw [List.length_append, show q.bKey = _ from hclear.bKey, List.length_map, length_entries]
        rfl
      simp only [hlen]
      by_cases hfull : p1.bSz + 1 = bulkSz
      · -- the bulk is passed on by both
        simp only [if_pos hfull, Option.some.injEq] at hs ⊢
        rw [← hs, hpush { p1 with
          bKeySz := Function.update p1.bKeySz p1.bSz (mcGetKeyLength f)
          bKey := Function.update p1.bKey p1.bSz
            (p.reqBuf + memcacheHeaderSize + mcGetExtrasLength f)
          bSz := p1.bSz + 1 } rfl rfl rfl]
        refine ⟨?_, hclear.firstRun, rfl⟩
        rw [List.foldl_append, ← hclear.store]
        rfl
      · simp only [if_neg hfull, Option.some.injEq] at hs ⊢
        rw [← hs]
        exact ⟨hclear.store, hclear.firstRun, hpush _ rfl rfl rfl⟩
    · cases hs
  · rw [if_neg hflag] at hs ⊢
    cases hs
    exact ⟨h.store, h.firstRun, h.bKey⟩

theorem Tells.run {t : CmdTable} : ∀ {frames : List Bytes} {before : Bytes}
    {p p' : PrefetchWalk} {q : Prefetch σ}, Tells api (before ++ frames.flatten) store p q →
    p.reqBuf = before.length → (∀ f ∈ frames, WellFormed 0x80 f) →
    foldFrames (fun p f => (prefetchWalkStep t p f).map .yield) p frames = some p' →
    Tells api (before ++ frames.flatten) store p' (frames.foldl (prefetchStep api t) q) := by
  intro frames
  induction frames with
  | nil =>
      intro before p p' q h _ _ hrun
      cases hrun
      exact h
  | cons f rest ih =>
      intro before p p' q h hoff hwf hrun
      have hf := hwf f List.mem_cons_self
      have hat : before ++ (f :: rest).flatten = (before ++ f) ++ rest.flatten := by
        rw [List.flatten_cons, List.append_assoc]
      rw [foldFrames] at hrun
      cases hs : prefetchWalkStep t p f with
      | none =>
          rw [hs] at hrun
          cases hrun
      | some p1 =>
          rw [hs] at hrun
          have h1 := h.step (by rw [hoff, List.flatten_cons]; exact bulkKey_inside hf) hs
          have hoff1 : p1.reqBuf = (before ++ f).length := by
            rw [prefetchWalkStep_reqBuf hf hs, hoff, List.length_append, Int.natCast_add]
          rw [hat] at h1 ⊢
          exact ih h1 hoff1 (fun g hg => hwf g (List.mem_cons_of_mem f hg)) hrun

variable (api store) in
/-- What the engine makes of the calls is what `tryPrefetch` makes of the batch. -/
theorem tryPrefetch_calls (t : CmdTable) (bKey : Nat → Int) (bKeySz : Nat → Nat)
    {frames : List Bytes} (hwf : ∀ f ∈ frames, WellFormed 0x80 f) :
    tryPrefetch api t store frames.flatten
      = (prefetchCalls t bKey bKeySz frames.flatten).map
          (·.foldl (prefetchCall api frames.flatten) store) := by
  have hinv : PrefetchInv [] [] { bKey := bKey, bKeySz := bKeySz } :=
    ⟨Nat.zero_lt_succ 4095, rfl, nofun, rfl, rfl⟩
  obtain ⟨bulks, p, hrun, -⟩ := hinv.run (t := t) hwf
  have hstart : Tells api ([] ++ frames.flatten) store { bKey := bKey, bKeySz := bKeySz }
      { store := store } := ⟨rfl, rfl, rfl⟩
  have htells := hstart.run rfl hwf hrun
  have hlen := congrArg List.length htells.bKey
  rw [List.length_map, length_entries] at hlen
  rw [tryPrefetch, prefetchCalls, forRequests_flatten hwf, forRequests_flatten hwf, hrun,
    foldFrames_total, Option.map_some]
  simp only [hlen]
  split
  · rw [List.foldl_append, show _ = _ from htells.store, show _ = _ from htells.bKey]
    rfl
  · rw [show _ = _ from htells.store]
    rfl

end Engine

/-- The calls for a batch: nothing for a batch without flagged requests; else the old
keys are forgotten, and then bulks that fit in the arrays make up the flagged keys. -/
theorem prefetchCalls_cover (t : CmdTable) (bKey : Nat → Int) (bKeySz : Nat → Nat)
    {frames : List Bytes} (hwf : ∀ f ∈ frames, WellFormed 0x80 f) :
    ∃ bulks : List (List (Int × Nat)), prefetchCalls t bKey bKeySz frames.flatten = some
        (if flaggedKeys t 0 frames = [] then [] else .clear :: bulks.map .bulk) ∧
      bulks.flatten = flaggedKeys t 0 frames ∧
      ∀ b ∈ bulks, 1 ≤ b.length ∧ b.length ≤ bulkSz := by
  have hstart : PrefetchInv [] [] { bKey := bKey, bKeySz := bKeySz } :=
    ⟨Nat.zero_lt_succ 4095, rfl, nofun, rfl, rfl⟩
  obtain ⟨bulks, p, hrun, hinv⟩ := hstart.run (t := t) hwf
  have hbulk : ∀ b ∈ bulks, 1 ≤ b.length ∧ b.length ≤ bulkSz := by
    intro b hb
    rw [hinv.full b hb]
    decide
  have hroom := hinv.room
  have hheld := hinv.held
  have hcalls := hinv.calls
  rw [List.nil_append] at hheld hcalls
  rw [prefetchCalls, forRequests_flatten hwf, hrun]
  simp only [List.isEmpty_iff] at hcalls ⊢
  by_cases hleft : p.bSz = 0
  · have hnil : p.entries = [] := List.eq_nil_of_length_eq_zero (by rw [length_entries, hleft])
    rw [hnil, List.append_nil] at hheld
    rw [if_neg (not_not.mpr hleft), hcalls]
    exact ⟨bulks, rfl, hheld, hbulk⟩
  · have hkeys : flaggedKeys t 0 frames ≠ [] := by
      intro hnil
      have hlen := length_entries p
      rw [(hinv.bulks_nil (by rw [List.nil_append]; exact hnil)).2] at hlen
      exact hleft hlen.symm
    simp only [if_neg hkeys] at hcalls ⊢
    rw [if_pos hleft, hcalls]
    refine ⟨bulks ++ [p.entries], by rw [List.map_append]; rfl, ?_, fun b hb => ?_⟩
    · rw [List.flatten_append, List.flatten_singleton]
      exact hheld
    · rcases List.mem_append.mp hb with hb | hb
      · exact hbulk b hb
      · rw [List.mem_singleton.mp hb, length_entries]
        omega

theorem length_flaggedKeys (t : CmdTable) (off : Int) (frames : List Bytes) :
    (flaggedKeys t off frames).length
      = frames.countP fun f => (t (mcGetOpcode f)).isPrefetch := by
  induction frames generalizing off with
  | nil => rfl
  | cons f rest ih =>
      rw [flaggedKeys, List.countP_cons]
      split
      · rw [List.length_cons, ih]
      · rw [ih, Nat.add_zero]

def lookupRequest (key : Bytes) : Bytes := Request.frame { opcode := memcacheCmdGet, key := key }

/-- Two keys to look up around a request that has none. -/
def twoLookups : List Bytes :=
  [lookupRequest [0x61], Request.frame { opcode := memcacheCmdNoop }, lookupRequest [0x62, 0x63]]

example : flaggedKeys cmdPointersInit 0 twoLookups = [(24, 1), (73, 2)] := by decide

/-- More keys than the arrays hold. -/
def manyLookups : List Bytes := twoLookups ++ List.replicate 5000 (lookupRequest [0x64])

theorem length_flaggedKeys_manyLookups :
    (flaggedKeys cmdPointersInit 0 manyLookups).length = 5002 := by
  have hflagged : (cmdPointersInit (mcGetOpcode (lookupRequest [0x64]))).isPrefetch
      = true := by decide
  rw [length_flaggedKeys, manyLookups, List.countP_append, List.countP_replicate, if_pos hflagged]
  rfl

/-- It takes two bulks. -/
theorem prefetchCalls_cover_manyLookups :
    ∃ bulks : List (List (Int × Nat)), 2 ≤ bulks.length ∧
      prefetchCalls cmdPointersInit (fun _ => 0) (fun _ => 0) manyLookups.flatten
        = some (.clear :: bulks.map .bulk) ∧
      bulks.flatten = flaggedKeys cmdPointersInit 0 manyLookups ∧
      ∀ b ∈ bulks, 1 ≤ b.length ∧ b.length ≤ bulkSz := by
  have hwf : ∀ f ∈ manyLookups, WellFormed 0x80 f := by
    intro f hf
    rcases List.mem_append.mp hf with hf | hf
    · exact (by decide : ∀ f ∈ twoLookups, WellFormed 0x80 f) f hf
    · rw [List.eq_of_mem_replicate hf]
      decide
  have hlen := length_flaggedKeys_manyLookups
  have hkeys : flaggedKeys cmdPointersInit 0 manyLookups ≠ [] := by
    intro hnil
    rw [hnil] at hlen
    cases hlen
  obtain ⟨bulks, hcalls, hflat, hbulk⟩ :=
    prefetchCalls_cover cmdPointersInit (fun _ => 0) (fun _ => 0) hwf
  rw [if_neg hkeys] at hcalls
  have hsum : bulks.flatten.length ≤ bulks.length * bulkSz := by
    rw [List.length_flatten]
    have hle := List.sum_le_card_nsmul (bulks.map List.length) bulkSz fun n hn => by
      obtain ⟨b, hb, rfl⟩ := List.mem_map.mp hn
      exact (hbulk b hb).2
    rwa [List.length_map] at hle
  rw [hflat, hlen, bulkSz] at hsum
  exact ⟨bulks, by omega, hcalls, hflat, hbulk⟩

end Smalltable.Proofs
