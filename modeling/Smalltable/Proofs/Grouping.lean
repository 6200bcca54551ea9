import Smalltable.Proofs.Framing
import Smalltable.Proofs.Table

/-!
# How a batch falls into groups

`process_multi` collects neighbouring requests into groups and hands each
group to the handler of its table entry. `groupRuns` records those hand-overs:
which requests, under which entry, in which world and with which buffers.

The loop reads a request's entry before it runs the group in front. A request
with the entry of the group being collected joins it; any other one ends it
(`dispatchStep_swallow`, `dispatchStep_next`). So the hand-overs are runs of
neighbouring requests (`batchRuns_neighbours`), and a batch that comes through has
each of its requests in one of them, in order (`processMulti_requests`).

Nothing is asked of the table. Its slots may change while a group is run, and what the
entry of a group says is what its first request has found when the loop came to it.
-/

namespace Smalltable.Proofs

open Smalltable.Ref

section Grouping

variable {σ γ : Type} (api : StStorageApi σ) (vx : Vx γ) (cfg : Config γ)

/-- One group handed to its callback. -/
structure GroupRun (σ γ : Type) where
  world : World σ γ
  io : Io
  group : Group
  requests : List Bytes

/-- The group that is being collected, as a hand-over, if there is one. -/
def flush (d : Dispatch σ γ) (pending : List Bytes) : List (GroupRun σ γ) :=
  if pending = [] then [] else [⟨d.world, d.io, d.group, pending⟩]

/-- The hand-overs of the grouping loop; `pending` are the requests of the group
being collected. A callback that does not come back is the last one. -/
def groupRuns (d : Dispatch σ γ) (pending : List Bytes) : List Bytes → List (GroupRun σ γ)
  | [] => flush d pending
  | f :: rest =>
      match dispatchStep api vx cfg d f with
      | none => flush d pending
      | some d' =>
          if d.group.entry = some (d.world.cmdPointers (mcGetOpcode f)) then
            groupRuns d' (pending ++ [f]) rest
          else flush d pending ++ groupRuns d' [f] rest

/-- The loop of `process_multi` in front of its first request. -/
def dispatchStart (w : World σ γ) (io : Io) (reqBuf : Bytes) : Option (Dispatch σ γ) :=
  let wr := bufGetWriter io.pool io.recvBuf sizeofMcMetadata
  match tryPrefetch api w.cmdPointers w.store reqBuf with
  | none => none
  | some store =>
      some ⟨{ w with store := store }, { io with pool := wr.1, recvBuf := wr.2.1 }, {}⟩

/-- The hand-overs of a whole batch. -/
def batchRuns (w : World σ γ) (io : Io) (batch : List Bytes) : List (GroupRun σ γ) :=
  match dispatchStart api w io batch.flatten with
  | none => []
  | some d => groupRuns api vx cfg d [] batch

/-! ## What a step of the loop does

A request joins the group in front of it, or that group is run and the request begins
another one. There is nothing else a step can do, but not come back. -/

variable {d d' : Dispatch σ γ} {f : Bytes}

theorem dispatchStep_swallow
    (hsame : d.group.entry = some (d.world.cmdPointers (mcGetOpcode f))) :
    dispatchStep api vx cfg d f
      = some { d with group := { d.group with reqBuf := d.group.reqBuf ++ f } } := by
  rw [dispatchStep]
  exact if_pos hsame

theorem dispatchStep_next
    (hnew : d.group.entry ≠ some (d.world.cmdPointers (mcGetOpcode f)))
    (hs : dispatchStep api vx cfg d f = some d') :
    runGroup api vx cfg d.group d.world d.io = some (d'.world, d'.io) ∧
      d'.group = ⟨some (d.world.cmdPointers (mcGetOpcode f)), f⟩ := by
  rw [dispatchStep] at hs
  simp only [if_neg hnew] at hs
  split at hs
  · cases hs
  · next w io hrun =>
      cases hs
      exact ⟨hrun, rfl⟩

theorem dispatchStep_none (hs : dispatchStep api vx cfg d f = none) :
    d.group.entry ≠ some (d.world.cmdPointers (mcGetOpcode f)) ∧
      runGroup api vx cfg d.group d.world d.io = none := by
  have hnew : d.group.entry ≠ some (d.world.cmdPointers (mcGetOpcode f)) := by
    intro hsame
    rw [dispatchStep_swallow api vx cfg hsame] at hs
    cases hs
  refine ⟨hnew, ?_⟩
  rw [dispatchStep] at hs
  simp only [if_neg hnew] at hs
  split at hs
  · next hrun => exact hrun
  · cases hs

/-! ## Runs

`Collecting` says that the group is made of whole requests, and which. From this a list
of hand-overs is read off, group by group. -/

/-- The group being collected, and the requests it is made of. -/
structure Collecting (d : Dispatch σ γ) (pending : List Bytes) : Prop where
  handed : d.group.reqBuf = pending.flatten
  entry : pending ≠ [] → d.group.entry ≠ none

theorem Collecting.swallow {pending : List Bytes} (hc : Collecting d pending)
    (hsame : d.group.entry = some (d.world.cmdPointers (mcGetOpcode f))) :
    Collecting { d with group := { d.group with reqBuf := d.group.reqBuf ++ f } }
      (pending ++ [f]) := by
  refine ⟨?_, ?_⟩
  · show d.group.reqBuf ++ f = _
    rw [hc.handed, List.flatten_append, List.flatten_singleton]
  · intro _ hno
    rw [show d.group.entry = none from hno] at hsame
    cases hsame

theorem Collecting.next {e : CmdEntry} (hgroup : d.group = ⟨some e, f⟩) : Collecting d [f] := by
  refine ⟨?_, ?_⟩
  · rw [hgroup, List.flatten_singleton]
  · intro _
    rw [hgroup]
    exact Option.some_ne_none _

/-- A hand-over is a run of neighbouring requests. -/
theorem groupRuns_infix {pending : List Bytes} (batch : List Bytes) (hc : Collecting d pending) :
    ∀ r ∈ groupRuns api vx cfg d pending batch,
      r.group.reqBuf = r.requests.flatten ∧ r.requests <:+: pending ++ batch := by
  have hflush : ∀ {d : Dispatch σ γ} {pending : List Bytes}, Collecting d pending →
      ∀ r ∈ flush d pending, r.group.reqBuf = r.requests.flatten ∧ r.requests = pending := by
    intro d pending hc r hr
    rw [flush] at hr
    split at hr
    · cases hr
    · rw [List.mem_singleton.mp hr]
      exact ⟨hc.handed, rfl⟩
  induction batch generalizing d pending with
  | nil =>
      intro r hr
      obtain ⟨hbuf, hreq⟩ := hflush hc r hr
      rw [List.append_nil, ← hreq]
      exact ⟨hbuf, List.infix_rfl⟩
  | cons f rest ih =>
      have hfront : ∀ r ∈ flush d pending,
          r.group.reqBuf = r.requests.flatten ∧ r.requests <:+: pending ++ f :: rest := by
        intro r hr
        obtain ⟨hbuf, hreq⟩ := hflush hc r hr
        rw [hreq]
        exact ⟨hreq ▸ hbuf, (List.prefix_append _ _).isInfix⟩
      intro r hr
      rw [groupRuns] at hr
      cases hs : dispatchStep api vx cfg d f with
      | none =>
          rw [hs] at hr
          exact hfront r hr
      | some d' =>
          rw [hs] at hr
          simp only [] at hr
          split at hr
          · next hsame =>
              rw [dispatchStep_swallow api vx cfg hsame] at hs
              cases hs
              obtain ⟨hbuf, hin⟩ := ih (hc.swallow hsame) r hr
              rw [List.append_assoc] at hin
              exact ⟨hbuf, hin⟩
          · next hsame =>
              obtain ⟨-, hgroup⟩ := dispatchStep_next api vx cfg hsame hs
              rcases List.mem_append.mp hr with hr | hr
              · exact hfront r hr
              · obtain ⟨hbuf, hin⟩ := ih (Collecting.next hgroup) r hr
                exact ⟨hbuf, hin.trans (List.suffix_append pending _).isInfix⟩

/-! ## The batch of `process_multi`

Behind the loop the last group is run. In front of it the keys are hinted to the engine
and the room for the metadata is made, which hands over nothing. -/

/-- The grouping loop over the requests of a batch. -/
def dispatchAll (d : Dispatch σ γ) (batch : List Bytes) : Option (Dispatch σ γ) :=
  foldFrames (fun d f => (dispatchStep api vx cfg d f).map .yield) d batch

theorem dispatchAll_cons (d : Dispatch σ γ) (f : Bytes) (rest : List Bytes) :
    dispatchAll api vx cfg d (f :: rest)
      = (dispatchStep api vx cfg d f).bind fun d' => dispatchAll api vx cfg d' rest := by
  rw [dispatchAll, foldFrames]
  cases hs : dispatchStep api vx cfg d f with
  | none => rfl
  | some d' => rfl

theorem processMulti_flatten {w : World σ γ} {io : Io} {batch : List Bytes}
    (hwf : ∀ f ∈ batch, WellFormed 0x80 f) :
    processMulti api vx cfg w io batch.flatten
      = (dispatchStart api w io batch.flatten).bind fun d =>
          (dispatchAll api vx cfg d batch).bind fun d' =>
            (runGroup api vx cfg d'.group d'.world d'.io).map fun r =>
              (r.1, r.2, (batch.flatten.length : Int)) := by
  rw [processMulti, dispatchStart]
  cases tryPrefetch api w.cmdPointers w.store batch.flatten with
  | none => rfl
  | some store =>
      simp only [forRequests_flatten hwf, Option.bind_some]
      rw [← dispatchAll]
      cases dispatchAll api vx cfg _ batch with
      | none => rfl
      | some d' =>
          simp only [Option.bind_some]
          cases runGroup api vx cfg d'.group d'.world d'.io with
          | none => rfl
          | some r => rfl

theorem dispatchStart_collecting {w : World σ γ} {io : Io} {reqBuf : Bytes} {d : Dispatch σ γ}
    (hd : dispatchStart api w io reqBuf = some d) : Collecting d [] := by
  rw [dispatchStart] at hd
  split at hd
  · cases hd
  · cases hd
    exact ⟨rfl, fun hne => absurd rfl hne⟩

/-- The hand-overs of a batch are runs of its requests. -/
theorem batchRuns_neighbours {w : World σ γ} {io : Io} {batch : List Bytes} :
    ∀ r ∈ batchRuns api vx cfg w io batch,
      r.group.reqBuf = r.requests.flatten ∧ r.requests <:+: batch := by
  intro r hr
  rw [batchRuns] at hr
  cases hd : dispatchStart api w io batch.flatten with
  | none =>
      rw [hd] at hr
      cases hr
  | some d =>
      rw [hd] at hr
      exact groupRuns_infix api vx cfg batch (dispatchStart_collecting api hd) r hr

/-- A loop that comes through has every request in one hand-over, in order. -/
theorem groupRuns_requests {pending : List Bytes} (batch : List Bytes)
    (hs : dispatchAll api vx cfg d batch = some d') :
    (groupRuns api vx cfg d pending batch).flatMap (·.requests) = pending ++ batch := by
  have hflush : ∀ (d : Dispatch σ γ) (pending : List Bytes),
      (flush d pending).flatMap (·.requests) = pending := by
    intro d pending
    rw [flush]
    split
    · next hnil => rw [hnil]; rfl
    · simp
  induction batch generalizing d pending with
  | nil => rw [groupRuns, hflush, List.append_nil]
  | cons f rest ih =>
      rw [dispatchAll_cons] at hs
      obtain ⟨d1, hd1, hrest⟩ := Option.bind_eq_some_iff.mp hs
      rw [groupRuns, hd1]
      simp only []
      split
      · rw [ih hrest, List.append_assoc, List.singleton_append]
      · rw [List.flatMap_append, hflush, ih hrest, List.singleton_append]

theorem processMulti_requests {w : World σ γ} {io : Io} {batch : List Bytes}
    (hwf : ∀ f ∈ batch, WellFormed 0x80 f) {r : World σ γ × Io × Int}
    (hr : processMulti api vx cfg w io batch.flatten = some r) :
    (batchRuns api vx cfg w io batch).flatMap (·.requests) = batch := by
  rw [processMulti_flatten api vx cfg hwf] at hr
  obtain ⟨d, hd, hr⟩ := Option.bind_eq_some_iff.mp hr
  obtain ⟨d', hd', -⟩ := Option.bind_eq_some_iff.mp hr
  rw [batchRuns, hd]
  exact groupRuns_requests api vx cfg batch hd'

end Grouping

end Smalltable.Proofs
