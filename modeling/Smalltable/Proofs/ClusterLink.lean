import Smalltable.Proofs.Deadlock
import Smalltable.Proofs.ProxyServe
import Smalltable.Ref.Cluster

/-!
# One connection while a batch is served

The proxy's chain of callbacks and the server's connection, step by step in any
order. What the proxy has got, what is on its way and what the server still
holds are together the answers to the requests the server has served
(`Serving`). So nothing the proxy reads is out of form, the chain does not fail,
and when it ends the server has served all requests and the proxy has all
answers (`Serving.ends`).

The answers of a server stand behind what it has sent for earlier batches,
`pre`.

Nothing is asked of the sizes of the queues in between, since a step that is not
possible is just not made. That both sides wait for each other is excluded elsewhere
(`Deadlock`), and an exchange that does not end is none of those a batch is served by.
-/

namespace Smalltable.Proofs

open Smalltable.Ref Smalltable.Spec

/-! ## What a step of the chain sends

The proxy's client sends the batch of a server and nothing else. What it still has to
send is in its `send_buf`; errors take nothing back of what has been sent. -/

section Sent

variable {p p' : Pool} {x x' : Exchange} {a : ClientAction}

theorem doError_sent (h : doError p x = some (p', x')) : x.sent <+: x'.sent := by
  unfold doError at h
  simp only [] at h
  split at h
  · cases h
  · cases h; exact List.prefix_refl _

theorem doConnectionError_sent (h : doConnectionError p x = some (p', x')) :
    x.sent <+: x'.sent := by
  unfold doConnectionError at h
  have hsent := doError_sent h
  exact hsent

theorem clientStep_sent (h : clientStep p x a = some (p', x')) : x.sent <+: x'.sent := by
  rcases clientStep_cases h with ⟨now, connect, -, h⟩ | ⟨ok, -, h⟩ | ⟨r, -, h⟩ | ⟨r, -, h⟩ |
    ⟨-, h⟩
  · unfold doStart at h
    split at h
    · split at h
      · exact doError_sent h
      · split at h
        · exact doConnectionError_sent h
        · cases h; exact List.prefix_refl _
    · cases h; exact List.prefix_refl _
  · unfold doConnected at h
    split at h
    · cases h; exact List.prefix_refl _
    · exact doConnectionError_sent h
  · unfold doWrite at h
    simp only [] at h
    split at h
    · split at h
      · cases h; exact List.prefix_append _ _
      · cases h
    · cases h; exact List.prefix_append _ _
    · exact doConnectionError_sent h
  · unfold doRead at h
    simp only [] at h
    split at h
    · split at h
      · cases h; exact List.prefix_refl _
      · cases h
    · cases h; exact List.prefix_refl _
    · have hsent := doConnectionError_sent h
      exact hsent
  · unfold doSwallow at h
    simp only [] at h
    split at h
    · exact doConnectionError_sent h
    · split at h
      · cases h; exact List.prefix_refl _
      · split at h
        · cases h; exact List.prefix_refl _
        · cases h; exact List.prefix_refl _

theorem After.sent {reqs : List Bytes} (h : After reqs x) : x.sent <+: reqs.flatten := by
  obtain ⟨frames, more, hflight | hend⟩ := h
  · obtain ⟨n, -, -, hsent⟩ := hflight.sendOffset
    rw [hsent]
    exact List.take_prefix _ _
  · exact hend.sent

/-- What is still to be sent begins with what the step sends. -/
theorem drop_prefix_append {α : Type} {as bs l : List α} (h : as <+: bs) (h' : bs <+: l) :
    bs.drop as.length ++ l.drop bs.length = l.drop as.length := by
  obtain ⟨cs, rfl⟩ := h
  obtain ⟨ds, rfl⟩ := h'
  rw [List.drop_left, List.drop_left, List.append_assoc, List.drop_left]

end Sent

/-! ## What the sockets allow

A socket neither makes bytes up nor loses them: what one side receives is the front of
what the other side has sent and it has not received yet. -/

section Allows

variable {ω : Type} {s : Link ω} {a : ClientAction} {capServer capProxy : Nat}

/-- A socket that does not fail does not make the chain fail. -/
theorem benign_of_linkAllows {srv : Backend} {r : Pool × Exchange} {p : Pool}
    (hallow : linkAllows capServer capProxy s (.proxy a) = true)
    (hstart : s.exchange.pc = .doStart → s.exchange.srv = srv)
    (hs : clientStep p s.exchange a = some r) : Benign srv a := by
  cases a with
  | start now connect =>
      have hpc : s.exchange.pc = .doStart := by
        unfold clientStep at hs
        cases hpc : s.exchange.pc <;> rw [hpc] at hs <;> first | rfl | cases hs
      have hallow : 0 ≤ s.exchange.srv.sd ∨ s.exchange.srv.nextRetry < now ∧ connect ≠ none := by
        simpa [linkAllows] using hallow
      rw [hstart hpc] at hallow
      exact hallow
  | connected ok => exact hallow
  | send r =>
      intro herr
      rw [herr] at hallow
      cases hallow
  | recv r =>
      intro hclosed
      rw [hclosed] at hallow
      cases hallow
  | run => trivial

/-- What the proxy reads is taken from its queue. -/
theorem toProxy_of_linkAllows (hallow : linkAllows capServer capProxy s (.proxy a) = true) :
    bytesGot a ++ s.toProxy.drop (takenByProxy a) = s.toProxy := by
  cases a with
  | start now connect => rfl
  | connected ok => rfl
  | send r => rfl
  | run => rfl
  | recv r =>
      cases r with
      | again => rfl
      | closed => rfl
      | got bs =>
          have hpre : bs <+: s.toProxy := List.isPrefixOf_iff_prefix.mp hallow
          obtain ⟨rest, hrest⟩ := hpre
          rw [← hrest]
          show bs ++ (bs ++ rest).drop bs.length = _
          rw [List.drop_left]

end Allows

/-! ## The invariant

Every step of either side keeps it. A step of the proxy takes answers from what is
coming, a step of the server puts them there, and a server only answers what has
arrived. When the chain is done the proxy has received as many answers as there are
requests, so that none is left anywhere between. -/

section Link

variable {ω : Type} (processMulti : ω → Io → Bytes → Option (ω × Io × Int)) (S : Service ω)
  (pre : Bytes) (reqs answers : List Bytes)

/-- The server answers `reqs` with `answers`, behind `pre`, when it gets them in
pieces that may be of any size. -/
structure Replies : Prop where
  requests : ∀ f ∈ reqs, WellFormed 0x80 f
  responses : ∀ f ∈ answers, WellFormed 0x81 f
  count : answers.length = reqs.length
  answer : ∀ done, done <+: reqs → S.answer done = pre ++ (answers.take done.length).flatten
  handles : ∀ w io done batch out, batch ≠ [] → done ++ batch <+: reqs → io.sendBuf.Holds out →
    out <:+ (answers.take done.length).flatten → Handles processMulti S w io done batch

/-- The exchange that began with `srv` is somewhere along the requests, and so is
the server. -/
structure Serving (srv : Backend) (s : Link ω) : Prop where
  after : After reqs s.exchange
  unfailed : s.exchange.failed = none
  start : s.exchange.pc = .doStart → s.exchange.srv = srv
  along : ∃ done pend rest more out, Along S reqs (reqs.flatten.drop s.exchange.sent.length)
    s.conn done pend rest more out
  moved : pre ++ s.exchange.received ++ s.toProxy = s.conn.sent

variable {processMulti S pre reqs answers} {srv : Backend} {s s' : Link ω}

/-- Where the answers are. -/
theorem Serving.answered (h : Serving S pre reqs srv s)
    (hrep : Replies processMulti S pre reqs answers) {done pend rest : List Bytes}
    {more out : Bytes}
    (halong : Along S reqs (reqs.flatten.drop s.exchange.sent.length) s.conn done pend rest more
      out) :
    s.exchange.received ++ (s.toProxy ++ out) = (answers.take done.length).flatten := by
  have hdone : done <+: reqs := by
    rw [halong.split, List.append_assoc]
    exact List.prefix_append _ _
  have hsent := halong.sent
  rw [← h.moved, hrep.answer done hdone] at hsent
  simp only [List.append_assoc] at hsent
  exact List.append_cancel_left hsent

/-- What the proxy has got is the beginning of the answers. -/
theorem Serving.coming (h : Serving S pre reqs srv s)
    (hrep : Replies processMulti S pre reqs answers) :
    ∃ later, s.exchange.received ++ later = answers.flatten := by
  obtain ⟨done, pend, rest, more, out, halong⟩ := h.along
  refine ⟨s.toProxy ++ out ++ (answers.drop done.length).flatten, ?_⟩
  rw [← List.append_assoc, h.answered hrep halong, ← List.flatten_append, List.take_append_drop]

theorem Serving.step_proxy (h : Serving S pre reqs srv s)
    (hrep : Replies processMulti S pre reqs answers) {capServer capProxy : Nat} {p p' : Pool}
    {x' : Exchange} {a : ClientAction}
    (hallow : linkAllows capServer capProxy s (.proxy a) = true)
    (hs : clientStep p s.exchange a = some (p', x')) :
    Serving S pre reqs srv { s with
      pool := p'
      exchange := x'
      conn := { s.conn with input := s.conn.input ++ x'.sent.drop s.exchange.sent.length }
      toProxy := s.toProxy.drop (takenByProxy a) } := by
  obtain ⟨⟨frames, more, hflight⟩, hafter⟩ := h.after.step hrep.requests hs
  obtain ⟨later, hlater⟩ := h.coming hrep
  obtain ⟨hsame, hpc⟩ := clientStep_failed h.start (benign_of_linkAllows hallow h.start hs)
    (hflight.sane hrep.responses hlater) hs
  refine ⟨hafter, hsame.trans h.unfailed, fun hpc' => absurd hpc' hpc, ?_, ?_⟩
  · obtain ⟨done, pend, rest, more, out, halong⟩ := h.along
    refine ⟨done, pend, rest, more, out, Along.arrive ?_⟩
    rw [drop_prefix_append (clientStep_sent hs) hafter.sent]
    exact halong
  · show pre ++ x'.received ++ s.toProxy.drop (takenByProxy a) = s.conn.sent
    rw [clientStep_received hs, ← h.moved, ← List.append_assoc pre,
      List.append_assoc _ (bytesGot a), toProxy_of_linkAllows hallow]

theorem Serving.step_server (h : Serving S pre reqs srv s)
    (hrep : Replies processMulti S pre reqs answers) {c' : Conn ω} {a : ConnAction}
    (hopen : ConnAction.Open a) (hs : connStep processMulti s.conn a = some c') :
    Serving S pre reqs srv { s with
      conn := c'
      toProxy := s.toProxy ++ c'.sent.drop s.conn.sent.length } := by
  obtain ⟨done, pend, rest, more, out, halong⟩ := h.along
  have hanswered := h.answered hrep halong
  have hsuffix : out <:+ (answers.take done.length).flatten := by
    rw [← hanswered, ← List.append_assoc]
    exact List.suffix_append _ _
  refine ⟨h.after, h.unfailed, h.start, halong.step hrep.requests
    (fun batch hne hbatch _ => hrep.handles _ _ _ _ out hne hbatch halong.send hsuffix) hopen hs,
    ?_⟩
  obtain ⟨new, hnew⟩ := connStep_sent hs
  show pre ++ s.exchange.received ++ (s.toProxy ++ c'.sent.drop s.conn.sent.length) = c'.sent
  rw [← hnew, List.drop_left, ← List.append_assoc, h.moved]

theorem Serving.step (h : Serving S pre reqs srv s)
    (hrep : Replies processMulti S pre reqs answers) {capServer capProxy : Nat} {p : Pool}
    {a : LinkAction}
    (hs : linkStep processMulti capServer capProxy { s with pool := p } a = some s') :
    Serving S pre reqs srv s' := by
  have hpool : Serving S pre reqs srv { s with pool := p } :=
    ⟨h.after, h.unfailed, h.start, h.along, h.moved⟩
  unfold linkStep at hs
  split at hs
  · next hallow =>
      cases a with
      | proxy a =>
          simp only [] at hs
          split at hs
          · cases hs
          · next p' x' hx =>
              cases hs
              exact hpool.step_proxy hrep hallow hx
      | server a =>
          simp only [] at hs
          split at hs
          · cases hs
          · next c' hc =>
              cases hs
              exact hpool.step_server hrep (linkAllows_open hallow) hc
  · cases hs

/-- When the chain has ended, everything has been served and has arrived. -/
theorem Serving.ends (h : Serving S pre reqs srv s)
    (hrep : Replies processMulti S pre reqs answers) (hdone : s.exchange.pc = .done) :
    s.exchange.received = answers.flatten ∧ s.toProxy = [] ∧
      Along S reqs [] s.conn reqs [] [] [] [] := by
  obtain ⟨frames, more, hflight | hend⟩ := h.after
  · exact absurd hdone hflight.pc
  obtain ⟨hcount, hsent, -⟩ := hend.complete h.unfailed
  obtain ⟨done, pend, rest, more', out, halong⟩ := h.along
  have hanswered := h.answered hrep halong
  have hle : done.length ≤ reqs.length := by
    rw [halong.split, List.length_append, List.length_append]
    omega
  -- as many answers have arrived as there are requests, and no more have been given
  obtain ⟨hs, hcut, hrest⟩ := (wireFraming 0x81).prefix_of_flatten hend.wf
    (fun f hf => hrep.responses f (List.mem_of_mem_take hf)) (by
      rw [← hanswered, hend.received, List.append_assoc])
  have hlen := congrArg List.length hcut
  rw [List.length_take, List.length_append, hrep.count] at hlen
  have hnil : hs = [] := List.eq_nil_of_length_eq_zero (by omega)
  have hall : done.length = reqs.length := by omega
  rw [hnil, List.flatten_nil] at hrest
  obtain ⟨-, hrest⟩ := List.append_eq_nil_iff.mp hrest
  obtain ⟨hto, hout⟩ := List.append_eq_nil_iff.mp hrest
  have htake : answers.take done.length = answers := by
    rw [hall, ← hrep.count, List.take_length]
  have hsplit := congrArg List.length halong.split
  rw [List.length_append, List.length_append] at hsplit
  have hpend : pend = [] := List.eq_nil_of_length_eq_zero (by omega)
  have hleft : rest = [] := List.eq_nil_of_length_eq_zero (by omega)
  have hdone' : done = reqs := by
    rw [halong.split, hpend, hleft, List.append_nil, List.append_nil]
  have hmore := halong.coming
  rw [hleft, List.flatten_nil] at hmore
  obtain ⟨hmore, -⟩ := List.append_eq_nil_iff.mp hmore
  refine ⟨?_, hto, ?_⟩
  · rw [hto, hout, htake] at hanswered
    rw [← hanswered]
    simp
  · rw [hsent, List.drop_length, hdone', hpend, hleft, hmore, hout] at halong
    exact halong

end Link

end Smalltable.Proofs
