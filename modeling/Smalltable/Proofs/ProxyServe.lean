import Smalltable.Proofs.Exchange
import Smalltable.Proofs.ProxyCollect

/-!
# Serving all servers at once

`process_memcache` runs one exchange for each server, and the network decides
in which order they go on. Seen from one server only its own events matter, so
what is known of a single chain of callbacks holds whatever the others do
(`serveEvents_chain`).

When nothing fails and each server answers its requests, every chain ends with
exactly these answers in `recv_buf` (`Chain.holds_answers`). Such a network exists
for any answers (`exists_serving`), so the results about it are not void.
-/

namespace Smalltable.Proofs

open Smalltable.Ref Relation

/-! ## One server's events

The events of the network name the server they are of. Without those of the others they
are the actions of one chain. -/

/-- The bytes an action brings in. -/
def bytesGot : ClientAction → Bytes
  | .recv (.got bs) => bs
  | _ => []

/-- What the network gives a chain, all in all. -/
def gotBytes (as : List ClientAction) : Bytes := as.flatMap bytesGot

/-- The events of one server, in their order. -/
def actionsOf (net : List Proxy.NetEvent) (ptr : Nat) : List ClientAction :=
  (net.filter fun e => e.server = ptr).map fun e => e.action

/-- An action that does not make the exchange with `srv` fail. -/
def Benign (srv : Backend) : ClientAction → Prop
  | .start now connect => 0 ≤ srv.sd ∨ srv.nextRetry < now ∧ connect ≠ none
  | .connected ok => ok = true
  | .send r => r ≠ .error
  | .recv r => r ≠ .closed
  | .run => True

instance (srv : Backend) (a : ClientAction) : Decidable (Benign srv a) := by
  cases a <;> unfold Benign <;> infer_instance

/-- The steps of one chain, with whatever is in the pool at each of them. -/
inductive Chain : Exchange → List ClientAction → Exchange → Prop where
  | nil (x : Exchange) : Chain x [] x
  | cons {p p' : Pool} {x x1 x' : Exchange} {a : ClientAction} {as : List ClientAction} :
      clientStep p x a = some (p', x1) → Chain x1 as x' → Chain x (a :: as) x'

theorem Chain.steps {x x' : Exchange} {as : List ClientAction} (h : Chain x as x') :
    ReflTransGen ClientStep x x' := by
  induction h with
  | nil x => exact .refl
  | cons hs _ ih => exact ReflTransGen.head ⟨_, _, _, hs⟩ ih

theorem serveEvents_chain : ∀ {net : List Proxy.NetEvent} {p p' : Pool}
    {xs xs' : Nat → Option Exchange}, Proxy.serveEvents p xs net = some (p', xs') →
    ∀ ptr, (xs ptr = none → xs' ptr = none) ∧
      ∀ x, xs ptr = some x → ∃ x', xs' ptr = some x' ∧ Chain x (actionsOf net ptr) x' := by
  intro net
  induction net with
  | nil =>
      intro p p' xs xs' h ptr
      cases h
      exact ⟨id, fun x hx => ⟨x, hx, .nil x⟩⟩
  | cons e rest ih =>
      intro p p' xs xs' h ptr
      rw [Proxy.serveEvents] at h
      split at h
      · cases h
      · next x hx =>
          split at h
          · cases h
          · next p1 x1 hs =>
              obtain ⟨hnone, hsome⟩ := ih h ptr
              by_cases hptr : ptr = e.server
              · -- the event is for this server
                have hact : actionsOf (e :: rest) ptr = e.action :: actionsOf rest ptr := by
                  rw [actionsOf, List.filter_cons_of_pos (by simp [hptr])]
                  rfl
                obtain ⟨x', hx', hchain⟩ := hsome x1 (if_pos hptr)
                refine ⟨fun habs => ?_, fun y hy => ?_⟩
                · rw [hptr, hx] at habs
                  cases habs
                · rw [hptr, hx] at hy
                  cases hy
                  rw [hact]
                  exact ⟨x', hx', .cons hs hchain⟩
              · have hact : actionsOf (e :: rest) ptr = actionsOf rest ptr := by
                  rw [actionsOf, List.filter_cons_of_neg (by simpa using fun he => hptr he.symm)]
                  rfl
                rw [hact]
                rw [if_neg hptr] at hnone
                refine ⟨hnone, fun y hy => hsome y ?_⟩
                rw [if_neg hptr]
                exact hy

/-! ## What an action does to the history

What a chain has received is what the network has given it, and a failure is noted. -/

section History

variable {p p' : Pool} {x x' : Exchange} {a : ClientAction}

theorem doError_received (h : doError p x = some (p', x')) : x'.received = x.received := by
  unfold doError at h
  simp only [] at h
  split at h
  · cases h
  · cases h; rfl

theorem doConnectionError_received (h : doConnectionError p x = some (p', x')) :
    x'.received = x.received := by
  unfold doConnectionError at h
  rw [doError_received h]

theorem clientStep_received (h : clientStep p x a = some (p', x')) :
    x'.received = x.received ++ bytesGot a := by
  unfold clientStep at h
  split at h
  · refine Eq.trans ?_ (List.append_nil _).symm
    unfold doStart at h
    split at h
    · split at h
      · exact doError_received h
      · split at h
        · exact doConnectionError_received h
        · cases h; rfl
    · cases h; rfl
  · refine Eq.trans ?_ (List.append_nil _).symm
    unfold doConnected at h
    split at h
    · cases h; rfl
    · exact doConnectionError_received h
  · refine Eq.trans ?_ (List.append_nil _).symm
    unfold doWrite at h
    simp only [] at h
    split at h
    · split at h
      · cases h; rfl
      · cases h
    · cases h; rfl
    · exact doConnectionError_received h
  · unfold doRead at h
    simp only [] at h
    split at h
    · split at h
      · cases h; rfl
      · cases h
    · cases h
      exact (List.append_nil _).symm
    · refine Eq.trans ?_ (List.append_nil _).symm
      exact (doConnectionError_received h).trans rfl
  · refine Eq.trans ?_ (List.append_nil _).symm
    unfold doSwallow at h
    simp only [] at h
    split at h
    · exact doConnectionError_received h
    · split at h
      · cases h; rfl
      · split at h
        · cases h; rfl
        · cases h; rfl
  · cases h

theorem Chain.received {as : List ClientAction} (h : Chain x as x') :
    x'.received = x.received ++ gotBytes as := by
  induction h with
  | nil x => rw [gotBytes, List.flatMap_nil, List.append_nil]
  | @cons p p' x x1 x' a as hs _ ih =>
      rw [ih, clientStep_received hs, gotBytes, gotBytes, List.flatMap_cons, List.append_assoc]

/-- Without a bad action and a bad response nothing fails. -/
theorem clientStep_failed {srv : Backend} (hstart : x.pc = .doStart → x.srv = srv)
    (hbenign : Benign srv a)
    (hsane : reqbufGetSaneRequestSz ((bufGetReader x.srv.recvBuf).drop x.srv.recvOffset.toNat) 0x81
      ≠ -1)
    (h : clientStep p x a = some (p', x')) : x'.failed = x.failed ∧ x'.pc ≠ .doStart := by
  unfold clientStep at h
  split at h
  · next now connect hpc =>
      have hsrv := hstart hpc
      unfold doStart at h
      rw [hsrv] at h
      rcases hbenign with hsd | ⟨hnow, hconnect⟩
      · rw [if_neg (by omega)] at h
        cases h
        exact ⟨rfl, nofun⟩
      · by_cases hsd : srv.sd < 0
        · rw [if_pos hsd, if_neg (not_not.mpr hnow)] at h
          split at h
          · exact absurd rfl hconnect
          · cases h
            exact ⟨rfl, nofun⟩
        · rw [if_neg hsd] at h
          cases h
          exact ⟨rfl, nofun⟩
  · have hok : _ = true := hbenign
    unfold doConnected at h
    rw [if_pos hok] at h
    cases h
    exact ⟨rfl, nofun⟩
  · unfold doWrite at h
    simp only [] at h
    split at h
    · split at h
      · cases h
        refine ⟨rfl, ?_⟩
        rw [doWritten]
        simp only [ne_eq]
        split <;> exact nofun
      · cases h
    · cases h
      refine ⟨rfl, ?_⟩
      rw [doWritten]
      simp only [ne_eq]
      split <;> exact nofun
    · exact absurd rfl hbenign
  · unfold doRead at h
    simp only [] at h
    split at h
    · split at h
      · cases h
        refine ⟨rfl, ?_⟩
        simp only [ne_eq]
        split <;> exact nofun
      · cases h
    · cases h
      refine ⟨rfl, ?_⟩
      simp only [ne_eq]
      split <;> exact nofun
    · exact absurd rfl hbenign
  · next hpc =>
      unfold doSwallow at h
      simp only [] at h
      rw [if_neg hsane] at h
      split at h
      · cases h
        exact ⟨rfl, nofun⟩
      · split at h
        · cases h
          exact ⟨rfl, nofun⟩
        · cases h
          refine ⟨rfl, ?_⟩
          show x.pc ≠ _
          rw [hpc]
          exact nofun
  · cases h

end History

/-! ## Exchanges that do not fail

If a server sends its answers and nothing else, and no call fails, then the answers are
in `recv_buf` at the end: nothing has been made up. -/

section Answers

variable {reqs answers frames : List Bytes} {more later : Bytes} {srv : Backend}
  {p p' : Pool} {x x' : Exchange} {as : List ClientAction}

/-- What has been counted are the first answers, and the rest is on its way. -/
theorem InFlight.split_answers (h : InFlight reqs frames more x)
    (hans : ∀ f ∈ answers, WellFormed 0x81 f)
    (hcoming : x.received ++ later = answers.flatten) :
    ∃ hs, answers = frames ++ hs ∧ more ++ later = hs.flatten := by
  rw [h.received, List.append_assoc] at hcoming
  exact (wireFraming 0x81).prefix_of_flatten h.wf hans hcoming

theorem InFlight.sane (h : InFlight reqs frames more x) (hans : ∀ f ∈ answers, WellFormed 0x81 f)
    (hcoming : x.received ++ later = answers.flatten) :
    reqbufGetSaneRequestSz ((bufGetReader x.srv.recvBuf).drop x.srv.recvOffset.toNat) 0x81
      ≠ -1 := by
  obtain ⟨hs, rfl, hmore⟩ := h.split_answers hans hcoming
  have hhs : ∀ f ∈ hs, WellFormed 0x81 f := fun f hf => hans f (List.mem_append_right _ hf)
  rw [h.newData]
  rcases (wireFraming 0x81).headCases hhs hmore with ⟨hzero, -⟩ | ⟨f, _, _, -, -, -, hsize⟩
  · have hzero : reqbufGetSaneRequestSz more 0x81 = 0 := hzero
    omega
  · have hsize : reqbufGetSaneRequestSz more 0x81 = f.length := hsize
    omega

theorem After.step (hreqs : ∀ f ∈ reqs, WellFormed 0x80 f) (h : After reqs x) {a : ClientAction}
    (hs : clientStep p x a = some (p', x')) :
    (∃ frames more, InFlight reqs frames more x) ∧ After reqs x' := by
  obtain ⟨frames, more, hflight | hend⟩ := h
  · exact ⟨⟨frames, more, hflight⟩, hflight.step hreqs ⟨p, a, p', hs⟩⟩
  · unfold clientStep at hs
    rw [hend.pc] at hs
    cases a <;> cases hs

/-- Benign actions and whole answers do not make a chain fail. -/
theorem Chain.unfailed (hreqs : ∀ f ∈ reqs, WellFormed 0x80 f)
    (hans : ∀ f ∈ answers, WellFormed 0x81 f) (h : Chain x as x') (hafter : After reqs x)
    (hfailed : x.failed = none) (hstart : x.pc = .doStart → x.srv = srv)
    (hbenign : ∀ a ∈ as, Benign srv a) (hgot : x.received ++ gotBytes as = answers.flatten) :
    x'.failed = none := by
  induction h with
  | nil x => exact hfailed
  | @cons p p' x x1 x' a as hs hchain ih =>
      obtain ⟨⟨frames, more, hflight⟩, hafter1⟩ := hafter.step hreqs hs
      obtain ⟨hsame, hpc⟩ := clientStep_failed hstart (hbenign a List.mem_cons_self)
        (hflight.sane hans hgot) hs
      refine ih hafter1 (hsame.trans hfailed) (fun hpc1 => absurd hpc1 hpc)
        (fun b hb => hbenign b (List.mem_cons_of_mem _ hb)) ?_
      rw [clientStep_received hs, List.append_assoc]
      exact hgot

/-- The answers of a server are in its `recv_buf`, and nothing else is. -/
theorem Chain.holds_answers (h : Prepared reqs srv) (hans : ∀ f ∈ answers, WellFormed 0x81 f)
    (hbenign : ∀ a ∈ as, Benign srv a) (hgot : gotBytes as = answers.flatten)
    (hchain : Chain { srv := srv } as x') (hdone : x'.pc = .done) :
    x'.srv.recvBuf.Holds answers.flatten ∧ Reset x'.srv := by
  have hfailed := hchain.unfailed h.wf hans ⟨[], [], .inl h.inFlight⟩ rfl (fun _ => rfl) hbenign
    hgot
  obtain ⟨frames, more, hflight | hend⟩ := h.after hchain.steps
  · exact absurd hdone hflight.pc
  · obtain ⟨-, -, hholds⟩ := hend.complete hfailed
    have hreceived : x'.received = answers.flatten := by
      rw [hchain.received, hgot]
      exact List.nil_append _
    rw [← hend.received, hreceived] at hholds
    exact ⟨hholds, hend.reset⟩

theorem After.inFlight (h : After reqs x) (hpc : x.pc ≠ .done) :
    ∃ frames more, InFlight reqs frames more x := by
  obtain ⟨frames, more, hflight | hend⟩ := h
  · exact ⟨frames, more, hflight⟩
  · exact absurd hend.pc hpc

end Answers

/-! ## There is always such a network

The simplest one sends everything at once and receives everything at once, one server
after another. -/

section Exists

variable {reqs answers : List Bytes} {srv : Backend}

theorem clientRun_cons {p p1 : Pool} {x x1 : Exchange} {a : ClientAction} {as : List ClientAction}
    (h : clientStep p x a = some (p1, x1)) : clientRun p x (a :: as) = clientRun p1 x1 as := by
  rw [clientRun, h]

/-- A run of actions that brings in the bytes `later` and then ends the chain. -/
def RunsOut (srv : Backend) (p : Pool) (x : Exchange) (later : Bytes) : Prop :=
  ∃ as p' x', clientRun p x as = some (p', x') ∧ x'.pc = .done ∧ gotBytes as = later ∧
    ∀ a ∈ as, Benign srv a

theorem RunsOut.cons {p p1 : Pool} {x x1 : Exchange} {a : ClientAction} {later later' : Bytes}
    (hs : clientStep p x a = some (p1, x1)) (ha : Benign srv a)
    (hlater : later = bytesGot a ++ later') (h : RunsOut srv p1 x1 later') :
    RunsOut srv p x later := by
  obtain ⟨as, p', x', hrun, hdone, hgot, hbenign⟩ := h
  refine ⟨a :: as, p', x', ?_, hdone, ?_, List.forall_mem_cons.mpr ⟨ha, hbenign⟩⟩
  · rw [clientRun_cons hs]
    exact hrun
  · rw [gotBytes, List.flatMap_cons, hlater, ← hgot]
    rfl

/-- From `swallow_next_request` to the end, given that the chain could also go
on from `do_read` as long as an answer is incomplete. -/
theorem runsOut_swallow (hreqs : ∀ f ∈ reqs, WellFormed 0x80 f)
    (hans : ∀ f ∈ answers, WellFormed 0x81 f) (hlen : answers.length = reqs.length) {later : Bytes}
    (hread : ∀ {p x frames more}, InFlight reqs frames more x → x.pc = .doRead → later ≠ [] →
      x.received ++ later = answers.flatten → RunsOut srv p x later) :
    ∀ (n : Nat) {p : Pool} {x : Exchange} {frames : List Bytes} {more : Bytes},
      InFlight reqs frames more x → x.pc = .swallowNextRequest → reqs.length ≤ frames.length + n →
      x.received ++ later = answers.flatten → RunsOut srv p x later := by
  intro n
  induction n with
  | zero =>
      intro p x frames more h _ hn _
      have hfew := h.few
      omega
  | succ n ih =>
      intro p x frames more h hpc hn hcoming
      obtain ⟨hs, hsplit, hmore⟩ := h.split_answers hans hcoming
      have hhs : ∀ f ∈ hs, WellFormed 0x81 f := fun f hf =>
        hans f (by rw [hsplit]; exact List.mem_append_right _ hf)
      have hcount : frames.length + hs.length = reqs.length := by
        rw [← hlen, hsplit, List.length_append]
      have hfew := h.few
      have hsane := h.sane hans hcoming
      have hstep : clientStep p x .run = doSwallow p x := by
        unfold clientStep
        rw [hpc]
      rw [h.newData] at hsane
      unfold doSwallow at hstep
      simp only [h.newData] at hstep
      rw [if_neg hsane] at hstep
      rcases (wireFraming 0x81).headCases hhs hmore with ⟨hzero, hpart⟩ |
        ⟨f, rest, more', hcons, hheld, hrest, hsize⟩
      · -- the next answer is not there in whole
        have hlater : later ≠ [] := by
          rintro rfl
          rw [List.append_nil] at hmore
          rcases hpart with ⟨rfl, -⟩ | ⟨f, rest, rfl, hlt⟩
          · rw [List.length_nil] at hcount
            omega
          · rw [hmore, List.flatten_cons, List.length_append] at hlt
            omega
        have hzero : reqbufGetSaneRequestSz more 0x81 = 0 := hzero
        rw [if_pos hzero] at hstep
        obtain ⟨frames1, more1, h1⟩ := (h.step hreqs ⟨p, .run, p, hstep⟩).inFlight nofun
        exact RunsOut.cons hstep trivial rfl (hread h1 rfl hlater hcoming)
      · have hpos := (wireFraming 0x81).length_pos (hhs f (by rw [hcons]; exact List.mem_cons_self))
        have hsize : reqbufGetSaneRequestSz more 0x81 = f.length := hsize
        rw [if_neg (by omega)] at hstep
        have hresp := h.responses
        have hreq := h.requests
        rw [hcons, List.length_cons] at hcount
        by_cases hlast : x.srv.responses + 1 = x.srv.requests
        · rw [if_pos hlast] at hstep
          have hnil : rest = [] := List.eq_nil_of_length_eq_zero (by omega)
          rw [hnil, List.flatten_nil] at hrest
          refine ⟨[.run], _, _, clientRun_cons hstep, rfl, ?_, ?_⟩
          · exact (List.append_eq_nil_iff.mp hrest).2.symm
          · intro a ha
            rw [List.mem_singleton.mp ha]
            exact trivial
        · rw [if_neg hlast] at hstep
          have hafter := h.step hreqs ⟨p, .run, p, hstep⟩
          obtain ⟨frames1, more1, h1⟩ := hafter.inFlight (by show x.pc ≠ _; exact h.pc)
          have hresp1 : x.srv.responses + 1 = frames1.length := h1.responses
          exact RunsOut.cons hstep trivial rfl (ih h1 hpc (by omega) hcoming)

/-- The answers arrive byte by byte. -/
theorem runsOut_read (hreqs : ∀ f ∈ reqs, WellFormed 0x80 f)
    (hans : ∀ f ∈ answers, WellFormed 0x81 f) (hlen : answers.length = reqs.length) :
    ∀ (later : Bytes) {p : Pool} {x : Exchange} {frames : List Bytes} {more : Bytes},
      InFlight reqs frames more x → x.pc = .doRead → later ≠ [] →
      x.received ++ later = answers.flatten → RunsOut srv p x later := by
  intro later
  induction later with
  | nil => intro p x frames more _ _ hne; exact absurd rfl hne
  | cons b later ih =>
      intro p x frames more h hpc _ hcoming
      have hroom := bufGetWriter_room p x.srv.recvBuf 65536
      have hstep : clientStep p x (.recv (.got [b])) = doRead p x (.got [b]) := by
        unfold clientStep
        rw [hpc]
      unfold doRead at hstep
      simp only [List.length_singleton] at hstep
      rw [if_pos ⟨List.cons_ne_nil _ _, by omega⟩, if_neg (by omega)] at hstep
      obtain ⟨frames1, more1, h1⟩ := (h.step hreqs ⟨p, _, _, hstep⟩).inFlight nofun
      refine RunsOut.cons hstep nofun rfl ?_
      refine runsOut_swallow hreqs hans hlen ih reqs.length h1 rfl (by omega) ?_
      show x.received ++ [b] ++ later = _
      rw [List.append_assoc]
      exact hcoming

theorem runsOut_write (hreqs : ∀ f ∈ reqs, WellFormed 0x80 f)
    (hans : ∀ f ∈ answers, WellFormed 0x81 f) (hlen : answers.length = reqs.length) {later : Bytes}
    {p : Pool} {x : Exchange} {frames : List Bytes} {more : Bytes}
    (h : InFlight reqs frames more x) (hpc : x.pc = .doWrite) (hlater : later ≠ [])
    (hcoming : x.received ++ later = answers.flatten) : RunsOut srv p x later := by
  obtain ⟨n, hn, hle, -⟩ := h.sendOffset
  have hleft : n ≠ reqs.flatten.length := by
    intro heq
    rcases h.reading.mpr (by omega) with hbad | hbad
    · rw [hpc] at hbad; cases hbad
    · rw [hpc] at hbad; cases hbad
  have hstep : clientStep p x (.send (.sent (reqs.flatten.length - n)))
      = doWrite p x (.sent (reqs.flatten.length - n)) := by
    unfold clientStep
    rw [hpc]
  unfold doWrite at hstep
  simp only [h.send.reader, hn, Int.toNat_natCast, List.length_drop] at hstep
  rw [if_pos (by omega)] at hstep
  obtain ⟨y, hy⟩ : ∃ y, doWritten x ((reqs.flatten.drop n).take (reqs.flatten.length - n))
      reqs.flatten.length = y := ⟨_, rfl⟩
  have hy1 : y.pc = .doRead := by
    rw [← hy, doWritten]
    simp only [hn, List.length_take, List.length_drop]
    rw [if_neg (by omega)]
  have hy2 : y.received = x.received := by rw [← hy, doWritten]
  rw [hy] at hstep
  obtain ⟨frames1, more1, h1⟩ := (h.step hreqs ⟨p, _, _, hstep⟩).inFlight (by rw [hy1]; exact nofun)
  refine RunsOut.cons hstep nofun rfl (runsOut_read hreqs hans hlen later h1 hy1 hlater ?_)
  rw [hy2]
  exact hcoming

/-- Whatever a server answers, there is a network that brings it. -/
theorem Prepared.runsOut (h : Prepared reqs srv) (hans : ∀ f ∈ answers, WellFormed 0x81 f)
    (hlen : answers.length = reqs.length) (p : Pool) :
    RunsOut srv p { srv := srv } answers.flatten := by
  have hflight := h.inFlight
  have hne : answers.flatten ≠ [] := by
    have hfew := hflight.few
    have hle := length_le_length_flatten fun f hf => (hans f hf).1
    intro hnil
    rw [hnil] at hle
    rw [List.length_nil] at hle hfew
    omega
  have hwrite : ∀ {x : Exchange}, After reqs x → x.pc = .doWrite → x.received = [] →
      RunsOut srv p x answers.flatten := by
    intro x hafter hpc hreceived
    obtain ⟨frames1, more1, h1⟩ := hafter.inFlight (by rw [hpc]; exact nofun)
    exact runsOut_write h.wf hans hlen h1 hpc hne (by rw [hreceived]; exact List.nil_append _)
  by_cases hsd : srv.sd < 0
  · have hstep : clientStep p { srv := srv } (.start (srv.nextRetry + 1) (some 0))
        = some (p, { pc := .doConnected, srv := { srv with sd := 0 } }) := by
      show doStart p { srv := srv } (srv.nextRetry + 1) (some 0) = _
      unfold doStart
      rw [if_pos hsd, if_neg (not_not.mpr (Int.lt_succ _))]
      rfl
    have hstep2 : clientStep p { pc := .doConnected, srv := { srv with sd := 0 } }
        (.connected true) = some (p, { pc := .doWrite, srv := { srv with sd := 0 } }) := rfl
    obtain ⟨frames1, more1, h1⟩ := (hflight.step h.wf ⟨p, _, _, hstep⟩).inFlight nofun
    refine RunsOut.cons hstep (.inr ⟨Int.lt_succ _, nofun⟩) rfl ?_
    exact RunsOut.cons hstep2 rfl rfl (hwrite (h1.step h.wf ⟨p, _, _, hstep2⟩) rfl rfl)
  · have hstep : clientStep p { srv := srv } (.start 0 none)
        = some (p, { pc := .doWrite, srv := srv }) := by
      show doStart p { srv := srv } 0 none = _
      unfold doStart
      rw [if_neg hsd]
    refine RunsOut.cons hstep (.inl (by omega)) rfl ?_
    exact hwrite (hflight.step h.wf ⟨p, _, _, hstep⟩) rfl rfl

/-- Events that are all for one server. -/
theorem serveEvents_own {ptr : Nat} : ∀ {as : List ClientAction} {p p' : Pool} {x x' : Exchange}
    {xs : Nat → Option Exchange} {rest : List Proxy.NetEvent}, xs ptr = some x →
    clientRun p x as = some (p', x') →
    Proxy.serveEvents p xs (as.map (fun a => ⟨ptr, a⟩) ++ rest)
      = Proxy.serveEvents p' (fun i => if i = ptr then some x' else xs i) rest := by
  intro as
  induction as with
  | nil =>
      intro p p' x x' xs rest hx h
      cases h
      have hsame : (fun i => if i = ptr then some x else xs i) = xs := by
        funext i
        split
        · next heq => rw [heq, hx]
        · rfl
      rw [hsame]
      rfl
  | cons a as ih =>
      intro p p' x x' xs rest hx h
      rw [clientRun] at h
      split at h
      · cases h
      · next p1 x1 hs =>
          have hsame : (fun i => if i = ptr then some x' else if i = ptr then some x1 else xs i)
              = fun i => if i = ptr then some x' else xs i := by
            funext i
            split
            · rfl
            · rfl
          rw [List.map_cons, List.cons_append, Proxy.serveEvents]
          simp only [hx, hs]
          rw [ih (if_pos rfl) h, hsame]

theorem actionsOf_append (net rest : List Proxy.NetEvent) (ptr : Nat) :
    actionsOf (net ++ rest) ptr = actionsOf net ptr ++ actionsOf rest ptr := by
  rw [actionsOf, List.filter_append, List.map_append]
  rfl

theorem actionsOf_own (as : List ClientAction) (ptr : Nat) :
    actionsOf (as.map fun a => ⟨ptr, a⟩) ptr = as := by
  induction as with
  | nil => rfl
  | cons a as ih =>
      rw [actionsOf] at ih
      rw [actionsOf, List.map_cons, List.filter_cons_of_pos (by simp), List.map_cons, ih]

theorem actionsOf_eq_nil {net : List Proxy.NetEvent} {ptr : Nat}
    (h : ∀ e ∈ net, e.server ≠ ptr) : actionsOf net ptr = [] := by
  rw [actionsOf, List.filter_eq_nil_iff.mpr (fun e he => by simpa using h e he), List.map_nil]

/-- One server after the other is a way to serve them all. -/
theorem exists_serving (want : Nat → Bytes) : ∀ {l : List Nat} (xs : Nat → Option Exchange)
    (p : Pool), l.Nodup →
    (∀ ptr ∈ l, ∃ srv, xs ptr = some { srv := srv } ∧
      ∀ p, RunsOut srv p { srv := srv } (want ptr)) →
    ∃ net p' xs', Proxy.serveEvents p xs net = some (p', xs') ∧
      (∀ ptr ∈ l, (xs' ptr).any (·.pc = .done) ∧ gotBytes (actionsOf net ptr) = want ptr) ∧
      (∀ ptr, ptr ∉ l → xs' ptr = xs ptr) ∧
      ∀ e ∈ net, e.server ∈ l ∧ ∀ srv, xs e.server = some { srv := srv } → Benign srv e.action := by
  intro l
  induction l with
  | nil => intro xs p _ _; exact ⟨[], p, xs, rfl, nofun, fun _ _ => rfl, nofun⟩
  | cons ptr l ih =>
      intro xs p hnodup h
      obtain ⟨hptr, hl⟩ := List.nodup_cons.mp hnodup
      obtain ⟨srv, hsrv, hrun⟩ := h ptr List.mem_cons_self
      obtain ⟨as, p1, x1, hrun, hdone, hgot, hbenign⟩ := hrun p
      have hne : ∀ i ∈ l, i ≠ ptr := fun i hi heq => hptr (heq ▸ hi)
      obtain ⟨net, p', xs', hserve, hin, hout, hnet⟩ := ih
        (fun i => if i = ptr then some x1 else xs i) p1 hl (by
          intro i hi
          rw [if_neg (hne i hi)]
          exact h i (List.mem_cons_of_mem _ hi))
      have hskip : actionsOf net ptr = [] :=
        actionsOf_eq_nil fun e he => hne e.server (hnet e he).1
      refine ⟨as.map (fun a => ⟨ptr, a⟩) ++ net, p', xs', ?_, ?_, ?_, ?_⟩
      · rw [serveEvents_own hsrv hrun]
        exact hserve
      · intro i hi
        rw [actionsOf_append]
        rcases List.mem_cons.mp hi with rfl | hi
        · rw [hout i hptr, if_pos rfl, hskip, actionsOf_own, List.append_nil]
          exact ⟨by simp [hdone], hgot⟩
        · have hother : actionsOf (as.map fun a => ⟨ptr, a⟩) i = [] := by
            refine actionsOf_eq_nil fun e he => ?_
            obtain ⟨a, -, rfl⟩ := List.mem_map.mp he
            exact (hne i hi).symm
          rw [hother, List.nil_append]
          exact hin i hi
      · intro i hi
        rw [List.mem_cons, not_or] at hi
        rw [hout i hi.2, if_neg hi.1]
      · intro e he
        rcases List.mem_append.mp he with he | he
        · obtain ⟨a, ha, rfl⟩ := List.mem_map.mp he
          refine ⟨List.mem_cons_self, fun srv' hsrv' => ?_⟩
          rw [hsrv] at hsrv'
          cases hsrv'
          exact hbenign a ha
        · obtain ⟨hmem, hben⟩ := hnet e he
          rw [if_neg (hne _ hmem)] at hben
          exact ⟨List.mem_cons_of_mem _ hmem, hben⟩

end Exists

/-! ## The servers of a batch

From the list of the servers that were given requests: each is updated, the others stay
as they are. -/

/-- The backends in `l` have changed as `R` says, and nothing else has. -/
structure Updated (l : List Nat) (R : Nat → Backend → Backend → Prop) (w w' : ProxyWorld) :
    Prop where
  servers : w'.servers = w.servers
  resBuf : w'.resBuf = w.resBuf
  inside : ∀ ptr ∈ l, ∃ b b', w.backends ptr = some b ∧ w'.backends ptr = some b' ∧ R ptr b b'
  outside : ∀ ptr, ptr ∉ l → w'.backends ptr = w.backends ptr

/-- A backend has been given the NOOP. -/
def WithNoop (b b' : Backend) : Prop :=
  ∃ sb, b' = { b with sendBuf := sb, requests := b.requests + 1 } ∧
    ∀ bs, b.sendBuf.Holds bs → sb.Holds (bs ++ noop)

/-- Its chain of callbacks has run. -/
def Served (net : List Proxy.NetEvent) (ptr : Nat) (b b' : Backend) : Prop :=
  ∃ x, Chain { srv := b } (actionsOf net ptr) x ∧ x.pc = .done ∧ b' = x.srv

/-- The response to the NOOP has been dropped. -/
def WithoutNoop (b b' : Backend) : Prop :=
  b' = { b with recvBuf := bufRollbackProduced b.recvBuf noop.length }

section Servers

variable {l : List Nat} {w w1 w' : ProxyWorld} {p p' : Pool}

theorem Updated.head {R : Nat → Backend → Backend → Prop} {ptr : Nat} {b b' : Backend}
    (hb : w.backends ptr = some b) (hR : R ptr b b') (hptr : ptr ∉ l)
    (h : Updated l R (w.setBackend ptr (some b')) w') : Updated (ptr :: l) R w w' := by
  have hother : ∀ i, i ≠ ptr → (w.setBackend ptr (some b')).backends i = w.backends i :=
    fun i hi => if_neg hi
  refine ⟨h.servers, h.resBuf, fun i hi => ?_, fun i hi => ?_⟩
  · rcases List.mem_cons.mp hi with rfl | hi
    · refine ⟨b, b', hb, ?_, hR⟩
      rw [h.outside i hptr]
      exact if_pos rfl
    · have hne : i ≠ ptr := fun heq => hptr (heq ▸ hi)
      rw [← hother i hne]
      exact h.inside i hi
  · rw [List.mem_cons, not_or] at hi
    rw [h.outside i hi.2, hother i hi.1]

theorem Updated.trans {R S : Nat → Backend → Backend → Prop} (h : Updated l R w w1)
    (h' : Updated l S w1 w') :
    Updated l (fun ptr b b' => ∃ b1, R ptr b b1 ∧ S ptr b1 b') w w' := by
  refine ⟨h'.servers.trans h.servers, h'.resBuf.trans h.resBuf, fun ptr hptr => ?_,
    fun ptr hptr => (h'.outside ptr hptr).trans (h.outside ptr hptr)⟩
  obtain ⟨b, b1, hb, hb1, hR⟩ := h.inside ptr hptr
  obtain ⟨b1', b', hb1', hb', hS⟩ := h'.inside ptr hptr
  rw [hb1] at hb1'
  cases hb1'
  exact ⟨b, b', hb, hb', b1, hR, hS⟩

theorem appendNoops_updated : ∀ {l : List Nat} {p : Pool} {w : ProxyWorld}, l.Nodup →
    (∀ ptr ∈ l, ∃ b, w.backends ptr = some b) →
    ∃ p' w', Proxy.appendNoops l p w = some (p', w') ∧ Updated l (fun _ => WithNoop) w w' := by
  intro l
  induction l with
  | nil => intro p w _ _; exact ⟨p, w, rfl, ⟨rfl, rfl, nofun, fun _ _ => rfl⟩⟩
  | cons ptr l ih =>
      intro p w hnodup h
      obtain ⟨hptr, hl⟩ := List.nodup_cons.mp hnodup
      obtain ⟨b, hb⟩ := h ptr List.mem_cons_self
      obtain ⟨p', w', hrest, hupd⟩ := ih (p := (bufGetWriter p b.sendBuf noop.length).1)
        (w := w.setBackend ptr (some { b with
          sendBuf := bufProduce (bufGetWriter p b.sendBuf noop.length).2.1 noop
          requests := b.requests + 1 })) hl (by
            intro i hi
            have hne : i ≠ ptr := fun heq => hptr (heq ▸ hi)
            obtain ⟨bi, hbi⟩ := h i (List.mem_cons_of_mem _ hi)
            exact ⟨bi, (if_neg hne).trans hbi⟩)
      refine ⟨p', w', ?_, hupd.head hb ⟨_, rfl, fun bs hbs => ?_⟩ hptr⟩
      · rw [Proxy.appendNoops, hb]
        exact hrest
      · exact bufProduce_holds (bufGetWriter_holds hbs p noop.length) noop

theorem popNoops_updated : ∀ {l : List Nat} {w : ProxyWorld}, l.Nodup →
    (∀ ptr ∈ l, ∃ b, w.backends ptr = some b) →
    ∃ w', Proxy.popNoops l w = some w' ∧ Updated l (fun _ => WithoutNoop) w w' := by
  intro l
  induction l with
  | nil => intro w _ _; exact ⟨w, rfl, ⟨rfl, rfl, nofun, fun _ _ => rfl⟩⟩
  | cons ptr l ih =>
      intro w hnodup h
      obtain ⟨hptr, hl⟩ := List.nodup_cons.mp hnodup
      obtain ⟨b, hb⟩ := h ptr List.mem_cons_self
      obtain ⟨w', hrest, hupd⟩ := ih
        (w := w.setBackend ptr (some { b with
          recvBuf := bufRollbackProduced b.recvBuf noop.length })) hl (by
            intro i hi
            have hne : i ≠ ptr := fun heq => hptr (heq ▸ hi)
            obtain ⟨bi, hbi⟩ := h i (List.mem_cons_of_mem _ hi)
            exact ⟨bi, (if_neg hne).trans hbi⟩)
      refine ⟨w', ?_, hupd.head hb rfl hptr⟩
      rw [Proxy.popNoops, hb]
      exact hrest

theorem processMemcache_updated {net : List Proxy.NetEvent}
    (hb : ∀ ptr ∈ l, ∃ b, w.backends ptr = some b)
    (h : Proxy.processMemcache net l p w = some (p', w')) : Updated l (Served net) w w' := by
  unfold Proxy.processMemcache at h
  split at h
  · cases h
  · next p1 xs hserve =>
      split at h
      · next hall =>
          cases h
          refine ⟨rfl, rfl, fun ptr hptr => ?_, fun ptr hptr => ?_⟩
          · obtain ⟨b, hb⟩ := hb ptr hptr
            have hstart : Proxy.startExchanges l w ptr = some { srv := b } := by
              rw [Proxy.startExchanges, if_pos hptr, hb]
              rfl
            obtain ⟨x, hx, hchain⟩ := (serveEvents_chain hserve ptr).2 _ hstart
            have hdone := List.all_eq_true.mp hall ptr hptr
            rw [hx] at hdone
            refine ⟨b, x.srv, hb, ?_, x, hchain, by simpa using hdone, rfl⟩
            show ((xs ptr).map (·.srv)).or (w.backends ptr) = _
            rw [hx]
            rfl
          · have hstart : Proxy.startExchanges l w ptr = none := by
              rw [Proxy.startExchanges, if_neg hptr]
            show ((xs ptr).map (·.srv)).or (w.backends ptr) = _
            rw [(serveEvents_chain hserve ptr).1 hstart]
            rfl
      · cases h

end Servers

end Smalltable.Proofs
