import Mathlib.Data.List.DropRight
import Smalltable.Proofs.Exchange
import Smalltable.Proofs.Segmentation
import Smalltable.Ref.Link

/-!
# When the proxy and a server wait for each other

The proxy writes all its requests before it reads anything, and the server does
not read while its own output waits. If the queues between them are small, both
can wait forever. What it takes is that the server has answered, from the bytes
it can have got while the proxy is still writing, more than the queue back to
the proxy holds.

The server sees the requests as a stream that has been cut anywhere. It answers
up to a request that is loud, or to any request once `MAX_REQUEST_SIZE` bytes
are there (`Along.handed`), and this is what makes `answerable` small for the
batches the proxy collects from quiet requests.

From when on the proxy reads, the invariant says nothing more. It has nothing left to
write then, so a server that waits for room in the queue gets it.
-/

namespace Smalltable.Proofs

open Smalltable.Ref Smalltable.Spec Relation

/-! ## What can have been answered

Only requests that have arrived as a whole can be answered, and the last of those that
are answered is loud, unless there was enough data. Whatever the server has answered so
far is in `answerable` of what it has received. -/

/-- The requests that lie in the first `n` bytes of a stream. -/
def wholeIn : Nat → List Bytes → List Bytes
  | _, [] => []
  | n, f :: fs => if f.length ≤ n then f :: wholeIn (n - f.length) fs else []

/-- Those of them that may have been answered when no more has been received. -/
def answerable (n : Nat) (fs : List Bytes) : List Bytes :=
  if n < maxRequestSize then (wholeIn n fs).rdropWhile fun f => flagQuiet (mcGetReserved f)
  else wholeIn n fs

theorem prefix_wholeIn : ∀ {n : Nat} {fs gs : List Bytes}, gs <+: fs → gs.flatten.length ≤ n →
    gs <+: wholeIn n fs := by
  intro n fs
  induction fs generalizing n with
  | nil =>
      intro gs hgs _
      rw [List.prefix_nil.mp hgs]
      exact List.nil_prefix
  | cons f fs ih =>
      intro gs hgs hlen
      cases gs with
      | nil => exact List.nil_prefix
      | cons g gs =>
          obtain ⟨rfl, htail⟩ := List.cons_prefix_cons.mp hgs
          rw [List.flatten_cons, List.length_append] at hlen
          rw [wholeIn, if_pos (by omega)]
          exact List.cons_prefix_cons.mpr ⟨rfl, ih htail (by omega)⟩

theorem wholeIn_isPrefix : ∀ (n : Nat) (fs : List Bytes), wholeIn n fs <+: fs := by
  intro n fs
  induction fs generalizing n with
  | nil => exact List.nil_prefix
  | cons f fs ih =>
      rw [wholeIn]
      split
      · exact List.cons_prefix_cons.mpr ⟨rfl, ih _⟩
      · exact List.nil_prefix

theorem answerable_isPrefix (n : Nat) (fs : List Bytes) : answerable n fs <+: fs := by
  rw [answerable]
  split
  · exact (List.rdropWhile_prefix _ _).trans (wholeIn_isPrefix n fs)
  · exact wholeIn_isPrefix n fs

/-- A beginning whose last element stays is not cut. -/
theorem prefix_rdropWhile {α : Type} {q : α → Bool} {gs l : List α} (h : gs <+: l)
    (hlast : ∀ a ∈ gs.getLast?, ¬ q a = true) : gs <+: l.rdropWhile q := by
  obtain ⟨t, rfl⟩ := h
  induction t using List.reverseRecOn with
  | nil =>
      have hself : gs.rdropWhile q = gs :=
        List.rdropWhile_eq_self_iff.mpr fun hne => hlast _ (List.getLast?_eq_some_getLast hne)
      simp only [List.append_nil, hself, List.prefix_rfl]
  | append_singleton t x ih =>
      rw [← List.append_assoc, List.rdropWhile_concat]
      split
      · exact ih
      · rw [List.append_assoc]
        exact List.prefix_append _ _

theorem prefix_answerable {n received : Nat} {fs done : List Bytes} (hdone : done <+: fs)
    (hlen : done.flatten.length ≤ n) (hreceived : received ≤ n)
    (hhanded : HandedOver done received) : done <+: answerable n fs := by
  have hwhole := prefix_wholeIn hdone hlen
  rw [answerable]
  split
  · rcases hhanded with hlast | hmax
    · exact prefix_rdropWhile hwhole (by simpa using hlast)
    · omega
  · exact hwhole

/-! ## The invariant

It is about the time in which the proxy writes. What the server has received is what the
proxy has sent and is not in the queue, and everything it has sent is in the queue back.
-/

section Link

variable {ω : Type} {processMulti : ω → Io → Bytes → Option (ω × Io × Int)} {S : Service ω}
  {reqs : List Bytes} {capServer capProxy : Nat}

/-- `process_multi` serves whatever of the stream it may be handed, with output
that may still be waiting from before. -/
def Answering (processMulti : ω → Io → Bytes → Option (ω × Io × Int)) (S : Service ω)
    (reqs : List Bytes) : Prop :=
  ∀ w io done batch out, batch ≠ [] → done ++ batch <+: reqs → io.sendBuf.Holds out →
    out <:+ S.answer done → Handles processMulti S w io done batch

/-- The proxy has prepared `reqs` and the server is at rest. -/
structure LinkReady (S : Service ω) (reqs : List Bytes) (s : Link ω) : Prop where
  exchange : ∃ srv, Prepared reqs srv ∧ s.exchange = { srv := srv }
  pc : s.conn.pc = .eventLoop
  mode : s.conn.mode = .onlyRead
  off : s.conn.quietRecvOff = 0
  requests : s.conn.io.requests = 0
  recv : s.conn.io.recvBuf.Holds []
  send : s.conn.io.sendBuf.Holds []
  input : s.conn.input = []
  sent : s.conn.sent = []
  toProxy : s.toProxy = []
  world : S.world [] s.conn.world
  answer : S.answer [] = []

/-- Before the proxy has written everything it has read nothing, and the server
is somewhere along the stream. -/
structure Writing (S : Service ω) (reqs : List Bytes) (s : Link ω) : Prop where
  flight : InFlight reqs [] [] s.exchange
  along : ∃ done pend rest more out, Along S reqs (reqs.flatten.drop s.exchange.sent.length)
    s.conn done pend rest more out
  toProxy : s.toProxy = s.conn.sent

/-- The invariant: it says nothing of a proxy that has begun to read. -/
def LinkInv (S : Service ω) (reqs : List Bytes) (s : Link ω) : Prop :=
  s.exchange.pc ≠ .doRead → s.exchange.pc ≠ .swallowNextRequest → s.exchange.pc ≠ .done →
    Writing S reqs s

theorem LinkReady.inv {s : Link ω} (h : LinkReady S reqs s) : LinkInv S reqs s := by
  intro _ _ _
  obtain ⟨srv, hprep, hx⟩ := h.exchange
  refine ⟨?_, ⟨[], [], reqs, [], [], rfl, h.world, h.recv, ?_, h.off, h.requests, nofun, .inl nofun,
    h.send, ?_, ?_⟩, h.toProxy.trans h.sent.symm⟩
  · rw [hx]
    exact hprep.inFlight
  · rw [h.input, hx]
    rfl
  · rw [h.sent, h.answer]
    rfl
  · rw [h.pc, h.mode]
    exact ⟨rfl, rfl⟩

/-! ## A step of the proxy

It puts more of the requests into the queue, or has written all of them and begins to
read. -/

/-- A step after which the proxy still writes was one of writing. -/
theorem clientStep_writing {p p' : Pool} {x x' : Exchange} {a : ClientAction}
    (h : clientStep p x a = some (p', x')) (h1 : x'.pc ≠ .doRead)
    (h2 : x'.pc ≠ .swallowNextRequest) (h3 : x'.pc ≠ .done) :
    x.pc ≠ .doRead ∧ x.pc ≠ .swallowNextRequest ∧ x.pc ≠ .done ∧ x.sent <+: x'.sent ∧
      takenByProxy a = 0 ∧ x'.received = x.received := by
  unfold clientStep at h
  split at h
  · next hpc =>
      rw [hpc]
      refine ⟨nofun, nofun, nofun, ?_⟩
      unfold doStart at h
      split at h
      · split at h
        · exact absurd (doError_pc h) h3
        · split at h
          · exact absurd (doError_pc h) h3
          · cases h
            exact ⟨List.prefix_refl _, rfl, rfl⟩
      · cases h
        exact ⟨List.prefix_refl _, rfl, rfl⟩
  · next hpc =>
      rw [hpc]
      refine ⟨nofun, nofun, nofun, ?_⟩
      unfold doConnected at h
      split at h
      · cases h
        exact ⟨List.prefix_refl _, rfl, rfl⟩
      · exact absurd (doError_pc h) h3
  · next hpc =>
      rw [hpc]
      refine ⟨nofun, nofun, nofun, ?_⟩
      unfold doWrite at h
      simp only [] at h
      split at h
      · split at h
        · cases h
          exact ⟨List.prefix_append _ _, rfl, rfl⟩
        · cases h
      · cases h
        exact ⟨List.prefix_append _ _, rfl, rfl⟩
      · exact absurd (doError_pc h) h3
  · unfold doRead at h
    simp only [] at h
    split at h
    · split at h
      · cases h
        simp only [ne_eq] at h1 h2
        split at h1
        · exact absurd rfl h1
        · next hne =>
            rw [if_neg hne] at h2
            exact absurd rfl h2
      · cases h
    · cases h
      simp only [ne_eq] at h1 h2
      split at h1
      · exact absurd rfl h1
      · next hne =>
          rw [if_neg hne] at h2
          exact absurd rfl h2
    · exact absurd (doError_pc h) h3
  · next hpc =>
      unfold doSwallow at h
      simp only [] at h
      split at h
      · exact absurd (doError_pc h) h3
      · split at h
        · cases h
          exact absurd rfl h1
        · split at h
          · cases h
            exact absurd rfl h3
          · cases h
            exact absurd hpc h2
  · cases h

/-- Bytes that the proxy sends are on their way to the server. -/
theorem Along.arrive {fs done pend rest : List Bytes} {bs coming more out : Bytes} {c : Conn ω}
    (h : Along S fs (bs ++ coming) c done pend rest more out) :
    Along S fs coming { c with input := c.input ++ bs } done pend rest more out := by
  refine ⟨h.split, h.world, h.held, ?_, h.off, h.count, h.quiet, h.handed, h.send, h.sent,
    h.point⟩
  show more ++ (c.input ++ bs ++ coming) = _
  rw [List.append_assoc c.input]
  exact h.coming

theorem LinkInv.step_proxy {s : Link ω} {p' : Pool} {x' : Exchange} {a : ClientAction}
    (hreqs : ∀ f ∈ reqs, WellFormed 0x80 f) (h : LinkInv S reqs s)
    (hs : clientStep s.pool s.exchange a = some (p', x')) :
    LinkInv S reqs { s with
      pool := p'
      exchange := x'
      conn := { s.conn with input := s.conn.input ++ x'.sent.drop s.exchange.sent.length }
      toProxy := s.toProxy.drop (takenByProxy a) } := by
  intro h1 h2 h3
  obtain ⟨g1, g2, g3, hsent, htaken, hreceived⟩ := clientStep_writing hs h1 h2 h3
  have hw := h g1 g2 g3
  have hflight : InFlight reqs [] [] x' := by
    obtain ⟨frames, more, hend⟩ := hw.flight.step hreqs ⟨_, _, _, hs⟩
    rcases hend with hflight | hend
    · have hnil := hflight.received
      rw [hreceived, hw.flight.received] at hnil
      obtain ⟨hframes, rfl⟩ := List.append_eq_nil_iff.mp hnil.symm
      have hle := length_le_length_flatten fun f hf => (hflight.wf f hf).1
      rw [hframes, List.length_nil] at hle
      rw [List.eq_nil_of_length_eq_zero (Nat.le_zero.mp hle)] at hflight
      exact hflight
    · exact absurd hend.pc h3
  refine ⟨hflight, ?_, ?_⟩
  · obtain ⟨done, pend, rest, more, out, halong⟩ := hw.along
    refine ⟨done, pend, rest, more, out, Along.arrive ?_⟩
    obtain ⟨bs, hbs⟩ := hsent
    obtain ⟨n, -, hn, hx⟩ := hw.flight.sendOffset
    obtain ⟨n', -, hn', hx'⟩ := hflight.sendOffset
    have hlen : s.exchange.sent.length = n := by rw [hx, List.length_take]; omega
    have hlen' : x'.sent.length = n' := by rw [hx', List.length_take]; omega
    have hcoming : x'.sent.drop s.exchange.sent.length ++ reqs.flatten.drop x'.sent.length
        = reqs.flatten.drop s.exchange.sent.length := by
      have hle : n ≤ n' := by
        rw [← hlen, ← hlen', ← hbs, List.length_append]
        omega
      have hdrop : reqs.flatten.drop n' = (reqs.flatten.drop n).drop (n' - n) := by
        rw [List.drop_drop, Nat.add_sub_of_le hle]
      rw [hlen, hlen', hx', List.drop_take, hdrop]
      exact List.take_append_drop _ _
    rw [hcoming]
    exact halong
  · show s.toProxy.drop (takenByProxy a) = s.conn.sent
    rw [htaken, List.drop_zero]
    exact hw.toProxy

/-! ## A step of the server

The server takes what is in the queue to it and puts answers into the queue back, as far
as there is room. -/

theorem connStep_sent {c c' : Conn ω} {a : ConnAction} (h : connStep processMulti c a = some c') :
    c.sent <+: c'.sent := by
  rcases connStep_cases _ h with ⟨-, -, rfl⟩ | ⟨r, -, -, hr⟩ | ⟨written, -, -, hr⟩ |
    ⟨r, -, -, hr⟩ | ⟨-, -, -, rfl⟩
  · exact List.prefix_refl _
  · unfold connRetryRecv at hr
    simp only [] at hr
    split at hr
    · split at hr
      · cases hr; exact List.prefix_refl _
      · cases hr
    · cases hr; exact List.prefix_refl _
    · cases hr; exact List.prefix_refl _
    · cases hr; exact List.prefix_refl _
  · unfold connSwallow connProcess at hr
    simp only [] at hr
    split at hr
    · cases hr; exact List.prefix_refl _
    · split at hr
      · cases hr; exact List.prefix_refl _
      · split at hr
        · cases hr; exact List.prefix_refl _
        · split at hr
          · cases hr
          · cases hr; exact List.prefix_refl _
  · unfold connSend at hr
    simp only [] at hr
    split at hr
    · cases hr
    · split at hr
      · split at hr
        · cases hr
          unfold connAfterSend
          split
          · exact List.prefix_append _ _
          · exact List.prefix_append _ _
        · cases hr
      · cases hr
        exact List.prefix_refl _
      · cases hr; exact List.prefix_refl _
  · unfold connAfterSend
    exact List.prefix_refl _

theorem linkAllows_open {s : Link ω} {a : ConnAction}
    (h : linkAllows capServer capProxy s (.server a) = true) : ConnAction.Open a := by
  cases a with
  | event => trivial
  | recv r =>
      cases r with
      | got n => trivial
      | again => trivial
      | eof => cases h
      | error => cases h
  | send r =>
      cases r with
      | sent n => trivial
      | again => trivial
      | error => cases h
  | run => trivial

theorem LinkInv.step {s s' : Link ω} {a : LinkAction} (hreqs : ∀ f ∈ reqs, WellFormed 0x80 f)
    (hserve : Answering processMulti S reqs) (h : LinkInv S reqs s)
    (hs : linkStep processMulti capServer capProxy s a = some s') : LinkInv S reqs s' := by
  unfold linkStep at hs
  split at hs
  · next hallow =>
      cases a with
      | proxy a =>
          simp only [] at hs
          split at hs
          · cases hs
          · next p' x' hx =>
              cases hs
              exact h.step_proxy hreqs hx
      | server a =>
          simp only [] at hs
          split at hs
          · cases hs
          · next c' hc =>
              cases hs
              intro h1 h2 h3
              have hw := h h1 h2 h3
              obtain ⟨done, pend, rest, more, out, halong⟩ := hw.along
              have hhandles : ∀ batch, batch ≠ [] → done ++ batch <+: reqs →
                  HandsOver s.conn batch.flatten → Handles processMulti S s.conn.world
                    { s.conn.io with requests := s.conn.io.requests + 1 } done batch :=
                fun batch hne hbatch _ => hserve s.conn.world _ done batch out hne hbatch
                  halong.send ⟨s.conn.sent, halong.sent⟩
              refine ⟨hw.flight, halong.step hreqs hhandles (linkAllows_open hallow) hc, ?_⟩
              obtain ⟨new, hnew⟩ := connStep_sent hc
              show s.toProxy ++ c'.sent.drop s.conn.sent.length = c'.sent
              rw [← hnew, List.drop_left, hw.toProxy]
  · cases hs

/-! ## No deadlock

In a deadlock both queues are full and both sides want to write. Then the server has
answered more than the queue back holds. But it has received no more than the requests
without those that fill the queue to it, and what it can have answered of these is
`answerable`. -/

/-- A state the two ends can get to. -/
def LinkStep (processMulti : ω → Io → Bytes → Option (ω × Io × Int)) (capServer capProxy : Nat)
    (s s' : Link ω) : Prop :=
  ∃ a, linkStep processMulti capServer capProxy s a = some s'

/-- What it takes for both to wait. -/
theorem Writing.deadlocked {s : Link ω} (hserve : Answering processMulti S reqs)
    (h : Writing S reqs s) (hdead : Deadlocked capServer capProxy s) :
    capProxy
      < (S.answer (answerable (reqs.flatten.length - capServer - 1) reqs)).length := by
  obtain ⟨done, pend, rest, more, out, halong⟩ := h.along
  -- the proxy has not written everything
  have hleft : s.exchange.sent.length < reqs.flatten.length := by
    obtain ⟨n, hn, hle, hsent⟩ := h.flight.sendOffset
    have hne : n ≠ reqs.flatten.length := by
      intro heq
      rcases h.flight.reading.mpr (by omega) with hbad | hbad
      · rw [hdead.proxy] at hbad; cases hbad
      · rw [hdead.proxy] at hbad; cases hbad
    rw [hsent, List.length_take]
    omega
  -- so the server has received at most this much
  have hreceived : ((done ++ pend).flatten ++ more).length
      ≤ reqs.flatten.length - capServer - 1 := by
    have hcoming := congrArg List.length halong.coming
    have htotal := congrArg (fun l => (List.flatten l).length) halong.split
    simp only [List.flatten_append, List.length_append, List.length_drop] at hcoming htotal ⊢
    have hfull := hdead.fullToServer
    omega
  have hdone : done <+: reqs := by
    rw [halong.split, List.append_assoc]
    exact List.prefix_append _ _
  have hbytes : done.flatten.length ≤ reqs.flatten.length - capServer - 1 := by
    rw [List.flatten_append, List.length_append, List.length_append] at hreceived
    omega
  obtain ⟨extra, hextra⟩ := prefix_answerable hdone hbytes hreceived halong.handed
  -- its answers fill the queue, and some are left
  have hanswer := congrArg List.length halong.sent
  have hout : 0 < out.length := by
    rw [← halong.send.reader]
    exact List.length_pos_iff.mpr hdead.unsent
  have hfull := hdead.fullToProxy
  rw [h.toProxy] at hfull
  rw [List.length_append] at hanswer
  rw [← hextra]
  by_cases hnil : extra = []
  · rw [hnil, List.append_nil]
    omega
  · have hprefix : done ++ extra <+: reqs := by
      rw [hextra]
      exact answerable_isPrefix _ _
    obtain ⟨_, _, new, -, -, hnew, -⟩ := hserve s.conn.world s.conn.io done extra out hnil hprefix
      halong.send ⟨s.conn.sent, halong.sent⟩ out halong.send halong.world
    rw [hnew, List.length_append]
    omega

/-- The proxy and the server never wait for each other, if the queue to the
proxy has room for all the server can have answered while the proxy is still
writing. -/
theorem link_noDeadlock {s0 : Link ω} (hready : LinkReady S reqs s0)
    (hserve : Answering processMulti S reqs)
    (hroom : (S.answer (answerable (reqs.flatten.length - capServer - 1) reqs)).length ≤ capProxy)
    {s : Link ω} (hrun : ReflTransGen (LinkStep processMulti capServer capProxy) s0 s) :
    ¬ Deadlocked capServer capProxy s := by
  obtain ⟨srv, hprep, -⟩ := hready.exchange
  have hinv : LinkInv S reqs s := by
    refine run_invariant (P := LinkInv S reqs) ?_ hready.inv hrun
    rintro s s' h ⟨a, hs⟩
    exact h.step hprep.wf hserve hs
  intro hdead
  have hpc := hdead.proxy
  have hw : Writing S reqs s := by
    refine hinv ?_ ?_ ?_
    · rw [hpc]; exact nofun
    · rw [hpc]; exact nofun
    · rw [hpc]; exact nofun
  have hlt := hw.deadlocked hserve hdead
  omega

end Link

/-! ## The server's data commands

The server of the other modules is one such service. The run at the end has queues that
are too small for it, and stops in a deadlock. -/

/-- As long as the answers to the whole stream stay below the limit, the
server's `process_multi` is one that answers. -/
theorem answering_data {σ γ : Type} (eng : MapEngine σ) (vx : Vx γ) (cfg : Config γ)
    (start : State) {reqs : List Bytes} (hdata : ∀ f ∈ reqs, DataRequest f)
    (hsmall : ((dataService (γ := γ) eng start).answer reqs).length < outputLimit) :
    Answering (processMulti eng.toStStorageApi vx cfg) (dataService eng start) reqs := by
  intro w io done batch out hne hbatch hout hsuffix
  have hdata' : ∀ f ∈ batch, DataRequest f := fun f hf =>
    hdata f (hbatch.subset (List.mem_append_right _ hf))
  refine handles_data eng vx cfg hne hdata' fun out' hout' _ => batchRun_eq_serveRun ?_
  have hsame : out' = out := hout'.reader.symm.trans hout.reader
  obtain ⟨rest, hrest⟩ := hbatch
  have hle := hsuffix.length_le
  have happ := serveRun_append nextCas start (done.map unpackRequest) (batch.map unpackRequest)
  have happ' := serveRun_append nextCas start ((done ++ batch).map unpackRequest)
    (rest.map unpackRequest)
  rw [← List.map_append] at happ happ'
  simp only [dataService] at hsmall hle
  rw [← hrest, happ', bytesOf_append, happ, bytesOf_append, List.length_append,
    List.length_append] at hsmall
  rw [hsame]
  omega

/-- A connected proxy with a GET and its NOOP, and a server with an empty store. -/
def getLink : Link (World (Bytes → Option Bytes) Unit) :=
  { exchange := { srv := { getAndNoop with sd := 3 } }, conn := connNew freshWorld 0 [] [] }

/-- The server of the other modules, with nothing stored. -/
def emptyService : Service (World (Bytes → Option Bytes) Unit) :=
  dataService mapEngine ⟨fun _ => none, 0⟩

theorem getLink_ready : LinkReady emptyService [getRequest "a", noop] getLink := by
  refine ⟨⟨_, ⟨by decide, ⟨[getRequest "a"], rfl⟩, ?_, Buffer.holds_empty, rfl, rfl, rfl,
      rfl⟩, rfl⟩,
    rfl, rfl, rfl, rfl, Buffer.holds_empty, Buffer.holds_empty, rfl, rfl, rfl, ?_, rfl⟩
  · exact bufProduce_holds (bufGetWriter_holds Buffer.holds_empty [] 0) _
  · exact ⟨World.inv_start _, represents_empty, rfl⟩

/-- The answer to the GET is 37 bytes long, and a queue with room for it is
enough. -/
theorem link_noDeadlock_get :
    LinkReady emptyService [getRequest "a", noop] getLink ∧
    Answering (processMulti mapEngine.toStStorageApi idleVx plainConfig) emptyService
      [getRequest "a", noop] ∧
    ∀ s, ReflTransGen (LinkStep (processMulti mapEngine.toStStorageApi idleVx plainConfig) 13 37)
      getLink s → ¬ Deadlocked 13 37 s := by
  have hserve : Answering (processMulti mapEngine.toStStorageApi idleVx plainConfig) emptyService
      [getRequest "a", noop] :=
    answering_data mapEngine idleVx plainConfig ⟨fun _ => none, 0⟩ (by decide) (by decide)
  exact ⟨getLink_ready, hserve, fun s hrun => link_noDeadlock getLink_ready hserve (by decide) hrun⟩

/-- The GET is through and its answer is stuck after the first byte. -/
def deadlockRun : List LinkAction :=
  [.proxy (.start 0 none), .proxy (.send (.sent 13)), .server .event, .server (.recv (.got 13)),
   .server .run, .proxy (.send (.sent 13)), .server .event, .server (.recv (.got 13)),
   .server .run, .server .run, .server (.send (.sent 1)), .proxy (.send (.sent 13))]

theorem linkRun_steps {ω : Type} {processMulti : ω → Io → Bytes → Option (ω × Io × Int)}
    {capServer capProxy : Nat} : ∀ (as : List LinkAction) {s s' : Link ω},
    linkRun processMulti capServer capProxy s as = some s' →
      ReflTransGen (LinkStep processMulti capServer capProxy) s s' := by
  intro as
  induction as with
  | nil => intro s s' h; cases h; exact .refl
  | cons a rest ih =>
      intro s s' h
      rw [linkRun] at h
      split at h
      · cases h
      · next s1 hs => exact ReflTransGen.head ⟨a, hs⟩ (ih h)

instance {ω : Type} (capServer capProxy : Nat) (s : Link ω) :
    Decidable (Deadlocked capServer capProxy s) :=
  decidable_of_iff (s.exchange.pc = .doWrite ∧ (s.conn.pc = .eventLoop ∧ s.conn.mode = .onlyWrite) ∧
      bufGetReader s.conn.io.sendBuf ≠ [] ∧ s.conn.input.length = capServer ∧
      s.toProxy.length = capProxy)
    ⟨fun h => ⟨h.1, h.2.1, h.2.2.1, h.2.2.2.1, h.2.2.2.2⟩,
      fun h => ⟨h.proxy, h.server, h.unsent, h.fullToServer, h.fullToProxy⟩⟩

/-- With room for 13 bytes in one direction and for one in the other, the two
can get stuck. -/
theorem link_deadlock_get :
    LinkReady emptyService [getRequest "a", noop] getLink ∧
    ∃ s, ReflTransGen (LinkStep (processMulti mapEngine.toStStorageApi idleVx plainConfig) 13 1)
      getLink s ∧ Deadlocked 13 1 s := by
  have hdead : (linkRun (processMulti mapEngine.toStStorageApi idleVx plainConfig) 13 1 getLink
      deadlockRun).any (fun s => decide (Deadlocked 13 1 s)) = true := by decide
  cases hrun : linkRun (processMulti mapEngine.toStStorageApi idleVx plainConfig) 13 1 getLink
      deadlockRun with
  | none =>
      rw [hrun] at hdead
      cases hdead
  | some s =>
      rw [hrun] at hdead
      exact ⟨getLink_ready, s, linkRun_steps deadlockRun hrun, of_decide_eq_true hdead⟩

end Smalltable.Proofs
