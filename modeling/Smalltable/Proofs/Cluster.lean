import Smalltable.Proofs.ClusterServe
import Smalltable.Proofs.ProxyBatch
import Smalltable.Proofs.Sentinel
import Smalltable.Proofs.StopStart

/-!
# The cluster is one store

Clients that reach their data through the proxy see one map. The proxy cuts a
batch into the requests of its servers; these serve their parts, on their own
event loops, in whatever order the network brings about; and what the client
gets, request by request, is what one map would have answered
(`clusterMulti_serves`). After the batch every server is at rest in the state its
requests took it to, so the same holds of any sequence of batches, from any
connections (`cluster_oneStore`).

A key is at home with the server it is routed to. NOOPs are answered by the
proxy, which counts as a server without a store.

What is asked of a batch is in `BatchComes`: that it brings fewer than eight servers
into play, and that no server comes to the limit on its output with it. A run has
batches that come to their end. Between the proxy and the servers the network may cut
and delay as it likes, and it decides which of the servers goes on.
-/

namespace Smalltable.Proofs

open Smalltable.Ref Smalltable.Spec

/-! ## The proxy keeps its configuration -/

section Proxies

variable {w w' : ProxyWorld}

theorem appendNoops_proxies : ∀ {l : List Nat} {p p' : Pool} {w w' : ProxyWorld},
    Proxy.appendNoops l p w = some (p', w') → w'.proxies = w.proxies := by
  intro l
  induction l with
  | nil => intro p p' w w' h; cases h; rfl
  | cons ptr rest ih =>
      intro p p' w w' h
      rw [Proxy.appendNoops] at h
      split at h
      · cases h
      · exact (ih h).trans rfl

theorem popNoops_proxies : ∀ {l : List Nat} {w w' : ProxyWorld},
    Proxy.popNoops l w = some w' → w'.proxies = w.proxies := by
  intro l
  induction l with
  | nil => intro w w' h; cases h; rfl
  | cons ptr rest ih =>
      intro w w' h
      rw [Proxy.popNoops] at h
      split at h
      · cases h
      · exact (ih h).trans rfl

theorem askServers_proxies {net : List Proxy.NetEvent} {c : Proxy.Collect} {p' : Pool}
    (h : Proxy.askServers net c = some (p', w')) : w'.proxies = c.world.proxies := by
  unfold Proxy.askServers at h
  split at h
  · cases h; rfl
  · split at h
    · cases h
    · next p1 w1 happ =>
        split at h
        · cases h
        · next p2 w2 hserve =>
            obtain ⟨w3, hpop, hw⟩ := Option.map_eq_some_iff.mp h
            cases hw
            have hsame : w2.proxies = w1.proxies := by
              unfold Proxy.processMemcache at hserve
              split at hserve
              · cases hserve
              · split at hserve
                · cases hserve; rfl
                · cases hserve
            rw [popNoops_proxies hpop, hsame, appendNoops_proxies happ]

theorem deliver_proxies : ∀ {order : List (Option Nat)} {w w' : ProxyWorld} {io io' : Io},
    Proxy.deliver order w io = some (w', io') → w'.proxies = w.proxies := by
  intro order
  induction order with
  | nil => intro w w' io io' h; cases h; rfl
  | cons src rest ih =>
      intro w w' io io' h
      rw [Proxy.deliver] at h
      split at h
      · cases h
      · simp only [] at h
        split at h
        · refine (ih h).trans ?_
          cases src with
          | none => rfl
          | some ptr => rfl
        · cases h

end Proxies

/-! ## The proxy's own answers -/

/-- What a client asks for its data: the data commands, not flagged for the
proxy. -/
def ClientRequest (f : Bytes) : Prop :=
  DataRequest f ∧ ¬ flagProxyCommand (mcGetReserved f)

instance (f : Bytes) : Decidable (ClientRequest f) := inferInstanceAs (Decidable (_ ∧ _))

theorem ClientRequest.noop {f : Bytes} (h : ClientRequest f) (hproxy : Proxy.doInProxy f = true) :
    mcGetOpcode f = memcacheCmdNoop := by
  rw [Proxy.doInProxy, decide_eq_true_eq] at hproxy
  exact hproxy.resolve_right h.2

section Noop

variable (env : ProxyEnv) (conn : Nat) (draw : Nat → Nat × Nat) (st : State)

/-- A NOOP gets from the proxy what it would get from a server. -/
theorem processSingle_noop {f : Bytes} (hop : mcGetOpcode f = memcacheCmdNoop) (p : Pool)
    {w : ProxyWorld} {out : Bytes} (hout : w.resBuf.Holds out) :
    ∃ p' b, Proxy.processSingle env conn p w f = some (p', { w with resBuf := b }) ∧
      b.Holds (out ++ (serveStep draw st (unpackRequest f)).2.frame) := by
  have hroom := bufGetWriter_room p w.resBuf maxRequestSize
  have hmax := maxRequestSize_eq
  have hhdr := memcacheHeaderSize_eq
  have hholds := bufGetWriter_holds hout p maxRequestSize
  obtain ⟨wr, hwr⟩ : ∃ wr, bufGetWriter p w.resBuf maxRequestSize = wr := ⟨_, rfl⟩
  rw [hwr] at hroom hholds
  have hnot : ¬ IsStoreOpcode (unpackRequest f).opcode := by
    show ¬ IsStoreOpcode (mcGetOpcode f)
    rw [hop]
    decide
  have hversion : ¬ (unpackRequest f).opcode = memcacheCmdVersion := by
    show ¬ mcGetOpcode f = memcacheCmdVersion
    rw [hop]
    decide
  have hcall : ∃ res, Proxy.cmdNoop wr.1 { w with resBuf := wr.2.1 } (unpackRequest f)
        (prepareRes wr.2.2 f) = some (wr.1, { w with resBuf := wr.2.1 }, res) ∧
      packResponse wr.2.2 res = some (serveStep draw st (unpackRequest f)).2.frame := by
    rw [Proxy.cmdNoop, serveStep, if_neg hnot, if_neg hversion]
    split
    · have hpack := packResponse_setErrorCode (prepareRes wr.2.2 f)
        (show memcacheStatusInvalidArguments < 256 by decide)
        (show errorStr memcacheStatusInvalidArguments none = some _ from rfl) (by decide)
        (show (prepareRes wr.2.2 f).bufSz = wr.2.2 - memcacheHeaderSize from rfl) (by omega)
      obtain ⟨res, hres, hframe⟩ := Option.bind_eq_some_iff.mp hpack
      refine ⟨res, ?_, hframe⟩
      rw [Proxy.refuse, hres]
    · refine ⟨_, rfl, ?_⟩
      exact packResponse_frame [] [] rfl rfl (fun h => absurd rfl h) rfl (fun h => absurd rfl h)
        (by simp [peek]) (by decide) (by simp only [List.length_nil]; omega)
  obtain ⟨res, hres, hframe⟩ := hcall
  refine ⟨wr.1, bufProduce wr.2.1 (serveStep draw st (unpackRequest f)).2.frame, ?_,
    bufProduce_holds hholds _⟩
  have hhandler : Proxy.handlerOf (mcGetOpcode f) = some .noop := by
    rw [hop]
    rfl
  rw [Proxy.processSingle, hwr]
  simp only [hhandler, Proxy.callHandler]
  rw [hres]
  simp only [hframe]

variable {env conn}

theorem ProxyAnswer.noop {w0 : ProxyWorld} {f r : Bytes} (h : ProxyAnswer env conn w0 f r)
    (hop : mcGetOpcode f = memcacheCmdNoop) :
    r = (serveStep draw st (unpackRequest f)).2.frame := by
  obtain ⟨-, p, w, p', w', out, -, hout, hsingle, hholds⟩ := h
  obtain ⟨p1, b, hsingle1, hb⟩ := processSingle_noop env conn draw st hop p hout
  rw [hsingle] at hsingle1
  cases hsingle1
  exact List.append_cancel_left (hholds.reader.symm.trans hb.reader)

theorem noops_answered {w0 : ProxyWorld} {fs rs : List Bytes}
    (h : List.Forall₂ (ProxyAnswer env conn w0) fs rs)
    (hop : ∀ f ∈ fs, mcGetOpcode f = memcacheCmdNoop) :
    rs = fs.map fun f => (serveStep draw st (unpackRequest f)).2.frame := by
  induction h with
  | nil => rfl
  | cons hanswer hrest ih =>
      rw [List.map_cons, ← ih fun f hf => hop f (List.mem_cons_of_mem _ hf),
        hanswer.noop draw st (hop _ List.mem_cons_self)]

end Noop

/-! ## The states of the servers

Every server has a state of its own, of which the batch may change those that are
contacted. The whole map is put together from them, each key from the server at home,
and a request changes it as it changes the state of that server. -/

section States

/-- Where a key is at home. -/
def homeOf (w : ProxyWorld) (key : Bytes) : Option Nat :=
  (findStServer w.servers key).map StServer.ptr

/-- What the requests answer, each from its server. -/
def answersTo (w : ProxyWorld) (st : Option Nat → State) (fs : List Bytes) : List Response :=
  (serveParts nextCas unpackRequest (route w) st fs).2

/-- Where they take the servers. -/
def statesAfter (w : ProxyWorld) (st : Option Nat → State) (fs : List Bytes) :
    Option Nat → State :=
  (serveParts nextCas unpackRequest (route w) st fs).1

variable {w : ProxyWorld} {st : Option Nat → State} {fs : List Bytes}

theorem route_eq_homeOf {f : Bytes} (h : ClientRequest f)
    (hop : IsStoreOpcode (unpackRequest f).opcode) :
    route w f = homeOf w (unpackRequest f).key := by
  have hserver : ¬ Proxy.doInProxy f = true := by
    intro hproxy
    have hop : IsStoreOpcode (mcGetOpcode f) := hop
    rw [h.noop hproxy] at hop
    exact absurd hop (by decide)
  rw [route, if_neg hserver]
  rfl

theorem serveRun_map (st : State) (fs : List Bytes) :
    serveRun nextCas st (fs.map unpackRequest)
      = runAll (fun st f => serveStep nextCas st (unpackRequest f)) st fs := by
  induction fs generalizing st with
  | nil => rfl
  | cons f rest ih => simp only [List.map_cons, serveRun, runAll, ih]

theorem statesAfter_some (ptr : Nat) : statesAfter w st fs (some ptr)
    = (serveRun nextCas (st (some ptr)) ((requestsFor w fs ptr).map unpackRequest)).1 := by
  rw [serveRun_map]
  exact partRun_state _ (route w) fs st (some ptr)

theorem statesAfter_of_not_contacted {ptr : Nat} (h : ptr ∉ contacted w fs) :
    statesAfter w st fs (some ptr) = st (some ptr) := by
  have hnil : requestsFor w fs ptr = [] := by
    by_contra hne
    exact h (List.mem_dedup.mpr (mem_filterMap_route.mpr hne))
  rw [statesAfter_some, hnil]
  rfl

/-- The frames of a list of answers. -/
def framed (rs : List Response) : List Bytes := rs.map Response.frame

theorem takenFrom_framed (order : List (Option Nat)) (rs : List Response) (src : Option Nat) :
    responsesFrom order (framed rs) src = framed (takenFrom order rs src) := by
  rw [responsesFrom, takenFrom, framed, framed, List.zip_map_right, List.filter_map, List.map_map,
    List.map_map]
  rfl

theorem answersTo_some (ptr : Nat) :
    responsesFrom (fs.map (route w)) (framed (answersTo w st fs)) (some ptr)
      = framesOf (st (some ptr)) (requestsFor w fs ptr) := by
  rw [takenFrom_framed, framesOf, serveRun_map]
  exact congrArg framed (partRun_answers _ (route w) fs st (some ptr))

/-- The proxy's own answers do not depend on a state. -/
theorem answersTo_none
    (hnoop : ∀ f ∈ fs, route w f = none → ¬ IsStoreOpcode (unpackRequest f).opcode) :
    responsesFrom (fs.map (route w)) (framed (answersTo w st fs)) none
      = (fs.filter fun f => route w f = none).map
          fun f => (serveStep nextCas (st none) (unpackRequest f)).2.frame := by
  have hrun : ∀ {gs : List Bytes}, (∀ f ∈ gs, ¬ IsStoreOpcode (unpackRequest f).opcode) →
      (runAll (fun st f => serveStep nextCas st (unpackRequest f)) (st none) gs).2
        = gs.map fun f => (serveStep nextCas (st none) (unpackRequest f)).2 := by
    intro gs
    induction gs with
    | nil => intro _; rfl
    | cons f rest ih =>
        intro hgs
        obtain ⟨hstate, -⟩ := serveStep_plain nextCas (st none) (hgs f List.mem_cons_self)
        rw [runAll, hstate, ih fun g hg => hgs g (List.mem_cons_of_mem _ hg), List.map_cons]
  have hparts := partRun_answers (fun st f => serveStep nextCas st (unpackRequest f)) (route w) fs
    st none
  rw [takenFrom_framed, answersTo, serveParts, hparts, hrun fun f hf => ?_, framed, List.map_map]
  · rfl
  · obtain ⟨hmem, hroute⟩ := List.mem_filter.mp hf
    exact hnoop f hmem (by simpa using hroute)

end States

/-! ## The NOOP behind a server's requests

The proxy ends what it sends to a server with a NOOP of its own, and takes the last
answer to be the one to it. It is a request like the others to the server, and changes
nothing. -/

section Sentinel

theorem noop_data : DataRequest noop := by decide

variable (st : State) (reqs : List Bytes)

theorem framesOf_noop : ∃ f, framesOf st (reqs ++ [noop]) = framesOf st reqs ++ [f] ∧
    f.length = memcacheHeaderSize := by
  refine ⟨(serveStep nextCas (serveRun nextCas st (reqs.map unpackRequest)).1
    (unpackRequest noop)).2.frame, framesOf_append _ _ _, ?_⟩
  obtain ⟨-, hanswer⟩ := serveStep_plain nextCas (serveRun nextCas st (reqs.map unpackRequest)).1
    (show ¬ IsStoreOpcode (unpackRequest noop).opcode by decide)
  rw [← hanswer nextCas ⟨fun _ => none, 0⟩, Response.length_frame]
  rfl

theorem serveRun_noop : (serveRun nextCas st ((reqs ++ [noop]).map unpackRequest)).1
    = (serveRun nextCas st (reqs.map unpackRequest)).1 := by
  rw [List.map_append, serveRun_append]
  exact (serveStep_plain nextCas _ (show ¬ IsStoreOpcode (unpackRequest noop).opcode by decide)).1

end Sentinel

/-! ## One batch

What the proxy sends to a server is that server's part of the batch, what comes back are
the answers to it, and what the client gets is merged from these in the order of the
requests. The part of a server and the answers to it keep their order, which is all that
one store needs. -/

section Batch

variable {σ γ : Type} (eng : MapEngine σ)

/-- Between two batches: one server has the empty key, the proxy has no work, and
the servers are at rest in the states `st`. -/
structure ClusterReady (st : Option Nat → State) (cl : Cluster (World σ γ)) : Prop where
  trees : TreesOk cl.proxy
  emptyKey : ∃ s ∈ cl.proxy.servers.toList, s.key = []
  idle : AllIdle cl.proxy
  resBuf : cl.proxy.resBuf.Holds []
  servers : ∀ s ∈ cl.proxy.servers.toList, AtRest eng (st (some s.ptr)) (cl.servers s.ptr)

/-- All that a server answers to its part of a batch and to the NOOP. -/
def serverFrames (w : ProxyWorld) (st : Option Nat → State) (done : List Bytes) (ptr : Nat) :
    List Bytes :=
  framesOf (st (some ptr)) (requestsFor w done ptr ++ [noop])

variable {eng} {vx : Vx γ} {cfg : Config γ} {capServer capProxy : Nat} {env : ProxyEnv} {conn : Nat}
  {w : ProxyWorld} {st : Option Nat → State} {ends ends' : Nat → ServerEnd (World σ γ)}
  {done pas : List Bytes} {R : Bytes → Bytes → Prop} {c : Proxy.Collect} {acts : List ClusterAction}

theorem serverFrames_answers (hst : ∀ ptr ∈ contacted w done, ValuesFit (st (some ptr)).map)
    (hdone : ∀ f ∈ done, WellFormed 0x80 f) : Answers w done (serverFrames w st done) := by
  refine ⟨fun ptr hptr => framesOf_wellFormed (hst ptr hptr) fun f hf => ?_, fun ptr _ => ?_,
    fun ptr _ f hf => ?_⟩
  · rcases List.mem_append.mp hf with hf | hf
    · exact hdone f (List.mem_filter.mp hf).1
    · rw [List.mem_singleton.mp hf]
      exact noop_wellFormed
  · rw [serverFrames, length_framesOf, List.length_append]
    rfl
  · obtain ⟨g, hg, hlen⟩ := framesOf_noop (st (some ptr)) (requestsFor w done ptr)
    rw [serverFrames, hg, List.getLast?_concat] at hf
    cases hf
    exact hlen

theorem dropLast_serverFrames (ptr : Nat) : (serverFrames w st done ptr).dropLast
    = framesOf (st (some ptr)) (requestsFor w done ptr) := by
  obtain ⟨g, hg, -⟩ := framesOf_noop (st (some ptr)) (requestsFor w done ptr)
  rw [serverFrames, hg, List.dropLast_concat]

theorem startLinks_exchange (servers : List Nat) (w : ProxyWorld)
    (ends : Nat → ServerEnd (World σ γ)) :
    (fun i => (startLinks servers w ends i).map (·.exchange))
      = Proxy.startExchanges servers w := by
  funext i
  rw [startLinks, Option.map_map]
  cases Proxy.startExchanges servers w i with
  | none => rfl
  | some x => rfl

/-- `process_memcache` returns when all chains have ended. -/
theorem chainsDone {net : List Proxy.NetEvent} {p1 p2 : Pool} {w1 : ProxyWorld}
    {xs : Nat → Option Exchange} (hnone : ¬ c.servers.length = 0)
    (happ : Proxy.appendNoops c.servers c.pool c.world = some (p1, w1))
    (hevents : Proxy.serveEvents p1 (Proxy.startExchanges c.servers w1) net = some (p2, xs))
    (hask : Proxy.askServers net c ≠ none) :
    ∀ ptr ∈ c.servers, (xs ptr).any (·.pc = .done) = true := by
  rw [Proxy.askServers, if_neg hnone, happ] at hask
  simp only [] at hask
  split at hask
  · exact absurd rfl hask
  · next hserve =>
      rw [Proxy.processMemcache, hevents] at hserve
      simp only [] at hserve
      split at hserve
      · next hall => exact List.all_eq_true.mp hall
      · cases hserve

/-- The network the servers make: it carries their answers, and they end at rest. -/
theorem endsAfter_served (hidle : AllIdle w) (hdata : ∀ f ∈ done, DataRequest f)
    (h : Collected w R done pas c)
    (hrest : ∀ ptr ∈ contacted w done, AtRest eng (st (some ptr)) (ends ptr))
    (hsmall : ∀ ptr ∈ contacted w done,
      WithinOutput (st (some ptr)) (requestsFor w done ptr))
    (hends : endsAfter (processMulti eng.toStStorageApi vx cfg) capServer capProxy acts c ends
      = some ends')
    (hask : Proxy.askServers (netOf acts) c ≠ none) :
    (∃ net, Carries w done (serverFrames w st done) net ∧
      Proxy.askServers net c = Proxy.askServers (netOf acts) c) ∧
    (∀ ptr ∈ contacted w done, AtRest eng (statesAfter w st done (some ptr)) (ends' ptr)) ∧
    ∀ ptr, ptr ∉ contacted w done → ends' ptr = ends ptr := by
  have hwf : ∀ f ∈ done, WellFormed 0x80 f := fun f hf => (hdata f hf).1
  by_cases hnone : c.servers.length = 0
  · -- nobody is asked
    rw [endsAfter, if_pos hnone] at hends
    cases hends
    have hempty : ∀ ptr, ptr ∉ contacted w done := by
      intro ptr hptr
      rw [← mem_contacted h, List.eq_nil_of_length_eq_zero hnone] at hptr
      cases hptr
    refine ⟨⟨[], ⟨(fun e he => by cases he), fun ptr hptr => absurd hptr (hempty ptr)⟩, ?_⟩,
      fun ptr hptr => absurd hptr (hempty ptr), fun ptr _ => rfl⟩
    rw [Proxy.askServers, Proxy.askServers, if_pos hnone, if_pos hnone]
  · obtain ⟨p1, w1, happ, hupd⟩ := appendNoops_updated (p := c.pool) h.nodup h.present
    have hmade : ∀ ptr ∈ c.servers, ∃ b1, w1.backends ptr = some b1 ∧
        Prepared (requestsFor w done ptr ++ [noop]) b1 ∧
        ∀ a, ∀ b0, w.backends ptr = some b0 → (Benign b0 a ↔ Benign b1 a) := by
      intro ptr hptr
      obtain ⟨b, b1, hb, hb1, hnoop⟩ := hupd.inside ptr hptr
      exact ⟨b1, hb1, h.prepared hidle hwf ((mem_contacted h).mp hptr) hb hnoop⟩
    choose srv hsrv using fun ptr : Nat => show ∃ b1 : Backend, ptr ∈ c.servers →
        w1.backends ptr = some b1 ∧ Prepared (requestsFor w done ptr ++ [noop]) b1 ∧
        ∀ a, ∀ b0, w.backends ptr = some b0 → (Benign b0 a ↔ Benign b1 a) by
      by_cases hptr : ptr ∈ c.servers
      · obtain ⟨b1, hb1⟩ := hmade ptr hptr
        exact ⟨b1, fun _ => hb1⟩
      · exact ⟨{}, fun hmem => absurd hmem hptr⟩
    rw [endsAfter, if_neg hnone, happ] at hends
    simp only [] at hends
    split at hends
    · cases hends
    next p2 links hlinks =>
    cases hends
    have hreplies : ∀ ptr ∈ c.servers, Replies (processMulti eng.toStStorageApi vx cfg)
        (batchService eng (ends ptr).conn.sent (st (some ptr))) (ends ptr).conn.sent
        (requestsFor w done ptr ++ [noop]) (serverFrames w st done ptr) := by
      intro ptr hptr
      have hcont := (mem_contacted h).mp hptr
      refine replies_data eng vx cfg _ (hrest ptr hcont).valuesFit (fun f hf => ?_) ?_
      · rcases List.mem_append.mp hf with hf | hf
        · exact hdata f (List.mem_filter.mp hf).1
        · rw [List.mem_singleton.mp hf]
          exact noop_data
      · obtain ⟨g, hg, hlen⟩ := framesOf_noop (st (some ptr)) (requestsFor w done ptr)
        have hlt := hsmall ptr hcont
        rw [WithinOutput] at hlt
        rw [hg, List.flatten_append, List.length_append, List.flatten_singleton, hlen,
          memcacheHeaderSize_eq]
        omega
    obtain ⟨hin, hout, hnet⟩ := serveLinks_serving srv hreplies (fun ptr hptr => by
      obtain ⟨hb1, hprep, -⟩ := hsrv ptr hptr
      have hatrest := hrest ptr ((mem_contacted h).mp hptr)
      refine ⟨freshLink (srv ptr) (ends ptr), ?_, serving_start hprep hatrest.toProxy rfl
        (hatrest.start _)⟩
      rw [startLinks, Proxy.startExchanges, if_pos hptr, hb1]
      rfl) (fun ptr hptr => by
      rw [startLinks, Proxy.startExchanges, if_neg hptr]
      rfl) hlinks
    have hevents := serveLinks_serveEvents hlinks
    rw [startLinks_exchange] at hevents
    have hdone : ∀ ptr ∈ c.servers, ∃ s, links ptr = some s ∧ s.exchange.pc = .done ∧
        Serving (batchService eng (ends ptr).conn.sent (st (some ptr))) (ends ptr).conn.sent
          (requestsFor w done ptr ++ [noop]) (srv ptr) s := by
      intro ptr hptr
      obtain ⟨s, hs, hserving⟩ := hin ptr hptr
      have hall := chainsDone hnone happ hevents hask ptr hptr
      rw [hs] at hall
      exact ⟨s, hs, by simpa using hall, hserving⟩
    refine ⟨⟨netOf acts, ⟨fun e he b0 hb0 => ?_, fun ptr hptr => ?_⟩, rfl⟩, fun ptr hptr => ?_,
      fun ptr hptr => ?_⟩
    · obtain ⟨hmem, hben⟩ := hnet e he
      obtain ⟨-, -, hsame⟩ := hsrv e.server hmem
      exact (hsame e.action b0 hb0).mpr hben
    · have hmem := (mem_contacted h).mpr hptr
      obtain ⟨s, hs, hpc, hserving⟩ := hdone ptr hmem
      obtain ⟨hreceived, -⟩ := hserving.ends (hreplies ptr hmem) hpc
      obtain ⟨hb1, -⟩ := hsrv ptr hmem
      have hstart : Proxy.startExchanges c.servers w1 ptr = some { srv := srv ptr } := by
        rw [Proxy.startExchanges, if_pos hmem, hb1]
        rfl
      obtain ⟨x, hx, hchain⟩ := (serveEvents_chain hevents ptr).2 _ hstart
      rw [hs] at hx
      cases hx
      rw [← hreceived, hchain.received]
      exact (List.nil_append _).symm
    · have hmem := (mem_contacted h).mpr hptr
      obtain ⟨s, hs, hpc, hserving⟩ := hdone ptr hmem
      obtain ⟨-, hto, halong⟩ := hserving.ends (hreplies ptr hmem) hpc
      rw [statesAfter_some, ← serveRun_noop]
      simp only [hs]
      exact atRest_of_along hto halong
    · simp only [hout ptr fun hmem => hptr ((mem_contacted h).mp hmem)]

theorem collectStep_proxies {f out : Bytes} {r : ForInStep Proxy.Collect} (hf : ClientRequest f)
    (hout : c.world.resBuf.Holds out) (h : Proxy.collectStep env conn c f = some r) :
    r.value.world.proxies = c.world.proxies ∧ ∃ out', r.value.world.resBuf.Holds out' := by
  unfold Proxy.collectStep at h
  split at h
  · next hproxy =>
      obtain ⟨p1, b, hsingle, hb⟩ := processSingle_noop env conn nextCas ⟨fun _ => none, 0⟩
        (hf.noop hproxy) c.pool hout
      rw [hsingle] at h
      cases h
      rw [advance_world]
      exact ⟨rfl, _, hb⟩
  · split at h
    · cases h
    · split at h
      · cases h
      · simp only [] at h
        split_ifs at h
        · cases h; exact ⟨rfl, out, hout⟩
        · cases h; rw [advance_world]; exact ⟨rfl, out, hout⟩
        · cases h; exact ⟨rfl, out, hout⟩
        · cases h; rw [advance_world]; exact ⟨rfl, out, hout⟩

theorem collect_proxies {p : Pool} {batch : List Bytes} (hbatch : ∀ f ∈ batch, ClientRequest f)
    (hres : w.resBuf.Holds []) (h : Proxy.collect env conn p w batch.flatten = some c) :
    c.world.proxies = w.proxies := by
  rw [Proxy.collect, forRequests_flatten fun f hf => (hbatch f hf).1.1] at h
  have hkeep := foldFrames_invariant
    (P := fun c : Proxy.Collect => c.world.proxies = w.proxies ∧ ∃ out, c.world.resBuf.Holds out)
    (fun s f hf s' hs hstep => ?_) ⟨rfl, [], hres⟩ h
  · exact hkeep.1
  · obtain ⟨hproxies, out, hout⟩ := hs
    rcases hstep with hstep | hstep
    · obtain ⟨hsame, hout'⟩ := collectStep_proxies (hbatch f hf) hout hstep
      exact ⟨hsame.trans hproxies, hout'⟩
    · obtain ⟨hsame, hout'⟩ := collectStep_proxies (hbatch f hf) hout hstep
      exact ⟨hsame.trans hproxies, hout'⟩

/-- What `process_multi` has gone through. -/
theorem processMulti_parts {net : List Proxy.NetEvent} {io io' : Io} {reqBuf : Bytes} {n : Int}
    (hcollect : Proxy.collect env io.conn io.pool w reqBuf = some c)
    (h : Proxy.processMulti env net w io reqBuf = some (w', io', n)) :
    ∃ p1 w1, Proxy.askServers net c = some (p1, w1) ∧
      Proxy.deliver c.order w1 { io with pool := p1 } = some (w', io') ∧ n = c.consumed := by
  unfold Proxy.processMulti at h
  rw [hcollect] at h
  simp only [] at h
  split at h
  · cases h
  next p1 w1 hask =>
  split at h
  · cases h
  next hdeliver =>
  cases h
  exact ⟨p1, w1, hask, hdeliver, rfl⟩

theorem doInProxy_iff_route (hfound : ∀ f ∈ done, Proxy.doInProxy f = false → route w f ≠ none)
    {f : Bytes} (hf : f ∈ done) : Proxy.doInProxy f = true ↔ route w f = none := by
  constructor
  · intro hproxy
    rw [route, if_pos hproxy]
  · intro hroute
    by_contra hproxy
    exact hfound f hf (by simpa using hproxy) hroute

/-- The answers, put together in the order of the requests, are those of the
stores. -/
theorem Merged.eq_framed {rs : List Bytes}
    (h : Merged env conn w done (serverFrames w st done) rs w')
    (hfound : ∀ f ∈ done, Proxy.doInProxy f = false → route w f ≠ none)
    (hdone : ∀ f ∈ done, ClientRequest f) : rs = framed (answersTo w st done) := by
  have hlen : (answersTo w st done).length = done.length := length_runAll _ _ _
  have hown : ∀ f ∈ done, route w f = none → mcGetOpcode f = memcacheCmdNoop :=
    fun f hf hroute => (hdone f hf).noop ((doInProxy_iff_route hfound hf).mpr hroute)
  have hrs : rs.length = (done.map (route w)).length := by rw [h.length, List.length_map]
  refine eq_of_takenFrom hrs ?_ fun src hsrc => ?_
  · rw [framed, List.length_map, hlen, List.length_map]
  · cases src with
    | some ptr =>
        obtain ⟨f, hf, hroute⟩ := List.mem_map.mp hsrc
        have hcont : ptr ∈ contacted w done :=
          List.mem_dedup.mpr (List.mem_filterMap.mpr ⟨f, hf, hroute⟩)
        refine (h.servers ptr hcont).trans ?_
        rw [dropLast_serverFrames]
        exact (answersTo_some ptr).symm
    | none =>
        have hfilter : done.filter Proxy.doInProxy = done.filter fun f => route w f = none :=
          List.filter_congr fun f hf => by
            rw [Bool.eq_iff_iff, decide_eq_true_eq]
            exact doInProxy_iff_route hfound hf
        have hproxy := h.proxy
        rw [hfilter] at hproxy
        refine (noops_answered nextCas (st none) hproxy fun f hf => ?_).trans
          (answersTo_none fun f hf hroute hop => ?_).symm
        · obtain ⟨hmem, hroute⟩ := List.mem_filter.mp hf
          exact hown f hmem (by simpa using hroute)
        · have hop : IsStoreOpcode (mcGetOpcode f) := hop
          rw [hown f hf hroute] at hop
          exact absurd hop (by decide)

/-- A batch of client requests is served as one store would serve it. -/
theorem clusterMulti_serves {cl cl' : Cluster (World σ γ)} {io io' : Io} {out : Bytes}
    {batch : List Bytes} {n : Int} (hready : ClusterReady eng st cl)
    (hroom : RoomInt io.pool cl.proxy.resBuf) (hout : io.sendBuf.Holds out)
    (hbatch : ∀ f ∈ batch, ClientRequest f)
    (hfew : (contacted cl.proxy (batch.take maxQuietRequests)).length < Proxy.nelemServers)
    (hsmall : ∀ ptr ∈ contacted cl.proxy (batch.take maxQuietRequests),
      WithinOutput (st (some ptr)) (requestsFor cl.proxy (batch.take maxQuietRequests) ptr))
    (hs : clusterMulti (processMulti eng.toStStorageApi vx cfg) capServer capProxy env acts cl io
      batch.flatten = some (cl', io', n)) :
    n = ((batch.take maxQuietRequests).flatten.length : Int) ∧
    io'.sendBuf.Holds (out ++ bytesOf (answersTo cl.proxy st (batch.take maxQuietRequests))) ∧
    cl'.proxy.servers = cl.proxy.servers ∧
    ClusterReady eng (statesAfter cl.proxy st (batch.take maxQuietRequests)) cl' := by
  have htake : ∀ f ∈ batch.take maxQuietRequests, ClientRequest f :=
    fun f hf => hbatch f (List.mem_of_mem_take hf)
  have hwf : ∀ f ∈ batch.take maxQuietRequests, WellFormed 0x80 f := fun f hf => (htake f hf).1.1
  have hhandler : ∀ f, ClientRequest f → Proxy.doInProxy f = true →
      Proxy.handlerOf (mcGetOpcode f) = some .noop := by
    intro f hf hproxy
    rw [hf.noop hproxy]
    rfl
  have hproxy : ProxyReady io.pool cl.proxy :=
    ⟨hready.trees, hready.emptyKey, hready.idle, hready.resBuf, hroom⟩
  obtain ⟨pas, c, hcollect, hcol⟩ := collect_of_fits env io.conn hproxy
    (fun f hf => (hbatch f hf).1.1) (fun f hf hp => by
      rw [hhandler f (hbatch f hf) hp]
      decide)
    ⟨hfew, fun f hf hp => by
      rw [hhandler f (htake f hf) hp]
      exact Option.some_ne_none _⟩
  have hrest : ∀ ptr ∈ contacted cl.proxy (batch.take maxQuietRequests),
      AtRest eng (st (some ptr)) (cl.servers ptr) := by
    intro ptr hptr
    obtain ⟨s, hs, rfl⟩ := exists_server_of_contacted hptr
    exact hready.servers s hs
  have hans := serverFrames_answers (fun ptr hptr => (hrest ptr hptr).valuesFit) hwf
  unfold clusterMulti at hs
  rw [hcollect] at hs
  simp only [] at hs
  split at hs
  · cases hs
  next ends' hends =>
  split at hs
  · cases hs
  next w' io1 n1 hmulti =>
  cases hs
  obtain ⟨p1, w1, hask, hdeliver, hn⟩ := processMulti_parts hcollect hmulti
  have hproxies : w'.proxies = cl.proxy.proxies := by
    rw [deliver_proxies hdeliver, askServers_proxies hask,
      collect_proxies hbatch hready.resBuf hcollect]
  obtain ⟨⟨net, hcarries, hsame⟩, hasked, hothers⟩ := endsAfter_served hready.idle
    (fun f hf => (htake f hf).1) hcol hrest hsmall hends (by
      rw [hask]
      exact Option.some_ne_none _)
  rw [hask] at hsame
  have hout' : ({ io with pool := p1 } : Io).sendBuf.Holds out := hout
  obtain ⟨w2, io2, rs, hdeliver2, hholds, hmerged⟩ := hcol.merged hready.idle hwf hans hcarries
    hsame hout'
  rw [hdeliver] at hdeliver2
  cases hdeliver2
  have hrs := hmerged.eq_framed hcol.found htake
  refine ⟨hn.trans hcol.consumed, ?_, hmerged.idle.1, ?_, ?_, ?_, hmerged.resBuf, ?_⟩
  · rw [hrs] at hholds
    exact hholds
  · refine ⟨?_, ?_⟩
    · rw [hproxies]
      exact hready.trees.proxies
    · rw [hmerged.idle.1]
      exact hready.trees.servers
  · rw [hmerged.idle.1]
    exact hready.emptyKey
  · intro s hmem
    rw [hmerged.idle.1] at hmem
    exact hmerged.idle.2 s hmem
  · intro s hmem
    rw [hmerged.idle.1] at hmem
    by_cases hcont : s.ptr ∈ contacted cl.proxy (batch.take maxQuietRequests)
    · exact hasked s.ptr hcont
    · rw [statesAfter_of_not_contacted hcont]
      show AtRest eng (st (some s.ptr)) (ends' s.ptr)
      rw [hothers s.ptr hcont]
      exact hready.servers s hmem

end Batch

/-! ## Any number of batches

A batch ends with every contacted server at rest and every connection ready for another
one, and so the next batch can begin from there, whichever connection it is from. -/

/-- What a server would answer, alone and into an empty buffer, stays below the
limit of `builtin_commands_callback`. -/
def OutputFits {ω : Type} (processMulti : ω → Io → Bytes → Option (ω × Io × Int)) (w : ω)
    (reqs : List Bytes) : Prop :=
  ∃ w' io' n, processMulti w {} reqs.flatten = some (w', io', n) ∧
    bufGetUsed io'.sendBuf < outputLimit

/-- A batch, the client's `send_buf` before and after it, and what `process_multi`
returned. -/
structure BatchServed where
  batch : List Bytes
  before : Buffer
  after : Buffer
  consumed : Int

/-- The requests a batch is served of. -/
def BatchServed.done (e : BatchServed) : List Bytes := e.batch.take maxQuietRequests

section Run

variable {ω : Type} (processMulti : ω → Io → Bytes → Option (ω × Io × Int))
  (capServer capProxy : Nat) (env : ProxyEnv)

/-- A batch that the proxy can be given. -/
structure BatchComes (cl : Cluster ω) (io : Io) (batch : List Bytes) : Prop where
  room : RoomInt io.pool cl.proxy.resBuf
  output : ∃ out, io.sendBuf.Holds out
  client : ∀ f ∈ batch, ClientRequest f
  few : (contacted cl.proxy (batch.take maxQuietRequests)).length < Proxy.nelemServers
  fits : ∀ ptr ∈ contacted cl.proxy (batch.take maxQuietRequests),
    OutputFits processMulti (cl.servers ptr).conn.world
      (requestsFor cl.proxy (batch.take maxQuietRequests) ptr)

/-- Batches, from any connections, and what the servers do between them. -/
inductive ClusterRun : Cluster ω → List BatchServed → Cluster ω → Prop where
  | nil (cl : Cluster ω) : ClusterRun cl [] cl
  | goesOn {cl cl1 cl' : Cluster ω} {hist : List BatchServed} {s : StServer} {a : ConnAction}
      (hserver : s ∈ cl.proxy.servers.toList) (hopen : ConnAction.Open a)
      (hs : serverGoesOn processMulti cl s.ptr a = some cl1)
      (hrest : ClusterRun cl1 hist cl') : ClusterRun cl hist cl'
  | batch {cl cl1 cl' : Cluster ω} {hist : List BatchServed} {io io' : Io} {n : Int}
      {acts : List ClusterAction} (batch : List Bytes)
      (hcomes : BatchComes processMulti cl io batch)
      (hs : clusterMulti processMulti capServer capProxy env acts cl io batch.flatten
        = some (cl1, io', n))
      (hrest : ClusterRun cl1 hist cl') :
      ClusterRun cl (⟨batch, io.sendBuf, io'.sendBuf, n⟩ :: hist) cl'

end Run

section OneStore

variable {σ γ : Type} {eng : MapEngine σ} {vx : Vx γ} {cfg : Config γ} {capServer capProxy : Nat}
  {env : ProxyEnv} {st : Option Nat → State}

/-- What a client has got for a batch: the answers `rs`, one for each request. -/
structure BatchServed.Answered (e : BatchServed) (rs : List Response) : Prop where
  consumed : e.consumed = (e.done.flatten.length : Int)
  count : rs.length = e.done.length
  output : ∀ out, e.before.Holds out → e.after.Holds (out ++ bytesOf rs)

theorem withinOutput_of_outputFits {st : State} {e : ServerEnd (World σ γ)} {reqs : List Bytes}
    (hrest : AtRest eng st e) (hdata : ∀ f ∈ reqs, DataRequest f)
    (hfits : OutputFits (processMulti eng.toStStorageApi vx cfg) e.conn.world reqs) :
    WithinOutput st reqs := by
  obtain ⟨hinv, hrep, hcount⟩ := hrest.along.world
  obtain ⟨w', io', n, hs, hlt⟩ := hfits
  obtain ⟨w1, io1, hs1, -, -, -, hholds, -⟩ :=
    processMulti_data eng vx cfg hrep hinv {} Buffer.holds_empty hdata
  rw [hs] at hs1
  cases hs1
  rw [hholds.used, List.nil_append, hcount] at hlt
  have hbelow := (batchRun_below_iff nextCas st 0 (reqs.map unpackRequest)).mp (by
    rw [Nat.zero_add]
    exact_mod_cast hlt)
  rw [Nat.zero_add] at hbelow
  exact hbelow

/-- A server has gone on between two batches. -/
theorem ClusterReady.goesOn {cl cl' : Cluster (World σ γ)} {s : StServer} {a : ConnAction}
    (h : ClusterReady eng st cl) (hserver : s ∈ cl.proxy.servers.toList)
    (hopen : ConnAction.Open a)
    (hs : serverGoesOn (processMulti eng.toStStorageApi vx cfg) cl s.ptr a = some cl') :
    ClusterReady eng st cl' ∧ cl'.proxy = cl.proxy := by
  unfold serverGoesOn at hs
  simp only [] at hs
  split at hs
  · cases hs
  next c hc =>
  cases hs
  refine ⟨⟨h.trees, h.emptyKey, h.idle, h.resBuf, fun t ht => ?_⟩, rfl⟩
  show AtRest eng (st (some t.ptr)) (if t.ptr = s.ptr then _ else cl.servers t.ptr)
  by_cases heq : t.ptr = s.ptr
  · rw [if_pos heq, heq]
    exact (h.servers s hserver).goesOn vx cfg hopen hc
  · rw [if_neg heq]
    exact h.servers t ht

/-- In every run the clients see one store: their answers, batch by batch, are a
history of the map in which each key has the item its server has for it. -/
theorem cluster_oneStore {cl cl' : Cluster (World σ γ)} {hist : List BatchServed}
    (hready : ClusterReady eng st cl)
    (hrun : ClusterRun (processMulti eng.toStStorageApi vx cfg) capServer capProxy env cl hist
      cl') :
    ∃ st' answers, List.Forall₂ BatchServed.Answered hist answers ∧
      OneStore (wholeMap (homeOf cl.proxy) st) ((hist.flatMap BatchServed.done).map unpackRequest)
        answers.flatten (wholeMap (homeOf cl'.proxy) st') ∧
      ClusterReady eng st' cl' := by
  induction hrun generalizing st with
  | nil cl => exact ⟨st, [], .nil, .nil _, hready⟩
  | goesOn hserver hopen hs _ ih =>
      obtain ⟨hready1, hproxy⟩ := hready.goesOn hserver hopen hs
      rw [← hproxy]
      exact ih hready1
  | @batch cl cl1 cl' hist io io' n acts batch hcomes hs _ ih =>
      have hclient : ∀ f ∈ batch.take maxQuietRequests, ClientRequest f :=
        fun f hf => hcomes.client f (List.mem_of_mem_take hf)
      have hsmall : ∀ ptr ∈ contacted cl.proxy (batch.take maxQuietRequests),
          WithinOutput (st (some ptr))
            (requestsFor cl.proxy (batch.take maxQuietRequests) ptr) := by
        intro ptr hptr
        obtain ⟨s, hmem, rfl⟩ := exists_server_of_contacted hptr
        exact withinOutput_of_outputFits (hready.servers s hmem)
          (fun f hf => (hclient f (List.mem_filter.mp hf).1).1) (hcomes.fits s.ptr hptr)
      obtain ⟨out, hout⟩ := hcomes.output
      obtain ⟨hn, hholds, hservers, hready1⟩ := clusterMulti_serves hready hcomes.room hout
        hcomes.client hcomes.few hsmall hs
      have hhome : homeOf cl1.proxy = homeOf cl.proxy := by
        funext key
        rw [homeOf, homeOf, hservers]
      obtain ⟨st', answers, hanswered, hstore, hready'⟩ := ih hready1
      refine ⟨st', answersTo cl.proxy st (batch.take maxQuietRequests) :: answers,
        .cons ⟨hn, length_runAll _ _ _, fun out' hout' => ?_⟩ hanswered, ?_, hready'⟩
      · have hsame : out' = out := hout'.reader.symm.trans hout.reader
        rw [hsame]
        exact hholds
      · rw [List.flatMap_cons, List.map_append, List.flatten_cons]
        rw [← hhome]
        refine OneStore.append ?_ hstore
        rw [hhome]
        exact oneStore_partRun _ st fun f hf hop => route_eq_homeOf (hclient f hf) hop

/-- The proxy and its servers before the first batch. -/
theorem clusterReady_connNew {servers : Tree StServer}
    (hsorted : servers.Sorted fun s => ordKey s.key) (hempty : ∃ s ∈ servers.toList, s.key = [])
    {w : Nat → World σ γ} {m : Nat → Map}
    (hrep : ∀ ptr, Represents eng (w ptr).store (m ptr)) (hinv : ∀ ptr, World.Inv (w ptr)) :
    ClusterReady eng (fun src => ⟨m (src.getD 0), (w (src.getD 0)).uniqueNumber⟩)
      { proxy := idleProxy servers, servers := fun ptr => ⟨connNew (w ptr) ptr [] [], []⟩ } := by
  obtain ⟨htrees, hkey, hidle, hres, -⟩ := idleProxy_ready hsorted hempty
  exact ⟨htrees, hkey, hidle, hres, fun s _ => atRest_connNew (hrep s.ptr) (hinv s.ptr) s.ptr []⟩

end OneStore

/-! ## A batch for two servers -/

def twoServersCluster : Cluster (World (Bytes → Option Bytes) Unit) :=
  { proxy := idleProxy twoServers, servers := fun ptr => ⟨connNew freshWorld ptr [] [], []⟩ }

/-- The batch is two requests; with the NOOPs behind them, 49 bytes are for server 0
and 58 for server 1. -/
def setAndGet : List Bytes := [setRequest "z" "1" 0, getRequest "a"]

/-- Server 0 gets its requests first and server 1 answers first. -/
def setAndGetActions : List ClusterAction :=
  let replies0 := (framesOf ⟨fun _ => none, 0⟩ [getRequest "a", noop]).flatten
  let replies1 := (framesOf ⟨fun _ => none, 0⟩ [setRequest "z" "1" 0, noop]).flatten
  [⟨1, .proxy (.start 1 (some 3))⟩, ⟨0, .proxy (.start 1 (some 4))⟩,
   ⟨0, .proxy (.connected true)⟩, ⟨1, .proxy (.connected true)⟩,
   ⟨0, .proxy (.send (.sent 49))⟩, ⟨1, .proxy (.send (.sent 58))⟩,
   ⟨0, .server .event⟩, ⟨0, .server (.recv (.got 49))⟩, ⟨0, .server .run⟩,
   ⟨1, .server .event⟩, ⟨1, .server (.recv (.got 58))⟩, ⟨1, .server .run⟩,
   ⟨1, .server .run⟩, ⟨1, .server .run⟩, ⟨1, .server (.send (.sent replies1.length))⟩,
   ⟨1, .proxy (.recv (.got replies1))⟩, ⟨1, .proxy .run⟩, ⟨1, .proxy .run⟩,
   ⟨0, .server .run⟩, ⟨0, .server .run⟩, ⟨0, .server (.send (.sent replies0.length))⟩,
   ⟨0, .proxy (.recv (.got replies0))⟩, ⟨0, .proxy .run⟩, ⟨0, .proxy .run⟩]

theorem outputFits_of_any {ω : Type} {processMulti : ω → Io → Bytes → Option (ω × Io × Int)}
    {w : ω} {reqs : List Bytes} (h : (processMulti w {} reqs.flatten).any
      (fun r => bufGetUsed r.2.1.sendBuf < outputLimit) = true) :
    OutputFits processMulti w reqs := by
  cases hs : processMulti w {} reqs.flatten with
  | none =>
      rw [hs] at h
      cases h
  | some r =>
      rw [hs] at h
      exact ⟨r.1, r.2.1, r.2.2, hs, of_decide_eq_true h⟩

set_option maxRecDepth 4000 in
theorem cluster_oneStore_twoServers :
    ∃ cl' io' n, clusterMulti (processMulti mapEngine.toStStorageApi idleVx plainConfig) 1000 1000
        plainEnv setAndGetActions twoServersCluster {} setAndGet.flatten = some (cl', io', n) ∧
      ∃ st' answers, List.Forall₂ BatchServed.Answered [⟨setAndGet, {}, io'.sendBuf, n⟩] answers ∧
        OneStore (fun _ => none) (setAndGet.map unpackRequest) answers.flatten
          (wholeMap (homeOf cl'.proxy) st') ∧
        ClusterReady mapEngine st' cl' := by
  have hsome : (clusterMulti (processMulti mapEngine.toStStorageApi idleVx plainConfig) 1000 1000
      plainEnv setAndGetActions twoServersCluster {} setAndGet.flatten).isSome = true := by decide
  obtain ⟨⟨cl', io', n⟩, hs⟩ := Option.isSome_iff_exists.mp hsome
  have hready : ClusterReady mapEngine _ twoServersCluster :=
    clusterReady_connNew (by decide) (by decide) (fun _ => represents_empty)
      (fun _ => World.inv_start _)
  have hcomes : BatchComes (processMulti mapEngine.toStStorageApi idleVx plainConfig)
      twoServersCluster {} setAndGet := by
    have hidle : ProxyReady [] (idleProxy twoServers) := idleProxy_ready (by decide) (by decide)
    refine ⟨hidle.room, ⟨[], Buffer.holds_empty⟩, by decide, by decide, fun ptr hptr => ?_⟩
    have hboth : contacted twoServersCluster.proxy (setAndGet.take maxQuietRequests) = [1, 0] := by
      decide
    rw [hboth, List.mem_pair] at hptr
    rcases hptr with rfl | rfl
    · exact outputFits_of_any (by decide)
    · exact outputFits_of_any (by decide)
  exact ⟨cl', io', n, hs, cluster_oneStore hready (.batch setAndGet hcomes hs (.nil cl'))⟩

end Smalltable.Proofs
