import Smalltable.Proofs.ClusterLink
import Smalltable.Spec.Cluster

/-!
# The servers behind the proxy

All connections of a batch at once. The proxy's events among the steps are what
`process_memcache` sees (`serveLinks_serveEvents`), and each connection keeps its
own invariant whatever happens on the others (`serveLinks_serving`).

A server that has nothing to do is at rest in a state (`AtRest`): a map and the
counter of its CAS values. The requests of a batch take it to the state after
them, whatever it has served before on the same connection.

A server keeps its connection to the proxy between two batches. What it has sent for the
earlier ones goes on standing in the history of the connection; therefore the invariants
are about what comes behind.
-/

namespace Smalltable.Proofs

open Smalltable.Ref Smalltable.Spec

/-! ## All connections at once

The events of a batch say which connection moves, and on which side. A connection sees
only its own, so each keeps the invariant of a connection by itself. -/

section Links

variable {ω : Type} {processMulti : ω → Io → Bytes → Option (ω × Io × Int)}
  {capServer capProxy : Nat}

theorem linkStep_proxy {s s' : Link ω} {a : ClientAction}
    (hs : linkStep processMulti capServer capProxy s (.proxy a) = some s') :
    linkAllows capServer capProxy s (.proxy a) = true ∧
      clientStep s.pool s.exchange a = some (s'.pool, s'.exchange) := by
  unfold linkStep at hs
  split at hs
  · next hallow =>
      simp only [] at hs
      split at hs
      · cases hs
      · next p' x' hx =>
          cases hs
          exact ⟨hallow, hx⟩
  · cases hs

theorem linkStep_server {s s' : Link ω} {a : ConnAction}
    (hs : linkStep processMulti capServer capProxy s (.server a) = some s') :
    s'.pool = s.pool ∧ s'.exchange = s.exchange := by
  unfold linkStep at hs
  split at hs
  · simp only [] at hs
    split at hs
    · cases hs
    · cases hs
      exact ⟨rfl, rfl⟩
  · cases hs

theorem update_map_exchange (links : Nat → Option (Link ω)) (i : Nat) (s : Link ω) :
    (fun j => (if j = i then some s else links j).map (·.exchange))
      = fun j => if j = i then some s.exchange else (links j).map (·.exchange) := by
  funext j
  split <;> rfl

/-- The proxy serves its chains of callbacks, as it does without looking at what
is behind the network. -/
theorem serveLinks_serveEvents : ∀ {acts : List ClusterAction} {p p' : Pool}
    {links links' : Nat → Option (Link ω)},
    serveLinks processMulti capServer capProxy p links acts = some (p', links') →
    Proxy.serveEvents p (fun i => (links i).map (·.exchange)) (netOf acts)
      = some (p', fun i => (links' i).map (·.exchange)) := by
  intro acts
  induction acts with
  | nil => intro p p' links links' h; cases h; rfl
  | cons e rest ih =>
      intro p p' links links' h
      rw [serveLinks] at h
      split at h
      · cases h
      · next s hs =>
          split at h
          · cases h
          · next s' hstep =>
              have hrest := ih h
              rw [update_map_exchange] at hrest
              cases ha : e.action with
              | proxy a =>
                  rw [ha] at hstep
                  obtain ⟨-, hclient⟩ := linkStep_proxy hstep
                  have hnet : netOf (e :: rest) = ⟨e.server, a⟩ :: netOf rest := by
                    rw [netOf, List.filterMap_cons_some (by rw [ha])]
                    rfl
                  rw [hnet, Proxy.serveEvents, hs]
                  simp only [Option.map_some]
                  rw [hclient]
                  exact hrest
              | server a =>
                  rw [ha] at hstep
                  obtain ⟨hpool, hexchange⟩ := linkStep_server hstep
                  have hnet : netOf (e :: rest) = netOf rest := by
                    rw [netOf, List.filterMap_cons_none (by rw [ha])]
                    rfl
                  have hsame : (fun j => if j = e.server then some s'.exchange
                      else (links j).map (·.exchange)) = fun j => (links j).map (·.exchange) := by
                    funext j
                    by_cases hj : j = e.server
                    · rw [if_pos hj, hexchange, hj, hs]
                      rfl
                    · rw [if_neg hj]
                  have hpool : s'.pool = p := hpool
                  rw [hnet]
                  rw [hsame, hpool] at hrest
                  exact hrest

variable {l : List Nat} {S : Nat → Service ω} {pre : Nat → Bytes}
  {reqs answers : Nat → List Bytes}

/-- Whatever happens on the other connections. -/
theorem serveLinks_serving (srv : Nat → Backend)
    (hrep : ∀ i ∈ l, Replies processMulti (S i) (pre i) (reqs i) (answers i)) :
    ∀ {acts : List ClusterAction} {p p' : Pool} {links links' : Nat → Option (Link ω)},
    (∀ i ∈ l, ∃ s, links i = some s ∧ Serving (S i) (pre i) (reqs i) (srv i) s) →
    (∀ i, i ∉ l → links i = none) →
    serveLinks processMulti capServer capProxy p links acts = some (p', links') →
    (∀ i ∈ l, ∃ s, links' i = some s ∧ Serving (S i) (pre i) (reqs i) (srv i) s) ∧
    (∀ i, i ∉ l → links' i = none) ∧
    ∀ e ∈ netOf acts, e.server ∈ l ∧ Benign (srv e.server) e.action := by
  intro acts
  induction acts with
  | nil =>
      intro p p' links links' hin hout h
      cases h
      exact ⟨hin, hout, fun e he => by cases he⟩
  | cons e rest ih =>
      intro p p' links links' hin hout h
      rw [serveLinks] at h
      split at h
      · cases h
      · next s hs =>
          split at h
          · cases h
          · next s' hstep =>
              have hmem : e.server ∈ l := by
                by_contra hnot
                rw [hout _ hnot] at hs
                cases hs
              obtain ⟨s0, hs0, hserving⟩ := hin _ hmem
              rw [hs] at hs0
              cases hs0
              obtain ⟨hin', hout', hnet⟩ := ih (by
                intro i hi
                by_cases heq : i = e.server
                · rw [if_pos heq]
                  rw [heq]
                  exact ⟨s', rfl, hserving.step (hrep _ hmem) hstep⟩
                · rw [if_neg heq]
                  exact hin i hi) (by
                intro i hi
                rw [if_neg fun heq => hi (by rw [heq]; exact hmem)]
                exact hout i hi) h
              refine ⟨hin', hout', fun e' he' => ?_⟩
              rw [netOf, List.mem_filterMap] at he'
              obtain ⟨e0, he0, hsome⟩ := he'
              rcases List.mem_cons.mp he0 with heq | he0
              · rw [heq] at hsome
                cases ha : e.action with
                | proxy a =>
                    rw [ha] at hsome hstep
                    cases hsome
                    obtain ⟨hallow, hclient⟩ := linkStep_proxy hstep
                    exact ⟨hmem, benign_of_linkAllows hallow hserving.start hclient⟩
                | server a =>
                    rw [ha] at hsome
                    cases hsome
              · exact hnet e' (List.mem_filterMap.mpr ⟨e0, he0, hsome⟩)

/-- A connection before its first step. -/
def freshLink (srv : Backend) (e : ServerEnd ω) : Link ω where
  exchange := { srv := srv }
  conn := e.conn
  toProxy := e.toProxy

theorem serving_start {S : Service ω} {pre : Bytes} {reqs : List Bytes} {srv : Backend}
    {e : ServerEnd ω} (hprep : Prepared reqs srv) (hto : e.toProxy = []) (hsent : e.conn.sent = pre)
    (halong : Along S reqs reqs.flatten e.conn [] [] reqs [] []) :
    Serving S pre reqs srv (freshLink srv e) := by
  refine ⟨⟨[], [], .inl hprep.inFlight⟩, rfl, fun _ => rfl, ⟨[], [], reqs, [], [], halong⟩, ?_⟩
  show pre ++ [] ++ e.toProxy = e.conn.sent
  rw [hto, hsent, List.append_nil, List.append_nil]

end Links

/-! ## A server and its state

With the engine as a map, what a server answers is a function of the requests it has
served so far. `AtRest` says that it has answered everything it has read, and that
nothing is left in its buffers. -/

section Data

variable {σ γ : Type} (eng : MapEngine σ)

/-- The data commands, on a connection on which `pre` has been sent before. -/
def batchService (pre : Bytes) (st : State) : Service (World σ γ) where
  world := (dataService eng st).world
  answer := fun done => pre ++ (dataService (γ := γ) eng st).answer done

/-- What a server answers to its part of a batch. -/
def framesOf (st : State) (reqs : List Bytes) : List Bytes :=
  (serveRun nextCas st (reqs.map unpackRequest)).2.map Response.frame

/-- The answers stay below the limit of `builtin_commands_callback`. -/
def WithinOutput (st : State) (reqs : List Bytes) : Prop :=
  (framesOf st reqs).flatten.length < outputLimit

/-- The values of a map are as long as the protocol allows. -/
def ValuesFit (m : Map) : Prop := ∀ key it, m key = some it → it.value.length ≤ maxValueSize

/-- An answer that fits the protocol. -/
def AnswerFits (r : Response) : Prop := r.extras.length < 256 ∧ r.value.length ≤ maxValueSize

theorem answerFits_of_nil {r : Response} (hext : r.extras = [])
    (hval : r.value.length ≤ maxValueSize) : AnswerFits r := by
  refine ⟨?_, hval⟩
  rw [hext]
  decide

theorem answerFits_failure (req : StReq) {status : Nat}
    (hstr : ((errorCodes status).getD []).length ≤ maxValueSize) :
    AnswerFits (Spec.failure req status) := answerFits_of_nil rfl hstr

theorem ValuesFit.update {m : Map} (h : ValuesFit m) (key : Bytes) {item : Option Item}
    (hitem : ∀ it, item = some it → it.value.length ≤ maxValueSize) :
    ValuesFit (Function.update m key item) := by
  intro key' it hit
  by_cases hkey : key' = key
  · rw [hkey, Function.update_self] at hit
    exact hitem it hit
  · rw [Function.update_of_ne hkey] at hit
    exact h key' it hit

theorem serveStep_fits (draw : Nat → Nat × Nat) {st : State} {req : StReq}
    (hvalue : req.value.length ≤ maxValueSize) (hst : ValuesFit st.map) :
    ValuesFit (serveStep draw st req).1.map ∧ AnswerFits (serveStep draw st req).2 := by
  have hinvalid : AnswerFits (Spec.failure req memcacheStatusInvalidArguments) :=
    answerFits_failure req (by decide)
  have hok : AnswerFits (answer req memcacheStatusOk) := answerFits_of_nil rfl (Nat.zero_le _)
  rw [serveStep]
  split
  · rw [Spec.step]
    split
    · exact ⟨hst, hinvalid⟩
    · split
      · split
        · exact ⟨hst, answerFits_failure req (by decide)⟩
        · next it hit =>
            refine ⟨hst, ?_, hst _ it hit⟩
            show (beBytes 4 it.flags).length < 256
            rw [length_beBytes]
            decide
      · split
        · split
          · exact ⟨hst, answerFits_failure req (by decide)⟩
          · refine ⟨hst.update _ fun it hit => ?_, hok⟩
            cases hit
        · simp only []
          split
          · refine ⟨hst.update _ fun it hit => ?_, answerFits_of_nil rfl (Nat.zero_le _)⟩
            cases hit
            exact hvalue
          · refine ⟨hst, answerFits_failure req ?_⟩
            rw [refusalStatus]
            split
            · decide
            · split <;> decide
  · split
    · exact ⟨hst, hinvalid⟩
    · split
      · exact ⟨hst, answerFits_of_nil rfl (show versionText.length ≤ maxValueSize by decide)⟩
      · exact ⟨hst, hok⟩

theorem serveRun_fits {draw : Nat → Nat × Nat} {reqs : List StReq} {st : State}
    (hvalue : ∀ req ∈ reqs, req.value.length ≤ maxValueSize) (hst : ValuesFit st.map) :
    ∀ r ∈ (serveRun draw st reqs).2, AnswerFits r := by
  induction reqs generalizing st with
  | nil => intro r hr; cases hr
  | cons req rest ih =>
      obtain ⟨hst', hanswer⟩ := serveStep_fits draw (hvalue req List.mem_cons_self) hst
      rw [serveRun]
      exact List.forall_mem_cons.mpr
        ⟨hanswer, ih (fun q hq => hvalue q (List.mem_cons_of_mem _ hq)) hst'⟩

theorem value_fits {f : Bytes} (h : WellFormed 0x80 f) :
    (unpackRequest f).value.length ≤ maxValueSize := by
  obtain ⟨-, -, -, hfits, hvalue, -⟩ := h.facts
  have hmax := maxValueSize_eq
  have hslice : (unpackRequest f).value.length
      ≤ (mcGetBodyLength f + 2 ^ 33 - mcGetExtrasLength f - mcGetKeyLength f) % 2 ^ 32 := by
    show (slice _ _ _).length ≤ _
    rw [slice, List.length_take]
    exact Nat.min_le_left _ _
  omega

section Frames

variable {st : State} {reqs : List Bytes}

theorem length_framesOf (st : State) (reqs : List Bytes) :
    (framesOf st reqs).length = reqs.length := by
  rw [framesOf, List.length_map, length_serveRun, List.length_map]

theorem framesOf_wellFormed (hst : ValuesFit st.map) (hreqs : ∀ f ∈ reqs, WellFormed 0x80 f) :
    ∀ f ∈ framesOf st reqs, WellFormed 0x81 f := by
  intro f hf
  obtain ⟨r, hr, rfl⟩ := List.mem_map.mp hf
  obtain ⟨hext, hval⟩ := serveRun_fits (fun req hreq => by
    obtain ⟨g, hg, rfl⟩ := List.mem_map.mp hreq
    exact value_fits (hreqs g hg)) hst r hr
  exact Response.frame_wellFormed hext hval

theorem framesOf_append (st : State) (done rest : List Bytes) :
    framesOf st (done ++ rest) = framesOf st done
      ++ framesOf (serveRun nextCas st (done.map unpackRequest)).1 rest := by
  rw [framesOf, List.map_append, serveRun_append, List.map_append]
  rfl

/-- The first answers are those to the first requests. -/
theorem take_framesOf {done : List Bytes} (h : done <+: reqs) :
    (framesOf st reqs).take done.length = framesOf st done := by
  obtain ⟨rest, rfl⟩ := h
  rw [framesOf_append]
  exact List.take_left' (length_framesOf st done)

end Frames

theorem replies_data (vx : Vx γ) (cfg : Config γ) (pre : Bytes) {st : State} {reqs : List Bytes}
    (hst : ValuesFit st.map) (hdata : ∀ f ∈ reqs, DataRequest f)
    (hsmall : (framesOf st reqs).flatten.length < outputLimit + 24) :
    Replies (processMulti eng.toStStorageApi vx cfg) (batchService eng pre st) pre reqs
      (framesOf st reqs) := by
  have hreqs : ∀ f ∈ reqs, WellFormed 0x80 f := fun f hf => (hdata f hf).1
  refine ⟨hreqs, framesOf_wellFormed hst hreqs, length_framesOf st reqs, fun done hdone => ?_,
    fun w io done batch out hne hbatch hout hsuffix => ?_⟩
  · rw [take_framesOf hdone]
    rfl
  · have hdone : done <+: reqs := (List.prefix_append done batch).trans hbatch
    rw [take_framesOf hdone] at hsuffix
    intro out' hout' hworld
    have hhandles : Handles (processMulti eng.toStStorageApi vx cfg) (dataService eng st) w io
        done batch := by
      refine handles_data eng vx cfg hne (fun f hf => hdata f
        (hbatch.subset (List.mem_append_right _ hf))) fun out1 hout1 _ => batchRun_eq_serveRun ?_
      have hle := hsuffix.length_le
      have hsame : out1 = out := hout1.reader.symm.trans hout.reader
      obtain ⟨rest, hrest⟩ := hbatch
      have hbytes : (bytesOf (serveRun nextCas (serveRun nextCas st (done.map unpackRequest)).1
          (batch.map unpackRequest)).2).length
          = (framesOf (serveRun nextCas st (done.map unpackRequest)).1 batch).flatten.length := rfl
      rw [← hrest, framesOf_append, framesOf_append, List.flatten_append, List.flatten_append,
        List.length_append, List.length_append] at hsmall
      rw [hbytes, hsame]
      omega
    obtain ⟨w', io', new, hs, hworld', hanswer, hnew, hout'', hkeep⟩ := hhandles out' hout' hworld
    refine ⟨w', io', new, hs, hworld', ?_, hnew, hout'', hkeep⟩
    show pre ++ _ = pre ++ _ ++ new
    rw [hanswer, List.append_assoc]

/-- A server that has served everything and has sent all answers, in the state
`st`. -/
structure AtRest (st : State) (e : ServerEnd (World σ γ)) : Prop where
  along : Along (batchService eng e.conn.sent st) [] [] e.conn [] [] [] [] []
  toProxy : e.toProxy = []

variable {eng} {st : State} {e : ServerEnd (World σ γ)}

theorem AtRest.valuesFit (h : AtRest eng st e) : ValuesFit st.map :=
  fun key it hit => (h.along.world.2.1.ok key it hit).value

/-- A connection that has just been accepted. -/
theorem atRest_connNew {w : World σ γ} {m : Map} (hrep : Represents eng w.store m)
    (hinv : World.Inv w) (conn : Nat) (pool : Pool) :
    AtRest eng ⟨m, w.uniqueNumber⟩ ⟨connNew w conn pool [], []⟩ := by
  refine ⟨⟨rfl, ⟨hinv, hrep, rfl⟩, Buffer.holds_empty, rfl, rfl, rfl, ?_, .inl ?_,
    Buffer.holds_empty, rfl, rfl, rfl⟩, rfl⟩
  · intro f hf
    cases hf
  · intro f hf
    cases hf

/-- A batch begins. -/
theorem AtRest.start (h : AtRest eng st e) (reqs : List Bytes) :
    Along (batchService eng e.conn.sent st) reqs reqs.flatten e.conn [] [] reqs [] [] := by
  have halong := h.along
  have hinput : e.conn.input = [] := by simpa using halong.coming
  refine ⟨rfl, halong.world, halong.held, ?_, halong.off, halong.count, halong.quiet, .inl ?_,
    halong.send, halong.sent, halong.point⟩
  · rw [hinput]
    rfl
  · intro f hf
    cases hf

/-- A batch has been served. -/
theorem atRest_of_along {pre : Bytes} {reqs : List Bytes} (hto : e.toProxy = [])
    (h : Along (batchService eng pre st) reqs [] e.conn reqs [] [] [] []) :
    AtRest eng (serveRun nextCas st (reqs.map unpackRequest)).1 e := by
  refine ⟨⟨rfl, h.world, h.held, h.coming, h.off, h.count, h.quiet, .inl ?_, h.send, rfl,
    h.point⟩, hto⟩
  intro f hf
  cases hf

/-- A server at rest stays at rest, whatever its event loop does. -/
theorem AtRest.goesOn (vx : Vx γ) (cfg : Config γ) (h : AtRest eng st e)
    {a : ConnAction} {c : Conn (World σ γ)} (hopen : ConnAction.Open a)
    (hs : connStep (processMulti eng.toStStorageApi vx cfg) e.conn a = some c) :
    AtRest eng st ⟨c, e.toProxy ++ c.sent.drop e.conn.sent.length⟩ := by
  obtain ⟨done, pend, rest, more, out, halong⟩ := h.along.step
    (fun f hf => by cases hf) (fun batch hne hbatch _ => by
      rw [List.nil_append, List.prefix_nil] at hbatch
      exact absurd hbatch hne) hopen hs
  obtain ⟨hfront, hrest⟩ := List.append_eq_nil_iff.mp halong.split.symm
  obtain ⟨hdone, hpend⟩ := List.append_eq_nil_iff.mp hfront
  rw [hdone, hpend, hrest] at halong
  have hsent := halong.sent
  have hanswer : (batchService (γ := γ) eng e.conn.sent st).answer [] = e.conn.sent :=
    List.append_nil _
  obtain ⟨new, hnew⟩ := connStep_sent hs
  rw [hanswer, ← hnew, List.append_assoc] at hsent
  obtain ⟨hnil, hout⟩ := List.append_eq_nil_iff.mp
    (List.append_right_eq_self.mp hsent)
  rw [hnil, List.append_nil] at hnew
  have hmore := (List.append_eq_nil_iff.mp halong.coming).1
  rw [hout, hmore, hnew] at halong
  refine ⟨halong, ?_⟩
  show e.toProxy ++ c.sent.drop e.conn.sent.length = []
  rw [h.toProxy, hnew, List.drop_length]
  rfl

end Data

end Smalltable.Proofs
