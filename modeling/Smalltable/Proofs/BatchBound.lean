import Smalltable.Lib.Transition
import Smalltable.Proofs.ConnStream
import Smalltable.Proofs.Grouping
import Smalltable.Proofs.IoMoves
import Smalltable.Proofs.ProxyBatch
import Smalltable.Proofs.StoreRefine
import Smalltable.Ref.LibSt

/-!
# What `conn_recv` can hand over at once

`conn_recv` is shared by the server and the proxy, and all it knows of
`process_multi` is that some requests at the front of the batch are consumed
(`BatchHandler`). Nothing is assumed of the stream either, so the invariant
(`Gathered`) is about what the loop has looked at: the bytes in front of
`new_data` are requests that the size check has accepted, counted by
`requests`, and there are fewer than `MAX_REQUEST_SIZE` of them, since a
request is only held back while the whole buffer is shorter than that.

A batch has one request more. A request takes at least a header, so the limit
on the bytes is a limit on the count, and it lies below `MAX_QUIET_REQUESTS`;
the counter itself would let one request too many pass.
-/

namespace Smalltable.Proofs

open Smalltable.Ref Smalltable.Spec Relation

/-- What `conn_recv` relies on. -/
structure BatchHandler (ω : Type) where
  processMulti : ω → Io → Bytes → Option (ω × Io × Int)
  consumes : ∀ {w w' : ω} {io io' : Io} {n : Int} {batch : List Bytes},
    (∀ f ∈ batch, WellFormed 0x80 f) → batch ≠ [] →
    processMulti w io batch.flatten = some (w', io', n) →
    ∃ taken rest, batch = taken ++ rest ∧ taken ≠ [] ∧ n = taken.flatten.length
  keeps : ∀ {w w' : ω} {io io' : Io} {n : Int} {batch held : Bytes},
    processMulti w io batch = some (w', io', n) →
    io.recvBuf.Holds held → io'.recvBuf.Holds held

/-- A step of the connection, or of the others, which may do what they like to
the world and the pool. -/
inductive ConnMove {ω : Type} (h : BatchHandler ω) : Conn ω → Conn ω → Prop
  | own {c c' : Conn ω} {a : ConnAction} (hs : connStep h.processMulti c a = some c') :
      ConnMove h c c'
  | others (c : Conn ω) (w : ω) (p : Pool) :
      ConnMove h c { c with world := w, io := { c.io with pool := p } }

section Gathered

variable {ω : Type}

/-- `pend` have been looked at and held back, `more` lies behind them. -/
structure Gathered (c : Conn ω) (pend : List Bytes) (more : Bytes) : Prop where
  held : c.io.recvBuf.Holds (pend.flatten ++ more)
  wf : ∀ f ∈ pend, WellFormed 0x80 f
  off : c.quietRecvOff = pend.flatten.length
  count : c.io.requests = pend.length
  small : pend ≠ [] → pend.flatten.length < maxRequestSize

variable {c c' : Conn ω} {pend : List Bytes} {more : Bytes}

theorem gathered_connNew (w : ω) (conn : Nat) (pool : Pool) (stream : Bytes) :
    Gathered (connNew w conn pool stream) [] [] :=
  ⟨Buffer.holds_empty, nofun, rfl, rfl, fun h => absurd rfl h⟩

theorem Gathered.newData_eq (h : Gathered c pend more) : newData c = more := by
  rw [newData, h.held.reader, h.off, Int.toNat_natCast, List.drop_left]

/-- The size check accepts the next request. -/
theorem Gathered.next (h : Gathered c pend more)
    (hok : reqbufGetSaneRequestSz (newData c) 0x80 ≠ -1)
    (hmore : reqbufGetSaneRequestSz (newData c) 0x80 ≠ 0) :
    ∃ f rest, more = f ++ rest ∧ WellFormed 0x80 f ∧
      reqbufGetSaneRequestSz (newData c) 0x80 = f.length := by
  obtain ⟨hpos, hle, hwf⟩ := reqbufGetSaneRequestSz_take hok hmore
  rw [h.newData_eq] at hpos hle hwf ⊢
  refine ⟨_, more.drop (reqbufGetSaneRequestSz more 0x80).toNat,
    (List.take_append_drop _ more).symm, hwf, ?_⟩
  rw [List.length_take]
  omega

/-- What is handed over: what was held back and one request more. -/
theorem Gathered.batch (h : Gathered c pend more) {batch : Bytes} (hover : HandsOver c batch) :
    ∃ f, WellFormed 0x80 f ∧ batch = (pend ++ [f]).flatten := by
  have hwhole := hover.whole
  obtain ⟨f, rest, hmore, hwf, hsz⟩ := h.next (by omega) (by omega)
  refine ⟨f, hwf, ?_⟩
  rw [hover.batch, hsz, h.held.reader, h.off, List.flatten_append, List.flatten_singleton, hmore,
    ← List.append_assoc]
  refine List.take_left' ?_
  rw [List.length_append]
  omega

theorem Gathered.of_eq (h : Gathered c pend more) (hrecv : c'.io.recvBuf = c.io.recvBuf)
    (hoff : c'.quietRecvOff = c.quietRecvOff) (hcount : c'.io.requests = c.io.requests) :
    Gathered c' pend more :=
  ⟨hrecv ▸ h.held, h.wf, hoff.trans h.off, hcount.trans h.count, h.small⟩

/-! ## One step

Receiving adds bytes behind those that were looked at; holding a request back adds one
to both counts; handing over takes away what was consumed, which are whole requests from
the front, and sets both counts to zero. Sending does not touch `recv_buf`. -/

theorem Gathered.step_recv (h : Gathered c pend more) {r : RecvResult}
    (hs : connRetryRecv c r = some c') : ∃ more', Gathered c' pend more' := by
  have hheld := bufGetWriter_holds h.held c.io.pool 0
  have hprod : ∀ bs : Bytes, (bufProduce (bufGetWriter c.io.pool c.io.recvBuf 0).2.1 bs).Holds
      (pend.flatten ++ (more ++ bs)) := by
    intro bs
    rw [← List.append_assoc]
    exact bufProduce_holds hheld bs
  unfold connRetryRecv at hs
  cases r with
  | got n =>
      simp only [] at hs
      split at hs
      · cases hs
        exact ⟨_, hprod _, h.wf, h.off, h.count, h.small⟩
      · cases hs
  | again =>
      cases hs
      exact ⟨_, hprod [], h.wf, h.off, h.count, h.small⟩
  | eof =>
      cases hs
      exact ⟨more, hheld, h.wf, h.off, h.count, h.small⟩
  | error =>
      cases hs
      exact ⟨more, hheld, h.wf, h.off, h.count, h.small⟩

/-- Whatever `process_multi` has consumed, the rest is looked at again. -/
theorem gathered_connProcess (handler : BatchHandler ω) {batch : List Bytes}
    (hheld : c.io.recvBuf.Holds (batch.flatten ++ more)) (hwf : ∀ f ∈ batch, WellFormed 0x80 f)
    (hoff : c.quietRecvOff = batch.flatten.length) (hne : batch ≠ [])
    (hs : connProcess handler.processMulti c = some c') :
    ∃ more', Gathered c' [] more' := by
  have hbatch : (bufGetReader c.io.recvBuf).take c.quietRecvOff.toNat = batch.flatten := by
    rw [hheld.reader, hoff, Int.toNat_natCast, List.take_left]
  rw [connProcess, hbatch] at hs
  split at hs
  · cases hs
  · next w io consumed hmulti =>
      obtain ⟨taken, rest, rfl, -, hn⟩ := handler.consumes hwf hne hmulti
      have hheld' := handler.keeps hmulti hheld
      rw [List.flatten_append, List.append_assoc] at hheld'
      have hcons := bufConsume_holds (p := io.pool) hheld' hn
      cases hs
      exact ⟨rest.flatten ++ more, hcons, by simp, rfl, rfl, fun hnil => absurd rfl hnil⟩

theorem Gathered.step_swallow (handler : BatchHandler ω) (h : Gathered c pend more)
    {written : Bool} (hs : connSwallow handler.processMulti c written = some c') :
    ∃ pend' more', Gathered c' pend' more' := by
  rw [connSwallow] at hs
  simp only [] at hs
  split at hs
  · cases hs
    exact ⟨pend, more, h.of_eq rfl rfl rfl⟩
  · next hok =>
      split at hs
      · cases hs
        exact ⟨pend, more, h.of_eq rfl rfl rfl⟩
      · next hmore =>
          obtain ⟨f, rest, hf, hwf, hsz⟩ := h.next hok hmore
          have hflat : (pend ++ [f]).flatten = pend.flatten ++ f := by
            rw [List.flatten_append, List.flatten_singleton]
          have hlen : (pend ++ [f]).flatten.length = pend.flatten.length + f.length := by
            rw [hflat, List.length_append]
          have hheld : c.io.recvBuf.Holds ((pend ++ [f]).flatten ++ rest) := by
            rw [hflat, List.append_assoc, ← hf]
            exact h.held
          have hoff : c.quietRecvOff + f.length = (pend ++ [f]).flatten.length := by
            rw [h.off, hlen]
            omega
          have hcount : c.io.requests + 1 = (pend ++ [f]).length := by
            rw [h.count, List.length_append, List.length_singleton]
            omega
          have hwf' : ∀ g ∈ pend ++ [f], WellFormed 0x80 g := by
            intro g hg
            rcases List.mem_append.mp hg with hg | hg
            · exact h.wf g hg
            · rw [List.mem_singleton.mp hg]
              exact hwf
          rw [hsz] at hs
          split at hs
          · next hhold =>
              cases hs
              refine ⟨pend ++ [f], rest, hheld, hwf', hoff, hcount, fun _ => ?_⟩
              have hdata := hhold.2.1
              rw [hheld.reader, List.length_append] at hdata
              omega
          · obtain ⟨more', h'⟩ := gathered_connProcess (c := { c with
                quietRecvOff := c.quietRecvOff + f.length
                io := { c.io with requests := c.io.requests + 1 } }) handler hheld hwf' hoff
              (List.concat_ne_nil f pend) hs
            exact ⟨[], more', h'⟩

theorem Gathered.step_send (h : Gathered c pend more) {r : SendResult}
    (hs : connSend c r = some c') : Gathered c' pend more := by
  have hafter : ∀ (d : Conn ω) (b : Bool), Gathered d pend more →
      Gathered (connAfterSend d b) pend more := by
    intro d b hd
    rw [connAfterSend]
    split
    · exact hd.of_eq rfl rfl rfl
    · exact hd.of_eq rfl rfl rfl
  unfold connSend at hs
  simp only [] at hs
  split at hs
  · cases hs
  · cases r with
    | sent n =>
        simp only [] at hs
        split at hs
        · cases hs
          exact hafter _ _ (h.of_eq rfl rfl rfl)
        · cases hs
    | again =>
        cases hs
        exact hafter c false h
    | error =>
        cases hs
        exact h.of_eq rfl rfl rfl

theorem Gathered.step (handler : BatchHandler ω) (h : Gathered c pend more)
    (hmove : ConnMove handler c c') : ∃ pend' more', Gathered c' pend' more' := by
  cases hmove with
  | others w p => exact ⟨pend, more, h.of_eq rfl rfl rfl⟩
  | own hs =>
      rcases connStep_cases _ hs with ⟨-, -, rfl⟩ | ⟨r, -, -, hs⟩ | ⟨written, -, -, hs⟩ |
        ⟨r, -, -, hs⟩ | ⟨-, -, -, rfl⟩
      · exact ⟨pend, more, h.of_eq rfl rfl rfl⟩
      · obtain ⟨more', h'⟩ := h.step_recv hs
        exact ⟨pend, more', h'⟩
      · exact h.step_swallow handler hs
      · exact ⟨pend, more, h.step_send hs⟩
      · rw [connAfterSend]
        exact ⟨pend, more, h.of_eq rfl rfl rfl⟩

theorem gathered_run (handler : BatchHandler ω) {w : ω} {conn : Nat} {pool : Pool}
    {stream : Bytes} (hrun : ReflTransGen (ConnMove handler) (connNew w conn pool stream) c) :
    ∃ pend more, Gathered c pend more :=
  run_invariant (P := fun c => ∃ pend more, Gathered c pend more)
    (fun _ _ ⟨_, _, h⟩ hmove => h.step handler hmove)
    ⟨[], [], gathered_connNew w conn pool stream⟩ hrun

/-- The world of a connection changes with its batches only. -/
theorem Gathered.world_step (handler : BatchHandler ω) {K : ω → Prop}
    (hmulti : ∀ {w w' : ω} {io io' : Io} {n : Int} {batch : List Bytes},
      (∀ f ∈ batch, WellFormed 0x80 f) →
      handler.processMulti w io batch.flatten = some (w', io', n) → K w → K w')
    (h : Gathered c pend more) (hk : K c.world) {a : ConnAction}
    (hs : connStep handler.processMulti c a = some c') :
    K c'.world := by
  rcases connStep_cases _ hs with ⟨-, -, rfl⟩ | ⟨r, -, -, hs⟩ | ⟨written, hpc, -, hs⟩ |
    ⟨r, -, -, hs⟩ | ⟨-, -, -, rfl⟩
  · exact hk
  · unfold connRetryRecv at hs
    cases r with
    | got n =>
        simp only [] at hs
        split at hs
        · cases hs
          exact hk
        · cases hs
    | again =>
        cases hs
        exact hk
    | eof =>
        cases hs
        exact hk
    | error =>
        cases hs
        exact hk
  · rw [connSwallow] at hs
    simp only [] at hs
    split at hs
    · cases hs
      exact hk
    · next hok =>
        split at hs
        · cases hs
          exact hk
        · next hmore =>
            split at hs
            · cases hs
              exact hk
            · next hhold =>
                have hpos := (reqbufGetSaneRequestSz_take hok hmore).1
                obtain ⟨f, hf, hbatch⟩ := h.batch ⟨⟨written, hpc⟩, hpos, hhold, rfl⟩
                rw [connProcess] at hs
                simp only [hbatch] at hs
                split at hs
                · cases hs
                · next hserved =>
                    cases hs
                    refine hmulti (fun g hg => ?_) hserved hk
                    rcases List.mem_append.mp hg with hg | hg
                    · exact h.wf g hg
                    · rw [List.mem_singleton.mp hg]
                      exact hf
  · unfold connSend at hs
    simp only [] at hs
    split at hs
    · cases hs
    · cases r with
      | sent n =>
          simp only [] at hs
          split at hs
          · cases hs
            rw [connAfterSend]
            split
            · exact hk
            · exact hk
          · cases hs
      | again =>
          cases hs
          exact hk
      | error =>
          cases hs
          exact hk
  · exact hk

/-! ## The bounds

Before the last request was added there were fewer than `MAX_REQUEST_SIZE` bytes, and a
request is no longer than that. The count is bounded by the bytes: it takes 24 of them
to make a request. -/

/-- A batch that is handed over is made of requests that the size check has
accepted, and is within both limits. -/
structure BatchOk (batch : Bytes) (frames : List Bytes) : Prop where
  flatten : batch = frames.flatten
  wf : ∀ f ∈ frames, WellFormed 0x80 f
  count : frames.length ≤ maxQuietRequests
  length : batch.length < 2 * maxRequestSize

theorem Gathered.batchOk (h : Gathered c pend more) {batch : Bytes} (hover : HandsOver c batch) :
    ∃ frames, BatchOk batch frames := by
  obtain ⟨f, hf, hbatch⟩ := h.batch hover
  have hmax := maxRequestSize_eq
  have hmaxq := maxQuietRequests_eq
  have hhdr := memcacheHeaderSize_eq
  have hflen := hf.facts.length_lt
  have hpend : pend.flatten.length < maxRequestSize := by
    by_cases hnil : pend = []
    · rw [hnil, List.flatten_nil, List.length_nil]
      omega
    · exact h.small hnil
  have hcount := header_mul_length_le h.wf
  refine ⟨pend ++ [f], hbatch, ?_, ?_, ?_⟩
  · intro g hg
    rcases List.mem_append.mp hg with hg | hg
    · exact h.wf g hg
    · rw [List.mem_singleton.mp hg]
      exact hf
  · rw [List.length_append, List.length_singleton]
    rw [hhdr] at hcount
    omega
  · rw [hbatch, List.flatten_append, List.flatten_singleton, List.length_append]
    omega

end Gathered

/-! ## What the two handlers make of it

The server consumes the whole batch, the proxy perhaps only its first part, when the
table of `servers` runs out. Both are a `BatchHandler`: they leave `recv_buf` as a
reader sees it and consume requests, at least one. -/

section Server

variable {σ γ : Type} (api : StStorageApi σ) (vx : Vx γ) (cfg : Config γ)

theorem IoMoves.recv_holds {io io' : Io} (h : IoMoves io io') {held : Bytes}
    (hheld : io.recvBuf.Holds held) : io'.recvBuf.Holds held := by
  induction h with
  | refl => exact hheld
  | tail _ hmove ih =>
      cases hmove with
      | recvRoom n => exact bufGetWriter_holds ih _ n
      | sendRoom n => exact ih
      | produce bs _ => exact ih
      | rollback n => exact ih

/-- The server consumes all of its batch. -/
def serverHandler : BatchHandler (World σ γ) where
  processMulti := processMulti api vx cfg
  consumes := by
    intro w w' io io' n batch _ hne hs
    obtain ⟨-, hn⟩ := processMulti_moves api vx cfg hs
    exact ⟨batch, [], (List.append_nil batch).symm, hne, hn⟩
  keeps := by
    intro w w' io io' n batch held hs hheld
    exact (processMulti_moves api vx cfg hs).1.recv_holds hheld

/-- A group is a part of the batch. -/
theorem batchRuns_length (w : World σ γ) (io : Io) (batch : List Bytes) :
    ∀ r ∈ batchRuns api vx cfg w io batch, r.group.reqBuf.length ≤ batch.flatten.length := by
  intro r hr
  obtain ⟨hbuf, before, after, hbatch⟩ := batchRuns_neighbours api vx cfg r hr
  rw [hbuf, ← hbatch, List.flatten_append, List.flatten_append, List.length_append,
    List.length_append]
  omega

end Server

section Proxy

variable (env : ProxyEnv)

/-- What the loop body does to the two counters. It leaves in front of the request
only when it has just found the last server it may have. -/
theorem collectStep_counts {conn : Nat} {c : Proxy.Collect} {f : Bytes}
    {r : ForInStep Proxy.Collect} (hs : Proxy.collectStep env conn c f = some r) :
    (∃ c', (r = .done c' ∨ r = .yield c') ∧ c'.order.length = c.order.length + 1 ∧
      c'.consumed = c.consumed + f.length) ∨
    (∃ c', r = .done c' ∧ c'.order = c.order ∧ c'.consumed = c.consumed ∧
      Proxy.nelemServers ≤ c.servers.length + 1) := by
  have hadvance : ∀ {c1 : Proxy.Collect} (src : Option Nat), c1.order = c.order →
      c1.consumed = c.consumed → ∃ c', (Proxy.advance c1 f src = .done c' ∨
        Proxy.advance c1 f src = .yield c') ∧ c'.order.length = c.order.length + 1 ∧
        c'.consumed = c.consumed + f.length := by
    intro c1 src horder hconsumed
    refine ⟨{ c1 with order := c1.order ++ [src], consumed := c1.consumed + f.length }, ?_, ?_, ?_⟩
    · rw [Proxy.advance]
      split
      · exact .inl rfl
      · exact .inr rfl
    · show (c1.order ++ [src]).length = c.order.length + 1
      rw [List.length_append, List.length_singleton, horder]
    · show c1.consumed + f.length = _
      rw [hconsumed]
  rw [Proxy.collectStep] at hs
  split at hs
  · split at hs
    · cases hs
    · cases hs
      exact .inl (hadvance none rfl rfl)
  · split at hs
    · cases hs
    · next srv hsrv =>
        split at hs
        · cases hs
        · next b hb =>
            have hone : (if 0 = b.requests then c.servers ++ [srv.ptr] else c.servers).length
                ≤ c.servers.length + 1 := by
              split
              · rw [List.length_append, List.length_singleton]
              · exact Nat.le_succ _
            simp only [] at hs
            generalize (if 0 = b.requests then c.servers ++ [srv.ptr] else c.servers) = servers
              at hs hone
            split at hs
            · next hfull =>
                cases hs
                exact .inr ⟨_, rfl, rfl, rfl, hfull ▸ hone⟩
            · cases hs
              exact .inl (hadvance (some srv.ptr) rfl rfl)

/-- The loop stops behind some of the requests and has an entry of `order` for
each; it cannot stop in front of the first one, which brings one server at
most. -/
theorem collect_prefix {conn : Nat} (batch : List Bytes) {c c' : Proxy.Collect}
    (hs : foldFrames (Proxy.collectStep env conn) c batch = some c') :
    ∃ taken rest, batch = taken ++ rest ∧ c'.consumed = c.consumed + taken.flatten.length ∧
      c'.order.length = c.order.length + taken.length ∧
      (taken = [] → batch = [] ∨ Proxy.nelemServers ≤ c.servers.length + 1) := by
  induction batch generalizing c with
  | nil =>
      cases hs
      exact ⟨[], [], rfl, (Int.add_zero _).symm, rfl, fun _ => .inl rfl⟩
  | cons f rest ih =>
      rw [foldFrames] at hs
      cases hstep : Proxy.collectStep env conn c f with
      | none =>
          rw [hstep] at hs
          cases hs
      | some r =>
          rw [hstep] at hs
          rcases collectStep_counts env hstep with ⟨c1, hr, horder, hconsumed⟩ |
            ⟨c1, rfl, horder, hconsumed, hfull⟩
          · rcases hr with rfl | rfl
            · cases hs
              refine ⟨[f], rest, rfl, ?_, horder, by simp⟩
              rw [List.flatten_singleton]
              exact hconsumed
            · obtain ⟨taken, rest', rfl, hconsumed', horder', -⟩ := ih hs
              refine ⟨f :: taken, rest', rfl, ?_, ?_, by simp⟩
              · rw [hconsumed', hconsumed, List.flatten_cons, List.length_append]
                omega
              · rw [horder', horder, List.length_cons]
                omega
          · cases hs
            exact ⟨[], f :: rest, rfl, hconsumed.trans (Int.add_zero _).symm,
              congrArg List.length horder, fun _ => .inr hfull⟩

theorem deliver_recv {order : List (Option Nat)} {w w' : ProxyWorld} {io io' : Io}
    (hs : Proxy.deliver order w io = some (w', io')) : io'.recvBuf = io.recvBuf := by
  induction order generalizing w io with
  | nil =>
      cases hs
      rfl
  | cons src rest ih =>
      rw [Proxy.deliver] at hs
      split at hs
      · cases hs
      · simp only [] at hs
        split at hs
        · exact (ih hs).trans rfl
        · cases hs

/-- The proxy, with what its network does next as a part of its world. -/
def proxyHandler : BatchHandler (ProxyWorld × List Proxy.NetEvent) where
  processMulti := fun w io batch =>
    (Proxy.processMulti env w.2 w.1 io batch).map fun r => ((r.1, w.2), r.2)
  consumes := by
    intro w w' io io' n batch hwf hne hs
    obtain ⟨⟨w1, io1, n1⟩, hmulti, heq⟩ := Option.map_eq_some_iff.mp hs
    cases heq
    rw [Proxy.processMulti, Proxy.collect, forRequests_flatten hwf] at hmulti
    split at hmulti
    · cases hmulti
    · next c hc =>
        split at hmulti
        · cases hmulti
        · split at hmulti
          · cases hmulti
          · cases hmulti
            obtain ⟨taken, rest, hbatch, hconsumed, -, hfull⟩ := collect_prefix env batch hc
            refine ⟨taken, rest, hbatch, fun hnil => ?_, ?_⟩
            · rcases hfull hnil with hempty | hservers
              · exact hne hempty
              · have hfew : ¬ Proxy.nelemServers ≤ 1 := by decide
                exact absurd hservers hfew
            · rw [hconsumed]
              exact Int.zero_add _
  keeps := by
    intro w w' io io' n batch held hs hheld
    obtain ⟨⟨w1, io1, n1⟩, hmulti, heq⟩ := Option.map_eq_some_iff.mp hs
    cases heq
    rw [Proxy.processMulti] at hmulti
    split at hmulti
    · cases hmulti
    · split at hmulti
      · cases hmulti
      · split at hmulti
        · cases hmulti
        · next hdeliver =>
            cases hmulti
            rw [deliver_recv hdeliver]
            exact hheld

end Proxy

/-! ## The two limits

Two arrays of a fixed size rely on the bounds: the proxy records a server for every
request of a batch, and a plugin gives `st_read_requests` a buffer for a whole group. -/

/-- On any stream, however it is cut, and whatever of its batches is consumed: a
batch that is handed over has at most `MAX_QUIET_REQUESTS` requests and less
than twice `MAX_REQUEST_SIZE` bytes. So the proxy has an entry of `order` left
for each request it comes to, and a group of the server fits in the buffer of a
plugin. -/
theorem handedOver_bounded {ω : Type} (handler : BatchHandler ω) {w : ω} {conn : Nat}
    {pool : Pool} {stream : Bytes} {c : Conn ω}
    (hrun : ReflTransGen (ConnMove handler) (connNew w conn pool stream) c) {batch : Bytes}
    (hover : HandsOver c batch) :
    ∃ frames, BatchOk batch frames ∧
      (∀ (env : ProxyEnv) (conn : Nat) (p : Pool) (w : ProxyWorld) (before : List Bytes)
        (f : Bytes) (after : List Bytes) (s : Proxy.Collect), frames = before ++ f :: after →
        Proxy.collect env conn p w before.flatten = some s →
        s.order.length < maxQuietRequests) ∧
      ∀ {σ γ : Type} (api : StStorageApi σ) (vx : Vx γ) (cfg : Config γ) (w : World σ γ) (io : Io),
        ∀ r ∈ batchRuns api vx cfg w io frames,
          r.group.reqBuf.length ≤ LibSt.readRequestsBufSz := by
  obtain ⟨pend, more, h⟩ := gathered_run handler hrun
  obtain ⟨frames, hok⟩ := h.batchOk hover
  refine ⟨frames, hok, ?_, ?_⟩
  · intro env conn p w before f after s hframes hs
    have hwf : ∀ g ∈ before, WellFormed 0x80 g := by
      intro g hg
      refine hok.wf g ?_
      rw [hframes]
      exact List.mem_append_left _ hg
    rw [Proxy.collect, forRequests_flatten hwf] at hs
    obtain ⟨taken, rest, htaken, -, horder, -⟩ := collect_prefix env before hs
    have hcount := hok.count
    rw [hframes, htaken, List.length_append, List.length_append, List.length_cons] at hcount
    have hfirst : s.order.length = taken.length := by
      rw [horder]
      exact Nat.zero_add _
    omega
  · intro σ γ api vx cfg w io r hr
    have hpart := batchRuns_length api vx cfg w io frames r hr
    have hlen := hok.length
    rw [hok.flatten] at hlen
    rw [LibSt.readRequestsBufSz]
    omega

/-- A connection whose first `recv` has returned `got`. -/
def receivedConn {ω : Type} (w : ω) (got rest : Bytes) : Conn ω where
  pc := .swallowNextRequest false
  io := { recvBuf := { allocated := true, bufSz := initialBufSize, stopOff := got.length,
                       mem := got, ops := [.writer 0 0] } }
  world := w
  input := rest

theorem receivedConn_recv {ω : Type} (processMulti : ω → Io → Bytes → Option (ω × Io × Int))
    (w : ω) {got : Bytes} (rest : Bytes) (hne : got ≠ [])
    (hlen : (got.length : Int) < initialBufSize) :
    connStep processMulti { connNew w 0 [] (got ++ rest) with pc := .retryRecv }
      (.recv (.got got.length)) = some (receivedConn w got rest) := by
  have hpos := List.length_pos_iff.mpr hne
  have hzero : (0 : Int) + got.length = got.length := Int.zero_add _
  have hin : got.length ≤ (got ++ rest).length := by
    rw [List.length_append]
    exact Nat.le_add_right _ _
  have hwriter : bufGetWriter [] {} 0
      = ([], { allocated := true, bufSz := initialBufSize, ops := [.writer 0 0] },
          initialBufSize) :=
    rfl
  show connRetryRecv _ (.got got.length) = _
  simp only [connRetryRecv, connNew, hwriter]
  rw [if_pos ⟨hpos, hin, by omega⟩, if_neg (by omega), List.take_left, List.drop_left,
    bufProduce, List.nil_append, hzero]
  rfl

theorem receivedConn_run {ω : Type} (handler : BatchHandler ω) (w : ω) {got : Bytes} (rest : Bytes)
    (hne : got ≠ []) (hlen : (got.length : Int) < initialBufSize) :
    ReflTransGen (ConnMove handler) (connNew w 0 [] (got ++ rest)) (receivedConn w got rest) :=
  (ReflTransGen.single (.own (a := .event) rfl)).tail
    (.own (receivedConn_recv handler.processMulti w rest hne hlen))

theorem receivedConn_handsOver {ω : Type} (w : ω) {f : Bytes} (hwf : WellFormed 0x80 f)
    (hloud : ¬ flagQuiet (mcGetReserved f)) (more rest : Bytes) :
    HandsOver (receivedConn w (f ++ more) rest) f := by
  have hnew : newData (receivedConn w (f ++ more) rest) = f ++ more := rfl
  have hsize : reqbufGetSaneRequestSz (f ++ more) 0x80 = f.length :=
    reqbufGetSaneRequestSz_append hwf
  have hpos := List.length_pos_iff.mpr hwf.1
  refine ⟨⟨false, rfl⟩, ?_, fun hhold => ?_, ?_⟩
  · rw [hnew, hsize]
    omega
  · refine hloud ?_
    have hquiet := hhold.1
    rw [hnew] at hquiet
    rwa [mcGetReserved, mcGetStatus_append more hwf.facts.header] at hquiet
  · rw [hnew, hsize]
    show f = (f ++ more).take (0 + (f.length : Int)).toNat
    rw [Int.zero_add, Int.toNat_natCast, List.take_left]

/-- Two quiet requests and the loud one they are held back for. -/
def quietLookups : List Bytes :=
  [Request.frame { opcode := memcacheCmdGet, reserved := 1, key := ascii "a" },
    Request.frame { opcode := memcacheCmdGet, reserved := 1, key := ascii "b" }, noop]

/-- The connection that holds back the quiet ones. -/
def holdingConn {ω : Type} (w : ω) : Conn ω :=
  let c := receivedConn w quietLookups.flatten []
  { c with quietRecvOff := 50, io := { c.io with requests := 2 } }

theorem connStep_holdsBack {ω : Type} (processMulti : ω → Io → Bytes → Option (ω × Io × Int))
    {c : Conn ω} {written : Bool} (hpc : c.pc = .swallowNextRequest written) {f more : Bytes}
    (hnew : newData c = f ++ more) (hwf : WellFormed 0x80 f) (hhold : HoldsBack c) :
    connStep processMulti c .run = some { c with
      quietRecvOff := c.quietRecvOff + f.length
      io := { c.io with requests := c.io.requests + 1 } } := by
  have hsize : reqbufGetSaneRequestSz (newData c) 0x80 = f.length := by
    rw [hnew]
    exact reqbufGetSaneRequestSz_append hwf
  have hpos := List.length_pos_iff.mpr hwf.1
  unfold connStep
  rw [hpc]
  show connSwallow processMulti c written = _
  simp only [connSwallow, hsize]
  rw [if_neg (by omega), if_neg (by omega), if_pos hhold, hpc]

theorem holdingConn_run {ω : Type} (handler : BatchHandler ω) (w : ω) :
    ReflTransGen (ConnMove handler) (connNew w 0 [] quietLookups.flatten) (holdingConn w) := by
  have hrun := receivedConn_run handler w [] (show quietLookups.flatten ≠ [] by decide) (by decide)
  rw [List.append_nil] at hrun
  have hfirst : newData (receivedConn w quietLookups.flatten [])
      = quietLookups.head (by decide) ++ quietLookups.tail.flatten := rfl
  have hheld : HoldsBack (receivedConn w quietLookups.flatten []) :=
    ⟨by rw [hfirst]; decide, (by decide : quietLookups.flatten.length < maxRequestSize),
      (by decide : (0 : Int) < maxQuietRequests)⟩
  have hstep := connStep_holdsBack handler.processMulti rfl hfirst (by decide) hheld
  set c := ({ receivedConn w quietLookups.flatten [] with
    quietRecvOff := 25
    io := { (receivedConn w quietLookups.flatten []).io with requests := 1 } } : Conn ω) with hc
  have hsecond : newData c = quietLookups.tail.head (by decide) ++ noop := rfl
  have hheld' : HoldsBack c :=
    ⟨by rw [hsecond]; decide, (by decide : quietLookups.flatten.length < maxRequestSize),
      (by decide : (1 : Int) < maxQuietRequests)⟩
  have hstep' := connStep_holdsBack handler.processMulti rfl hsecond (by decide) hheld'
  exact (hrun.tail (.own hstep)).tail (.own hstep')

theorem holdingConn_handsOver {ω : Type} (w : ω) :
    HandsOver (holdingConn w) quietLookups.flatten := by
  have hnew : newData (holdingConn w) = noop := rfl
  have hsize : reqbufGetSaneRequestSz noop 0x80 = 24 := by decide
  refine ⟨⟨false, rfl⟩, ?_, fun hhold => ?_, ?_⟩
  · rw [hnew, hsize]
    decide
  · have hquiet := hhold.1
    rw [hnew] at hquiet
    exact absurd hquiet (by decide)
  · rw [hnew, hsize]
    rfl

/-- A batch with requests that were held back, for the server and for the proxy. -/
theorem handedOver_bounded_quietLookups :
    (∃ frames, BatchOk quietLookups.flatten frames ∧ frames.length ≤ 174792) ∧
    ∃ frames, BatchOk quietLookups.flatten frames ∧ quietLookups.flatten.length < 8390000 := by
  obtain ⟨frames, hok, -⟩ := handedOver_bounded
    (serverHandler mapEngine.toStStorageApi idleVx plainConfig)
    (holdingConn_run _ freshWorld) (holdingConn_handsOver _)
  obtain ⟨frames', hok', -⟩ := handedOver_bounded (proxyHandler plainEnv)
    (holdingConn_run _ (idleProxy twoServers, [])) (holdingConn_handsOver _)
  exact ⟨⟨frames, hok, hok.count⟩, frames', hok', hok'.length⟩

end Smalltable.Proofs
