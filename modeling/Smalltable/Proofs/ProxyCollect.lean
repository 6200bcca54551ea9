import Mathlib.Data.List.Dedup
import Mathlib.Data.List.Forall2
import Mathlib.Data.List.Nodup
import Mathlib.Data.List.Perm.Subperm
import Smalltable.Proofs.BufferRange
import Smalltable.Proofs.ProxyTrees
import Smalltable.Ref.ProxyCommand

/-!
# Spreading a batch over the servers

The first loop of the proxy's `process_multi`. A request belongs to the proxy
or to the server its key leads to (`route`), and the loop leaves each server
with its requests, in order, and `res_buf` with the proxy's own answers
(`Collected`). There are two ways for it to go wrong. A request may be flagged
for the proxy with an opcode whose place in the handler table is a hole. And
when an eighth server comes into play, the loop is left after the request has
been copied but before it has been counted.

The conditions under which neither happens are in `Fits`. They can be checked before
anything is done, on the requests and the configuration.
-/

namespace Smalltable.Proofs

open Smalltable.Ref

/-! ## The proxy's own answers

A handler leaves a response of bounded length, so it fits into what `process_single` has
asked for. -/

/-- Nothing of the configuration and the servers changed. -/
structure SameServers (w w' : ProxyWorld) : Prop where
  servers : w'.servers = w.servers
  backends : w'.backends = w.backends

theorem length_writeLine {b b' : LineWriter} {text : Bytes} (h : writeLine b text = some b') :
    (b'.out.length : Int) + b'.left = b.out.length + b.left := by
  unfold writeLine at h
  split at h
  · cases h
  · simp only [] at h
    cases h
    simp only [List.length_append]
    split
    · omega
    · simp only [List.length_append, List.length_take, List.length_replicate]
      omega

theorem length_writeLines : ∀ {lines : List Bytes} {b b' : LineWriter},
    writeLines b lines = some b' → (b'.out.length : Int) + b'.left = b.out.length + b.left := by
  intro lines
  induction lines with
  | nil => intro b b' h; cases h; rfl
  | cons text rest ih =>
      intro b b' h
      rw [writeLines] at h
      split at h
      · cases h
      · next b1 h1 => exact (ih h).trans (length_writeLine h1)

theorem left_writeLines : ∀ {lines : List Bytes} {b b' : LineWriter}, 0 ≤ b.left →
    writeLines b lines = some b' → 0 ≤ b'.left := by
  intro lines
  induction lines with
  | nil => intro b b' hb h; cases h; exact hb
  | cons text rest ih =>
      intro b b' hb h
      rw [writeLines] at h
      split at h
      · cases h
      · next b1 h1 =>
          refine ih ?_ h
          unfold writeLine at h1
          split at h1
          · cases h1
          · next hle =>
              simp only [] at h1
              cases h1
              show 0 ≤ b.left - text.length
              omega

theorem length_configToString {env : ProxyEnv} {w : ProxyWorld} {bufSz r : Int} {text : Bytes}
    (hsz : 0 ≤ bufSz) (h : configToString env w bufSz = some (text, r)) :
    (text.length : Int) = r ∧ r ≤ bufSz := by
  unfold configToString at h
  split at h
  · cases h
  · next b hb =>
      obtain ⟨h1, h2⟩ := Prod.mk.inj (Option.some.inj h)
      have hlen := length_writeLines hb
      have hleft := left_writeLines hsz hb
      have hlen : (b.out.length : Int) + b.left = 0 + bufSz := hlen
      rw [← h1, ← h2]
      omega

section Handlers

variable (env : ProxyEnv) (conn : Nat)

/-- A response to a request with no more than a value, of at most `sz` bytes. -/
structure AnswerFrame (request : Bytes) (sz : Int) (f : Bytes) : Prop where
  frame : ∃ status value, f = Response.frame
    { opcode := mcGetOpcode request, opaqueId := mcGetOpaque request, status := status,
      value := value }
  length : (f.length : Int) ≤ sz

/-- A handler has answered, into a buffer of `sz` bytes, and has left the
servers alone. -/
def Answered (p : Pool) (w : ProxyWorld) (request : Bytes) (sz : Int)
    (r : Option Proxy.Reply) : Prop :=
  ∃ w' res f, r = some (p, w', res) ∧ SameServers w w' ∧ w'.resBuf = w.resBuf ∧
    packResponse sz res = some f ∧ AnswerFrame request sz f

variable {p : Pool} {w w' : ProxyWorld} {request : Bytes} {sz : Int}

theorem refuse_answered {res : StRes} (status : Nat) (errStr : Option Bytes) {str : Bytes}
    (hop : res.opcode = mcGetOpcode request) (hopq : res.opaqueId = mcGetOpaque request)
    (hbuf : res.bufSz = sz - memcacheHeaderSize) (hroom : (maxRequestSize : Int) < sz)
    (hstatus : status < 256) (hstr : errorStr status errStr = some str)
    (hshort : str.length < 256) :
    Answered p w request sz (Proxy.refuse p w res status errStr) := by
  have hmax := maxRequestSize_eq
  have hhdr := memcacheHeaderSize_eq
  have h := packResponse_setErrorCode res hstatus hstr hshort hbuf (by omega)
  unfold Proxy.refuse
  cases hset : setErrorCode res status errStr with
  | none => rw [hset] at h; cases h
  | some res' =>
      rw [hset] at h
      refine ⟨w, res', _, rfl, ⟨rfl, rfl⟩, rfl, h, ⟨⟨status, str, by rw [hop, hopq]⟩, ?_⟩⟩
      rw [Response.length_frame]
      simp only [List.length_nil]
      omega

theorem invalid_answered (hroom : (maxRequestSize : Int) < sz) :
    Answered p w request sz
      (Proxy.refuse p w (prepareRes sz request) memcacheStatusInvalidArguments) :=
  refuse_answered memcacheStatusInvalidArguments none rfl rfl rfl hroom (by decide) rfl (by decide)

/-- An answer that is a header only. -/
theorem ok_answered (hroom : (maxRequestSize : Int) < sz) (hsame : SameServers w w')
    (hres : w'.resBuf = w.resBuf) :
    Answered p w request sz
      (some (p, w', { prepareRes sz request with status := memcacheStatusOk })) := by
  have hmax := maxRequestSize_eq
  have hhdr := memcacheHeaderSize_eq
  have hpack : packResponse sz { prepareRes sz request with status := memcacheStatusOk } = _ :=
    packResponse_frame [] [] rfl rfl (fun h => absurd rfl h) rfl (fun h => absurd rfl h)
      (by simp [peek]) (by decide) (by simp only [List.length_nil]; omega)
  refine ⟨w', _, _, rfl, hsame, hres, hpack, ⟨⟨memcacheStatusOk, [], rfl⟩, ?_⟩⟩
  rw [Response.length_frame]
  simp only [List.length_nil]
  omega

theorem cmdGetConfig_answered (hroom : (maxRequestSize : Int) < sz) (hint : sz ≤ intMax) :
    Answered p w request sz
      (Proxy.cmdGetConfig env p w (unpackRequest request) (prepareRes sz request)) := by
  have hmax := maxRequestSize_eq
  have hhdr := memcacheHeaderSize_eq
  have hbig : Answered p w request sz (Proxy.refuse p w
      { prepareRes sz request with value := some 0 } memcacheStatusValueTooBig) :=
    refuse_answered memcacheStatusValueTooBig none rfl rfl rfl hroom (by decide) rfl (by decide)
  have hbuf : (prepareRes sz request).bufSz = sz - memcacheHeaderSize := rfl
  unfold Proxy.cmdGetConfig
  split
  · exact invalid_answered hroom
  · split
    · exact hbig
    · next text r htext =>
        split
        · exact hbig
        · obtain ⟨hlen, hle⟩ := length_configToString (by omega) htext
          rw [intMax] at hint
          have hpack : packResponse sz { prepareRes sz request with
              value := some 0, valueSz := r.toNat, mem := poke [] 0 text } = _ :=
            packResponse_frame [] text rfl rfl (fun h => absurd rfl h)
              (by show r.toNat = text.length; omega) (fun _ => rfl) (by
                show peek (poke [] 0 text) ([].length + text.length) = [] ++ text
                rw [List.length_nil, Nat.zero_add, List.nil_append, peek_of_le, take_poke_zero]
                rw [poke_zero, List.length_append]
                omega)
              (by rw [List.length_nil]; omega) (by rw [List.length_nil]; omega)
          refine ⟨w, _, _, rfl, ⟨rfl, rfl⟩, rfl, hpack, ⟨⟨memcacheStatusOk, text, rfl⟩, ?_⟩⟩
          rw [Response.length_frame]
          simp only [List.length_nil]
          omega

/-- Every handler but SET_CONFIG answers, and leaves the servers alone. -/
theorem callHandler_answered {h : Proxy.Handler} (hset : h ≠ .setConfig)
    (hroom : (maxRequestSize : Int) < sz) (hint : sz ≤ intMax) :
    Answered p w request sz (Proxy.callHandler env conn h p w (unpackRequest request)
      (prepareRes sz request)) := by
  cases h with
  | setConfig => exact absurd rfl hset
  | unknown =>
      exact refuse_answered memcacheStatusUnknownCommand none rfl rfl rfl hroom (by decide) rfl
        (by decide)
  | noop =>
      unfold Proxy.callHandler Proxy.cmdNoop
      simp only []
      split
      · exact invalid_answered hroom
      · exact ok_answered hroom ⟨rfl, rfl⟩ rfl
  | stop =>
      unfold Proxy.callHandler Proxy.cmdStop
      simp only []
      split
      · exact invalid_answered hroom
      · exact ok_answered hroom ⟨rfl, rfl⟩ rfl
  | start =>
      unfold Proxy.callHandler Proxy.cmdStart
      simp only []
      split
      · exact invalid_answered hroom
      · split
        · exact refuse_answered memcacheStatusKeyNotFound (some Proxy.notStopped) rfl rfl rfl hroom
            (by decide) rfl (by decide)
        · exact ok_answered hroom ⟨rfl, rfl⟩ rfl
  | getConfig => exact cmdGetConfig_answered env hroom hint

end Handlers

/-! ## Room in `res_buf`

What a writer returns is an `int` if the blocks of the pool are, so a response has a
length that its header can state. -/

/-- The blocks in the pool, and the room in the buffer, are `int`s. -/
structure RoomInt (p : Pool) (b : Buffer) : Prop where
  pool : ∀ sz ∈ p, sz ≤ intMax
  room : b.bufSz - b.stopOff ≤ intMax

theorem bufGetWriter_pool_subset (p : Pool) (b : Buffer) (n : Int) :
    ∀ sz ∈ (bufGetWriter p b n).1, sz ∈ p := by
  intro sz hsz
  have hsz : sz ∈ (bufTakeBlock p b).1 := hsz
  unfold bufTakeBlock at hsz
  split at hsz
  · exact hsz
  · cases p with
    | nil => exact hsz
    | cons x rest => exact List.mem_cons_of_mem _ hsz

theorem RoomInt.writer {p : Pool} {b : Buffer} (h : RoomInt p b) (hok : b.Ok) {n : Int}
    (hn : n + initialBufSize ≤ intMax) :
    RoomInt (bufGetWriter p b n).1 (bufGetWriter p b n).2.1 := by
  refine ⟨fun sz hsz => h.pool sz (bufGetWriter_pool_subset p b n sz hsz), ?_⟩
  obtain ⟨-, hstop, -⟩ := bufTakeBlock_offsets p b
  have hblock : (bufTakeBlock p b).2.bufSz - b.stopOff ≤ intMax := by
    have h0 := hok.start_nonneg
    have h1 := hok.start_le_stop
    have hroom := h.room
    unfold bufTakeBlock
    split
    · exact hroom
    · cases p with
      | nil =>
          show initialBufSize - b.stopOff ≤ intMax
          have hinit : initialBufSize ≤ intMax := by decide
          omega
      | cons sz rest =>
          have hsz := h.pool sz List.mem_cons_self
          show sz - b.stopOff ≤ intMax
          omega
  show growBuf (bufTakeBlock p b).2.stopOff n _ (bufTakeBlock p b).2.bufSz
    - (bufTakeBlock p b).2.stopOff ≤ intMax
  rcases growBuf_le (bufTakeBlock p b).2.stopOff n
      (n + (bufTakeBlock p b).2.stopOff + 1 - (bufTakeBlock p b).2.bufSz).toNat
      (bufTakeBlock p b).2.bufSz with hle | hle
  · omega
  · omega

section Single

variable (env : ProxyEnv) (conn : Nat)

/-- `process_single`: one answer is appended to `res_buf`. -/
theorem processSingle_answer {h : Proxy.Handler} {p : Pool} {w : ProxyWorld} {request out : Bytes}
    (hh : Proxy.handlerOf (mcGetOpcode request) = some h) (hset : h ≠ .setConfig)
    (hout : w.resBuf.Holds out) (hint : RoomInt p w.resBuf) :
    ∃ p' w' f, Proxy.processSingle env conn p w request = some (p', w') ∧ SameServers w w' ∧
      w'.resBuf.Holds (out ++ f) ∧ AnswerFrame request intMax f ∧ RoomInt p' w'.resBuf := by
  have hroom := bufGetWriter_room p w.resBuf maxRequestSize
  have hint' := hint.writer hout.toOk (n := maxRequestSize) (by decide)
  have hholds := bufGetWriter_holds hout p maxRequestSize
  obtain ⟨w', res', f, hcall, hsame, hres, hpack, hans⟩ :
      Answered (bufGetWriter p w.resBuf maxRequestSize).1
        { w with resBuf := (bufGetWriter p w.resBuf maxRequestSize).2.1 } request _ _ :=
    callHandler_answered env conn hset hroom hint'.room
  refine ⟨(bufGetWriter p w.resBuf maxRequestSize).1,
    { w' with resBuf := bufProduce w'.resBuf f }, f, ?_, ?_, ?_, ?_, ?_⟩
  · unfold Proxy.processSingle
    simp only [hh]
    rw [hcall]
    simp only []
    rw [hpack]
  · exact ⟨hsame.servers, hsame.backends⟩
  · show (bufProduce w'.resBuf f).Holds _
    rw [hres]
    exact bufProduce_holds hholds f
  · exact ⟨hans.frame, hans.length.trans hint'.room⟩
  · refine ⟨hint'.pool, ?_⟩
    have hroom' := hint'.room
    show w'.resBuf.bufSz - (w'.resBuf.stopOff + f.length) ≤ intMax
    rw [hres]
    show (bufGetWriter p w.resBuf maxRequestSize).2.1.bufSz
      - ((bufGetWriter p w.resBuf maxRequestSize).2.1.stopOff + f.length) ≤ intMax
    omega

end Single

/-! ## Where requests go

By induction on the batch. The loop ends with all of it, or at the first request that
brings one server too many, and then that request is already in the buffer of its server
(`Overfull`). -/

/-- No request or response waits, and the counters are zero. -/
structure Idle (b : Backend) : Prop where
  send : b.sendBuf.Holds []
  recv : b.recvBuf.Holds []
  requests : b.requests = 0
  responses : b.responses = 0
  sendOffset : b.sendOffset = 0
  recvOffset : b.recvOffset = 0

/-- The servers have no work. -/
def AllIdle (w : ProxyWorld) : Prop :=
  ∀ s ∈ w.servers.toList, ∃ b, w.backends s.ptr = some b ∧ Idle b

/-- The proxy between two batches: a configuration in which one server has the
empty key, servers without work, and nothing left to answer. -/
structure ProxyReady (p : Pool) (w : ProxyWorld) : Prop where
  trees : TreesOk w
  emptyKey : ∃ s ∈ w.servers.toList, s.key = []
  idle : ∀ s ∈ w.servers.toList, ∃ b, w.backends s.ptr = some b ∧ Idle b
  resBuf : w.resBuf.Holds []
  room : RoomInt p w.resBuf

/-- Every key has a server. -/
theorem findStServer_isSome {w : ProxyWorld} (h : TreesOk w)
    (hempty : ∃ s ∈ w.servers.toList, s.key = []) (key : Bytes) :
    ∃ s ∈ w.servers.toList, findStServer w.servers key = some s := by
  obtain ⟨s, hs, hkey⟩ := hempty
  obtain ⟨first, rest, hlist⟩ := List.exists_cons_of_ne_nil (List.ne_nil_of_mem hs)
  have hfirst : first.key = [] := by
    have hsorted := h.servers
    rw [Tree.Sorted, hlist, List.pairwise_cons] at hsorted
    rw [hlist] at hs
    rcases List.mem_cons.mp hs with rfl | hmem
    · exact hkey
    · have hlt := hsorted.1 s hmem
      simp only [hkey] at hlt
      exact absurd hlt (by simp [ordKey])
  have hleft : w.servers.leftmost = some first := by rw [Tree.leftmost_eq_head?, hlist]; rfl
  have hge : ¬ keyCmp key first.key < 0 := by
    rw [hfirst, keyCmp_lt]
    simp [ordKey]
  obtain ⟨b, hb⟩ : ∃ b, findStServer w.servers key = some b :=
      Tree.floorBy_isSome (by simp) hleft hge
  exact ⟨b, Tree.floorBy_mem hb, hb⟩

/-- The server of a request, or `none` for the proxy itself. -/
def route (w : ProxyWorld) (f : Bytes) : Option Nat :=
  if Proxy.doInProxy f then none
  else (findStServer w.servers (reqbufGetKey f)).map StServer.ptr

/-- The requests that go to one server. -/
def requestsFor (w : ProxyWorld) (fs : List Bytes) (ptr : Nat) : List Bytes :=
  fs.filter fun f => route w f = some ptr

/-- The servers of a list of requests. -/
def contacted (w : ProxyWorld) (fs : List Bytes) : List Nat := (fs.filterMap (route w)).dedup

/-- A request for the proxy itself has a handler. -/
def HasHandler (f : Bytes) : Prop :=
  Proxy.doInProxy f = true → Proxy.handlerOf (mcGetOpcode f) ≠ none

instance (f : Bytes) : Decidable (HasHandler f) := inferInstanceAs (Decidable (_ → _))

/-- No SET_CONFIG for the proxy. -/
def NoSetConfig (f : Bytes) : Prop :=
  Proxy.doInProxy f = true → Proxy.handlerOf (mcGetOpcode f) ≠ some .setConfig

instance (f : Bytes) : Decidable (NoSetConfig f) := inferInstanceAs (Decidable (_ → _))

theorem mem_filterMap_route {w : ProxyWorld} {fs : List Bytes} {ptr : Nat} :
    ptr ∈ fs.filterMap (route w) ↔ requestsFor w fs ptr ≠ [] := by
  rw [List.mem_filterMap, requestsFor, ne_eq, List.filter_eq_nil_iff]
  push Not
  simp only [decide_eq_true_eq]

theorem requestsFor_append_self {w : ProxyWorld} {fs : List Bytes} {f : Bytes} {ptr : Nat}
    (h : route w f = some ptr) : requestsFor w (fs ++ [f]) ptr = requestsFor w fs ptr ++ [f] := by
  rw [requestsFor, List.filter_append, List.filter_singleton]
  simp [h, requestsFor]

theorem requestsFor_append_other {w : ProxyWorld} {fs : List Bytes} {f : Bytes} {ptr : Nat}
    (h : route w f ≠ some ptr) : requestsFor w (fs ++ [f]) ptr = requestsFor w fs ptr := by
  rw [requestsFor, List.filter_append, List.filter_singleton]
  simp [h, requestsFor]

section Collecting

variable (env : ProxyEnv) (conn : Nat) (w0 : ProxyWorld)

/-- What the proxy's own `process_single` has appended for a request. -/
def ProxyAnswer (request f : Bytes) : Prop :=
  AnswerFrame request intMax f ∧
  ∃ p w p' w' out, w.servers = w0.servers ∧ w.resBuf.Holds out ∧
    Proxy.processSingle env conn p w request = some (p', w') ∧ w'.resBuf.Holds (out ++ f)

/-- The state of the loop after the requests `done`, of which the proxy has
answered its own with `pas`, as `R` says. -/
structure Collected (R : Bytes → Bytes → Prop) (done pas : List Bytes) (c : Proxy.Collect) :
    Prop where
  servers : c.world.servers = w0.servers
  order : c.order = done.map (route w0)
  consumed : c.consumed = done.flatten.length
  backends : ∀ s ∈ w0.servers.toList, ∃ b sb, w0.backends s.ptr = some b ∧
    c.world.backends s.ptr = some { b with
      sendBuf := sb, requests := (requestsFor w0 done s.ptr).length } ∧
    sb.Holds (requestsFor w0 done s.ptr).flatten
  nodup : c.servers.Nodup
  contacts : ∀ ptr, ptr ∈ c.servers ↔ ptr ∈ done.filterMap (route w0)
  found : ∀ f ∈ done, Proxy.doInProxy f = false → route w0 f ≠ none
  few : c.servers.length < Proxy.nelemServers
  answers : List.Forall₂ R (done.filter Proxy.doInProxy) pas
  resBuf : c.world.resBuf.Holds pas.flatten
  room : RoomInt c.pool c.world.resBuf

/-- The loop was left at `f`, which was copied to its server but not counted. -/
structure Overfull (done : List Bytes) (f : Bytes) (c : Proxy.Collect) : Prop where
  servers : c.world.servers = w0.servers
  consumed : c.consumed = done.flatten.length
  copied : ∃ s ∈ w0.servers.toList, requestsFor w0 done s.ptr = [] ∧
    ∃ b, c.world.backends s.ptr = some b ∧ b.sendBuf.Holds f
  many : (contacted w0 (done ++ [f])).length = Proxy.nelemServers

variable {w0} {R : Bytes → Bytes → Prop}

theorem length_contacted {fs : List Bytes} {l : List Nat} (hnodup : l.Nodup)
    (hmem : ∀ ptr, ptr ∈ l ↔ ptr ∈ fs.filterMap (route w0)) :
    (contacted w0 fs).length = l.length := by
  refine List.Perm.length_eq ?_
  rw [contacted, List.perm_ext_iff_of_nodup (List.nodup_dedup _) hnodup]
  intro ptr
  rw [List.mem_dedup, hmem]

theorem collected_start {p : Pool}
    (hservers : AllIdle w0) (hres : w0.resBuf.Holds []) (hroom : RoomInt p w0.resBuf) :
    Collected w0 R [] [] { pool := p, world := w0 } := by
  refine ⟨rfl, rfl, rfl, ?_, List.nodup_nil, fun ptr => ?_, fun f hf => absurd hf List.not_mem_nil,
    ?_, .nil, hres, hroom⟩
  · intro s hs
    obtain ⟨b, hb, hidle⟩ := hservers s hs
    refine ⟨b, b.sendBuf, hb, ?_, hidle.send⟩
    rw [hb]
    have hreq := hidle.requests
    cases b
    simp only [requestsFor, List.filter_nil, List.length_nil]
    cases hreq
    rfl
  · simp
  · show 0 < Proxy.nelemServers
    decide

variable {done pas : List Bytes} {c : Proxy.Collect} {f : Bytes}

/-- A request for the proxy itself, which leaves the servers alone. -/
theorem Collected.own (h : Collected w0 R done pas c) (hproxy : Proxy.doInProxy f = true)
    {p' : Pool} {w' : ProxyWorld} {a : Bytes} (hsame : SameServers c.world w')
    (hholds : w'.resBuf.Holds (pas.flatten ++ a)) (hans : R f a) (hroom : RoomInt p' w'.resBuf) :
    Collected w0 R (done ++ [f]) (pas ++ [a]) { c with
      pool := p', world := w', order := c.order ++ [none], consumed := c.consumed + f.length } := by
  have hroute : route w0 f = none := by rw [route, if_pos hproxy]
  refine ⟨hsame.servers.trans h.servers, ?_, ?_, ?_, h.nodup, ?_, ?_, h.few, ?_, ?_, hroom⟩
  · show c.order ++ [none] = _
    rw [h.order, List.map_append, List.map_singleton, hroute]
  · show c.consumed + f.length = _
    rw [h.consumed, List.flatten_append, List.length_append, List.flatten_singleton]
    omega
  · intro s hs
    obtain ⟨b, sb, hb0, hb, hsb⟩ := h.backends s hs
    rw [requestsFor_append_other (by simp [hroute])]
    refine ⟨b, sb, hb0, ?_, hsb⟩
    show w'.backends s.ptr = _
    rw [hsame.backends]
    exact hb
  · intro ptr
    rw [List.filterMap_append, List.filterMap_cons_none hroute, List.filterMap_nil,
      List.append_nil]
    exact h.contacts ptr
  · intro g hg hdata
    rcases List.mem_append.mp hg with hg | hg
    · exact h.found g hg hdata
    · rw [List.mem_singleton.mp hg, hproxy] at hdata
      cases hdata
  · rw [List.filter_append, List.filter_singleton, hproxy]
    exact List.rel_append h.answers (.cons hans .nil)
  · show w'.resBuf.Holds _
    rw [List.flatten_append, List.flatten_singleton]
    exact hholds

theorem Collected.step_proxy (h : Collected w0 (ProxyAnswer env conn w0) done pas c)
    (hproxy : Proxy.doInProxy f = true) {hd : Proxy.Handler}
    (hhd : Proxy.handlerOf (mcGetOpcode f) = some hd) (hset : hd ≠ .setConfig) :
    ∃ c' pas', Proxy.collectStep env conn c f = some (Proxy.advance c' f none) ∧
      Collected w0 (ProxyAnswer env conn w0) (done ++ [f]) pas'
        { c' with order := c'.order ++ [none], consumed := c'.consumed + f.length } := by
  obtain ⟨p', w', a, hsingle, hsame, hholds, hans, hroom⟩ :=
    processSingle_answer env conn hhd hset h.resBuf h.room
  refine ⟨{ c with pool := p', world := w' }, pas ++ [a], ?_, ?_⟩
  · unfold Proxy.collectStep
    rw [if_pos hproxy, hsingle]
  · exact h.own hproxy hsame hholds ⟨hans, c.pool, c.world, p', w', pas.flatten, h.servers,
      h.resBuf, hsingle, hholds⟩ hroom

/-- The state after a request has been copied to its server. -/
theorem Collected.copied (h : Collected w0 R done pas c) {s : StServer}
    (hroute : route w0 f = some s.ptr) {b : Backend}
    (hb : c.world.backends s.ptr = some b) :
    ∀ t ∈ w0.servers.toList, ∃ b0 sb, w0.backends t.ptr = some b0 ∧
      (c.world.setBackend s.ptr (some { b with
        sendBuf := bufProduce (bufGetWriter c.pool b.sendBuf f.length).2.1 f
        requests := b.requests + 1 })).backends t.ptr = some { b0 with
          sendBuf := sb, requests := (requestsFor w0 (done ++ [f]) t.ptr).length } ∧
      sb.Holds (requestsFor w0 (done ++ [f]) t.ptr).flatten := by
  intro t ht
  obtain ⟨b0, sb, hb0, hbt, hsb⟩ := h.backends t ht
  by_cases hptr : t.ptr = s.ptr
  · rw [hptr] at hbt hsb hb0 ⊢
    rw [hb] at hbt
    cases hbt
    rw [requestsFor_append_self hroute]
    refine ⟨b0, bufProduce (bufGetWriter c.pool sb f.length).2.1 f, hb0, ?_, ?_⟩
    · rw [List.length_append, List.length_singleton]
      exact if_pos rfl
    · rw [List.flatten_append, List.flatten_singleton]
      exact bufProduce_holds (bufGetWriter_holds hsb c.pool f.length) f
  · have hne : route w0 f ≠ some t.ptr := by
      rw [hroute]
      exact fun heq => hptr (Option.some.inj heq).symm
    rw [requestsFor_append_other hne]
    refine ⟨b0, sb, hb0, ?_, hsb⟩
    show (if t.ptr = s.ptr then _ else c.world.backends t.ptr) = _
    rw [if_neg hptr]
    exact hbt

/-- A data request: it is counted, or it is the first for the eighth server. -/
theorem Collected.step_data (h : Collected w0 R done pas c) (hdata : Proxy.doInProxy f = false)
    {s : StServer} (hfind : findStServer w0.servers (reqbufGetKey f) = some s) :
    (∃ c', Proxy.collectStep env conn c f = some (Proxy.advance c' f (some s.ptr)) ∧
      (∃ b', c'.world = c.world.setBackend s.ptr (some b')) ∧
      Collected w0 R (done ++ [f]) pas
        { c' with order := c'.order ++ [some s.ptr], consumed := c'.consumed + f.length }) ∨
    ∃ c', Proxy.collectStep env conn c f = some (.done c') ∧ Overfull w0 done f c' := by
  have hs : s ∈ w0.servers.toList := Tree.floorBy_mem hfind
  have hroute : route w0 f = some s.ptr := by
    rw [route, hdata]
    simp [hfind]
  obtain ⟨b, sb, hb0, hb, hsb⟩ := h.backends s hs
  have hcopied := h.copied hroute hb
  have hfirst : (0 : Int) = (requestsFor w0 done s.ptr).length ↔
      s.ptr ∉ done.filterMap (route w0) := by
    rw [mem_filterMap_route, not_not, ← List.length_eq_zero_iff]
    omega
  obtain ⟨servers', hservers'⟩ : ∃ l, (if (0 : Int) = (requestsFor w0 done s.ptr).length
      then c.servers ++ [s.ptr] else c.servers) = l := ⟨_, rfl⟩
  have hnodup' : servers'.Nodup := by
    rw [← hservers']
    split
    · next hzero =>
        refine List.Nodup.append h.nodup (List.nodup_singleton _) ?_
        rw [List.disjoint_singleton]
        exact fun hmem => hfirst.mp hzero ((h.contacts s.ptr).mp hmem)
    · exact h.nodup
  have hcontacts' : ∀ ptr, ptr ∈ servers' ↔ ptr ∈ (done ++ [f]).filterMap (route w0) := by
    intro ptr
    rw [List.filterMap_append, List.filterMap_cons_some hroute, List.filterMap_nil,
      List.mem_append, List.mem_singleton, ← h.contacts ptr, ← hservers']
    split
    · rw [List.mem_append, List.mem_singleton]
    · next hzero =>
        constructor
        · exact fun hmem => .inl hmem
        · rintro (hmem | rfl)
          · exact hmem
          · by_contra hnot
            exact hzero (hfirst.mpr fun hmem => hnot ((h.contacts _).mpr hmem))
  have hfindc : findStServer c.world.servers (reqbufGetKey f) = some s := by
    rw [h.servers]
    exact hfind
  by_cases hfull : servers'.length = Proxy.nelemServers
  · refine .inr ⟨{ c with
      pool := (bufGetWriter c.pool sb f.length).1
      world := c.world.setBackend s.ptr (some { b with
        sendBuf := bufProduce (bufGetWriter c.pool sb f.length).2.1 f
        requests := (requestsFor w0 done s.ptr).length + 1 })
      servers := servers' }, ?_, ?_⟩
    · unfold Proxy.collectStep
      rw [hdata, if_neg (by decide), hfindc]
      simp only []
      rw [hb]
      simp only [hservers']
      rw [if_pos hfull]
    · have hnew : requestsFor w0 done s.ptr = [] := by
        have hlen := h.few
        rw [← hservers'] at hfull
        split at hfull
        · next hzero => exact List.eq_nil_of_length_eq_zero (by omega)
        · omega
      refine ⟨h.servers, h.consumed, ⟨s, hs, hnew, ?_⟩, ?_⟩
      · refine ⟨_, if_pos rfl, ?_⟩
        rw [hnew] at hsb
        exact bufProduce_holds (bufGetWriter_holds hsb c.pool f.length) f
      · rw [length_contacted hnodup' hcontacts', hfull]
  · refine .inl ⟨{ c with
      pool := (bufGetWriter c.pool sb f.length).1
      world := c.world.setBackend s.ptr (some { b with
        sendBuf := bufProduce (bufGetWriter c.pool sb f.length).2.1 f
        requests := (requestsFor w0 done s.ptr).length + 1 })
      servers := servers' }, ?_, ⟨_, rfl⟩, ?_⟩
    · unfold Proxy.collectStep
      rw [hdata, if_neg (by decide), hfindc]
      simp only []
      rw [hb]
      simp only [hservers']
      rw [if_neg hfull]
    · refine ⟨h.servers, ?_, ?_, hcopied, hnodup', hcontacts', ?_, ?_, ?_, h.resBuf, ?_⟩
      · show c.order ++ [some s.ptr] = _
        rw [h.order, List.map_append, List.map_singleton, hroute]
      · show c.consumed + f.length = _
        rw [h.consumed, List.flatten_append, List.length_append, List.flatten_singleton]
        omega
      · intro g hg hgdata
        rcases List.mem_append.mp hg with hg | hg
        · exact h.found g hg hgdata
        · rw [List.mem_singleton.mp hg, hroute]
          exact Option.some_ne_none _
      · have hlen := h.few
        show servers'.length < _
        have hle : servers'.length ≤ c.servers.length + 1 := by
          rw [← hservers']
          split
          · rw [List.length_append, List.length_singleton]
          · omega
        omega
      · rw [List.filter_append, List.filter_singleton, hdata]
        simpa using h.answers
      · exact ⟨fun sz hsz => h.room.pool sz (bufGetWriter_pool_subset c.pool sb f.length sz hsz),
          h.room.room⟩

/-- One round of the loop. -/
theorem Collected.step (htrees : TreesOk w0) (hempty : ∃ s ∈ w0.servers.toList, s.key = [])
    (h : Collected w0 (ProxyAnswer env conn w0) done pas c) (hset : NoSetConfig f) :
    (∃ pas' c', HasHandler f ∧ Collected w0 (ProxyAnswer env conn w0) (done ++ [f]) pas' c' ∧
      Proxy.collectStep env conn c f
        = some (if c'.order.length = maxQuietRequests then .done c' else .yield c')) ∨
    (¬ HasHandler f ∧ Proxy.collectStep env conn c f = none) ∨
    ∃ c', Overfull w0 done f c' ∧ Proxy.collectStep env conn c f = some (.done c') := by
  cases hproxy : Proxy.doInProxy f with
  | true =>
      cases hhd : Proxy.handlerOf (mcGetOpcode f) with
      | none =>
          refine .inr (.inl ⟨fun hhas => hhas hproxy hhd, ?_⟩)
          unfold Proxy.collectStep Proxy.processSingle
          rw [if_pos hproxy, hhd]
      | some hd =>
          have hne : hd ≠ .setConfig := by
            rintro rfl
            exact hset hproxy hhd
          obtain ⟨c', pas', hstep, hcol⟩ := h.step_proxy env conn hproxy hhd hne
          refine .inl ⟨pas', _, fun _ => ?_, hcol, hstep⟩
          rw [hhd]
          exact Option.some_ne_none hd
  | false =>
      obtain ⟨s, -, hfind⟩ := findStServer_isSome htrees hempty (reqbufGetKey f)
      rcases h.step_data env conn hproxy hfind with ⟨c', hstep, -, hcol⟩ | ⟨c', hstep, hfull⟩
      · refine .inl ⟨pas, _, fun htrue => ?_, hcol, hstep⟩
        rw [hproxy] at htrue
        cases htrue
      · exact .inr (.inr ⟨c', hfull, hstep⟩)

/-- The three ways the loop can end. -/
theorem collectLoop_cases (htrees : TreesOk w0)
    (hempty : ∃ s ∈ w0.servers.toList, s.key = []) :
    ∀ {batch done pas : List Bytes} {c : Proxy.Collect},
      Collected w0 (ProxyAnswer env conn w0) done pas c →
      done.length < maxQuietRequests → (∀ f ∈ batch, NoSetConfig f) →
      (∃ pas' c', foldFrames (Proxy.collectStep env conn) c batch = some c' ∧
        Collected w0 (ProxyAnswer env conn w0)
          (done ++ batch.take (maxQuietRequests - done.length)) pas' c' ∧
        ∀ f ∈ batch.take (maxQuietRequests - done.length), HasHandler f) ∨
      (foldFrames (Proxy.collectStep env conn) c batch = none ∧
        ∃ f ∈ batch.take (maxQuietRequests - done.length), ¬ HasHandler f) ∨
      ∃ taken f c', taken ++ [f] <+: batch.take (maxQuietRequests - done.length) ∧
        foldFrames (Proxy.collectStep env conn) c batch = some c' ∧
        Overfull w0 (done ++ taken) f c' := by
  intro batch
  induction batch with
  | nil =>
      intro done pas c h _ _
      refine .inl ⟨pas, c, rfl, ?_, ?_⟩
      · rw [List.take_nil, List.append_nil]
        exact h
      · rw [List.take_nil]
        exact nofun
  | cons f rest ih =>
      intro done pas c h hfew hset
      have hset' : ∀ g ∈ rest, NoSetConfig g := fun g hg => hset g (List.mem_cons_of_mem _ hg)
      obtain ⟨k, hk⟩ : ∃ k, maxQuietRequests - done.length = k + 1 := ⟨_, (Nat.sub_one_add_one
        (Nat.sub_ne_zero_of_lt hfew)).symm⟩
      rw [hk, List.take_succ_cons, foldFrames]
      rcases h.step env conn htrees hempty (hset f List.mem_cons_self) with
        ⟨pas1, c1, hhas, hcol, hstep⟩ | ⟨hno, hstep⟩ | ⟨c1, hfull, hstep⟩
      · have hlen : (done ++ [f]).length = done.length + 1 := by
          rw [List.length_append, List.length_singleton]
        have hk' : maxQuietRequests - (done ++ [f]).length = k := by omega
        have horder : c1.order.length = done.length + 1 := by
          rw [hcol.order, List.length_map, hlen]
        rw [hstep]
        by_cases hmax : c1.order.length = maxQuietRequests
        · -- too many requests
          have hk0 : k = 0 := by omega
          rw [if_pos hmax, hk0, List.take_zero]
          exact .inl ⟨pas1, c1, rfl, hcol, fun g hg => List.mem_singleton.mp hg ▸ hhas⟩
        · rw [if_neg hmax]
          have hcases := ih hcol (by omega) hset'
          rw [hk', List.append_assoc] at hcases
          rcases hcases with ⟨pas', c', hfold, hcol', hall⟩ | ⟨hfold, g, hg, hno⟩ |
            ⟨taken, g, c', htaken, hfold, hfull⟩
          · exact .inl ⟨pas', c', hfold, hcol', List.forall_mem_cons.mpr ⟨hhas, hall⟩⟩
          · exact .inr (.inl ⟨hfold, g, List.mem_cons_of_mem _ hg, hno⟩)
          · refine .inr (.inr ⟨f :: taken, g, c', ?_, hfold, ?_⟩)
            · exact (List.prefix_cons_inj f).mpr htaken
            · rw [List.append_assoc] at hfull
              exact hfull
      · rw [hstep]
        exact .inr (.inl ⟨rfl, f, List.mem_cons_self, hno⟩)
      · rw [hstep]
        refine .inr (.inr ⟨[], f, c1, ?_, rfl, ?_⟩)
        · exact (List.prefix_cons_inj f).mpr List.nil_prefix
        · rw [List.append_nil]
          exact hfull

variable {p : Pool} {batch : List Bytes}

/-- No request of the part of a batch that can be served has a hole for a
handler, and together they need no eighth server. -/
structure Fits (w : ProxyWorld) (batch : List Bytes) : Prop where
  servers : (contacted w (batch.take maxQuietRequests)).length < Proxy.nelemServers
  handlers : ∀ f ∈ batch.take maxQuietRequests, HasHandler f

instance (w : ProxyWorld) (batch : List Bytes) : Decidable (Fits w batch) :=
  decidable_of_iff (_ ∧ _) ⟨fun h => ⟨h.1, h.2⟩, fun h => ⟨h.1, h.2⟩⟩

theorem length_contacted_le {fs gs : List Bytes} (h : fs <+: gs) :
    (contacted w0 fs).length ≤ (contacted w0 gs).length := by
  refine (List.Nodup.subperm (List.nodup_dedup _) ?_).length_le
  intro ptr hptr
  rw [List.mem_dedup] at hptr
  rw [contacted, List.mem_dedup]
  exact (h.sublist.filterMap _).subset hptr

/-- The first loop of `process_multi`. -/
theorem collect_of_fits (hready : ProxyReady p w0) (hwf : ∀ f ∈ batch, WellFormed 0x80 f)
    (hset : ∀ f ∈ batch, NoSetConfig f) (hfits : Fits w0 batch) :
    ∃ pas c, Proxy.collect env conn p w0 batch.flatten = some c ∧
      Collected w0 (ProxyAnswer env conn w0) (batch.take maxQuietRequests) pas c := by
  have hcases := collectLoop_cases env conn hready.trees hready.emptyKey
    (collected_start hready.idle hready.resBuf hready.room) (by decide) hset
  rw [List.length_nil, Nat.sub_zero] at hcases
  rw [Proxy.collect, forRequests_flatten hwf]
  rcases hcases with ⟨pas, c, hfold, hcol, -⟩ | ⟨-, f, hf, hno⟩ | ⟨taken, f, c, htaken, -, hfull⟩
  · exact ⟨pas, c, hfold, hcol⟩
  · exact absurd (hfits.handlers f hf) hno
  · have hle : (contacted w0 _).length ≤ _ := length_contacted_le htaken
    have hmany := hfull.many
    have hfew := hfits.servers
    rw [List.nil_append] at hmany
    omega

/-- Otherwise the loop does not return, or is left at the eighth server. -/
theorem collect_of_not_fits (hready : ProxyReady p w0) (hwf : ∀ f ∈ batch, WellFormed 0x80 f)
    (hset : ∀ f ∈ batch, NoSetConfig f) (hfits : ¬ Fits w0 batch) :
    Proxy.collect env conn p w0 batch.flatten = none ∨
    ∃ taken f c, taken ++ [f] <+: batch ∧
      Proxy.collect env conn p w0 batch.flatten = some c ∧ Overfull w0 taken f c := by
  have hcases := collectLoop_cases env conn hready.trees hready.emptyKey
    (collected_start hready.idle hready.resBuf hready.room) (by decide) hset
  rw [List.length_nil, Nat.sub_zero] at hcases
  rw [Proxy.collect, forRequests_flatten hwf]
  rcases hcases with ⟨pas, c, -, hcol, hall⟩ | ⟨hfold, -⟩ | ⟨taken, f, c, htaken, hfold, hfull⟩
  · refine absurd ⟨?_, hall⟩ hfits
    rw [List.nil_append] at hcol
    rw [length_contacted hcol.nodup hcol.contacts]
    exact hcol.few
  · exact .inl hfold
  · exact .inr ⟨taken, f, c, htaken.trans (List.take_prefix _ _), hfold, hfull⟩

end Collecting

end Smalltable.Proofs
