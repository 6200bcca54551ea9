import Smalltable.Proofs.ProxyServe

/-!
# A batch through the proxy

`process_multi` as a whole. When a batch fits, each server gets the requests
that are its own, and the client gets one answer for each request that was
consumed, in the order of the requests, whatever the order in which the servers
answer. Afterwards the proxy is as idle as before.

The condition is exact. The request that brings the eighth server into play is
sent but not consumed, so that it is sent again with the next batch and its
first answer stays in `recv_buf`; and a hole in the table of handlers is called.
-/

namespace Smalltable.Proofs

open Smalltable.Ref

/-! ## Putting the answers together

The loop takes from the buffer a request's answer is in the first response that is left
there. If each buffer has one response for each of its requests, and they are in order,
these are the answers. -/

/-- A response whose length can be read off it, whatever follows. -/
structure Measured (f : Bytes) : Prop where
  header : memcacheHeaderSize ≤ f.length
  size : ∀ rest, mcGetRequestSz (f ++ rest) = f.length

theorem WellFormed.measured {magic : UInt8} {f : Bytes} (h : WellFormed magic f) : Measured f :=
  ⟨h.facts.header, fun rest => mcGetRequestSz_append h rest⟩

theorem AnswerFrame.measured {request f : Bytes} (h : AnswerFrame request intMax f) :
    Measured f := by
  obtain ⟨⟨status, value, rfl⟩, hlen⟩ := h
  have hhdr := memcacheHeaderSize_eq
  rw [Response.length_frame, intMax] at hlen
  simp only [List.length_nil] at hlen
  refine ⟨by rw [Response.length_frame]; omega, fun rest => ?_⟩
  have hbody : mcGetBodyLength (Response.frame
      { opcode := mcGetOpcode request, opaqueId := mcGetOpaque request, status := status,
        value := value } ++ rest) = value.length := by
    rw [Response.frame, List.append_assoc, List.append_assoc, mcGetBodyLength_packHeader]
    simp only [List.length_nil, Nat.zero_add]
    omega
  rw [mcGetRequestSz, hbody, asInt_of_lt (by omega), Response.length_frame]
  simp only [List.length_nil, Nat.add_zero]

/-- The responses at the places of one source. -/
def responsesFrom (order : List (Option Nat)) (rs : List Bytes) (src : Option Nat) : List Bytes :=
  ((order.zip rs).filter fun x => x.1 = src).map Prod.snd

theorem responsesFrom_cons (a : Option Nat) (order : List (Option Nat)) (f : Bytes)
    (rs : List Bytes) (src : Option Nat) :
    responsesFrom (a :: order) (f :: rs) src
      = if a = src then f :: responsesFrom order rs src else responsesFrom order rs src := by
  rw [responsesFrom, List.zip_cons_cons]
  split
  · next heq =>
      rw [List.filter_cons_of_pos (by simpa using heq)]
      rfl
  · next hne =>
      rw [List.filter_cons_of_neg (by simpa using hne)]
      rfl

/-- Only `recv_buf`s and `res_buf` have changed. -/
structure SameButAnswers (w w' : ProxyWorld) : Prop where
  servers : w'.servers = w.servers
  backends : ∀ ptr b, w.backends ptr = some b →
    ∃ rb, w'.backends ptr = some { b with recvBuf := rb }

/-- The sources in `S` hold the answers `q`, and these can be told apart. -/
structure Stocked (S : Option Nat → Prop) (q : Option Nat → List Bytes) (w : ProxyWorld) :
    Prop where
  holds : ∀ src, S src → ∃ b, Proxy.srcBuf w src = some b ∧ b.Holds (q src).flatten
  measured : ∀ src, S src → ∀ f ∈ q src, Measured f

section Deliver

variable {S : Option Nat → Prop} {q : Option Nat → List Bytes} {w : ProxyWorld}

theorem srcBuf_setSrcBuf {src : Option Nat} {b : Buffer} (h : Proxy.srcBuf w src = some b)
    (b' : Buffer) (src' : Option Nat) :
    Proxy.srcBuf (Proxy.setSrcBuf w b' src) src'
      = if src' = src then some b' else Proxy.srcBuf w src' := by
  cases src with
  | none =>
      cases src' with
      | none => rfl
      | some i => rfl
  | some ptr =>
      cases src' with
      | none => rfl
      | some i =>
          show (if i = ptr then _ else w.backends i).map _ = _
          by_cases hi : i = ptr
          · rw [hi, if_pos rfl, if_pos rfl]
            cases hb : w.backends ptr with
            | none =>
                rw [Proxy.srcBuf, hb] at h
                cases h
            | some srv => rfl
          · rw [if_neg hi, if_neg (by simpa using hi)]
            rfl

theorem sameButAnswers_setSrcBuf (b' : Buffer) (src : Option Nat) :
    SameButAnswers w (Proxy.setSrcBuf w b' src) := by
  cases src with
  | none => exact ⟨rfl, fun ptr b hb => ⟨b.recvBuf, hb⟩⟩
  | some i =>
      refine ⟨rfl, fun ptr b hb => ?_⟩
      by_cases hptr : ptr = i
      · refine ⟨b', ?_⟩
        show (if ptr = i then _ else _) = _
        rw [if_pos hptr, ← hptr, hb]
        rfl
      · exact ⟨b.recvBuf, (if_neg hptr).trans hb⟩

theorem SameButAnswers.trans {w1 w2 w3 : ProxyWorld} (h : SameButAnswers w1 w2)
    (h' : SameButAnswers w2 w3) : SameButAnswers w1 w3 := by
  refine ⟨h'.servers.trans h.servers, fun ptr b hb => ?_⟩
  obtain ⟨rb, hrb⟩ := h.backends ptr b hb
  exact h'.backends ptr { b with recvBuf := rb } hrb

/-- One turn of the last loop. -/
theorem deliver_cons {src : Option Nat} (rest : List (Option Nat)) (io : Io) {f : Bytes}
    {fs : List Bytes} {b : Buffer} (hb : Proxy.srcBuf w src = some b)
    (hholds : b.Holds (f ++ fs.flatten)) (hf : Measured f) :
    ∃ b' io', Proxy.deliver (src :: rest) w io
        = Proxy.deliver rest (Proxy.setSrcBuf w b' src) io' ∧
      b'.Holds fs.flatten ∧
      ∀ out, io.sendBuf.Holds out → io'.sendBuf.Holds (out ++ f) := by
  have hhdr := hf.header
  have hsize := hf.size fs.flatten
  have hlen : f.length ≤ (f ++ fs.flatten).length := by
    rw [List.length_append]
    omega
  refine ⟨(bufConsume (bufGetWriter io.pool io.sendBuf f.length).1 b f.length).2,
    { io with
      pool := (bufConsume (bufGetWriter io.pool io.sendBuf f.length).1 b f.length).1
      sendBuf := bufProduce (bufGetWriter io.pool io.sendBuf f.length).2.1 f }, ?_, ?_, ?_⟩
  · rw [Proxy.deliver, hb]
    simp only [hholds.reader, hsize]
    rw [if_pos ⟨by omega, by omega, by omega⟩, Int.toNat_natCast, List.take_left]
  · exact bufConsume_holds hholds rfl
  · intro out hout
    exact bufProduce_holds (bufGetWriter_holds hout _ _) f

/-- The last loop empties the sources into `send_buf`. -/
theorem deliver_stocked : ∀ {order : List (Option Nat)} {q : Option Nat → List Bytes}
    {w : ProxyWorld} {io : Io} {out : Bytes}, Stocked S q w → (∀ src ∈ order, S src) →
    (∀ src, (q src).length = order.count src) → io.sendBuf.Holds out →
    ∃ w' io' rs, Proxy.deliver order w io = some (w', io') ∧
      io'.sendBuf.Holds (out ++ rs.flatten) ∧ rs.length = order.length ∧
      (∀ src, responsesFrom order rs src = q src) ∧ Stocked S (fun _ => []) w' ∧
      SameButAnswers w w' := by
  intro order
  induction order with
  | nil =>
      intro q w io out hq _ hcount hout
      have hnil : q = fun _ => [] := by
        funext src
        exact List.eq_nil_of_length_eq_zero (hcount src)
      rw [hnil] at hq ⊢
      refine ⟨w, io, [], rfl, ?_, rfl, fun _ => rfl, hq, ⟨rfl, fun ptr b hb => ⟨b.recvBuf, hb⟩⟩⟩
      rw [List.flatten_nil, List.append_nil]
      exact hout
  | cons src rest ih =>
      intro q w io out hq hS hcount hout
      have hsrc : S src := hS src List.mem_cons_self
      obtain ⟨f, fs, hfs⟩ : ∃ f fs, q src = f :: fs := by
        have hpos := hcount src
        rw [List.count_cons_self] at hpos
        exact List.exists_cons_of_length_eq_add_one hpos
      obtain ⟨b, hb, hholds⟩ := hq.holds src hsrc
      have hmeas := hq.measured src hsrc
      rw [hfs] at hholds hmeas
      obtain ⟨b', io1, hstep, hb', hout1⟩ := deliver_cons rest io hb hholds
        (hmeas f List.mem_cons_self)
      -- the source has one answer less
      have hq' : Stocked S (fun s => if s = src then fs else q s) (Proxy.setSrcBuf w b' src) := by
        refine ⟨fun s hs => ?_, fun s hs g hg => ?_⟩
        · rw [srcBuf_setSrcBuf hb]
          by_cases heq : s = src
          · rw [if_pos heq, if_pos heq]
            exact ⟨b', rfl, hb'⟩
          · rw [if_neg heq, if_neg heq]
            exact hq.holds s hs
        · by_cases heq : s = src
          · rw [if_pos heq] at hg
            exact hmeas g (List.mem_cons_of_mem _ hg)
          · rw [if_neg heq] at hg
            exact hq.measured s hs g hg
      obtain ⟨w', io', rs, hrest, hholds', hlen, hfrom, hempty, hsame⟩ := ih hq'
        (fun s hs => hS s (List.mem_cons_of_mem _ hs)) (by
          intro s
          have hs := hcount s
          by_cases heq : s = src
          · rw [heq, hfs, List.count_cons_self, List.length_cons] at hs
            rw [if_pos heq, heq]
            omega
          · rw [List.count_cons_of_ne fun h => heq h.symm] at hs
            rw [if_neg heq]
            exact hs) (hout1 out hout)
      refine ⟨w', io', f :: rs, hstep.trans hrest, ?_, ?_, fun s => ?_, hempty,
        (sameButAnswers_setSrcBuf b' src).trans hsame⟩
      · rw [List.flatten_cons, ← List.append_assoc]
        exact hholds'
      · rw [List.length_cons, List.length_cons, hlen]
      · rw [responsesFrom_cons, hfrom s]
        by_cases heq : s = src
        · rw [if_pos heq.symm, if_pos heq, heq, hfs]
        · rw [if_neg fun h => heq h.symm, if_neg heq]

end Deliver

/-! ## What the servers do

Each server that was asked ends with its answers, and the answer to the NOOP is taken
off again. The others have not been touched. -/

section Servers

variable (w : ProxyWorld) (done : List Bytes)

/-- Each server that is asked answers its requests and, with a header only, the
NOOP behind them. -/
structure Answers (answers : Nat → List Bytes) : Prop where
  wf : ∀ ptr ∈ contacted w done, ∀ f ∈ answers ptr, WellFormed 0x81 f
  count : ∀ ptr ∈ contacted w done,
    (answers ptr).length = (requestsFor w done ptr).length + 1
  noop : ∀ ptr ∈ contacted w done, ∀ f, (answers ptr).getLast? = some f →
    f.length = memcacheHeaderSize

/-- The network brings these answers and no connection fails. -/
structure Carries (answers : Nat → List Bytes) (net : List Proxy.NetEvent) : Prop where
  benign : ∀ e ∈ net, ∀ b, w.backends e.server = some b → Benign b e.action
  got : ∀ ptr ∈ contacted w done, gotBytes (actionsOf net ptr) = (answers ptr).flatten

end Servers

theorem Benign.congr {b b' : Backend} {a : ClientAction} (hsd : b'.sd = b.sd)
    (hretry : b'.nextRetry = b.nextRetry) (h : Benign b a) : Benign b' a := by
  cases a with
  | start now connect =>
      show 0 ≤ b'.sd ∨ b'.nextRetry < now ∧ connect ≠ none
      rw [hsd, hretry]
      exact h
  | connected ok => exact h
  | send r => exact h
  | recv r => exact h
  | run => trivial

section Asking

variable {w : ProxyWorld} {R : Bytes → Bytes → Prop} {p' : Pool} {done pas : List Bytes}
  {c : Proxy.Collect} {answers : Nat → List Bytes} {net : List Proxy.NetEvent}

theorem mem_contacted (h : Collected w R done pas c) {ptr : Nat} :
    ptr ∈ c.servers ↔ ptr ∈ contacted w done := by
  rw [h.contacts, contacted, List.mem_dedup]

theorem exists_server_of_route {f : Bytes} {ptr : Nat} (h : route w f = some ptr) :
    ∃ s ∈ w.servers.toList, s.ptr = ptr := by
  unfold route at h
  split at h
  · cases h
  · obtain ⟨s, hs, hptr⟩ := Option.map_eq_some_iff.mp h
    exact ⟨s, Tree.floorBy_mem hs, hptr⟩

theorem exists_server_of_contacted {ptr : Nat} (h : ptr ∈ contacted w done) :
    ∃ s ∈ w.servers.toList, s.ptr = ptr := by
  rw [contacted, List.mem_dedup] at h
  obtain ⟨f, -, hf⟩ := List.mem_filterMap.mp h
  exact exists_server_of_route hf

/-- With the NOOP, a server is ready for its exchange. -/
theorem Collected.prepared (hready : AllIdle w) (hwf : ∀ f ∈ done, WellFormed 0x80 f)
    (h : Collected w R done pas c) {ptr : Nat} (hptr : ptr ∈ contacted w done)
    {b b1 : Backend} (hb : c.world.backends ptr = some b) (hnoop : WithNoop b b1) :
    Prepared (requestsFor w done ptr ++ [noop]) b1 ∧
      ∀ a, ∀ b0, w.backends ptr = some b0 → (Benign b0 a ↔ Benign b1 a) := by
  obtain ⟨s, hs, rfl⟩ := exists_server_of_contacted hptr
  obtain ⟨b0, sb, hb0, hbs, hsb⟩ := h.backends s hs
  obtain ⟨b0', hb0', hidle⟩ := hready s hs
  rw [hb0] at hb0'
  cases hb0'
  rw [hb] at hbs
  cases hbs
  obtain ⟨sb1, rfl, hsb1⟩ := hnoop
  refine ⟨⟨?_, ⟨_, rfl⟩, ?_, hidle.recv, ?_, hidle.responses, hidle.sendOffset,
    hidle.recvOffset⟩, fun a b0' hb0' => ?_⟩
  · intro f hf
    rcases List.mem_append.mp hf with hf | hf
    · exact hwf f (List.mem_of_mem_filter hf)
    · rw [List.mem_singleton.mp hf]
      exact noop_wellFormed
  · rw [List.flatten_append, List.flatten_singleton]
    exact hsb1 _ hsb
  · rw [List.length_append, List.length_singleton]
    rfl
  · rw [hb0] at hb0'
    cases hb0'
    exact ⟨Benign.congr rfl rfl, Benign.congr rfl rfl⟩

/-- The three things that happen to a server that is asked. -/
def Asked (net : List Proxy.NetEvent) (ptr : Nat) (b b' : Backend) : Prop :=
  ∃ b2, (∃ b1, WithNoop b b1 ∧ Served net ptr b1 b2) ∧ WithoutNoop b2 b'

theorem Updated.present {l : List Nat} {R : Nat → Backend → Backend → Prop} {w w' : ProxyWorld}
    (h : Updated l R w w') : ∀ ptr ∈ l, ∃ b, w'.backends ptr = some b := by
  intro ptr hptr
  obtain ⟨-, b', -, hb', -⟩ := h.inside ptr hptr
  exact ⟨b', hb'⟩

theorem Collected.present (h : Collected w R done pas c) :
    ∀ ptr ∈ c.servers, ∃ b, c.world.backends ptr = some b := by
  intro ptr hptr
  obtain ⟨s, hs, rfl⟩ := exists_server_of_contacted ((mem_contacted h).mp hptr)
  obtain ⟨b, sb, -, hb, -⟩ := h.backends s hs
  exact ⟨_, hb⟩

theorem askServers_updated (h : Collected w R done pas c) {w' : ProxyWorld}
    (hask : Proxy.askServers net c = some (p', w')) :
    Updated c.servers (Asked net) c.world w' := by
  unfold Proxy.askServers at hask
  split at hask
  · next hnil =>
      cases hask
      rw [List.eq_nil_of_length_eq_zero hnil]
      exact ⟨rfl, rfl, nofun, fun _ _ => rfl⟩
  · obtain ⟨p1, w1, happ, hupd1⟩ := appendNoops_updated (p := c.pool) h.nodup h.present
    rw [happ] at hask
    simp only [] at hask
    split at hask
    · cases hask
    · next p2 w2 hserve =>
        have hupd2 := processMemcache_updated hupd1.present hserve
        obtain ⟨w3, hpop, hupd3⟩ := popNoops_updated h.nodup hupd2.present
        rw [hpop] at hask
        cases hask
        exact (hupd1.trans hupd2).trans hupd3

/-- A server that was asked holds its answers, without that to the NOOP. -/
theorem Collected.asked (hready : AllIdle w) (hwf : ∀ f ∈ done, WellFormed 0x80 f)
    (h : Collected w R done pas c) (hans : Answers w done answers)
    (hnet : Carries w done answers net) {ptr : Nat} (hptr : ptr ∈ contacted w done)
    {b b' : Backend} (hb : c.world.backends ptr = some b) (hasked : Asked net ptr b b') :
    b'.recvBuf.Holds (answers ptr).dropLast.flatten ∧ Reset b' := by
  obtain ⟨b2, ⟨b1, hnoop, x, hchain, hdone, rfl⟩, rfl⟩ := hasked
  obtain ⟨hprep, hsame⟩ := h.prepared hready hwf hptr hb hnoop
  have hbenign : ∀ a ∈ actionsOf net ptr, Benign b1 a := by
    intro a ha
    obtain ⟨s, hs, rfl⟩ := exists_server_of_contacted hptr
    obtain ⟨b0, sb, hb0, -, -⟩ := h.backends s hs
    obtain ⟨e, he, rfl⟩ := List.mem_map.mp ha
    obtain ⟨he, hserver⟩ := List.mem_filter.mp he
    rw [decide_eq_true_eq] at hserver
    exact (hsame e.action b0 hb0).mp (hnet.benign e he b0 (hserver ▸ hb0))
  obtain ⟨hholds, hreset⟩ := hchain.holds_answers hprep (hans.wf ptr hptr) hbenign
    (hnet.got ptr hptr) hdone
  refine ⟨?_, ⟨hreset.send, hreset.requests, hreset.responses, hreset.sendOffset,
    hreset.recvOffset⟩⟩
  have hne : answers ptr ≠ [] := by
    have hcount := hans.count ptr hptr
    intro hnil
    rw [hnil, List.length_nil] at hcount
    omega
  have hlast := hans.noop ptr hptr _ (List.getLast?_eq_some_getLast hne)
  rw [← List.dropLast_append_getLast hne, List.flatten_append, List.flatten_singleton] at hholds
  refine bufRollbackProduced_holds hholds ?_
  rw [hlast]
  rfl

/-- There is a network that carries the answers and lets every chain end. -/
theorem Collected.exists_net (hready : AllIdle w) (hwf : ∀ f ∈ done, WellFormed 0x80 f)
    (h : Collected w R done pas c) (hans : Answers w done answers) :
    ∃ net, Carries w done answers net ∧ Proxy.askServers net c ≠ none := by
  obtain ⟨p1, w1, happ, hupd1⟩ := appendNoops_updated (p := c.pool) h.nodup h.present
  have hprep : ∀ ptr ∈ c.servers, ∃ b1, w1.backends ptr = some b1 ∧
      Prepared (requestsFor w done ptr ++ [noop]) b1 ∧
      ∀ a, ∀ b0, w.backends ptr = some b0 → (Benign b0 a ↔ Benign b1 a) := by
    intro ptr hptr
    obtain ⟨b, b1, hb, hb1, hnoop⟩ := hupd1.inside ptr hptr
    exact ⟨b1, hb1, h.prepared hready hwf ((mem_contacted h).mp hptr) hb hnoop⟩
  have hstart : ∀ {ptr b1}, ptr ∈ c.servers → w1.backends ptr = some b1 →
      Proxy.startExchanges c.servers w1 ptr = some { srv := b1 } := by
    intro ptr b1 hptr hb1
    rw [Proxy.startExchanges, if_pos hptr, hb1]
    rfl
  obtain ⟨net, p2, xs, hserve, hin, -, hnet⟩ := exists_serving (fun ptr => (answers ptr).flatten)
    (Proxy.startExchanges c.servers w1) p1 h.nodup (by
      intro ptr hptr
      obtain ⟨b1, hb1, hprep, -⟩ := hprep ptr hptr
      have hcont := (mem_contacted h).mp hptr
      refine ⟨b1, hstart hptr hb1, fun p => hprep.runsOut (hans.wf ptr hcont) ?_ p⟩
      rw [hans.count ptr hcont, List.length_append, List.length_singleton])
  refine ⟨net, ⟨fun e he b0 hb0 => ?_, fun ptr hptr => (hin ptr ((mem_contacted h).mpr hptr)).2⟩,
    ?_⟩
  · obtain ⟨hmem, hben⟩ := hnet e he
    obtain ⟨b1, hb1, -, hsame⟩ := hprep e.server hmem
    exact (hsame e.action b0 hb0).mpr (hben b1 (hstart hmem hb1))
  · have hmem : ∃ w2, Proxy.processMemcache net c.servers p1 w1 = some (p2, w2) := by
      unfold Proxy.processMemcache
      rw [hserve]
      simp only []
      rw [if_pos (List.all_eq_true.mpr fun ptr hptr => (hin ptr hptr).1)]
      exact ⟨_, rfl⟩
    obtain ⟨w2, hmem⟩ := hmem
    obtain ⟨w3, hpop, -⟩ := popNoops_updated h.nodup
      (processMemcache_updated hupd1.present hmem).present
    unfold Proxy.askServers
    split
    · exact Option.some_ne_none _
    · rw [happ]
      simp only []
      rw [hmem]
      simp only []
      rw [hpop]
      exact Option.some_ne_none _

end Asking

/-! ## The whole of `process_multi`

`ServedRight` says what the client may expect, for every network that does not fail. A
batch that fits is served so; and for one that does not, the eighth server or the hole
in the table is what goes wrong. -/

section Batch

variable (env : ProxyEnv) (conn : Nat) (w : ProxyWorld) (done : List Bytes)

/-- What the client got for `done`, and what the proxy is left with. -/
structure Merged (answers : Nat → List Bytes) (rs : List Bytes) (w' : ProxyWorld) : Prop where
  length : rs.length = done.length
  proxy : List.Forall₂ (ProxyAnswer env conn w) (done.filter Proxy.doInProxy)
    (responsesFrom (done.map (route w)) rs none)
  servers : ∀ ptr ∈ contacted w done,
    responsesFrom (done.map (route w)) rs (some ptr) = (answers ptr).dropLast
  idle : w'.servers = w.servers ∧
    ∀ s ∈ w.servers.toList, ∃ b, w'.backends s.ptr = some b ∧ Idle b
  resBuf : w'.resBuf.Holds []

variable {env conn w done} {R : Bytes → Bytes → Prop} {pas : List Bytes} {c : Proxy.Collect}
  {answers : Nat → List Bytes} {net : List Proxy.NetEvent}

/-- The answers waiting at each source. -/
def waiting (w : ProxyWorld) (done pas : List Bytes) (answers : Nat → List Bytes) :
    Option Nat → List Bytes
  | none => pas
  | some ptr => if ptr ∈ contacted w done then (answers ptr).dropLast else []

/-- The sources there are. -/
def Source (w : ProxyWorld) : Option Nat → Prop
  | none => True
  | some ptr => ∃ s ∈ w.servers.toList, s.ptr = ptr

theorem source_route (w : ProxyWorld) (f : Bytes) : Source w (route w f) := by
  cases h : route w f with
  | none => trivial
  | some ptr => exact exists_server_of_route h

theorem Collected.route_eq_none (h : Collected w R done pas c) {f : Bytes} (hf : f ∈ done) :
    route w f = none ↔ Proxy.doInProxy f = true := by
  constructor
  · intro hnone
    by_contra hdata
    exact h.found f hf (by simpa using hdata) hnone
  · intro hproxy
    rw [route, if_pos hproxy]

/-- The servers that were asked hold these answers, without those to the NOOPs. -/
structure Holders (w : ProxyWorld) (done : List Bytes) (answers : Nat → List Bytes)
    (w' : ProxyWorld) : Prop where
  wf : ∀ ptr ∈ contacted w done, ∀ f ∈ answers ptr, WellFormed 0x81 f
  count : ∀ ptr ∈ contacted w done,
    (answers ptr).length = (requestsFor w done ptr).length + 1
  holds : ∀ ptr ∈ contacted w done, ∃ b, w'.backends ptr = some b ∧
    b.recvBuf.Holds (answers ptr).dropLast.flatten ∧ Reset b

theorem Collected.holders (hready : AllIdle w) (hwf : ∀ f ∈ done, WellFormed 0x80 f)
    (h : Collected w R done pas c) (hans : Answers w done answers)
    (hnet : Carries w done answers net) {w' : ProxyWorld}
    (hupd : Updated c.servers (Asked net) c.world w') : Holders w done answers w' := by
  refine ⟨hans.wf, hans.count, fun ptr hptr => ?_⟩
  obtain ⟨b, b', hb, hb', hasked⟩ := hupd.inside ptr ((mem_contacted h).mpr hptr)
  exact ⟨b', hb', h.asked hready hwf hans hnet hptr hb hasked⟩

/-- There is one for each request. -/
theorem length_waiting (h : Collected w R done pas c)
    (hcount : ∀ ptr ∈ contacted w done,
      (answers ptr).length = (requestsFor w done ptr).length + 1) (src : Option Nat) :
    (waiting w done pas answers src).length = (done.map (route w)).count src := by
  have hsrc : ∀ src, (done.map (route w)).count src
      = (done.filter fun f => route w f = src).length := by
    intro src
    rw [List.count_eq_countP, List.countP_map, List.countP_eq_length_filter]
    refine congrArg (fun sel => (done.filter sel).length) ?_
    funext f
    rw [Bool.eq_iff_iff, decide_eq_true_eq]
    exact beq_iff_eq
  rw [hsrc]
  cases src with
  | none =>
      have hsame : (done.filter fun f => route w f = none) = done.filter Proxy.doInProxy := by
        refine List.filter_congr fun f hf => ?_
        rw [Bool.eq_iff_iff, decide_eq_true_eq]
        exact h.route_eq_none hf
      rw [hsame]
      exact h.answers.length_eq.symm
  | some ptr =>
      rw [waiting]
      split
      · next hmem =>
          rw [List.length_dropLast, hcount ptr hmem, Nat.add_sub_cancel]
          rfl
      · next hmem =>
          have hnil : requestsFor w done ptr = [] := by
            by_contra hne
            exact hmem (by rw [contacted, List.mem_dedup]; exact mem_filterMap_route.mpr hne)
          rw [← requestsFor, hnil]

theorem measured_of_answers {requests : List Bytes} (hR : ∀ g f, R g f → Measured f)
    (h : List.Forall₂ R requests pas) : ∀ f ∈ pas, Measured f := by
  induction h with
  | nil => exact nofun
  | cons hpa _ ih => exact List.forall_mem_cons.mpr ⟨hR _ _ hpa, ih⟩

/-- After the servers were asked, the answers are where the last loop looks for
them. -/
theorem Collected.stocked (hready : AllIdle w) (hR : ∀ g f, R g f → Measured f)
    (h : Collected w R done pas c) {w' : ProxyWorld}
    (hupd : Updated c.servers (Asked net) c.world w') (hhold : Holders w done answers w') :
    Stocked (Source w) (waiting w done pas answers) w' ∧
      ∀ s ∈ w.servers.toList, ∃ b, w'.backends s.ptr = some b ∧ b.sendBuf.Holds [] ∧
        b.requests = 0 ∧ b.responses = 0 ∧ b.sendOffset = 0 ∧ b.recvOffset = 0 := by
  have hserver : ∀ s ∈ w.servers.toList, ∃ b, w'.backends s.ptr = some b ∧
      b.recvBuf.Holds (waiting w done pas answers (some s.ptr)).flatten ∧ b.sendBuf.Holds [] ∧
      b.requests = 0 ∧ b.responses = 0 ∧ b.sendOffset = 0 ∧ b.recvOffset = 0 := by
    intro s hs
    by_cases hmem : s.ptr ∈ contacted w done
    · obtain ⟨b', hb', hholds, hreset⟩ := hhold.holds s.ptr hmem
      rw [waiting, if_pos hmem]
      exact ⟨b', hb', hholds, hreset.send.1, hreset.requests, hreset.responses,
        hreset.sendOffset, hreset.recvOffset⟩
    · have hnot : s.ptr ∉ c.servers := fun hc => hmem ((mem_contacted h).mp hc)
      have hnil : requestsFor w done s.ptr = [] := by
        by_contra hne
        exact hmem (by rw [contacted, List.mem_dedup]; exact mem_filterMap_route.mpr hne)
      obtain ⟨b0, sb, hb0, hb, hsb⟩ := h.backends s hs
      obtain ⟨b0', hb0', hidle⟩ := hready s hs
      rw [hb0] at hb0'
      cases hb0'
      rw [hnil] at hb hsb
      rw [waiting, if_neg hmem]
      refine ⟨_, (hupd.outside s.ptr hnot).trans hb, hidle.recv, hsb, rfl, hidle.responses,
        hidle.sendOffset, hidle.recvOffset⟩
  refine ⟨⟨fun src hsrc => ?_, fun src hsrc f hf => ?_⟩, fun s hs => ?_⟩
  · cases src with
    | none =>
        refine ⟨w'.resBuf, rfl, ?_⟩
        rw [hupd.resBuf]
        exact h.resBuf
    | some ptr =>
        obtain ⟨s, hs, rfl⟩ := hsrc
        obtain ⟨b, hb, hholds, -⟩ := hserver s hs
        refine ⟨b.recvBuf, ?_, hholds⟩
        rw [Proxy.srcBuf, hb]
        rfl
  · cases src with
    | none =>
        exact measured_of_answers hR h.answers f hf
    | some ptr =>
        rw [waiting] at hf
        split at hf
        · next hmem => exact WellFormed.measured (hhold.wf ptr hmem f (List.dropLast_subset _ hf))
        · cases hf
  · obtain ⟨b, hb, -, hrest⟩ := hserver s hs
    exact ⟨b, hb, hrest⟩

/-- What the client got for `done`, wherever the servers' answers came from. -/
structure PutTogether (w : ProxyWorld) (done : List Bytes) (answers : Nat → List Bytes)
    (pas rs : List Bytes) (w' : ProxyWorld) : Prop where
  length : rs.length = done.length
  proxy : responsesFrom (done.map (route w)) rs none = pas
  servers : ∀ ptr ∈ contacted w done,
    responsesFrom (done.map (route w)) rs (some ptr) = (answers ptr).dropLast
  idle : w'.servers = w.servers ∧
    ∀ s ∈ w.servers.toList, ∃ b, w'.backends s.ptr = some b ∧ Idle b
  resBuf : w'.resBuf.Holds []

/-- The last loop, over the answers that are there. -/
theorem Collected.putTogether (hready : AllIdle w) (hR : ∀ g f, R g f → Measured f)
    (h : Collected w R done pas c) {w1 : ProxyWorld}
    (hupd : Updated c.servers (Asked net) c.world w1) (hhold : Holders w done answers w1)
    {io : Io} {out : Bytes} (hout : io.sendBuf.Holds out) :
    ∃ w' io' rs, Proxy.deliver c.order w1 io = some (w', io') ∧
      io'.sendBuf.Holds (out ++ rs.flatten) ∧ PutTogether w done answers pas rs w' := by
  obtain ⟨hstock, hservers⟩ := h.stocked hready hR hupd hhold
  have hsources : ∀ src ∈ c.order, Source w src := by
    rw [h.order]
    intro src hsrc
    obtain ⟨f, -, rfl⟩ := List.mem_map.mp hsrc
    exact source_route w f
  obtain ⟨w', io', rs, hdeliver, hholds, hlen, hfrom, hempty, hsame⟩ := deliver_stocked
    hstock hsources (by rw [h.order]; exact length_waiting h hhold.count) hout
  rw [h.order] at hlen hfrom
  refine ⟨w', io', rs, hdeliver, hholds, ?_, hfrom none, fun ptr hptr => ?_,
    ⟨hsame.servers.trans (hupd.servers.trans h.servers), fun s hs => ?_⟩, ?_⟩
  · rw [hlen, List.length_map]
  · rw [hfrom (some ptr), waiting, if_pos hptr]
  · obtain ⟨b, hb, hsend, hrequests, hresponses, hsendOffset, hrecvOffset⟩ := hservers s hs
    obtain ⟨rb, hrb⟩ := hsame.backends s.ptr b hb
    obtain ⟨rb', hrb', hrecv⟩ := hempty.holds (some s.ptr) ⟨s, hs, rfl⟩
    rw [Proxy.srcBuf, hrb] at hrb'
    cases hrb'
    exact ⟨_, hrb, hsend, hrecv, hrequests, hresponses, hsendOffset, hrecvOffset⟩
  · obtain ⟨rb, hrb, hholds⟩ := hempty.holds none trivial
    cases hrb
    exact hholds

/-- The part of `process_multi` behind the first loop. -/
theorem Collected.merged (hready : AllIdle w) (hwf : ∀ f ∈ done, WellFormed 0x80 f)
    (h : Collected w (ProxyAnswer env conn w) done pas c) (hans : Answers w done answers)
    (hnet : Carries w done answers net) {p' : Pool} {w1 : ProxyWorld}
    (hask : Proxy.askServers net c = some (p', w1)) {io : Io} {out : Bytes}
    (hout : io.sendBuf.Holds out) :
    ∃ w' io' rs, Proxy.deliver c.order w1 io = some (w', io') ∧
      io'.sendBuf.Holds (out ++ rs.flatten) ∧ Merged env conn w done answers rs w' := by
  have hupd := askServers_updated h hask
  obtain ⟨w', io', rs, hdeliver, hholds, htogether⟩ := h.putTogether hready
    (fun _ _ hpa => hpa.1.measured) hupd (h.holders hready hwf hans hnet hupd) hout
  refine ⟨w', io', rs, hdeliver, hholds, htogether.length, ?_, htogether.servers,
    htogether.idle, htogether.resBuf⟩
  rw [htogether.proxy]
  exact h.answers

variable (env w) in
/-- A batch is served as it should be. Of the batch, `done` is consumed; the
servers have been given its requests and no others; and for all answers of the
servers, a network that brings them is possible, and in each such network the
client gets one answer for each request of `done`, in their order, with nothing
left over. -/
def ServedRight (io : Io) (out : Bytes) (batch : List Bytes) : Prop :=
  ∃ done rest c, batch = done ++ rest ∧
    Proxy.collect env io.conn io.pool w batch.flatten = some c ∧
    c.consumed = done.flatten.length ∧
    (∀ s ∈ w.servers.toList, ∃ b, c.world.backends s.ptr = some b ∧
      b.sendBuf.Holds (requestsFor w done s.ptr).flatten) ∧
    ∀ answers, Answers w done answers →
      (∃ net, Carries w done answers net ∧ Proxy.askServers net c ≠ none) ∧
      ∀ net, Carries w done answers net → Proxy.askServers net c ≠ none →
        ∃ w' io' rs, Proxy.processMulti env net w io batch.flatten
            = some (w', io', (done.flatten.length : Int)) ∧
          io'.sendBuf.Holds (out ++ rs.flatten) ∧ Merged env io.conn w done answers rs w'

theorem servedRight_of_fits {io : Io} {out : Bytes} {batch : List Bytes}
    (hready : ProxyReady io.pool w) (hout : io.sendBuf.Holds out)
    (hwf : ∀ f ∈ batch, WellFormed 0x80 f) (hset : ∀ f ∈ batch, NoSetConfig f)
    (hfits : Fits w batch) : ServedRight env w io out batch := by
  obtain ⟨pas, c, hcollect, h⟩ := collect_of_fits env io.conn hready hwf hset hfits
  have hwf' : ∀ f ∈ batch.take maxQuietRequests, WellFormed 0x80 f :=
    fun f hf => hwf f (List.mem_of_mem_take hf)
  refine ⟨batch.take maxQuietRequests, batch.drop maxQuietRequests, c,
    (List.take_append_drop _ _).symm, hcollect, h.consumed, fun s hs => ?_,
    fun answers hans => ⟨h.exists_net hready.idle hwf' hans, fun net hnet hask => ?_⟩⟩
  · obtain ⟨b, sb, -, hb, hsb⟩ := h.backends s hs
    exact ⟨_, hb, hsb⟩
  · obtain ⟨⟨p', w1⟩, hask⟩ := Option.ne_none_iff_exists'.mp hask
    have hout' : ({ io with pool := p' } : Io).sendBuf.Holds out := hout
    obtain ⟨w', io', rs, hdeliver, hholds, hmerged⟩ :=
        h.merged hready.idle hwf' hans hnet hask hout'
    refine ⟨w', io', rs, ?_, hholds, hmerged⟩
    unfold Proxy.processMulti
    rw [hcollect]
    simp only [hask]
    rw [hdeliver, h.consumed]

/-- Frames are not empty, so that the bytes of a prefix say which it is. -/
theorem prefix_eq_of_length_flatten : ∀ {fs gs hs : List Bytes}, fs <+: hs → gs <+: hs →
    (∀ f ∈ hs, f ≠ []) → fs.flatten.length = gs.flatten.length → fs = gs := by
  intro fs gs hs hfs hgs hne hlen
  have hcases : ∀ {xs ys : List Bytes}, xs <+: ys → ys <+: hs →
      xs.flatten.length = ys.flatten.length → xs = ys := by
    rintro xs ys ⟨zs, rfl⟩ hys hlen
    rw [List.flatten_append, List.length_append] at hlen
    have hzs : zs.length ≤ zs.flatten.length := length_le_length_flatten fun f hf =>
      hne f (hys.subset (List.mem_append_right _ hf))
    have hnil : zs = [] := List.eq_nil_of_length_eq_zero (by omega)
    rw [hnil, List.append_nil]
  rcases List.prefix_or_prefix_of_prefix hfs hgs with h | h
  · exact hcases h hgs hlen
  · exact (hcases h hfs hlen.symm).symm

/-- A batch that does not fit is not served as it should be. -/
theorem fits_of_servedRight {io : Io} {out : Bytes} {batch : List Bytes}
    (hready : ProxyReady io.pool w) (hwf : ∀ f ∈ batch, WellFormed 0x80 f)
    (hset : ∀ f ∈ batch, NoSetConfig f) (h : ServedRight env w io out batch) : Fits w batch := by
  by_contra hfits
  obtain ⟨done, rest, c, hbatch, hcollect, hconsumed, hsent, -⟩ := h
  rcases collect_of_not_fits env io.conn hready hwf hset hfits with hnone |
    ⟨taken, f, c', htaken, hcollect', hfull⟩
  · rw [hcollect] at hnone
    cases hnone
  · rw [hcollect] at hcollect'
    cases hcollect'
    -- the bytes consumed are those of `taken`, but `f` was sent as well
    have hdone : done = taken := by
      refine prefix_eq_of_length_flatten ⟨rest, hbatch.symm⟩
        ((List.prefix_append _ _).trans htaken) (fun g hg => (hwf g hg).1) ?_
      have hconsumed' := hfull.consumed
      omega
    obtain ⟨s, hs, hnew, b, hb, hholds⟩ := hfull.copied
    obtain ⟨b', hb', hholds'⟩ := hsent s hs
    rw [hb] at hb'
    cases hb'
    rw [hdone, hnew] at hholds'
    have hf : f ∈ batch := htaken.subset (List.mem_append_right _ List.mem_cons_self)
    exact (hwf f hf).1 (hholds.reader.symm.trans hholds'.reader)

/-- `process_multi` serves a batch as it should exactly when the batch fits. -/
theorem proxyBatch_iff {io : Io} {out : Bytes} {batch : List Bytes}
    (hready : ProxyReady io.pool w) (hout : io.sendBuf.Holds out)
    (hwf : ∀ f ∈ batch, WellFormed 0x80 f) (hset : ∀ f ∈ batch, NoSetConfig f) :
    ServedRight env w io out batch ↔
      (contacted w (batch.take maxQuietRequests)).length < Proxy.nelemServers ∧
      ∀ f ∈ batch.take maxQuietRequests, HasHandler f := by
  constructor
  · intro h
    have hfits := fits_of_servedRight hready hwf hset h
    exact ⟨hfits.servers, hfits.handlers⟩
  · rintro ⟨hservers, hhandlers⟩
    exact servedRight_of_fits hready hout hwf hset ⟨hservers, hhandlers⟩

end Batch

/-! ## Two servers, and eight -/

/-- A server of the examples. -/
def serverAt (ptr : Nat) (key : String) : StServer := ⟨ptr, ascii "b", ptr, 1, ascii key⟩

/-- A proxy that has served nothing yet. -/
def idleProxy (servers : Tree StServer) : ProxyWorld :=
  { servers := servers, backends := fun _ => some {} }

theorem idleProxy_ready {servers : Tree StServer} (hsorted : servers.Sorted fun s => ordKey s.key)
    (hempty : ∃ s ∈ servers.toList, s.key = []) : ProxyReady [] (idleProxy servers) := by
  refine ⟨⟨List.Pairwise.nil, hsorted⟩, hempty, fun s _ => ⟨{}, rfl, ?_⟩, Buffer.holds_empty,
    ⟨nofun, ?_⟩⟩
  · exact ⟨Buffer.holds_empty, Buffer.holds_empty, rfl, rfl, rfl, rfl⟩
  · show (0 : Int) - 0 ≤ intMax
    decide

def twoServers : Tree StServer :=
  .node .leaf (serverAt 0 "") (.node .leaf (serverAt 1 "m") .leaf)

def twoServersBatch : List Bytes := [getRequest "z", noop, getRequest "a"]

/-- A server that finds nothing. -/
def emptyAnswers (w : ProxyWorld) (done : List Bytes) (ptr : Nat) : List Bytes :=
  List.replicate ((requestsFor w done ptr).length + 1) (brokenAnswer noop).frame

theorem emptyAnswers_ok (w : ProxyWorld) (done : List Bytes) :
    Answers w done (emptyAnswers w done) := by
  refine ⟨fun ptr _ f hf => ?_, fun ptr _ => List.length_replicate, fun ptr _ f hf => ?_⟩
  · rw [(List.mem_replicate.mp hf).2]
    exact brokenAnswer_wellFormed noop
  · rw [(List.mem_replicate.mp (List.mem_of_getLast? hf)).2]
    exact length_brokenAnswer_noop

instance (servers : Tree StServer) : Decidable (servers.Sorted fun s => ordKey s.key) :=
  inferInstanceAs (Decidable (List.Pairwise _ _))

/-- Three requests, two of them for a server each. -/
theorem proxyBatch_iff_twoServers :
    ServedRight plainEnv (idleProxy twoServers) {} [] twoServersBatch ∧
    ∃ (net : List Proxy.NetEvent) (w' : ProxyWorld) (io' : Io) (rs : List Bytes),
      Proxy.processMulti plainEnv net (idleProxy twoServers) {} twoServersBatch.flatten
        = some (w', io', 74) ∧
      io'.sendBuf.Holds rs.flatten ∧ rs.length = 3 := by
  have hready : ProxyReady [] (idleProxy twoServers) := idleProxy_ready (by decide) (by decide)
  have hserved : ServedRight plainEnv (idleProxy twoServers) {} [] twoServersBatch :=
    (proxyBatch_iff hready Buffer.holds_empty (by decide) (by decide)).mpr ⟨by decide, by decide⟩
  refine ⟨hserved, ?_⟩
  obtain ⟨done, rest, c, hbatch, hcollect, hconsumed, -, hall⟩ := hserved
  have hbytes : (Proxy.collect plainEnv 0 [] (idleProxy twoServers)
      twoServersBatch.flatten).map (·.consumed) = some 74 := by decide
  rw [hcollect] at hbytes
  have hbytes : c.consumed = 74 := Option.some.inj hbytes
  have hdone : done = twoServersBatch := by
    refine prefix_eq_of_length_flatten ⟨rest, hbatch.symm⟩
      (List.prefix_refl _) (by decide) ?_
    have htotal : twoServersBatch.flatten.length = 74 := rfl
    omega
  obtain ⟨⟨net, hnet, hask⟩, hrun⟩ := hall _ (emptyAnswers_ok _ _)
  obtain ⟨w', io', rs, hmulti, hholds, hmerged⟩ := hrun net hnet hask
  rw [← hconsumed, hbytes] at hmulti
  refine ⟨net, w', io', rs, hmulti, hholds, ?_⟩
  rw [hmerged.length, hdone]
  rfl

def eightServers : Tree StServer :=
  .node
    (.node (.node (.node .leaf (serverAt 0 "") .leaf) (serverAt 1 "b") .leaf) (serverAt 2 "c")
      (.node .leaf (serverAt 3 "d") .leaf))
    (serverAt 4 "e")
    (.node (.node .leaf (serverAt 5 "f") .leaf) (serverAt 6 "g")
    (.node .leaf (serverAt 7 "h") .leaf))

def eightServersBatch : List Bytes :=
  ["a", "b", "c", "d", "e", "f", "g", "h"].map getRequest

/-- A GET for each of eight servers: the last of them is not served right. -/
theorem proxyBatch_eightServers :
    ProxyReady [] (idleProxy eightServers) ∧ (∀ f ∈ eightServersBatch, WellFormed 0x80 f) ∧
    (∀ f ∈ eightServersBatch, NoSetConfig f) ∧
    ¬ ServedRight plainEnv (idleProxy eightServers) {} [] eightServersBatch := by
  have hready : ProxyReady [] (idleProxy eightServers) :=
    idleProxy_ready (by decide) (by decide)
  have hwf : ∀ f ∈ eightServersBatch, WellFormed 0x80 f := by decide
  have hset : ∀ f ∈ eightServersBatch, NoSetConfig f := by decide
  refine ⟨hready, hwf, hset, fun h => ?_⟩
  have hfits := fits_of_servedRight hready hwf hset h
  exact absurd hfits.servers (by decide)

end Smalltable.Proofs
