import Smalltable.Proofs.BatchBound
import Smalltable.Proofs.ProxyServe

/-!
# What waits for the servers of the proxy

Between two batches nothing does (`QuietBackends`). The first loop of
`process_multi` gives each request to the server its key leads to, so when it is
through, what a server holds is some of the batch, in order, and the servers
that hold anything are listed once (`Spread`). A NOOP is added to each of these,
and a chain of callbacks leaves `send_buf` alone until it has ended, and empty
behind it (`KeepsSend`); then nothing waits any more.

SET_CONFIG may come in the middle of a batch and free servers that have been
given requests. New ones have new numbers and come with nothing to send
(`Reloads`), so of the servers that are still there the same can be said.
-/

namespace Smalltable.Proofs

open Smalltable.Ref Relation

/-! ## Servers come and go

A server that is in the tree after a configuration was loaded was there before, or it is
new and has nothing to send. -/

section Spread

variable (env : ProxyEnv) (conn : Nat)

/-- A server has been given the requests `fs`. -/
structure Holding (fs : List Bytes) (b : Backend) : Prop where
  send : b.sendBuf.Holds fs.flatten
  requests : b.requests = fs.length

theorem holding_new (now : Int) : Holding [] { nextRetry := now } := ⟨Buffer.holds_empty, rfl⟩

/-- Between two batches nothing waits for a server. -/
def QuietBackends (w : ProxyWorld) : Prop :=
  ∀ ptr b, w.backends ptr = some b → ptr < w.nextServer ∧ Holding [] b

/-- Servers may go, and new ones come with nothing to send. -/
structure Reloads (w w' : ProxyWorld) : Prop where
  resBuf : w'.resBuf = w.resBuf
  next : w.nextServer ≤ w'.nextServer
  backends : ∀ ptr b, w'.backends ptr = some b → w.backends ptr = some b ∨
    w.nextServer ≤ ptr ∧ ptr < w'.nextServer ∧ Holding [] b

theorem Reloads.of_eq {w w' : ProxyWorld} (hr : w'.resBuf = w.resBuf)
    (hb : w'.backends = w.backends) (hn : w'.nextServer = w.nextServer) : Reloads w w' :=
  ⟨hr, hn.ge, fun ptr b h => .inl (by rwa [hb] at h)⟩

theorem Reloads.trans {w w1 w2 : ProxyWorld} (h1 : Reloads w w1) (h2 : Reloads w1 w2) :
    Reloads w w2 := by
  refine ⟨h2.resBuf.trans h1.resBuf, h1.next.trans h2.next, fun ptr b hb => ?_⟩
  rcases h2.backends ptr b hb with hb1 | ⟨hge, hlt, hnew⟩
  · rcases h1.backends ptr b hb1 with hb0 | ⟨hge, hlt, hnew⟩
    · exact .inl hb0
    · exact .inr ⟨hge, hlt.trans_le h2.next, hnew⟩
  · exact .inr ⟨h1.next.trans hge, hlt, hnew⟩

theorem newStServer_reloads {w w' : ProxyWorld} {host key : Bytes} {port weight : Int}
    (h : newStServer env w host port weight key = some w') : Reloads w w' := by
  simp only [newStServer] at h
  split at h
  · cases h
  · next w1 hinsert =>
      rw [stServerInsert] at hinsert
      split at hinsert
      · cases hinsert
      · cases hinsert
        cases h
        refine ⟨rfl, Nat.le_succ _, fun ptr b hb => ?_⟩
        by_cases hptr : ptr = w.nextServer
        · refine .inr ⟨hptr.ge, hptr ▸ Nat.lt_succ_self _, ?_⟩
          have hb : (if ptr = w.nextServer then some ({ nextRetry := env.clockGettime } : Backend)
              else w.backends ptr) = some b := hb
          rw [if_pos hptr] at hb
          cases hb
          exact holding_new _
        · exact .inl ((if_neg hptr).symm.trans hb)

theorem loadEntry_reloads {testing : Bool} {l l' : Loading} {e : ConfigEntry}
    (h : loadEntry env testing l e = .inr l') : Reloads l.world l'.world := by
  cases e with
  | proxy host port =>
      simp only [loadEntry] at h
      split at h
      · cases h
        exact .of_eq rfl rfl rfl
      · split at h
        · cases h
        · next w hw =>
            cases h
            rw [newStProxy, stProxyInsert] at hw
            split at hw
            · cases hw
            · cases hw
              exact .of_eq rfl rfl rfl
  | server host port weight key =>
      simp only [loadEntry] at h
      split at h
      · cases h
        exact .of_eq rfl rfl rfl
      · split at h
        · cases h
        · next hw =>
            cases h
            exact newStServer_reloads env hw

theorem loadLines_reloads {testing : Bool} {lines : List Bytes} {n m : Nat} {l l' : Loading}
    {err : Option Bytes} (h : loadLines env testing lines n l = some (l', err, m)) :
    Reloads l.world l'.world := by
  induction lines generalizing n l with
  | nil =>
      cases h
      exact .of_eq rfl rfl rfl
  | cons line rest ih =>
      rw [loadLines] at h
      split at h
      · cases h
      · exact ih h
      · cases h
        exact .of_eq rfl rfl rfl
      · split at h
        · cases h
          exact .of_eq rfl rfl rfl
        · next hentry => exact (loadEntry_reloads env hentry).trans (ih h)

theorem loadConfigFromString_reloads {testing : Bool} {w w' : ProxyWorld} {buf : Bytes}
    {err : Option Bytes} (h : loadConfigFromString env testing w buf = some (w', err)) :
    Reloads w w' := by
  rw [loadConfigFromString] at h
  split at h
  · cases h
  · split at h
    · cases h
    · next hlines =>
        cases h
        exact loadLines_reloads env hlines

theorem flushConfig_reloads (p : Pool) (w : ProxyWorld) : Reloads w (flushConfig p w).2 := by
  refine ⟨rfl, Nat.le_refl _, fun ptr b hb => .inl ?_⟩
  have hb : (if ptr ∈ w.servers.toList.map (·.ptr) then none else w.backends ptr) = some b := hb
  split at hb
  · cases hb
  · exact hb

theorem refuse_reloads {p p' : Pool} {w w' : ProxyWorld} {res res' : StRes} {status : Nat}
    {errStr : Option Bytes} (h : Proxy.refuse p w res status errStr = some (p', w', res')) :
    Reloads w w' := by
  rw [Proxy.refuse] at h
  split at h
  · cases h
  · cases h
    exact .of_eq rfl rfl rfl

theorem cmdSetConfig_reloads {p p' : Pool} {w w' : ProxyWorld} {req : StReq} {res res' : StRes}
    (h : Proxy.cmdSetConfig env p w req res = some (p', w', res')) : Reloads w w' := by
  rw [Proxy.cmdSetConfig] at h
  split at h
  · exact refuse_reloads h
  · split at h
    · cases h
    · split at h
      · cases h
        exact .of_eq rfl rfl rfl
      · cases h
    · split at h
      · exact refuse_reloads h
      · simp only [] at h
        split at h
        · cases h
        · cases h
        · next hload =>
            cases h
            exact (flushConfig_reloads p w).trans (loadConfigFromString_reloads env hload)

theorem callHandler_reloads {hd : Proxy.Handler} {p p' : Pool} {w w' : ProxyWorld} {req : StReq}
    {res res' : StRes}
    (h : Proxy.callHandler env conn hd p w req res = some (p', w', res')) : Reloads w w' := by
  cases hd with
  | unknown =>
      simp only [Proxy.callHandler, Proxy.cmdUnknown] at h
      exact refuse_reloads h
  | setConfig => exact cmdSetConfig_reloads env h
  | getConfig =>
      simp only [Proxy.callHandler, Proxy.cmdGetConfig] at h
      split at h
      · exact refuse_reloads h
      · split at h
        · exact refuse_reloads h
        · split at h
          · exact refuse_reloads h
          · cases h
            exact .of_eq rfl rfl rfl
  | stop =>
      simp only [Proxy.callHandler, Proxy.cmdStop] at h
      split at h
      · exact refuse_reloads h
      · cases h
        exact .of_eq rfl rfl rfl
  | start =>
      simp only [Proxy.callHandler, Proxy.cmdStart] at h
      split at h
      · exact refuse_reloads h
      · split at h
        · exact refuse_reloads h
        · cases h
          exact .of_eq rfl rfl rfl
  | noop =>
      simp only [Proxy.callHandler, Proxy.cmdNoop] at h
      split at h
      · exact refuse_reloads h
      · cases h
        exact .of_eq rfl rfl rfl

theorem processSingle_reloads {p p' : Pool} {w w' : ProxyWorld} {request : Bytes}
    (h : Proxy.processSingle env conn p w request = some (p', w')) :
    Reloads w { w' with resBuf := w.resBuf } := by
  simp only [Proxy.processSingle] at h
  split at h
  · cases h
  · split at h
    · cases h
    · next hcall =>
        split at h
        · cases h
        · cases h
          have hrest := callHandler_reloads env conn hcall
          exact ⟨rfl, hrest.next, hrest.backends⟩

/-! ## The requests of a batch and the servers

What a server holds grows by the request it is given, and it is listed with the first
one. -/

/-- The loop has passed `before`. What a server holds is some of it, in order, and
the servers that hold anything are listed once. -/
structure Spread (before : List Bytes) (c : Proxy.Collect) : Prop where
  nodup : c.servers.Nodup
  known : ∀ ptr ∈ c.servers, ptr < c.world.nextServer
  backends : ∀ ptr b, c.world.backends ptr = some b → ptr < c.world.nextServer ∧
    ∃ fs : List Bytes, fs.Sublist before ∧ Holding fs b ∧ (fs = [] ↔ ptr ∉ c.servers)

theorem QuietBackends.spread {w : ProxyWorld} (h : QuietBackends w) (p : Pool) :
    Spread [] { pool := p, world := w } := by
  refine ⟨List.nodup_nil, nofun, fun ptr b hb => ?_⟩
  obtain ⟨hlt, hnone⟩ := h ptr b hb
  exact ⟨hlt, [], List.Sublist.refl _, hnone, by simp⟩

theorem Spread.of_eq {before : List Bytes} {c c' : Proxy.Collect} (h : Spread before c)
    (hservers : c'.servers = c.servers) (hworld : c'.world = c.world) : Spread before c' := by
  refine ⟨?_, ?_, ?_⟩
  · rw [hservers]
    exact h.nodup
  · rw [hservers, hworld]
    exact h.known
  · rw [hservers, hworld]
    exact h.backends

theorem Spread.mono {before after : List Bytes} {c : Proxy.Collect} (h : Spread before c)
    (hsub : before.Sublist after) : Spread after c := by
  refine ⟨h.nodup, h.known, fun ptr b hb => ?_⟩
  obtain ⟨hlt, fs, hfs, hrest⟩ := h.backends ptr b hb
  exact ⟨hlt, fs, hfs.trans hsub, hrest⟩

theorem Spread.reloads {before : List Bytes} {c : Proxy.Collect} (h : Spread before c) {p : Pool}
    {w : ProxyWorld} (hw : Reloads c.world { w with resBuf := c.world.resBuf }) :
    Spread before { c with pool := p, world := w } := by
  refine ⟨h.nodup, fun ptr hptr => (h.known ptr hptr).trans_le hw.next, fun ptr b hb => ?_⟩
  rcases hw.backends ptr b hb with hold | ⟨hge, hlt, hnew⟩
  · obtain ⟨hlt, hrest⟩ := h.backends ptr b hold
    exact ⟨hlt.trans_le hw.next, hrest⟩
  · -- a new server has a new number
    have hout : ptr ∉ c.servers := fun hptr => absurd (h.known ptr hptr) (Nat.not_lt.mpr hge)
    exact ⟨hlt, [], List.nil_sublist _, hnew, iff_of_true rfl hout⟩

/-- The request goes to a server. -/
theorem Spread.forward {before : List Bytes} {c : Proxy.Collect} (h : Spread before c) {ptr : Nat}
    {b : Backend} (hb : c.world.backends ptr = some b) (f : Bytes) :
    Spread (before ++ [f]) { c with
      pool := (bufGetWriter c.pool b.sendBuf f.length).1
      world := c.world.setBackend ptr (some { b with
        sendBuf := bufProduce (bufGetWriter c.pool b.sendBuf f.length).2.1 f
        requests := b.requests + 1 })
      servers := if 0 = b.requests then c.servers ++ [ptr] else c.servers } := by
  obtain ⟨hlt, fs, hfs, hhold, hlisted⟩ := h.backends ptr b hb
  have hempty : 0 = b.requests ↔ ptr ∉ c.servers := by
    rw [← hlisted, hhold.requests, eq_comm, Int.natCast_eq_zero, List.length_eq_zero_iff]
  have hmem : ∀ i, i ∈ (if 0 = b.requests then c.servers ++ [ptr] else c.servers) ↔
      i ∈ c.servers ∨ i = ptr := by
    intro i
    split
    · rw [List.mem_append, List.mem_singleton]
    · next hin =>
        rw [hempty, not_not] at hin
        exact ⟨.inl, fun hi => hi.elim id fun heq => heq ▸ hin⟩
  refine ⟨?_, fun i hi => ?_, fun i bi hbi => ?_⟩
  · show (if 0 = b.requests then c.servers ++ [ptr] else c.servers).Nodup
    split
    · next hzero =>
        refine List.nodup_append.mpr ⟨h.nodup, List.nodup_singleton ptr, ?_⟩
        intro i hi j hj heq
        rw [List.mem_singleton.mp hj] at heq
        exact hempty.mp hzero (heq ▸ hi)
    · exact h.nodup
  · rcases (hmem i).mp hi with hi | rfl
    · exact h.known i hi
    · exact hlt
  · by_cases hptr : i = ptr
    · have hnew : some { b with
          sendBuf := bufProduce (bufGetWriter c.pool b.sendBuf f.length).2.1 f
          requests := b.requests + 1 } = some bi := (if_pos hptr).symm.trans hbi
      cases hnew
      refine ⟨hptr ▸ hlt, fs ++ [f], hfs.append (List.Sublist.refl _), ⟨?_, ?_⟩, ?_⟩
      · rw [List.flatten_append, List.flatten_singleton]
        exact bufProduce_holds (bufGetWriter_holds hhold.send _ _) f
      · show b.requests + 1 = _
        rw [hhold.requests, List.length_append]
        rfl
      · exact iff_of_false (List.concat_ne_nil f fs) (not_not.mpr ((hmem i).mpr (.inr hptr)))
    · obtain ⟨hlti, gs, hgs, hholdi, hlistedi⟩ := h.backends i bi ((if_neg hptr).symm.trans hbi)
      refine ⟨hlti, gs, hgs.trans (List.sublist_append_left _ _), hholdi, ?_⟩
      rw [hlistedi]
      exact not_congr ⟨fun hi => (hmem i).mpr (.inl hi), fun hi =>
        ((hmem i).mp hi).elim id fun heq => absurd heq hptr⟩

theorem Spread.advance {before : List Bytes} {c c' : Proxy.Collect} (h : Spread before c)
    {f : Bytes} {src : Option Nat}
    (hs : Proxy.advance c f src = .done c' ∨ Proxy.advance c f src = .yield c') :
    Spread before c' := by
  rw [Proxy.advance] at hs
  simp only [] at hs
  split at hs
  · rcases hs with hs | hs
    · cases hs
      exact h.of_eq rfl rfl
    · cases hs
  · rcases hs with hs | hs
    · cases hs
    · cases hs
      exact h.of_eq rfl rfl

theorem Spread.step {before : List Bytes} {c c' : Proxy.Collect} (h : Spread before c) {f : Bytes}
    {r : ForInStep Proxy.Collect} (hs : Proxy.collectStep env conn c f = some r)
    (hr : r = .done c' ∨ r = .yield c') : Spread (before ++ [f]) c' := by
  rw [Proxy.collectStep] at hs
  split at hs
  · split at hs
    · cases hs
    · next p w hsingle =>
        cases hs
        exact ((h.reloads (processSingle_reloads env conn hsingle)).advance hr).mono
          (List.sublist_append_left _ _)
  · split at hs
    · cases hs
    · next srv _ =>
        split at hs
        · cases hs
        · next b hb =>
            have hgiven := h.forward hb f
            simp only [] at hs
            generalize (if 0 = b.requests then c.servers ++ [srv.ptr] else c.servers) = servers
              at hs hgiven
            split at hs
            · cases hs
              rcases hr with hr | hr
              · cases hr
                exact hgiven
              · cases hr
            · cases hs
              exact hgiven.advance hr

theorem Spread.run {frames : List Bytes} {before : List Bytes} {c c' : Proxy.Collect}
    (h : Spread before c) (hs : foldFrames (Proxy.collectStep env conn) c frames = some c') :
    Spread (before ++ frames) c' := by
  induction frames generalizing before c with
  | nil =>
      cases hs
      rw [List.append_nil]
      exact h
  | cons f rest ih =>
      have hfront : (before ++ [f]).Sublist (before ++ f :: rest) :=
        (List.Sublist.refl _).append (List.Sublist.cons_cons f (List.nil_sublist rest))
      rw [foldFrames] at hs
      split at hs
      · cases hs
      · next hstep =>
          cases hs
          exact (h.step env conn hstep (.inl rfl)).mono hfront
      · next hstep =>
          have hrest := ih (h.step env conn hstep (.inr rfl)) hs
          rwa [List.append_assoc] at hrest

/-! ## Until the exchange ends

`do_write` counts with `send_offset` and takes nothing off `send_buf`, a failure leaves
it too, and `do_done` empties it. -/

/-- A chain of callbacks leaves `send_buf` alone until it has ended, and then it is
empty. -/
def KeepsSend (bs : Bytes) (x : Exchange) : Prop :=
  (x.pc ≠ .done ∧ x.srv.sendBuf.Holds bs) ∨ (x.pc = .done ∧ Holding [] x.srv)

theorem keepsSend_doDone (p : Pool) {x : Exchange} {bs : Bytes} (h : x.srv.sendBuf.Holds bs) :
    KeepsSend bs (doDone p x).2 :=
  .inr ⟨rfl, (bufConsume_all h p).1, rfl⟩

section Client

variable {bs : Bytes} {p p' : Pool} {x x' : Exchange}

theorem keepsSend_doError (h : x.srv.sendBuf.Holds bs) (hs : Ref.doError p x = some (p', x')) :
    KeepsSend bs x' := by
  simp only [Ref.doError] at hs
  split at hs
  · cases hs
  · next e _ =>
      cases hs
      exact keepsSend_doDone e.pool (x := { x with
        srv := { x.srv with recvBuf := e.recvBuf }, failed := some x.srv.responses }) h

theorem keepsSend_doConnectionError (h : x.srv.sendBuf.Holds bs)
    (hs : doConnectionError p x = some (p', x')) : KeepsSend bs x' := by
  rw [doConnectionError] at hs
  exact keepsSend_doError (by exact h) hs

theorem keepsSend_written (h : x.srv.sendBuf.Holds bs) (taken : Bytes) (bufSz : Int) :
    KeepsSend bs (doWritten x taken bufSz) := by
  refine .inl ⟨?_, h⟩
  simp only [doWritten]
  split
  · simp
  · simp

theorem keepsSend_step {a : ClientAction} (h : x.srv.sendBuf.Holds bs)
    (hs : clientStep p x a = some (p', x')) : KeepsSend bs x' := by
  rcases clientStep_cases hs with ⟨now, connect, hpc, hs⟩ | ⟨ok, hpc, hs⟩ | ⟨r, hpc, hs⟩ |
    ⟨r, hpc, hs⟩ | ⟨hpc, hs⟩
  · simp only [doStart] at hs
    split at hs
    · split at hs
      · exact keepsSend_doError h hs
      · split at hs
        · exact keepsSend_doConnectionError h hs
        · cases hs
          exact .inl ⟨by simp, h⟩
    · cases hs
      exact .inl ⟨by simp, h⟩
  · rw [doConnected] at hs
    split at hs
    · cases hs
      exact .inl ⟨by simp, h⟩
    · exact keepsSend_doConnectionError h hs
  · simp only [doWrite] at hs
    split at hs
    · split at hs
      · cases hs
        exact keepsSend_written h _ _
      · cases hs
    · cases hs
      exact keepsSend_written h _ _
    · exact keepsSend_doConnectionError h hs
  · simp only [doRead] at hs
    split at hs
    · split at hs
      · cases hs
        refine .inl ⟨?_, h⟩
        dsimp only
        split
        · simp
        · simp
      · cases hs
    · cases hs
      refine .inl ⟨?_, h⟩
      dsimp only
      split
      · simp
      · simp
    · exact keepsSend_doConnectionError (by exact h) hs
  · simp only [doSwallow] at hs
    split at hs
    · exact keepsSend_doConnectionError h hs
    · split at hs
      · cases hs
        exact .inl ⟨by simp, h⟩
      · split at hs
        · cases hs
          exact keepsSend_doDone p (x := { x with srv := { x.srv with
            recvOffset := _, responses := _ } }) h
        · cases hs
          refine .inl ⟨?_, h⟩
          show x.pc ≠ .done
          simp [hpc]

theorem Chain.keepsSend {as : List ClientAction} (hchain : Chain x as x') (h : KeepsSend bs x) :
    KeepsSend bs x' := by
  induction hchain with
  | nil x => exact h
  | @cons p p' x x1 x' a as hs _ ih =>
      rcases h with ⟨-, hsend⟩ | ⟨hdone, -⟩
      · exact ih (keepsSend_step hsend hs)
      · -- an exchange that has ended makes no step
        unfold clientStep at hs
        rw [hdone] at hs
        cases a <;> cases hs

end Client

/-! ## The servers between two batches

Behind the network nothing is left to send, and merging the answers does not touch what
is to be sent. -/

/-- What waits for the servers is the same. -/
structure SameSends (w w' : ProxyWorld) : Prop where
  next : w'.nextServer = w.nextServer
  backends : ∀ ptr b', w'.backends ptr = some b' → ∃ b, w.backends ptr = some b ∧
    b'.sendBuf = b.sendBuf ∧ b'.requests = b.requests

theorem SameSends.refl (w : ProxyWorld) : SameSends w w := ⟨rfl, fun _ b hb => ⟨b, hb, rfl, rfl⟩⟩

theorem SameSends.trans {w w1 w2 : ProxyWorld} (h1 : SameSends w w1) (h2 : SameSends w1 w2) :
    SameSends w w2 := by
  refine ⟨h2.next.trans h1.next, fun ptr b2 hb2 => ?_⟩
  obtain ⟨b1, hb1, hsend1, hreq1⟩ := h2.backends ptr b2 hb2
  obtain ⟨b, hb, hsend, hreq⟩ := h1.backends ptr b1 hb1
  exact ⟨b, hb, hsend1.trans hsend, hreq1.trans hreq⟩

theorem SameSends.recvBuf {w : ProxyWorld} {ptr : Nat} {b : Backend}
    (hb : w.backends ptr = some b) (rb : Buffer) :
    SameSends w (w.setBackend ptr (some { b with recvBuf := rb })) := by
  refine ⟨rfl, fun i bi hbi => ?_⟩
  have hbi : (if i = ptr then some { b with recvBuf := rb } else w.backends i) = some bi := hbi
  split at hbi
  · next hi =>
      cases hbi
      exact ⟨b, hi ▸ hb, rfl, rfl⟩
  · exact ⟨bi, hbi, rfl, rfl⟩

theorem QuietBackends.of_same {w w' : ProxyWorld} (h : QuietBackends w) (hsame : SameSends w w') :
    QuietBackends w' := by
  intro ptr b' hb'
  obtain ⟨b, hb, hsend, hreq⟩ := hsame.backends ptr b' hb'
  obtain ⟨hlt, hnone⟩ := h ptr b hb
  refine ⟨hsame.next ▸ hlt, ?_, hreq.trans hnone.requests⟩
  rw [hsend]
  exact hnone.send

theorem popNoops_sends {l : List Nat} {w w' : ProxyWorld} (h : Proxy.popNoops l w = some w') :
    SameSends w w' := by
  induction l generalizing w with
  | nil =>
      cases h
      exact .refl _
  | cons ptr rest ih =>
      rw [Proxy.popNoops] at h
      split at h
      · cases h
      · next b hb => exact (SameSends.recvBuf hb _).trans (ih h)

theorem deliver_sends {order : List (Option Nat)} {w w' : ProxyWorld} {io io' : Io}
    (h : Proxy.deliver order w io = some (w', io')) : SameSends w w' := by
  induction order generalizing w io with
  | nil =>
      cases h
      exact .refl _
  | cons src rest ih =>
      rw [Proxy.deliver] at h
      split at h
      · cases h
      · next b hb =>
          simp only [] at h
          split at h
          · refine SameSends.trans ?_ (ih h)
            cases src with
            | none => exact ⟨rfl, fun _ b hb => ⟨b, hb, rfl, rfl⟩⟩
            | some ptr =>
                obtain ⟨srv, hsrv, -⟩ := Option.map_eq_some_iff.mp hb
                rw [Proxy.setSrcBuf, hsrv]
                exact SameSends.recvBuf hsrv _
          · cases h

theorem appendNoops_next {l : List Nat} {p p' : Pool} {w w' : ProxyWorld}
    (h : Proxy.appendNoops l p w = some (p', w')) : w'.nextServer = w.nextServer := by
  induction l generalizing p w with
  | nil =>
      cases h
      rfl
  | cons ptr rest ih =>
      rw [Proxy.appendNoops] at h
      split at h
      · cases h
      · exact (ih h).trans rfl

theorem appendNoops_present {l : List Nat} {p : Pool} {w : ProxyWorld} {r : Pool × ProxyWorld}
    (h : Proxy.appendNoops l p w = some r) : ∀ ptr ∈ l, ∃ b, w.backends ptr = some b := by
  induction l generalizing p w with
  | nil => exact nofun
  | cons ptr rest ih =>
      rw [Proxy.appendNoops] at h
      split at h
      · cases h
      · next b hb =>
          intro i hi
          by_cases hptr : i = ptr
          · exact ⟨b, hptr ▸ hb⟩
          · rcases List.mem_cons.mp hi with heq | hi
            · exact absurd heq hptr
            · obtain ⟨bi, hbi⟩ := ih h i hi
              exact ⟨bi, (if_neg hptr).symm.trans hbi⟩

/-- With the NOOP behind them, the requests of a server are ready to go. -/
theorem Spread.noops {before : List Bytes} {c : Proxy.Collect} (h : Spread before c)
    {p' : Pool} {w' : ProxyWorld}
    (hs : Proxy.appendNoops c.servers c.pool c.world = some (p', w')) :
    (∀ ptr ∈ c.servers, ∃ b' fs, w'.backends ptr = some b' ∧ fs.Sublist before ∧
      b'.sendBuf.Holds (fs ++ [noop]).flatten) ∧
    (∀ ptr, ptr ∉ c.servers → w'.backends ptr = c.world.backends ptr) := by
  have hpresent := appendNoops_present hs
  obtain ⟨p1, w1, hs1, hupd⟩ := appendNoops_updated (p := c.pool) h.nodup hpresent
  rw [hs] at hs1
  cases hs1
  refine ⟨fun ptr hptr => ?_, hupd.outside⟩
  obtain ⟨b, b', hb, hb', sb, rfl, hsb⟩ := hupd.inside ptr hptr
  obtain ⟨-, fs, hfs, hhold, -⟩ := h.backends ptr b hb
  refine ⟨_, fs, hb', hfs, ?_⟩
  rw [List.flatten_append, List.flatten_singleton]
  exact hsb _ hhold.send

/-- Wherever the exchange with a server is, as long as it goes on. -/
theorem Spread.exchange {before : List Bytes} {c : Proxy.Collect} (h : Spread before c)
    {p1 p2 : Pool} {w1 : ProxyWorld} {net : List Proxy.NetEvent} {xs : Nat → Option Exchange}
    (hnoops : Proxy.appendNoops c.servers c.pool c.world = some (p1, w1))
    (hserve : Proxy.serveEvents p1 (Proxy.startExchanges c.servers w1) net = some (p2, xs))
    {ptr : Nat} {x : Exchange} (hx : xs ptr = some x) :
    ptr ∈ c.servers ∧ ∃ fs : List Bytes, fs.Sublist before ∧
        KeepsSend (fs ++ [noop]).flatten x := by
  obtain ⟨hnone, hsome⟩ := serveEvents_chain hserve ptr
  rw [Proxy.startExchanges] at hnone hsome
  by_cases hptr : ptr ∈ c.servers
  · obtain ⟨b', fs, hb', hfs, hsend⟩ := (h.noops hnoops).1 ptr hptr
    rw [if_pos hptr, hb'] at hsome
    obtain ⟨x', hx', hchain⟩ := hsome { srv := b' } rfl
    rw [hx] at hx'
    cases hx'
    exact ⟨hptr, fs, hfs, hchain.keepsSend (.inl ⟨by simp, hsend⟩)⟩
  · rw [if_neg hptr] at hnone
    rw [hnone rfl] at hx
    cases hx

/-- When all exchanges have ended, nothing waits any more. -/
theorem Spread.asked {before : List Bytes} {c : Proxy.Collect} (h : Spread before c)
    {net : List Proxy.NetEvent} {p' : Pool} {w' : ProxyWorld}
    (hs : Proxy.askServers net c = some (p', w')) : QuietBackends w' := by
  -- a server that is not listed has not been given anything
  have hrest : ∀ ptr b, ptr ∉ c.servers → c.world.backends ptr = some b →
      ptr < c.world.nextServer ∧ Holding [] b := by
    intro ptr b hptr hb
    obtain ⟨hlt, fs, -, hhold, hlisted⟩ := h.backends ptr b hb
    rw [hlisted.mpr hptr] at hhold
    exact ⟨hlt, hhold⟩
  rw [Proxy.askServers] at hs
  split at hs
  · next hnil =>
      cases hs
      intro ptr b hb
      refine hrest ptr b ?_ hb
      rw [List.eq_nil_of_length_eq_zero hnil]
      exact List.not_mem_nil
  · split at hs
    · cases hs
    · next p1 w1 hnoops =>
        split at hs
        · cases hs
        · next p2 w2 hserve =>
            obtain ⟨w3, hpop, heq⟩ := Option.map_eq_some_iff.mp hs
            cases heq
            refine QuietBackends.of_same ?_ (popNoops_sends hpop)
            have hnext := appendNoops_next hnoops
            obtain ⟨hinside, houtside⟩ := h.noops hnoops
            have hpresent : ∀ ptr ∈ c.servers, ∃ b, w1.backends ptr = some b := by
              intro ptr hptr
              obtain ⟨b', -, hb', -⟩ := hinside ptr hptr
              exact ⟨b', hb'⟩
            have hupd := processMemcache_updated hpresent hserve
            have hnext2 : w2.nextServer = w1.nextServer := by
              rw [Proxy.processMemcache] at hserve
              split at hserve
              · cases hserve
              · split at hserve
                · cases hserve
                  rfl
                · cases hserve
            intro ptr b hb
            rw [hnext2, hnext]
            by_cases hptr : ptr ∈ c.servers
            · obtain ⟨b1, b2, hb1, hb2, x, hchain, hdone, rfl⟩ := hupd.inside ptr hptr
              obtain ⟨b1', fs, hb1', -, hsend⟩ := hinside ptr hptr
              rw [hb1] at hb1'
              cases hb1'
              rw [hb] at hb2
              cases hb2
              refine ⟨h.known ptr hptr, ?_⟩
              rcases hchain.keepsSend (.inl ⟨by simp, hsend⟩) with ⟨hgoing, -⟩ | ⟨-, hend⟩
              · exact absurd hdone hgoing
              · exact hend
            · rw [hupd.outside ptr hptr, houtside ptr hptr] at hb
              exact hrest ptr b hptr hb

theorem collect_spread {p : Pool} {w : ProxyWorld} {frames : List Bytes} {c : Proxy.Collect}
    (hquiet : QuietBackends w) (hwf : ∀ f ∈ frames, WellFormed 0x80 f)
    (hs : Proxy.collect env conn p w frames.flatten = some c) : Spread frames c := by
  rw [Proxy.collect, forRequests_flatten hwf] at hs
  exact (hquiet.spread p).run env conn hs

theorem processMulti_quiet {net : List Proxy.NetEvent} {w w' : ProxyWorld} {io io' : Io}
    {frames : List Bytes} {n : Int} (hquiet : QuietBackends w)
    (hwf : ∀ f ∈ frames, WellFormed 0x80 f)
    (hs : Proxy.processMulti env net w io frames.flatten = some (w', io', n)) :
    QuietBackends w' := by
  rw [Proxy.processMulti] at hs
  split at hs
  · cases hs
  · next c hcollect =>
      have hspread := collect_spread env io.conn hquiet hwf hcollect
      split at hs
      · cases hs
      · next p1 w1 hask =>
          split at hs
          · cases hs
          · next hdeliver =>
              cases hs
              exact (hspread.asked hask).of_same (deliver_sends hdeliver)

/-! ## Runs of the proxy

So in every state of a run in which the proxy can be handed a batch, nothing waits for
its servers. -/

/-- What can happen while a connection of the proxy is open: a step of its own, a
batch of another connection, and the network and the pool as they like. -/
inductive ProxyMove : Conn (ProxyWorld × List Proxy.NetEvent) →
    Conn (ProxyWorld × List Proxy.NetEvent) → Prop
  | own {c c' : Conn (ProxyWorld × List Proxy.NetEvent)} {a : ConnAction}
      (hs : connStep (proxyHandler env).processMulti c a = some c') : ProxyMove c c'
  | other (c : Conn (ProxyWorld × List Proxy.NetEvent)) {io io' : Io} {frames : List Bytes}
      {w' : ProxyWorld} {n : Int} (hwf : ∀ f ∈ frames, WellFormed 0x80 f)
      (hs : Proxy.processMulti env c.world.2 c.world.1 io frames.flatten = some (w', io', n)) :
      ProxyMove c { c with world := (w', c.world.2) }
  | network (c : Conn (ProxyWorld × List Proxy.NetEvent)) (net : List Proxy.NetEvent) (p : Pool) :
      ProxyMove c { c with world := (c.world.1, net), io := { c.io with pool := p } }

variable {env} in
theorem ProxyMove.connMove {c c' : Conn (ProxyWorld × List Proxy.NetEvent)}
    (h : ProxyMove env c c') : ConnMove (proxyHandler env) c c' := by
  cases h with
  | own hs => exact .own hs
  | other hwf hs => exact .others c (_, c.world.2) c.io.pool
  | network net p => exact .others c (c.world.1, net) p

end Spread

theorem proxyRun_quiet (env : ProxyEnv) {text : Bytes} {w : ProxyWorld}
    (hload : loadConfigFromString env false {} text = some (w, none)) {net : List Proxy.NetEvent}
    {conn : Nat} {pool : Pool} {stream : Bytes} {c : Conn (ProxyWorld × List Proxy.NetEvent)}
    (hrun : ReflTransGen (ProxyMove env) (connNew (w, net) conn pool stream) c) :
    QuietBackends c.world.1 ∧ ∃ pend more, Gathered c pend more := by
  have hstart : QuietBackends w := by
    intro ptr b hb
    rcases (loadConfigFromString_reloads env hload).backends ptr b hb with hold | ⟨-, hlt, hnew⟩
    · cases hold
    · exact ⟨hlt, hnew⟩
  refine run_invariant (P := fun c : Conn (ProxyWorld × List Proxy.NetEvent) =>
    QuietBackends c.world.1 ∧ ∃ pend more, Gathered c pend more) ?_
    ⟨hstart, [], [], gathered_connNew (w, net) conn pool stream⟩ hrun
  intro c c' hinv hmove
  obtain ⟨hquiet, pend, more, h⟩ := hinv
  refine ⟨?_, h.step (proxyHandler env) hmove.connMove⟩
  cases hmove with
  | own hs =>
      refine h.world_step (K := fun w : ProxyWorld × List Proxy.NetEvent => QuietBackends w.1)
        (proxyHandler env) ?_ hquiet hs
      intro w w' io io' n batch hwf hs hk
      obtain ⟨⟨w1, io1, n1⟩, hmulti, heq⟩ := Option.map_eq_some_iff.mp hs
      cases heq
      exact processMulti_quiet env hk hwf hmulti
  | other hwf hs => exact processMulti_quiet env hquiet hwf hs
  | network net p => exact hquiet

end Smalltable.Proofs
