import Smalltable.Lib.Transition
import Smalltable.Proofs.StoreRefine
import Smalltable.Ref.ProxyClient
import Smalltable.Ref.ProxyCommand

/-!
# An exchange with a server

The proxy has put `k` requests, the last of them its own NOOP, into a server's
`send_buf`. However the network behaves from then on, when the chain of
callbacks ends the server's `recv_buf` holds `k` responses: those that
`do_read` had counted when the connection failed, if it did, and one that is
made up for every other request.

`InFlight` is what holds until the end. The responses counted so far are whole
frames, and what has been received is these and the beginning of the next, so
there is a right offset to roll back to at every point where the connection
can fail.

One lemma for each step of the chain keeps `InFlight` or ends in `Ended`, and until the
end there is always a next step (`InFlight.progress`). The events of the sockets are
free: how much is sent or received at once, and where a connection is closed.
-/

namespace Smalltable.Proofs

open Smalltable.Ref Relation

/-- The response `do_error` makes up for a request. -/
def brokenAnswer (req : Bytes) : Response :=
  { opcode := mcGetOpcode req
    opaqueId := mcGetOpaque req
    status := memcacheStatusConnectionBroken
    value := if memcacheCmdNoop = mcGetOpcode req then [] else ascii "Unknown error code" }

theorem brokenAnswer_wellFormed (req : Bytes) : WellFormed 0x81 (brokenAnswer req).frame := by
  refine Response.frame_wellFormed (show 0 < 256 by decide) ?_
  show (if memcacheCmdNoop = mcGetOpcode req then [] else ascii "Unknown error code").length ≤ _
  rw [maxValueSize_eq]
  split
  · exact Nat.zero_le _
  · decide

theorem noop_wellFormed : WellFormed 0x80 noop := by decide

theorem length_brokenAnswer_noop : (brokenAnswer noop).frame.length = memcacheHeaderSize := by
  rw [Response.length_frame]
  rfl

/-- The answers after a failure: `frames` came from the server. -/
def fullAnswers (reqs frames : List Bytes) : List Bytes :=
  frames ++ (reqs.drop frames.length).map fun req => (brokenAnswer req).frame

/-- A step of the chain, with whatever is in the pool at that moment. -/
def ClientStep (x x' : Exchange) : Prop := ∃ p a p', clientStep p x a = some (p', x')

theorem doError_pc {p p' : Pool} {x x' : Exchange} (h : doError p x = some (p', x')) :
    x'.pc = .done := by
  unfold doError at h
  simp only [] at h
  split at h
  · cases h
  · cases h; rfl

/-- What `process_multi` has prepared. -/
structure Prepared (reqs : List Bytes) (srv : Backend) : Prop where
  wf : ∀ f ∈ reqs, WellFormed 0x80 f
  last : ∃ front, reqs = front ++ [noop]
  send : srv.sendBuf.Holds reqs.flatten
  recv : srv.recvBuf.Holds []
  requests : srv.requests = reqs.length
  responses : srv.responses = 0
  sendOffset : srv.sendOffset = 0
  recvOffset : srv.recvOffset = 0

/-- Nothing is left over for the next exchange. -/
structure Reset (srv : Backend) : Prop where
  send : srv.sendBuf.Holds [] ∧ srv.sendBuf.allocated = false
  requests : srv.requests = 0
  responses : srv.responses = 0
  sendOffset : srv.sendOffset = 0
  recvOffset : srv.recvOffset = 0

/-- The chain has not ended. `frames` have been counted and `more` has been
received behind them. -/
structure InFlight (reqs frames : List Bytes) (more : Bytes) (x : Exchange) : Prop where
  pc : x.pc ≠ .done
  send : x.srv.sendBuf.Holds reqs.flatten
  requests : x.srv.requests = reqs.length
  wf : ∀ f ∈ frames, WellFormed 0x81 f
  responses : x.srv.responses = frames.length
  few : frames.length < reqs.length
  recvOffset : x.srv.recvOffset = frames.flatten.length
  recv : x.srv.recvBuf.Holds (frames.flatten ++ more)
  received : x.received = frames.flatten ++ more
  sendOffset : ∃ n : Nat, x.srv.sendOffset = n ∧ n ≤ reqs.flatten.length ∧
    x.sent = reqs.flatten.take n
  failed : x.failed = none
  /-- before the first `do_read`, something is left to send; after it, nothing -/
  reading : (x.pc = .doRead ∨ x.pc = .swallowNextRequest) ↔
    x.srv.sendOffset = reqs.flatten.length

/-- The chain has ended. -/
structure Ended (reqs frames : List Bytes) (more : Bytes) (x : Exchange) : Prop where
  pc : x.pc = .done
  reset : Reset x.srv
  wf : ∀ f ∈ frames, WellFormed 0x81 f
  received : x.received = frames.flatten ++ more
  sent : x.sent <+: reqs.flatten
  /-- without a failure every response has been counted -/
  complete : x.failed = none → frames.length = reqs.length ∧ x.sent = reqs.flatten ∧
    x.srv.recvBuf.Holds (frames.flatten ++ more)
  broken : ∀ j, x.failed = some j → j = frames.length ∧ frames.length < reqs.length ∧
    x.srv.recvBuf.Holds (fullAnswers reqs frames).flatten

section Steps

variable {reqs frames : List Bytes} {more : Bytes} {p p' : Pool} {x x' : Exchange}

/-- Consuming everything gives the block back and rewinds. -/
theorem bufConsume_all {b : Buffer} {bs : Bytes} (h : b.Holds bs) (p : Pool) :
    (bufConsume p b (bufGetUsed b)).2.Holds [] ∧
      (bufConsume p b (bufGetUsed b)).2.allocated = false := by
  have hall : b.Holds (bs ++ []) := by rwa [List.append_nil]
  refine ⟨bufConsume_holds hall h.used, ?_⟩
  rw [bufConsume]
  simp only []
  rw [if_pos]
  · rfl
  · rw [bufGetUsed]
    omega

/-- The loop of `do_error`: requests from the `j`-th on get an answer. -/
theorem errorLoop_holds (j : Nat) : ∀ (reqs : List Bytes) (e : ErrorLoop) (i : Nat) (out : Bytes),
    e.requestNo = i → e.recvBuf.Holds out →
    ∃ e', foldFrames (fun e req => (errorStep j e req).map .yield) e reqs = some e' ∧
      e'.recvBuf.Holds
        (out ++ ((reqs.drop (j - i)).map fun req => (brokenAnswer req).frame).flatten) := by
  intro reqs
  induction reqs with
  | nil =>
      intro e i out _ hout
      refine ⟨e, rfl, ?_⟩
      rwa [List.drop_nil, List.map_nil, List.flatten_nil, List.append_nil]
  | cons req rest ih =>
      intro e i out hi hout
      by_cases hge : (j : Int) ≤ i
      · -- no response came for this request
        have hroom := bufGetWriter_room e.pool e.recvBuf maxRequestSize
        have hans : errorFromReqbuf req (bufGetWriter e.pool e.recvBuf maxRequestSize).2.2
            memcacheStatusConnectionBroken
            (if memcacheCmdNoop = mcGetOpcode req then some [] else none)
            = some (brokenAnswer req).frame := by
          refine errorFromReqbuf_eq req (by decide) ?_ ?_ ?_
          · split
            · rfl
            · rfl
          · split
            · decide
            · decide
          · have hmax := maxRequestSize_eq
            rw [memcacheHeaderSize_eq]
            omega
        have hstep : errorStep j e req = some
            ⟨(bufGetWriter e.pool e.recvBuf maxRequestSize).1,
              bufProduce (bufGetWriter e.pool e.recvBuf maxRequestSize).2.1
                (brokenAnswer req).frame, e.requestNo + 1⟩ := by
          unfold errorStep
          rw [if_pos (by omega)]
          simp only []
          rw [hans]
        obtain ⟨e', he', hholds⟩ := ih
          ⟨(bufGetWriter e.pool e.recvBuf maxRequestSize).1,
            bufProduce (bufGetWriter e.pool e.recvBuf maxRequestSize).2.1
              (brokenAnswer req).frame, e.requestNo + 1⟩ (i + 1) (out ++ (brokenAnswer req).frame)
          (by show e.requestNo + 1 = _; omega)
          (bufProduce_holds (bufGetWriter_holds hout _ _) _)
        refine ⟨e', ?_, ?_⟩
        · rw [foldFrames, hstep]
          exact he'
        · have h0 : j - i = 0 := by omega
          have h1 : j - (i + 1) = 0 := by omega
          rw [h1, List.drop_zero] at hholds
          rw [h0, List.drop_zero, List.map_cons, List.flatten_cons, ← List.append_assoc]
          exact hholds
      · have hstep : errorStep j e req = some { e with requestNo := e.requestNo + 1 } := by
          unfold errorStep
          rw [if_neg (by omega)]
        obtain ⟨e', he', hholds⟩ := ih { e with requestNo := e.requestNo + 1 } (i + 1) out
          (by show e.requestNo + 1 = _; omega) hout
        refine ⟨e', ?_, ?_⟩
        · rw [foldFrames, hstep]
          exact he'
        · have hdrop : j - i = (j - (i + 1)) + 1 := by omega
          rw [hdrop, List.drop_succ_cons]
          exact hholds

/-- Wherever the connection fails, `do_error` completes the set. -/
theorem InFlight.doError (hwf : ∀ f ∈ reqs, WellFormed 0x80 f) (h : InFlight reqs frames more x)
    (p : Pool) : ∃ p' x', doError p x = some (p', x') ∧ Ended reqs frames more x' := by
  obtain ⟨recvBuf, hrecvBuf⟩ : ∃ b, (if bufGetUsed x.srv.recvBuf > x.srv.recvOffset then
      bufRollbackProduced x.srv.recvBuf (bufGetUsed x.srv.recvBuf - x.srv.recvOffset)
      else x.srv.recvBuf) = b := ⟨_, rfl⟩
  have hroll : recvBuf.Holds frames.flatten := by
    rw [← hrecvBuf]
    have hused := h.recv.used
    rw [List.length_append] at hused
    have hoff := h.recvOffset
    split
    · exact bufRollbackProduced_holds h.recv (by omega)
    · have hnil : more = [] := List.eq_nil_of_length_eq_zero (by omega)
      have hrecv := h.recv
      rwa [hnil, List.append_nil] at hrecv
  obtain ⟨e, he, hholds⟩ := errorLoop_holds frames.length reqs
    ⟨p, recvBuf, 0⟩ 0 frames.flatten rfl hroll
  have hloop := forRequests_flatten (σ := ErrorLoop) hwf ⟨p, recvBuf, 0⟩
    fun e req => (errorStep frames.length e req).map .yield
  rw [he] at hloop
  have hflat : frames.flatten ++ ((reqs.drop (frames.length - 0)).map
      fun req => (brokenAnswer req).frame).flatten = (fullAnswers reqs frames).flatten := by
    rw [fullAnswers, List.flatten_append, Nat.sub_zero]
  rw [hflat] at hholds
  have heq : Ref.doError p x = some (doDone e.pool { x with
      srv := { x.srv with recvBuf := e.recvBuf }
      failed := some x.srv.responses }) := by
    unfold Ref.doError
    simp only []
    rw [hrecvBuf, h.send.reader, h.responses, hloop]
  refine ⟨_, _, heq, ?_⟩
  obtain ⟨n, -, -, hsent⟩ := h.sendOffset
  refine ⟨rfl, ⟨bufConsume_all h.send _, rfl, rfl, rfl, rfl⟩, h.wf, h.received, ?_, nofun, ?_⟩
  · show x.sent <+: _
    rw [hsent]
    exact List.take_prefix _ _
  · intro j hj
    have hj : some x.srv.responses = some j := hj
    cases hj
    exact ⟨h.responses, h.few, hholds⟩

/-- The descriptor and the back-off do not matter. -/
theorem InFlight.doConnectionError (hwf : ∀ f ∈ reqs, WellFormed 0x80 f)
    (h : InFlight reqs frames more x) (p : Pool) :
    ∃ p' x', doConnectionError p x = some (p', x') ∧ Ended reqs frames more x' := by
  refine InFlight.doError hwf ?_ p
  exact ⟨h.pc, h.send, h.requests, h.wf, h.responses, h.few, h.recvOffset, h.recv, h.received,
    h.sendOffset, h.failed, h.reading⟩

/-- Where a step leads: on, or to the end. -/
def After (reqs : List Bytes) (x : Exchange) : Prop :=
  ∃ frames more, InFlight reqs frames more x ∨ Ended reqs frames more x

theorem InFlight.after_doError (hwf : ∀ f ∈ reqs, WellFormed 0x80 f)
    (h : InFlight reqs frames more x) (hs : Ref.doError p x = some (p', x')) : After reqs x' := by
  obtain ⟨_, _, heq, hend⟩ := h.doError hwf p
  rw [heq] at hs
  cases hs
  exact ⟨frames, more, .inr hend⟩

theorem InFlight.after_doConnectionError (hwf : ∀ f ∈ reqs, WellFormed 0x80 f)
    (h : InFlight reqs frames more x) (hs : Ref.doConnectionError p x = some (p', x')) :
    After reqs x' := by
  obtain ⟨_, _, heq, hend⟩ := h.doConnectionError hwf p
  rw [heq] at hs
  cases hs
  exact ⟨frames, more, .inr hend⟩

theorem InFlight.step_start (hwf : ∀ f ∈ reqs, WellFormed 0x80 f)
    (h : InFlight reqs frames more x) (hpc : x.pc = .doStart) {now : Int} {connect : Option Nat}
    (hs : doStart p x now connect = some (p', x')) : After reqs x' := by
  have hnot : x.srv.sendOffset ≠ reqs.flatten.length := by
    intro heq
    rcases h.reading.mpr heq with hbad | hbad
    · rw [hpc] at hbad; cases hbad
    · rw [hpc] at hbad; cases hbad
  unfold doStart at hs
  split at hs
  · split at hs
    · exact h.after_doError hwf hs
    · split at hs
      · exact h.after_doConnectionError hwf hs
      · cases hs
        exact ⟨frames, more, .inl ⟨nofun, h.send, h.requests, h.wf, h.responses, h.few,
          h.recvOffset, h.recv, h.received, h.sendOffset, h.failed,
          ⟨by simp, fun heq => absurd heq hnot⟩⟩⟩
  · cases hs
    exact ⟨frames, more, .inl ⟨nofun, h.send, h.requests, h.wf, h.responses, h.few,
      h.recvOffset, h.recv, h.received, h.sendOffset, h.failed,
      ⟨by simp, fun heq => absurd heq hnot⟩⟩⟩

theorem InFlight.step_connected (hwf : ∀ f ∈ reqs, WellFormed 0x80 f)
    (h : InFlight reqs frames more x) (hpc : x.pc = .doConnected) {ok : Bool}
    (hs : doConnected p x ok = some (p', x')) : After reqs x' := by
  have hnot : x.srv.sendOffset ≠ reqs.flatten.length := by
    intro heq
    rcases h.reading.mpr heq with hbad | hbad
    · rw [hpc] at hbad; cases hbad
    · rw [hpc] at hbad; cases hbad
  unfold doConnected at hs
  split at hs
  · cases hs
    exact ⟨frames, more, .inl ⟨nofun, h.send, h.requests, h.wf, h.responses, h.few,
      h.recvOffset, h.recv, h.received, h.sendOffset, h.failed,
      ⟨by simp, fun heq => absurd heq hnot⟩⟩⟩
  · exact h.after_doConnectionError hwf hs

/-- The bytes `send` takes are the next ones. -/
theorem InFlight.written (h : InFlight reqs frames more x) {n k : Nat}
    (hn : x.srv.sendOffset = n) (hk : n + k ≤ reqs.flatten.length)
    (hsent : x.sent = reqs.flatten.take n) :
    InFlight reqs frames more
      (doWritten x ((reqs.flatten.drop n).take k) reqs.flatten.length) := by
  have hlen : ((reqs.flatten.drop n).take k).length = k := by
    rw [List.length_take, List.length_drop]
    omega
  have hoff : (doWritten x ((reqs.flatten.drop n).take k) reqs.flatten.length).srv.sendOffset
      = (n + k : Nat) := by
    show x.srv.sendOffset + (((reqs.flatten.drop n).take k).length : Nat) = _
    omega
  have hpc : (doWritten x ((reqs.flatten.drop n).take k) reqs.flatten.length).pc
      = if ((n + k : Nat) : Int) ≠ reqs.flatten.length then .doWrite else .doRead := by
    rw [← hoff]
    rfl
  refine ⟨?_, h.send, h.requests, h.wf, h.responses, h.few, h.recvOffset, h.recv, h.received,
    ⟨n + k, hoff, hk, ?_⟩, h.failed, ?_⟩
  · rw [hpc]
    split
    · exact nofun
    · exact nofun
  · show x.sent ++ (reqs.flatten.drop n).take k = _
    rw [hsent, List.take_add]
  · rw [hpc, hoff]
    split
    · next hne =>
        refine ⟨?_, fun heq => absurd heq hne⟩
        rintro (hbad | hbad)
        · cases hbad
        · cases hbad
    · next heq => exact ⟨fun _ => not_not.mp heq, fun _ => .inl rfl⟩

theorem InFlight.step_write (hwf : ∀ f ∈ reqs, WellFormed 0x80 f)
    (h : InFlight reqs frames more x) {r : SendResult}
    (hs : doWrite p x r = some (p', x')) : After reqs x' := by
  obtain ⟨n, hn, hle, hsent⟩ := h.sendOffset
  have hread := h.send.reader
  unfold doWrite at hs
  simp only [hread, hn, Int.toNat_natCast] at hs
  cases r with
  | sent k =>
      simp only [] at hs
      split at hs
      · next hk =>
          cases hs
          rw [List.length_drop] at hk
          exact ⟨frames, more, .inl (h.written hn (by omega) hsent)⟩
      · cases hs
  | again =>
      cases hs
      have hw := h.written (k := 0) hn (by omega) hsent
      rw [List.take_zero] at hw
      exact ⟨frames, more, .inl hw⟩
  | error => exact h.after_doConnectionError hwf hs

theorem InFlight.step_read (hwf : ∀ f ∈ reqs, WellFormed 0x80 f)
    (h : InFlight reqs frames more x) (hpc : x.pc = .doRead) {r : ClientRecv}
    (hs : doRead p x r = some (p', x')) : After reqs x' := by
  have hall := h.reading.mp (.inl hpc)
  have hroom := bufGetWriter_holds h.recv p 65536
  unfold doRead at hs
  simp only [] at hs
  cases r with
  | got bs =>
      simp only [] at hs
      split at hs
      · cases hs
        have hprod := bufProduce_holds hroom bs
        rw [List.append_assoc] at hprod
        refine ⟨frames, more ++ bs, .inl ⟨?_, h.send, h.requests, h.wf, h.responses, h.few,
          h.recvOffset, hprod, ?_, h.sendOffset, h.failed, ?_⟩⟩
        · simp only [ne_eq]
          split
          · exact nofun
          · exact nofun
        · show x.received ++ bs = _
          rw [h.received, List.append_assoc]
        · simp only [hall, iff_true]
          split
          · exact .inl rfl
          · exact .inr rfl
      · cases hs
  | again =>
      cases hs
      have hprod := bufProduce_holds hroom []
      rw [List.append_nil] at hprod
      refine ⟨frames, more, .inl ⟨?_, h.send, h.requests, h.wf, h.responses, h.few,
        h.recvOffset, hprod, h.received, h.sendOffset, h.failed, ?_⟩⟩
      · simp only [ne_eq]
        split
        · exact nofun
        · exact nofun
      · simp only [hall, iff_true]
        split
        · exact .inl rfl
        · exact .inr rfl
  | closed =>
      have hroomy : InFlight reqs frames more { x with
          srv := { x.srv with recvBuf := (bufGetWriter p x.srv.recvBuf 65536).2.1 } } :=
        ⟨h.pc, h.send, h.requests, h.wf, h.responses, h.few, h.recvOffset, hroom, h.received,
          h.sendOffset, h.failed, h.reading⟩
      exact hroomy.after_doConnectionError hwf hs

/-- What `do_read` looks at. -/
theorem InFlight.newData (h : InFlight reqs frames more x) :
    (bufGetReader x.srv.recvBuf).drop x.srv.recvOffset.toNat = more := by
  rw [h.recv.reader, h.recvOffset, Int.toNat_natCast, List.drop_left]

theorem InFlight.step_swallow (hwf : ∀ f ∈ reqs, WellFormed 0x80 f)
    (h : InFlight reqs frames more x) (hpc : x.pc = .swallowNextRequest)
    (hs : doSwallow p x = some (p', x')) : After reqs x' := by
  have hall := h.reading.mp (.inr hpc)
  unfold doSwallow at hs
  simp only [h.newData] at hs
  split at hs
  · exact h.after_doConnectionError hwf hs
  · next hok =>
      split at hs
      · cases hs
        exact ⟨frames, more, .inl ⟨nofun, h.send, h.requests, h.wf, h.responses, h.few,
          h.recvOffset, h.recv, h.received, h.sendOffset, h.failed, by simp [hall]⟩⟩
      · next hmore =>
          obtain ⟨hpos, hle, hframe⟩ := reqbufGetSaneRequestSz_take hok hmore
          obtain ⟨n, hn⟩ : ∃ n : Nat, reqbufGetSaneRequestSz more 0x81 = n :=
            ⟨_, (Int.toNat_of_nonneg (by omega)).symm⟩
          rw [hn, Int.toNat_natCast] at hframe
          rw [hn] at hle
          have hwf' : ∀ f ∈ frames ++ [more.take n], WellFormed 0x81 f := by
            intro f hf
            rcases List.mem_append.mp hf with hf | hf
            · exact h.wf f hf
            · rw [List.mem_singleton.mp hf]; exact hframe
          have hflat : (frames ++ [more.take n]).flatten ++ more.drop n
              = frames.flatten ++ more := by
            rw [List.flatten_append, List.flatten_singleton, List.append_assoc,
              List.take_append_drop]
          have hlen : (frames ++ [more.take n]).length = frames.length + 1 := by simp
          have hoff : x.srv.recvOffset + reqbufGetSaneRequestSz more 0x81
              = (frames ++ [more.take n]).flatten.length := by
            rw [h.recvOffset, hn, List.flatten_append, List.flatten_singleton,
              List.length_append, List.length_take]
            omega
          have hresp : x.srv.responses + 1 = (frames ++ [more.take n]).length := by
            rw [h.responses, hlen]
            omega
          have hrecv := h.recv
          rw [← hflat] at hrecv
          split at hs
          · next hdone =>
              cases hs
              have hcount : (frames ++ [more.take n]).length = reqs.length := by
                have h1 := h.requests
                omega
              obtain ⟨m, hm, -, hsent⟩ := h.sendOffset
              have hsent : x.sent = reqs.flatten := by
                rw [hsent, List.take_of_length_le (by omega)]
              refine ⟨_, more.drop n, .inr ⟨rfl, ⟨bufConsume_all h.send _, rfl, rfl, rfl, rfl⟩,
                hwf', ?_, ?_, ?_, ?_⟩⟩
              · show x.received = _
                rw [h.received, hflat]
              · show x.sent <+: _
                simp only [hsent, List.prefix_rfl]
              · exact fun _ => ⟨hcount, hsent, hrecv⟩
              · intro j hj
                have hj : x.failed = some j := hj
                rw [h.failed] at hj
                cases hj
          · next hmissing =>
              cases hs
              refine ⟨frames ++ [more.take n], more.drop n, .inl ⟨?_, h.send, h.requests, hwf',
                hresp, ?_, hoff, hrecv, ?_, h.sendOffset, h.failed, h.reading⟩⟩
              · exact h.pc
              · have h1 := h.requests
                have h2 := h.few
                have hmissing : ¬ x.srv.responses + 1 = x.srv.requests := hmissing
                omega
              · show x.received = _
                rw [h.received, hflat]

/-- One step of the chain. -/
theorem InFlight.step (hwf : ∀ f ∈ reqs, WellFormed 0x80 f)
    (h : InFlight reqs frames more x) (hs : ClientStep x x') : After reqs x' := by
  obtain ⟨p, a, p', hs⟩ := hs
  rcases clientStep_cases hs with ⟨now, connect, hpc, hs⟩ | ⟨ok, hpc, hs⟩ | ⟨r, -, hs⟩ |
    ⟨r, hpc, hs⟩ | ⟨hpc, hs⟩
  · exact h.step_start hwf hpc hs
  · exact h.step_connected hwf hpc hs
  · exact h.step_write hwf hs
  · exact h.step_read hwf hpc hs
  · exact h.step_swallow hwf hpc hs

end Steps

theorem Prepared.inFlight {reqs : List Bytes} {srv : Backend} (h : Prepared reqs srv) :
    InFlight reqs [] [] { srv := srv } := by
  obtain ⟨front, hlast⟩ := h.last
  have hlen : 0 < reqs.flatten.length := by
    rw [hlast, List.flatten_append, List.length_append]
    have hnoop : ([noop] : List Bytes).flatten.length = 24 := rfl
    omega
  have hcount : 0 < reqs.length := by
    rw [hlast, List.length_append, List.length_singleton]
    omega
  refine ⟨nofun, h.send, h.requests, nofun, h.responses, hcount, h.recvOffset, h.recv, rfl,
    ⟨0, h.sendOffset, Nat.zero_le _, by rw [List.take_zero]⟩, rfl, ?_⟩
  have hoff := h.sendOffset
  refine ⟨?_, fun heq => ?_⟩
  · rintro (hbad | hbad)
    · cases hbad
    · cases hbad
  · have heq : srv.sendOffset = reqs.flatten.length := heq
    omega

/-- What holds all along a chain. -/
theorem Prepared.after {reqs : List Bytes} {srv : Backend} (h : Prepared reqs srv)
    {x : Exchange} (hrun : ReflTransGen ClientStep { srv := srv } x) : After reqs x := by
  refine run_invariant (P := After reqs) ?_ ⟨[], [], .inl h.inFlight⟩ hrun
  rintro x x' ⟨frames, more, hflight | hend⟩ hstep
  · exact hflight.step h.wf hstep
  · obtain ⟨p, a, p', hs⟩ := hstep
    unfold clientStep at hs
    rw [hend.pc] at hs
    cases a <;> cases hs

theorem InFlight.progress {reqs frames : List Bytes} {more : Bytes} {x : Exchange}
    (hwf : ∀ f ∈ reqs, WellFormed 0x80 f) (h : InFlight reqs frames more x) :
    ∃ x', ClientStep x x' := by
  obtain ⟨p', x', hbroken, -⟩ := h.doConnectionError hwf []
  obtain ⟨q', y', herror, -⟩ := h.doError hwf []
  cases hpc : x.pc with
  | doStart =>
      by_cases hsd : x.srv.sd < 0
      · by_cases hretry : x.srv.nextRetry < 1
        · refine ⟨x', [], .start 1 none, p', ?_⟩
          unfold clientStep
          rw [hpc]
          simp only [doStart]
          rw [if_pos hsd, if_neg (not_not.mpr hretry)]
          exact hbroken
        · refine ⟨y', [], .start 1 none, q', ?_⟩
          unfold clientStep
          rw [hpc]
          simp only [doStart]
          rw [if_pos hsd, if_pos hretry]
          exact herror
      · refine ⟨{ x with pc := .doWrite }, [], .start 1 none, [], ?_⟩
        unfold clientStep
        rw [hpc]
        simp only [doStart]
        rw [if_neg hsd]
  | doConnected =>
      refine ⟨x', [], .connected false, p', ?_⟩
      unfold clientStep
      rw [hpc]
      exact hbroken
  | doWrite =>
      refine ⟨x', [], .send .error, p', ?_⟩
      unfold clientStep
      rw [hpc]
      exact hbroken
  | doRead =>
      obtain ⟨r, hr⟩ : ∃ r, doRead [] x .again = some r := ⟨_, rfl⟩
      refine ⟨r.2, [], .recv .again, r.1, ?_⟩
      unfold clientStep
      rw [hpc]
      exact hr
  | swallowNextRequest =>
      have hstep : ∀ p, clientStep p x .run = doSwallow p x := by
        intro p
        unfold clientStep
        rw [hpc]
      cases hs : doSwallow [] x with
      | some r => exact ⟨r.2, [], .run, r.1, (hstep []).trans hs⟩
      | none =>
          -- only a failure inside `do_error` could leave it without a successor
          unfold doSwallow at hs
          simp only [] at hs
          split at hs
          · rw [hbroken] at hs; cases hs
          · split at hs
            · cases hs
            · split at hs <;> cases hs
  | done => exact absurd hpc h.pc

/-- The server's bytes do not go on behind its `k`-th response. -/
def StaysWithin (k : Nat) (received : Bytes) : Prop :=
  ∀ (frames : List Bytes) (rest : Bytes), frames.length = k → (∀ f ∈ frames, WellFormed 0x81 f) →
    received = frames.flatten ++ rest → rest = []

theorem fullAnswers_wellFormed {reqs frames : List Bytes}
    (hwf : ∀ f ∈ frames, WellFormed 0x81 f) : ∀ f ∈ fullAnswers reqs frames, WellFormed 0x81 f := by
  intro f hf
  rcases List.mem_append.mp hf with hf | hf
  · exact hwf f hf
  · obtain ⟨req, -, rfl⟩ := List.mem_map.mp hf
    exact brokenAnswer_wellFormed req

theorem fullAnswers_all {reqs frames : List Bytes} (h : frames.length = reqs.length) :
    fullAnswers reqs frames = frames := by
  rw [fullAnswers, h, List.drop_length, List.map_nil, List.append_nil]

theorem length_fullAnswers {reqs frames : List Bytes} (h : frames.length ≤ reqs.length) :
    (fullAnswers reqs frames).length = reqs.length := by
  rw [fullAnswers, List.length_append, List.length_map, List.length_drop]
  omega

/-- A made-up answer to the NOOP is a header only. -/
theorem fullAnswers_getLast {reqs frames front : List Bytes} (hlast : reqs = front ++ [noop])
    (h : frames.length < reqs.length) :
    (fullAnswers reqs frames).getLast? = some (brokenAnswer noop).frame := by
  have hle : frames.length ≤ front.length := by
    rw [hlast, List.length_append, List.length_singleton] at h
    omega
  rw [fullAnswers, hlast, List.drop_append_of_le_length hle, List.map_append, ← List.append_assoc,
    List.map_singleton, List.getLast?_concat]

/-- An exchange that ends leaves one response for every request, and a chain
that has not ended can go on. -/
theorem exchange_answers {reqs : List Bytes} {srv : Backend} (h : Prepared reqs srv)
    {x : Exchange} (hrun : ReflTransGen ClientStep { srv := srv } x) :
    (x.pc = .done → StaysWithin reqs.length x.received →
      ∃ frames : List Bytes,
        (∀ f ∈ frames, WellFormed 0x81 f) ∧ frames.flatten <+: x.received ∧
        (x.failed = none → frames.length = reqs.length ∧ x.received = frames.flatten) ∧
        (∀ j, x.failed = some j → j = frames.length ∧ frames.length < reqs.length) ∧
        x.srv.recvBuf.Holds (fullAnswers reqs frames).flatten ∧
        (fullAnswers reqs frames).length = reqs.length ∧
        (∀ f ∈ fullAnswers reqs frames, WellFormed 0x81 f) ∧
        (frames.length < reqs.length →
          (fullAnswers reqs frames).getLast? = some (brokenAnswer noop).frame ∧
          (brokenAnswer noop).frame.length = memcacheHeaderSize) ∧
        Reset x.srv ∧
        x.sent <+: reqs.flatten ∧ (x.failed = none → x.sent = reqs.flatten)) ∧
    (x.pc ≠ .done → ∃ x', ClientStep x x') := by
  obtain ⟨frames, more, hflight | hend⟩ := h.after hrun
  · exact ⟨fun hpc => absurd hpc hflight.pc, fun _ => hflight.progress h.wf⟩
  · refine ⟨fun _ hwithin => ?_, fun hpc => absurd hend.pc hpc⟩
    obtain ⟨front, hlast⟩ := h.last
    refine ⟨frames, hend.wf, ⟨more, hend.received.symm⟩, ?_, ?_, ?_, ?_,
      fullAnswers_wellFormed hend.wf, ?_, hend.reset, hend.sent,
      fun hok => (hend.complete hok).2.1⟩
    · intro hok
      obtain ⟨hcount, -, -⟩ := hend.complete hok
      have hnil := hwithin frames more hcount hend.wf hend.received
      have hreceived := hend.received
      rw [hnil, List.append_nil] at hreceived
      exact ⟨hcount, hreceived⟩
    · intro j hj
      obtain ⟨h1, h2, -⟩ := hend.broken j hj
      exact ⟨h1, h2⟩
    · cases hfail : x.failed with
      | none =>
          obtain ⟨hcount, -, hholds⟩ := hend.complete hfail
          rw [hwithin frames more hcount hend.wf hend.received, List.append_nil] at hholds
          rw [fullAnswers_all hcount]
          exact hholds
      | some j => exact (hend.broken j hfail).2.2
    · cases hfail : x.failed with
      | none => exact length_fullAnswers (hend.complete hfail).1.le
      | some j => exact length_fullAnswers (hend.broken j hfail).2.1.le
    · exact fun hfew => ⟨fullAnswers_getLast hlast hfew, length_brokenAnswer_noop⟩

theorem staysWithin_of_short {k : Nat} {received : Bytes}
    (h : received.length < k * memcacheHeaderSize) : StaysWithin k received := by
  intro frames rest hk hwf hreceived
  have hlong : ∀ fs : List Bytes, (∀ f ∈ fs, WellFormed 0x81 f) →
      fs.length * memcacheHeaderSize ≤ fs.flatten.length := by
    intro fs
    induction fs with
    | nil => exact fun _ => Nat.le_refl _
    | cons f fs ih =>
        intro hfs
        have h1 := (hfs f List.mem_cons_self).facts.header
        have h2 := ih fun g hg => hfs g (List.mem_cons_of_mem _ hg)
        rw [List.length_cons, List.flatten_cons, List.length_append, Nat.succ_mul]
        omega
  have h1 := hlong frames hwf
  rw [hk] at h1
  rw [hreceived, List.length_append] at h
  omega

/-- A list of actions, one after the other. -/
def clientRun (p : Pool) (x : Exchange) : List ClientAction → Option (Pool × Exchange)
  | [] => some (p, x)
  | a :: rest =>
      match clientStep p x a with
      | none => none
      | some (p, x) => clientRun p x rest

theorem clientRun_steps : ∀ (as : List ClientAction) {p p' : Pool} {x x' : Exchange},
    clientRun p x as = some (p', x') → ReflTransGen ClientStep x x' := by
  intro as
  induction as with
  | nil => intro p p' x x' h; cases h; exact .refl
  | cons a rest ih =>
      intro p p' x x' h
      rw [clientRun] at h
      split at h
      · cases h
      · next p1 x1 hs => exact ReflTransGen.head ⟨p, a, p1, hs⟩ (ih h)

/-- A GET and the NOOP, ready to be sent. -/
def getAndNoop : Backend :=
  { requests := 2
    sendBuf := bufProduce (bufGetWriter [] {} 0).2.1 (getRequest "a" ++ noop) }

theorem prepared_getAndNoop : Prepared [getRequest "a", noop] getAndNoop :=
  ⟨by decide, ⟨[getRequest "a"], rfl⟩,
    bufProduce_holds (bufGetWriter_holds Buffer.holds_empty [] 0) _, Buffer.holds_empty, rfl, rfl,
    rfl, rfl⟩

/-- The server answers the GET, and then the connection is closed in the middle
of the next response. -/
def closedEarly : List ClientAction :=
  [.start 1 (some 3), .connected true, .send (.sent 20), .send .again, .send (.sent 29),
   .recv (.got ((brokenAnswer noop).frame ++ [0x81, 0x0A])), .run, .run, .recv .closed]

theorem exchange_answers_closedEarly :
    Prepared [getRequest "a", noop] getAndNoop ∧
    ∃ x frames, ReflTransGen ClientStep { srv := getAndNoop } x ∧ x.pc = .done ∧
      x.failed = some 1 ∧ StaysWithin 2 x.received ∧ frames.length = 1 ∧
      x.srv.recvBuf.Holds (fullAnswers [getRequest "a", noop] frames).flatten := by
  refine ⟨prepared_getAndNoop, ?_⟩
  cases hrun : clientRun [] { srv := getAndNoop } closedEarly with
  | none => exact absurd hrun (by decide)
  | some r =>
      have hsteps := clientRun_steps closedEarly hrun
      have hdone : (clientRun [] { srv := getAndNoop } closedEarly).map (fun r => r.2.pc)
          = some .done := by decide
      have hfail : (clientRun [] { srv := getAndNoop } closedEarly).map (fun r => r.2.failed)
          = some (some 1) := by decide
      have hlen : (clientRun [] { srv := getAndNoop } closedEarly).map
          (fun r => r.2.received.length) = some 26 := by decide
      rw [hrun] at hdone hfail hlen
      have hdone := Option.some.inj hdone
      have hfail := Option.some.inj hfail
      have hlen : r.2.received.length = 26 := Option.some.inj hlen
      have hwithin : StaysWithin 2 r.2.received := by
        refine staysWithin_of_short ?_
        rw [hlen]
        decide
      obtain ⟨frames, -, -, -, hbroken, hholds, -⟩ :=
        (exchange_answers prepared_getAndNoop hsteps).1 hdone hwithin
      obtain ⟨hone, -⟩ := hbroken 1 hfail
      exact ⟨r.2, frames, hsteps, hdone, hfail, hwithin, by omega, hholds⟩

end Smalltable.Proofs
