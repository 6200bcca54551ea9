import Smalltable.Proofs.Framing
import Smalltable.Proofs.SimpleBuffer
import Smalltable.Ref.NetworkConnecton

/-!
# Replies are put together whatever the socket does

What the socket has taken, what is in `send_buffer`, what is still in the group and what
`send_iter` has still to give are the requests, in this order. What has come is the replies
that have been yielded and what is in `recv_buffer`, less than one frame while the client
waits. These hold in every state of the conversation (`Talking`); it is over with the last
reply. Nothing makes the client wait for its requests to be sent then: the replies have to
come after them.
-/

namespace Smalltable.Proofs

open Smalltable.Ref SimpleClient

/-- A header and as many bytes as it says. -/
def ReplyFrame (f : Bytes) : Prop := f.length = mcGetBodyLength f + 24

instance (f : Bytes) : Decidable (ReplyFrame f) := inferInstanceAs (Decidable (_ = _))

/-- What is yielded for a frame. -/
def replyTo (f : Bytes) : Option Reply := (unpack f).map Unpacked.reply

theorem structUnpack_total : ∀ (widths : List Nat) {buf : Bytes}, widths.sum ≤ buf.length →
    ∃ ns, structUnpack widths buf = some ns ∧ ns.length = widths.length := by
  intro widths
  induction widths with
  | nil => intro buf _; exact ⟨[], rfl, rfl⟩
  | cons width rest ih =>
      intro buf h
      rw [List.sum_cons] at h
      have hdrop : rest.sum ≤ (buf.drop width).length := by rw [List.length_drop]; omega
      obtain ⟨ns, hns, hlen⟩ := ih hdrop
      refine ⟨beVal (buf.take width) :: ns, ?_, congrArg (· + 1) hlen⟩
      rw [structUnpack, if_neg (by omega), hns]
      rfl

/-- Any 24 bytes are a header. -/
theorem unpack_total {buf : Bytes} (h : 24 ≤ buf.length) : ∃ u, unpack buf = some u := by
  obtain ⟨ns, hns, hlen⟩ := structUnpack_total headerFormat h
  match ns, hlen with
  | [_, _, _, _, _, _, _, _, _], _ =>
      rw [unpack, hns]
      exact ⟨_, rfl⟩

/-- The length in a header of which twelve bytes are there. -/
theorem structUnpack_bodyLength {q : Bytes} (h : 12 ≤ q.length) :
    structUnpack [4] ((q.take 12).drop 8) = some [mcGetBodyLength q] := by
  have hlen : ((q.take 12).drop 8).length = 4 := by
    rw [List.length_drop, List.length_take]
    omega
  rw [structUnpack, if_neg (by omega), structUnpack, mcGetBodyLength, slice, List.drop_take,
    List.take_of_length_le (by rw [List.length_take]; omega)]
  rfl

/-! ## The inner loop

A round takes one reply when all of it is there. Before that it looks at the length in
the header, and does so again when more has come. -/

section Parse

variable {s : Conversation} {q f : Bytes}

theorem ReplyFrame.header (hf : ReplyFrame f) : 24 ≤ f.length := by
  rw [ReplyFrame] at hf
  omega

theorem parseReply_received (s : Conversation) : (parseReply s).received = s.received := by
  have htake : ∀ s : Conversation, (takeReply s).received = s.received := by
    intro s
    rw [takeReply]
    split
    · rfl
    · split <;> rfl
  rw [parseReply]
  dsimp only
  split
  · split
    · split
      · exact htake _
      · rfl
    · rfl
  · rfl

theorem parseReply_short (hq : Queues s.recvBuffer q) (hlt : q.length < s.resLen) :
    parseReply s = { s with pc := .head } := by
  have hsize := hq.size
  have hlt : ¬ s.recvBuffer.len ≥ s.resLen := by
    rw [SimpleBuffer.len]
    omega
  rw [parseReply, if_neg hlt]

/-- Once there is a header, the length of the frame is known. -/
theorem parseReply_header (hq : Queues s.recvBuffer q) (h24 : 24 ≤ q.length)
    (hres : s.resLen ≤ q.length) (hf : mcGetBodyLength q + 24 = f.length) :
    ∃ b, Queues b q ∧ parseReply s =
      if q.length ≥ f.length then takeReply { s with recvBuffer := b, resLen := f.length }
      else { s with recvBuffer := b, resLen := f.length, pc := .head } := by
  obtain ⟨hread, hq'⟩ := hq.read (some 12)
  have hsize := hq.size
  have hge : s.recvBuffer.len ≥ s.resLen := by
    rw [SimpleBuffer.len]
    omega
  have hread : (s.recvBuffer.read (some (8 + 4))).1 = q.take 12 := hread
  have hlen : s.recvBuffer.len ≥ (f.length : Int) ↔ q.length ≥ f.length := by
    rw [SimpleBuffer.len]
    omega
  refine ⟨_, hq', ?_⟩
  rw [parseReply, if_pos hge]
  simp only [hread, structUnpack_bodyLength (show 12 ≤ q.length by omega), hf, hlen]

/-- The frame has not come whole. -/
theorem parseReply_waits (hq : Queues s.recvBuffer q) (hf : ReplyFrame f) (hpre : q <+: f)
    (hlt : q.length < f.length) (hres : s.resLen = 24 ∨ s.resLen = f.length) :
    ∃ b n, parseReply s = { s with recvBuffer := b, resLen := n, pc := .head } ∧ Queues b q ∧
      (n = 24 ∨ n = f.length) := by
  by_cases hshort : q.length < s.resLen
  · exact ⟨s.recvBuffer, s.resLen, parseReply_short hq hshort, hq, hres⟩
  · have h24 : 24 ≤ q.length := by omega
    obtain ⟨t, rfl⟩ := hpre
    have hbody : mcGetBodyLength q + 24 = (q ++ t).length := by
      rw [hf, mcGetBodyLength_append t h24]
    obtain ⟨b, hb, hparse⟩ := parseReply_header hq h24 (Nat.le_of_not_lt hshort) hbody
    rw [if_neg (Nat.not_le.mpr hlt)] at hparse
    exact ⟨b, _, hparse, hb, .inr rfl⟩

/-- The frame has come, and is taken off. -/
theorem parseReply_takes (hq : Queues s.recvBuffer (f ++ q)) (hf : ReplyFrame f)
    (hres : s.resLen = 24 ∨ s.resLen = f.length) (hop : s.opaques ≠ []) :
    ∃ b u, parseReply s = { s with
        recvBuffer := b
        opaques := s.opaques.dropLast
        yielded := s.yielded ++ [u.reply]
        resLen := 24 } ∧ Queues b q ∧ unpack f = some u := by
  have h24 := hf.header
  have hlen : (f ++ q).length ≥ f.length := by
    rw [List.length_append]
    omega
  have hbody : mcGetBodyLength (f ++ q) + 24 = f.length := by
    rw [hf, mcGetBodyLength_append q h24]
  obtain ⟨b, hb, hparse⟩ := parseReply_header hq (Nat.le_trans h24 hlen) (by omega) hbody
  obtain ⟨u, hu⟩ := unpack_total h24
  obtain ⟨x, hx⟩ := Option.ne_none_iff_exists'.mp
    (fun hnone => hop (List.getLast?_eq_none_iff.mp hnone))
  have hcall := hb.call (c := .readAndConsume f.length) trivial
  simp only [fifoCall, if_pos hlen, List.take_left', List.drop_left', SimpleBuffer.call] at hcall
  obtain ⟨b', hcall, hb'⟩ := hcall
  obtain ⟨⟨frame, b''⟩, hread, heq⟩ := Option.map_eq_some_iff.mp hcall
  cases heq
  rw [if_pos hlen, takeReply] at hparse
  simp only [hread, hu, hx] at hparse
  exact ⟨_, u, hparse, hb', hu⟩

end Parse

/-! ## The conversation

`Delivered` is what the sockets may do. Each step keeps `Talking`, for the same list of
requests and replies divided at another place. -/

/-- What the network does: no errors, and no end of the stream; the replies, cut anywhere,
the last of them not before the requests have been taken. -/
def Delivered (requests frames : List Bytes) (s : Conversation) : ClientEvent → Prop
  | .send r => r ≠ .error
  | .recv rs => .got [] ∉ rs ∧ s.received ++ socketBytes rs <+: frames.flatten ∧
      (frames.flatten.length ≤ (s.received ++ socketBytes rs).length →
        requests.flatten.length ≤ s.sent.length)
  | _ => True

/-- The part of a group that has not been written to `send_buffer`. -/
def pendingGroup (s : Conversation) : Bytes :=
  if s.pc = .collect then s.group.flatten else []

/-- The replies to `past` have been yielded; `sq` and `rq` are in the buffers. -/
structure Talking (requests frames past future : List Bytes) (sq rq : Bytes)
    (s : Conversation) : Prop where
  alive : s.pc ≠ .raised ∧ s.pc ≠ .assertFailed
  parts : frames = past ++ future
  yielded : s.yielded.map some = past.map replyTo
  send : Queues s.sendBuffer sq
  taken : s.sent ++ sq ++ pendingGroup s ++ s.sendIter.flatten = requests.flatten
  recv : Queues s.recvBuffer rq
  received : past.flatten ++ rq = s.received
  stream : rq <+: future.flatten
  opaques : s.opaques.length + s.sendIter.length = future.length
  resLen : s.resLen = 24 ∨ ∃ f rest, future = f :: rest ∧ s.resLen = f.length
  sendIter : s.pc ≠ .collect → s.pc ≠ .sendGroup → s.sendIter = []
  early : s.pc = .collect ∨ s.pc = .sendGroup ∨ s.pc = .sendRest → s.resLen = 24
  waits : s.pc ≠ .parse → ∀ f rest, future = f :: rest → rq.length < f.length
  last : frames.flatten.length ≤ s.received.length → requests.flatten.length ≤ s.sent.length
  ended : s.pc = .returned → future = [] ∧ sq = []

/-- The invariant: the replies are divided somewhere. -/
def Talks (requests frames : List Bytes) (s : Conversation) : Prop :=
  ∃ past future sq rq, Talking requests frames past future sq rq s

theorem recvCount_pos {rs : List SocketRecv} : ∀ {s k : Nat}, .got [] ∉ rs →
    recvCount s rs = some (some k) → s < k := by
  induction rs with
  | nil => intro s k _ h; cases h
  | cons r rest ih =>
      intro s k hne h
      cases r with
      | again =>
          rw [recvCount] at h
          split at h <;> cases h
      | got data =>
          have hdata : data ≠ [] := fun hd => hne (hd ▸ List.mem_cons_self)
          have hpos := List.length_pos_iff.mpr hdata
          rw [recvCount] at h
          split at h
          · have hk := ih (fun hr => hne (List.mem_cons_of_mem _ hr)) h
            omega
          · split at h
            · cases h
              omega
            · cases h

/-- What is sent leaves the buffer. -/
theorem socketSend_cases {s s' : Conversation} {r : SendResult} {pc : RecvPc} {sq : Bytes}
    (h : Queues s.sendBuffer sq) (hr : r ≠ .error) (hs : socketSend s r pc = some s') :
    ∃ b t sq', s' = { s with sendBuffer := b, sent := s.sent ++ t, pc := pc } ∧
      Queues b sq' ∧ t ++ sq' = sq := by
  cases r with
  | sent n =>
      simp only [socketSend, h.sendData] at hs
      split at hs
      · next hn =>
          obtain ⟨b, hb, hq⟩ := h.sendToSocket hn
          rw [hb] at hs
          cases hs
          exact ⟨b, _, _, rfl, hq, List.take_append_drop n sq⟩
      · cases hs
  | again =>
      obtain ⟨b, hb, hq⟩ := h.sendAgain
      rw [socketSend, hb] at hs
      cases hs
      exact ⟨b, [], sq, by rw [List.append_nil], hq, rfl⟩
  | error => exact absurd rfl hr

section Step

variable {requests frames past future : List Bytes} {sq rq : Bytes} {s s' : Conversation}

/-- The client sends, and goes on to `pc`. -/
theorem Talking.sends (h : Talking requests frames past future sq rq s) {r : SendResult}
    {pc : RecvPc} (hr : r ≠ .error) (hpc : s.pc ≠ .collect)
    (hsend : s.pc = .sendGroup ∨ s.pc = .sendRest ∨ ∃ b, s.pc = .sendMore b)
    (hnext : (s.pc = .sendGroup ∧ pc = .collect ∧ s.group = []) ∨
      (s.pc ≠ .sendGroup ∧ (pc = .head ∨ pc = .recv)))
    (hs : socketSend s r pc = some s') : Talks requests frames s' := by
  obtain ⟨b, t, sq', rfl, hq, ht⟩ := socketSend_cases h.send hr hs
  have hgroup : pendingGroup s = [] := by rw [pendingGroup, if_neg hpc]
  have hgroup' : pendingGroup { s with sendBuffer := b, sent := s.sent ++ t, pc := pc } = [] := by
    rw [pendingGroup]
    rcases hnext with ⟨-, rfl, hg⟩ | ⟨-, rfl | rfl⟩
    · rw [hg]; rfl
    · rfl
    · rfl
  have hreq := h.taken
  rw [hgroup] at hreq
  have hparse : s.pc ≠ .parse := by
    rcases hsend with hp | hp | ⟨w, hp⟩ <;> rw [hp] <;> nofun
  refine ⟨past, future, sq', rq, ?_, h.parts, h.yielded, hq, ?_, h.recv, h.received, h.stream,
    h.opaques, h.resLen, fun h1 h2 => ?_, fun hp => ?_, fun _ => h.waits hparse, fun hl => ?_,
    fun hp => ?_⟩
  · rcases hnext with ⟨-, rfl, -⟩ | ⟨-, rfl | rfl⟩ <;> exact ⟨nofun, nofun⟩
  · rw [hgroup', ← hreq, ← ht]
    simp only [List.append_assoc, List.nil_append]
  · rcases hnext with ⟨-, rfl, -⟩ | ⟨hng, -⟩
    · exact absurd rfl h1
    · exact h.sendIter hpc hng
  · rcases hnext with ⟨hg, -⟩ | ⟨-, rfl | rfl⟩
    · exact h.early (.inr (.inl hg))
    · rcases hp with hp | hp | hp <;> cases hp
    · rcases hp with hp | hp | hp <;> cases hp
  · have hlast := h.last hl
    rw [List.length_append]
    omega
  · rcases hnext with ⟨-, rfl, -⟩ | ⟨-, rfl | rfl⟩ <;> cases hp

/-- The loop over `send_iter`. -/
theorem Talking.collect (h : Talking requests frames past future sq rq s) (hpc : s.pc = .collect)
    (hs : recvStep s .run = some s') : Talks requests frames s' := by
  have hres := h.early (.inl hpc)
  have hreq := h.taken
  rw [pendingGroup, if_pos hpc] at hreq
  have hwaits := h.waits (by rw [hpc]; nofun)
  simp only [recvStep, hpc] at hs
  cases hiter : s.sendIter with
  | nil =>
      rw [hiter] at hs hreq
      cases hs
      have hw := h.send.write [some s.group.flatten]
      rw [List.flatMap_cons, List.flatMap_nil, List.append_nil, Option.getD_some] at hw
      refine ⟨past, future, _, rq, ⟨nofun, nofun⟩, h.parts, h.yielded, hw, ?_, h.recv,
        h.received, h.stream, ?_, .inl hres, fun _ _ => rfl, fun _ => hres, fun _ => hwaits,
        h.last, nofun⟩
      · rw [← hreq, pendingGroup, if_neg nofun, List.append_nil, ← List.append_assoc]
      · rw [← h.opaques, hiter]
  | cons data rest =>
      have hlen : (s.opaques ++ [s.opaqueId]).length + rest.length = future.length := by
        rw [← h.opaques, hiter, List.length_append, List.length_cons, List.length_cons,
          List.length_nil]
        omega
      have hflat : (s.group ++ [data]).flatten = s.group.flatten ++ data := by
        rw [List.flatten_append, List.flatten_singleton]
      rw [hiter] at hs
      rw [hiter, List.flatten_cons] at hreq
      simp only at hs
      split at hs
      · -- the group is full
        cases hs
        have hw := h.send.write [some (s.group ++ [data]).flatten]
        rw [List.flatMap_cons, List.flatMap_nil, List.append_nil, Option.getD_some] at hw
        refine ⟨past, future, _, rq, ⟨nofun, nofun⟩, h.parts, h.yielded, hw, ?_, h.recv,
          h.received, h.stream, hlen, .inl hres, fun _ hp => absurd rfl hp, fun _ => hres,
          fun _ => hwaits, h.last, nofun⟩
        rw [← hreq, pendingGroup, if_neg nofun, hflat]
        simp only [List.append_assoc, List.append_nil]
      · cases hs
        refine ⟨past, future, sq, rq, ⟨nofun, nofun⟩, h.parts, h.yielded, h.send, ?_, h.recv,
          h.received, h.stream, hlen, .inl hres, fun hp => absurd rfl hp, fun _ => hres,
          fun _ => hwaits, h.last, nofun⟩
        rw [← hreq, pendingGroup, if_pos rfl, hflat]
        simp only [List.append_assoc]

/-- The control points from the second loop on. -/
def Late (pc : RecvPc) : Prop :=
  pc ≠ .collect ∧ pc ≠ .sendGroup ∧ pc ≠ .sendRest

instance (pc : RecvPc) : Decidable (Late pc) := inferInstanceAs (Decidable (_ ∧ _ ∧ _))

theorem Late.not_early {pc : RecvPc} (h : Late pc) :
    ¬ (pc = .collect ∨ pc = .sendGroup ∨ pc = .sendRest) :=
  fun hp => hp.elim h.1 fun hp => hp.elim h.2.1 h.2.2

/-- Then everything to be sent is in `send_buffer`. -/
theorem Talking.late (h : Talking requests frames past future sq rq s) (hlate : Late s.pc) :
    s.sendIter = [] ∧ s.sent ++ sq = requests.flatten ∧ s.opaques.length = future.length := by
  have hiter := h.sendIter hlate.1 hlate.2.1
  have hreq := h.taken
  have hlen := h.opaques
  rw [pendingGroup, if_neg hlate.1, hiter, List.flatten_nil, List.append_nil,
    List.append_nil] at hreq
  rw [hiter, List.length_nil, Nat.add_zero] at hlen
  exact ⟨hiter, hreq, hlen⟩

/-- Only the control point moves. -/
theorem Talking.moves (h : Talking requests frames past future sq rq s) {pc : RecvPc}
    (hlate : Late s.pc) (hparse : s.pc ≠ .parse) (hpc : Late pc ∧ pc ≠ .raised ∧ pc ≠ .assertFailed)
    (hover : pc = .returned → future = [] ∧ sq = []) :
    Talking requests frames past future sq rq { s with pc := pc } := by
  obtain ⟨hiter, hreq, -⟩ := h.late hlate
  refine ⟨hpc.2, h.parts, h.yielded, h.send, ?_, h.recv, h.received, h.stream, h.opaques,
    h.resLen, fun _ _ => hiter, fun hp => absurd hp hpc.1.not_early, fun _ => h.waits hparse,
    h.last, hover⟩
  rw [pendingGroup, if_neg hpc.1.1, hiter, List.flatten_nil, List.append_nil, List.append_nil]
  exact hreq

/-- The test of the loop: with the last reply, everything has been sent. -/
theorem Talking.head (h : Talking requests frames past future sq rq s) (hpc : s.pc = .head)
    (hs : recvStep s .run = some s') : Talks requests frames s' := by
  have hlate : Late s.pc := by rw [hpc]; decide
  have hparse : s.pc ≠ .parse := by rw [hpc]; nofun
  obtain ⟨hiter, hreq, hlen⟩ := h.late hlate
  simp only [recvStep, hpc] at hs
  split at hs
  · cases hs
    exact ⟨past, future, sq, rq, h.moves hlate hparse (by decide) nofun⟩
  · next hop =>
      have hfuture : future = [] := List.eq_nil_of_length_eq_zero (by
        rw [← hlen, not_not.mp hop]
        rfl)
      have hrq : rq = [] := List.prefix_nil.mp (by
        have hstream := h.stream
        rwa [hfuture] at hstream)
      have hlast := h.last (by
        rw [h.parts, hfuture, List.append_nil, ← h.received, hrq, List.append_nil])
      have hsq : sq = [] := List.eq_nil_of_length_eq_zero (by
        rw [← hreq, List.length_append] at hlast
        omega)
      have hzero : s.sendBuffer.len = 0 ∧ s.recvBuffer.len = 0 := by
        have h1 := h.send.size
        have h2 := h.recv.size
        rw [hsq] at h1
        rw [hrq] at h2
        exact ⟨h1, h2⟩
      rw [if_pos hzero] at hs
      cases hs
      exact ⟨past, future, sq, rq, h.moves hlate hparse (by decide) fun _ => ⟨hfuture, hsq⟩⟩

theorem Talking.select (h : Talking requests frames past future sq rq s) (hpc : s.pc = .select)
    {wlist rlist : Bool} (hs : recvStep s (.select wlist rlist) = some s') :
    Talks requests frames s' := by
  have hlate : Late s.pc := by rw [hpc]; decide
  have hparse : s.pc ≠ .parse := by rw [hpc]; nofun
  simp only [recvStep, hpc] at hs
  split at hs
  · cases hs
    refine ⟨past, future, sq, rq, h.moves hlate hparse ?_ ?_⟩
    · cases wlist with
      | true => exact ⟨⟨nofun, nofun, nofun⟩, nofun, nofun⟩
      | false => exact ⟨⟨nofun, nofun, nofun⟩, nofun, nofun⟩
    · cases wlist with
      | true => nofun
      | false => nofun
  · cases hs

/-- More of the replies has come. -/
theorem Talking.recvs (h : Talking requests frames past future sq rq s) (hpc : s.pc = .recv)
    {rs : List SocketRecv} (hok : Delivered requests frames s (.recv rs))
    (hs : recvStep s (.recv rs) = some s') : Talks requests frames s' := by
  obtain ⟨heof, hstream, hlast⟩ := hok
  have hlate : Late s.pc := by rw [hpc]; decide
  obtain ⟨hiter, hreq, -⟩ := h.late hlate
  have hloop := h.recv.recvLoop rs 0
  simp only [recvStep, hpc, SimpleBuffer.recvFromSocket] at hs
  cases hcount : recvCount 0 rs with
  | none =>
      rw [hcount] at hloop
      rw [hloop] at hs
      cases hs
  | some c =>
      rw [hcount] at hloop
      obtain ⟨b, hb, hq⟩ := hloop
      have hc : c ≠ some 0 := by
        intro hc
        rw [hc] at hcount
        exact absurd (recvCount_pos heof hcount) (Nat.lt_irrefl 0)
      rw [hb] at hs
      simp only [if_neg hc] at hs
      cases hs
      rw [h.parts, List.flatten_append, ← h.received, List.append_assoc,
        List.prefix_append_right_inj] at hstream
      refine ⟨past, future, sq, _, ⟨by simp, by simp⟩, h.parts, h.yielded, h.send, ?_, hq, ?_,
        hstream, h.opaques, h.resLen, fun _ _ => hiter, fun hp => ?_, fun hp => absurd rfl hp,
        hlast, by simp⟩
      · rw [pendingGroup, if_neg (by simp), hiter, List.flatten_nil, List.append_nil,
            List.append_nil]
        exact hreq
      · rw [← List.append_assoc, h.received]
      · rcases hp with hp | hp | hp <;> cases hp

/-- A round of the inner loop: the next frame is yielded, or the client waits for it. -/
theorem Talking.parse (h : Talking requests frames past future sq rq s) (hpc : s.pc = .parse)
    (hframes : ∀ f ∈ frames, ReplyFrame f) :
    (∃ f rest rq', future = f :: rest ∧ (parseReply s).pc = .parse ∧
      Talking requests frames (past ++ [f]) rest sq rq' (parseReply s)) ∨
    ((parseReply s).pc = .head ∧ Talking requests frames past future sq rq (parseReply s) ∧
      ∀ f rest, future = f :: rest → rq.length < f.length) := by
  have hlate : Late s.pc := by rw [hpc]; decide
  obtain ⟨hiter, hreq, hlen⟩ := h.late hlate
  have hgroup : ∀ s' : Conversation, s'.pc ≠ .collect → s'.sendIter = s.sendIter →
      s'.sent = s.sent → s'.sent ++ sq ++ pendingGroup s' ++ s'.sendIter.flatten
        = requests.flatten := by
    intro s' hp h1 h2
    rw [pendingGroup, if_neg hp, h1, h2, hiter, List.flatten_nil, List.append_nil,
      List.append_nil]
    exact hreq
  cases hfuture : future with
  | nil =>
      have hrq : rq = [] := List.prefix_nil.mp (by
        have hstream := h.stream
        rwa [hfuture] at hstream)
      have hres : s.resLen = 24 := h.resLen.resolve_right fun ⟨f, rest, hf, _⟩ => by
        rw [hfuture] at hf
        cases hf
      rw [parseReply_short h.recv (by rw [hrq, hres]; exact Nat.zero_lt_succ 23)]
      refine .inr ⟨rfl, ⟨⟨nofun, nofun⟩, hfuture ▸ h.parts, h.yielded, h.send,
        hgroup _ nofun rfl rfl, h.recv, h.received, hfuture ▸ h.stream, hfuture ▸ h.opaques,
        hfuture ▸ h.resLen, fun _ _ => hiter, fun hp => ?_, fun _ => nofun, h.last, nofun⟩, nofun⟩
      rcases hp with hp | hp | hp <;> cases hp
  | cons f rest =>
      have hf : ReplyFrame f := hframes f (by rw [h.parts, hfuture]; simp)
      have hstream := h.stream
      rw [hfuture, List.flatten_cons] at hstream
      have hres : s.resLen = 24 ∨ s.resLen = f.length := h.resLen.imp_right fun ⟨g, r, hg, hl⟩ => by
        rw [hfuture] at hg
        cases hg
        exact hl
      by_cases hshort : rq.length < f.length
      · have hpre : rq <+: f := List.prefix_of_prefix_length_le hstream
          (List.prefix_append f _) (Nat.le_of_lt hshort)
        obtain ⟨b, n, hparse, hq, hn⟩ := parseReply_waits h.recv hf hpre hshort hres
        have hwaits : ∀ g r, f :: rest = g :: r → rq.length < g.length := fun g r hg => by
          cases hg
          exact hshort
        rw [hparse]
        refine .inr ⟨rfl, ⟨⟨nofun, nofun⟩, hfuture ▸ h.parts, h.yielded, h.send,
          hgroup _ nofun rfl rfl, hq, h.received, hfuture ▸ h.stream, hfuture ▸ h.opaques,
          hn.imp_right fun hn => ⟨f, rest, rfl, hn⟩, fun _ _ => hiter, fun hp => ?_,
          fun _ => hwaits, h.last, nofun⟩, hwaits⟩
        rcases hp with hp | hp | hp <;> cases hp
      · have hpre : f <+: rq := List.prefix_of_prefix_length_le (List.prefix_append f _) hstream
          (Nat.le_of_not_lt hshort)
        obtain ⟨q, rfl⟩ := hpre
        have hop : s.opaques ≠ [] := fun hop => by
          rw [hop, hfuture] at hlen
          cases hlen
        obtain ⟨b, u, hparse, hq, hu⟩ := parseReply_takes h.recv hf hres hop
        rw [hparse]
        refine .inl ⟨f, rest, q, rfl, hpc, ⟨by rw [hpc]; exact ⟨nofun, nofun⟩, ?_, ?_, h.send,
          hgroup _ (by rw [hpc]; nofun) rfl rfl, hq, ?_, ?_, ?_, .inl rfl, fun _ _ => hiter,
          fun _ => rfl, fun hp => absurd hpc hp, h.last, fun hp => ?_⟩⟩
        · rw [h.parts, hfuture, List.append_assoc]
          rfl
        · have hreply : replyTo f = some u.reply := by
            rw [replyTo, hu]
            rfl
          rw [List.map_append, List.map_append, h.yielded, List.map_singleton, List.map_singleton,
            hreply]
        · rw [List.flatten_append, List.flatten_singleton, List.append_assoc]
          exact h.received
        · exact (List.prefix_append_right_inj f).mp hstream
        · show s.opaques.dropLast.length + s.sendIter.length = rest.length
          rw [List.length_dropLast, hlen, hfuture, hiter]
          rfl
        · rw [hpc] at hp
          cases hp

theorem Talks.step (h : Talks requests frames s) (hframes : ∀ f ∈ frames, ReplyFrame f)
    {e : ClientEvent} (hok : Delivered requests frames s e) (hs : recvStep s e = some s') :
    Talks requests frames s' := by
  obtain ⟨past, future, sq, rq, h⟩ := h
  cases hpc : s.pc with
  | collect =>
      cases e with
      | run => exact h.collect hpc hs
      | _ => simp [recvStep, hpc] at hs
  | sendGroup =>
      cases e with
      | send r =>
          simp only [recvStep, hpc] at hs
          have hgroup : ∀ s : Conversation, s.pc = .sendGroup → pendingGroup s = [] := by
            intro s hp
            rw [pendingGroup, if_neg (by rw [hp]; nofun)]
          have h0 : Talking requests frames past future sq rq
              { s with pc := .sendGroup, group := [], groupSz := 0 } := by
            have hreq := h.taken
            rw [hgroup s hpc] at hreq
            refine ⟨⟨nofun, nofun⟩, h.parts, h.yielded, h.send, ?_, h.recv, h.received, h.stream,
              h.opaques, h.resLen, fun _ hp => absurd rfl hp,
              fun _ => h.early (.inr (.inl hpc)), fun _ => h.waits (by rw [hpc]; nofun), h.last,
              nofun⟩
            rw [hgroup _ rfl]
            exact hreq
          exact h0.sends hok nofun (.inl rfl) (.inl ⟨rfl, rfl, rfl⟩) hs
      | _ => simp [recvStep, hpc] at hs
  | sendRest =>
      cases e with
      | send r =>
          simp only [recvStep, hpc] at hs
          have hiter := h.sendIter (by rw [hpc]; nofun) (by rw [hpc]; nofun)
          have h0 : Talking requests frames past future sq rq
              { s with pc := .sendRest, opaques := s.opaques.reverse, resLen := 24 } := by
            have hreq := h.taken
            rw [pendingGroup, if_neg (by rw [hpc]; nofun)] at hreq
            refine ⟨⟨nofun, nofun⟩, h.parts, h.yielded, h.send, ?_, h.recv, h.received, h.stream,
              ?_, .inl rfl, fun _ _ => hiter, fun _ => rfl,
              fun _ => h.waits (by rw [hpc]; nofun), h.last, nofun⟩
            · rw [pendingGroup, if_neg nofun]
              exact hreq
            · rw [List.length_reverse]
              exact h.opaques
          exact h0.sends hok nofun (.inr (.inl rfl)) (.inr ⟨nofun, .inl rfl⟩) hs
      | _ => simp [recvStep, hpc] at hs
  | head =>
      cases e with
      | run => exact h.head hpc hs
      | _ => simp [recvStep, hpc] at hs
  | select =>
      cases e with
      | select wlist rlist => exact h.select hpc hs
      | _ => simp [recvStep, hpc] at hs
  | sendMore rlist =>
      cases e with
      | send r =>
          simp only [recvStep, hpc] at hs
          refine h.sends hok (by rw [hpc]; nofun) (.inr (.inr ⟨rlist, hpc⟩))
            (.inr ⟨by rw [hpc]; nofun, ?_⟩) hs
          cases rlist with
          | true => exact .inr rfl
          | false => exact .inl rfl
      | _ => simp [recvStep, hpc] at hs
  | recv =>
      cases e with
      | recv rs => exact h.recvs hpc hok hs
      | _ => simp [recvStep, hpc] at hs
  | parse =>
      cases e with
      | run =>
          simp only [recvStep, hpc] at hs
          cases hs
          rcases h.parse hpc hframes with ⟨f, rest, rq', -, -, h'⟩ | ⟨-, h', -⟩
          · exact ⟨_, _, _, _, h'⟩
          · exact ⟨_, _, _, _, h'⟩
      | _ => simp [recvStep, hpc] at hs
  | returned => simp [recvStep, hpc] at hs
  | assertFailed => simp [recvStep, hpc] at hs
  | raised => simp [recvStep, hpc] at hs

/-- With everything received, the loop is over. -/
theorem Talking.returns (h : Talking requests frames past future sq rq s) (hpc : s.pc = .head)
    (hall : s.received = frames.flatten) : ∃ t, recvStep s .run = some t ∧ t.pc = .returned := by
  have hlate : Late s.pc := by rw [hpc]; decide
  obtain ⟨-, -, hlen⟩ := h.late hlate
  have hrq : rq = future.flatten := by
    rw [h.parts, List.flatten_append, ← h.received] at hall
    exact List.append_cancel_left hall
  have hfuture : future = [] := by
    cases hf : future with
    | nil => rfl
    | cons f rest =>
        have hlt := h.waits (by rw [hpc]; nofun) f rest hf
        rw [hrq, hf, List.flatten_cons, List.length_append] at hlt
        omega
  have hop : s.opaques = [] := List.eq_nil_of_length_eq_zero (by rw [hlen, hfuture]; rfl)
  have hstep : recvStep s .run = some { s with pc := if s.sendBuffer.len = 0 ∧
      s.recvBuffer.len = 0 then .returned else .assertFailed } := by
    simp only [recvStep, hpc, hop]
    split
    · next hne => exact absurd rfl hne
    · split <;> rfl
  refine ⟨_, hstep, ?_⟩
  obtain ⟨_, _, _, _, h'⟩ := h.head hpc hstep
  have halive := h'.alive.2
  dsimp only at halive ⊢
  split at halive
  · next hzero => rw [if_pos hzero]
  · exact absurd rfl halive

/-- When everything has come, the client goes on to the end by itself. -/
theorem Talking.finishes (hframes : ∀ f ∈ frames, ReplyFrame f) :
    ∀ {future past : List Bytes} {rq : Bytes} {s : Conversation},
    Talking requests frames past future sq rq s → s.pc = .parse → s.received = frames.flatten →
    ∃ k t, runSteps recvStep s (List.replicate k .run) = some t ∧ t.pc = .returned := by
  intro future
  induction future with
  | nil =>
      intro past rq s h hpc hall
      have hrun : recvStep s .run = some (parseReply s) := by simp only [recvStep, hpc]
      rcases h.parse hpc hframes with ⟨f, rest, rq', hf, -⟩ | ⟨hhead, h', -⟩
      · cases hf
      · have hall' : (parseReply s).received = frames.flatten := by
          rw [parseReply_received, hall]
        obtain ⟨t, ht, hret⟩ := h'.returns hhead hall'
        refine ⟨2, t, ?_, hret⟩
        rw [show List.replicate 2 ClientEvent.run = [.run, .run] from rfl, runSteps_cons hrun,
          runSteps_cons ht, runSteps_nil]
  | cons f rest ih =>
      intro past rq s h hpc hall
      have hrun : recvStep s .run = some (parseReply s) := by simp only [recvStep, hpc]
      have hrq : rq = (f :: rest).flatten := by
        rw [h.parts, List.flatten_append, ← h.received] at hall
        exact List.append_cancel_left hall
      rcases h.parse hpc hframes with ⟨g, r, rq', hf, hparse, h'⟩ | ⟨-, -, hwaits⟩
      · cases hf
        have hall' : (parseReply s).received = frames.flatten := by
          rw [parseReply_received, hall]
        obtain ⟨k, t, ht, hret⟩ := ih h' hparse hall'
        refine ⟨k + 1, t, ?_, hret⟩
        rw [List.replicate_succ, runSteps_cons hrun]
        exact ht
      · have hlt := hwaits f rest rfl
        rw [hrq, List.flatten_cons, List.length_append] at hlt
        omega

end Step

/-! ## From the start

What is seen from outside follows from the invariant: what has been sent and yielded
when the generator returns, and that it does return once all replies are there. -/

/-- What is claimed of a state of the conversation. -/
structure Exact (requests frames : List Bytes) (s : Conversation) : Prop where
  alive : s.pc ≠ .raised ∧ s.pc ≠ .assertFailed
  /-- everything is sent, yielded and used up in the end -/
  returned : s.pc = .returned → s.sent = requests.flatten ∧
    s.yielded.map some = frames.map replyTo ∧ Queues s.sendBuffer [] ∧ Queues s.recvBuffer []
  /-- which is reached when the replies are there -/
  finishes : s.pc = .head ∨ s.pc = .parse → s.received = frames.flatten →
    ∃ k t, runSteps recvStep s (List.replicate k .run) = some t ∧ t.pc = .returned

theorem Talks.exact {requests frames : List Bytes} {s : Conversation}
    (h : Talks requests frames s) (hframes : ∀ f ∈ frames, ReplyFrame f) :
    Exact requests frames s := by
  obtain ⟨past, future, sq, rq, h⟩ := h
  refine ⟨h.alive, fun hpc => ?_, fun hpc hall => ?_⟩
  · obtain ⟨hfuture, hsq⟩ := h.ended hpc
    obtain ⟨-, hreq, -⟩ := h.late (by rw [hpc]; decide)
    have hrq : rq = [] := List.prefix_nil.mp (by
      have hstream := h.stream
      rwa [hfuture] at hstream)
    have hpast : frames = past := by rw [h.parts, hfuture, List.append_nil]
    refine ⟨?_, by rw [hpast]; exact h.yielded, hsq ▸ h.send, hrq ▸ h.recv⟩
    rw [← hreq, hsq, List.append_nil]
  · rcases hpc with hpc | hpc
    · obtain ⟨t, ht, hret⟩ := h.returns hpc hall
      refine ⟨1, t, ?_, hret⟩
      rw [show List.replicate 1 ClientEvent.run = [.run] from rfl, runSteps_cons ht, runSteps_nil]
    · exact h.finishes hframes hpc hall

theorem talks_start {sd : Bool} {sb rb : SimpleBuffer} {sq rq : Bytes} (hsb : Queues sb sq)
    (hrb : Queues rb rq) (hold : sd = true → sq = [] ∧ rq = []) (opaqueId : Nat)
    {requests frames : List Bytes} (hframes : ∀ f ∈ frames, ReplyFrame f)
    (hlen : frames.length = requests.length) :
    Talks requests frames (startRecv sd sb rb opaqueId requests) := by
  have hempty : Queues (if sd then sb else sb.flush) [] ∧
      Queues (if sd then rb else rb.flush) [] := by
    cases sd with
    | true =>
        obtain ⟨rfl, rfl⟩ := hold rfl
        exact ⟨hsb, hrb⟩
    | false => exact ⟨hsb.flush, hrb.flush⟩
  obtain ⟨hs, hr⟩ := hempty
  have hpc : (startRecv sd sb rb opaqueId requests).pc = .collect := if_pos ⟨hs.size, hr.size⟩
  have hshort : ∀ f rest, frames = f :: rest → ([] : Bytes).length < f.length := fun f rest hf =>
    Nat.lt_of_lt_of_le (Nat.zero_lt_succ 23) (hframes f (by rw [hf]; simp)).header
  refine ⟨[], frames, [], [], by rw [hpc]; exact ⟨nofun, nofun⟩, rfl, rfl, hs, ?_, hr, rfl,
    List.nil_prefix, ?_, .inl rfl, fun hp => absurd hpc hp, fun _ => rfl, fun _ => hshort,
    fun hl => ?_, fun hp => ?_⟩
  · rw [pendingGroup, if_pos hpc]
    rfl
  · show 0 + requests.length = frames.length
    omega
  · cases frames with
    | nil =>
        have hnil : requests = [] := List.eq_nil_of_length_eq_zero hlen.symm
        rw [hnil]
        exact Nat.le_refl _
    | cons f rest =>
        have hf := hshort f rest rfl
        have hl : (f :: rest).flatten.length ≤ 0 := hl
        rw [List.flatten_cons, List.length_append] at hl
        exact absurd hf (by rw [List.length_nil]; omega)
  · rw [hpc] at hp
    cases hp

/-- The requests are sent and the replies yielded, however the socket cuts them; and a
buffer by itself answers as a queue. -/
theorem client_reassembles {sd : Bool} {sb rb : SimpleBuffer} {sq rq : Bytes}
    (hsb : Queues sb sq) (hrb : Queues rb rq) (hold : sd = true → sq = [] ∧ rq = [])
    (opaqueId : Nat) {requests frames : List Bytes} (hframes : ∀ f ∈ frames, ReplyFrame f)
    (hlen : frames.length = requests.length) :
    (∀ events s, AllSteps recvStep (Delivered requests frames)
        (startRecv sd sb rb opaqueId requests) events →
      runSteps recvStep (startRecv sd sb rb opaqueId requests) events = some s →
      Exact requests frames s) ∧
    ∀ data cs, WithinQueues (data.getD []) cs →
      match fifoCalls (data.getD []) cs with
      | none => (SimpleBuffer.new data).calls cs = none
      | some (as, q) => ∃ b, (SimpleBuffer.new data).calls cs = some (as, b) ∧ Queues b q := by
  refine ⟨fun events s hok hrun => ?_, fun data cs hw => (Queues.new data).calls hw⟩
  have hstep : ∀ s e t, Talks requests frames s → Delivered requests frames s e →
      recvStep s e = some t → Talks requests frames t := fun _ _ _ h => h.step hframes
  exact (runSteps_invariant hstep (talks_start hsb hrb hold opaqueId hframes hlen) hok hrun).exact
    hframes

/-! ## Two requests whose replies come in pieces -/

def twoRequests : List Bytes :=
  [Request.frame { opcode := memcacheCmdGet, key := ascii "k" },
    Request.frame { opcode := memcacheCmdNoop }]

def twoReplies : List Bytes :=
  [Response.frame { opcode := memcacheCmdGet, opaqueId := 65535, status := 0
                    extras := [0, 0, 0, 0], value := ascii "data" },
    Response.frame { opcode := memcacheCmdNoop, opaqueId := 0, status := 0 }]

/-- The socket takes the requests in two parts, and the first reply is cut. -/
def splitReplies : List ClientEvent :=
  [.run, .run, .run, .send (.sent 10), .run, .select true true, .send (.sent 39),
    .recv [.got (twoReplies.flatten.take 30)], .run, .run, .select false true,
    .recv [.got (twoReplies.flatten.drop 30)], .run, .run, .run, .run]

instance (requests frames : List Bytes) (s : Conversation) :
    ∀ e, Decidable (Delivered requests frames s e)
  | .run => isTrue trivial
  | .select _ _ => isTrue trivial
  | .send _ => inferInstanceAs (Decidable (_ ≠ _))
  | .recv _ => inferInstanceAs (Decidable (_ ∧ _ ∧ _))

/-- A `StringIO` is given up behind so many bytes. -/
def discardCalls : List BufferCall :=
  [.consume 70000, .write [some [1], none, some [2, 3]], .sendToSocket (.sent 1), .read none]

theorem discardCalls_fifo {bs : Bytes} (hlen : bs.length = 70000) :
    WithinQueues bs discardCalls ∧
    fifoCalls bs discardCalls
      = some ([.nothing, .nothing, .sent [1, 2, 3] (some 1), .bytes [2, 3]], [2, 3]) := by
  have hdrop : bs.drop 70000 = [] := List.drop_eq_nil_of_le (Nat.le_of_eq hlen)
  have hconsume : fifoCall bs (.consume 70000) = some (.nothing, []) := by rw [fifoCall, hdrop]
  refine ⟨⟨Nat.le_of_eq hlen.symm, fun q hq => ?_⟩, ?_⟩
  · change (fifoCall bs (.consume 70000)).map Prod.snd = some q at hq
    rw [hconsume] at hq
    cases hq
    decide
  · rw [discardCalls, fifoCalls, hconsume]
    decide

theorem client_reassembles_splitReplies :
    (∃ s, runSteps recvStep (startRecv true {} {} 65535 twoRequests) splitReplies = some s ∧
      s.sent = twoRequests.flatten ∧ s.yielded.map some = twoReplies.map replyTo) ∧
    ∃ b, (SimpleBuffer.new (some (List.replicate 70000 0))).calls discardCalls
        = some ([.nothing, .nothing, .sent [1, 2, 3] (some 1), .bytes [2, 3]], b) ∧
      Queues b [2, 3] := by
  have hframes : ∀ f ∈ twoReplies, ReplyFrame f := by decide
  have hlen : twoReplies.length = twoRequests.length := rfl
  have hold : true = true → ([] : Bytes) = [] ∧ ([] : Bytes) = [] := fun _ => ⟨rfl, rfl⟩
  obtain ⟨hrun, hcalls⟩ :=
    client_reassembles (Queues.new none) (Queues.new none) hold 65535 hframes hlen
  constructor
  · have hpc : (runSteps recvStep (startRecv true {} {} 65535 twoRequests) splitReplies).map
        Conversation.pc = some .returned := by decide
    obtain ⟨s, hs, hreturned⟩ := Option.map_eq_some_iff.mp hpc
    have hexact := (hrun splitReplies s (by decide) hs).returned hreturned
    exact ⟨s, hs, hexact.1, hexact.2.1⟩
  · have hlen : (List.replicate 70000 (0 : UInt8)).length = 70000 := List.length_replicate
    have hcall := hcalls (some (List.replicate 70000 0)) discardCalls (discardCalls_fifo hlen).1
    rwa [Option.getD_some, (discardCalls_fifo hlen).2] at hcall

/-! ## A reply that comes too early -/

def oneRequest : List Bytes := [0x80 :: 0x0A :: List.replicate 22 0]

def oneReply : List Bytes := [0x81 :: 0x0A :: List.replicate 22 0]

/-- The replies, cut anywhere, at any time. -/
def Cut (frames : List Bytes) (s : Conversation) : ClientEvent → Prop
  | .send r => r ≠ .error
  | .recv rs => .got [] ∉ rs ∧ s.received ++ socketBytes rs <+: frames.flatten
  | _ => True

instance (frames : List Bytes) (s : Conversation) : ∀ e, Decidable (Cut frames s e)
  | .run => isTrue trivial
  | .select _ _ => isTrue trivial
  | .send _ => inferInstanceAs (Decidable (_ ≠ _))
  | .recv _ => inferInstanceAs (Decidable (_ ∧ _))

/-- Nothing has been sent, and the reply is there. -/
def earlyReply : List ClientEvent :=
  [.run, .run, .send .again, .run, .select false true, .recv (oneReply.map .got), .run, .run, .run]

/-- The client takes the reply, and finds that it has not sent the request. -/
theorem client_earlyReply :
    AllSteps recvStep (Cut oneReply) (startRecv true {} {} 0 oneRequest) earlyReply ∧
    ∃ s, runSteps recvStep (startRecv true {} {} 0 oneRequest) earlyReply = some s ∧
      s.received = oneReply.flatten ∧ s.yielded.map some = oneReply.map replyTo ∧
      s.pc = .assertFailed ∧ s.sent = [] ∧ s.sendBuffer.len = 24 := by
  refine ⟨by decide, ?_⟩
  have h : (runSteps recvStep (startRecv true {} {} 0 oneRequest) earlyReply).map
      (fun s => (s.received, s.yielded.map some, s.pc, s.sent, s.sendBuffer.len))
      = some (oneReply.flatten, oneReply.map replyTo, .assertFailed, [], 24) := by decide
  obtain ⟨s, hs, h⟩ := Option.map_eq_some_iff.mp h
  simp only [Prod.mk.injEq] at h
  exact ⟨s, hs, h.1, h.2.1, h.2.2.1, h.2.2.2.1, h.2.2.2.2⟩

end Smalltable.Proofs
