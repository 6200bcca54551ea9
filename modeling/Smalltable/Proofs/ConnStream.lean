import Smalltable.Proofs.Framing
import Smalltable.Ref.Connection

/-!
# A connection and its stream of requests

What `conn_recv` and `conn_send` do with a stream, for any `process_multi` that
answers the batches it is handed. `Along` is the invariant. At every point the
stream splits into requests that were served, requests that are held back, and
the rest, of which a part has arrived; what has been sent and what is waiting
are together the answers of the served ones. `reqbuf_get_sane_request_sz` sees
the next request exactly when all of it has arrived (`Framing.headCases`), so
each step moves one request on or waits.

A batch is handed over with a loud request at its end, or because enough data
has arrived. That is all the connection decides, and `Along.handed` remembers
it.
-/

namespace Smalltable.Proofs

open Smalltable.Ref

section Stream

variable {ω : Type}

/-- The socket stays open. -/
def ConnAction.Open : ConnAction → Prop
  | .recv .eof | .recv .error | .send .error => False
  | _ => True

/-- The code is about to hand over what it has collected, with the next request
behind it. -/
structure HandsOver (c : Conn ω) (batch : Bytes) : Prop where
  pc : ∃ written, c.pc = .swallowNextRequest written
  whole : 0 < reqbufGetSaneRequestSz (newData c) 0x80
  loud : ¬ HoldsBack c
  batch : batch = (bufGetReader c.io.recvBuf).take
    (c.quietRecvOff + reqbufGetSaneRequestSz (newData c) 0x80).toNat

/-- What the requests of a stream do: the worlds there may be after some of
them, and all that has been answered by then. -/
structure Service (ω : Type) where
  world : List Bytes → ω → Prop
  answer : List Bytes → Bytes

/-- `process_multi` serves a batch as `S` says. -/
def Handles (processMulti : ω → Io → Bytes → Option (ω × Io × Int)) (S : Service ω) (w : ω)
    (io : Io) (done batch : List Bytes) : Prop :=
  ∀ out, io.sendBuf.Holds out → S.world done w →
    ∃ w' io' new, processMulti w io batch.flatten = some (w', io', (batch.flatten.length : Int)) ∧
      S.world (done ++ batch) w' ∧ S.answer (done ++ batch) = S.answer done ++ new ∧ new ≠ [] ∧
      io'.sendBuf.Holds (out ++ new) ∧
      ∀ held, io.recvBuf.Holds held → io'.recvBuf.Holds held

/-- What holds at the control points, of the waiting output and of what has been
received of the rest. -/
def AtPoint (out more : Bytes) : ConnPc → EventMode → Prop
  | .eventLoop, .onlyRead => out = [] ∧ reqbufGetSaneRequestSz more 0x80 = 0
  | .eventLoop, .onlyWrite => out ≠ []
  | .retryRecv, mode => mode = .onlyRead ∧ out = []
  | .swallowNextRequest false, mode => mode = .onlyRead ∧ out = []
  | .swallowNextRequest true, mode => mode = .onlyRead ∧ out ≠ []
  | .connSend, _ => out ≠ []
  | .closed, _ => False

/-- The last batch ended with a loud request, or `received` was enough. -/
def HandedOver (done : List Bytes) (received : Nat) : Prop :=
  (∀ f ∈ done.getLast?, ¬ flagQuiet (mcGetReserved f)) ∨ maxRequestSize ≤ received

/-- The stream `fs` has been served as far as `done`, `pend` are held back, and
`more` has been received of `rest`; `coming` has not been sent yet. -/
structure Along (S : Service ω) (fs : List Bytes) (coming : Bytes) (c : Conn ω)
    (done pend rest : List Bytes) (more out : Bytes) : Prop where
  split : fs = done ++ pend ++ rest
  world : S.world done c.world
  held : c.io.recvBuf.Holds (pend.flatten ++ more)
  coming : more ++ (c.input ++ coming) = rest.flatten
  off : c.quietRecvOff = pend.flatten.length
  count : c.io.requests = pend.length
  quiet : ∀ f ∈ pend, flagQuiet (mcGetReserved f)
  handed : HandedOver done ((done ++ pend).flatten ++ more).length
  send : c.io.sendBuf.Holds out
  sent : c.sent ++ out = S.answer done
  point : AtPoint out more c.pc c.mode

variable {S : Service ω} {fs done pend rest : List Bytes} {coming more out : Bytes}
  {c c' : Conn ω}

theorem Along.newData_eq (h : Along S fs coming c done pend rest more out) :
    newData c = more := by
  rw [newData, h.held.reader, h.off, Int.toNat_natCast, List.drop_left]

theorem HandedOver.mono {received received' : Nat} (h : HandedOver done received)
    (hle : received ≤ received') : HandedOver done received' :=
  h.imp_right fun hmax => hmax.trans hle

/-! ## One step

Receiving moves bytes from the input behind those that are there, and sending takes the
front of the output. When the next request is whole, it is held back or handed over with
those before it; in both cases the stream is split at another place, and nothing else
has changed. -/

theorem Along.step_event (h : Along S fs coming c done pend rest more out)
    (hpc : c.pc = .eventLoop) :
    Along S fs coming { c with pc := match c.mode with
      | .onlyRead => .retryRecv
      | .onlyWrite => .connSend } done pend rest more out := by
  have hpoint := h.point
  rw [hpc] at hpoint
  refine ⟨h.split, h.world, h.held, h.coming, h.off, h.count, h.quiet, h.handed, h.send, h.sent,
    ?_⟩
  show AtPoint out more (match c.mode with | .onlyRead => _ | .onlyWrite => _) c.mode
  cases hm : c.mode with
  | onlyRead =>
      rw [hm] at hpoint
      exact ⟨rfl, hpoint.1⟩
  | onlyWrite =>
      rw [hm] at hpoint
      exact hpoint

/-- Receiving moves input into the buffer. -/
theorem Along.step_recv (h : Along S fs coming c done pend rest more out)
    (hpc : c.pc = .retryRecv) {r : RecvResult} (hopen : ConnAction.Open (.recv r))
    (hs : connRetryRecv c r = some c') :
    ∃ more', Along S fs coming c' done pend rest more' out ∧ c'.sent = c.sent ∧
      (c'.input.length < c.input.length ∨
        r = .again ∧ c'.input = c.input ∧ c'.pc = .swallowNextRequest false) := by
  have hpoint := h.point
  rw [hpc] at hpoint
  obtain ⟨hmode, hout⟩ := hpoint
  have hheld := bufGetWriter_holds h.held c.io.pool 0
  have hroom : (0 : Int) < (bufGetWriter c.io.pool c.io.recvBuf 0).2.2 := bufGetWriter_room _ _ _
  unfold connRetryRecv at hs
  cases r with
  | got n =>
      simp only [] at hs
      split at hs
      · next hn =>
        cases hs
        refine ⟨more ++ c.input.take n, ⟨h.split, h.world, ?_, ?_, h.off, h.count, h.quiet, ?_,
          h.send, h.sent, ?_⟩, rfl, .inl ?_⟩
        · have hprod := bufProduce_holds hheld (c.input.take n)
          rw [List.append_assoc] at hprod
          exact hprod
        · show more ++ c.input.take n ++ (c.input.drop n ++ coming) = _
          rw [List.append_assoc, ← List.append_assoc (c.input.take n), List.take_append_drop]
          exact h.coming
        · refine h.handed.mono ?_
          rw [List.length_append, List.length_append, List.length_append]
          omega
        · show AtPoint out _ (if _ then _ else _) c.mode
          split
          · exact ⟨hmode, hout⟩
          · exact ⟨hmode, hout⟩
        · show (c.input.drop n).length < c.input.length
          rw [List.length_drop]
          omega
      · cases hs
  | again =>
      simp only [if_neg (Int.ne_of_lt hroom)] at hs
      cases hs
      refine ⟨more, ⟨h.split, h.world, ?_, h.coming, h.off, h.count, h.quiet, h.handed, h.send,
        h.sent, ⟨hmode, hout⟩⟩, rfl, .inr ⟨rfl, rfl, rfl⟩⟩
      have hprod := bufProduce_holds hheld []
      rw [List.append_nil] at hprod
      exact hprod
  | eof => exact absurd hopen id
  | error => exact absurd hopen id

/-- Sending moves output to the client. -/
theorem Along.step_send (h : Along S fs coming c done pend rest more out)
    (hpc : c.pc = .connSend) {r : SendResult} (hopen : ConnAction.Open (.send r))
    (hs : connSend c r = some c') :
    ∃ out', Along S fs coming c' done pend rest more out' ∧ c'.input = c.input ∧
      (r = .again ∨ c.sent.length < c'.sent.length) := by
  have hpoint := h.point
  rw [hpc] at hpoint
  have hout : out ≠ [] := hpoint
  unfold connSend at hs
  simp only [h.send.reader, List.length_eq_zero_iff, if_neg hout] at hs
  cases r with
  | sent n =>
      simp only [] at hs
      split at hs
      · next hn =>
          obtain ⟨hpos, hle⟩ := hn
          cases hs
          have hsplit : out = out.take n ++ out.drop n := (List.take_append_drop n out).symm
          have hsend := h.send
          rw [hsplit] at hsend
          have hsend' := bufConsume_holds (p := c.io.pool) (n := n) hsend
            (by rw [List.length_take]; omega)
          have hmore : c.sent.length < (c.sent ++ out.take n).length := by
            rw [List.length_append, List.length_take]
            omega
          have hsent : c.sent ++ out.take n ++ out.drop n = S.answer done := by
            rw [List.append_assoc, List.take_append_drop]
            exact h.sent
          refine ⟨out.drop n, ?_⟩
          rw [connAfterSend]
          by_cases hall : out.length = n
          · have hnil : out.drop n = [] := List.drop_eq_nil_of_le (by omega)
            simp only [hall, decide_true, if_true]
            refine ⟨⟨h.split, h.world, h.held, h.coming, h.off, h.count, h.quiet, h.handed, hsend',
              hsent, ?_⟩, trivial, .inr hmore⟩
            show AtPoint _ _ (if _ then _ else _) .onlyRead
            split
            · exact ⟨rfl, hnil⟩
            · next hused =>
                have hzero : bufGetUsed c.io.recvBuf = 0 := not_not.mp hused
                rw [h.held.used] at hzero
                have hempty : pend.flatten ++ more = [] :=
                  List.eq_nil_of_length_eq_zero (by omega)
                refine ⟨hnil, ?_⟩
                rw [(List.append_eq_nil_iff.mp hempty).2]
                rfl
          · simp only [hall, decide_false, Bool.false_eq_true, if_false]
            refine ⟨⟨h.split, h.world, h.held, h.coming, h.off, h.count, h.quiet, h.handed, hsend',
              hsent, ?_⟩, trivial, .inr hmore⟩
            intro hnil
            have hlen := congrArg List.length hnil
            rw [List.length_drop, List.length_nil] at hlen
            omega
      · cases hs
  | again =>
      cases hs
      exact ⟨out, ⟨h.split, h.world, h.held, h.coming, h.off, h.count, h.quiet, h.handed, h.send,
        h.sent, hout⟩, rfl, .inl rfl⟩
  | error => exact absurd hopen id

/-- What is left of the stream, as the connection has it. -/
def unread (c : Conn ω) : Nat :=
  (bufGetUsed c.io.recvBuf + c.input.length - c.quietRecvOff).toNat

theorem Along.unread_eq (h : Along S fs [] c done pend rest more out) :
    unread c = rest.flatten.length := by
  have hcoming := h.coming
  rw [List.append_nil] at hcoming
  rw [unread, h.held.used, h.off, ← hcoming, List.length_append, List.length_append]
  omega

/-- The next request, whole, at the head of the new data. -/
theorem Along.reserved_eq {f : Bytes} {more' : Bytes}
    (h : Along S fs coming c done pend rest more out) (hwf : WellFormed 0x80 f)
    (hmore : more = f ++ more') : mcGetReserved (newData c) = mcGetReserved f := by
  rw [h.newData_eq, hmore]
  exact mcGetStatus_append more' hwf.facts.header

theorem header_mul_length_le {magic : UInt8} {gs : List Bytes}
    (hwf : ∀ f ∈ gs, WellFormed magic f) :
    gs.length * memcacheHeaderSize ≤ gs.flatten.length := by
  induction gs with
  | nil => exact Nat.le_refl _
  | cons f gs ih =>
      have h1 := (hwf f List.mem_cons_self).facts.header
      have h2 := ih fun g hg => hwf g (List.mem_cons_of_mem _ hg)
      rw [List.length_cons, List.flatten_cons, List.length_append, Nat.succ_mul]
      omega

/-- Why a request is not held back. -/
theorem Along.handedOver {f : Bytes} {more' : Bytes}
    (h : Along S fs coming c done pend rest more out) (hwf : ∀ g ∈ pend ++ [f], WellFormed 0x80 g)
    (hmore : more = f ++ more') (hhold : ¬ HoldsBack c) :
    HandedOver (done ++ (pend ++ [f])) ((done ++ pend).flatten ++ more).length := by
  have hf : WellFormed 0x80 f := hwf f (List.mem_append_right _ List.mem_cons_self)
  have hlast : (done ++ (pend ++ [f])).getLast? = some f := by
    rw [← List.append_assoc, List.getLast?_concat]
  rw [HoldsBack, h.reserved_eq hf hmore, h.held.reader, h.count] at hhold
  by_cases hquiet : flagQuiet (mcGetReserved f)
  · refine .inr ?_
    have hpend := header_mul_length_le fun g hg => hwf g (List.mem_append_left [f] hg)
    have hmax := maxRequestSize_eq
    have hmaxq := maxQuietRequests_eq
    have hhdr := memcacheHeaderSize_eq
    rw [List.length_append] at hhold
    rw [List.length_append, List.flatten_append, List.length_append]
    by_cases hdata : pend.flatten.length + more.length < maxRequestSize
    · have hmany : ¬ (pend.length : Int) < maxQuietRequests := fun hlt =>
        hhold ⟨hquiet, hdata, hlt⟩
      rw [hhdr] at hpend
      omega
    · omega
  · refine .inl fun g hg => ?_
    rw [hlast] at hg
    cases hg
    exact hquiet

/-- Looking at a request does not change what has been received. -/
theorem flatten_append_moved (done pend : List Bytes) (f more' : Bytes) :
    (done ++ (pend ++ [f])).flatten ++ more' = (done ++ pend).flatten ++ (f ++ more') := by
  rw [← List.append_assoc, List.flatten_append, List.flatten_singleton,
    List.append_assoc]

/-- Handing over a batch: the answers go to the output, the requests are done. -/
theorem Along.process {processMulti : ω → Io → Bytes → Option (ω × Io × Int)} {f : Bytes}
    {rest' : List Bytes} {more' : Bytes} (h : Along S fs coming c done pend rest more out)
    (hwf : ∀ g ∈ pend ++ [f], WellFormed 0x80 g) (hrest : rest = f :: rest')
    (hmore : more = f ++ more') (hcoming : more' ++ (c.input ++ coming) = rest'.flatten)
    (hhold : ¬ HoldsBack c)
    (hserve : Handles processMulti S c.world { c.io with requests := c.io.requests + 1 } done
      (pend ++ [f])) (hmode : c.mode = .onlyRead) :
    ∃ c' out', connProcess processMulti
        { c with
          quietRecvOff := c.quietRecvOff + f.length
          io := { c.io with requests := c.io.requests + 1 } } = some c' ∧
      Along S fs coming c' (done ++ (pend ++ [f])) [] rest' more' out' ∧
      c'.input = c.input ∧ c'.sent = c.sent := by
  have hflat : (pend ++ [f]).flatten = pend.flatten ++ f := by
    rw [List.flatten_append, List.flatten_singleton]
  have hheld : c.io.recvBuf.Holds ((pend ++ [f]).flatten ++ more') := by
    rw [hflat, List.append_assoc, ← hmore]
    exact h.held
  have hhanded : (bufGetReader c.io.recvBuf).take (c.quietRecvOff + f.length).toNat
      = (pend ++ [f]).flatten := by
    rw [hheld.reader, h.off, hflat]
    refine List.take_left' ?_
    rw [List.length_append]
    omega
  obtain ⟨w', io', new, hs, hworld, hanswer, hne, hout, hkeep⟩ := hserve out h.send h.world
  have hrecv := bufConsume_holds (p := io'.pool) (n := ((pend ++ [f]).flatten.length : Int))
    (hkeep _ hheld) rfl
  rw [connProcess]
  simp only [hhanded, hs]
  refine ⟨_, _, rfl, ⟨?_, hworld, hrecv, hcoming, rfl, rfl, nofun, ?_, hout, ?_, ?_⟩, rfl, rfl⟩
  · rw [h.split, hrest, List.append_nil, List.append_assoc, List.append_assoc, List.append_assoc]
    rfl
  · rw [List.append_nil, flatten_append_moved, ← hmore]
    exact h.handedOver hwf hmore hhold
  · rw [hanswer, ← h.sent, List.append_assoc]
  · have hne' : out ++ new ≠ [] := fun hnil => hne (List.append_eq_nil_iff.mp hnil).2
    show AtPoint _ _ (if _ then _ else _) c.mode
    split
    · exact hne'
    · exact ⟨hmode, hne'⟩

/-- Looking at the next request always leads on: it is not all there, or it is
held back, or it is handed over. -/
theorem Along.step_swallow {processMulti : ω → Io → Bytes → Option (ω × Io × Int)}
    {written : Bool} (h : Along S fs coming c done pend rest more out)
    (hpc : c.pc = .swallowNextRequest written) (hwf : ∀ f ∈ fs, WellFormed 0x80 f)
    (hserve : ∀ batch, batch ≠ [] → done ++ batch <+: fs → HandsOver c batch.flatten →
      Handles processMulti S c.world { c.io with requests := c.io.requests + 1 } done batch) :
    ∃ c' done' pend' rest' more' out',
      connSwallow processMulti c written = some c' ∧
      Along S fs coming c' done' pend' rest' more' out' ∧
      c'.input = c.input ∧ c'.sent = c.sent ∧
      ((rest' = rest ∧ (c'.pc = if written then .connSend else .eventLoop) ∧
          c'.mode = .onlyRead) ∨
        rest'.flatten.length < rest.flatten.length) := by
  have hmode : c.mode = .onlyRead := by
    have hpoint := h.point
    rw [hpc] at hpoint
    cases written with
    | false => exact hpoint.1
    | true => exact hpoint.1
  have hpoint := h.point
  rw [hpc] at hpoint
  have hrestwf : ∀ f ∈ rest, (wireFraming 0x80).Frame f := by
    intro f hf
    refine hwf f ?_
    rw [h.split]
    exact List.mem_append_right _ hf
  rcases (wireFraming 0x80).headCases hrestwf h.coming with
    ⟨hsz, -⟩ | ⟨f, rest', more', hrest, hmore, hcoming, hsz⟩
  · -- the next request has not arrived whole
    have hsz' : reqbufGetSaneRequestSz (newData c) 0x80 = 0 := by rw [h.newData_eq]; exact hsz
    refine ⟨{ c with pc := if written then .connSend else .eventLoop }, done, pend, rest, more,
      out, ?_, ⟨h.split, h.world, h.held, h.coming, h.off, h.count, h.quiet, h.handed, h.send,
        h.sent, ?_⟩, rfl, rfl, .inl ⟨rfl, rfl, hmode⟩⟩
    · rw [connSwallow]
      simp only [hsz']
      rfl
    · show AtPoint out more (if written then _ else _) c.mode
      cases written with
      | false =>
          rw [hmode]
          exact ⟨hpoint.2, hsz⟩
      | true => exact hpoint.2
  · have hf : WellFormed 0x80 f := hrestwf f (by rw [hrest]; exact List.mem_cons_self)
    have hpos : 0 < f.length := List.length_pos_iff.mpr hf.1
    have hsz' : reqbufGetSaneRequestSz (newData c) 0x80 = f.length := by
      rw [h.newData_eq]
      exact hsz
    have hless : rest'.flatten.length < rest.flatten.length := by
      rw [hrest, List.flatten_cons, List.length_append]
      omega
    have hne1 : ¬ (f.length : Int) = -1 := by omega
    have hne0 : ¬ (f.length : Int) = 0 := by omega
    rw [connSwallow]
    simp only [hsz', if_neg hne1, if_neg hne0]
    by_cases hhold : HoldsBack c
    · rw [if_pos hhold]
      refine ⟨_, done, pend ++ [f], rest', more', out, rfl, ⟨?_, h.world, ?_, hcoming, ?_, ?_, ?_,
        ?_, h.send, h.sent, ?_⟩, rfl, rfl, .inr hless⟩
      · rw [h.split, hrest, List.append_assoc, List.append_assoc, List.append_assoc,
          List.singleton_append]
      · rw [List.flatten_append, List.flatten_singleton, List.append_assoc, ← hmore]
        exact h.held
      · show c.quietRecvOff + f.length = _
        rw [h.off, List.flatten_append, List.flatten_singleton, List.length_append]
        omega
      · show c.io.requests + 1 = _
        rw [h.count, List.length_append, List.length_singleton]
        omega
      · intro g hg
        rcases List.mem_append.mp hg with hg | hg
        · exact h.quiet g hg
        · rw [List.mem_singleton.mp hg, ← h.reserved_eq hf hmore]
          exact hhold.1
      · rw [flatten_append_moved, ← hmore]
        exact h.handed
      · show AtPoint out more' c.pc c.mode
        rw [hpc]
        cases written with
        | false => exact hpoint
        | true => exact hpoint
    · rw [if_neg hhold]
      have hsplit : done ++ (pend ++ [f]) ++ rest' = fs := by
        rw [h.split, hrest, List.append_assoc, List.append_assoc, List.append_assoc]
        rfl
      have hbatch : ∀ g ∈ pend ++ [f], WellFormed 0x80 g := by
        intro g hg
        refine hwf g ?_
        rw [← hsplit]
        exact List.mem_append_left _ (List.mem_append_right _ hg)
      have hover : HandsOver c (pend ++ [f]).flatten := by
        refine ⟨⟨written, hpc⟩, by omega, hhold, ?_⟩
        rw [hsz', h.held.reader, h.off, List.flatten_append, List.flatten_singleton, hmore,
          ← List.append_assoc]
        refine (List.take_left' ?_).symm
        rw [List.length_append]
        omega
      obtain ⟨c', out', hs, halong, hinput, hsent⟩ := h.process hbatch hrest hmore hcoming hhold
        (hserve (pend ++ [f]) (List.concat_ne_nil f pend) ⟨rest', hsplit⟩ hover) hmode
      exact ⟨c', _, _, _, _, _, hs, halong, hinput, hsent, .inr hless⟩

/-- Any step, where what is handed over is served. -/
theorem Along.step {processMulti : ω → Io → Bytes → Option (ω × Io × Int)} {a : ConnAction}
    (h : Along S fs coming c done pend rest more out) (hwf : ∀ f ∈ fs, WellFormed 0x80 f)
    (hserve : ∀ batch, batch ≠ [] → done ++ batch <+: fs → HandsOver c batch.flatten →
      Handles processMulti S c.world { c.io with requests := c.io.requests + 1 } done batch)
    (hopen : ConnAction.Open a) (hs : connStep processMulti c a = some c') :
    ∃ done pend rest more out, Along S fs coming c' done pend rest more out := by
  rcases connStep_cases _ hs with ⟨hpc, -, rfl⟩ | ⟨r, hpc, rfl, hr⟩ | ⟨written, hpc, -, hr⟩ |
    ⟨r, hpc, rfl, hr⟩ | ⟨hpc, -, hempty, -⟩
  · exact ⟨done, pend, rest, more, out, h.step_event hpc⟩
  · obtain ⟨more', h', -⟩ := h.step_recv hpc hopen hr
    exact ⟨done, pend, rest, more', out, h'⟩
  · obtain ⟨c1, d, p, r, mo, o, hs, h', -⟩ := h.step_swallow hpc hwf hserve
    rw [hs] at hr
    cases hr
    exact ⟨d, p, r, mo, o, h'⟩
  · obtain ⟨out', h', -⟩ := h.step_send hpc hopen hr
    exact ⟨done, pend, rest, more, out', h'⟩
  · have hpoint := h.point
    rw [hpc] at hpoint
    rw [h.send.reader] at hempty
    exact absurd (List.length_eq_zero_iff.mp hempty) hpoint

end Stream

end Smalltable.Proofs
