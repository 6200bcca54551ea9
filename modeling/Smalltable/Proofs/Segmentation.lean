import Smalltable.Lib.Transition
import Smalltable.Proofs.ConnStream
import Smalltable.Proofs.SameData

/-!
# What a connection sends does not depend on how its input is cut

A connection collects quiet requests and serves them in bulks, and where a bulk
ends depends on how much data happens to be there; while output is waiting it
stops reading. None of this shows: for every way `recv` cuts the stream and
every way `send` takes the output, what has been sent at the end is what the
same server sends when it is given the requests one at a time.

Both sides of that are the code. The connection serves batches, with a hint to
the engine for each and the output of the batch piling up; the other side serves
every request by itself, on a connection of its own (`oneAtATime`). That the two
keep in step needs nothing of the engine but that its `readahead` is not seen
(`processMulti_alike`); it need not be a map, and its `set` may fail.

From there on it is the argument of `ConnStream`: one at a time is a service in
the sense of `Along`, as long as no request hits the limit on the output.
`segMeasure` bounds how long a connection can go on moving.
-/

namespace Smalltable.Proofs

open Smalltable.Ref Smalltable.Spec Relation

section Segmentation

variable {σ γ : Type} (api : StStorageApi σ) (vx : Vx γ) (cfg : Config γ)

/-! ## The runs

A step is any step of the connection, whatever the sockets answer, from a state in which
what is handed over next does not hit the limit on the output. The other side begins
every request with nothing waiting, so no limit is asked about there. -/

/-- A request of the batch finds the output at the limit of
`builtin_commands_callback`. -/
def HitsLimit (st : World σ γ × Io) : List Bytes → Prop
  | [] => False
  | f :: rest => maxRequestSize * 3 ≤ bufGetUsed st.2.sendBuf ∨
      ∃ st', serveBuiltin api vx cfg st f = some st' ∧ HitsLimit st' rest

/-- Whatever is handed over next does not hit the limit. -/
def WithinLimit (c : Conn (World σ γ)) : Prop :=
  ∀ batch, (∀ f ∈ batch, WellFormed 0x80 f) → HandsOver c batch.flatten →
    ¬ HitsLimit api vx cfg (c.world, c.io) batch

/-- A step of the server's connection, with any cut of the input and the output,
that stays within the limit. -/
def ServesStep (c c' : Conn (World σ γ)) : Prop :=
  ∃ a, connStep (processMulti api vx cfg) c a = some c' ∧ ConnAction.Open a ∧
    WithinLimit api vx cfg c

/-- The event loop has nothing to do until more input comes. -/
structure Quiescent {ω : Type} (c : Conn ω) : Prop where
  pc : c.pc = .eventLoop
  mode : c.mode = .onlyRead
  input : c.input = []

/-- Execute the requests one at a time, each on a connection of its own, and
collect what they answer. -/
def oneAtATime : World σ γ → List Bytes → Option (World σ γ × Bytes)
  | w, [] => some (w, [])
  | w, f :: rest =>
      match processMulti api vx cfg w {} f with
      | none => none
      | some (w, io, _) =>
          match oneAtATime w rest with
          | none => none
          | some (w, more) => some (w, bufGetReader io.sendBuf ++ more)

/-! ## A batch and its requests

A batch is its requests in order, with one hint in front of it instead of one for each.
None of them hits the limit on either side, and so the answers are the same. -/

theorem not_hitsLimit_lt {w : World σ γ} {io : Io} {out f : Bytes} {rest : List Bytes}
    (hout : io.sendBuf.Holds out) (hfree : ¬ HitsLimit api vx cfg (w, io) (f :: rest)) :
    out.length < outputLimit := by
  rw [HitsLimit, not_or, hout.used] at hfree
  rw [outputLimit]
  omega

variable {api} {Same : σ → σ → Prop} (hhides : HidesReadahead api Same)
include hhides

/-- Servers that are alike, with as much output waiting, come to the limit at the
same request. -/
theorem hitsLimit_alike {w w' : World σ γ} (h : ServersAlike Same w w') {io io' : Io} {out : Bytes}
    (hout : io.sendBuf.Holds out) (hout' : io'.sendBuf.Holds out) {batch : List Bytes}
    (hdata : ∀ f ∈ batch, DataRequest f) (hhits : HitsLimit api vx cfg (w, io) batch) :
    HitsLimit api vx cfg (w', io') batch := by
  induction batch generalizing w w' io io' out with
  | nil => exact hhits
  | cons f rest ih =>
      by_cases hlt : out.length < outputLimit
      · obtain ⟨w1, w1', io1, io1', answer, hs, hs', halike, -, hholds, hholds', -, -⟩ :=
          serveBuiltin_alike hhides vx cfg h hout hout' hlt hlt
            (hdata f List.mem_cons_self)
        rcases hhits with hnow | ⟨st, hst, hlater⟩
        · rw [hout.used] at hnow
          rw [outputLimit] at hlt
          omega
        · rw [hs] at hst
          cases hst
          exact .inr ⟨_, hs', ih halike hholds hholds'
            (fun g hg => hdata g (List.mem_cons_of_mem _ hg)) hlater⟩
      · refine .inl ?_
        rw [hout'.used]
        rw [outputLimit] at hlt
        omega

/-- One request by itself, on a server that is alike. -/
theorem oneAtATime_alike {w w' : World σ γ} (h : ServersAlike Same w w') {io : Io} {out : Bytes}
    (hout : io.sendBuf.Holds out) (hlt : out.length < outputLimit) {f : Bytes}
    (hreq : DataRequest f) :
    ∃ (w1 w1' : World σ γ) (io1 io1' : Io) (n : Int) (answer : Bytes),
      serveBuiltin api vx cfg (w, io) f = some (w1, io1) ∧
      processMulti api vx cfg w' {} f = some (w1', io1', n) ∧ ServersAlike Same w1 w1' ∧
      answer ≠ [] ∧ io1.sendBuf.Holds (out ++ answer) ∧ bufGetReader io1'.sendBuf = answer ∧
      SameInput io io1 := by
  have hone : ∀ g ∈ [f], DataRequest g := by
    intro g hg
    rw [List.mem_singleton.mp hg]
    exact hreq
  obtain ⟨d, hd, hwhole, hgroup, halike, hsend, -⟩ :=
    dispatchStart_alike hhides h {} fun g hg => (hone g hg).1
  have hempty : d.io.sendBuf.Holds [] := by
    rw [hsend]
    exact Buffer.holds_empty
  obtain ⟨w1, w1', io1, io1', answer, hs, hs', halike', hne, hholds, hholds', hkeep, -⟩ :=
    serveBuiltin_alike hhides vx cfg halike hout hempty hlt (by decide) hreq
  have hserve : serveBatch api vx cfg (d.world, d.io) [f] = some (w1', io1') := by
    rw [serveBatch_cons, hs']
    rfl
  have hmulti := processMulti_serveBatch vx cfg hone hd hwhole hgroup hserve
  rw [List.flatten_singleton] at hmulti
  exact ⟨w1, w1', io1, io1', _, answer, hs, hmulti, halike', hne, hholds, hholds'.reader, hkeep⟩

/-- A batch below the limit is answered as its requests are one at a time, on a
server that is alike. -/
theorem serveBatch_alike {w w' : World σ γ} (h : ServersAlike Same w w') {io : Io} {out : Bytes}
    (hout : io.sendBuf.Holds out) {batch : List Bytes} (hdata : ∀ f ∈ batch, DataRequest f)
    (hfree : ¬ HitsLimit api vx cfg (w, io) batch) :
    ∃ (w1 w1' : World σ γ) (io1 : Io) (responses : Bytes),
      serveBatch api vx cfg (w, io) batch = some (w1, io1) ∧
      oneAtATime api vx cfg w' batch = some (w1', responses) ∧ ServersAlike Same w1 w1' ∧
      (batch ≠ [] → responses ≠ []) ∧ io1.sendBuf.Holds (out ++ responses) ∧ SameInput io io1 := by
  induction batch generalizing w w' io out with
  | nil =>
      refine ⟨w, w', io, [], rfl, rfl, h, fun hne => absurd rfl hne, ?_, ⟨rfl, rfl, rfl⟩⟩
      rw [List.append_nil]
      exact hout
  | cons f rest ih =>
      have hlt := not_hitsLimit_lt api vx cfg hout hfree
      obtain ⟨w1, w1', io1, io1', n, answer, hs, hone, halike, hne, hholds, hreader, hkeep⟩ :=
        oneAtATime_alike vx cfg hhides h hout hlt (hdata f List.mem_cons_self)
      rw [HitsLimit, not_or] at hfree
      obtain ⟨w2, w2', io2, more, hrest, hones, halike', -, hholds', hkeep'⟩ :=
        ih halike hholds (fun g hg => hdata g (List.mem_cons_of_mem _ hg))
          fun hlater => hfree.2 ⟨_, hs, hlater⟩
      refine ⟨w2, w2', io2, answer ++ more, ?_, ?_, halike', ?_, ?_, ?_⟩
      · rw [serveBatch_cons, hs]
        exact hrest
      · simp only [oneAtATime, hone, hones, hreader]
      · exact fun _ hnil => hne (List.append_eq_nil_iff.mp hnil).1
      · rw [← List.append_assoc]
        exact hholds'
      · exact ⟨hkeep'.conn.trans hkeep.conn, hkeep'.requests.trans hkeep.requests,
          hkeep'.recvBuf.trans hkeep.recvBuf⟩

/-- And so it is by `process_multi`, which hints to the engine first. -/
theorem processMulti_alike {w w' : World σ γ} (h : ServersAlike Same w w') {io : Io} {out : Bytes}
    (hout : io.sendBuf.Holds out) {batch : List Bytes} (hdata : ∀ f ∈ batch, DataRequest f)
    (hfree : ¬ HitsLimit api vx cfg (w, io) batch) :
    ∃ (w1 w1' : World σ γ) (io1 : Io) (responses : Bytes),
      processMulti api vx cfg w io batch.flatten
        = some (w1, io1, (batch.flatten.length : Int)) ∧
      oneAtATime api vx cfg w' batch = some (w1', responses) ∧ ServersAlike Same w1 w1' ∧
      (batch ≠ [] → responses ≠ []) ∧ io1.sendBuf.Holds (out ++ responses) ∧
      ∀ held, io.recvBuf.Holds held → io1.recvBuf.Holds held := by
  have hself : ServersAlike Same w w := h.trans hhides (h.symm hhides)
  obtain ⟨d, hd, hwhole, hgroup, halike, hsend, hrecv⟩ :=
    dispatchStart_alike hhides hself io fun f hf => (hdata f hf).1
  have hout' : d.io.sendBuf.Holds out := by
    rw [hsend]
    exact hout
  have hfree' : ¬ HitsLimit api vx cfg (d.world, d.io) batch := fun hhits =>
    hfree (hitsLimit_alike vx cfg hhides (halike.symm hhides) hout' hout hdata hhits)
  obtain ⟨w1, w1', io1, responses, hserve, hones, halike', hne, hholds, hkeep⟩ :=
    serveBatch_alike vx cfg hhides ((halike.symm hhides).trans hhides h) hout' hdata hfree'
  refine ⟨w1, w1', io1, responses, processMulti_serveBatch vx cfg hdata hd hwhole hgroup hserve,
    hones, halike', hne, hholds, fun held hheld => ?_⟩
  rw [hkeep.recvBuf, hrecv]
  exact bufGetWriter_holds hheld io.pool sizeofMcMetadata

/-- One at a time, the limit is never met. -/
theorem oneAtATime_isSome {w : World σ γ} (h : ServersAlike Same w w) {fs : List Bytes}
    (hdata : ∀ f ∈ fs, DataRequest f) :
    ∃ w' responses, oneAtATime api vx cfg w fs = some (w', responses) ∧
        ServersAlike Same w' w' := by
  induction fs generalizing w with
  | nil => exact ⟨w, [], rfl, h⟩
  | cons f rest ih =>
      obtain ⟨w1, w1', io1, io1', n, answer, -, hone, halike, -, -, -, -⟩ :=
        oneAtATime_alike vx cfg hhides h (show ({} : Io).sendBuf.Holds [] from Buffer.holds_empty)
          (by decide)
          (hdata f List.mem_cons_self)
      obtain ⟨w2, more, hones, hself⟩ := ih ((halike.symm hhides).trans hhides halike)
        fun g hg => hdata g (List.mem_cons_of_mem _ hg)
      refine ⟨w2, bufGetReader io1'.sendBuf ++ more, ?_, hself⟩
      simp only [oneAtATime, hone, hones]

omit hhides in
theorem oneAtATime_append (w : World σ γ) (fs gs : List Bytes) :
    oneAtATime api vx cfg w (fs ++ gs)
      = (oneAtATime api vx cfg w fs).bind fun r =>
          (oneAtATime api vx cfg r.1 gs).map fun r' => (r'.1, r.2 ++ r'.2) := by
  induction fs generalizing w with
  | nil =>
      rw [List.nil_append, oneAtATime, Option.bind_some]
      cases oneAtATime api vx cfg w gs with
      | none => rfl
      | some r => rfl
  | cons f rest ih =>
      rw [List.cons_append, oneAtATime, oneAtATime]
      cases processMulti api vx cfg w {} f with
      | none => rfl
      | some r =>
          simp only [ih]
          cases oneAtATime api vx cfg r.1 rest with
          | none => rfl
          | some r' =>
              simp only [Option.bind_some]
              cases oneAtATime api vx cfg r'.1 gs with
              | none => rfl
              | some r'' => simp only [Option.map_some, List.append_assoc]


/-! ## One at a time as a service

What the requests of a stream are answered, one at a time, is a function of the stream;
this is the service the connection is compared with. -/

variable (api) in
/-- What the requests answer one at a time. -/
def responsesOf (w0 : World σ γ) (done : List Bytes) : Bytes :=
  ((oneAtATime api vx cfg w0 done).map Prod.snd).getD []

variable (api Same) in
/-- A server that has been given the requests one at a time, and any server that is
alike. -/
def oneService (w0 : World σ γ) : Service (World σ γ) where
  world := fun done w => ∃ w' responses,
    oneAtATime api vx cfg w0 done = some (w', responses) ∧ ServersAlike Same w w'
  answer := responsesOf api vx cfg w0

omit hhides in
theorem responsesOf_eq {w0 w : World σ γ} {done : List Bytes} {responses : Bytes}
    (h : oneAtATime api vx cfg w0 done = some (w, responses)) :
    responsesOf api vx cfg w0 done = responses := by
  rw [responsesOf, h]
  rfl

variable {w0 : World σ γ} {fs done pend rest : List Bytes} {more out : Bytes}
  {c c' : Conn (World σ γ)}

/-- What is handed over next is served as it should be. -/
theorem WithinLimit.handles (hlimit : WithinLimit api vx cfg c)
    (hdata : ∀ f ∈ fs, DataRequest f) (batch : List Bytes) (hne : batch ≠ [])
    (hbatch : done ++ batch <+: fs) (hover : HandsOver c batch.flatten) :
    Handles (processMulti api vx cfg) (oneService api vx cfg Same w0) c.world
      { c.io with requests := c.io.requests + 1 } done batch := by
  have hdata' : ∀ f ∈ batch, DataRequest f := fun f hf =>
    hdata f (hbatch.subset (List.mem_append_right _ hf))
  rintro out hout ⟨w', responses, hdone, halike⟩
  have hsend : c.io.sendBuf.Holds out := hout
  have hself : ServersAlike Same c.world c.world := halike.trans hhides (halike.symm hhides)
  have hfree : ¬ HitsLimit api vx cfg (c.world, { c.io with requests := c.io.requests + 1 })
      batch := fun hhits =>
    hlimit batch (fun f hf => (hdata' f hf).1) hover
      (hitsLimit_alike vx cfg hhides hself hout hsend hdata' hhits)
  obtain ⟨w1, w1', io1, new, hs, hones, halike', hnew, hholds, hkeep⟩ :=
    processMulti_alike vx cfg hhides halike hout hdata' hfree
  have hall : oneAtATime api vx cfg w0 (done ++ batch) = some (w1', responses ++ new) := by
    rw [oneAtATime_append, hdone, Option.bind_some, hones]
    rfl
  refine ⟨w1, io1, new, hs, ⟨w1', _, hall, halike'⟩, ?_, hnew hne, hholds, hkeep⟩
  show responsesOf api vx cfg w0 _ = responsesOf api vx cfg w0 _ ++ new
  rw [responsesOf_eq vx cfg hall, responsesOf_eq vx cfg hdone]

/-! ## Whole runs

The invariant of `ConnStream` for this service. A connection with nothing left to do has
served every request and sent every answer. -/

variable (api Same) in
/-- The invariant, for some split of the stream. -/
def StreamInv (w0 : World σ γ) (fs : List Bytes) (c : Conn (World σ γ)) : Prop :=
  ∃ done pend rest more out,
    Along (oneService api vx cfg Same w0) fs [] c done pend rest more out

omit hhides in
theorem streamInv_connNew {w : World σ γ} (h : ServersAlike Same w w) (conn : Nat) (pool : Pool)
    (fs : List Bytes) : StreamInv api vx cfg Same w fs (connNew w conn pool fs.flatten) :=
  ⟨[], [], fs, [], [], rfl, ⟨w, [], rfl, h⟩, Buffer.holds_empty, List.append_nil _, rfl, rfl,
    nofun, .inl nofun, Buffer.holds_empty, rfl, rfl, rfl⟩

theorem StreamInv.step (hdata : ∀ f ∈ fs, DataRequest f) (h : StreamInv api vx cfg Same w0 fs c)
    (hs : ServesStep api vx cfg c c') : StreamInv api vx cfg Same w0 fs c' := by
  obtain ⟨done, pend, rest, more, out, h⟩ := h
  obtain ⟨a, ha, hopen, hlimit⟩ := hs
  exact h.step (fun f hf => (hdata f hf).1) (hlimit.handles vx cfg hhides hdata) hopen ha

omit hhides in
/-- With nothing left to do, everything has been served and sent. -/
theorem StreamInv.quiescent (h : StreamInv api vx cfg Same w0 fs c) (hq : Quiescent c)
    (hlast : ∀ f ∈ fs.getLast?, ¬ flagQuiet (mcGetReserved f))
    (hdata : ∀ f ∈ fs, DataRequest f) {w' : World σ γ} {responses : Bytes}
    (hone : oneAtATime api vx cfg w0 fs = some (w', responses)) :
    c.sent = responses ∧ Same c.world.store w'.store ∧ c.io.recvBuf.Holds [] ∧
      c.io.sendBuf.Holds [] ∧ c.quietRecvOff = 0 := by
  obtain ⟨done, pend, rest, more, out, h⟩ := h
  have hpoint := h.point
  rw [hq.pc, hq.mode] at hpoint
  obtain ⟨hout, hsz⟩ := hpoint
  have hcoming := h.coming
  rw [hq.input, List.append_nil, List.append_nil] at hcoming
  have hwf : ∀ f ∈ rest, (wireFraming 0x80).Frame f := by
    intro f hf
    refine (hdata f ?_).1
    rw [h.split]
    exact List.mem_append_right _ hf
  -- nothing is left: a whole request would have been seen
  have hrest : rest = [] := by
    cases hr : rest with
    | nil => rfl
    | cons f rest' =>
        have hf := hwf f (by rw [hr]; exact List.mem_cons_self)
        have hsize : (wireFraming 0x80).size (f ++ rest'.flatten) = f.length :=
          (wireFraming 0x80).size_append hf
        rw [hcoming, hr, List.flatten_cons] at hsz
        have hpos := (wireFraming 0x80).length_pos hf
        have hzero : (wireFraming 0x80).size (f ++ rest'.flatten) = 0 := hsz
        omega
  have hpend : pend = [] := by
    cases hp : pend.getLast? with
    | none => exact List.getLast?_eq_none_iff.mp hp
    | some f =>
        have hfs : fs.getLast? = some f := by
          rw [h.split, hrest, List.append_nil, List.getLast?_append, hp]
          rfl
        exact absurd (h.quiet f (List.mem_of_getLast? hp)) (hlast f (by rw [hfs]; rfl))
  have hdone : fs = done := by rw [h.split, hrest, hpend, List.append_nil, List.append_nil]
  have hsent := h.sent
  rw [hout, List.append_nil] at hsent
  have hheld := h.held
  rw [hcoming, hrest, hpend] at hheld
  obtain ⟨w1, r1, hserved, halike⟩ := h.world
  rw [← hdone, hone] at hserved
  cases hserved
  rw [← hdone] at hsent
  refine ⟨hsent.trans (responsesOf_eq vx cfg hone), halike.store, hheld,
    by rw [← hout]; exact h.send, ?_⟩
  rw [h.off, hpend]
  rfl

/-! ## The run comes to an end

Once the client has sent everything and takes what it is sent, `recv` finds
data as long as there is any and `send` is not refused. -/

/-- The outside does not hold the connection up. -/
def Useful {ω : Type} (c : Conn ω) : ConnAction → Prop
  | .event => c.mode = .onlyRead → c.input ≠ []
  | .recv (.got _) => True
  | .recv .again => c.input = []
  | .send (.sent _) => True
  | .run => True
  | _ => False

omit hhides in
theorem Useful.open {a : ConnAction} (h : Useful c a) : ConnAction.Open a := by
  cases a with
  | event => trivial
  | recv r =>
      cases r with
      | got n => trivial
      | again => trivial
      | eof => exact h
      | error => exact h
  | send r =>
      cases r with
      | sent n => trivial
      | again => trivial
      | error => exact h
  | run => trivial

omit hhides in
variable (api) in
/-- Steps with the socket kept busy. -/
def BusyStep (c c' : Conn (World σ γ)) : Prop :=
  ∃ a, connStep (processMulti api vx cfg) c a = some c' ∧ Useful c a ∧
    WithinLimit api vx cfg c

omit hhides in
theorem BusyStep.serves (h : BusyStep api vx cfg c c') : ServesStep api vx cfg c c' := by
  obtain ⟨a, ha, huse, hlimit⟩ := h
  exact ⟨a, ha, huse.open, hlimit⟩

/-- How far a control point is from the event loop, or from the next `recv` when
there is something to receive. -/
def segRank {ω : Type} (c : Conn ω) : Nat :=
  match c.pc, c.mode with
  | .retryRecv, _ => if c.input = [] then 4 else 2
  | .swallowNextRequest _, _ => if c.input = [] then 3 else 4
  | .eventLoop, .onlyRead => if c.input = [] then 0 else 3
  | .eventLoop, .onlyWrite => 2
  | .connSend, _ => 1
  | .closed, _ => 0

/-- Input to receive, requests to look at, output to send, and then the control
point. -/
def segMeasure {ω : Type} (total : Nat) (c : Conn ω) : Nat :=
  10 * (c.input.length + unread c + (total - c.sent.length)) + segRank c

omit hhides in
theorem segRank_le {ω : Type} (c : Conn ω) : segRank c ≤ 4 := by
  rw [segRank]
  split
  · split <;> omega
  · split <;> omega
  · split <;> omega
  · omega
  · omega
  · omega

/-- No more is sent than the stream will cause. -/
theorem Along.sent_le (h : Along (oneService api vx cfg Same w0) fs [] c done pend rest more out)
    (hdata : ∀ f ∈ fs, DataRequest f) :
    c.sent.length ≤ (responsesOf api vx cfg w0 fs).length := by
  obtain ⟨w1, served, hserved, halike⟩ := h.world
  have hsent : c.sent ++ out = responsesOf api vx cfg w0 done := h.sent
  rw [responsesOf_eq vx cfg hserved] at hsent
  have hlast : ∀ f ∈ pend ++ rest, DataRequest f := by
    intro f hf
    refine hdata f ?_
    rw [h.split, List.append_assoc]
    exact List.mem_append_right _ hf
  obtain ⟨w2, later, hlater, -⟩ :=
    oneAtATime_isSome vx cfg hhides ((halike.symm hhides).trans hhides halike) hlast
  have hall : oneAtATime api vx cfg w0 fs = some (w2, served ++ later) := by
    rw [h.split, List.append_assoc, oneAtATime_append, hserved, Option.bind_some, hlater]
    rfl
  have hlen := congrArg List.length hsent
  rw [List.length_append] at hlen
  rw [responsesOf_eq vx cfg hall, List.length_append]
  omega

theorem segMeasure_lt (hdata : ∀ f ∈ fs, DataRequest f) (h : StreamInv api vx cfg Same w0 fs c)
    (hs : BusyStep api vx cfg c c') :
    segMeasure (responsesOf api vx cfg w0 fs).length c'
      < segMeasure (responsesOf api vx cfg w0 fs).length c := by
  obtain ⟨done, pend, rest, more, out, h⟩ := h
  obtain ⟨a, ha, huse, hlimit⟩ := hs
  have hrank' := segRank_le c'
  have hread := h.unread_eq
  rcases connStep_cases _ ha with ⟨hpc, rfl, rfl⟩ | ⟨r, hpc, rfl, hr⟩ | ⟨written, hpc, -, hr⟩ |
    ⟨r, hpc, rfl, hr⟩ | ⟨hpc, -, hempty, -⟩
  · refine Nat.add_lt_add_left ?_ (10 * (c.input.length + unread c + _))
    rw [segRank, segRank, hpc]
    cases hm : c.mode with
    | onlyRead =>
        have hin : c.input ≠ [] := huse hm
        simp only [if_neg hin]
        omega
    | onlyWrite => simp only []; omega
  · obtain ⟨more', h', hsent, hcase⟩ := h.step_recv hpc huse.open hr
    have hread' := h'.unread_eq
    rcases hcase with hless | ⟨rfl, hin, hpc'⟩
    · rw [segMeasure, segMeasure, hread, hread', hsent]
      omega
    · have hnil : c.input = [] := huse
      rw [segMeasure, segMeasure, hread, hread', hsent, hin, segRank, segRank, hpc, hpc', hin,
        hnil]
      simp only [if_true]
      omega
  · obtain ⟨c1, d, p, rest', mo, o, hs, h', hin, hsent, hcase⟩ :=
      h.step_swallow hpc (fun f hf => (hdata f hf).1)
      (hlimit.handles vx cfg hhides hdata)
    rw [hs] at hr
    cases hr
    have hread' := h'.unread_eq
    rcases hcase with ⟨rfl, hpc', hmode'⟩ | hless
    · rw [segMeasure, segMeasure, hread, hread', hsent, hin]
      refine Nat.add_lt_add_left ?_ _
      rw [segRank, segRank, hpc, hpc', hmode', hin]
      cases written with
      | false =>
          simp only [Bool.false_eq_true, if_false]
          split <;> omega
      | true =>
          simp only [if_true]
          split <;> omega
    · rw [segMeasure, segMeasure, hread, hread', hsent, hin]
      omega
  · obtain ⟨out', h', hin, hcase⟩ := h.step_send hpc huse.open hr
    have hread' := h'.unread_eq
    have hle := Along.sent_le vx cfg hhides h' hdata
    rcases hcase with rfl | hless
    · exact absurd huse id
    · rw [segMeasure, segMeasure, hread, hread', hin]
      omega
  · have hpoint := h.point
    rw [hpc] at hpoint
    rw [h.send.reader] at hempty
    exact absurd (List.length_eq_zero_iff.mp hempty) hpoint

/-- While there is something to do, the connection can go on. -/
theorem StreamInv.busy_or_quiescent (hdata : ∀ f ∈ fs, DataRequest f)
    (h : StreamInv api vx cfg Same w0 fs c) (hlimit : WithinLimit api vx cfg c) :
    (∃ c', BusyStep api vx cfg c c') ∨ Quiescent c := by
  obtain ⟨done, pend, rest, more, out, h⟩ := h
  have hpoint := h.point
  cases hpc : c.pc with
  | eventLoop =>
      have hev : ∃ c', connStep (processMulti api vx cfg) c .event = some c' := by
        unfold connStep
        rw [hpc]
        exact ⟨_, rfl⟩
      obtain ⟨c', hc'⟩ := hev
      cases hm : c.mode with
      | onlyRead =>
          by_cases hin : c.input = []
          · exact .inr ⟨hpc, hm, hin⟩
          · exact .inl ⟨c', .event, hc', fun _ => hin, hlimit⟩
      | onlyWrite =>
          refine .inl ⟨c', .event, hc', fun hread => ?_, hlimit⟩
          rw [hm] at hread
          cases hread
  | retryRecv =>
      have hroom : (0 : Int) < (bufGetWriter c.io.pool c.io.recvBuf 0).2.2 :=
        bufGetWriter_room _ _ _
      by_cases hin : c.input = []
      · have hr : ∃ c', connStep (processMulti api vx cfg) c (.recv .again)
            = some c' := by
          unfold connStep
          rw [hpc]
          exact ⟨_, rfl⟩
        obtain ⟨c', hc'⟩ := hr
        exact .inl ⟨c', .recv .again, hc', hin, hlimit⟩
      · have hlen := List.length_pos_iff.mpr hin
        have hr : ∃ c', connStep (processMulti api vx cfg) c (.recv (.got 1))
            = some c' := by
          unfold connStep
          rw [hpc]
          simp only [connRetryRecv]
          rw [if_pos ⟨by decide, hlen, by omega⟩]
          exact ⟨_, rfl⟩
        obtain ⟨c', hc'⟩ := hr
        exact .inl ⟨c', .recv (.got 1), hc', trivial, hlimit⟩
  | swallowNextRequest written =>
      obtain ⟨c', d, p, r, mo, o, hs, -⟩ := h.step_swallow hpc (fun f hf => (hdata f hf).1)
        (hlimit.handles vx cfg hhides hdata)
      refine .inl ⟨c', .run, ?_, trivial, hlimit⟩
      unfold connStep
      rw [hpc]
      exact hs
  | connSend =>
      rw [hpc] at hpoint
      have hlen := List.length_pos_iff.mpr hpoint
      have hr : ∃ c', connStep (processMulti api vx cfg) c (.send (.sent 1))
          = some c' := by
        unfold connStep
        rw [hpc]
        simp only [connSend, h.send.reader]
        rw [if_neg (by omega), if_pos ⟨by decide, hlen⟩]
        exact ⟨_, rfl⟩
      obtain ⟨c', hc'⟩ := hr
      exact .inl ⟨c', .send (.sent 1), hc', trivial, hlimit⟩
  | closed =>
      rw [hpc] at hpoint
      exact absurd hpoint id

/-! ## Segmentation does not matter

So all quiescent runs have sent the same bytes, and their stores hold the same data. The
example is a bulk of quiet requests with a loud one at its end, on the engine of the
file system. -/

/-- On every run over a stream of data commands that ends with a loud one, and for
every engine whose `readahead` is not seen: when the connection has come to rest it
has sent what the requests answer one at a time and holds nothing back; and, as long
as no request hits the output limit, it comes to rest, after a bounded number of
steps in which the socket is kept busy. -/
theorem connection_segmentation {w : World σ γ} (hstore : Same w.store w.store)
    (hinv : World.Inv w) (conn : Nat) (pool : Pool) (fs : List Bytes)
    (hdata : ∀ f ∈ fs, DataRequest f)
    (hlast : ∀ f ∈ fs.getLast?, ¬ flagQuiet (mcGetReserved f)) :
    ∃ w' responses, oneAtATime api vx cfg w fs = some (w', responses) ∧
      ∀ c, ReflTransGen (ServesStep api vx cfg) (connNew w conn pool fs.flatten) c →
        (Quiescent c → c.sent = responses ∧ Same c.world.store w'.store ∧
          c.io.recvBuf.Holds [] ∧ c.io.sendBuf.Holds [] ∧ c.quietRecvOff = 0) ∧
        ((∀ c', ReflTransGen (ServesStep api vx cfg) c c' → WithinLimit api vx cfg c') →
          (∃ bound, ∀ n c', RunOf (BusyStep api vx cfg) n c c' → n ≤ bound) ∧
          ∀ c', ReflTransGen (BusyStep api vx cfg) c c' → (∀ c'', ¬ BusyStep api vx cfg c' c'') →
            Quiescent c') := by
  have hself : ServersAlike Same w w := ⟨hinv, hinv, hstore, rfl⟩
  obtain ⟨w', responses, hone, -⟩ := oneAtATime_isSome vx cfg hhides hself hdata
  refine ⟨w', responses, hone, fun c hrun => ?_⟩
  have hstream : StreamInv api vx cfg Same w fs c :=
    run_invariant (P := StreamInv api vx cfg Same w fs)
      (fun s t hs hn => StreamInv.step vx cfg hhides hdata hs hn)
      (streamInv_connNew vx cfg hself conn pool fs) hrun
  have hkeep : ∀ s t, StreamInv api vx cfg Same w fs s → BusyStep api vx cfg s t →
      StreamInv api vx cfg Same w fs t :=
    fun s t hs hn => StreamInv.step vx cfg hhides hdata hs (BusyStep.serves vx cfg hn)
  refine ⟨fun hq => hstream.quiescent vx cfg hq hlast hdata hone, fun hlimit => ⟨?_, ?_⟩⟩
  · refine ⟨segMeasure (responsesOf api vx cfg w fs).length c, fun n c' hn => ?_⟩
    have hle := run_length_le hkeep (segMeasure (responsesOf api vx cfg w fs).length)
      (fun s t hs ht => segMeasure_lt vx cfg hhides hdata hs ht) hstream hn
    omega
  · intro c' hbusy hend
    have hserves : ReflTransGen (ServesStep api vx cfg) c c' :=
      ReflTransGen.mono (fun s t hs => BusyStep.serves vx cfg hs) _ _ hbusy
    have hstream' := run_invariant hkeep hstream hbusy
    rcases hstream'.busy_or_quiescent vx cfg hhides hdata (hlimit c' hserves) with ⟨c'', hc''⟩ | hq
    · exact absurd hc'' (hend c'')
    · exact hq

end Segmentation

/-- A quiet store and a quiet read, and the loud request that closes the bulk. -/
def quietBulk : List Bytes :=
  [Request.frame { opcode := memcacheCmdSet, reserved := 1, extras := List.replicate 8 0,
                   key := ascii "a", value := ascii "1" },
   Request.frame { opcode := memcacheCmdGet, reserved := 1, key := ascii "a" },
   Request.frame { opcode := memcacheCmdNoop }]

/-- A server that has just started, over an empty directory. -/
def dataWorld : World FsTree Unit := { store := bareTree (ascii "/data") }

theorem filesFit_bareTree (dir : Bytes) : FilesFit (bareTree dir) := by
  intro p data hp
  rw [find_bareTree] at hp
  split at hp
  · cases hp
  · cases hp

/-- The engine of the file system, in which every file has the same times. -/
def dataEngine : StStorageApi FsTree := storageFs (fun _ => 0) (ascii "/data")

theorem connection_segmentation_quietBulk :
    (∀ f ∈ quietBulk, DataRequest f) ∧
    ∃ w' responses, oneAtATime dataEngine idleVx plainConfig dataWorld quietBulk
        = some (w', responses) ∧
      ∀ c, ReflTransGen (ServesStep dataEngine idleVx plainConfig)
          (connNew dataWorld 0 [] quietBulk.flatten) c →
        Quiescent c → c.sent = responses ∧ c.world.store = w'.store ∧ c.io.recvBuf.Holds [] := by
  have hdata : ∀ f ∈ quietBulk, DataRequest f := by decide
  have hloud : ∀ f ∈ quietBulk.getLast?, ¬ flagQuiet (mcGetReserved f) := by decide
  obtain ⟨w', responses, hone, hall⟩ := connection_segmentation idleVx plainConfig
    (storageFs_hidesReadahead (fun _ => 0) (ascii "/data")) (w := dataWorld)
    ⟨rfl, filesFit_bareTree (ascii "/data")⟩ (World.inv_start _) 0 [] quietBulk hdata hloud
  refine ⟨hdata, w', responses, hone, fun c hrun hq => ?_⟩
  obtain ⟨hsent, hstore, hrecv, -⟩ := (hall c hrun).1 hq
  exact ⟨hsent, hstore.1, hrecv⟩

/-! ## Where the engine is a map -/

section Data

variable {σ γ : Type} (eng : MapEngine σ) (vx : Vx γ) (cfg : Config γ)

/-- The data commands as the service of a stream. -/
def dataService (start : State) : Service (World σ γ) where
  world := fun done w => World.Inv w ∧
    Represents eng w.store (serveRun nextCas start (done.map unpackRequest)).1.map ∧
    w.uniqueNumber = (serveRun nextCas start (done.map unpackRequest)).1.counter
  answer := fun done => bytesOf (serveRun nextCas start (done.map unpackRequest)).2

/-- A batch that answers as its requests do one at a time. -/
theorem handles_data {start : State} {w : World σ γ} {io : Io} {done batch : List Bytes}
    (hne : batch ≠ []) (hdata : ∀ f ∈ batch, DataRequest f)
    (hfree : ∀ out, io.sendBuf.Holds out → (dataService eng start).world done w →
      batchRun nextCas (serveRun nextCas start (done.map unpackRequest)).1 out.length
          (batch.map unpackRequest)
        = serveRun nextCas (serveRun nextCas start (done.map unpackRequest)).1
          (batch.map unpackRequest)) :
    Handles (processMulti eng.toStStorageApi vx cfg) (dataService eng start) w io done batch := by
  intro out hout hworld
  have hrun := hfree out hout hworld
  obtain ⟨hinv, hrep, hcount⟩ := hworld
  obtain ⟨w', io', hs, hrep', hinv', hcount', hout', hkeep⟩ := processMulti_data eng vx cfg
    hrep hinv io hout hdata
  have hstate : (⟨(serveRun nextCas start (done.map unpackRequest)).1.map,
      w.uniqueNumber⟩ : State) = (serveRun nextCas start (done.map unpackRequest)).1 := by
    rw [hcount]
  rw [hstate, hrun] at hrep' hcount' hout'
  have happ := serveRun_append nextCas start (done.map unpackRequest) (batch.map unpackRequest)
  rw [← List.map_append] at happ
  refine ⟨w', io', _, hs, ⟨hinv', ?_, ?_⟩, ?_, ?_, hout', hkeep⟩
  · rw [happ]
    exact hrep'
  · rw [happ]
    exact hcount'
  · show bytesOf _ = bytesOf _ ++ _
    rw [happ, bytesOf_append]
  · intro hnil
    have hlen := le_length_bytesOf (serveRun nextCas (serveRun nextCas start
      (done.map unpackRequest)).1 (batch.map unpackRequest)).2
    rw [hnil, length_serveRun, List.length_map, List.length_nil] at hlen
    exact hne (List.eq_nil_of_length_eq_zero (by omega))

end Data

end Smalltable.Proofs
