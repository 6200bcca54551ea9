import Smalltable.Proofs.Deadlock
import Smalltable.Ref.ProxyTimer

/-!
# Backing off

Points in time are compared as numbers of nanoseconds, which is what the macros come to
for times whose `tv_nsec` is a part of a second. The chain of callbacks with its clock is
that of `clientStep`.

Each call of `do_connection_error` puts `next_retry` off by the delay, and nothing else
moves it. So what it promises is a delay from the old `next_retry` on, and that is a
promise of a delay from now on when the old one has not passed; otherwise the next call
of `process_memcache` may connect too early.
-/

namespace Smalltable.Proofs

open Smalltable.Ref

/-! ## Points in time

A point in time has less than a second in its `tv_nsec`, and `TIMESPEC_ADD` keeps that
where the delay is not negative. The comparison is strict, so the first attempt comes a
nanosecond behind `next_retry`; hence the `+ 1` in what follows. -/

/-- `tv_nsec` is a part of a second, as `clock_gettime` has it. -/
structure Timespec.Valid (t : Timespec) : Prop where
  nonneg : 0 ≤ t.tvNsec
  lt : t.tvNsec < nano

/-- The number a point in time is compared by. -/
def Timespec.nsec (t : Timespec) : Int := t.tvSec * nano + t.tvNsec

theorem timespecBefore_iff {a b : Timespec} (ha : Timespec.Valid a) (hb : Timespec.Valid b) :
    timespecBefore a b = true ↔ Timespec.nsec a < Timespec.nsec b := by
  have ha0 := ha.nonneg
  have ha1 := ha.lt
  have hb0 := hb.nonneg
  have hb1 := hb.lt
  rw [timespecBefore, decide_eq_true_eq, Timespec.nsec, Timespec.nsec]
  rw [nano] at *
  omega

theorem timespecAdd_spec {b : Timespec} (hb : Timespec.Valid b) {nsecs : Int} (h : 0 ≤ nsecs) :
    Timespec.nsec (timespecAdd b nsecs) = Timespec.nsec b + nsecs ∧
      Timespec.Valid (timespecAdd b nsecs) := by
  have hb0 := hb.nonneg
  have hmod : 0 ≤ nsecs % nano := Int.emod_nonneg _ (by decide)
  have hsum : 0 ≤ b.tvNsec + nsecs % nano := Int.add_nonneg hb0 hmod
  have hadd : timespecAdd b nsecs
      = { tvSec := b.tvSec + nsecs / nano + (b.tvNsec + nsecs % nano) / nano
          tvNsec := (b.tvNsec + nsecs % nano) % nano } := by
    rw [timespecAdd, Int.tmod_eq_emod_of_nonneg h, Int.tdiv_eq_ediv_of_nonneg h,
      Int.tdiv_eq_ediv_of_nonneg hsum, Int.tmod_eq_emod_of_nonneg hsum]
  rw [hadd]
  refine ⟨?_, Int.emod_nonneg _ (by decide), Int.emod_lt_of_pos _ (by decide)⟩
  simp only [Timespec.nsec, nano]
  omega

/-! ## The same chain without a clock

Nothing but `process_memcache` looks at `next_retry`, and nothing but
`do_connection_error` sets it. So a step with a clock is a step of `clientStep` apart
from this one field, and what is known of the chain can be used of it. -/

/-- `next_retry` as a number of nanoseconds. -/
def viewOf (c : TimedExchange) : Exchange :=
  { c.exchange with srv := { c.exchange.srv with nextRetry := Timespec.nsec c.nextRetry } }

/-- An action as `clientStep` has it, which is told the time as a number. -/
def actionAt (now : Timespec) : TimedAction → ClientAction
  | .start connect => .start (Timespec.nsec now) connect
  | .connected ok => .connected ok
  | .send r => .send r
  | .recv r => .recv r
  | .run => .run

/-- The outcome of a step, seen without the clock. -/
def viewStep (r : Pool × TimedExchange) : Pool × Exchange := (r.1, viewOf r.2)

/-- The field is not looked at. -/
def retryAt (n : Int) (x : Exchange) : Exchange := { x with srv := { x.srv with nextRetry := n } }

/-- `do_error` as the end of its loop. -/
theorem doError_eq (p : Pool) (x : Exchange) : doError p x
    = (forRequests (bufGetReader x.srv.sendBuf) (⟨p, if bufGetUsed x.srv.recvBuf > x.srv.recvOffset
        then bufRollbackProduced x.srv.recvBuf (bufGetUsed x.srv.recvBuf - x.srv.recvOffset)
        else x.srv.recvBuf, 0⟩ : ErrorLoop)
        fun e req => (errorStep x.srv.responses e req).map .yield).map fun e =>
          doDone e.pool { x with
            srv := { x.srv with recvBuf := e.recvBuf }
            failed := some x.srv.responses } := by
  simp only [doError]
  split
  · next h => rw [h, Option.map_none]
  · next h => rw [h, Option.map_some]

theorem doError_retryAt (p : Pool) (x : Exchange) (n : Int) :
    doError p (retryAt n x) = (doError p x).map fun r => (r.1, retryAt n r.2) := by
  rw [doError_eq, doError_eq, Option.map_map]
  rfl

theorem doWrite_retryAt (p : Pool) (x : Exchange) (n : Int) {r : SendResult} (hr : r ≠ .error) :
    doWrite p (retryAt n x) r = (doWrite p x r).map fun r => (r.1, retryAt n r.2) := by
  cases r with
  | error => exact absurd rfl hr
  | again => rfl
  | sent k =>
      simp only [doWrite]
      rw [apply_ite (Option.map _)]
      rfl

theorem doRead_retryAt (p : Pool) (x : Exchange) (n : Int) {r : ClientRecv} (hr : r ≠ .closed) :
    doRead p (retryAt n x) r = (doRead p x r).map fun r => (r.1, retryAt n r.2) := by
  cases r with
  | closed => exact absurd rfl hr
  | again => rfl
  | got bs =>
      simp only [doRead]
      rw [apply_ite (Option.map _)]
      rfl

theorem doSwallow_retryAt (p : Pool) (x : Exchange) (n : Int)
    (hok : reqbufGetSaneRequestSz
      ((bufGetReader x.srv.recvBuf).drop x.srv.recvOffset.toNat) 0x81 ≠ -1) :
    doSwallow p (retryAt n x) = (doSwallow p x).map fun r => (r.1, retryAt n r.2) := by
  rw [doSwallow, doSwallow]
  simp only []
  rw [if_neg hok, apply_ite (Option.map _), apply_ite (Option.map _)]
  exact if_neg hok

section View

variable {now : Timespec} {p : Pool} {c : TimedExchange}

theorem doConnectionErrorAt_view (hretry : Timespec.Valid c.nextRetry)
    (hdelay : 0 ≤ c.exchange.srv.delay) :
    (doConnectionErrorAt now p c).map viewStep = doConnectionError p (viewOf c) := by
  have hadd := (timespecAdd_spec hretry hdelay).1
  have herror := doError_retryAt p { c.exchange with srv := { c.exchange.srv with
    sd := if c.exchange.srv.sd ≥ 0 then -1 else c.exchange.srv.sd
    delay := min (c.exchange.srv.delay * 2) stServerMaxDelay } }
    (Timespec.nsec c.nextRetry + c.exchange.srv.delay)
  rw [doConnectionErrorAt, Option.map_map, doConnectionError]
  refine Eq.trans ?_ herror.symm
  refine congrArg (fun g => Option.map g _) (funext fun r => ?_)
  simp only [Function.comp_apply, viewStep, viewOf, hadd, retryAt]

theorem map_keep_view (r : Option (Pool × Exchange)) : (r.map c.keep).map viewStep
    = r.map fun r => (r.1, retryAt (Timespec.nsec c.nextRetry) r.2) := by
  rw [Option.map_map]
  rfl

/-- A step at a point in time is that of the chain, for times in nanoseconds. -/
theorem timedStep_view (hnow : Timespec.Valid now) (hretry : Timespec.Valid c.nextRetry)
    (hdelay : 0 ≤ c.exchange.srv.delay) (a : TimedAction) :
    (timedStep now p c a).map viewStep = clientStep p (viewOf c) (actionAt now a) := by
  have herror := @doConnectionErrorAt_view now p c hretry hdelay
  have hpc : (viewOf c).pc = c.exchange.pc := rfl
  unfold timedStep clientStep
  rw [hpc]
  generalize c.exchange.pc = pc
  cases pc with
  | doStart =>
      cases a with
      | start connect =>
          have hbefore := timespecBefore_iff hretry hnow
          show (doStartAt now p c connect).map viewStep
            = doStart p (viewOf c) (Timespec.nsec now) connect
          simp only [doStartAt, doStart]
          by_cases hsd : c.exchange.srv.sd < 0
          · rw [if_pos hsd, if_pos (show (viewOf c).srv.sd < 0 from hsd)]
            by_cases hready : timespecBefore c.nextRetry now = true
            · rw [if_neg (not_not.mpr hready),
                if_neg (show ¬ ¬ (viewOf c).srv.nextRetry < Timespec.nsec now from
                  not_not.mpr (hbefore.mp hready))]
              cases connect with
              | none => exact herror
              | some sd => rfl
            · rw [if_pos hready, if_pos (show ¬ (viewOf c).srv.nextRetry < Timespec.nsec now from
                fun hlt => hready (hbefore.mpr hlt)), map_keep_view]
              exact (doError_retryAt p c.exchange _).symm
          · rw [if_neg hsd, if_neg (show ¬ (viewOf c).srv.sd < 0 from hsd)]
            rfl
      | _ => rfl
  | doConnected =>
      cases a with
      | connected ok =>
          cases ok with
          | true => rfl
          | false => exact herror
      | _ => rfl
  | doWrite =>
      cases a with
      | send r =>
          cases r with
          | error => exact herror
          | again => rfl
          | sent n =>
              have hsent : SendResult.sent n ≠ .error := by simp
              exact (map_keep_view _).trans (doWrite_retryAt p c.exchange _ hsent).symm
      | _ => rfl
  | doRead =>
      cases a with
      | recv r =>
          cases r with
          | closed => exact doConnectionErrorAt_view hretry hdelay
          | again => rfl
          | got bs =>
              have hgot : ClientRecv.got bs ≠ .closed := by simp
              exact (map_keep_view _).trans (doRead_retryAt p c.exchange _ hgot).symm
      | _ => rfl
  | swallowNextRequest =>
      cases a with
      | run =>
          show (doSwallowAt now p c).map viewStep = doSwallow p (viewOf c)
          simp only [doSwallowAt]
          by_cases hbroken : reqbufGetSaneRequestSz ((bufGetReader c.exchange.srv.recvBuf).drop
              c.exchange.srv.recvOffset.toNat) 0x81 = -1
          · rw [if_pos hbroken, herror, doSwallow]
            exact (if_pos hbroken).symm
          · rw [if_neg hbroken, map_keep_view]
            exact (doSwallow_retryAt p c.exchange _ hbroken).symm
      | _ => rfl
  | done =>
      cases a with
      | _ => rfl

end View

/-! ## What a step does to the fields of the retry

There are three cases: a step leaves the fields as they are, or it connects, which it
does only when the time has come, or it has failed and goes through
`do_connection_error` once. -/

/-- The connection and the delay are as they were. -/
structure SameRetry (x x' : Exchange) : Prop where
  sd : x'.srv.sd = x.srv.sd
  delay : x'.srv.delay = x.srv.delay

section Same

variable {p p' : Pool} {x x' : Exchange}

theorem doError_same (h : doError p x = some (p', x')) : SameRetry x x' := by
  rw [doError_eq, Option.map_eq_some_iff] at h
  obtain ⟨e, -, he⟩ := h
  cases he
  exact ⟨rfl, rfl⟩

theorem doWrite_same {r : SendResult} (hr : r ≠ .error) (h : doWrite p x r = some (p', x')) :
    SameRetry x x' := by
  cases r with
  | error => exact absurd rfl hr
  | again =>
      cases h
      exact ⟨rfl, rfl⟩
  | sent n =>
      simp only [doWrite] at h
      split at h
      · cases h
        exact ⟨rfl, rfl⟩
      · cases h

theorem doRead_same {r : ClientRecv} (hr : r ≠ .closed) (h : doRead p x r = some (p', x')) :
    SameRetry x x' := by
  cases r with
  | closed => exact absurd rfl hr
  | again =>
      cases h
      exact ⟨rfl, rfl⟩
  | got bs =>
      simp only [doRead] at h
      split at h
      · cases h
        exact ⟨rfl, rfl⟩
      · cases h

theorem doSwallow_same (hok : reqbufGetSaneRequestSz
      ((bufGetReader x.srv.recvBuf).drop x.srv.recvOffset.toNat) 0x81 ≠ -1)
    (h : doSwallow p x = some (p', x')) : SameRetry x x' := by
  simp only [doSwallow, if_neg hok] at h
  split at h
  · cases h
    exact ⟨rfl, rfl⟩
  · split at h
    · cases h
      exact ⟨rfl, rfl⟩
    · cases h
      exact ⟨rfl, rfl⟩

end Same

/-- All that a step does to what decides about the next one. -/
inductive RetryStep (now : Timespec) (c c' : TimedExchange) : Prop where
  | same (hsame : SameRetry c.exchange c'.exchange) (hretry : c'.nextRetry = c.nextRetry)
      (herrors : c'.errors = c.errors)
  | connected (hready : timespecBefore c.nextRetry now = true)
      (hdelay : c'.exchange.srv.delay = c.exchange.srv.delay)
      (hretry : c'.nextRetry = c.nextRetry) (herrors : c'.errors = c.errors)
  | failed (hsd : c'.exchange.srv.sd < 0)
      (hdelay : c'.exchange.srv.delay = min (c.exchange.srv.delay * 2) stServerMaxDelay)
      (hretry : c'.nextRetry = timespecAdd c.nextRetry c.exchange.srv.delay)
      (herrors : c'.errors = c.errors ++ [⟨now, c.exchange.srv.delay, c.nextRetry⟩])

section Retry

variable {now : Timespec} {p p' : Pool} {c c' : TimedExchange}

theorem retryStep_keep {r : Option (Pool × Exchange)}
    (hsame : ∀ q x, r = some (q, x) → SameRetry c.exchange x)
    (h : r.map c.keep = some (p', c')) : RetryStep now c c' := by
  obtain ⟨⟨q, x⟩, hr, heq⟩ := Option.map_eq_some_iff.mp h
  cases heq
  exact .same (hsame q x hr) rfl rfl

theorem retryStep_error (h : doConnectionErrorAt now p c = some (p', c')) :
    RetryStep now c c' := by
  rw [doConnectionErrorAt] at h
  obtain ⟨⟨q, x⟩, hr, heq⟩ := Option.map_eq_some_iff.mp h
  cases heq
  have hsame := doError_same hr
  refine .failed ?_ hsame.delay rfl rfl
  rw [hsame.sd]
  dsimp only
  split
  · decide
  · omega

theorem retryStep_start {connect : Option Nat} (h : doStartAt now p c connect = some (p', c')) :
    RetryStep now c c' := by
  simp only [doStartAt] at h
  split at h
  · split at h
    · exact retryStep_keep (fun _ _ => doError_same) h
    · next hready =>
        cases connect with
        | none => exact retryStep_error h
        | some sd =>
            cases h
            exact .connected (not_not.mp hready) rfl rfl rfl
  · cases h
    exact .same ⟨rfl, rfl⟩ rfl rfl

theorem retryStep_timed {a : TimedAction} (h : timedStep now p c a = some (p', c')) :
    RetryStep now c c' := by
  unfold timedStep at h
  split at h
  · exact retryStep_start h
  · next ok hpc =>
      rw [doConnectedAt] at h
      split at h
      · cases h
        exact .same ⟨rfl, rfl⟩ rfl rfl
      · exact retryStep_error h
  · next r hpc =>
      rw [doWriteAt.eq_def] at h
      split at h
      · exact retryStep_error h
      · next hr => exact retryStep_keep (fun _ _ => doWrite_same hr) h
  · next r hpc =>
      rw [doReadAt.eq_def] at h
      split at h
      · have herror := retryStep_error h
        cases herror with
        | same hsame hretry herrors => exact .same ⟨hsame.sd, hsame.delay⟩ hretry herrors
        | connected hready hdelay hretry herrors => exact .connected hready hdelay hretry herrors
        | failed hsd hdelay hretry herrors => exact .failed hsd hdelay hretry herrors
      · next hr => exact retryStep_keep (fun _ _ => doRead_same hr) h
  · next hpc =>
      simp only [doSwallowAt] at h
      split at h
      · exact retryStep_error h
      · next hok => exact retryStep_keep (fun _ _ => doSwallow_same hok) h
  · cases h

end Retry

/-! ## Runs

A run is any number of chains, one after another, of a backend whose clock does not go
back. The ranges hold in all of them. The promise of a delay holds as long as all errors
so far were in time; and where the last one was not, there is a next call that connects
too early, so that the condition leaves out nothing that is fine (`RetryInv.early`). -/

/-- What becomes of one server, with the time that was read last: `process_memcache` is
called again and again, and its chains go on until they are done. -/
inductive BackendRun : TimedExchange → Timespec → Prop where
  | new {now : Timespec} : Timespec.Valid now → BackendRun (.new now) now
  | call {c c' : TimedExchange} {clock now : Timespec} {p p' : Pool} (srv : Backend)
      {connect : Option Nat} : BackendRun c clock → c.exchange.pc = .done → Timespec.Valid now →
      Timespec.nsec clock ≤ Timespec.nsec now →
      doStartAt now p (c.call srv) connect = some (p', c') → BackendRun c' now
  | callback {c c' : TimedExchange} {clock now : Timespec} {p p' : Pool} {a : TimedAction} :
      BackendRun c clock → Timespec.Valid now → Timespec.nsec clock ≤ Timespec.nsec now →
      timedStep now p c a = some (p', c') → BackendRun c' now

/-- When the error comes, the time to retry has not passed. -/
def ConnectionError.InTime (e : ConnectionError) : Prop :=
  Timespec.nsec e.now ≤ Timespec.nsec e.nextRetry + 1

/-- The delay that the error asks for is over. -/
def ConnectionError.due (e : ConnectionError) : Int := Timespec.nsec e.now + e.delay

/-- Before the delay of an error is over, every call is answered with errors, and there is
no attempt to connect. -/
def BacksOff (c : TimedExchange) (clock : Timespec) : Prop :=
  ∀ e ∈ c.errors, ∀ now, Timespec.Valid now → Timespec.nsec clock ≤ Timespec.nsec now →
    Timespec.nsec now < ConnectionError.due e → ∀ p srv connect,
      doStartAt now p (c.call srv) connect
        = (doError p (c.call srv).exchange).map (c.call srv).keep

/-- The fields are in their ranges, the last error has set them, and while all errors were
in time the delays end before the next attempt. -/
structure RetryInv (c : TimedExchange) (clock : Timespec) : Prop where
  time : Timespec.Valid clock
  retry : Timespec.Valid c.nextRetry
  least : stServerMinDelay ≤ c.exchange.srv.delay
  most : c.exchange.srv.delay ≤ stServerMaxDelay
  last : ∀ e, c.errors.getLast? = some e →
    0 ≤ e.delay ∧ Timespec.Valid e.nextRetry ∧ c.nextRetry = timespecAdd e.nextRetry e.delay
  due : (∀ e ∈ c.errors, ConnectionError.InTime e) →
    (∀ e ∈ c.errors, ConnectionError.due e ≤ Timespec.nsec c.nextRetry + 1) ∧
      (0 ≤ c.exchange.srv.sd → ∀ e ∈ c.errors, ConnectionError.due e ≤ Timespec.nsec clock)

theorem retryInv_new {now : Timespec} (hnow : Timespec.Valid now) : RetryInv (.new now) now :=
  ⟨hnow, hnow, Int.le_refl _, (by decide : stServerMinDelay ≤ stServerMaxDelay), nofun,
    fun _ => ⟨nofun, fun _ => nofun⟩⟩

theorem RetryInv.step {c c' : TimedExchange} {clock now : Timespec} (h : RetryInv c clock)
    (hnow : Timespec.Valid now) (hle : Timespec.nsec clock ≤ Timespec.nsec now)
    (hs : RetryStep now c c') : RetryInv c' now := by
  cases hs with
  | same hsame hretry herrors =>
      refine ⟨hnow, by rw [hretry]; exact h.retry, by rw [hsame.delay]; exact h.least,
        by rw [hsame.delay]; exact h.most, by rw [hretry, herrors]; exact h.last, fun hin => ?_⟩
      rw [herrors] at hin ⊢
      obtain ⟨hdue, hconn⟩ := h.due hin
      rw [hretry, hsame.sd]
      exact ⟨hdue, fun hsd e he => Int.le_trans (hconn hsd e he) hle⟩
  | connected hready hdelay hretry herrors =>
      refine ⟨hnow, by rw [hretry]; exact h.retry, by rw [hdelay]; exact h.least,
        by rw [hdelay]; exact h.most, by rw [hretry, herrors]; exact h.last, fun hin => ?_⟩
      rw [herrors] at hin ⊢
      obtain ⟨hdue, -⟩ := h.due hin
      rw [hretry]
      have hlt := (timespecBefore_iff h.retry hnow).mp hready
      refine ⟨hdue, fun _ e he => ?_⟩
      have hd := hdue e he
      omega
  | failed hsd hdelay hretry herrors =>
      have hleast := h.least
      have hpos : 0 ≤ c.exchange.srv.delay := Int.le_trans (by decide) hleast
      obtain ⟨hnsec, hvalid⟩ := timespecAdd_spec h.retry hpos
      refine ⟨hnow, by rw [hretry]; exact hvalid, ?_, ?_, fun e he => ?_, fun hin => ⟨?_, ?_⟩⟩
      · rw [stServerMinDelay] at hleast
        rw [hdelay, stServerMinDelay, stServerMaxDelay]
        omega
      · rw [hdelay]
        exact Int.min_le_right _ _
      · rw [herrors, List.getLast?_append, List.getLast?_singleton, Option.some_or,
          Option.some.injEq] at he
        rw [← he]
        exact ⟨hpos, h.retry, hretry⟩
      · rw [herrors] at hin ⊢
        intro e he
        rw [hretry, hnsec]
        rcases List.mem_append.mp he with hold | hnew
        · have hd := (h.due fun e he => hin e (List.mem_append_left _ he)).1 e hold
          omega
        · have hlast : Timespec.nsec now ≤ Timespec.nsec c.nextRetry + 1 :=
            hin _ (List.mem_append_right _ (List.mem_singleton_self _))
          rw [List.mem_singleton.mp hnew]
          show Timespec.nsec now + c.exchange.srv.delay ≤ _
          omega
      · intro hbad
        omega

theorem BackendRun.inv {c : TimedExchange} {clock : Timespec} (h : BackendRun c clock) :
    RetryInv c clock := by
  induction h with
  | new hnow => exact retryInv_new hnow
  | call srv hrun hpc hnow hle hs ih =>
      have hcall : RetryInv (TimedExchange.call _ srv) _ :=
        ⟨ih.time, ih.retry, ih.least, ih.most, ih.last, ih.due⟩
      exact hcall.step hnow hle (retryStep_start hs)
  | callback hrun hnow hle hs ih => exact ih.step hnow hle (retryStep_timed hs)

/-- While the time to retry has not come, there is no attempt to connect. -/
theorem RetryInv.backsOff {c : TimedExchange} {clock : Timespec} (h : RetryInv c clock)
    (hin : ∀ e ∈ c.errors, ConnectionError.InTime e) : BacksOff c clock := by
  intro e he now hnow hle hlt p srv connect
  obtain ⟨hdue, hconn⟩ := h.due hin
  have hd := hdue e he
  have hsd : c.exchange.srv.sd < 0 := by
    by_contra hsd
    have hc := hconn (Int.not_lt.mp hsd) e he
    omega
  have hnot : ¬ timespecBefore c.nextRetry now = true := by
    rw [timespecBefore_iff h.retry hnow]
    omega
  have hsd' : (c.call srv).exchange.srv.sd < 0 := hsd
  have hnot' : ¬ timespecBefore (c.call srv).nextRetry now = true := hnot
  simp only [doStartAt, if_pos hsd', if_pos hnot']

/-- Where the time to retry had passed when the last error came, a call can come too
early. -/
theorem RetryInv.early {c : TimedExchange} {clock : Timespec} (h : RetryInv c clock)
    {e : ConnectionError} (hlast : c.errors.getLast? = some e) (hlate : ¬ ConnectionError.InTime e)
    (hclock : Timespec.nsec clock < ConnectionError.due e) : ¬ BacksOff c clock := by
  intro hback
  obtain ⟨hdelay, hvalid, hretry⟩ := h.last e hlast
  have hnsec := (timespecAdd_spec hvalid hdelay).1
  -- one nanosecond before the delay is over
  let n := ConnectionError.due e - 1
  let now : Timespec := ⟨n / nano, n % nano⟩
  have hnow : Timespec.Valid now :=
    ⟨Int.emod_nonneg _ (by decide), Int.emod_lt_of_pos _ (by decide)⟩
  have hnowSec : Timespec.nsec now = ConnectionError.due e - 1 := by
    show n / nano * nano + n % nano = n
    rw [nano]
    omega
  have hstart := hback e (List.mem_of_getLast? hlast) now hnow (by omega) (by omega) [] getAndNoop
    (some 0)
  have hready : timespecBefore c.nextRetry now = true := by
    rw [timespecBefore_iff h.retry hnow, hretry, hnsec, hnowSec, ConnectionError.due]
    rw [ConnectionError.InTime] at hlate
    omega
  have hpc : ∀ q c', doStartAt now [] (c.call getAndNoop) (some 0) = some (q, c') →
      c'.exchange.pc = .done := by
    intro q c' h
    rw [hstart, Option.map_eq_some_iff] at h
    obtain ⟨⟨q', x'⟩, herror, heq⟩ := h
    cases heq
    exact doError_pc herror
  by_cases hsd : (c.call getAndNoop).exchange.srv.sd < 0
  · have hconnect := hpc [] _ (by
      simp only [doStartAt, if_pos hsd, if_neg (not_not.mpr (show timespecBefore
        (c.call getAndNoop).nextRetry now = true from hready))]
      rfl)
    cases hconnect
  · have hwrite := hpc [] _ (by
      simp only [doStartAt, if_neg hsd]
      rfl)
    cases hwrite

/-- The delay and `next_retry` keep their ranges. While every error comes before the time to
retry has passed, each delay is kept, and after one that does not it can be missed. -/
theorem backsOff_run {c : TimedExchange} {clock : Timespec} (h : BackendRun c clock) :
    (stServerMinDelay ≤ c.exchange.srv.delay ∧ c.exchange.srv.delay ≤ stServerMaxDelay ∧
      0 ≤ c.nextRetry.tvNsec ∧ c.nextRetry.tvNsec < nano) ∧
    ((∀ e ∈ c.errors, ConnectionError.InTime e) → BacksOff c clock) ∧
    ∀ e, c.errors.getLast? = some e → ¬ ConnectionError.InTime e →
      Timespec.nsec clock < ConnectionError.due e → ¬ BacksOff c clock := by
  have hinv := h.inv
  refine ⟨⟨hinv.least, hinv.most, hinv.retry.nonneg, hinv.retry.lt⟩, hinv.backsOff, ?_⟩
  intro e hlast hlate hclock
  exact hinv.early hlast hlate hclock

/-- The server is new at time 0, and its first connection is refused at `now`. -/
theorem run_refused {now : Timespec} (hnow : Timespec.Valid now)
    (hpos : 0 < Timespec.nsec now) :
    ∃ p c, doStartAt now [] ((TimedExchange.new ⟨0, 0⟩).call getAndNoop) none = some (p, c) ∧
      BackendRun c now ∧ c.errors = [⟨now, stServerMinDelay, ⟨0, 0⟩⟩] := by
  have hzero : Timespec.Valid ⟨0, 0⟩ := ⟨Int.le_refl 0, (by decide : (0 : Int) < nano)⟩
  have hready : timespecBefore ⟨0, 0⟩ now = true := (timespecBefore_iff hzero hnow).mpr hpos
  have hprep : Prepared [getRequest "a", noop]
      { getAndNoop with sd := -1, delay := min (stServerMinDelay * 2) stServerMaxDelay } := by
    have h := prepared_getAndNoop
    exact ⟨h.wf, h.last, h.send, h.recv, h.requests, h.responses, h.sendOffset, h.recvOffset⟩
  obtain ⟨p, x, herror, -⟩ := hprep.inFlight.doError hprep.wf []
  have hstart : doStartAt now [] ((TimedExchange.new ⟨0, 0⟩).call getAndNoop) none
      = some (p, { exchange := x, nextRetry := timespecAdd ⟨0, 0⟩ stServerMinDelay
                   errors := [⟨now, stServerMinDelay, ⟨0, 0⟩⟩] }) := by
    have herror' : doConnectionErrorAt now [] ((TimedExchange.new ⟨0, 0⟩).call getAndNoop)
        = (doError [] { srv := { getAndNoop with
            sd := -1, delay := min (stServerMinDelay * 2) stServerMaxDelay } }).map fun r =>
          (r.1, { exchange := r.2, nextRetry := timespecAdd ⟨0, 0⟩ stServerMinDelay
                  errors := [⟨now, stServerMinDelay, ⟨0, 0⟩⟩] }) := rfl
    have hsd : ((TimedExchange.new ⟨0, 0⟩).call getAndNoop).exchange.srv.sd < 0 := by decide
    have hready' : ¬ ¬ timespecBefore ((TimedExchange.new ⟨0, 0⟩).call getAndNoop).nextRetry now
        = true := not_not.mpr hready
    simp only [doStartAt, if_pos hsd, if_neg hready']
    rw [herror', herror, Option.map_some]
  exact ⟨p, _, hstart, .call getAndNoop (.new hzero) rfl hnow (Int.le_of_lt hpos) hstart, rfl⟩

theorem backsOff_run_refused : ∃ p c,
    doStartAt ⟨0, 1⟩ [] ((TimedExchange.new ⟨0, 0⟩).call getAndNoop) none = some (p, c) ∧
      BacksOff c ⟨0, 1⟩ := by
  obtain ⟨p, c, hstart, hrun, herrors⟩ :=
    @run_refused ⟨0, 1⟩ ⟨by decide, by decide⟩ (by decide)
  refine ⟨p, c, hstart, (backsOff_run hrun).2.1 ?_⟩
  rw [herrors]
  intro e he
  rw [List.mem_singleton.mp he]
  exact (by decide : Timespec.nsec ⟨0, 1⟩ ≤ Timespec.nsec ⟨0, 0⟩ + 1)

/-- A server that is first asked for something after ten seconds is asked again at once. -/
theorem backsOff_idle : ∃ p c,
    doStartAt ⟨10, 0⟩ [] ((TimedExchange.new ⟨0, 0⟩).call getAndNoop) none = some (p, c) ∧
      BackendRun c ⟨10, 0⟩ ∧ ¬ BacksOff c ⟨10, 0⟩ := by
  obtain ⟨p, c, hstart, hrun, herrors⟩ :=
    @run_refused ⟨10, 0⟩ ⟨by decide, by decide⟩ (by decide)
  refine ⟨p, c, hstart, hrun, hrun.inv.early (by rw [herrors]; rfl) ?_ ?_⟩
  · exact (by decide : ¬ Timespec.nsec ⟨10, 0⟩ ≤ Timespec.nsec ⟨0, 0⟩ + 1)
  · exact (by decide : Timespec.nsec ⟨10, 0⟩ < Timespec.nsec ⟨10, 0⟩ + stServerMinDelay)

end Smalltable.Proofs
