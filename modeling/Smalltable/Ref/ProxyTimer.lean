import Smalltable.Ref.ProxyClient

/-!
# The clock of the proxy's client (`common.h`, `proxy_client.c`)

The callbacks once more, with points in time as the code keeps them: `next_retry` is a
`struct timespec`, `do_start` compares it with the time `process_memcache` has read, and
`do_connection_error` is given that time or reads the clock. All that has to do with
buffers is the same.
-/

namespace Smalltable.Ref

/-- `struct timespec` -/
structure Timespec where
  tvSec : Int
  tvNsec : Int
  deriving DecidableEq, Repr

/-- `_NANO` -/
def nano : Int := 1000000000

/-- `TIMESPEC_BEFORE` -/
def timespecBefore (a b : Timespec) : Bool :=
  a.tvSec < b.tvSec ∨ a.tvSec = b.tvSec ∧ a.tvNsec < b.tvNsec

/-- `TIMESPEC_ADD`, without the place of the result. -/
def timespecAdd (b : Timespec) (nsecs : Int) : Timespec :=
  let tvNsec := b.tvNsec + nsecs.tmod nano
  { tvSec := b.tvSec + nsecs.tdiv nano + tvNsec.tdiv nano
    tvNsec := tvNsec.tmod nano }

/-- A call of `do_connection_error`: when, and what the fields were before. -/
structure ConnectionError where
  now : Timespec
  delay : Int
  nextRetry : Timespec
  deriving DecidableEq

/-- An exchange, with `next_retry` as the code has it; that of the exchange is not looked
at. The last field is history. -/
structure TimedExchange where
  exchange : Exchange
  nextRetry : Timespec
  errors : List ConnectionError := []

/-- What the network does at a step. -/
inductive TimedAction where
  /-- what `net_connect` returns -/
  | start (connect : Option Nat)
  | connected (ok : Bool)
  | send (r : SendResult)
  | recv (r : ClientRecv)
  | run
  deriving DecidableEq, Repr

def TimedExchange.keep (c : TimedExchange) (r : Pool × Exchange) : Pool × TimedExchange :=
  (r.1, { c with exchange := r.2 })

/-- The point in time is that of the caller, or read here. It makes no difference to what
is done. -/
def doConnectionErrorAt (now : Timespec) (p : Pool) (c : TimedExchange) :
    Option (Pool × TimedExchange) :=
  let srv := c.exchange.srv
  let prev := c.nextRetry
  (doError p { c.exchange with srv := { srv with
    sd := if srv.sd ≥ 0 then -1 else srv.sd
    delay := min (srv.delay * 2) stServerMaxDelay } }).map fun r =>
      (r.1, { exchange := r.2
              nextRetry := timespecAdd prev srv.delay
              errors := c.errors ++ [⟨now, srv.delay, prev⟩] })

def doStartAt (now : Timespec) (p : Pool) (c : TimedExchange) (connect : Option Nat) :
    Option (Pool × TimedExchange) :=
  let x := c.exchange
  if x.srv.sd < 0 then
    if ¬ timespecBefore c.nextRetry now then (doError p x).map c.keep
    else
      match connect with
      | none => doConnectionErrorAt now p c
      | some sd => some (c.keep (p, { x with pc := .doConnected, srv := { x.srv with sd := sd } }))
  else some (c.keep (p, { x with pc := .doWrite }))

def doConnectedAt (now : Timespec) (p : Pool) (c : TimedExchange) (ok : Bool) :
    Option (Pool × TimedExchange) :=
  if ok then some (c.keep (p, { c.exchange with pc := .doWrite })) else doConnectionErrorAt now p c

def doWriteAt (now : Timespec) (p : Pool) (c : TimedExchange) (r : SendResult) :
    Option (Pool × TimedExchange) :=
  match r with
  | .error => doConnectionErrorAt now p c
  | r => (doWrite p c.exchange r).map c.keep

def doReadAt (now : Timespec) (p : Pool) (c : TimedExchange) (r : ClientRecv) :
    Option (Pool × TimedExchange) :=
  match r with
  | .closed =>
      let x := c.exchange
      let wr := bufGetWriter p x.srv.recvBuf 65536
      doConnectionErrorAt now wr.1
        { c with exchange := { x with srv := { x.srv with recvBuf := wr.2.1 } } }
  | r => (doRead p c.exchange r).map c.keep

def doSwallowAt (now : Timespec) (p : Pool) (c : TimedExchange) : Option (Pool × TimedExchange) :=
  let srv := c.exchange.srv
  let newData := (bufGetReader srv.recvBuf).drop srv.recvOffset.toNat
  if reqbufGetSaneRequestSz newData 0x81 = -1 then doConnectionErrorAt now p c
  else (doSwallow p c.exchange).map c.keep

/-- One step of a chain, at a point in time. -/
def timedStep (now : Timespec) (p : Pool) (c : TimedExchange) (a : TimedAction) :
    Option (Pool × TimedExchange) :=
  match c.exchange.pc, a with
  | .doStart, .start connect => doStartAt now p c connect
  | .doConnected, .connected ok => doConnectedAt now p c ok
  | .doWrite, .send r => doWriteAt now p c r
  | .doRead, .recv r => doReadAt now p c r
  | .swallowNextRequest, .run => doSwallowAt now p c
  | _, _ => none

/-- `process_memcache` has come to the server: its buffers hold what is asked of it now,
and the chain begins. -/
def TimedExchange.call (c : TimedExchange) (srv : Backend) : TimedExchange :=
  { c with exchange := { srv := { srv with
      sd := c.exchange.srv.sd, delay := c.exchange.srv.delay } } }

/-- `new_st_server`, as far as an exchange uses it. -/
def TimedExchange.new (now : Timespec) : TimedExchange :=
  { exchange := { pc := .done, srv := {} }, nextRetry := now }

end Smalltable.Ref
