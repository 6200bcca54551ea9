import Smalltable.Ref.ProxyConfig
import Smalltable.Ref.World

/-!
# The proxy's own commands (`proxy_sys_command.c`)

NOOP and the requests flagged for the proxy are answered by the proxy itself,
into `res_buf` of the configuration. The handlers are found in a table that
ends with NOOP; it has holes, and a hole is called as it is. Anything that
exits or follows a null pointer is `none`.

Saving the new configuration to its file only logs when it fails and is left
out.
-/

namespace Smalltable.Ref.Proxy

inductive Handler where
  | unknown | getConfig | setConfig | stop | start | noop
  deriving DecidableEq, Repr

/-- `cmd_pointers` within its `NELEM`; the holes are `NULL`. -/
def cmdPointers (cmd : UInt8) : Option Handler :=
  if cmd = proxyCmdGetConfig then some .getConfig
  else if cmd = proxyCmdSetConfig then some .setConfig
  else if cmd = proxyCmdStop then some .stop
  else if cmd = proxyCmdStart then some .start
  else if cmd = memcacheCmdNoop then some .noop
  else none

/-- What `process_single` calls. -/
def handlerOf (cmd : UInt8) : Option Handler :=
  if cmd ≤ memcacheCmdNoop then cmdPointers cmd else some .unknown

section Handlers

variable (env : ProxyEnv) (conn : Nat)

/-- What a handler works on: the memory pool, the proxy and the response. -/
abbrev Reply := Pool × ProxyWorld × StRes

def refuse (p : Pool) (w : ProxyWorld) (res : StRes) (status : Nat)
    (errStr : Option Bytes := none) : Option Reply :=
  match setErrorCode res status errStr with
  | none => none
  | some res => some (p, w, res)

def cmdUnknown (p : Pool) (w : ProxyWorld) (_ : StReq) (res : StRes) : Option Reply :=
  refuse p w res memcacheStatusUnknownCommand

def cmdGetConfig (p : Pool) (w : ProxyWorld) (req : StReq) (res : StRes) : Option Reply :=
  if req.extras ≠ [] ∨ req.key ≠ [] ∨ req.value ≠ [] then
    refuse p w res memcacheStatusInvalidArguments
  else
    match configToString env w res.bufSz with
    | none => refuse p w { res with value := some 0 } memcacheStatusValueTooBig
    | some (text, r) =>
        if r < 1 then refuse p w { res with value := some 0 } memcacheStatusValueTooBig
        else
          some (p, w, { res with
            value := some 0
            valueSz := r.toNat
            mem := poke res.mem 0 text })

def notStopped : Bytes := ascii "not stopped"

def cmdSetConfig (p : Pool) (w : ProxyWorld) (req : StReq) (res : StRes) : Option Reply :=
  if req.extras ≠ [] ∨ req.key ≠ [] ∨ req.value = [] then
    refuse p w res memcacheStatusInvalidArguments
  else
    -- pretend to load
    match loadConfigFromString env true w (cString req.value) with
    | none => none
    | some (_, some err) =>
        if (err.length : Int) < res.bufSz then
          some (p, w, { res with
            value := some 0
            valueSz := err.length
            mem := poke res.mem 0 err
            status := memcacheStatusItemNotStored })
        else none
    | some (_, none) =>
        if !w.stopped then refuse p w res memcacheStatusKeyNotFound (some notStopped)
        else
          -- really load
          let flushed := flushConfig p w
          match loadConfigFromString env false flushed.2 (cString req.value) with
          | none => none
          -- Lost previous config. Don't know what to do.
          | some (_, some _) => none
          | some (w, none) => some (flushed.1, w, { res with status := memcacheStatusOk })

/-- `conn__do_for_all`: the flag of every connection but the exception. -/
def connDoForAll (conns : List (Nat × Bool)) (exception : Option Nat) (registered : Bool) :
    List (Nat × Bool) :=
  conns.map fun c => if some c.1 = exception then c else (c.1, registered)

def connStop (w : ProxyWorld) : ProxyWorld :=
  { w with stopped := true, conns := connDoForAll w.conns (some conn) false }

def connStart (w : ProxyWorld) : ProxyWorld :=
  { w with stopped := false, conns := connDoForAll w.conns none true }

def cmdStop (p : Pool) (w : ProxyWorld) (req : StReq) (res : StRes) : Option Reply :=
  if req.extras ≠ [] ∨ req.key ≠ [] ∨ req.value ≠ [] then
    refuse p w res memcacheStatusInvalidArguments
  else some (p, connStop conn w, { res with status := memcacheStatusOk })

def cmdStart (p : Pool) (w : ProxyWorld) (req : StReq) (res : StRes) : Option Reply :=
  if req.extras ≠ [] ∨ req.key ≠ [] ∨ req.value ≠ [] then
    refuse p w res memcacheStatusInvalidArguments
  else if !w.stopped then refuse p w res memcacheStatusKeyNotFound (some notStopped)
  else some (p, connStart w, { res with status := memcacheStatusOk })

def cmdNoop (p : Pool) (w : ProxyWorld) (req : StReq) (res : StRes) : Option Reply :=
  if req.extras ≠ [] ∨ req.key ≠ [] ∨ req.value ≠ [] then
    refuse p w res memcacheStatusInvalidArguments
  else some (p, w, { res with status := memcacheStatusOk })

def callHandler (h : Handler) (p : Pool) (w : ProxyWorld) (req : StReq) (res : StRes) :
    Option Reply :=
  match h with
  | .unknown => cmdUnknown p w req res
  | .getConfig => cmdGetConfig env p w req res
  | .setConfig => cmdSetConfig env p w req res
  | .stop => cmdStop conn p w req res
  | .start => cmdStart p w req res
  | .noop => cmdNoop p w req res

def processSingle (p : Pool) (w : ProxyWorld) (request : Bytes) :
    Option (Pool × ProxyWorld) :=
  let wr := bufGetWriter p w.resBuf maxRequestSize
  match handlerOf (mcGetOpcode request) with
  | none => none
  | some h =>
      match callHandler env conn h wr.1 { w with resBuf := wr.2.1 } (unpackRequest request)
          (prepareRes wr.2.2 request) with
      | none => none
      | some (p, w, res) =>
          match packResponse wr.2.2 res with
          | none => none
          | some produced => some (p, { w with resBuf := bufProduce w.resBuf produced })

end Handlers

end Smalltable.Ref.Proxy
