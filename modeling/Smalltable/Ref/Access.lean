import Mathlib.Logic.Function.Basic
import Smalltable.Ref.Lifecycle

/-!
# What the handlers do to guest memory (`process.c`)

The server reads and writes the memory of a guest through plain pointers. All
that keeps it inside the guest are its own calls of `vxmem_checkperm`. Here are
the handlers once more, as the source has them line by line, with a trace of
the ranges that were granted and of those that are touched. Leaving the trace
out gives back the handlers of `Ref.Process`.

The trace has the newest event first. A process keeps its own, because the
buffer that `st_read_requests` asks about is written when the next group of
requests comes in.
-/

namespace Smalltable.Ref

/-- `granted`: `vxmem_checkperm` has said yes. -/
inductive MemEvent where
  | granted (addr len : Nat) (perm : Perm)
  | touched (addr len : Nat) (perm : Perm)
  deriving DecidableEq, Repr

structure Traced (σ γ : Type) where
  sys : Sys σ γ
  trace : List MemEvent := []

abbrev Handler (σ γ α : Type) := StateT (Traced σ γ) Option α

section Handlers

variable {σ γ : Type} (api : StStorageApi σ) (vx : Vx γ)

def getReg (r : Reg) : Handler σ γ Nat := fun t =>
  some (vx.reg t.sys.guest r, t)

def checkperm (addr len : Nat) (perm : Perm) : Handler σ γ Bool := fun t =>
  if vx.checkperm t.sys.guest addr len perm then
    some (true, { t with trace := .granted addr len perm :: t.trace })
  else some (false, t)

def readMem (addr len : Nat) : Handler σ γ Bytes := fun t =>
  some (vx.read t.sys.guest addr len, { t with trace := .touched addr len .read :: t.trace })

def writeMem (addr : Nat) (bs : Bytes) : Handler σ γ Unit := fun t =>
  some ((), {
    sys := { t.sys with guest := vx.write t.sys.guest addr bs }
    trace := .touched addr bs.length .write :: t.trace })

/-- `read` of `/dev/urandom` -/
def randomMem (addr len : Nat) : Handler σ γ Unit := fun t =>
  some ((), {
    sys := { t.sys with guest := vx.fillRandom t.sys.guest addr len }
    trace := .touched addr len .write :: t.trace })

def getProc (pid : Nat) : Handler σ γ (Process γ) := fun t =>
  match t.sys.world.procs pid with
  | none => none
  | some pr => some (pr, t)

def getStore : Handler σ γ σ := fun t => some (t.sys.world.store, t)

def modifySys (f : Sys σ γ → Sys σ γ) : Handler σ γ Unit := fun t =>
  some ((), { t with sys := f t.sys })

def setNext (next : SyscallRet) : Handler σ γ Unit := modifySys fun s => { s with next := next }

def setProc (pid : Nat) (pr : Process γ) : Handler σ γ Unit :=
  modifySys fun s => { s with world := s.world.setProc pid (some pr) }

def setStore (store : σ) : Handler σ γ Unit :=
  modifySys fun s => { s with world := { s.world with store := store } }

/-- A handler that does not touch the memory. -/
def untraced (f : Sys σ γ → Option (Sys σ γ)) : Handler σ γ Int := fun t =>
  match f t.sys with
  | none => none
  | some s => some (s.ret, { t with sys := s })

/-- `strncpy` may stop before it has read all of the range. -/
def tracedWrite : Handler σ γ Int := do
  let fd := asInt (← getReg vx .edx)
  let addr ← getReg vx .ecx
  let arg3 ← getReg vx .ebx
  let len := asInt arg3
  if fd ≠ 1 ∧ fd ≠ 2 then return minusEinval
  if !(← checkperm vx addr arg3 .read) then return minusEinval
  let buf ← readMem vx addr (minSize 1024 len)
  let str := (cString buf).take (minSize 1023 len)
  if str = [] ∨ str = [0x0A] then return 0
  return len

def tracedReadrequests (pid : Nat) : Handler σ γ Int := do
  let pr ← getProc pid
  if pr.registercnt = 0 then return -1
  let addr ← getReg vx .edx
  let arg2 ← getReg vx .ecx
  let len := asInt arg2
  if !(← checkperm vx addr arg2 .write) then return minusEinval
  if len < maxRequestSize then
    setNext .kill
    return minusEinval
  setProc pid { pr with userBuf := addr, userBufSz := len }
  setNext .yield
  return 0

def tracedWriteresponses (pid : Nat) : Handler σ γ Int := do
  let pr ← getProc pid
  let addr ← getReg vx .edx
  let arg2 ← getReg vx .ecx
  let len := asInt arg2
  if len < 1 then return minusEinval
  if !(← checkperm vx addr arg2 .read) then return minusEinval
  let t ← get
  if pr.sendBuf ≠ some t.sys.io.conn then failure
  let wr := bufGetWriter t.sys.io.pool t.sys.io.sendBuf len
  let res ← readMem vx addr len.toNat
  let pr := { pr with sendSz := pr.sendSz + len }
  modifySys fun s => { s with
    world := s.world.setProc pid (some pr)
    io := { s.io with pool := wr.1, sendBuf := bufProduce wr.2.1 res } }
  if pr.sendSz ≥ maxRequestSize * 3 then
    setNext .kill
    return minusEinval
  return len

def tracedStGet : Handler σ γ Int := do
  let dstAddr ← getReg vx .edx
  let dstSz := asInt (← getReg vx .ecx)
  let keyAddr ← getReg vx .ebx
  let keySz := asInt (← getReg vx .edi)
  if dstSz < 0 ∨ keySz < 0 then return minusEinval
  if !(← checkperm vx dstAddr dstSz.toNat .write) then return minusEinval
  if !(← checkperm vx keyAddr keySz.toNat .read) then return minusEinval
  match api.get (← getStore) dstSz (← readMem vx keyAddr keySz.toNat) with
  | none => return -1
  | some item =>
      writeMem vx dstAddr item
      return item.length

/-- The loop over the key pointers; false when it meets a bad one. -/
def tracedFixKeys (keysAddr keysSzAddr : Nat) : Nat → Nat → Handler σ γ Bool
  | 0, _ => return true
  | n + 1, i => do
      let addr := leVal (← readMem vx (keysAddr + vx.ptrSz * i) vx.ptrSz) % 2 ^ 32
      let sz := leVal (← readMem vx (keysSzAddr + 4 * i) 4)
      if !(← checkperm vx addr sz .read) then return false
      let t ← get
      writeMem vx (keysAddr + vx.ptrSz * i) (leBytes vx.ptrSz (vx.base t.sys.guest + addr))
      tracedFixKeys keysAddr keysSzAddr n (i + 1)

/-- What the engine reads of the size `i` it is handed, and of the key. -/
def tracedHintSize (keysSzAddr i : Nat) : Handler σ γ Nat := do
  return leVal (← readMem vx (keysSzAddr + 4 * i) 4)

def tracedHint (keysAddr sz i : Nat) : Handler σ γ Bytes := do
  let t ← get
  let addr := leVal (← readMem vx (keysAddr + vx.ptrSz * i) vx.ptrSz) - vx.base t.sys.guest
  readMem vx addr sz

/-- `readahead` of the engine on the two arrays. -/
def tracedReadahead (readahead : σ → List Bytes → σ) (keysAddr keysSzAddr n : Nat) :
    Handler σ γ Unit := do
  let sizes ← (List.range n).mapM (tracedHintSize vx keysSzAddr)
  writeMem vx keysSzAddr (api.readaheadSizes sizes)
  let keys ← sizes.zipIdx.mapM fun (sz, i) => tracedHint vx keysAddr sz i
  setStore (readahead (← getStore) keys)

def tracedStPrefetch : Handler σ γ Int := do
  let keysAddr ← getReg vx .edx
  let keysSzAddr ← getReg vx .ecx
  let items := asInt (← getReg vx .ebx)
  if items < 0 then return minusEinval
  if keysAddr = 0 ∧ keysSzAddr = 0 ∧ items = 0 then
    setStore (storagePrefetch api (← getStore) [])
    return 0
  if !(← checkperm vx keysAddr (vx.ptrSz * items.toNat % 2 ^ 32) .readWrite) then
    return minusEinval
  if !(← checkperm vx keysSzAddr (4 * items.toNat % 2 ^ 32) .read) then return minusEinval
  match api.readahead with
  | none => return 0
  | some readahead =>
      if !(← tracedFixKeys vx keysAddr keysSzAddr items.toNat 0) then return minusEinval
      tracedReadahead api vx readahead keysAddr keysSzAddr items.toNat
      writeMem vx keysAddr (List.replicate (vx.ptrSz * items.toNat) 0)
      return 0

def tracedStSet : Handler σ γ Int := do
  let valueAddr ← getReg vx .edx
  let valueSz := asInt (← getReg vx .ecx)
  let keyAddr ← getReg vx .ebx
  let keySz := asInt (← getReg vx .edi)
  if valueSz < 0 ∨ keySz ≤ 0 then return minusEinval
  if !(← checkperm vx valueAddr valueSz.toNat .read) then return minusEinval
  if !(← checkperm vx keyAddr keySz.toNat .read) then return minusEinval
  let r := api.set (← getStore) (← readMem vx valueAddr valueSz.toNat)
    (← readMem vx keyAddr keySz.toNat)
  setStore r.1
  return r.2

def tracedStDel : Handler σ γ Int := do
  let keyAddr ← getReg vx .edx
  let keySz := asInt (← getReg vx .ecx)
  if keySz < 0 then return minusEinval
  if !(← checkperm vx keyAddr keySz.toNat .read) then return minusEinval
  let r := api.del (← getStore) (← readMem vx keyAddr keySz.toNat)
  setStore r.1
  return r.2

def tracedStGetrandom : Handler σ γ Int := do
  let dstAddr ← getReg vx .edx
  let dstSz := asInt (← getReg vx .ecx)
  if dstSz < 0 then return minusEinval
  if !(← checkperm vx dstAddr dstSz.toNat .write) then return minusEinval
  randomMem vx dstAddr dstSz.toNat
  return dstSz

def tracedSyscalls (pid : Nat) : Nat → Handler σ γ Int
  | 0x01 => untraced (syscallExit vx pid)
  | 0x02 => untraced (syscallBrk vx)
  | 0x04 => tracedWrite vx
  | 0xFF00 => untraced (syscallRegister vx pid)
  | 0xFF01 => untraced (syscallUnregister vx pid)
  | 0xFF02 => tracedReadrequests vx pid
  | 0xFF03 => tracedWriteresponses vx pid
  | 0xFF04 => tracedStGet api vx
  | 0xFF05 => tracedStPrefetch api vx
  | 0xFF06 => tracedStSet api vx
  | 0xFF07 => tracedStDel api vx
  | 0xFF08 => tracedStGetrandom vx
  | _ => return minusEinval

/-- `do_syscall`, from the trace the process has so far. -/
def tracedSyscall (pid : Nat) (s : Sys σ γ) (trace : List MemEvent) :
    Option (Sys σ γ × List MemEvent) :=
  match tracedSyscalls api vx pid (vx.reg s.guest .eax)
      { sys := { s with next := .continue }, trace := trace } with
  | none => none
  | some (ret, t) =>
      some ({ t.sys with
        guest := vx.setReg t.sys.guest .eax (ret % 2 ^ 32).toNat
        ret := ret }, t.trace)

/-! ## Traces over the life of the processes -/

structure TracedLife (σ γ : Type) where
  life : Life σ γ
  traces : Nat → List MemEvent := fun _ => []

/-- A new process has a new memory. -/
def nextTraces (t : TracedLife σ γ) : LifeEvent σ γ → Nat → List MemEvent
  | .codeLoad _ _ _ => Function.update t.traces t.life.world.nextProc []
  | .callback _ pid reqBuf =>
      match t.life.world.procs pid with
      | none => t.traces
      | some pr =>
          if pr.userBufSz < reqBuf.length then t.traces
          else
            -- the requests are copied to `user_buf`
            Function.update t.traces pid
              (.touched pr.userBuf reqBuf.length .write :: t.traces pid)
  | .syscall g =>
      match t.life.active with
      | none => t.traces
      | some a =>
          match tracedSyscall api vx a.pid { world := t.life.world, io := a.io, guest := g }
              (t.traces a.pid) with
          | none => t.traces
          | some (_, trace) => Function.update t.traces a.pid trace
  | _ => t.traces

def tracedStep (t : TracedLife σ γ) (e : LifeEvent σ γ) : Option (TracedLife σ γ) :=
  match lifeStep api vx t.life e with
  | none => none
  | some l => some { life := l, traces := nextTraces api vx t e }

def tracedRun (t : TracedLife σ γ) (es : List (LifeEvent σ γ)) : Option (TracedLife σ γ) :=
  runSteps (tracedStep api vx) t es

end Handlers

end Smalltable.Ref
