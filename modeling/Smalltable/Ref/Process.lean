import Smalltable.Ref.Common
import Smalltable.Ref.World

/-!
# Sandboxed processes (`process.c`)

A process is a program running in the vx32 sandbox. The sandbox is a library
of its own and appears here as an interface, `Vx`: run the guest until it
traps, read and write its registers and memory, ask whether an address range
is accessible. What the guest does is arbitrary. Everything the server does in
answer to a trap is modelled: the twelve system calls, the loop that serves
them with its limits, and the callback that hands a group of requests to the
process and, when the process misbehaves, answers them with errors and kills
it.

Handlers thread the world, the connection's buffers and the guest. `none` is
undefined behaviour of the server itself, a write through a null or foreign
`send_buf` or a pointer to a freed process.
-/

namespace Smalltable.Ref

inductive Reg where
  | eax | edx | ecx | ebx | edi
  deriving DecidableEq, Repr

/-- What `vxproc_run` can return. -/
inductive Trap where
  | syscall | irq | pagefault | other
  deriving DecidableEq, Repr

inductive Perm where
  | read | write | readWrite
  deriving DecidableEq, Repr

/-- The part of libvx32 that the server calls. Lengths and addresses are the
32-bit values the calls take. -/
structure Vx (γ : Type) where
  run : γ → Trap × γ
  reg : γ → Reg → Nat
  setReg : γ → Reg → Nat → γ
  checkperm : γ → Nat → Nat → Perm → Bool
  read : γ → Nat → Nat → Bytes
  write : γ → Nat → Bytes → γ
  /-- `m->size` -/
  memSize : γ → Nat
  /-- `vxmem_resize` -/
  resize : γ → Nat → Option γ
  /-- `vxmem_setperm` of a new range to read and write -/
  setperm : γ → Nat → Nat → Option γ
  /-- `read` of `/dev/urandom` into guest memory -/
  fillRandom : γ → Nat → Nat → γ
  /-- host address at which the guest's memory starts, and size of a pointer -/
  base : γ → Nat
  ptrSz : Nat
  length_read : ∀ g addr n, (read g addr n).length = n

/-- The configuration of the server and its dealings with the compiler. -/
structure Config (γ : Type) where
  vx32Disabled : Bool := false
  syscallLimit : Int := 4
  tmpdir : Bytes := ascii "/tmp"
  /-- the compiler command made from the names of elf, c and log file -/
  gccCommand : Bytes → Bytes → Bytes → Bytes
  /-- the error text when a source file cannot be written -/
  writeFile : Bytes → Bytes → Option Bytes
  /-- the result of running a command over a source text, and the log it leaves -/
  system : Bytes → Bytes → Int × Option Bytes
  /-- `process_load` of the program compiled from a source text -/
  loadElf : Bytes → Bytes → Option γ

inductive SyscallRet where
  | continue | yield | exit | kill
  deriving DecidableEq, Repr

/-- `-EINVAL` -/
def minusEinval : Int := -22

/-- State of one system call: the world with the calling process in it, the
connection, the guest; and, after it, the return value and what to do next. -/
structure Sys (σ γ : Type) where
  world : World σ γ
  io : Io
  guest : γ
  ret : Int := 0
  next : SyscallRet := .continue

section Syscalls

variable {σ γ : Type} (api : StStorageApi σ) (vx : Vx γ)

def withProc (s : Sys σ γ) (pid : Nat) (f : Process γ → Option (Sys σ γ)) :
    Option (Sys σ γ) :=
  match s.world.procs pid with
  | none => none
  | some pr => f pr

def syscallExit (pid : Nat) (s : Sys σ γ) : Option (Sys σ γ) :=
  withProc s pid fun pr =>
    let code := asInt (vx.reg s.guest .edx)
    some { s with
      world := s.world.setProc pid (some { pr with exitCode := code })
      ret := 0
      next := .exit }

def syscallBrk (s : Sys σ γ) : Option (Sys σ γ) :=
  let inc := 2 ^ 20
  let addr := (vx.reg s.guest .edx + inc - 1) % 2 ^ 32 / inc * inc
  let oaddr := vx.memSize s.guest
  if addr = oaddr then some { s with ret := 0 }
  else if addr > oaddr then
    match vx.resize s.guest addr with
    | none => some { s with ret := -1, next := .kill }
    | some g =>
        match vx.setperm g oaddr (addr - oaddr) with
        | none => some { s with guest := g, ret := -1, next := .kill }
        | some g => some { s with guest := g, ret := 0 }
  else some { s with ret := 0 }

/-- `MIN` of the unsigned buffer size and a signed length. -/
def minSize (sz : Nat) (len : Int) : Nat :=
  if len < 0 then sz else min sz len.toNat

def syscallWrite (s : Sys σ γ) : Option (Sys σ γ) :=
  let fd := asInt (vx.reg s.guest .edx)
  let addr := vx.reg s.guest .ecx
  let len := asInt (vx.reg s.guest .ebx)
  if fd ≠ 1 ∧ fd ≠ 2 then some { s with ret := minusEinval }
  else if !vx.checkperm s.guest addr (vx.reg s.guest .ebx) .read then
    some { s with ret := minusEinval }
  else
    let str := (cString (vx.read s.guest addr (minSize 1024 len))).take (minSize 1023 len)
    -- a message that is empty, or only a line feed, is not logged
    if str = [] ∨ str = [0x0A] then some { s with ret := 0 } else some { s with ret := len }

/-- The slot changes hands: the process that loses its last command is freed,
one that keeps others is only counted down. -/
def dropLooser (w : World σ γ) (pid : Nat) (entry : CmdEntry) : Option (World σ γ) :=
  match entry.ptr with
  | .process looser =>
      if looser = pid then some w
      else
        match w.procs looser with
        | none => none
        | some pr =>
            if pr.registercnt = 1 then some (w.processFree looser)
            else some (w.setProc looser (some { pr with registercnt := pr.registercnt - 1 }))
  | _ => some w

def syscallRegister (pid : Nat) (s : Sys σ γ) : Option (Sys σ γ) :=
  let cmd := asInt (vx.reg s.guest .edx)
  let flags := vx.reg s.guest .ecx
  if cmd < 0 ∨ cmd > 255 then some { s with ret := -1 }
  else
    let cmd := cmd.toNat.toUInt8
    match dropLooser s.world pid (commandGet s.world.cmdPointers cmd) with
    | none => none
    | some w =>
        match w.procs pid with
        | none => none
        | some pr =>
            let r := commandRegister w.cmdPointers cmd flags pid
            if r.2 = 0 then
              some { s with
                world := { w.setProc pid (some { pr with registercnt := pr.registercnt + 1 })
                  with cmdPointers := r.1 }
                ret := r.2 }
            else some { s with world := w, ret := r.2 }

def syscallUnregister (pid : Nat) (s : Sys σ γ) : Option (Sys σ γ) :=
  let cmd := asInt (vx.reg s.guest .edx)
  if cmd < 0 ∨ cmd > 255 then some { s with ret := -1 }
  else
    let cmd := cmd.toNat.toUInt8
    if (commandGet s.world.cmdPointers cmd).ptr ≠ .process pid then some { s with ret := -1 }
    else
      withProc s pid fun pr =>
        some { s with
          world := { s.world.setProc pid (some { pr with registercnt := pr.registercnt - 1 })
            with cmdPointers := commandUnregister s.world.cmdPointers cmd }
          ret := 0 }

def syscallReadrequests (pid : Nat) (s : Sys σ γ) : Option (Sys σ γ) :=
  withProc s pid fun pr =>
    if pr.registercnt = 0 then some { s with ret := -1 }
    else
      let addr := vx.reg s.guest .edx
      let len := asInt (vx.reg s.guest .ecx)
      if !vx.checkperm s.guest addr (vx.reg s.guest .ecx) .write then
        some { s with ret := minusEinval }
      else if len < maxRequestSize then some { s with ret := minusEinval, next := .kill }
      else
        some { s with
          world := s.world.setProc pid (some { pr with userBuf := addr, userBufSz := len })
          ret := 0
          next := .yield }

def syscallWriteresponses (pid : Nat) (s : Sys σ γ) : Option (Sys σ γ) :=
  withProc s pid fun pr =>
    let addr := vx.reg s.guest .edx
    let len := asInt (vx.reg s.guest .ecx)
    if len < 1 then some { s with ret := minusEinval }
    else if !vx.checkperm s.guest addr (vx.reg s.guest .ecx) .read then
      some { s with ret := minusEinval }
    else if pr.sendBuf ≠ some s.io.conn then none
    else
      let wr := bufGetWriter s.io.pool s.io.sendBuf len
      let io := { s.io with
        pool := wr.1
        sendBuf := bufProduce wr.2.1 (vx.read s.guest addr len.toNat) }
      let pr := { pr with sendSz := pr.sendSz + len }
      let world := s.world.setProc pid (some pr)
      if pr.sendSz ≥ maxRequestSize * 3 then
        some { s with world := world, io := io, ret := minusEinval, next := .kill }
      else some { s with world := world, io := io, ret := len }

def syscallStGet (s : Sys σ γ) : Option (Sys σ γ) :=
  let dstAddr := vx.reg s.guest .edx
  let dstSz := asInt (vx.reg s.guest .ecx)
  let keyAddr := vx.reg s.guest .ebx
  let keySz := asInt (vx.reg s.guest .edi)
  if dstSz < 0 ∨ keySz < 0 then some { s with ret := minusEinval }
  else if !vx.checkperm s.guest dstAddr dstSz.toNat .write then
    some { s with ret := minusEinval }
  else if !vx.checkperm s.guest keyAddr keySz.toNat .read then
    some { s with ret := minusEinval }
  else
    match api.get s.world.store dstSz (vx.read s.guest keyAddr keySz.toNat) with
    | none => some { s with ret := -1 }
    | some item => some { s with guest := vx.write s.guest dstAddr item, ret := item.length }

/-- The loop of `syscall_st_prefetch` that turns the guest's key pointers into
host pointers, in place. `none` when one of them is not readable. -/
def fixKeyPointers (keysAddr keysSzAddr : Nat) : Nat → Nat → γ → Option γ × γ
  | 0, _, g => (some g, g)
  | n + 1, i, g =>
      let addr := leVal (vx.read g (keysAddr + vx.ptrSz * i) vx.ptrSz) % 2 ^ 32
      let sz := leVal (vx.read g (keysSzAddr + 4 * i) 4)
      if !vx.checkperm g addr sz .read then (none, g)
      else
        let g := vx.write g (keysAddr + vx.ptrSz * i) (leBytes vx.ptrSz (vx.base g + addr))
        fixKeyPointers keysAddr keysSzAddr n (i + 1) g

/-- The sizes the engine is then handed. -/
def hintedSizes (g : γ) (keysSzAddr n : Nat) : List Nat :=
  (List.range n).map fun i => leVal (vx.read g (keysSzAddr + 4 * i) 4)

/-- The keys of these sizes that it finds behind the pointers. -/
def hintedKeys (g : γ) (keysAddr : Nat) (sizes : List Nat) : List Bytes :=
  sizes.zipIdx.map fun (sz, i) =>
    vx.read g (leVal (vx.read g (keysAddr + vx.ptrSz * i) vx.ptrSz) - vx.base g) sz

def syscallStPrefetch (s : Sys σ γ) : Option (Sys σ γ) :=
  let keysAddr := vx.reg s.guest .edx
  let keysSzAddr := vx.reg s.guest .ecx
  let items := asInt (vx.reg s.guest .ebx)
  if items < 0 then some { s with ret := minusEinval }
  else if keysAddr = 0 ∧ keysSzAddr = 0 ∧ items = 0 then
    some { s with
      world := { s.world with store := storagePrefetch api s.world.store [] }
      ret := 0 }
  else if !vx.checkperm s.guest keysAddr (vx.ptrSz * items.toNat % 2 ^ 32) .readWrite then
    some { s with ret := minusEinval }
  else if !vx.checkperm s.guest keysSzAddr (4 * items.toNat % 2 ^ 32) .read then
    some { s with ret := minusEinval }
  else
    match api.readahead with
    | none => some { s with ret := 0 }
    | some readahead =>
        match fixKeyPointers vx keysAddr keysSzAddr items.toNat 0 s.guest with
        | (none, g) => some { s with guest := g, ret := minusEinval }
        | (some g, _) =>
            let sizes := hintedSizes vx g keysSzAddr items.toNat
            let g := vx.write g keysSzAddr (api.readaheadSizes sizes)
            some { s with
              world := { s.world with
                store := readahead s.world.store (hintedKeys vx g keysAddr sizes) }
              guest := vx.write g keysAddr (List.replicate (vx.ptrSz * items.toNat) 0)
              ret := 0 }

def syscallStSet (s : Sys σ γ) : Option (Sys σ γ) :=
  let valueAddr := vx.reg s.guest .edx
  let valueSz := asInt (vx.reg s.guest .ecx)
  let keyAddr := vx.reg s.guest .ebx
  let keySz := asInt (vx.reg s.guest .edi)
  if valueSz < 0 ∨ keySz ≤ 0 then some { s with ret := minusEinval }
  else if !vx.checkperm s.guest valueAddr valueSz.toNat .read then
    some { s with ret := minusEinval }
  else if !vx.checkperm s.guest keyAddr keySz.toNat .read then
    some { s with ret := minusEinval }
  else
    let r := api.set s.world.store (vx.read s.guest valueAddr valueSz.toNat)
      (vx.read s.guest keyAddr keySz.toNat)
    some { s with world := { s.world with store := r.1 }, ret := r.2 }

def syscallStDel (s : Sys σ γ) : Option (Sys σ γ) :=
  let keyAddr := vx.reg s.guest .edx
  let keySz := asInt (vx.reg s.guest .ecx)
  if keySz < 0 then some { s with ret := minusEinval }
  else if !vx.checkperm s.guest keyAddr keySz.toNat .read then
    some { s with ret := minusEinval }
  else
    let r := api.del s.world.store (vx.read s.guest keyAddr keySz.toNat)
    some { s with world := { s.world with store := r.1 }, ret := r.2 }

def syscallStGetrandom (s : Sys σ γ) : Option (Sys σ γ) :=
  let dstAddr := vx.reg s.guest .edx
  let dstSz := asInt (vx.reg s.guest .ecx)
  if dstSz < 0 then some { s with ret := minusEinval }
  else if !vx.checkperm s.guest dstAddr dstSz.toNat .write then
    some { s with ret := minusEinval }
  else some { s with guest := vx.fillRandom s.guest dstAddr dstSz.toNat, ret := dstSz }

/-- The numbers of `libvxc/syscall.h` and of `smalltable.h`. -/
def syscalls (pid num : Nat) (s : Sys σ γ) : Option (Sys σ γ) :=
  match num with
  | 0x01 => syscallExit vx pid s
  | 0x02 => syscallBrk vx s
  | 0x04 => syscallWrite vx s
  | 0xFF00 => syscallRegister vx pid s
  | 0xFF01 => syscallUnregister vx pid s
  | 0xFF02 => syscallReadrequests vx pid s
  | 0xFF03 => syscallWriteresponses vx pid s
  | 0xFF04 => syscallStGet api vx s
  | 0xFF05 => syscallStPrefetch api vx s
  | 0xFF06 => syscallStSet api vx s
  | 0xFF07 => syscallStDel api vx s
  | 0xFF08 => syscallStGetrandom vx s
  | _ => some { s with ret := minusEinval }

def doSyscall (pid : Nat) (s : Sys σ γ) : Option (Sys σ γ) :=
  match syscalls api vx pid (vx.reg s.guest .eax) { s with next := .continue } with
  | none => none
  | some s => some { s with guest := vx.setReg s.guest .eax (s.ret % 2 ^ 32).toNat }

/-! ## Running a process -/

/-- `vxproc_run` until a trap other than the first timer interrupt. -/
def runToTrap (irqSeen : Bool) (g : γ) : Trap × γ × Bool :=
  match vx.run g with
  | (.irq, g) =>
      if irqSeen then (.irq, g, true)
      else
        let r := vx.run g
        (r.1, r.2, true)
  | (t, g) => (t, g, irqSeen)

/-- The loop of `process_run`, with the number of system calls left. -/
def processRunLoop (pid : Nat) : Nat → Bool → Sys σ γ → Option (Sys σ γ)
  | left, irqSeen, s =>
      match runToTrap vx irqSeen s.guest with
      | (.syscall, g, irqSeen) =>
          match left with
          -- too many syscalls
          | 0 => some { s with guest := g, ret := -1 }
          | left + 1 =>
              match doSyscall api vx pid { s with guest := g } with
              | none => none
              | some s =>
                  match s.next with
                  | .continue => processRunLoop pid left irqSeen s
                  | .yield => some { s with ret := 0 }
                  | .kill => some { s with ret := -1 }
                  | .exit =>
                      withProc s pid fun pr =>
                        some { s with ret := max 1 |pr.exitCode| }
      | (_, g, _) => some { s with guest := g, ret := -1 }

/-- `process_run`: 0 yield, > 0 exited nicely, -1 error. The guest is taken out
of the process while it runs and put back. -/
def processRun (limit : Int) (pid : Nat) (w : World σ γ) (io : Io) :
    Option (World σ γ × Io × Int) :=
  match w.procs pid with
  | none => none
  | some pr =>
      match pr.machine with
      | none => none
      | some g =>
          match processRunLoop api vx pid (limit + 1).toNat false
              { world := w, io := io, guest := g } with
          | none => none
          | some s =>
              match s.world.procs pid with
              | none => none
              | some pr =>
                  some (s.world.setProc pid (some { pr with machine := some s.guest }),
                    s.io, s.ret)

/-- The error messages for a group whose process failed. -/
def unknownCommands (io : Io) (reqBuf : Bytes) : Option Io :=
  forRequests reqBuf io fun io request =>
    let wr := bufGetWriter io.pool io.sendBuf maxRequestSize
    match errorFromReqbuf request wr.2.2 memcacheStatusUnknownCommand none with
    | none => none
    | some produced =>
        some (.yield { io with pool := wr.1, sendBuf := bufProduce wr.2.1 produced })

/-- The `error` exit of `process_commands_callback`. -/
def processFailed (pid : Nat) (w : World σ γ) (io : Io) (reqBuf : Bytes) :
    Option (World σ γ × Io) :=
  match w.procs pid with
  | none => none
  | some pr =>
      let io :=
        if pr.sendSz ≠ 0 then
          { io with sendBuf := bufRollbackProduced io.sendBuf pr.sendSz }
        else io
      match unknownCommands io reqBuf with
      | none => none
      | some io => some (w.processFree pid, io)

/-- `process_commands_callback` -/
def processCommandsCallback (cfg : Config γ) (w : World σ γ) (io : Io) (reqBuf : Bytes)
    (pid : Nat) : Option (World σ γ × Io) :=
  match w.procs pid with
  | none => none
  | some pr =>
      if pr.userBufSz < reqBuf.length then processFailed pid w io reqBuf
      else
        match pr.machine with
        | none => none
        | some g =>
            let g := vx.setReg (vx.write g pr.userBuf reqBuf) .eax reqBuf.length
            let pr := { pr with machine := some g, sendBuf := some io.conn, sendSz := 0 }
            match processRun api vx (cfg.syscallLimit * io.requests + 128) pid
                (w.setProc pid (some pr)) io with
            | none => none
            | some (w, io, r) =>
                if r ≠ 0 then processFailed pid w io reqBuf
                else
                  match w.procs pid with
                  | none => none
                  | some pr =>
                      if pr.sendSz = 0 then processFailed pid w io reqBuf
                      else some (w, io)

end Syscalls

end Smalltable.Ref
