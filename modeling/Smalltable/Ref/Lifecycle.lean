import Smalltable.Lib.Transition
import Smalltable.Ref.Process

/-!
# The life of the processes (`process.c`, `code_commands.c`)

A process is created and run for the first time by CODE_LOAD. It then waits in
`st_read_requests` until a group of requests for one of its commands comes
along, is run again, and so on until it is freed: because it fails, because
CODE_UNLOAD asks for it, or because another process takes its last command.
One process runs at a time, and nothing else happens while it does.

`lifeStep` cuts this at the places where the server gets control: the system
calls of the running process, and between two runs the commands that start or
free one. What the guest computes in between is its own affair, so a system
call comes with any state of the guest. `process_run`, CODE_LOAD and
`process_commands_callback` are runs of this machine.
-/

namespace Smalltable.Ref

/-- A process that is being run, with the connection it is run for; `serving` is
false for the first run. -/
structure Activation where
  pid : Nat
  io : Io
  serving : Bool

structure Life (σ γ : Type) where
  world : World σ γ
  active : Option Activation := none

inductive LifeEvent (σ γ : Type) where
  /-- `cmd_code_load` once the program is compiled, with what `process_load`
  makes of it -/
  | codeLoad (io : Io) (key : Bytes) (elf : Option γ)
  | codeUnload (key : Bytes)
  /-- `process_commands_callback` -/
  | callback (io : Io) (pid : Nat) (reqBuf : Bytes)
  /-- the running process makes a system call, its guest being in state `g` -/
  | syscall (g : γ)
  /-- the running process is stopped: a fault, the timer, too many calls -/
  | killed
  /-- another command changes the engine's data -/
  | data (store : σ) (uniqueNumber : Nat)

section Steps

variable {σ γ : Type} (api : StStorageApi σ) (vx : Vx γ)

def startLoad (l : Life σ γ) (io : Io) (key : Bytes) (elf : Option γ) : Option (Life σ γ) :=
  match l.active, l.world.findProcess key with
  | none, some none =>
      let pid := l.world.nextProc
      let w := l.world.processNew key
      match elf with
      | none => some { world := w.processFree pid }
      | some g =>
          some {
            world := w.setProc pid (some { key := key, machine := some g })
            active := some ⟨pid, io, false⟩ }
  | _, _ => none

def unloadProcess (l : Life σ γ) (key : Bytes) : Option (Life σ γ) :=
  match l.active, l.world.findProcess key with
  | none, some (some pid) => some { world := l.world.processFree pid }
  | _, _ => none

/-- A group that does not fit in the buffer of the process is its end. -/
def startGroup (l : Life σ γ) (io : Io) (pid : Nat) (reqBuf : Bytes) : Option (Life σ γ) :=
  match l.active, l.world.procs pid with
  | none, some pr =>
      if pr.userBufSz < reqBuf.length then some { world := l.world.processFree pid }
      else
        match pr.machine with
        | none => none
        | some g =>
            let g := vx.setReg (vx.write g pr.userBuf reqBuf) .eax reqBuf.length
            let pr := { pr with machine := some g, sendBuf := some io.conn, sendSz := 0 }
            some {
              world := l.world.setProc pid (some pr)
              active := some ⟨pid, io, true⟩ }
  | _, _ => none

/-- A process that yields waits for the next group, unless it has answered
nothing to this one. -/
def yieldProcess (s : Sys σ γ) (a : Activation) : Option (Life σ γ) :=
  match s.world.procs a.pid with
  | none => none
  | some pr =>
      let w := s.world.setProc a.pid (some { pr with machine := some s.guest })
      if a.serving ∧ pr.sendSz = 0 then some { world := w.processFree a.pid }
      else some { world := w }

def trapSyscall (l : Life σ γ) (g : γ) : Option (Life σ γ) :=
  match l.active with
  | none => none
  | some a =>
      match doSyscall api vx a.pid { world := l.world, io := a.io, guest := g } with
      | none => none
      | some s =>
          match s.next with
          | .continue => some { world := s.world, active := some { a with io := s.io } }
          | .yield => yieldProcess s a
          | _ => some { world := s.world.processFree a.pid }

def killProcess (l : Life σ γ) : Option (Life σ γ) :=
  match l.active with
  | none => none
  | some a => some { world := l.world.processFree a.pid }

def lifeStep (l : Life σ γ) : LifeEvent σ γ → Option (Life σ γ)
  | .codeLoad io key elf => startLoad l io key elf
  | .codeUnload key => unloadProcess l key
  | .callback io pid reqBuf => startGroup vx l io pid reqBuf
  | .syscall g => trapSyscall api vx l g
  | .killed => killProcess l
  | .data store n =>
      if l.active.isNone then
        some { l with world := { l.world with store := store, uniqueNumber := n } }
      else none

/-- The server as it starts. -/
def lifeStart (store : σ) : Life σ γ := { world := { store := store } }

def lifeRun (l : Life σ γ) (es : List (LifeEvent σ γ)) : Option (Life σ γ) :=
  runSteps (lifeStep api vx) l es

end Steps

end Smalltable.Ref
