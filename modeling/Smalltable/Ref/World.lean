import Smalltable.Ref.Buffer
import Smalltable.Ref.Storage

/-!
# The server's state: command table and processes (`command.c`, `process.h`)

A request is served by whatever `cmd_pointers` holds for its opcode: a builtin
function, a sandboxed process, or nothing. Builtin slots are marked read-only;
the others change while the server runs, since processes register and
unregister themselves.

Processes live in a heap of their own, indexed by the number they were created
with. A number that is not allocated, or no longer, is a dangling pointer, and
following one is `none` everywhere.
-/

namespace Smalltable.Ref

/-! ## The command table -/

inductive Builtin where
  | get | set | delete | noop | version
  | codeLoad | codeUnload | codeCheck | getKeys
  deriving DecidableEq, Repr

inductive CmdPtr where
  | null
  | builtin (f : Builtin)
  | process (pid : Nat)
  deriving DecidableEq, Repr

def cmdFlagRo : Nat := 1
def cmdFlagPrefetch : Nat := 4
def cmdFlagExtraParam : Nat := 8
def cmdFlagProcess : Nat := 16

structure CmdEntry where
  ptr : CmdPtr := .null
  flags : Nat := 0
  deriving DecidableEq, Repr

def CmdEntry.isRo (e : CmdEntry) : Bool := e.flags &&& cmdFlagRo ≠ 0
def CmdEntry.isPrefetch (e : CmdEntry) : Bool := e.flags &&& cmdFlagPrefetch ≠ 0
def CmdEntry.isProcess (e : CmdEntry) : Bool := e.flags &&& cmdFlagProcess ≠ 0

abbrev CmdTable := UInt8 → CmdEntry

def systemCmd (f : Builtin) (flag : Nat) : CmdEntry := ⟨.builtin f, cmdFlagRo ||| flag⟩

def processCmd (f : Builtin) (flag : Nat) : CmdEntry :=
  ⟨.builtin f, cmdFlagRo ||| cmdFlagExtraParam ||| flag⟩

/-- The initialiser of `cmd_pointers`. -/
def cmdPointersInit : CmdTable := fun cmd =>
  if cmd = memcacheCmdGet then systemCmd .get cmdFlagPrefetch
  else if cmd = memcacheCmdAdd then systemCmd .set cmdFlagPrefetch
  else if cmd = memcacheCmdSet then systemCmd .set 0
  else if cmd = memcacheCmdReplace then systemCmd .set cmdFlagPrefetch
  else if cmd = memcacheCmdDelete then systemCmd .delete 0
  else if cmd = memcacheCmdNoop then systemCmd .noop 0
  else if cmd = memcacheCmdVersion then systemCmd .version 0
  else if cmd = memcacheXcmdCodeLoad then processCmd .codeLoad 0
  else if cmd = memcacheXcmdCodeUnload then processCmd .codeUnload 0
  else if cmd = memcacheXcmdCodeCheck then processCmd .codeCheck 0
  else if cmd = memcacheXcmdGetKeys then systemCmd .getKeys 0
  else {}

def CmdTable.put (t : CmdTable) (cmd : UInt8) (e : CmdEntry) : CmdTable :=
  fun c => if c = cmd then e else t c

/-- `command_register`; its callers pass 0 to 255. -/
def commandRegister (t : CmdTable) (cmd : UInt8) (userFlags : Nat) (pid : Nat) :
    CmdTable × Int :=
  if (t cmd).isRo then (t, -1)
  else
    (t.put cmd ⟨.process pid, cmdFlagProcess ||| (userFlags &&& cmdFlagPrefetch)⟩, 0)

def commandUnregister (t : CmdTable) (cmd : UInt8) : CmdTable :=
  if (t cmd).isRo then t else t.put cmd {}

/-- Builtin slots answer as if they were empty. -/
def commandGet (t : CmdTable) (cmd : UInt8) : CmdEntry :=
  if (t cmd).isRo then {} else t cmd

/-- The 256 slots in the order the search loops visit them. -/
def allCmds : List UInt8 := (List.range 256).map Nat.toUInt8

def commandFindByProcessUd (t : CmdTable) (pid : Nat) : Option UInt8 :=
  allCmds.find? fun cmd => (t cmd).ptr = .process pid

/-! ## Processes -/

/-- `struct process`, over the state `γ` of its sandboxed machine. What is only
logged (the owner, the escaped key) is left out. -/
structure Process (γ : Type) where
  /-- `p`: absent until the code is loaded -/
  machine : Option γ := none
  exitCode : Int := 0
  key : Bytes
  registercnt : Int := 0
  /-- guest address and size of the buffer `st_read_requests` was called with -/
  userBuf : Nat := 0
  userBufSz : Int := 0
  /-- the connection whose send buffer `send_buf` points to -/
  sendBuf : Option Nat := none
  sendSz : Int := 0

/-- What the commands of the server read and change, over the engine's data `σ`
and the sandbox `γ`. -/
structure World (σ γ : Type) where
  cmdPointers : CmdTable := cmdPointersInit
  procs : Nat → Option (Process γ) := fun _ => none
  nextProc : Nat := 0
  uniqueNumber : Nat := 0
  store : σ

/-- The parts of the connection, and of the memory pool, that serving a batch
of its requests works on. -/
structure Io where
  /-- which connection this is -/
  conn : Nat := 0
  /-- `conn->requests` -/
  requests : Int := 0
  pool : Pool := []
  recvBuf : Buffer := {}
  sendBuf : Buffer := {}
  deriving DecidableEq

namespace World

variable {σ γ : Type}

/-- The builtin slots are as the program starts with them. -/
def BuiltinsIntact (w : World σ γ) : Prop :=
  ∀ cmd, (cmdPointersInit cmd).isRo → w.cmdPointers cmd = cmdPointersInit cmd

def setProc (w : World σ γ) (pid : Nat) (pr : Option (Process γ)) : World σ γ :=
  { w with procs := fun i => if i = pid then pr else w.procs i }

/-- `process_new`; the new process gets the number `nextProc`. -/
def processNew (w : World σ γ) (key : Bytes) : World σ γ :=
  { w.setProc w.nextProc (some { key := key }) with nextProc := w.nextProc + 1 }

/-- The loop of `process_free`: a slot of the process is found and cleared
until there is none. There are 256 slots to clear at most. -/
def unregisterAll (pid : Nat) : Nat → CmdTable → CmdTable
  | 0, t => t
  | n + 1, t =>
      match commandFindByProcessUd t pid with
      | none => t
      | some cmd => unregisterAll pid n (commandUnregister t cmd)

/-- `process_free`. The counter it decrements on the way goes with the block. -/
def processFree (w : World σ γ) (pid : Nat) : World σ γ :=
  { w.setProc pid none with cmdPointers := unregisterAll pid 256 w.cmdPointers }

/-- The loop of `find_process` over the slots: the first process with this
key. -/
def findProcessIn (w : World σ γ) (key : Bytes) : List UInt8 → Option (Option Nat)
  | [] => some none
  | cmd :: rest =>
      match (commandGet w.cmdPointers cmd).ptr with
      | .process pid =>
          match w.procs pid with
          | none => none
          | some pr => if pr.key = key then some (some pid) else findProcessIn w key rest
      | _ => findProcessIn w key rest

def findProcess (w : World σ γ) (key : Bytes) : Option (Option Nat) :=
  w.findProcessIn key allCmds

end World

end Smalltable.Ref
