import Smalltable.Ref.ProxyConfig

/-!
# The proxy's configuration, in place (`proxy_config.c`)

The functions of `ProxyConfig` as they work on memory. A text is a piece of memory
with a zero at its end, a pointer is an offset into it, `split_line` writes its zeros
over the separators, and every access is checked: one that leaves its array is a
fault.
-/

namespace Smalltable.Ref.Inplace

/-- The array that an access leaves. -/
inductive Fault where
  /-- the text, with its final zero -/
  | text
  /-- `sep` or `hex_to_int` -/
  | table
  /-- `argv` or `lines` -/
  | argv
  /-- `start_key` -/
  | startKey
  deriving DecidableEq

abbrev Checked := Except Fault

def load (mem : Bytes) (p : Nat) : Checked UInt8 :=
  match mem[p]? with
  | none => .error .text
  | some c => .ok c

def store (mem : Bytes) (p : Nat) (c : UInt8) : Checked Bytes :=
  if p < mem.length then .ok (mem.set p c) else .error .text

/-- A store behind what an array of `size` elements has been filled with. -/
def push {α : Type} (fault : Fault) (size : Nat) (xs : List α) (x : α) : Checked (List α) :=
  if xs.length < size then .ok (xs ++ [x]) else .error fault

/-- A lookup in a table of 256 entries. The index is a `char`, which is signed. -/
def lookup (table : UInt8 → Nat) (c : UInt8) : Checked Nat :=
  if 0 ≤ c.toInt8.toInt ∧ c.toInt8.toInt < 256 then .ok (table c) else .error .table

/-- The characters in front of the first zero. -/
def untilZero : Bytes → Checked Bytes
  | [] => .error .text
  | c :: rest => if c = 0 then .ok [] else (untilZero rest).map (c :: ·)

/-- The string at a pointer. -/
def cstr (mem : Bytes) (p : Nat) : Checked Bytes := untilZero (mem.drop p)

section Split

variable (sepChars quitChars : Bytes) (argvSz : Nat)

/-- `sep` -/
def sepEntry (c : UInt8) : Nat := if c ∈ quitChars then 2 else if c ∈ sepChars then 1 else 0

/-- The loop of `split_line`, with `line_end - line` characters to go. -/
def splitLoop : Nat → Bytes → Nat → List Nat → UInt8 → Checked (Bytes × List Nat)
  | 0, mem, _, argv, _ => return (mem, argv)
  | n + 1, mem, line, argv, prev => do
      let kind ← lookup (sepEntry sepChars quitChars) (← load mem line)
      if kind = 2 then
        return (← store mem line 0, argv)
      else
        let mem ← if kind = 1 then store mem line 0 else pure mem
        let c ← load mem line
        if prev = 0 ∧ c ≠ 0 then
          -- new block
          let argv ← push .argv argvSz argv line
          if argv.length = argvSz then return (mem, argv)
          else splitLoop n mem (line + 1) argv c
        else splitLoop n mem (line + 1) argv c

def splitLine (mem : Bytes) (line : Nat) : Checked (Bytes × List Nat) := do
  let len := (← cstr mem line).length
  splitLoop sepChars quitChars argvSz len mem line [] 0

end Split

/-- The memory is what `split_line` leaves; the host is a pointer into it. -/
def getHostPort (mem : Bytes) (line : Nat) : Checked (Bytes × Option (Nat × Int)) := do
  let (mem, argv) ← splitLine (ascii ":") [] 2 mem line
  match argv with
  | [host, portStr] =>
      let port := atoi (← cstr mem portStr)
      if port < 1 ∨ port > 65535 then return (mem, none) else return (mem, some (host, port))
  | _ => return (mem, none)

/-- The loop of `decode_hex` on what is at `hex`, with the key so far. -/
def decodeHexLoop : Bytes → Bytes → Checked (Option Bytes)
  | [], _ => throw .text
  | [a], key => if a = 0 then return some key else throw .text
  | a :: b :: rest, key =>
      if a = 0 then return some key
      else if b = 0 then return none
      else if key.length ≥ 256 then return none
      else do
        let x ← lookup hexToInt a
        let y ← lookup hexToInt b
        if (x = 0 ∧ a ≠ 0x30) ∨ (y = 0 ∧ b ≠ 0x30) then return none
        else decodeHexLoop rest (← push .startKey 256 key (x * 16 + y).toUInt8)

def decodeHex (mem : Bytes) (hex : Nat) : Checked (Option Bytes) := decodeHexLoop (mem.drop hex) []

def parseProxy (mem : Bytes) (argv : List Nat) : Checked (Bytes × ConfigLine) := do
  if argv.length ≠ 1 + 1 then return (mem, .error (ascii "Expected exactly one argument"))
  else
    match ← getHostPort mem (argv.getD 1 0) with
    | (mem, none) => return (mem, .error (ascii "Bad host description or port number"))
    | (mem, some (host, port)) => return (mem, .entry (.proxy (← cstr mem host) port))

def parseServer (mem : Bytes) (argv : List Nat) : Checked (Bytes × ConfigLine) := do
  if argv.length ≠ 3 + 1 ∧ argv.length ≠ 2 + 1 then
    return (mem, .error (ascii "Expected two or three arguments"))
  else
    match ← getHostPort mem (argv.getD 1 0) with
    | (mem, none) => return (mem, .error (ascii "Bad host description or port number"))
    | (mem, some (host, port)) =>
        let weight := atoi (← cstr mem (argv.getD 2 0))
        if weight < 1 ∨ weight > 999999 then return (mem, .error (ascii "Broken weight value"))
        else if argv.length = 3 + 1 then
          match ← decodeHex mem (argv.getD 3 0) with
          | none => return (mem, .error (ascii "Broken key value"))
          | some key => return (mem, .entry (.server (← cstr mem host) port weight key))
        else return (mem, .entry (.server (← cstr mem host) port weight []))

def parseLine (mem : Bytes) (line : Nat) : Checked (Bytes × ConfigLine) := do
  let (mem, argv) ← splitLine (ascii " ,\t") (ascii "#") 32 mem line
  match argv with
  | [] => return (mem, .blank)
  | keyword :: args =>
      let word ← cstr mem keyword
      if word = ascii "proxy" then parseProxy mem (keyword :: args)
      else if word = ascii "server" then parseServer mem (keyword :: args)
      -- Unrecognized keyword
      else return (mem, .error word)

section Load

variable (env : ProxyEnv) (testing : Bool)

/-- The loop over the lines, from `lineNo` on. -/
def loadLines : List Nat → Bytes → Nat → Loading → Checked (Loading × Option Bytes × Nat)
  | [], _, lineNo, l => return (l, none, lineNo)
  | line :: rest, mem, lineNo, l => do
      match ← parseLine mem line with
      | (mem, .blank) => loadLines rest mem (lineNo + 1) l
      | (_, .error err) => return (l, some err, lineNo)
      | (mem, .entry e) =>
          match loadEntry env testing l e with
          | .inl err => return (l, some err, lineNo)
          | .inr l => loadLines rest mem (lineNo + 1) l

/-- The text begins at the start of the memory. -/
def loadConfigFromString (w : ProxyWorld) (mem : Bytes) :
    Checked (ProxyWorld × Option Bytes) := do
  let (mem, lines) ← splitLine (ascii "\n\r") [] maxConfigLines mem 0
  let (l, err, lineNo) ← loadLines env testing lines mem 0 { world := w }
  let err := err.or (countError l)
  return (l.world, err.map fun err =>
    snprintf 256 (err ++ ascii " on line " ++ decimal (lineNo + 1)))

end Load

end Smalltable.Ref.Inplace
