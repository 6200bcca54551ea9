import Smalltable.Ref.Common
import Smalltable.Ref.StServer

/-!
# The proxy's configuration (`proxy_config.c`)

`split_line` cuts a text in place: it overwrites separators with zeros and
collects pointers to what begins after them. A token is modelled by the string
that then starts there. The last one that fits in `argv` is not cut any more
and goes on to the end of the line.

`load_config_from_string` is run twice by SET_CONFIG. With `testing` set, it
leaves out the calls that create a proxy or server, and with them the check
that there is none like it.
-/

namespace Smalltable.Ref

/-- `sep`: 1 at a separator, 2 at a character that ends the line. The index is
a `char`, negative from `0x80` on. -/
def sepTable (sepChars quitChars : Bytes) (c : UInt8) : Option Nat :=
  if c ≥ 0x80 then none
  else some (if c ∈ quitChars then 2 else if c ∈ sepChars then 1 else 0)

section Split

variable (sepChars quitChars : Bytes) (argvSz : Nat)

/-- The loop of `split_line`, with the tokens before the current one, and the
current one if the character before belonged to it. -/
def splitLoop : Bytes → List Bytes → Option Bytes → Option (List Bytes)
  | [], argv, cur => some (argv ++ cur.toList)
  | c :: rest, argv, cur =>
      match sepTable sepChars quitChars c with
      | none => none
      | some 1 => splitLoop rest (argv ++ cur.toList) none
      | some 2 => some (argv ++ cur.toList)
      | some _ =>
          match cur with
          | some token => splitLoop rest argv (some (token ++ [c]))
          | none =>
              -- new block
              if argv.length + 1 = argvSz then some (argv ++ [c :: rest])
              else splitLoop rest argv (some [c])

def splitLine (line : Bytes) : Option (List Bytes) :=
  splitLoop sepChars quitChars argvSz line [] none

end Split

/-- `some none` is a return value other than zero. -/
def getHostPort (line : Bytes) : Option (Option (Bytes × Int)) :=
  match splitLine (ascii ":") [] 2 line with
  | none => none
  | some [host, portStr] =>
      let port := atoi portStr
      if port < 1 ∨ port > 65535 then some none else some (some (host, port))
  | some _ => some none

/-- `MAX_CONFIG_LINES` -/
def maxConfigLines : Nat := 1024

inductive ConfigEntry where
  | proxy (host : Bytes) (port : Int)
  | server (host : Bytes) (port weight : Int) (key : Bytes)
  deriving DecidableEq

/-- What a line asks for: nothing, an entry, or it is an error. -/
inductive ConfigLine where
  | blank
  | entry (e : ConfigEntry)
  | error (err : Bytes)
  deriving DecidableEq

def parseProxy (argv : List Bytes) : Option ConfigLine :=
  if argv.length ≠ 1 + 1 then some (.error (ascii "Expected exactly one argument"))
  else
    match getHostPort (argv.getD 1 []) with
    | none => none
    | some none => some (.error (ascii "Bad host description or port number"))
    | some (some (host, port)) => some (.entry (.proxy host port))

def parseServer (argv : List Bytes) : Option ConfigLine :=
  if argv.length ≠ 3 + 1 ∧ argv.length ≠ 2 + 1 then
    some (.error (ascii "Expected two or three arguments"))
  else
    match getHostPort (argv.getD 1 []) with
    | none => none
    | some none => some (.error (ascii "Bad host description or port number"))
    | some (some (host, port)) =>
        let weight := atoi (argv.getD 2 [])
        if weight < 1 ∨ weight > 999999 then some (.error (ascii "Broken weight value"))
        else if argv.length = 3 + 1 then
          match decodeHex (argv.getD 3 []) with
          | none => none
          | some none => some (.error (ascii "Broken key value"))
          | some (some key) => some (.entry (.server host port weight key))
        else some (.entry (.server host port weight []))

def parseLine (line : Bytes) : Option ConfigLine :=
  match splitLine (ascii " ,\t") (ascii "#") 32 line with
  | none => none
  | some [] => some .blank
  | some (keyword :: args) =>
      if keyword = ascii "proxy" then parseProxy (keyword :: args)
      else if keyword = ascii "server" then parseServer (keyword :: args)
      -- Unrecognized keyword
      else some (.error keyword)

/-- State of the loop of `load_config_from_string`. -/
structure Loading where
  world : ProxyWorld
  proxies : Nat := 0
  servers : Nat := 0

section Load

variable (env : ProxyEnv) (testing : Bool)

/-- The result for an entry: the error, or the state after it. -/
def loadEntry (l : Loading) : ConfigEntry → Bytes ⊕ Loading
  | .proxy host port =>
      if testing then .inr { l with proxies := l.proxies + 1 }
      else
        match newStProxy env l.world host port with
        | none => .inl (ascii "Duplicate proxy")
        | some w => .inr { l with world := w, proxies := l.proxies + 1 }
  | .server host port weight key =>
      if testing then .inr { l with servers := l.servers + 1 }
      else
        match newStServer env l.world host port weight key with
        | none => .inl (ascii "Duplicate server")
        | some w => .inr { l with world := w, servers := l.servers + 1 }

/-- The loop over the lines, from `lineNo` on. An error comes with its line and
with what has been loaded by then. -/
def loadLines : List Bytes → Nat → Loading → Option (Loading × Option Bytes × Nat)
  | [], lineNo, l => some (l, none, lineNo)
  | line :: rest, lineNo, l =>
      match parseLine line with
      | none => none
      | some .blank => loadLines rest (lineNo + 1) l
      | some (.error err) => some (l, some err, lineNo)
      | some (.entry e) =>
          match loadEntry env testing l e with
          | .inl err => some (l, some err, lineNo)
          | .inr l => loadLines rest (lineNo + 1) l

/-- The tests behind the loop. -/
def countError (l : Loading) : Option Bytes :=
  if l.proxies = 0 then
    some (ascii ("No proxies defined in config, not even myself!\n" ++
      "Are you sure it's a correct autogenerated file?"))
  else if l.servers = 0 then some (ascii "No servers defined in config. It's broken!")
  else none

/-- `none` where a lookup leaves its table; else the world and the error text. -/
def loadConfigFromString (w : ProxyWorld) (buf : Bytes) :
    Option (ProxyWorld × Option Bytes) :=
  match splitLine (ascii "\n\r") [] maxConfigLines buf with
  | none => none
  | some lines =>
      match loadLines env testing lines 0 { world := w } with
      | none => none
      | some (l, err, lineNo) =>
          let err := err.or (countError l)
          some (l.world, err.map fun err =>
            snprintf 256 (err ++ ascii " on line " ++ decimal (lineNo + 1)))

end Load

def flushConfig (p : Pool) (w : ProxyWorld) : Pool × ProxyWorld :=
  let r := freeAllServers p w
  (r.1, freeAllProxies r.2)

/-! ## Writing it out -/

/-- The white space `strip` takes off. -/
def isStripped (c : UInt8) : Bool := c = 0x0A ∨ c = 0x0D ∨ c = 0x09 ∨ c = 0x20

def strip (s : Bytes) : Bytes :=
  ((s.dropWhile isStripped).reverse.dropWhile isStripped).reverse

/-- A buffer being written: what is in it, and `buf_sz`, the room left. -/
structure LineWriter where
  out : Bytes := []
  left : Int

/-- `write_line` stores what `vsnprintf` stores, one byte less than the room at
most, but refuses only what is longer than the room. -/
def writeLine (b : LineWriter) (text : Bytes) : Option LineWriter :=
  if (text.length : Int) > b.left then none
  else
    let stored :=
      if (text.length : Int) < b.left then text
      else text.take (text.length - 1) ++ List.replicate (min 1 text.length) 0
    some ⟨b.out ++ stored, b.left - text.length⟩

def writeLines (b : LineWriter) : List Bytes → Option LineWriter
  | [] => some b
  | text :: rest =>
      match writeLine b text with
      | none => none
      | some b => writeLines b rest

/-- The lines of a configuration, in the order they are written. -/
def configLines (env : ProxyEnv) (w : ProxyWorld) : List Bytes :=
  [ascii "# This file is automatically generated. Do not edit.\n",
   ascii "#Created on " ++ strip env.ctime ++ ascii ", " ++ env.hostname ++ ascii "\n\n"] ++
  w.proxies.toList.map (fun proxy =>
    ascii "proxy\t" ++ proxy.host ++ ascii ":" ++ decimal proxy.port ++ ascii "\n") ++
  [ascii "\n"] ++
  w.servers.toList.map fun server =>
    ascii "server\t" ++ server.host ++ ascii ":" ++ decimal server.port ++ ascii ", " ++
      decimal server.weight ++ ascii ", " ++ encodeHex server.key ++ ascii "\n"

/-- What is written, and the length that is returned; `none` is -1. -/
def configToString (env : ProxyEnv) (w : ProxyWorld) (bufSz : Int) : Option (Bytes × Int) :=
  match writeLines { left := bufSz } (configLines env w) with
  | none => none
  | some b => some (b.out, bufSz - b.left)

end Smalltable.Ref
