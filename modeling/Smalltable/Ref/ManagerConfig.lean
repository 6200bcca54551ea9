import Smalltable.Lib.Dict
import Smalltable.Lib.Words
import Smalltable.Ref.Common

/-!
# The manager's picture of a configuration (`config.py`)

The manager reads the text a proxy sends for GET_CONFIG with Python's string
functions. What raises an exception, of `int`, of the codec or where a tuple is
unpacked, is `none`. White space is what it is for C's `isspace`.

A dictionary is written out in whatever order `iteritems` gives.
-/

namespace Smalltable.Ref.Manager

/-! ## Strings -/

/-- `s.split()` -/
def pySplit (s : Bytes) : List Bytes := words isSpace s

/-- `s.strip()` -/
def pyStrip (s : Bytes) : Bytes := ((s.dropWhile isSpace).reverse.dropWhile isSpace).reverse

/-- `s.replace(a, b)` of characters. -/
def pyReplace (a b : UInt8) (s : Bytes) : Bytes := s.map fun c => if c = a then b else c

/-- `int(s)` of a string without white space. -/
def pyInt (s : Bytes) : Option Int :=
  let digits := if s.head? = some 0x2D ∨ s.head? = some 0x2B then s.drop 1 else s
  if digits = [] ∨ ∃ c ∈ digits, isDigit c = false then none
  else
    let n : Int := digits.foldl (fun n c => n * 10 + (c.toNat - 0x30)) 0
    some (if s.head? = some 0x2D then -n else n)

def hexDigit (c : UInt8) : Option Nat :=
  if 0x30 ≤ c ∧ c ≤ 0x39 then some (c.toNat - 0x30)
  else if 0x41 ≤ c ∧ c ≤ 0x46 then some (c.toNat - 0x41 + 10)
  else if 0x61 ≤ c ∧ c ≤ 0x66 then some (c.toNat - 0x61 + 10)
  else none

/-- `s.decode('hex')` -/
def hexDecode : Bytes → Option Bytes
  | [] => some []
  | [_] => none
  | a :: b :: rest =>
      match hexDigit a, hexDigit b, hexDecode rest with
      | some hi, some lo, some key => some ((hi * 16 + lo).toUInt8 :: key)
      | _, _, _ => none

/-- `s.encode('hex')` -/
def hexEncode (s : Bytes) : Bytes :=
  s.flatMap fun c =>
    [(ascii "0123456789abcdef").getD (c.toNat / 16) 0,
     (ascii "0123456789abcdef").getD (c.toNat % 16) 0]

/-! ## Reading -/

/-- `only_lines` -/
def onlyLines (pre config : Bytes) : List Bytes :=
  ((config.splitOn 0x0A).filter fun line => pre.isPrefixOf line).map fun line =>
    (pyStrip line).takeWhile (· ≠ 0x23)

def defaultPort : Int := 22122

/-- A `Client`: the address its connection goes to. -/
structure Client where
  host : Bytes
  port : Int
  deriving DecidableEq

def newClient (serverAddr : Bytes) : Option Client :=
  let host := serverAddr.takeWhile (· ≠ 0x3A)
  let port := (serverAddr.dropWhile (· ≠ 0x3A)).drop 1
  if port = [] then some ⟨host, defaultPort⟩
  else (pyInt port).map fun port => ⟨host, port⟩

/-- The host and its client. -/
def proxyOf (line : Bytes) : Option (Bytes × Client) :=
  match pySplit line with
  | [_, host] => (newClient host).map fun mc => (host, mc)
  | _ => none

def connectProxies (config : Bytes) : Option (Dict Bytes Client) :=
  ((onlyLines (ascii "proxy") config).mapM proxyOf).map Dict.ofList

/-- What a line tells about a server. -/
structure HostLine where
  mc : Client
  weight : Int
  key : Bytes

def serverOf (line : Bytes) : Option (Bytes × HostLine) :=
  match pySplit (pyReplace 0x09 0x20 (pyReplace 0x2C 0x20 line)) with
  | [_, host, weight] => entry host weight []
  | [_, host, weight, hexKey] => entry host weight hexKey
  | _ => none
where
  entry (host weight hexKey : Bytes) : Option (Bytes × HostLine) :=
    match newClient host, pyInt weight, hexDecode hexKey with
    | some mc, some weight, some key => some (host, ⟨mc, weight, key⟩)
    | _, _, _ => none

/-- A server with its range of keys; `None` is no bound. -/
structure ServerRange where
  mc : Client
  weight : Int
  lKey : Bytes
  rKey : Option Bytes

/-- The ranges, each up to the key of the next one. -/
def ranges : List (Bytes × HostLine) → List (Bytes × ServerRange)
  | [] => []
  | (host, s) :: rest =>
      (host, ⟨s.mc, s.weight, s.key, rest.head?.map fun next => next.2.key⟩) :: ranges rest

def connectServers (config : Bytes) : Option (Dict Bytes ServerRange) :=
  ((onlyLines (ascii "server") config).mapM serverOf).map fun hosts =>
    Dict.ofList (ranges (hosts.mergeSort fun a b => decide (¬ b.2.key < a.2.key)))

/-! ## Writing -/

/-- The order of `iteritems`. -/
structure IterOrder where
  iteritems : {α : Type} → List α → List α
  perm : ∀ {α : Type} (l : List α), (iteritems l).Perm l

section Dump

variable (order : IterOrder)

def proxyText (host : Bytes) : Bytes := ascii "proxy\t" ++ host

def dumpConfig (proxies : Dict Bytes Client) (servers : Dict Bytes ServerRange) : Bytes :=
  let l := (order.iteritems proxies.items).map (fun p => proxyText p.1) ++
    (order.iteritems servers.items).map fun p =>
      serverText p.1 p.2.weight (hexEncode p.2.lKey)
  [0x0A].intercalate l ++ [0x0A]

end Dump

end Smalltable.Ref.Manager
