import Smalltable.Ref.LibSt
import Smalltable.Spec.Store

/-!
# What INCR and DECR are for

A counter is an item whose value has eight bytes, and its number is what they spell.
INCR and DECR change the number, seed a counter that is not there unless they are asked
not to, and refuse an item that is no counter. `CounterStep` says so about one request
and the maps before and after it. How the CAS value of a seeded counter is drawn is left
open.
-/

namespace Smalltable.Spec

open Smalltable.Ref

def IsCounterOpcode (op : UInt8) : Prop :=
  op = LibSt.memcacheCmdIncr ∨ op = LibSt.memcacheCmdDecr

instance (op : UInt8) : Decidable (IsCounterOpcode op) := inferInstanceAs (Decidable (_ ∨ _))

def amountOf (req : StReq) : Nat := beVal (slice req.extras 0 8)

def initialOf (req : StReq) : Nat := beVal (slice req.extras 8 8)

def expirationOf (req : StReq) : Nat := beVal (slice req.extras 16 4)

/-- A request names a counter and carries no value. -/
def NamesCounter (req : StReq) : Prop := req.key ≠ [] ∧ req.value = []

instance (req : StReq) : Decidable (NamesCounter req) := inferInstanceAs (Decidable (_ ∧ _))

/-- What a success adds. -/
def change (req : StReq) : Int :=
  if req.opcode = LibSt.memcacheCmdIncr then amountOf req else -amountOf req

/-- The number after a success. -/
def countedOn (req : StReq) (n : Nat) : Nat := ((n + change req) % 2 ^ 64).toNat

/-- A success returns the number in network order. -/
def numberAnswer (req : StReq) (n cas : Nat) : Response :=
  { answer req memcacheStatusOk with cas := cas, value := beBytes 8 n }

def seededItem (req : StReq) (cas : Nat) : Item :=
  { value := leBytes 8 (initialOf req), flags := 0, expiration := expirationOf req, cas := cas }

def countedItem (req : StReq) (it : Item) : Item :=
  { it with
    value := leBytes 8 (countedOn req (leVal it.value))
    cas := (it.cas + 1) % 2 ^ 64 }

structure CounterStep (m : Map) (req : StReq) (m' : Map) (r : Response) : Prop where
  refused : ¬ NamesCounter req → r.status = memcacheStatusInvalidArguments
  notFound : NamesCounter req → m req.key = none → expirationOf req = 0xffffffff →
    r.status = memcacheStatusKeyNotFound
  seeded : NamesCounter req → m req.key = none → expirationOf req ≠ 0xffffffff →
    ∃ cas, m' = Function.update m req.key (some (seededItem req cas)) ∧
      r = numberAnswer req (initialOf req) cas
  counted : NamesCounter req → ∀ it, m req.key = some it → it.value.length = 8 →
    m' = Function.update m req.key (some (countedItem req it)) ∧
      r = numberAnswer req (countedOn req (leVal it.value)) ((it.cas + 1) % 2 ^ 64)
  nonNumeric : NamesCounter req → ∀ it, m req.key = some it → it.value.length ≠ 8 →
    r.status = LibSt.memcacheStatusItemNonNumeric
  errors : r.status ≠ memcacheStatusOk → m' = m

end Smalltable.Spec
