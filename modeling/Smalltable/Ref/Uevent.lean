import Mathlib.Data.Finset.Card
import Mathlib.Logic.Function.Basic

/-!
# The event loop (`uevent.c`)

A registration is a descriptor, a direction and a callback with its userdata. The two
descriptor sets say who is registered, `fdmap` says with what, and `used_slots` is
counted beside them; the loop ends when it is zero.

The loop is a machine whose inputs are what it does not decide itself: the result of
`select` and the registrations a callback makes. `uevent_new` clears neither `fdmap` nor
what a descriptor has in it.
-/

namespace Smalltable.Ref

/-- `__FD_SETSIZE` -/
def fdSetsize : Nat := 1024

def ueventWrite : Nat := 1
def ueventRead : Nat := 2

variable {κ υ : Type}

structure Uevent (κ υ : Type) where
  usedSlots : Int := 0
  fdmap : Nat → κ × υ
  readfds : Finset Nat := ∅
  writefds : Finset Nat := ∅
  maxFd : Nat := 0

/-- The arguments of `uevent_yield`, and those of a callback. -/
structure Registration (κ υ : Type) where
  fd : Nat
  mask : Nat
  callback : κ
  userdata : υ
  deriving DecidableEq

def ueventNew (u : Uevent κ υ) : Uevent κ υ :=
  { u with usedSlots := 0, maxFd := 0, readfds := ∅, writefds := ∅ }

/-- `none` is `fatal`. -/
def ueventYield (u : Uevent κ υ) (r : Registration κ υ) : Option (Uevent κ υ) :=
  if r.fd ≥ fdSetsize then none
  else
    let u := if r.mask &&& ueventRead ≠ 0 then { u with readfds := insert r.fd u.readfds } else u
    let u := if r.mask &&& ueventWrite ≠ 0 then { u with writefds := insert r.fd u.writefds } else u
    some { u with
      fdmap := Function.update u.fdmap r.fd (r.callback, r.userdata)
      maxFd := max u.maxFd r.fd
      usedSlots := u.usedSlots + 1 }

/-- One call of `uevent_yield` after another. -/
def ueventYields (u : Uevent κ υ) : List (Registration κ υ) → Option (Uevent κ υ)
  | [] => some u
  | r :: rest =>
      match ueventYield u r with
      | none => none
      | some u => ueventYields u rest

/-! ## The loop -/

inductive Select where
  | eintr
  /-- any other error; the sets are not changed -/
  | error
  /-- The sets are cut down to what is ready. -/
  | ready (rfds wfds : Finset Nat)

inductive LoopPc where
  /-- the test of `while` -/
  | head
  | select
  | scan (i : Nat) (rfds wfds : Finset Nat)
  /-- in the callback of descriptor `i` -/
  | callback (i : Nat) (rfds wfds : Finset Nat)
  | returned
  deriving DecidableEq

inductive LoopInput (κ υ : Type) where
  /-- the code goes on by itself -/
  | run
  | select (r : Select)
  /-- the callback returns, after these calls of `uevent_yield` -/
  | callback (yields : List (Registration κ υ))

/-- What has happened to a descriptor. -/
inductive LoopEvent (κ υ : Type) where
  | yielded (r : Registration κ υ)
  | called (r : Registration κ υ)
  deriving DecidableEq

structure UeventLoop (κ υ : Type) where
  uevent : Uevent κ υ
  pc : LoopPc := .head
  counter : Nat := 0
  /-- history -/
  log : List (LoopEvent κ υ)

/-- The loop is entered after some registrations. -/
def ueventLoop (u : Uevent κ υ) (yields : List (Registration κ υ)) : UeventLoop κ υ :=
  { uevent := u, log := yields.map .yielded }

/-- Descriptor `i` is taken out where it is ready, before it is called. -/
def scanClear (u : Uevent κ υ) (i : Nat) (rfds wfds : Finset Nat) : Uevent κ υ :=
  let u := if i ∈ rfds then { u with readfds := u.readfds.erase i } else u
  if i ∈ wfds then { u with writefds := u.writefds.erase i } else u

def scanMask (i : Nat) (rfds wfds : Finset Nat) : Nat :=
  (if i ∈ rfds then ueventRead else 0) ||| (if i ∈ wfds then ueventWrite else 0)

def ueventLoopStep (s : UeventLoop κ υ) (input : LoopInput κ υ) : Option (UeventLoop κ υ) :=
  match s.pc, input with
  | .head, .run =>
      if s.uevent.usedSlots ≠ 0 then some { s with counter := s.counter + 1, pc := .select }
      else some { s with pc := .returned }
  | .select, .select r =>
      let rfds := s.uevent.readfds
      let wfds := s.uevent.writefds
      match r with
      | .eintr => some { s with pc := .head }
      | .error => some { s with pc := .scan 0 rfds wfds }
      | .ready r w => some { s with pc := .scan 0 (rfds ∩ r) (wfds ∩ w) }
  | .scan i rfds wfds, .run =>
      if i < s.uevent.maxFd + 1 then
        let u := scanClear s.uevent i rfds wfds
        let mask := scanMask i rfds wfds
        if mask ≠ 0 then
          some { s with
            uevent := { u with usedSlots := u.usedSlots - 1 }
            pc := .callback i rfds wfds
            log := s.log ++ [.called ⟨i, mask, (u.fdmap i).1, (u.fdmap i).2⟩] }
        else some { s with uevent := u, pc := .scan (i + 1) rfds wfds }
      else some { s with pc := .head }
  | .callback i rfds wfds, .callback yields =>
      match ueventYields s.uevent yields with
      | none => none
      | some u => some { s with
          uevent := u, pc := .scan (i + 1) rfds wfds, log := s.log ++ yields.map .yielded }
  | _, _ => none

end Smalltable.Ref
