import Smalltable.Lib.DirTree
import Smalltable.Ref.Common
import Smalltable.Ref.Constants

/-!
# The file-system engine (`sto_fs.c`)

An item is a file below the engine's directory, under two levels of directories
that two hashes of the escaped key choose. It is written beside its place and
moved there. What `open` for reading leaves to be read is the whole file, and
writing never runs out of disk.
-/

namespace Smalltable.Ref

def maxSystemFilename : Nat := 251
def maxDirname : Nat := 128
def maxFilename : Nat := maxKeySize * 3 + 4
/-- `directory/000/000/filename` -/
def maxFullpath : Nat := maxDirname + 4 + 4 + maxFilename + 1

theorem maxFullpath_eq : maxFullpath = 909 := rfl

def slash : UInt8 := 0x2F
def percent : UInt8 := 0x25

/-! ## Hashes -/

/-- A `char`, which is signed, in an unsigned type of `w` bits. -/
def signExtend (w : Nat) (c : UInt8) : Nat :=
  if c.toNat < 0x80 then c.toNat else 2 ^ w - 256 + c.toNat

def hashSum (str : Bytes) : Nat :=
  str.foldl (fun hash c => (hash + signExtend 32 c) % 2 ^ 64) 0

def hashKrLoop : Bytes → Nat → Nat → Nat
  | [], hash, _ => hash
  | c :: rest, hash, a =>
      hashKrLoop rest ((hash * a + signExtend 64 c) % 2 ^ 64) (a * 27183 % 2 ^ 64)

def hashKr (str : Bytes) : Nat := hashKrLoop str 0 31415

/-! ## From keys to files -/

/-- The name, and the numbers of the two directories. -/
def keyToFilename (key : Bytes) : Bytes × Nat × Nat :=
  let nkey := keyEscape (maxFilename - 1) key
  (nkey, hashKr nkey % 251, hashSum nkey % 239)

/-- `%03i` -/
def decimal3 (n : Nat) : Bytes :=
  List.replicate (3 - (decimal n).length) 0x30 ++ decimal n

/-- `strrchr`, as the offset it finds. -/
def strrchr (s : Bytes) (c : UInt8) : Option Nat :=
  match s.reverse.findIdx? (· = c) with
  | none => none
  | some i => some (s.length - 1 - i)

/-- The loop that shortens a name, with the number of rounds left. -/
def stripFilename : Nat → Bytes → Bytes
  | 0, filename => filename
  | n + 1, filename =>
      if filename.length > maxSystemFilename then
        match strrchr filename percent with
        | none => filename
        | some c => stripFilename n (filename.take c)
      else filename

def keyToFullpath (dir key : Bytes) : Bytes :=
  let r := keyToFilename key
  let filename := stripFilename r.1.length r.1
  snprintf maxFullpath (dir ++ [slash] ++ decimal3 r.2.1 ++ [slash] ++ decimal3 r.2.2 ++ [slash] ++
    filename.take maxSystemFilename)

/-! ## The calls of the engine -/

abbrev FsTree := DirTree UInt8

/-- An `int` in a comparison with a `u_int64_t`: a negative one is a large number. -/
def asUint64 (size : Int) : Nat := (if size < 0 then size + 2 ^ 64 else size).toNat

/-- `none` is -1. -/
def fsGet (dir : Bytes) (t : FsTree) (size : Int) (key : Bytes) : Option Bytes :=
  match t.openRead slash (keyToFullpath dir key) with
  | .error _ => none
  -- a directory cannot be read
  | .ok .dir => none
  | .ok (.file data) => if asUint64 size < data.length then none else some data

def fsDel (dir : Bytes) (t : FsTree) (key : Bytes) : FsTree × Int :=
  match t.unlink slash (keyToFullpath dir key) with
  | .error _ => (t, -1)
  | .ok t => (t, 0)

/-- The directories above a file, when the first attempt to open it has failed:
the tree they are in, or the one that is left when one cannot be made. -/
def makeDirs (t : FsTree) (dir1 dir2 : Bytes) : FsTree × Bool :=
  match t.mkdir slash dir2 with
  | .ok t => (t, true)
  | .error .exist => (t, true)
  | .error .noent =>
      match t.mkdir slash dir1 with
      | .ok t =>
          match t.mkdir slash dir2 with
          | .ok t => (t, true)
          | .error .exist => (t, true)
          | .error _ => (t, false)
      | .error .exist =>
          match t.mkdir slash dir2 with
          | .ok t => (t, true)
          | .error .exist => (t, true)
          | .error _ => (t, false)
      | .error _ => (t, false)
  | .error _ => (t, false)

/-- `open` of the new file, with the directories made if they are missing. -/
def openNew (dir : Bytes) (t : FsTree) (pathNew key : Bytes) : FsTree × Bool :=
  match t.openWrite slash pathNew with
  | .ok t => (t, true)
  | .error .noent =>
      let r := keyToFilename key
      let dir1 := snprintf (maxDirname + 4) (dir ++ [slash] ++ decimal3 r.2.1)
      let dir2 := snprintf (maxDirname + 4 + 4)
        (dir ++ [slash] ++ decimal3 r.2.1 ++ [slash] ++ decimal3 r.2.2)
      match makeDirs t dir1 dir2 with
      | (t, false) => (t, false)
      | (t, true) =>
          match t.openWrite slash pathNew with
          | .ok t => (t, true)
          | .error _ => (t, false)
  | .error _ => (t, false)

/-- The bytes written, or -1. -/
def fsSet (dir : Bytes) (t : FsTree) (value key : Bytes) : FsTree × Int :=
  let path := keyToFullpath dir key
  let pathNew := snprintf (maxFullpath + 4) (path ++ ascii ".new")
  match openNew dir t pathNew key with
  | (t, false) => (t, -1)
  | (t, true) =>
      let t := t.write pathNew value
      match t.rename slash pathNew path with
      | .error _ => (t, -1)
      | .ok t => (t, value.length)

/-! ## Sets that the system stops

`fs_set` again, with calls that may fail although the tree allows them: at one of its
calls, for a reason that is neither `ENOENT` nor `EEXIST`, or in the loop around
`write`. -/

/-- Where the system fails. What the calls of `write` return is listed up to the last
that is not as it should be; behind the list all there is is written. -/
inductive Fault where
  | openFirst | mkdirInner | mkdirOuter | mkdirInnerAgain | openAgain
  | write (rets : List Int)
  | rename
  deriving DecidableEq

/-- The result of `mkdir` where a directory that is already there is as good. -/
def made (t : FsTree) : Except Errno FsTree → FsTree × Bool
  | .ok t => (t, true)
  | .error .exist => (t, true)
  | .error _ => (t, false)

def makeDirsAt (fault : Option Fault) (t : FsTree) (dir1 dir2 : Bytes) : FsTree × Bool :=
  if fault = some .mkdirInner then (t, false)
  else
    match t.mkdir slash dir2 with
    | .error .noent =>
        if fault = some .mkdirOuter then (t, false)
        else
          match made t (t.mkdir slash dir1) with
          | (t, false) => (t, false)
          | (t, true) =>
              if fault = some .mkdirInnerAgain then (t, false) else made t (t.mkdir slash dir2)
    | r => made t r

def openNewAt (fault : Option Fault) (dir : Bytes) (t : FsTree) (pathNew key : Bytes) :
    FsTree × Bool :=
  if fault = some .openFirst then (t, false)
  else
    match t.openWrite slash pathNew with
    | .ok t => (t, true)
    | .error .noent =>
        let r := keyToFilename key
        let dir1 := snprintf (maxDirname + 4) (dir ++ [slash] ++ decimal3 r.2.1)
        let dir2 := snprintf (maxDirname + 4 + 4)
          (dir ++ [slash] ++ decimal3 r.2.1 ++ [slash] ++ decimal3 r.2.2)
        match makeDirsAt fault t dir1 dir2 with
        | (t, false) => (t, false)
        | (t, true) =>
            if fault = some .openAgain then (t, false)
            else
              match t.openWrite slash pathNew with
              | .ok t => (t, true)
              | .error _ => (t, false)
    | .error _ => (t, false)

/-- The loop around `write`: how much of `size` bytes is written, and whether the loop
comes to its end. A call writes no more than it is asked to. -/
def writeLoop (size : Nat) : List Int → Nat → Nat × Bool
  | [], _ => (size, true)
  | ret :: rets, written =>
      if written = size then (written, true)
      else if ret < 1 then (written, false)
      else writeLoop size rets (min (written + ret.toNat) size)

def Fault.rets : Option Fault → List Int
  | some (.write rets) => rets
  | _ => []

def fsSetAt (fault : Option Fault) (dir : Bytes) (t : FsTree) (value key : Bytes) : FsTree × Int :=
  let path := keyToFullpath dir key
  let pathNew := snprintf (maxFullpath + 4) (path ++ ascii ".new")
  match openNewAt fault dir t pathNew key with
  | (t, false) => (t, -1)
  | (t, true) =>
      let r := writeLoop value.length (Fault.rets fault) 0
      let t := t.write pathNew (value.take r.1)
      if ¬ r.2 then (t, -1)
      else if fault = some .rename then (t, -1)
      else
        match t.rename slash pathNew path with
        | .error _ => (t, -1)
        | .ok t => (t, value.length)

end Smalltable.Ref
