import Smalltable.Lib.Glob
import Smalltable.Ref.Storage
import Smalltable.Ref.StoFs

/-!
# Listing keys (`sto_fs.c`)

`fs_get_keys` walks the two levels of directories and the files in them, in the
order `glob` finds them. A key to start behind gives the numbers of its directories
and the name of its file. What `stat` says about a file comes in as a function of
its path, already put together to the number that is its `i_cas`.
-/

namespace Smalltable.Ref

/-- `sizeof(struct key_item)`, without the key. -/
def sizeofKeyItem : Nat := 9

/-- `struct key_item` -/
def keyItem (iCas : Nat) (key : Bytes) : Bytes := leBytes 8 iCas ++ [key.length.toUInt8] ++ key

/-- What is written so far, and the room that is left. -/
structure KeyBuf where
  out : Bytes := []
  room : Int
  deriving DecidableEq

/-- The loop of `fs_get_keys_traverse_c`. The files up to `filename` are passed
over; `false` is -1, the buffer being full. -/
def traverseFiles (stat : Bytes → Nat) : List Bytes → Option Bytes → KeyBuf → KeyBuf × Bool
  | [], _, buf => (buf, true)
  | off :: rest, some filename, buf =>
      traverseFiles stat rest
        (if DirTree.baseName slash off = filename then none else some filename) buf
  | off :: rest, none, buf =>
      match keyUnescape maxKeySize (DirTree.baseName slash off) with
      | some (some key) =>
          let item := keyItem (stat off) key
          if buf.room < sizeofKeyItem + key.length then (buf, false)
          else
            traverseFiles stat rest none
              { out := buf.out ++ item, room := buf.room - (sizeofKeyItem + key.length) }
      -- a broken name: the key is ignored
      | _ => traverseFiles stat rest none buf

def traverseC (stat : Bytes → Nat) (t : FsTree) (dir : Bytes) (filename : Option Bytes)
    (buf : KeyBuf) : KeyBuf × Bool :=
  traverseFiles stat (globPaths slash t.paths (snprintf (maxDirname + 4 + 4) (dir ++ ascii "/*")))
    filename buf

/-- The number at the end of a path. -/
@[irreducible] def dirNumber (off : Bytes) : Int := atoi (off.drop (off.length - 3))

/-- The loop of `fs_get_keys_traverse_a` and `fs_get_keys_traverse_b`: `same` goes
through the directory with the number `num`, `other` through those behind it. -/
def traverseDirs (t : FsTree) (num : Int) (same other : Bytes → KeyBuf → KeyBuf × Bool) :
    List Bytes → KeyBuf → KeyBuf × Bool
  | [], buf => (buf, true)
  | off :: rest, buf =>
      if t.find off ≠ some .dir then traverseDirs t num same other rest buf
      else if dirNumber off ≥ num then
        match (if dirNumber off = num then same off buf else other off buf) with
        | (buf, false) => (buf, false)
        | (buf, true) => traverseDirs t num same other rest buf
      else traverseDirs t num same other rest buf

def threeDigits : Bytes := ascii "[0-9][0-9][0-9]"

def traverseB (stat : Bytes → Nat) (t : FsTree) (dir : Bytes) (b : Int) (filename : Option Bytes)
    (buf : KeyBuf) : KeyBuf × Bool :=
  traverseDirs t b (fun off => traverseC stat t off filename) (fun off => traverseC stat t off none)
    (globPaths slash t.paths (snprintf (maxDirname + 4 + 4) (dir ++ [slash] ++ threeDigits))) buf

def traverseA (stat : Bytes → Nat) (t : FsTree) (dir : Bytes) (a b : Int) (filename : Option Bytes)
    (buf : KeyBuf) : KeyBuf × Bool :=
  traverseDirs t a (fun off => traverseB stat t off b filename)
    (fun off => traverseB stat t off (-1) none)
    (globPaths slash t.paths (snprintf (maxDirname + 4) (dir ++ [slash] ++ threeDigits))) buf

/-- What is written into the buffer. -/
def fsGetKeys (stat : Bytes → Nat) (dir : Bytes) (t : FsTree) (bufSz : Int) (startKey : Bytes) :
    Bytes :=
  if startKey.length ≠ 0 then
    let r := keyToFilename startKey
    (traverseA stat t dir r.2.1 r.2.2 (some r.1) { room := bufSz }).1.out
  else (traverseA stat t dir 0 0 none { room := bufSz }).1.out

/-- `storage_fs_create`. Reading ahead changes nothing. -/
def storageFs (stat : Bytes → Nat) (dir : Bytes) : StStorageApi FsTree where
  get := fsGet dir
  set := fsSet dir
  del := fsDel dir
  readahead := some fun t _ => t
  getKeys := some fun t bufSz key => some (fsGetKeys stat dir t bufSz key)

end Smalltable.Ref
