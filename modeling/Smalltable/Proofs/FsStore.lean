import Mathlib.Data.List.Infix
import Smalltable.Lib.Transition
import Smalltable.Proofs.KeyNames

/-!
# The file-system engine as a map

What a map from keys to byte strings answers is compared with what the engine
answers in a directory with nothing below it. The engine is such a map when every
key has a file of its own and the directories above it can be made. Both depend on
the directory and on the keys: the room for a path is that of a directory shorter
than 128 bytes, and a name that is cut may come out empty, or as that of another
key.

A map knows nothing of the room a caller has, so the runs that are compared are
those whose `get`s have room for what is stored (`HasRoom`). One that has not is
answered with -1, but `fs_get` leaves without closing the file it has opened, and
a server that has no descriptors left can open no file of any key. Descriptors
are not part of the tree, and no other call leaves one open.
-/

namespace Smalltable.Proofs

open Smalltable.Ref

/-! ## Calls and their answers

The calls are made of the tree and of the map side by side and their answers compared.
What is in the tree otherwise is not looked at. -/

inductive FsOp where
  | get (size : Int) (key : Bytes)
  | set (value key : Bytes)
  | del (key : Bytes)

def FsOp.key : FsOp → Bytes
  | .get _ key => key
  | .set _ key => key
  | .del key => key

inductive FsAnswer where
  | value (v : Option Bytes)
  | ret (r : Int)
  deriving DecidableEq

/-- A call of the engine, with what it answers. -/
def fsStep (dir : Bytes) (t : FsTree) : FsOp → FsTree × FsAnswer
  | .get size key => (t, .value (fsGet dir t size key))
  | .set value key =>
      let r := fsSet dir t value key
      (r.1, .ret r.2)
  | .del key =>
      let r := fsDel dir t key
      (r.1, .ret r.2)

/-- The same call to a map. The room of a `get` is compared as an unsigned number. -/
def mapStep (m : Bytes → Option Bytes) : FsOp → (Bytes → Option Bytes) × FsAnswer
  | .get size key =>
      (m, .value ((m key).bind fun v => if asUint64 size < v.length then none else some v))
  | .set value key => (Function.update m key (some value), .ret value.length)
  | .del key => (Function.update m key none, .ret (if m key = none then -1 else 0))

/-- All answers of a run. -/
def answers {σ : Type} (step : σ → FsOp → σ × FsAnswer) : σ → List FsOp → List FsAnswer
  | _, [] => []
  | s, op :: ops => (step s op).2 :: answers step (step s op).1 ops

theorem answers_eq {σ τ : Type} {f : σ → FsOp → σ × FsAnswer} {g : τ → FsOp → τ × FsAnswer}
    {P : τ → FsOp → Prop} (R : σ → τ → Prop)
    (hstep : ∀ s s' op, P s' op → R s s' → (f s op).2 = (g s' op).2 ∧ R (f s op).1 (g s' op).1) :
    ∀ (ops : List FsOp) (s : σ) (s' : τ), AllSteps (fun s op => some (g s op).1) P s' ops →
      R s s' → answers f s ops = answers g s' ops := by
  intro ops
  induction ops with
  | nil => intro s s' _ _; rfl
  | cons op rest ih =>
      intro s s' hP hR
      obtain ⟨hans, hnext⟩ := hstep s s' op hP.1 hR
      rw [answers, answers, hans, ih _ _ (hP.2 _ rfl) hnext]

/-- A `get` has room for what is stored. -/
def HasRoom (m : Bytes → Option Bytes) : FsOp → Prop
  | .get size key => ∀ v ∈ m key, (v.length : Int) ≤ size
  | _ => True

/-- The directory is there, and nothing below it. -/
structure EmptyDir (dir : Bytes) (t : FsTree) : Prop where
  top : t.find dir = some .dir
  below : ∀ q, t.find (dir ++ slash :: q) = none

/-- From an empty directory on, every run whose `get`s have room answers as a map
does. -/
def ActsAsMap (dir : Bytes) (keys : Bytes → Prop) : Prop :=
  ∀ t, EmptyDir dir t → ∀ ops : List FsOp,
    AllSteps (fun m op => some (mapStep m op).1) (fun m op => keys op.key ∧ HasRoom m op)
      (fun _ => none) ops →
    answers (fsStep dir) t ops = answers mapStep (fun _ => none) ops

/-- `path_new` -/
def pathNew (dir key : Bytes) : Bytes :=
  snprintf (maxFullpath + 4) (keyToFullpath dir key ++ ascii ".new")

/-- Every key has a file of its own, with a name the file system takes, and no new file
is in its way. -/
structure KeysApart (dir : Bytes) (keys : Bytes → Prop) : Prop where
  paths : ∀ k k', keys k → keys k' → k ≠ k' → keyToFullpath dir k ≠ keyToFullpath dir k'
  named : ∀ k, keys k → DirTree.baseName slash (keyToFullpath dir k) ≠ []
  short : ∀ k, keys k → (DirTree.baseName slash (keyToFullpath dir k)).length ≤ maxSystemFilename
  noSlash : ∀ k, keys k → slash ∉ DirTree.baseName slash (keyToFullpath dir k)
  temps : ∀ k k', keys k → keys k' → pathNew dir k ≠ keyToFullpath dir k'

/-- What is asked of the engine for these keys: files of their own, and the answers of a
map. -/
structure KeepsKeys (dir : Bytes) (keys : Bytes → Prop) : Prop where
  apart : KeysApart dir keys
  acts : ActsAsMap dir keys

theorem pathNew_eq (dir key : Bytes) : pathNew dir key = keyToFullpath dir key ++ ascii ".new" := by
  have hlen : (keyToFullpath dir key).length ≤ maxFullpath - 1 := by
    rw [keyToFullpath_eq, List.length_take]
    exact Nat.min_le_left _ _
  rw [pathNew, snprintf, List.take_of_length_le]
  rw [List.length_append, show (ascii ".new").length = 4 from rfl]
  rw [maxFullpath_eq] at hlen ⊢
  omega

/-! ## Calls on a key whose file is known

When the path of a key is known the calls are those of the tree on this path, and on the
path of its new file. -/

theorem fsGet_eq {dir key : Bytes} {t : FsTree} {v : Option Bytes} (size : Int)
    (htrim : DirTree.trimmed slash (keyToFullpath dir key) = keyToFullpath dir key)
    (hfind : t.find (keyToFullpath dir key) = v.map .file) :
    fsGet dir t size key
      = v.bind fun v => if asUint64 size < v.length then none else some v := by
  cases v with
  | none => simp [fsGet, DirTree.openRead, htrim, hfind]
  | some data => simp [fsGet, DirTree.openRead, htrim, hfind]

theorem fsDel_eq {dir key : Bytes} {t : FsTree} {v : Option Bytes}
    (htrim : DirTree.trimmed slash (keyToFullpath dir key) = keyToFullpath dir key)
    (hfind : t.find (keyToFullpath dir key) = v.map .file) :
    fsDel dir t key
      = if v = none then (t, -1) else (t.erase (keyToFullpath dir key), 0) := by
  cases v with
  | none => simp [fsDel, DirTree.unlink, htrim, hfind]
  | some data => simp [fsDel, DirTree.unlink, htrim, hfind]

/-- Once the new file is open, the rest of `fs_set` puts it in its place. -/
theorem fsSet_eq {dir key : Bytes} {t t' : FsTree} {v : Option Bytes} (value : Bytes)
    (htrim : DirTree.trimmed slash (keyToFullpath dir key) = keyToFullpath dir key)
    (hne : keyToFullpath dir key ≠ pathNew dir key)
    (hopen : openNew dir t (pathNew dir key) key = (t', true))
    (hparent : t'.find (DirTree.parent slash (keyToFullpath dir key)) = some .dir)
    (hparentNew : DirTree.parent slash (keyToFullpath dir key) ≠ pathNew dir key)
    (hfind : t'.find (keyToFullpath dir key) = v.map .file) :
    fsSet dir t value key
      = (((t'.write (pathNew dir key) value).erase (pathNew dir key)).put
          (keyToFullpath dir key) (.file value), (value.length : Int)) := by
  have hnew : (t'.write (pathNew dir key) value).find (pathNew dir key) = some (.file value) := by
    rw [DirTree.write, DirTree.find_put, if_pos rfl]
  have hold : (t'.write (pathNew dir key) value).find (keyToFullpath dir key) = v.map .file := by
    rw [DirTree.write, DirTree.find_put, if_neg hne, hfind]
  have hcheck : DirTree.checkParent slash (t'.write (pathNew dir key) value)
      (keyToFullpath dir key) = .ok () := by
    rw [DirTree.checkParent, DirTree.write, DirTree.find_put, if_neg hparentNew, hparent]
  have hrename : (t'.write (pathNew dir key) value).rename slash (pathNew dir key)
      (keyToFullpath dir key)
      = .ok (((t'.write (pathNew dir key) value).erase (pathNew dir key)).put
          (keyToFullpath dir key) (.file value)) := by
    cases v with
    | none => simp [DirTree.rename, hnew, htrim, hold, hcheck, Except.map]
    | some data => simp [DirTree.rename, hnew, htrim, hold, hcheck, Except.map]
  rw [pathNew] at hopen hrename ⊢
  simp only [fsSet, hopen, hrename]

/-! ## Layouts

A layout says where the files of the keys are, and that no two keys share one. In a
layout a call acts as on a map, since it finds the file of its key and changes no other.
There are two layouts, by the length of the directory. -/

/-- The tree holds `m`; `above` are the directories that the engine makes. -/
structure Stores (dir : Bytes) (keys : Bytes → Prop) (above : Bytes → List Bytes)
    (m : Bytes → Option Bytes) (t : FsTree) : Prop where
  top : t.find dir = some .dir
  files : ∀ k, keys k → t.find (keyToFullpath dir k) = (m k).map .file
  temps : ∀ k, keys k → t.find (pathNew dir k) = none
  dirs : ∀ k, keys k → ∀ q ∈ above k, t.find q = none ∨ t.find q = some .dir

/-- What a way to lay out files has to offer for the engine to be a map. -/
structure Layout (dir : Bytes) (keys : Bytes → Prop) (above : Bytes → List Bytes) : Prop where
  apart : KeysApart dir keys
  trimmed : ∀ k, keys k →
    DirTree.trimmed slash (keyToFullpath dir k) = keyToFullpath dir k
  below : ∀ k, keys k → ∀ q ∈ keyToFullpath dir k :: pathNew dir k :: above k,
    ∃ r, q = dir ++ slash :: r
  parent : ∀ k, keys k → DirTree.parent slash (keyToFullpath dir k) ∈ dir :: above k
  free : ∀ k k', keys k → keys k' → ∀ q ∈ above k', q ≠ keyToFullpath dir k ∧ q ≠ pathNew dir k
  opens : ∀ m t k, keys k → Stores dir keys above m t →
    ∃ t', openNew dir t (pathNew dir k) k = (t', true) ∧
      t'.find (DirTree.parent slash (keyToFullpath dir k)) = some .dir ∧
      ∀ q, q ≠ pathNew dir k → t'.find q = t.find q ∨ q ∈ above k ∧ t'.find q = some .dir

section Layout

variable {dir : Bytes} {keys : Bytes → Prop} {above : Bytes → List Bytes}

theorem append_slash_ne (dir r : Bytes) : dir ++ slash :: r ≠ dir := by
  intro h
  have hlen := congrArg List.length h
  rw [List.length_append, List.length_cons] at hlen
  omega

theorem Layout.dir_ne (hl : Layout dir keys above) {k : Bytes} (hk : keys k) :
    dir ≠ keyToFullpath dir k ∧ dir ≠ pathNew dir k := by
  obtain ⟨r, hr⟩ := hl.below k hk _ List.mem_cons_self
  obtain ⟨r', hr'⟩ := hl.below k hk _ (List.mem_cons_of_mem _ List.mem_cons_self)
  rw [hr, hr']
  exact ⟨(append_slash_ne dir r).symm, (append_slash_ne dir r').symm⟩

/-- A directory is neither a file nor one that is being written. -/
theorem Layout.dirs_ne (hl : Layout dir keys above) {k k' : Bytes} (hk : keys k) (hk' : keys k')
    {q : Bytes} (hq : q ∈ dir :: above k') : q ≠ keyToFullpath dir k ∧ q ≠ pathNew dir k := by
  rcases List.mem_cons.mp hq with rfl | hq
  · exact hl.dir_ne hk
  · exact hl.free k k' hk hk' q hq

theorem Layout.pathNew_inj (hl : Layout dir keys above) {k k' : Bytes} (hk : keys k)
    (hk' : keys k') (h : pathNew dir k = pathNew dir k') : k = k' := by
  rw [pathNew_eq, pathNew_eq] at h
  by_contra hne
  exact hl.apart.paths k k' hk hk' hne (List.append_cancel_right h)

theorem Layout.stores_empty (hl : Layout dir keys above) {t : FsTree} (ht : EmptyDir dir t) :
    Stores dir keys above (fun _ => none) t := by
  have hnone : ∀ k, keys k → ∀ q ∈ keyToFullpath dir k :: pathNew dir k :: above k,
      t.find q = none := by
    intro k hk q hq
    obtain ⟨r, rfl⟩ := hl.below k hk q hq
    exact ht.below r
  refine ⟨ht.top, ?_, ?_, ?_⟩
  · intro k hk
    exact hnone k hk _ List.mem_cons_self
  · intro k hk
    exact hnone k hk _ (List.mem_cons_of_mem _ List.mem_cons_self)
  · intro k hk q hq
    exact .inl (hnone k hk q (List.mem_cons_of_mem _ (List.mem_cons_of_mem _ hq)))

theorem Layout.stores_del (hl : Layout dir keys above) {m : Bytes → Option Bytes} {t : FsTree}
    (hs : Stores dir keys above m t) {k : Bytes} (hk : keys k) :
    Stores dir keys above (Function.update m k none) (t.erase (keyToFullpath dir k)) := by
  refine ⟨?_, ?_, ?_, ?_⟩
  · rw [DirTree.find_erase, if_neg (hl.dir_ne hk).1]
    exact hs.top
  · intro k' hk'
    by_cases hkk : k' = k
    · subst hkk
      rw [DirTree.find_erase, if_pos rfl, Function.update_self]
      rfl
    · rw [DirTree.find_erase, if_neg (hl.apart.paths k' k hk' hk hkk),
        Function.update_of_ne hkk]
      exact hs.files k' hk'
  · intro k' hk'
    rw [DirTree.find_erase, if_neg (hl.apart.temps k' k hk' hk)]
    exact hs.temps k' hk'
  · intro k' hk' q hq
    rw [DirTree.find_erase, if_neg (hl.free k k' hk hk' q hq).1]
    exact hs.dirs k' hk' q hq

/-- What `fs_set` changes: the file is there, the new one is gone, and directories
above the file may have been made. -/
theorem Layout.set_find (hl : Layout dir keys above) {m : Bytes → Option Bytes} {t : FsTree}
    (hs : Stores dir keys above m t) {k : Bytes} (hk : keys k) (value : Bytes) :
    (fsSet dir t value k).2 = value.length ∧
      (fsSet dir t value k).1.find (keyToFullpath dir k) = some (.file value) ∧
      (fsSet dir t value k).1.find (pathNew dir k) = none ∧
      ∀ q, q ≠ keyToFullpath dir k → q ≠ pathNew dir k →
        (fsSet dir t value k).1.find q = t.find q ∨
          q ∈ above k ∧ (fsSet dir t value k).1.find q = some .dir := by
  obtain ⟨t', hopen, hparent, hrest⟩ := hl.opens m t k hk hs
  have hne : keyToFullpath dir k ≠ pathNew dir k := (hl.apart.temps k k hk hk).symm
  have hfile : t'.find (keyToFullpath dir k) = (m k).map .file := by
    rcases hrest _ hne with hsame | ⟨hmem, -⟩
    · rw [hsame]
      exact hs.files k hk
    · exact absurd rfl (hl.free k k hk hk _ hmem).1
  have hset := fsSet_eq value (hl.trimmed k hk) hne hopen hparent
    (hl.dirs_ne hk hk (hl.parent k hk)).2 hfile
  refine ⟨by rw [hset], ?_, ?_, fun q hq hqn => ?_⟩
  · rw [hset, DirTree.find_put, if_pos rfl]
  · rw [hset, DirTree.find_put, if_neg hne.symm, DirTree.find_erase, if_pos rfl]
  · have hfind : (fsSet dir t value k).1.find q = t'.find q := by
      rw [hset, DirTree.find_put, if_neg hq, DirTree.find_erase, if_neg hqn, DirTree.write,
        DirTree.find_put, if_neg hqn]
    rw [hfind]
    exact hrest q hqn

theorem Layout.stores_set (hl : Layout dir keys above) {m : Bytes → Option Bytes} {t : FsTree}
    (hs : Stores dir keys above m t) {k : Bytes} (hk : keys k) (value : Bytes) :
    Stores dir keys above (Function.update m k (some value)) (fsSet dir t value k).1 := by
  obtain ⟨-, hfile, hnew, hrest⟩ := hl.set_find hs hk value
  have hdir : ∀ k', keys k' → ∀ q ∈ dir :: above k',
      (fsSet dir t value k).1.find q = t.find q ∨ (fsSet dir t value k).1.find q = some .dir := by
    intro k' hk' q hq
    have hqne := hl.dirs_ne hk hk' hq
    exact (hrest q hqne.1 hqne.2).imp id And.right
  refine ⟨?_, ?_, ?_, ?_⟩
  · rcases hdir k hk dir List.mem_cons_self with h | h
    · rw [h]
      exact hs.top
    · exact h
  · intro k' hk'
    by_cases hkk : k' = k
    · subst hkk
      rw [hfile, Function.update_self]
      rfl
    · rw [Function.update_of_ne hkk]
      rcases hrest _ (hl.apart.paths k' k hk' hk hkk) (hl.apart.temps k k' hk hk').symm with
        hsame | ⟨hmem, -⟩
      · rw [hsame]
        exact hs.files k' hk'
      · exact absurd rfl (hl.free k' k hk' hk _ hmem).1
  · intro k' hk'
    by_cases hkk : k' = k
    · rw [hkk, hnew]
    · have hne : pathNew dir k' ≠ pathNew dir k := fun h => hkk (hl.pathNew_inj hk' hk h)
      rcases hrest _ (hl.apart.temps k' k hk' hk) hne with hsame | ⟨hmem, -⟩
      · rw [hsame]
        exact hs.temps k' hk'
      · exact absurd rfl (hl.free k' k hk' hk _ hmem).2
  · intro k' hk' q hq
    rcases hdir k' hk' q (List.mem_cons_of_mem _ hq) with h | h
    · rw [h]
      exact hs.dirs k' hk' q hq
    · exact .inr h

theorem Layout.step (hl : Layout dir keys above) {m : Bytes → Option Bytes} {t : FsTree}
    {op : FsOp} (hop : keys op.key) (hs : Stores dir keys above m t) :
    (fsStep dir t op).2 = (mapStep m op).2 ∧
      Stores dir keys above (mapStep m op).1 (fsStep dir t op).1 := by
  cases op with
  | get size k =>
      refine ⟨?_, hs⟩
      simp only [fsStep, mapStep, fsGet_eq size (hl.trimmed k hop) (hs.files k hop)]
  | set value k =>
      exact ⟨congrArg FsAnswer.ret (hl.set_find hs hop value).1, hl.stores_set hs hop value⟩
  | del k =>
      have hdel := fsDel_eq (hl.trimmed k hop) (hs.files k hop)
      by_cases hm : m k = none
      · rw [if_pos hm] at hdel
        have hsame : Function.update m k none = m := by rw [← hm, Function.update_eq_self]
        simp only [fsStep, mapStep, hdel, if_pos hm, hsame]
        exact ⟨trivial, hs⟩
      · rw [if_neg hm] at hdel
        simp only [fsStep, mapStep, hdel, if_neg hm]
        exact ⟨trivial, hl.stores_del hs hop⟩

theorem Layout.actsAsMap (hl : Layout dir keys above) : ActsAsMap dir keys := by
  intro t ht ops hops
  refine answers_eq (fun t m => Stores dir keys above m t) ?_ ops t _ hops (hl.stores_empty ht)
  intro t m op hop hs
  exact hl.step hop.1 hs

end Layout

/-! ## Two levels of directories

Below a directory of the usual length the path has room for both numbers and for the
name. The names are those of `shortName`, so keys are apart when their names are. -/

/-- The name of a key before it is cut. -/
def escaped (key : Bytes) : Bytes := key.flatMap keyEscapeByte

/-- The directory of the first number. -/
def dirA (dir key : Bytes) : Bytes := dir ++ slash :: decimal3 (keyToFilename key).2.1

/-- The directory of both numbers, which has the file. -/
def dirB (dir key : Bytes) : Bytes := dirA dir key ++ slash :: decimal3 (keyToFilename key).2.2

/-- The name of the file, cut if it has to be. -/
def fileName (key : Bytes) : Bytes := shortName (keyToFilename key).1

theorem placeOf_eq (dir key : Bytes) :
    dir ++ slash :: placeOf key = dirB dir key ++ slash :: fileName key := by
  simp only [placeOf, dirB, dirA, fileName, List.append_assoc, List.cons_append]

theorem length_dirs (dir key : Bytes) :
    (dirA dir key).length = dir.length + 4 ∧ (dirB dir key).length = dir.length + 8 := by
  obtain ⟨ha, hb⟩ := hash_lt key
  have hA : (dirA dir key).length = dir.length + 4 := by
    rw [dirA, List.length_append, List.length_cons, length_decimal3 ha]
  refine ⟨hA, ?_⟩
  rw [dirB, List.length_append, List.length_cons, length_decimal3 hb, hA]

theorem decimal3_ne_nil {n : Nat} (h : n < 251) : decimal3 n ≠ [] := by
  rw [decimal3_eq h]
  exact List.cons_ne_nil _ _

theorem parent_dirA (dir key : Bytes) : DirTree.parent slash (dirA dir key) = dir :=
  DirTree.parent_append slash dir (slash_not_mem_decimal3 (hash_lt key).1)

theorem parent_dirB (dir key : Bytes) : DirTree.parent slash (dirB dir key) = dirA dir key :=
  DirTree.parent_append slash _ (slash_not_mem_decimal3 (hash_lt key).2)

theorem trimmed_dirA (dir key : Bytes) : DirTree.trimmed slash (dirA dir key) = dirA dir key :=
  DirTree.trimmed_append slash dir (decimal3_ne_nil (hash_lt key).1)
    (slash_not_mem_decimal3 (hash_lt key).1)

theorem trimmed_dirB (dir key : Bytes) : DirTree.trimmed slash (dirB dir key) = dirB dir key :=
  DirTree.trimmed_append slash _ (decimal3_ne_nil (hash_lt key).2)
    (slash_not_mem_decimal3 (hash_lt key).2)

theorem fileName_chars {key : Bytes} (hsz : key.length ≤ maxKeySize) {c : UInt8}
    (h : c ∈ fileName key) : c ≠ slash ∧ c ≠ 0x2E ∧ c ≠ 0 ∧ c.toNat < 0x80 :=
  nameChars_spec c (filename_chars key hsz (mem_shortName h))

theorem slash_not_mem_fileName {key : Bytes} (hsz : key.length ≤ maxKeySize) :
    slash ∉ fileName key := fun h => (fileName_chars hsz h).1 rfl

/-- The directories for a file are there, or are made. -/
theorem makeDirs_spec {dir key : Bytes} {t : FsTree} (htop : t.find dir = some .dir)
    (hA : t.find (dirA dir key) = none ∨ t.find (dirA dir key) = some .dir)
    (hB : t.find (dirB dir key) = none ∨ t.find (dirB dir key) = some .dir) :
    ∃ t', makeDirs t (dirA dir key) (dirB dir key) = (t', true) ∧
      t'.find (dirB dir key) = some .dir ∧
      ∀ q, t'.find q = t.find q ∨
        (q = dirA dir key ∨ q = dirB dir key) ∧ t'.find q = some .dir := by
  have hput : ∀ (t : FsTree) (p q : Bytes), (t.put p .dir).find q = t.find q ∨
      q = p ∧ (t.put p .dir).find q = some .dir := by
    intro t p q
    rw [DirTree.find_put]
    by_cases hq : q = p
    · exact .inr ⟨hq, if_pos hq⟩
    · exact .inl (if_neg hq)
  rcases hB with hB | hB
  · rcases hA with hA | hA
    · have hne : dirB dir key ≠ dirA dir key := append_slash_ne _ _
      have h2 : (t.put (dirA dir key) .dir).find (dirB dir key) = none := by
        rw [DirTree.find_put, if_neg hne, hB]
      have h1 : (t.put (dirA dir key) .dir).find (DirTree.parent slash (dirB dir key))
          = some .dir := by
        rw [parent_dirB, DirTree.find_put, if_pos rfl]
      refine ⟨(t.put (dirA dir key) .dir).put (dirB dir key) .dir, ?_, ?_, fun q => ?_⟩
      · rw [makeDirs, DirTree.mkdir_noent (trimmed_dirB dir key) hB (by rw [parent_dirB, hA])]
        simp only []
        rw [DirTree.mkdir_new (trimmed_dirA dir key) hA (by rw [parent_dirA, htop])]
        simp only []
        rw [DirTree.mkdir_new (trimmed_dirB dir key) h2 h1]
      · rw [DirTree.find_put, if_pos rfl]
      · rcases hput (t.put (dirA dir key) .dir) (dirB dir key) q with h | ⟨h, h'⟩
        · rw [h]
          exact (hput t (dirA dir key) q).imp id fun h => ⟨.inl h.1, h.2⟩
        · exact .inr ⟨.inr h, h'⟩
    · refine ⟨t.put (dirB dir key) .dir, ?_, ?_, fun q => ?_⟩
      · rw [makeDirs, DirTree.mkdir_new (trimmed_dirB dir key) hB (by rw [parent_dirB, hA])]
      · rw [DirTree.find_put, if_pos rfl]
      · exact (hput t (dirB dir key) q).imp id fun h => ⟨.inr h.1, h.2⟩
  · refine ⟨t, ?_, hB, fun q => .inl rfl⟩
    rw [makeDirs, DirTree.mkdir_exist (trimmed_dirB dir key) hB]

/-- The names of the directories are not cut. -/
theorem dirs_text {dir : Bytes} (hdir : dir.length < maxDirname) (key : Bytes) :
    snprintf (maxDirname + 4) (dir ++ [slash] ++ decimal3 (keyToFilename key).2.1) = dirA dir key ∧
      snprintf (maxDirname + 4 + 4) (dir ++ [slash] ++ decimal3 (keyToFilename key).2.1 ++ [slash]
        ++ decimal3 (keyToFilename key).2.2) = dirB dir key := by
  have hlen := length_dirs dir key
  rw [maxDirname] at hdir
  have htextA : dir ++ [slash] ++ decimal3 (keyToFilename key).2.1 = dirA dir key := by
    rw [List.append_assoc, List.singleton_append, dirA]
  constructor
  · rw [htextA, snprintf, List.take_of_length_le]
    rw [maxDirname]
    omega
  · rw [htextA, List.append_assoc, List.singleton_append, ← dirB, snprintf, List.take_of_length_le]
    rw [maxDirname]
    omega

/-- A directory that leaves room for the others. -/
theorem openNew_short {dir key : Bytes} (hdir : dir.length < maxDirname) {t : FsTree}
    (htop : t.find dir = some .dir)
    (hA : t.find (dirA dir key) = none ∨ t.find (dirA dir key) = some .dir)
    (hB : t.find (dirB dir key) = none ∨ t.find (dirB dir key) = some .dir)
    {name : Bytes} (hne : name ≠ []) (hslash : slash ∉ name)
    (hfind : t.find (dirB dir key ++ slash :: name) = none) :
    ∃ t', openNew dir t (dirB dir key ++ slash :: name) key = (t', true) ∧
      t'.find (dirB dir key) = some .dir ∧
      ∀ q, q ≠ dirB dir key ++ slash :: name → t'.find q = t.find q ∨
        (q = dirA dir key ∨ q = dirB dir key) ∧ t'.find q = some .dir := by
  have hlen := length_dirs dir key
  rw [maxDirname] at hdir
  have htrim := DirTree.trimmed_append slash (dirB dir key) hne hslash
  have hparent := DirTree.parent_append slash (dirB dir key) hslash
  have hnew : dirB dir key ≠ dirB dir key ++ slash :: name := (append_slash_ne _ _).symm
  have hnewA : dirA dir key ≠ dirB dir key ++ slash :: name := by
    intro h
    have h := congrArg List.length h
    rw [List.length_append, hlen.1, hlen.2] at h
    omega
  rcases hB with hB | hB
  · -- the first `open` fails, and the directories are made
    obtain ⟨t1, hmake, h1B, h1⟩ := makeDirs_spec htop hA (.inl hB)
    have h1new : t1.find (dirB dir key ++ slash :: name) = none := by
      rcases h1 (dirB dir key ++ slash :: name) with h | ⟨h | h, -⟩
      · rw [h, hfind]
      · exact absurd h.symm hnewA
      · exact absurd h.symm hnew
    refine ⟨t1.put (dirB dir key ++ slash :: name) (.file []), ?_, ?_, fun q hq => ?_⟩
    · obtain ⟨htextA, htextB⟩ := dirs_text (show dir.length < maxDirname from hdir) key
      rw [openNew, DirTree.openWrite_noent htrim hfind (by rw [hparent, hB])]
      simp only [htextA, htextB, hmake]
      rw [DirTree.openWrite_new htrim h1new (by rw [hparent, h1B])]
    · rw [DirTree.find_put, if_neg hnew, h1B]
    · rw [DirTree.find_put, if_neg hq]
      exact h1 q
  · refine ⟨t.put (dirB dir key ++ slash :: name) (.file []), ?_, ?_, fun q hq => .inl ?_⟩
    · rw [openNew, DirTree.openWrite_new htrim hfind (by rw [hparent, hB])]
    · rw [DirTree.find_put, if_neg hnew, hB]
    · rw [DirTree.find_put, if_neg hq]

/-- What is left of the names is something, and tells the keys in one directory
apart. -/
structure NamesApart (keys : Bytes → Prop) : Prop where
  named : ∀ k, keys k → shortName (escaped k) ≠ []
  apart : ∀ k k', keys k → keys k' → k ≠ k' →
    hashKr (escaped k) % 251 = hashKr (escaped k') % 251 →
      hashSum (escaped k) % 239 = hashSum (escaped k') % 239 →
        shortName (escaped k) ≠ shortName (escaped k')

theorem keyToFilename_eq {key : Bytes} (hsz : key.length ≤ maxKeySize) :
    keyToFilename key
      = (escaped key, hashKr (escaped key) % 251, hashSum (escaped key) % 239) := by
  have hname := keyToFilename_name hsz
  simp only [keyToFilename] at hname ⊢
  rw [hname, escaped]

section Short

variable {dir : Bytes} {keys : Bytes → Prop}

theorem pathNew_short (hdir : dir.length < maxDirname) (key : Bytes) :
    pathNew dir key = dirB dir key ++ slash :: (fileName key ++ ascii ".new") := by
  rw [pathNew_eq, keyToFullpath_short hdir, placeOf_eq, List.append_assoc, List.cons_append]

theorem newName_ok {key : Bytes} (hsz : key.length ≤ maxKeySize) :
    fileName key ++ ascii ".new" ≠ [] ∧ slash ∉ fileName key ++ ascii ".new" := by
  refine ⟨List.append_ne_nil_of_right_ne_nil _ (by decide), fun h => ?_⟩
  rcases List.mem_append.mp h with h | h
  · exact slash_not_mem_fileName hsz h
  · exact absurd h (by decide)

/-- The parts of a path can be read off it. -/
theorem path_inj {k k' name name' : Bytes}
    (h : dirB dir k ++ slash :: name = dirB dir k' ++ slash :: name') :
    (keyToFilename k).2 = (keyToFilename k').2 ∧ name = name' := by
  obtain ⟨hB, hname⟩ := List.append_inj h ((length_dirs dir k).2.trans (length_dirs dir k').2.symm)
  obtain ⟨hA, hb⟩ := List.append_inj hB ((length_dirs dir k).1.trans (length_dirs dir k').1.symm)
  have ha := List.append_cancel_left hA
  rw [List.cons.injEq] at hname ha hb
  obtain ⟨hka, hkb⟩ := hash_lt k
  obtain ⟨hka', hkb'⟩ := hash_lt k'
  exact ⟨Prod.ext (decimal3_inj hka hka' ha.2) (decimal3_inj hkb hkb' hb.2), hname.2⟩

theorem keysApart_short (hdir : dir.length < maxDirname)
    (hsz : ∀ k, keys k → k.length ≤ maxKeySize) :
    KeysApart dir keys ↔ NamesApart keys := by
  have hbase : ∀ k, keys k → DirTree.baseName slash (keyToFullpath dir k) = fileName k := by
    intro k hk
    rw [keyToFullpath_short hdir, placeOf_eq,
      DirTree.baseName_append slash _ (slash_not_mem_fileName (hsz k hk))]
  have hfile : ∀ k, keys k → fileName k = shortName (escaped k) := by
    intro k hk
    rw [fileName, keyToFilename_eq (hsz k hk)]
  constructor
  · intro h
    refine ⟨fun k hk => ?_, fun k k' hk hk' hne ha hb hname => ?_⟩
    · rw [← hfile k hk, ← hbase k hk]
      exact h.named k hk
    · refine h.paths k k' hk hk' hne ?_
      rw [keyToFullpath_short hdir, keyToFullpath_short hdir, placeOf, placeOf,
        keyToFilename_eq (hsz k hk), keyToFilename_eq (hsz k' hk')]
      simp only [ha, hb, hname]
  · intro h
    refine ⟨fun k k' hk hk' hne hpath => ?_, fun k hk => ?_, fun k hk => ?_, fun k hk => ?_,
      fun k k' hk hk' hpath => ?_⟩
    · rw [keyToFullpath_short hdir, keyToFullpath_short hdir, placeOf_eq, placeOf_eq] at hpath
      obtain ⟨hhash, hname⟩ := path_inj hpath
      rw [keyToFilename_eq (hsz k hk), keyToFilename_eq (hsz k' hk'), Prod.mk.injEq] at hhash
      rw [hfile k hk, hfile k' hk'] at hname
      exact h.apart k k' hk hk' hne hhash.1 hhash.2 hname
    · rw [hbase k hk, hfile k hk]
      exact h.named k hk
    · rw [hbase k hk]
      exact length_shortName _
    · rw [hbase k hk]
      exact slash_not_mem_fileName (hsz k hk)
    · rw [pathNew_short hdir, keyToFullpath_short hdir, placeOf_eq] at hpath
      have hdot : (0x2E : UInt8) ∈ fileName k' := by
        rw [← (path_inj hpath).2]
        exact List.mem_append_right _ (by decide)
      exact (fileName_chars (hsz k' hk') hdot).2.1 rfl

theorem layout_short (hdir : dir.length < maxDirname) (hsz : ∀ k, keys k → k.length ≤ maxKeySize)
    (h : NamesApart keys) : Layout dir keys fun k => [dirA dir k, dirB dir k] := by
  have hfull : ∀ k, keyToFullpath dir k = dirB dir k ++ slash :: fileName k := by
    intro k
    rw [keyToFullpath_short hdir, placeOf_eq]
  have hname : ∀ k, keys k → fileName k ≠ [] := by
    intro k hk
    rw [fileName, keyToFilename_eq (hsz k hk)]
    exact h.named k hk
  have hmem : ∀ k q, q ∈ [dirA dir k, dirB dir k] → q = dirA dir k ∨ q = dirB dir k := by
    intro k q hq
    simpa using hq
  refine ⟨(keysApart_short hdir hsz).mpr h, fun k hk => ?_, fun k hk q hq => ?_, fun k hk => ?_,
    fun k k' hk hk' q hq => ?_, fun m t k hk hs => ?_⟩
  · rw [hfull]
    exact DirTree.trimmed_append slash _ (hname k hk) (slash_not_mem_fileName (hsz k hk))
  · rcases List.mem_cons.mp hq with rfl | hq
    · exact ⟨placeOf k, keyToFullpath_short hdir k⟩
    · rcases List.mem_cons.mp hq with rfl | hq
      · refine ⟨placeOf k ++ ascii ".new", ?_⟩
        rw [pathNew_eq, keyToFullpath_short hdir, List.append_assoc, List.cons_append]
      · rcases hmem k q hq with rfl | rfl
        · exact ⟨_, rfl⟩
        · exact ⟨_, by rw [dirB, dirA, List.append_assoc, List.cons_append]⟩
  · rw [hfull, DirTree.parent_append slash _ (slash_not_mem_fileName (hsz k hk))]
    simp
  · -- the paths have different lengths
    have hlen := length_dirs dir k
    have hlen' := length_dirs dir k'
    rw [hfull, pathNew_short hdir]
    constructor
    · intro heq
      have heq := congrArg List.length heq
      rw [List.length_append, List.length_cons] at heq
      rcases hmem k' q hq with rfl | rfl
      · omega
      · omega
    · intro heq
      have heq := congrArg List.length heq
      rw [List.length_append, List.length_cons] at heq
      rcases hmem k' q hq with rfl | rfl
      · omega
      · omega
  · obtain ⟨hne, hslash⟩ := newName_ok (hsz k hk)
    have htemp := hs.temps k hk
    rw [pathNew_short hdir] at htemp ⊢
    obtain ⟨t', hopen, hB, hrest⟩ := openNew_short hdir hs.top
      (hs.dirs k hk _ List.mem_cons_self)
      (hs.dirs k hk _ (List.mem_cons_of_mem _ List.mem_cons_self)) hne hslash htemp
    refine ⟨t', hopen, ?_, fun q hq => (hrest q hq).imp id fun h => ⟨?_, h.2⟩⟩
    · rw [hfull, DirTree.parent_append slash _ (slash_not_mem_fileName (hsz k hk)), hB]
    · rcases h.1 with rfl | rfl <;> simp

end Short

/-! ## Directories without room for others

In a longer directory the path is cut, in the name, in the numbers or in the directory
itself. But for a few lengths nothing can be stored then: the new file cannot be made,
or cannot be moved to a path that is a directory. -/

theorem makeDirs_inv {P : FsTree → Prop} (dir1 dir2 : Bytes)
    (hstep : ∀ t t' p, p = dir1 ∨ p = dir2 → P t → t.mkdir slash p = .ok t' → P t') {t : FsTree}
    (h : P t) : P (makeDirs t dir1 dir2).1 := by
  unfold makeDirs
  split
  · next hmk => exact hstep t _ _ (.inr rfl) h hmk
  · exact h
  · split
    · next hmk =>
        have h1 := hstep t _ _ (.inl rfl) h hmk
        split
        · next hmk2 => exact hstep _ _ _ (.inr rfl) h1 hmk2
        · exact h1
        · exact h1
    · split
      · next hmk2 => exact hstep _ _ _ (.inr rfl) h hmk2
      · exact h
      · exact h
    · exact h
  · exact h

/-- What the calls that make something keep, `openNew` keeps. -/
theorem openNew_inv {P : FsTree → Prop} {dir key path : Bytes} {t : FsTree}
    (hmkdir : ∀ t t' p, P t → t.mkdir slash p = .ok t' → P t')
    (hopen : ∀ t t', P t → t.openWrite slash path = .ok t' → P t') (h : P t) :
    P (openNew dir t path key).1 := by
  unfold openNew
  split
  · next h1 => exact hopen t _ h h1
  · simp only []
    have hmake : ∀ dir1 dir2, P (makeDirs t dir1 dir2).1 := fun dir1 dir2 =>
      makeDirs_inv dir1 dir2 (fun t t' p _ => hmkdir t t' p) h
    split
    · next heq => exact (congrArg (fun r => P r.1) heq).mp (hmake _ _)
    · next heq =>
        have hmake : P _ := (congrArg (fun r => P r.1) heq).mp (hmake _ _)
        split
        · next h2 => exact hopen _ _ hmake h2
        · exact hmake
  · exact h

/-- A file cannot be moved to where a directory is. -/
theorem fsSet_onto_dir {dir key : Bytes} {t : FsTree} (value : Bytes)
    (hdir : t.find (DirTree.trimmed slash (keyToFullpath dir key)) = some .dir) :
    (fsSet dir t value key).2 = -1 := by
  have hne : DirTree.trimmed slash (keyToFullpath dir key) ≠ pathNew dir key := by
    intro h
    have hle := DirTree.length_trimmed_le slash (keyToFullpath dir key)
    rw [h, pathNew_eq, List.length_append, show (ascii ".new").length = 4 from rfl] at hle
    omega
  have hkeep : (openNew dir t (pathNew dir key) key).1.find
      (DirTree.trimmed slash (keyToFullpath dir key)) = some .dir :=
    openNew_inv (P := fun t => t.find (DirTree.trimmed slash (keyToFullpath dir key)) = some .dir)
      (fun _ _ _ ht hmk => DirTree.mkdir_keeps hmk ht)
      (fun _ _ ht hopen => DirTree.openWrite_keeps hopen ht) hdir
  rw [fsSet, ← pathNew]
  cases hopen : openNew dir t (pathNew dir key) key with
  | mk t1 opened =>
      rw [hopen] at hkeep
      cases opened with
      | false => rfl
      | true =>
          have hfind : (t1.write (pathNew dir key) value).find
              (DirTree.trimmed slash (keyToFullpath dir key)) = some .dir := by
            rw [DirTree.write, DirTree.find_put, if_neg hne, hkeep]
          have hnew : (t1.write (pathNew dir key) value).find (pathNew dir key)
              = some (.file value) := by
            rw [DirTree.write, DirTree.find_put, if_pos rfl]
          simp only [DirTree.rename, hnew, hfind]

/-- Nothing can be opened where the directory above is missing and too long to be
made. -/
theorem fsSet_no_parent {dir key : Bytes} {t : FsTree} (value : Bytes)
    (htrim : DirTree.trimmed slash (pathNew dir key) = pathNew dir key)
    (hnew : t.find (pathNew dir key) = none)
    (hparent : t.find (DirTree.parent slash (pathNew dir key)) = none)
    (hlen : maxDirname + 8 ≤ (DirTree.parent slash (pathNew dir key)).length)
    (hlenNew : maxDirname + 8 ≤ (pathNew dir key).length) :
    (fsSet dir t value key).2 = -1 := by
  have hcut : ∀ p, p = snprintf (maxDirname + 4)
      (dir ++ [slash] ++ decimal3 (keyToFilename key).2.1) ∨
      p = snprintf (maxDirname + 4 + 4) (dir ++ [slash] ++ decimal3 (keyToFilename key).2.1
          ++ [slash]
        ++ decimal3 (keyToFilename key).2.2) →
      (DirTree.trimmed slash p).length < maxDirname + 8 := by
    intro p hp
    have hle := DirTree.length_trimmed_le slash p
    rw [maxDirname] at hp ⊢
    rcases hp with rfl | rfl
    all_goals
      have htake : ∀ (n : Nat) (text : Bytes), (snprintf n text).length ≤ n - 1 := by
        intro n text
        rw [snprintf, List.length_take]
        exact Nat.min_le_left _ _
      have hcut := htake _ _ |>.trans' hle
      omega
  have hmake := makeDirs_inv _ _
    (P := fun t => t.find (pathNew dir key) = none ∧
      t.find (DirTree.parent slash (pathNew dir key)) = none)
    (fun t t' p hp ht hmk => by
      have hp := hcut p hp
      rw [DirTree.find_mkdir hmk, DirTree.find_mkdir hmk, if_neg, if_neg]
      · exact ht
      · intro h
        rw [h] at hlen
        omega
      · intro h
        rw [h] at hlenNew
        omega) ⟨hnew, hparent⟩
  have hopen : (openNew dir t (pathNew dir key) key).2 = false := by
    rw [openNew, DirTree.openWrite_noent htrim hnew hparent]
    simp only []
    split
    · rfl
    · next heq =>
        rw [heq] at hmake
        rw [DirTree.openWrite_noent htrim hmake.1 hmake.2]
  rw [fsSet, ← pathNew]
  cases hres : openNew dir t (pathNew dir key) key with
  | mk t1 opened =>
      rw [hres] at hopen
      cases opened with
      | false => rfl
      | true => cases hopen

/-- Every path up to a directory is a directory, and there is nothing else. -/
def bareTree (dir : Bytes) : FsTree := dir.inits.map fun p => (p, .dir)

theorem find_bareTree (dir q : Bytes) :
    (bareTree dir).find q = if q <+: dir then some .dir else none := by
  have hlookup : ∀ l : List Bytes, DirTree.find (l.map fun p => (p, (.dir : Node UInt8))) q
      = if q ∈ l then some .dir else none := by
    intro l
    induction l with
    | nil => rfl
    | cons p rest ih =>
        rw [List.map_cons, DirTree.find, List.lookup_cons]
        by_cases hq : q = p
        · subst hq
          simp
        · have hbeq : (q == p) = false := by simpa using hq
          rw [hbeq]
          simpa [DirTree.find, hq] using ih
  rw [bareTree, hlookup]
  simp only [List.mem_inits]

theorem emptyDir_bareTree (dir : Bytes) : EmptyDir dir (bareTree dir) := by
  refine ⟨?_, fun q => ?_⟩
  · rw [find_bareTree, if_pos (List.prefix_refl dir)]
  · rw [find_bareTree, if_neg]
    intro h
    have hle := h.length_le
    rw [List.length_append, List.length_cons] at hle
    omega

theorem not_actsAsMap {dir key : Bytes} {keys : Bytes → Prop} (hk : keys key)
    (h : (fsSet dir (bareTree dir) [] key).2 = -1) : ¬ ActsAsMap dir keys := by
  intro hacts
  have hrun := hacts (bareTree dir) (emptyDir_bareTree dir) [.set [] key]
    ⟨⟨hk, trivial⟩, fun _ _ => trivial⟩
  simp only [answers, fsStep, mapStep, h, List.length_nil, List.cons.injEq, FsAnswer.ret.injEq,
    and_true] at hrun
  omega

theorem trimmed_front (p : Bytes) : DirTree.trimmed slash p <+: p := by
  have hsuffix := List.dropWhile_suffix (fun c => decide (c = slash)) (l := p.reverse)
  have hprefix := List.reverse_prefix.mpr hsuffix
  rw [List.reverse_reverse] at hprefix
  exact hprefix

/-- The part of the place of a key that there is room for. -/
theorem keyToFullpath_take {dir : Bytes} (hdir : dir.length ≤ 907) (key : Bytes) :
    keyToFullpath dir key = dir ++ slash :: (placeOf key).take (907 - dir.length) := by
  rw [keyToFullpath_eq, List.take_append, List.take_of_length_le (by rw [maxFullpath_eq]; omega),
    maxFullpath_eq, show 909 - 1 - dir.length = 907 - dir.length + 1 by omega, List.take_succ_cons]

theorem fsSet_full {dir key : Bytes} (hsz : key.length ≤ maxKeySize)
    (hdir : 907 ≤ dir.length ∨ maxDirname ≤ dir.length ∧ dir.length < 904) :
    (fsSet dir (bareTree dir) [] key).2 = -1 := by
  rcases hdir with hdir | ⟨hlo, hhi⟩
  · -- the path is the directory, or what there is room for of it
    have htrim : DirTree.trimmed slash (keyToFullpath dir key) <+: dir := by
      rw [keyToFullpath_eq, maxFullpath_eq]
      rcases Nat.eq_or_lt_of_le hdir with hdir | hdir
      · have htake : (dir ++ slash :: placeOf key).take (909 - 1) = dir ++ [slash] := by
          rw [List.take_append, List.take_of_length_le (by omega), ← hdir]
          rfl
        have hslash : DirTree.trimmed slash (dir ++ [slash]) = DirTree.trimmed slash dir := by
          simp [DirTree.trimmed]
        rw [htake, hslash]
        exact trimmed_front dir
      · rw [List.take_append_of_le_length (by omega)]
        exact (trimmed_front _).trans (List.take_prefix _ _)
    refine fsSet_onto_dir [] ?_
    rw [find_bareTree, if_pos htrim]
  · rw [maxDirname] at hlo
    obtain ⟨ha, hb⟩ := hash_lt key
    have hlen := length_dirs dir key
    -- the last name is cut, and at least one of the two directories is not
    have hsplit : ∃ d name, keyToFullpath dir key = d ++ slash :: name ∧ slash ∉ name ∧
        136 ≤ d.length ∧ dir.length < d.length := by
      rw [keyToFullpath_take (by omega)]
      by_cases hroom : 8 ≤ 907 - dir.length
      · refine ⟨dirB dir key, (fileName key).take (907 - dir.length - 8), ?_,
          fun h => slash_not_mem_fileName hsz (List.mem_of_mem_take h), by omega, by omega⟩
        have hlenA := length_decimal3 ha
        have hlenB := length_decimal3 hb
        have htake : (placeOf key).take (907 - dir.length)
            = decimal3 (keyToFilename key).2.1 ++ slash :: (decimal3 (keyToFilename key).2.2
              ++ slash :: (fileName key).take (907 - dir.length - 8)) := by
          obtain ⟨n, hn⟩ := Nat.exists_eq_add_of_le hroom
          rw [hn, placeOf, show 8 + n = (decimal3 (keyToFilename key).2.1).length + (1 + (
            (decimal3 (keyToFilename key).2.2).length + (1 + n))) by omega,
        List.take_length_add_append,
            Nat.add_comm 1, List.take_succ_cons, List.take_length_add_append, Nat.add_comm 1,
            List.take_succ_cons, hlenA, hlenB,
            show 3 + (3 + (n + 1) + 1) - 8 = n by omega, fileName]
        rw [htake]
        simp only [dirB, dirA, List.append_assoc, List.cons_append]
      · refine ⟨dirA dir key, (decimal3 (keyToFilename key).2.2).take (907 - dir.length - 4), ?_,
          fun h => slash_not_mem_decimal3 hb (List.mem_of_mem_take h), by omega, by omega⟩
        have hlenA := length_decimal3 ha
        have hlenB := length_decimal3 hb
        obtain ⟨n, hn⟩ := Nat.exists_eq_add_of_le (show 4 ≤ 907 - dir.length by omega)
        rw [hn, placeOf, show 4 + n = (decimal3 (keyToFilename key).2.1).length + (1 + n) by omega,
          List.take_length_add_append, Nat.add_comm 1, List.take_succ_cons,
          List.take_append_of_le_length (by omega), hlenA, show 3 + (n + 1) - 4 = n by omega]
        simp only [dirA, List.append_assoc, List.cons_append]
    obtain ⟨d, name, hpath, hslash, hd, hdd⟩ := hsplit
    have hnew : pathNew dir key = d ++ slash :: (name ++ ascii ".new") := by
      rw [pathNew_eq, hpath, List.append_assoc, List.cons_append]
    have hslashNew : slash ∉ name ++ ascii ".new" := by
      rw [List.mem_append, not_or]
      exact ⟨hslash, by decide⟩
    have hnone : ∀ q : Bytes, dir.length < q.length → (bareTree dir).find q = none := by
      intro q hq
      rw [find_bareTree, if_neg fun h => absurd h.length_le (Nat.not_le.mpr hq)]
    have hparent := DirTree.parent_append slash d hslashNew
    refine fsSet_no_parent [] ?_ ?_ ?_ ?_ ?_
    · rw [hnew]
      exact DirTree.trimmed_append slash d
        (List.append_ne_nil_of_right_ne_nil _ (by decide)) hslashNew
    · rw [hnew]
      refine hnone _ ?_
      rw [List.length_append, List.length_cons]
      omega
    · rw [hnew, hparent]
      exact hnone d hdd
    · rw [hnew, hparent, maxDirname]
      exact hd
    · rw [hnew, List.length_append, List.length_cons, maxDirname]
      omega

/-! ## A directory that leaves room for a part of the first number

Its files are in the directory itself, and no directories are made. -/

/-- What is left of a path below the directory. -/
def digits (dir key : Bytes) : Bytes := (decimal3 (keyToFilename key).2.1).take (907 - dir.length)

/-- The digits that are left are all different. -/
def DigitsApart (dir : Bytes) (keys : Bytes → Prop) : Prop :=
  ∀ k k', keys k → keys k' → k ≠ k' →
    (decimal3 (hashKr (escaped k) % 251)).take (907 - dir.length)
      ≠ (decimal3 (hashKr (escaped k') % 251)).take (907 - dir.length)

section Digits

variable {dir : Bytes} {keys : Bytes → Prop}

theorem keyToFullpath_digits (hdir : 904 ≤ dir.length ∧ dir.length < 907) (key : Bytes) :
    keyToFullpath dir key = dir ++ slash :: digits dir key := by
  have hlen := length_decimal3 (hash_lt key).1
  rw [keyToFullpath_take (by omega), digits, placeOf, List.take_append_of_le_length (by omega)]

theorem mem_digits {key : Bytes} {c : UInt8} (h : c ∈ digits dir key) :
    0x30 ≤ c.toNat ∧ c.toNat ≤ 0x39 :=
  mem_decimal3 (hash_lt key).1 (List.mem_of_mem_take h)

theorem digits_ok (hdir : 904 ≤ dir.length ∧ dir.length < 907) (key : Bytes) :
    digits dir key ≠ [] ∧ slash ∉ digits dir key ∧ (0x2E : UInt8) ∉ digits dir key := by
  have hlen := length_decimal3 (hash_lt key).1
  refine ⟨fun h => ?_, fun h => ?_, fun h => ?_⟩
  · have h := congrArg List.length h
    rw [digits, List.length_take, List.length_nil] at h
    omega
  · exact absurd (mem_digits h).1 (by decide)
  · exact absurd (mem_digits h).1 (by decide)

theorem keysApart_digits (hdir : 904 ≤ dir.length ∧ dir.length < 907)
    (hsz : ∀ k, keys k → k.length ≤ maxKeySize) : KeysApart dir keys ↔ DigitsApart dir keys := by
  have hbase : ∀ k, DirTree.baseName slash (keyToFullpath dir k) = digits dir k := by
    intro k
    rw [keyToFullpath_digits hdir, DirTree.baseName_append slash dir (digits_ok hdir k).2.1]
  have hdigits : ∀ k, keys k →
      digits dir k = (decimal3 (hashKr (escaped k) % 251)).take (907 - dir.length) := by
    intro k hk
    rw [digits, keyToFilename_eq (hsz k hk)]
  have hpath : ∀ k k', keys k → keys k' →
      (keyToFullpath dir k = keyToFullpath dir k' ↔
        (decimal3 (hashKr (escaped k) % 251)).take (907 - dir.length)
          = (decimal3 (hashKr (escaped k') % 251)).take (907 - dir.length)) := by
    intro k k' hk hk'
    rw [keyToFullpath_digits hdir, keyToFullpath_digits hdir, List.append_cancel_left_eq,
      List.cons.injEq, hdigits k hk, hdigits k' hk']
    simp
  constructor
  · intro h k k' hk hk' hne heq
    exact h.paths k k' hk hk' hne ((hpath k k' hk hk').mpr heq)
  · intro h
    refine ⟨fun k k' hk hk' hne heq => h k k' hk hk' hne ((hpath k k' hk hk').mp heq),
      fun k hk => ?_, fun k hk => ?_, fun k hk => ?_, fun k k' hk hk' heq => ?_⟩
    · rw [hbase]
      exact (digits_ok hdir k).1
    · have hlen := length_decimal3 (hash_lt k).1
      rw [hbase, digits, List.length_take, hlen, maxSystemFilename]
      omega
    · rw [hbase]
      exact (digits_ok hdir k).2.1
    · rw [pathNew_eq, keyToFullpath_digits hdir, keyToFullpath_digits hdir, List.append_assoc,
        List.append_cancel_left_eq, List.cons_append, List.cons.injEq] at heq
      refine (digits_ok hdir k').2.2 ?_
      rw [← heq.2]
      exact List.mem_append_right _ (by decide)

theorem layout_digits (hdir : 904 ≤ dir.length ∧ dir.length < 907)
    (hsz : ∀ k, keys k → k.length ≤ maxKeySize) (h : DigitsApart dir keys) :
    Layout dir keys fun _ => [] := by
  have hnew : ∀ k, pathNew dir k = dir ++ slash :: (digits dir k ++ ascii ".new") := by
    intro k
    rw [pathNew_eq, keyToFullpath_digits hdir, List.append_assoc, List.cons_append]
  have hslash : ∀ k, slash ∉ digits dir k ++ ascii ".new" := by
    intro k
    rw [List.mem_append, not_or]
    exact ⟨(digits_ok hdir k).2.1, by decide⟩
  have hparent : ∀ k, DirTree.parent slash (keyToFullpath dir k) = dir := by
    intro k
    rw [keyToFullpath_digits hdir, DirTree.parent_append slash dir (digits_ok hdir k).2.1]
  refine ⟨(keysApart_digits hdir hsz).mpr h, fun k hk => ?_, fun k hk q hq => ?_, fun k hk => ?_,
    fun k k' hk hk' q hq => ?_, fun m t k hk hs => ?_⟩
  · rw [keyToFullpath_digits hdir]
    exact DirTree.trimmed_append slash dir (digits_ok hdir k).1 (digits_ok hdir k).2.1
  · simp only [List.mem_cons, List.not_mem_nil, or_false] at hq
    rcases hq with rfl | rfl
    · exact ⟨_, keyToFullpath_digits hdir k⟩
    · exact ⟨_, hnew k⟩
  · rw [hparent]
    exact List.mem_cons_self
  · exact absurd hq List.not_mem_nil
  · have htrim : DirTree.trimmed slash (pathNew dir k) = pathNew dir k := by
      rw [hnew]
      exact DirTree.trimmed_append slash dir
        (List.append_ne_nil_of_right_ne_nil _ (by decide)) (hslash k)
    have hup : t.find (DirTree.parent slash (pathNew dir k)) = some .dir := by
      rw [hnew, DirTree.parent_append slash dir (hslash k), hs.top]
    refine ⟨t.put (pathNew dir k) (.file []), ?_, ?_, fun q hq => .inl ?_⟩
    · rw [openNew, DirTree.openWrite_new htrim (hs.temps k hk) hup]
    · have hne : dir ≠ pathNew dir k := by
        rw [hnew]
        exact (append_slash_ne _ _).symm
      rw [hparent, DirTree.find_put, if_neg hne, hs.top]
    · rw [DirTree.find_put, if_neg hq]

end Digits

/-! ## When the engine keeps its keys

`Separate` puts the cases together, by the length of the directory and the names of the
keys. It is a condition on these alone. -/

/-- The room a directory leaves, and what has to be told apart in it. -/
def Separate (dir : Bytes) (keys : Bytes → Prop) : Prop :=
  (∀ k, ¬ keys k) ∨ dir.length < maxDirname ∧ NamesApart keys ∨
    (904 ≤ dir.length ∧ dir.length < 907) ∧ DigitsApart dir keys

theorem keepsKeys_iff_separate (dir : Bytes) (keys : Bytes → Prop)
    (hsz : ∀ k, keys k → 1 ≤ k.length ∧ k.length ≤ maxKeySize) :
    KeepsKeys dir keys ↔ Separate dir keys := by
  have hle : ∀ k, keys k → k.length ≤ maxKeySize := fun k hk => (hsz k hk).2
  constructor
  · intro h
    by_cases hkeys : ∃ k, keys k
    · obtain ⟨k, hk⟩ := hkeys
      by_cases hshort : dir.length < maxDirname
      · exact .inr (.inl ⟨hshort, (keysApart_short hshort hle).mp h.apart⟩)
      · by_cases hdigits : 904 ≤ dir.length ∧ dir.length < 907
        · exact .inr (.inr ⟨hdigits, (keysApart_digits hdigits hle).mp h.apart⟩)
        · exact absurd h.acts (not_actsAsMap hk (fsSet_full (hle k hk) (by omega)))
    · exact .inl fun k hk => hkeys ⟨k, hk⟩
  · rintro (hnone | ⟨hshort, hnames⟩ | ⟨hdigits, hapart⟩)
    · refine ⟨⟨fun k _ hk => absurd hk (hnone k), fun k hk => absurd hk (hnone k),
        fun k hk => absurd hk (hnone k), fun k hk => absurd hk (hnone k),
        fun k _ hk => absurd hk (hnone k)⟩, fun t _ ops hops => ?_⟩
      cases ops with
      | nil => rfl
      | cons op rest => exact absurd hops.1.1 (hnone op.key)
    · have hl := layout_short hshort hle hnames
      exact ⟨hl.apart, hl.actsAsMap⟩
    · have hl := layout_digits hdigits hle hapart
      exact ⟨hl.apart, hl.actsAsMap⟩

/-- Names that are not cut are told apart. -/
theorem namesApart_of_fits {keys : Bytes → Prop} (hpos : ∀ k, keys k → k ≠ [])
    (hfit : ∀ k, keys k → (escaped k).length ≤ maxSystemFilename) : NamesApart keys := by
  refine ⟨fun k hk h => ?_, fun k k' hk hk' hne _ _ heq => ?_⟩
  · rw [shortName_of_le (hfit k hk)] at h
    exact hpos k hk (escaped_inj h)
  · rw [shortName_of_le (hfit k hk), shortName_of_le (hfit k' hk')] at heq
    exact hne (escaped_inj heq)

theorem keepsKeys_iff_separate_two :
    KeepsKeys (ascii "/data") fun k => k = ascii "a" ∨ k = ascii "b" := by
  refine (keepsKeys_iff_separate _ _ ?_).mpr (.inr (.inl ⟨by decide, ?_⟩))
  · rintro k (rfl | rfl) <;> decide
  · refine namesApart_of_fits ?_ ?_
    · rintro k (rfl | rfl) <;> decide
    · rintro k (rfl | rfl) <;> decide

/-- Its name is one byte too long, and its only `%` is in front. -/
def cutKey : Bytes := 0 :: List.replicate 249 0x61

/-- A name that is too long with nothing in front of its only `%`. -/
theorem shortName_percent {rest : Bytes} (hlen : maxSystemFilename ≤ rest.length)
    (h : percent ∉ rest) : shortName (percent :: rest) = [] := by
  have hlast : strrchr ((percent :: rest).take (maxSystemFilename + 1)) percent = some 0 := by
    have hrest : percent ∉ rest.take maxSystemFilename := fun hmem => h (List.mem_of_mem_take hmem)
    exact @strrchr_append [] _ _ hrest
  rw [shortName, if_neg (by rw [List.length_cons]; omega), hlast]
  rfl

theorem shortName_cutKey : shortName (escaped cutKey) = [] := by
  have hplain : keyEscapeByte 0x61 = [0x61] := by decide
  have hname : escaped cutKey = percent :: ([0x30, 0x30] ++ List.replicate 249 0x61) := by
    rw [escaped, cutKey, List.flatMap_cons, List.flatMap_replicate, hplain,
      List.flatten_replicate_singleton]
    rfl
  rw [hname]
  refine shortName_percent ?_ fun hmem => ?_
  · rw [List.length_append, List.length_replicate]
    exact Nat.le_refl _
  · rcases List.mem_append.mp hmem with hmem | hmem
    · exact absurd hmem (by decide)
    · exact absurd (List.eq_of_mem_replicate hmem) (by decide)

theorem keepsKeys_cutKey :
    ¬ KeepsKeys (ascii "/data") fun k => 1 ≤ k.length ∧ k.length ≤ maxKeySize := by
  intro h
  have hnames := (keysApart_short (by decide) fun k hk => hk.2).mp h.apart
  have hlen : cutKey.length = 250 := by rw [cutKey, List.length_cons, List.length_replicate]
  exact hnames.named cutKey (by rw [hlen, maxKeySize_eq]; decide) shortName_cutKey

end Smalltable.Proofs
