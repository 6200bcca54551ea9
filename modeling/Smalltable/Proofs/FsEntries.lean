import Smalltable.Proofs.KeyListing

/-!
# What is in the directories

The engine as its calls leave it, whatever the keys are and whether or not its sets
come to their end: what is in the directories of the second level is told by the two
numbers of the directory and the name of the file. A key has two such places, its file
and the one that `fs_set` writes beside it. Keys whose names are cut may share them,
and a key whose name is cut to nothing has only the second.

A call changes nothing but the places of its key, and a set that is stopped changes
nothing, or only the second. The directories that come and go with it are not seen.

This is what a listing sees of the directories, and what `fs_get` reads. Both are told
by the entries, so two trees with the same entries cannot be told apart by any of the
calls.
-/

namespace Smalltable.Proofs

open Smalltable.Ref

/-- A place in the directories of the second level: their two numbers and a name. -/
abbrev Place := (Nat × Nat) × Bytes

/-- What the files contain, by their places. -/
abbrev Entries := Place → Option Bytes

/-- Where the file of a key is. -/
def fileOf (key : Bytes) : Place := ((keyToFilename key).2, fileName key)

/-- Where `fs_set` writes before it moves the file to its place. -/
def tempOf (key : Bytes) : Place := ((keyToFilename key).2, fileName key ++ ascii ".new")

theorem dot_mem_tempOf (key : Bytes) : (0x2E : UInt8) ∈ (tempOf key).2 :=
  List.mem_append_right _ (by decide)

theorem fileOf_ne_tempOf {key : Bytes} (hsz : key.length ≤ maxKeySize) (key' : Bytes) :
    fileOf key ≠ tempOf key' := by
  intro h
  have hdot := dot_mem_tempOf key'
  rw [← h] at hdot
  exact (fileName_chars hsz hdot).2.1 rfl

theorem tempOf_inj {key key' : Bytes} (h : tempOf key = tempOf key') :
    fileOf key = fileOf key' := by
  obtain ⟨hhash, hname⟩ := Prod.mk.inj h
  exact Prod.ext hhash (List.append_cancel_right hname)

/-- The files of the tree are the entries, and each entry is a place of some key. -/
structure Holds (dir : Bytes) (f : Entries) (t : FsTree) : Prop where
  shaped : Shaped dir t
  top : t.find dir = some .dir
  files : ∀ k name, slash ∉ name → name ≠ [] →
    t.find (dirB dir k ++ slash :: name) = (f ((keyToFilename k).2, name)).map .file
  owned : ∃ ks : List Bytes, ∀ p, f p ≠ none → ∃ k ∈ ks, k.length ≤ maxKeySize ∧
    (p = fileOf k ∧ fileName k ≠ [] ∨ p = tempOf k)

section Holds

variable {dir : Bytes} {f : Entries} {t : FsTree}

theorem holds_bareTree (dir : Bytes) : Holds dir (fun _ => none) (bareTree dir) := by
  have hempty := emptyDir_bareTree dir
  refine ⟨⟨tidy_bareTree dir, fun q hq => .inl ?_⟩, hempty.top, fun k name _ _ => ?_,
    [], fun p hp => absurd rfl hp⟩
  · rw [find_bareTree] at hq
    by_contra h
    exact hq (if_neg h)
  · have hbelow := hempty.below (decimal3 (keyToFilename k).2.1
      ++ slash :: (decimal3 (keyToFilename k).2.2 ++ slash :: name))
    rw [dirB, dirA]
    simp only [List.append_assoc, List.cons_append, hbelow, Option.map_none]

/-- A directory of the two levels is missing or there. -/
theorem Shaped.levels (h : Shaped dir t) (k : Bytes) {q : Bytes} (hq : q ∈ levels dir k) :
    t.find q = none ∨ t.find q = some .dir := by
  have hcount : q.count slash = dir.count slash + 1 ∨ q.count slash = dir.count slash + 2 := by
    simp only [Proofs.levels, List.mem_cons, List.not_mem_nil, or_false] at hq
    rcases hq with rfl | rfl
    · exact .inl (count_dirA dir k)
    · exact .inr (count_dirB dir k)
  by_cases hfind : t.find q = none
  · exact .inl hfind
  · rcases h.found hfind with hle | ⟨-, -, -, hd⟩ | ⟨-, -, -, hd⟩ | ⟨-, -, -, -, -, hc⟩
    · omega
    · exact .inr hd
    · exact .inr hd
    · omega

theorem dirA_mem_levels (dir k : Bytes) : dirA dir k ∈ levels dir k := List.mem_cons_self

theorem dirB_mem_levels (dir k : Bytes) : dirB dir k ∈ levels dir k :=
  List.mem_cons_of_mem _ List.mem_cons_self

/-- The directories of a file are there. -/
theorem Shaped.above (h : Shaped dir t) {k name : Bytes} (hslash : slash ∉ name)
    (hfind : t.find (dirB dir k ++ slash :: name) ≠ none) :
    t.find (dirA dir k) = some .dir ∧ t.find (dirB dir k) = some .dir := by
  have hB := h.tidy.above _ hfind
  rw [DirTree.parent_append slash _ hslash] at hB
  have hA := h.tidy.above (dirB dir k) (by rw [hB]; exact nofun)
  rw [parent_dirB] at hA
  exact ⟨hA, hB⟩

/-- A file in a directory is at the place of its name. -/
theorem place_iff (dir : Bytes) {k k' name name' : Bytes} :
    dirB dir k' ++ slash :: name' = dirB dir k ++ slash :: name ↔
      (((keyToFilename k').2, name') : Place) = ((keyToFilename k).2, name) := by
  rw [Prod.mk.injEq]
  constructor
  · exact path_inj
  · rintro ⟨hhash, rfl⟩
    rw [eq_dirB hhash]

theorem Holds.dir_ne (k name : Bytes) : dir ≠ dirB dir k ++ slash :: name := by
  intro h
  have hlen := congrArg List.length h
  rw [List.length_append, List.length_cons, (length_dirs dir k).2] at hlen
  omega

/-! ## Files

A file is put into one place or taken from it, and a directory on the way is no place.
-/

variable {k name : Bytes}

theorem Holds.put (h : Holds dir f t) (hsz : k.length ≤ maxKeySize) (hslash : slash ∉ name)
    (hname : name = fileName k ∧ name ≠ [] ∨ name = fileName k ++ ascii ".new")
    (hB : t.find (dirB dir k) = some .dir) (data : Bytes) :
    Holds dir (Function.update f ((keyToFilename k).2, name) (some data))
      (t.put (dirB dir k ++ slash :: name) (.file data)) := by
  have hne : name ≠ [] := by
    rcases hname with ⟨-, hne⟩ | rfl
    · exact hne
    · exact (newName_ok hsz).1
  have hfile : t.find (dirB dir k ++ slash :: name) ≠ some .dir := by
    rw [h.files k name hslash hne]
    cases f ((keyToFilename k).2, name) <;> exact nofun
  have hparent := DirTree.parent_append slash (dirB dir k) hslash
  obtain ⟨ks, hks⟩ := h.owned
  refine ⟨⟨h.shaped.tidy.put hfile (by rw [hparent, hB]) _, fun q hq => ?_⟩, ?_,
    fun k' name' hslash' hne' => ?_, k :: ks, fun p hp => ?_⟩
  · by_cases hqp : q = dirB dir k ++ slash :: name
    · exact .inr (.inr ⟨k, name, hslash, hne, hqp⟩)
    · rw [DirTree.find_put, if_neg hqp] at hq ⊢
      exact h.shaped.only q hq
  · rw [DirTree.find_put, if_neg (Holds.dir_ne k name), h.top]
  · rw [DirTree.find_put, Function.update_apply, h.files k' name' hslash' hne']
    by_cases hplace : (((keyToFilename k').2, name') : Place) = ((keyToFilename k).2, name)
    · rw [if_pos hplace, if_pos ((place_iff dir).mpr hplace)]
      rfl
    · rw [if_neg hplace, if_neg fun heq => hplace ((place_iff dir).mp heq)]
  · by_cases hpk : p = ((keyToFilename k).2, name)
    · refine ⟨k, List.mem_cons_self, hsz, ?_⟩
      rcases hname with ⟨rfl, -⟩ | rfl
      · exact .inl ⟨hpk, hne⟩
      · exact .inr hpk
    · rw [Function.update_of_ne hpk] at hp
      obtain ⟨k', hmem, hk'⟩ := hks p hp
      exact ⟨k', List.mem_cons_of_mem _ hmem, hk'⟩

theorem Holds.erase (h : Holds dir f t) (hslash : slash ∉ name) (hne : name ≠ []) :
    Holds dir (Function.update f ((keyToFilename k).2, name) none)
      (t.erase (dirB dir k ++ slash :: name)) := by
  have hfile : t.find (dirB dir k ++ slash :: name) ≠ some .dir := by
    rw [h.files k name hslash hne]
    cases f ((keyToFilename k).2, name) <;> exact nofun
  obtain ⟨ks, hks⟩ := h.owned
  refine ⟨⟨h.shaped.tidy.erase hfile, fun q hq => ?_⟩, ?_, fun k' name' hslash' hne' => ?_,
    ks, fun p hp => hks p ?_⟩
  · by_cases hqp : q = dirB dir k ++ slash :: name
    · exact .inr (.inr ⟨k, name, hslash, hne, hqp⟩)
    · rw [DirTree.find_erase, if_neg hqp] at hq ⊢
      exact h.shaped.only q hq
  · rw [DirTree.find_erase, if_neg (Holds.dir_ne k name), h.top]
  · rw [DirTree.find_erase, Function.update_apply, h.files k' name' hslash' hne']
    by_cases hplace : (((keyToFilename k').2, name') : Place) = ((keyToFilename k).2, name)
    · rw [if_pos hplace, if_pos ((place_iff dir).mpr hplace)]
      rfl
    · rw [if_neg hplace, if_neg fun heq => hplace ((place_iff dir).mp heq)]
  · by_cases hpk : p = ((keyToFilename k).2, name)
    · rw [hpk, Function.update_self] at hp
      exact absurd rfl hp
    · rw [Function.update_of_ne hpk] at hp
      exact hp

/-- A directory more makes no difference. -/
theorem Holds.putDir (h : Holds dir f t) {q : Bytes} (hq : q ∈ levels dir k)
    (hnone : t.find q = none) (hparent : t.find (DirTree.parent slash q) = some .dir) :
    Holds dir f (t.put q .dir) := by
  have hqd : q = dirA dir k ∨ q = dirB dir k := by
    simpa only [levels, List.mem_cons, List.not_mem_nil, or_false] using hq
  have hlen := length_dirs dir k
  refine ⟨⟨h.shaped.tidy.put (by rw [hnone]; exact nofun) hparent _, fun q' hq' => ?_⟩, ?_,
    fun k' name hslash hne => ?_, h.owned⟩
  · by_cases heq : q' = q
    · exact .inr (.inl ⟨k, heq ▸ hqd, by rw [DirTree.find_put, if_pos heq]⟩)
    · rw [DirTree.find_put, if_neg heq] at hq' ⊢
      exact h.shaped.only q' hq'
  · have hne : dir ≠ q := by
      intro heq
      have heq := congrArg List.length heq
      rcases hqd with rfl | rfl
      · omega
      · omega
    rw [DirTree.find_put, if_neg hne, h.top]
  · have hneq : dirB dir k' ++ slash :: name ≠ q := by
      intro heq
      have hcount := count_append_slash (dirB dir k') hslash
      rw [heq, count_dirB] at hcount
      rcases hqd with rfl | rfl
      · rw [count_dirA] at hcount
        omega
      · rw [count_dirB] at hcount
        omega
    rw [DirTree.find_put, if_neg hneq, h.files k' name hslash hne]

/-! ## Calls

`fs_get` reads the first place of its key and changes none. `fs_del` takes the first
place away; its name may be empty, and then it is the name of the directory, which is no
file. -/

variable {key : Bytes}

theorem Holds.find_path (h : Holds dir f t) (hdir : dir.length < maxDirname)
    (hsz : key.length ≤ maxKeySize) (hne : fileName key ≠ []) :
    t.find (keyToFullpath dir key) = (f (fileOf key)).map .file := by
  rw [fullpath_fits hdir, h.files key _ (slash_not_mem_fileName hsz) hne]
  rfl

theorem trimmed_path (hdir : dir.length < maxDirname) (hsz : key.length ≤ maxKeySize)
    (hne : fileName key ≠ []) :
    DirTree.trimmed slash (keyToFullpath dir key) = keyToFullpath dir key := by
  rw [fullpath_fits hdir]
  exact DirTree.trimmed_append slash _ hne (slash_not_mem_fileName hsz)

/-- The path of a key with nothing left of its name is that of a directory. -/
theorem trimmed_path_nil (hdir : dir.length < maxDirname) (hnil : fileName key = []) :
    DirTree.trimmed slash (keyToFullpath dir key) = dirB dir key ∧
      DirTree.trimmed slash (keyToFullpath dir key) ≠ keyToFullpath dir key := by
  have htrim : DirTree.trimmed slash (keyToFullpath dir key) = dirB dir key := by
    have hB := trimmed_dirB dir key
    rw [fullpath_fits hdir, hnil]
    rw [DirTree.trimmed] at hB ⊢
    rw [List.reverse_append, List.reverse_singleton, List.singleton_append,
      List.dropWhile_cons_of_pos (by simp)]
    exact hB
  refine ⟨htrim, fun heq => ?_⟩
  rw [htrim, fullpath_fits hdir] at heq
  exact append_slash_ne _ _ heq.symm

/-- Nothing is kept for such a key. -/
theorem Holds.fileOf_nil (h : Holds dir f t) (hnil : fileName key = []) :
    f (fileOf key) = none := by
  by_contra hp
  obtain ⟨ks, hks⟩ := h.owned
  obtain ⟨k, -, hsz, ⟨hfile, hne⟩ | htemp⟩ := hks _ hp
  · rw [fileOf, fileOf, hnil, Prod.mk.injEq] at hfile
    exact hne hfile.2.symm
  · rw [fileOf, tempOf, hnil, Prod.mk.injEq] at htemp
    exact (newName_ok hsz).1 htemp.2.symm

theorem Holds.get (h : Holds dir f t) (hdir : dir.length < maxDirname)
    (hsz : key.length ≤ maxKeySize) (size : Int) :
    fsGet dir t size key = (f (fileOf key)).bind fun v =>
      if asUint64 size < v.length then none else some v := by
  by_cases hnil : fileName key = []
  · have htrim := trimmed_path_nil hdir hnil
    rw [h.fileOf_nil hnil, Option.bind_none, fsGet, DirTree.openRead, htrim.1]
    rcases h.shaped.levels key (dirB_mem_levels dir key) with hB | hB
    · rw [hB]
    · rw [hB]
  · exact fsGet_eq size (trimmed_path hdir hsz hnil) (h.find_path hdir hsz hnil)

theorem Holds.del (h : Holds dir f t) (hdir : dir.length < maxDirname)
    (hsz : key.length ≤ maxKeySize) :
    Holds dir (Function.update f (fileOf key) none) (fsDel dir t key).1 := by
  by_cases hnone : f (fileOf key) = none
  · have hsame : (fsDel dir t key).1 = t := by
      by_cases hnil : fileName key = []
      · have htrim := trimmed_path_nil hdir hnil
        rw [fsDel, DirTree.unlink, htrim.1]
        rcases h.shaped.levels key (dirB_mem_levels dir key) with hB | hB
        · rw [hB]
        · rw [hB]
      · rw [fsDel_eq (trimmed_path hdir hsz hnil) (h.find_path hdir hsz hnil), if_pos hnone]
    rw [hsame, ← hnone, Function.update_eq_self]
    exact h
  · have hne : fileName key ≠ [] := fun hnil => hnone (h.fileOf_nil hnil)
    rw [fsDel_eq (trimmed_path hdir hsz hne) (h.find_path hdir hsz hne), if_neg hnone,
      fullpath_fits hdir]
    exact h.erase (slash_not_mem_fileName hsz) hne

/-! ## Sets

A set makes the directories, writes the second place and moves it to the first. It can
be stopped in front of each of these, and in between while it writes. -/

/-- The system fails before there is a file to write to. -/
def Fault.AtOpen : Option Fault → Prop
  | none => False
  | some (.write _) => False
  | some .rename => False
  | some _ => True

theorem Holds.makeDirs (h : Holds dir f t) (key : Bytes) (fault : Option Fault) :
    ∃ t' done, makeDirsAt fault t (dirA dir key) (dirB dir key) = (t', done) ∧ Holds dir f t' ∧
      (done = true → t'.find (dirB dir key) = some .dir) ∧ (done = false → Fault.AtOpen fault) := by
  have htrimA := trimmed_dirA dir key
  have htrimB := trimmed_dirB dir key
  have hA := h.shaped.levels key (dirA_mem_levels dir key)
  have hB := h.shaped.levels key (dirB_mem_levels dir key)
  rw [makeDirsAt]
  by_cases hinner : fault = some .mkdirInner
  · exact ⟨t, false, if_pos hinner, h, nofun, fun _ => hinner ▸ trivial⟩
  rw [if_neg hinner]
  rcases hB with hB | hB
  · rcases hA with hA | hA
    · rw [DirTree.mkdir_noent htrimB hB (by rw [parent_dirB, hA])]
      by_cases houter : fault = some .mkdirOuter
      · exact ⟨t, false, if_pos houter, h, nofun, fun _ => houter ▸ trivial⟩
      have h1 := h.putDir (dirA_mem_levels dir key) hA (by rw [parent_dirA, h.top])
      have h1A : (t.put (dirA dir key) .dir).find (dirA dir key) = some .dir := by
        rw [DirTree.find_put, if_pos rfl]
      have h1B : (t.put (dirA dir key) .dir).find (dirB dir key) = none := by
        have hne : dirB dir key ≠ dirA dir key := append_slash_ne _ _
        rw [DirTree.find_put, if_neg hne, hB]
      simp only [if_neg houter, DirTree.mkdir_new htrimA hA (by rw [parent_dirA, h.top]), made]
      by_cases hagain : fault = some .mkdirInnerAgain
      · exact ⟨_, false, if_pos hagain, h1, nofun, fun _ => hagain ▸ trivial⟩
      have h2 := h1.putDir (dirB_mem_levels dir key) h1B (by rw [parent_dirB, h1A])
      simp only [if_neg hagain, DirTree.mkdir_new htrimB h1B (by rw [parent_dirB, h1A])]
      exact ⟨_, true, rfl, h2, fun _ => by rw [DirTree.find_put, if_pos rfl], nofun⟩
    · have h1 := h.putDir (dirB_mem_levels dir key) hB (by rw [parent_dirB, hA])
      rw [DirTree.mkdir_new htrimB hB (by rw [parent_dirB, hA])]
      exact ⟨_, true, rfl, h1, fun _ => by rw [DirTree.find_put, if_pos rfl], nofun⟩
  · rw [DirTree.mkdir_exist htrimB hB]
    exact ⟨t, true, rfl, h, fun _ => hB, nofun⟩

/-- The new file is opened when its directory is there. -/
theorem Holds.openWrite (h : Holds dir f t) (hdir : dir.length < maxDirname)
    (hsz : key.length ≤ maxKeySize) (hB : t.find (dirB dir key) = some .dir) :
    t.openWrite slash (pathNew dir key) = .ok (t.put (pathNew dir key) (.file [])) ∧
      Holds dir (Function.update f (tempOf key) (some []))
        (t.put (pathNew dir key) (.file [])) := by
  obtain ⟨hne, hslash⟩ := newName_ok hsz
  have htrim := DirTree.trimmed_append slash (dirB dir key) hne hslash
  have hparent := DirTree.parent_append slash (dirB dir key) hslash
  have hfind := h.files key _ hslash hne
  rw [pathNew_short hdir]
  refine ⟨?_, h.put hsz hslash (.inr rfl) hB []⟩
  cases hf : f ((keyToFilename key).2, fileName key ++ ascii ".new") with
  | none =>
      rw [hf] at hfind
      exact DirTree.openWrite_new htrim hfind (by rw [hparent, hB])
  | some data =>
      rw [hf] at hfind
      simp only [DirTree.openWrite, htrim, hfind, Option.map_some, ne_eq, not_true_eq_false,
        if_false]

theorem Holds.openNew (h : Holds dir f t) (hdir : dir.length < maxDirname)
    (hsz : key.length ≤ maxKeySize) (fault : Option Fault) :
    (∃ t', openNewAt fault dir t (pathNew dir key) key = (t', false) ∧ Holds dir f t' ∧
      Fault.AtOpen fault) ∨
    ∃ t', openNewAt fault dir t (pathNew dir key) key = (t', true) ∧
      Holds dir (Function.update f (tempOf key) (some [])) t' := by
  obtain ⟨hne, hslash⟩ := newName_ok hsz
  have htrim := DirTree.trimmed_append slash (dirB dir key) hne hslash
  have hparent := DirTree.parent_append slash (dirB dir key) hslash
  obtain ⟨htextA, htextB⟩ := dirs_text hdir key
  rw [openNewAt]
  by_cases hfirst : fault = some .openFirst
  · exact .inl ⟨t, if_pos hfirst, h, hfirst ▸ trivial⟩
  simp only [if_neg hfirst, htextA, htextB]
  rcases h.shaped.levels key (dirB_mem_levels dir key) with hB | hB
  · -- nothing can be in a directory that is missing
    have hnone : t.find (dirB dir key ++ slash :: (fileName key ++ ascii ".new")) = none := by
      by_contra hfind
      have habove := (h.shaped.above hslash hfind).2
      rw [hB] at habove
      cases habove
    have hnoent : t.openWrite slash (pathNew dir key) = .error .noent := by
      rw [pathNew_short hdir]
      exact DirTree.openWrite_noent htrim hnone (by rw [hparent, hB])
    obtain ⟨t1, done, hmake, h1, hthere, hfault⟩ := h.makeDirs key fault
    simp only [hnoent, hmake]
    cases done with
    | false => exact .inl ⟨t1, rfl, h1, hfault rfl⟩
    | true =>
        by_cases hagain : fault = some .openAgain
        · exact .inl ⟨t1, if_pos hagain, h1, hagain ▸ trivial⟩
        · obtain ⟨hopen, h2⟩ := h1.openWrite hdir hsz (hthere rfl)
          simp only [if_neg hagain, hopen]
          exact .inr ⟨_, rfl, h2⟩
  · obtain ⟨hopen, h1⟩ := h.openWrite hdir hsz hB
    simp only [hopen]
    exact .inr ⟨_, rfl, h1⟩

/-- A loop that comes to its end has written everything. -/
theorem writeLoop_done {size : Nat} {rets : List Int} {written : Nat} (hle : written ≤ size)
    (h : (writeLoop size rets written).2 = true) : (writeLoop size rets written).1 = size := by
  fun_induction writeLoop size rets written with
  | case1 => rfl
  | case2 => rfl
  | case3 => cases h
  | case4 ret rets written hne hpos ih => exact ih (Nat.min_le_right _ _) h

theorem write_of_stopped {size : Nat} {fault : Option Fault}
    (h : ¬ (writeLoop size (Fault.rets fault) 0).2 = true) :
    ∃ rets, fault = some (.write rets) := by
  by_contra hnot
  have hnil : Fault.rets fault = [] := by
    cases fault with
    | none => rfl
    | some point =>
        cases point with
        | write rets => exact absurd ⟨rets, rfl⟩ hnot
        | _ => rfl
  rw [hnil] at h
  exact h rfl

/-- Once the new file has all of the value, it is moved to its place, unless the place
is a directory. -/
theorem Holds.rename (h : Holds dir f t) (hdir : dir.length < maxDirname)
    (hsz : key.length ≤ maxKeySize) {value : Bytes} (htemp : f (tempOf key) = some value) :
    (fileName key = [] ∧
      t.rename slash (pathNew dir key) (keyToFullpath dir key) = .error .isdir) ∨
    fileName key ≠ [] ∧ ∃ t', t.rename slash (pathNew dir key) (keyToFullpath dir key) = .ok t' ∧
      Holds dir (Function.update (Function.update f (tempOf key) none) (fileOf key) (some value))
        t' := by
  obtain ⟨hne, hslash⟩ := newName_ok hsz
  have hnew : t.find (pathNew dir key) = some (.file value) := by
    have hfind := h.files key _ hslash hne
    rw [tempOf] at htemp
    rw [pathNew_short hdir, hfind, htemp, Option.map_some]
  have hB : t.find (dirB dir key) = some .dir := by
    refine (h.shaped.above hslash ?_).2
    rw [← pathNew_short hdir, hnew]
    exact nofun
  by_cases hnil : fileName key = []
  · refine .inl ⟨hnil, ?_⟩
    rw [DirTree.rename, hnew]
    simp only [(trimmed_path_nil hdir hnil).1, hB]
  · refine .inr ⟨hnil, (t.erase (pathNew dir key)).put (keyToFullpath dir key) (.file value), ?_,
      ?_⟩
    · have hslashName := slash_not_mem_fileName hsz
      have hcheck : DirTree.checkParent slash t (keyToFullpath dir key) = .ok () := by
        rw [fullpath_fits hdir, DirTree.checkParent, DirTree.parent_append slash _ hslashName, hB]
      have hold := h.find_path hdir hsz hnil
      rw [DirTree.rename, hnew]
      simp only [trimmed_path hdir hsz hnil, hold, hcheck, ne_eq, not_true_eq_false, if_false,
        Except.map]
      cases f (fileOf key) with
      | none => rfl
      | some data => rfl
    · have h1 := h.erase (k := key) hslash hne
      have h1B : (t.erase (pathNew dir key)).find (dirB dir key) = some .dir := by
        have hneB : dirB dir key ≠ pathNew dir key := by
          rw [pathNew_short hdir]
          exact (append_slash_ne _ _).symm
        rw [DirTree.find_erase, if_neg hneB, hB]
      rw [fullpath_fits hdir]
      rw [pathNew_short hdir] at h1B ⊢
      exact h1.put hsz (slash_not_mem_fileName hsz) (.inl ⟨rfl, hnil⟩) h1B value

/-- How a set ends: with nothing done, with the new file left where it is, or with the
value in its place. -/
theorem Holds.set (h : Holds dir f t) (hdir : dir.length < maxDirname)
    (hsz : key.length ≤ maxKeySize) (fault : Option Fault) (value : Bytes) :
    ((fsSetAt fault dir t value key).2 = -1 ∧ Holds dir f (fsSetAt fault dir t value key).1 ∧
      Fault.AtOpen fault) ∨
    ((fsSetAt fault dir t value key).2 = -1 ∧
      (fileName key = [] ∨ fault ≠ none ∧ ¬ Fault.AtOpen fault) ∧
      Holds dir (Function.update f (tempOf key)
        (some (value.take (writeLoop value.length (Fault.rets fault) 0).1)))
        (fsSetAt fault dir t value key).1) ∨
    (fsSetAt fault dir t value key).2 = value.length ∧ fileName key ≠ [] ∧
      Holds dir (Function.update (Function.update f (tempOf key) none) (fileOf key) (some value))
        (fsSetAt fault dir t value key).1 := by
  rw [fsSetAt, ← pathNew]
  rcases h.openNew hdir hsz fault with ⟨t1, hopen, h1, hfault⟩ | ⟨t1, hopen, h1⟩
  · simp only [hopen]
    exact .inl ⟨trivial, h1, hfault⟩
  · simp only [hopen]
    obtain ⟨hne, hslash⟩ := newName_ok hsz
    have hB : t1.find (dirB dir key) = some .dir := by
      refine (h1.shaped.above hslash ?_).2
      rw [h1.files key _ hslash hne, ← tempOf, Function.update_self]
      simp
    have hwrite : ∀ data, Holds dir (Function.update f (tempOf key) (some data))
        (t1.write (pathNew dir key) data) := by
      intro data
      have h2 := h1.put hsz hslash (.inr rfl) hB data
      rw [← tempOf, Function.update_idem, ← pathNew_short hdir] at h2
      exact h2
    by_cases hdone : (writeLoop value.length (Fault.rets fault) 0).2 = true
    · have hall := writeLoop_done (Nat.zero_le _) hdone
      rw [if_neg (not_not.mpr hdone), hall, List.take_length]
      by_cases hstop : fault = some .rename
      · rw [if_pos hstop]
        exact .inr (.inl ⟨rfl, .inr ⟨by simp [hstop], hstop ▸ id⟩, hwrite value⟩)
      · rw [if_neg hstop]
        have htemp : Function.update f (tempOf key) (some value) (tempOf key) = some value :=
          Function.update_self _ _ _
        rcases (hwrite value).rename hdir hsz htemp with ⟨hnil, hre⟩ | ⟨hne, t2, hre, h2⟩
        · simp only [hre]
          exact .inr (.inl ⟨trivial, .inl hnil, hwrite value⟩)
        · simp only [hre]
          rw [Function.update_idem] at h2
          exact .inr (.inr ⟨trivial, hne, h2⟩)
    · rw [if_pos hdone]
      obtain ⟨rets, rfl⟩ := write_of_stopped hdone
      exact .inr (.inl ⟨rfl, .inr ⟨by simp, id⟩, hwrite _⟩)

/-! ## Runs

From the empty directory on, whatever the calls are: what is in the places follows from
the calls alone, with the faults they met. -/

theorem makeDirsAt_none (t : FsTree) (dir1 dir2 : Bytes) :
    makeDirsAt none t dir1 dir2 = makeDirs t dir1 dir2 := by
  rw [makeDirsAt, makeDirs, if_neg (by simp)]
  cases hinner : t.mkdir slash dir2 with
  | ok t1 => rfl
  | error e =>
      cases e with
      | noent =>
          simp only [reduceCtorEq, if_false]
          cases t.mkdir slash dir1 with
          | ok t1 => rfl
          | error e =>
              cases e with
              | exist => simp only [made, hinner]
              | _ => rfl
      | _ => rfl

/-- A set that the system does not stop is one of the engine. -/
theorem fsSetAt_none (dir : Bytes) (t : FsTree) (value key : Bytes) :
    fsSetAt none dir t value key = fsSet dir t value key := by
  have hopen : ∀ path, openNewAt none dir t path key = openNew dir t path key := by
    intro path
    simp only [openNewAt, openNew, makeDirsAt_none, reduceCtorEq, if_false]
  simp only [fsSetAt, fsSet, hopen, Fault.rets, writeLoop, List.take_length, reduceCtorEq,
    not_true_eq_false, if_false]

/-- What a call does to the entries. -/
def entriesStep (f : Entries) : FsOp → Entries
  | .get _ _ => f
  | .set value key =>
      if fileName key = [] then Function.update f (tempOf key) (some value)
      else Function.update (Function.update f (tempOf key) none) (fileOf key) (some value)
  | .del key => Function.update f (fileOf key) none

theorem Holds.step (h : Holds dir f t) (hdir : dir.length < maxDirname) {op : FsOp}
    (hsz : op.key.length ≤ maxKeySize) : Holds dir (entriesStep f op) (fsStep dir t op).1 := by
  cases op with
  | get size key => exact h
  | set value key =>
      have hsz : key.length ≤ maxKeySize := hsz
      rw [fsStep, ← fsSetAt_none, entriesStep]
      rcases h.set hdir hsz none value with ⟨-, -, hfault⟩ | ⟨-, hend, hnew⟩ | ⟨-, hne, hnew⟩
      · exact hfault.elim
      · rw [if_pos (hend.resolve_right fun hbad => hbad.1 rfl)]
        have hrets : Fault.rets none = [] := rfl
        rw [hrets, writeLoop, List.take_length] at hnew
        exact hnew
      · rw [if_neg hne]
        exact hnew
  | del key => exact h.del hdir hsz

end Holds

/-- A call, or a set that the system stops. -/
inductive FsCall where
  | call (op : FsOp)
  | stopped (point : Fault) (value key : Bytes)

def FsCall.key : FsCall → Bytes
  | .call op => op.key
  | .stopped _ _ key => key

/-- A call that is made, or a set that is stopped at some point. -/
def fsCall (dir : Bytes) (t : FsTree) : FsCall → FsTree
  | .call op => (fsStep dir t op).1
  | .stopped point value key => (fsSetAt (some point) dir t value key).1

theorem Holds.call {dir : Bytes} {f : Entries} {t : FsTree} (h : Holds dir f t)
    (hdir : dir.length < maxDirname) {c : FsCall} (hsz : c.key.length ≤ maxKeySize) :
    ∃ f', Holds dir f' (fsCall dir t c) := by
  cases c with
  | call op => exact ⟨_, h.step hdir hsz⟩
  | stopped point value key =>
      rcases h.set hdir hsz (some point) value with ⟨-, hnew, -⟩ | ⟨-, -, hnew⟩ | ⟨-, -, hnew⟩
      · exact ⟨_, hnew⟩
      · exact ⟨_, hnew⟩
      · exact ⟨_, hnew⟩

/-- The tree after calls from a bare directory on. -/
def callsTree (dir : Bytes) (calls : List FsCall) : FsTree :=
  calls.foldl (fsCall dir) (bareTree dir)

theorem holds_calls {dir : Bytes} (hdir : dir.length < maxDirname) {calls : List FsCall}
    (hcalls : ∀ c ∈ calls, c.key.length ≤ maxKeySize) : ∃ f, Holds dir f (callsTree dir calls) := by
  have hfold : ∀ (calls : List FsCall) (t : FsTree), (∃ f, Holds dir f t) →
      (∀ c ∈ calls, c.key.length ≤ maxKeySize) → ∃ f, Holds dir f (calls.foldl (fsCall dir) t) := by
    intro calls
    induction calls with
    | nil => intro t h _; exact h
    | cons c rest ih =>
        intro t h hcalls
        obtain ⟨f, h⟩ := h
        exact ih _ (h.call hdir (hcalls c List.mem_cons_self))
          fun c' hc' => hcalls c' (List.mem_cons_of_mem _ hc')
  exact hfold calls _ ⟨_, holds_bareTree dir⟩ hcalls

end Smalltable.Proofs
