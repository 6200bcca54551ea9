import Mathlib.Data.List.Basic

/-!
# Directory trees

A tree is a list of paths with what is there: a directory, or a file with its
bytes. A path is a string, and what is above it is the string up to its last
separator; the tree knows nothing of links, of `.` and of `..`. The calls are
those of POSIX as far as it says when they fail: a file is created in a directory
that is there, a directory is not created twice, and a path that ends with a
separator means a directory.
-/

namespace Smalltable

inductive Node (α : Type) where
  | dir
  | file (data : List α)
  deriving DecidableEq

abbrev DirTree (α : Type) := List (List α × Node α)

inductive Errno where
  | noent | exist | isdir | notdir
  deriving DecidableEq, Repr

namespace DirTree

variable {α : Type} [DecidableEq α]

def find (t : DirTree α) (p : List α) : Option (Node α) := t.lookup p

def put (t : DirTree α) (p : List α) (n : Node α) : DirTree α :=
  (p, n) :: t.filter fun e => e.1 ≠ p

def erase (t : DirTree α) (p : List α) : DirTree α := t.filter fun e => e.1 ≠ p

theorem find_erase (t : DirTree α) (p q : List α) :
    (t.erase p).find q = if q = p then none else t.find q := by
  unfold erase find
  induction t with
  | nil => simp
  | cons e rest ih =>
      obtain ⟨r, n⟩ := e
      rw [List.filter_cons]
      by_cases hr : r = p
      · subst hr
        by_cases hq : q = r
        · simpa [hq] using ih
        · have hbeq : (q == r) = false := by simpa using hq
          simpa [List.lookup_cons, hq, hbeq] using ih
      · by_cases hq : q = r
        · subst hq
          simp [hr]
        · have hbeq : (q == r) = false := by simpa using hq
          simpa [List.lookup_cons, hr, hbeq] using ih

theorem find_put (t : DirTree α) (p q : List α) (n : Node α) :
    (t.put p n).find q = if q = p then some n else t.find q := by
  have herase := find_erase t p q
  unfold erase find at herase
  unfold put find
  by_cases hq : q = p
  · simp [hq]
  · have hbeq : (q == p) = false := by simpa using hq
    rw [if_neg hq] at herase ⊢
    rw [List.lookup_cons, hbeq]
    exact herase

/-- The paths of the tree. -/
def paths (t : DirTree α) : List (List α) := t.map Prod.fst

theorem mem_paths {t : DirTree α} {p : List α} : p ∈ t.paths ↔ t.find p ≠ none := by
  unfold paths find
  induction t with
  | nil => simp
  | cons e rest ih =>
      obtain ⟨r, n⟩ := e
      rw [List.map_cons, List.mem_cons, List.lookup_cons]
      by_cases hp : p = r
      · simp [hp]
      · have hbeq : (p == r) = false := by simpa using hp
        rw [hbeq, ih]
        simp [hp]

theorem nodup_paths_erase {t : DirTree α} (h : t.paths.Nodup) (p : List α) :
    (t.erase p).paths.Nodup :=
  h.sublist (List.filter_sublist.map _)

theorem nodup_paths_put {t : DirTree α} (h : t.paths.Nodup) (p : List α) (n : Node α) :
    (t.put p n).paths.Nodup := by
  refine List.nodup_cons.mpr ⟨fun hmem => ?_, nodup_paths_erase h p⟩
  have hnone := find_erase t p p
  rw [if_pos rfl] at hnone
  exact mem_paths.mp hmem hnone

/-! ## Paths -/

/-- The path above, and the last name. -/
def parent (sep : α) (p : List α) : List α :=
  ((p.reverse.dropWhile (· ≠ sep)).drop 1).reverse

def baseName (sep : α) (p : List α) : List α := (p.reverse.takeWhile (· ≠ sep)).reverse

theorem parent_append (sep : α) (p : List α) {name : List α} (h : sep ∉ name) :
    parent sep (p ++ sep :: name) = p := by
  have hall : ∀ c ∈ name.reverse, (decide (c ≠ sep)) = true := by
    intro c hc
    rw [decide_eq_true_eq]
    rintro rfl
    exact h (List.mem_reverse.mp hc)
  unfold parent
  rw [List.reverse_append, List.reverse_cons, List.append_assoc,
    List.dropWhile_append_of_pos hall, List.singleton_append, List.dropWhile_cons_of_neg (by simp)]
  simp

theorem baseName_append (sep : α) (p : List α) {name : List α} (h : sep ∉ name) :
    baseName sep (p ++ sep :: name) = name := by
  have hall : ∀ c ∈ name.reverse, (decide (c ≠ sep)) = true := by
    intro c hc
    rw [decide_eq_true_eq]
    rintro rfl
    exact h (List.mem_reverse.mp hc)
  unfold baseName
  rw [List.reverse_append, List.reverse_cons, List.append_assoc,
    List.takeWhile_append_of_pos hall, List.singleton_append, List.takeWhile_cons_of_neg (by simp)]
  simp

/-- A path that ends with a separator is the directory in front of it. -/
def trimmed (sep : α) (p : List α) : List α := (p.reverse.dropWhile (· = sep)).reverse

theorem trimmed_append (sep : α) (p : List α) {name : List α} (hne : name ≠ [])
    (h : sep ∉ name) : trimmed sep (p ++ sep :: name) = p ++ sep :: name := by
  obtain ⟨front, c, rfl⟩ := List.eq_nil_or_concat name |>.resolve_left hne
  have hc : c ≠ sep := by
    rintro rfl
    exact h (by simp)
  unfold trimmed
  rw [show p ++ sep :: (front.concat c) = (p ++ sep :: front) ++ [c] by simp,
    List.reverse_append, List.reverse_singleton, List.singleton_append,
    List.dropWhile_cons_of_neg (by simpa using hc)]
  simp

theorem length_trimmed_le (sep : α) (p : List α) : (trimmed sep p).length ≤ p.length := by
  have hle := (List.dropWhile_suffix (fun c => decide (c = sep)) (l := p.reverse)).length_le
  rw [List.length_reverse] at hle
  rw [trimmed, List.length_reverse]
  exact hle

/-! ## Calls -/

/-- May something be created under this path? -/
def checkParent (sep : α) (t : DirTree α) (p : List α) : Except Errno Unit :=
  match t.find (parent sep p) with
  | some .dir => .ok ()
  | some (.file _) => .error .notdir
  | none => .error .noent

/-- `open` for reading; a directory can be opened as well. -/
def openRead (sep : α) (t : DirTree α) (p : List α) : Except Errno (Node α) :=
  match t.find (trimmed sep p) with
  | none => .error .noent
  | some .dir => .ok .dir
  | some (.file data) => if trimmed sep p = p then .ok (.file data) else .error .notdir

/-- `open` for writing, with `O_CREAT` and `O_TRUNC`. -/
def openWrite (sep : α) (t : DirTree α) (p : List α) : Except Errno (DirTree α) :=
  if trimmed sep p ≠ p then .error .isdir
  else
    match t.find p with
    | some .dir => .error .isdir
    | some (.file _) => .ok (t.put p (.file []))
    | none => (checkParent sep t p).map fun _ => t.put p (.file [])

/-- `write` of all of `data` to the file that was opened. -/
def write (t : DirTree α) (p data : List α) : DirTree α := t.put p (.file data)

def mkdir (sep : α) (t : DirTree α) (p : List α) : Except Errno (DirTree α) :=
  let p := trimmed sep p
  match t.find p with
  | some _ => .error .exist
  | none => (checkParent sep t p).map fun _ => t.put p .dir

def unlink (sep : α) (t : DirTree α) (p : List α) : Except Errno (DirTree α) :=
  match t.find (trimmed sep p) with
  | none => .error .noent
  | some .dir => .error .isdir
  | some (.file _) => if trimmed sep p = p then .ok (t.erase p) else .error .notdir

/-- `rename` of a file. -/
def rename (sep : α) (t : DirTree α) (p q : List α) : Except Errno (DirTree α) :=
  match t.find p with
  | some (.file data) =>
      match t.find (trimmed sep q) with
      | some .dir => .error .isdir
      | _ =>
          if trimmed sep q ≠ q then .error .notdir
          else (checkParent sep t q).map fun _ => (t.erase p).put q (.file data)
  | some .dir => .error .isdir
  | none => .error .noent

/-! ## Calls that succeed, and why others do not -/

section Calls

variable {sep : α} {t : DirTree α} {p : List α}

theorem openWrite_new (htrim : trimmed sep p = p) (hp : t.find p = none)
    (hparent : t.find (parent sep p) = some .dir) :
    openWrite sep t p = .ok (t.put p (.file [])) := by
  simp [openWrite, checkParent, htrim, hp, hparent, Except.map]

theorem openWrite_noent (htrim : trimmed sep p = p) (hp : t.find p = none)
    (hparent : t.find (parent sep p) = none) : openWrite sep t p = .error .noent := by
  simp [openWrite, checkParent, htrim, hp, hparent, Except.map]

theorem mkdir_exist (htrim : trimmed sep p = p) {n : Node α} (hp : t.find p = some n) :
    mkdir sep t p = .error .exist := by
  simp [mkdir, htrim, hp]

theorem mkdir_new (htrim : trimmed sep p = p) (hp : t.find p = none)
    (hparent : t.find (parent sep p) = some .dir) : mkdir sep t p = .ok (t.put p .dir) := by
  simp [mkdir, checkParent, htrim, hp, hparent, Except.map]

theorem mkdir_noent (htrim : trimmed sep p = p) (hp : t.find p = none)
    (hparent : t.find (parent sep p) = none) : mkdir sep t p = .error .noent := by
  simp [mkdir, checkParent, htrim, hp, hparent, Except.map]

/-- A directory is made under the path it was asked for, or its shorter form. -/
theorem find_mkdir {t' : DirTree α} (h : mkdir sep t p = .ok t') (q : List α) :
    t'.find q = if q = trimmed sep p then some .dir else t.find q := by
  simp only [mkdir] at h
  split at h
  · cases h
  · cases hcheck : checkParent sep t (trimmed sep p) with
    | error e =>
        rw [hcheck] at h
        cases h
    | ok u =>
        rw [hcheck] at h
        cases h
        exact find_put t _ _ _

theorem openWrite_cases {t' : DirTree α} (h : openWrite sep t p = .ok t') :
    t' = t.put p (.file []) ∧ t.find p ≠ some .dir := by
  simp only [openWrite] at h
  split at h
  · cases h
  · split at h
    · cases h
    · next hfile =>
        cases h
        exact ⟨rfl, by rw [hfile]; exact nofun⟩
    · next hnone =>
        cases hcheck : checkParent sep t p with
        | error e =>
            rw [hcheck] at h
            cases h
        | ok u =>
            rw [hcheck] at h
            cases h
            exact ⟨rfl, by rw [hnone]; exact nofun⟩

/-- No call that makes something takes a directory away. -/
theorem mkdir_keeps {t' : DirTree α} (h : mkdir sep t p = .ok t') {q : List α}
    (hq : t.find q = some .dir) : t'.find q = some .dir := by
  rw [find_mkdir h]
  split
  · rfl
  · exact hq

theorem openWrite_keeps {t' : DirTree α} (h : openWrite sep t p = .ok t') {q : List α}
    (hq : t.find q = some .dir) : t'.find q = some .dir := by
  obtain ⟨rfl, hp⟩ := openWrite_cases h
  have hne : q ≠ p := by
    rintro rfl
    exact hp hq
  rw [find_put, if_neg hne, hq]

end Calls

/-! ## Trees as the calls keep them -/

/-- No path is there twice, and what is above a path is a directory. -/
structure Tidy (sep : α) (t : DirTree α) : Prop where
  nodup : t.paths.Nodup
  above : ∀ p, t.find p ≠ none → t.find (parent sep p) = some .dir

namespace Tidy

variable {sep : α} {t t' : DirTree α} {p q data : List α}

theorem put (h : Tidy sep t) (hp : t.find p ≠ some .dir)
    (hparent : t.find (parent sep p) = some .dir) (n : Node α) : Tidy sep (t.put p n) := by
  have hkeep : ∀ q, t.find q = some .dir → (t.put p n).find q = some .dir := by
    intro q hq
    have hne : q ≠ p := by
      rintro rfl
      exact hp hq
    rw [find_put, if_neg hne, hq]
  refine ⟨nodup_paths_put h.nodup p n, fun q hq => ?_⟩
  by_cases hqp : q = p
  · subst hqp
    exact hkeep _ hparent
  · rw [find_put, if_neg hqp] at hq
    exact hkeep _ (h.above q hq)

theorem erase (h : Tidy sep t) (hp : t.find p ≠ some .dir) : Tidy sep (t.erase p) := by
  refine ⟨nodup_paths_erase h.nodup p, fun q hq => ?_⟩
  rw [find_erase] at hq
  split at hq
  · exact absurd rfl hq
  · have hparent := h.above q hq
    have hne : parent sep q ≠ p := by
      intro heq
      rw [heq] at hparent
      exact hp hparent
    rw [find_erase, if_neg hne, hparent]

theorem checkParent_ok {u : Unit} (h : checkParent sep t p = .ok u) :
    t.find (parent sep p) = some .dir := by
  unfold checkParent at h
  split at h
  · next hdir => exact hdir
  · cases h
  · cases h

theorem mkdir (h : Tidy sep t) (hmk : DirTree.mkdir sep t p = .ok t') : Tidy sep t' := by
  simp only [DirTree.mkdir] at hmk
  split at hmk
  · cases hmk
  · next hnone =>
      cases hcheck : checkParent sep t (trimmed sep p) with
      | error e =>
          rw [hcheck] at hmk
          cases hmk
      | ok u =>
          rw [hcheck] at hmk
          cases hmk
          exact h.put (by rw [hnone]; exact nofun) (checkParent_ok hcheck) _

theorem openWrite (h : Tidy sep t) (hopen : DirTree.openWrite sep t p = .ok t') : Tidy sep t' := by
  obtain ⟨rfl, hp⟩ := openWrite_cases hopen
  refine h.put hp ?_ _
  cases hfind : t.find p with
  | some n => exact h.above p (by rw [hfind]; exact nofun)
  | none =>
      simp only [DirTree.openWrite, hfind] at hopen
      split at hopen
      · cases hopen
      · cases hcheck : checkParent sep t p with
        | error e =>
            rw [hcheck] at hopen
            cases hopen
        | ok u => exact checkParent_ok hcheck

theorem write (h : Tidy sep t) (hp : t.find p = some (.file data)) (data' : List α) :
    Tidy sep (t.write p data') :=
  h.put (by rw [hp]; exact nofun) (h.above p (by rw [hp]; exact nofun)) _

theorem unlink (h : Tidy sep t) (hun : DirTree.unlink sep t p = .ok t') : Tidy sep t' := by
  unfold DirTree.unlink at hun
  split at hun
  · cases hun
  · cases hun
  · next hfile =>
      split at hun
      · next htrim =>
          cases hun
          rw [htrim] at hfile
          exact h.erase (by rw [hfile]; exact nofun)
      · cases hun

theorem rename (h : Tidy sep t) (hre : DirTree.rename sep t p q = .ok t') : Tidy sep t' := by
  unfold DirTree.rename at hre
  split at hre
  · next data hfile =>
      split at hre
      · cases hre
      · next hnot =>
          split at hre
          · cases hre
          · next htrim =>
              rw [Classical.not_not] at htrim
              rw [htrim] at hnot
              cases hcheck : checkParent sep t q with
              | error e =>
                  rw [hcheck] at hre
                  cases hre
              | ok u =>
                  rw [hcheck] at hre
                  cases hre
                  have hp : t.find p ≠ some .dir := by rw [hfile]; exact nofun
                  have hparent := checkParent_ok hcheck
                  have hne : parent sep q ≠ p := by
                    intro heq
                    rw [heq] at hparent
                    exact hp hparent
                  refine (h.erase hp).put ?_ ?_ _
                  · rw [find_erase]
                    split
                    · exact nofun
                    · exact hnot
                  · rw [find_erase, if_neg hne, hparent]
  · cases hre
  · cases hre

end Tidy

end DirTree

end Smalltable
