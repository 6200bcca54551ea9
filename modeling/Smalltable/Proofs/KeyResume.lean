import Mathlib.Algebra.Order.BigOperators.Group.List
import Mathlib.Data.List.Flatten
import Smalltable.Proofs.KeyListing

/-!
# Resuming a listing

A listing goes on behind a key, which may have been deleted since. The numbers of
its directories are compared, so the directories before them are passed over and
those behind them are listed, whether or not they are there. Inside the directory
itself the name is looked for: the files behind it are listed when it is found, and
when it is not there none of them are.

For the first page, with no start, every key is to be listed, and for the others those
behind the start in the order of the walk. A start that has never been stored is treated
as one that was deleted.
-/

namespace Smalltable.Proofs

open Smalltable.Ref

theorem filesBehind_sublist (name : Bytes) (offs : List Bytes) :
    (filesBehind name offs).Sublist offs :=
  (List.drop_sublist 1 _).trans (List.dropWhile_sublist _)

/-- A walk leaves files out and does not change their order. -/
theorem walkB_sublist (t : FsTree) (name : Bytes) (b : Int) (off : Bytes) :
    (walkB t name b off).Sublist (filesB t off) := by
  refine List.Sublist.flatMap_right _ fun q _ => ?_
  split
  · split
    · exact filesBehind_sublist name _
    · exact List.Sublist.refl _
  · exact List.nil_sublist _

theorem walkA_sublist (dir : Bytes) (t : FsTree) (name : Bytes) (a b : Int) :
    (walkA dir t name a b).Sublist (files dir t) := by
  refine List.Sublist.flatMap_right _ fun q _ => ?_
  split
  · split
    · exact walkB_sublist t name b q
    · exact List.Sublist.refl _
  · exact List.nil_sublist _

section Resume

variable {dir : Bytes} {m : Bytes → Option Bytes} {t : FsTree}
  (hdir : dir.length < maxDirname) (h : Kept dir m t) (hself : pathMatch slash dir dir = true)

include hdir h hself

/-! ## The directory of the key

Inside the directory the walk goes by name alone. A name that is found divides the
files; one that is not found is never passed, and nothing is listed. -/

/-- Behind a name that is not there, nothing comes. -/
theorem filesBehind_absent {start : Bytes} (hstart : m start = none) :
    filesBehind (escaped start) (filesC t (dirB dir start)) = [] := by
  have hall : ∀ q ∈ filesC t (dirB dir start),
      (decide (DirTree.baseName slash q ≠ escaped start)) = true := by
    intro q hq
    obtain ⟨k, hk, -, rfl⟩ := (h.mem_globC hdir hself start q).mp hq
    rw [decide_eq_true_eq, h.baseName hdir hk]
    intro hname
    rw [escaped_inj hname] at hk
    exact hk hstart
  rw [filesBehind, List.dropWhile_eq_nil_iff.mpr hall, List.drop_nil]

/-- Behind one that is, what has a greater name. -/
theorem mem_filesBehind_stored {start k : Bytes} (hstart : m start ≠ none) (hk : m k ≠ none)
    (hhash : (keyToFilename k).2 = (keyToFilename start).2) :
    keyToFullpath dir k ∈ filesBehind (escaped start) (filesC t (dirB dir start)) ↔
      escaped start < escaped k := by
  have hmem := (h.mem_filesC hdir hself start hk).mpr hhash
  have hsorted : (filesC t (dirB dir start)).Pairwise (· < ·) :=
    globPaths_sorted slash h.tidy.nodup _
  rw [filesBehind_stored hdir h hself hstart, mem_after_iff (fun _ _ => List.lt_asymm) hsorted
    (dirs_of_stored hdir h hself hstart).2.2, and_iff_right hmem, fullpath_fits hdir,
    fullpath_fits hdir, eq_dirB hhash, append_lt_iff, (h.domain k hk).fileName_eq,
    (h.domain start hstart).fileName_eq]

/-! ## The walk

Directories are compared by number, so those in front and those behind are told apart
without the start being there. Only in the directory of the start does it matter. -/

/-- The directory of a key is found below that of the first level. -/
theorem mem_walkB (start name : Bytes) {k : Bytes} (hk : m k ≠ none) :
    keyToFullpath dir k ∈ walkB t name (keyToFilename start).2.2 (dirA dir start) ↔
      (keyToFilename start).2.1 = (keyToFilename k).2.1 ∧
        ((keyToFilename start).2.2 < (keyToFilename k).2.2 ∨
          (keyToFilename start).2.2 = (keyToFilename k).2.2 ∧
            keyToFullpath dir k ∈ filesBehind name (filesC t (dirB dir start))) := by
  have hC := (h.mem_filesC hdir hself k hk).mpr rfl
  rw [walkB, List.mem_flatMap]
  constructor
  · rintro ⟨off, hoff, hmem⟩
    obtain ⟨k1, ha, rfl, -⟩ := ((h.shaped hdir).mem_globB hself start off).mp hoff
    rw [dirNumber_dirB] at hmem
    split at hmem
    · next hle =>
        split at hmem
        · next heq =>
            have hb := Int.natCast_inj.mp heq
            have hhash : (keyToFilename k1).2 = (keyToFilename start).2 := Prod.ext ha hb
            rw [eq_dirB hhash] at hmem
            have hsame := (h.mem_filesC hdir hself start hk).mp
              ((filesBehind_sublist name _).subset hmem)
            exact ⟨(congrArg Prod.fst hsame).symm, .inr ⟨(congrArg Prod.snd hsame).symm, hmem⟩⟩
        · next hne =>
            have hsame := (h.mem_filesC hdir hself k1 hk).mp hmem
            rw [hsame]
            exact ⟨ha.symm, .inl (by omega)⟩
    · cases hmem
  · rintro ⟨ha, hb⟩
    have hoff := (dirs_of_stored hdir h hself hk).2.1
    rw [← eq_dirA ha] at hoff
    refine ⟨dirB dir k, hoff, ?_⟩
    rw [dirNumber_dirB]
    rcases hb with hlt | ⟨heq, hmem⟩
    · rw [if_pos (by omega), if_neg (by omega)]
      exact hC
    · rw [if_pos (by omega), if_pos (by omega), eq_dirB (Prod.ext ha.symm heq.symm)]
      exact hmem

theorem mem_walkA (start name : Bytes) {k : Bytes} (hk : m k ≠ none) :
    keyToFullpath dir k ∈ walkA dir t name (keyToFilename start).2.1 (keyToFilename start).2.2 ↔
      (keyToFilename start).2.1 < (keyToFilename k).2.1 ∨
        (keyToFilename start).2.1 = (keyToFilename k).2.1 ∧
          ((keyToFilename start).2.2 < (keyToFilename k).2.2 ∨
            (keyToFilename start).2.2 = (keyToFilename k).2.2 ∧
              keyToFullpath dir k ∈ filesBehind name (filesC t (dirB dir start))) := by
  have hB := (mem_filesB hdir h hself k _).mpr ⟨k, hk, rfl, rfl⟩
  rw [walkA, List.mem_flatMap]
  constructor
  · rintro ⟨off, hoff, hmem⟩
    obtain ⟨k1, rfl, -⟩ := ((h.shaped hdir).mem_dirsA hself off).mp hoff
    rw [dirNumber_dirA] at hmem
    split at hmem
    · next hle =>
        split at hmem
        · next heq =>
            rw [eq_dirA (Int.natCast_inj.mp heq)] at hmem
            exact .inr ((mem_walkB hdir h hself start name hk).mp hmem)
        · next hne =>
            obtain ⟨k2, hk2, ha, heq⟩ := (mem_filesB hdir h hself k1 _).mp hmem
            rw [← h.path_inj hdir hk hk2 heq] at ha
            rw [ha]
            exact .inl (by omega)
    · cases hmem
  · intro hbehind
    refine ⟨dirA dir k, (dirs_of_stored hdir h hself hk).1, ?_⟩
    rw [dirNumber_dirA]
    rcases hbehind with hlt | hsame
    · rw [if_pos (by omega), if_neg (by omega)]
      exact hB
    · have ha := hsame.1
      rw [if_pos (by omega), if_pos (by omega), ← eq_dirA ha]
      exact (mem_walkB hdir h hself start name hk).mpr hsame

end Resume

/-! ## One call

So a page behind a deleted key lacks the keys behind it in its own directory, and only
these. It lists what it should exactly when there are none (`LastOfDir`). -/

/-- The call lists the stored keys behind `start`, in their order. -/
def ListsBehind (stat : Bytes → Nat) (dir : Bytes) (t : FsTree) (size : Nat) (start : Bytes)
    (stored : Bytes → Prop) : Prop :=
  ∃ ks : List Bytes, fsGetKeys stat dir t size start
      = ks.flatMap (fun k => keyItem (stat (keyToFullpath dir k)) k) ∧
    ks.Pairwise Precedes ∧ ∀ k, k ∈ ks ↔ stored k ∧ Precedes start k

/-- The buffer is large enough for all stored keys. -/
def HoldsAll (size : Nat) (stored : Bytes → Prop) : Prop :=
  ∀ ks : List Bytes, ks.Nodup → (∀ k ∈ ks, stored k) → (ks.map itemSz).sum ≤ size

/-- The walk that starts behind `start` comes to `k`. -/
def Reached (m : Bytes → Option Bytes) (start k : Bytes) : Prop :=
  start = [] ∨ (keyToFilename start).2.1 < (keyToFilename k).2.1 ∨
    (keyToFilename start).2.1 = (keyToFilename k).2.1 ∧
      ((keyToFilename start).2.2 < (keyToFilename k).2.2 ∨
        (keyToFilename start).2.2 = (keyToFilename k).2.2 ∧ m start ≠ none ∧
          (keyToFilename start).1 < (keyToFilename k).1)

/-- Items of short keys tell the keys. -/
theorem items_inj {f : Bytes → Nat} {ks ks' : List Bytes} (hlen : ∀ k ∈ ks, k.length < 256)
    (hlen' : ∀ k ∈ ks', k.length < 256)
    (h : ks.flatMap (fun k => keyItem (f k) k) = ks'.flatMap fun k => keyItem (f k) k) :
    ks = ks' := by
  have hpage : ∀ l : List Bytes, (∀ k ∈ l, k.length < 256) →
      (SimpleClient.getKeysPage (fun _ => l.flatMap fun k => keyItem (f k) k) []).map
        (·.map Prod.snd) = some l := by
    intro l hl
    have hitems : l.flatMap (fun k => keyItem (f k) k)
        = (l.map fun k => (f k, k)).flatMap fun i => keyItem i.1 i.2 := by rw [List.flatMap_map]
    have hshort : ∀ i ∈ l.map fun k => (f k, k), i.2.length < 256 := by
      intro i hi
      obtain ⟨k, hk, rfl⟩ := List.mem_map.mp hi
      exact hl k hk
    rw [getKeysPage_items hshort hitems, Option.map_some, List.map_map, List.map_map]
    exact congrArg some (List.map_id' l)
  have heq := hpage ks hlen
  rw [h, hpage ks' hlen', Option.some_inj] at heq
  exact heq.symm

section Page

variable {dir : Bytes} {m : Bytes → Option Bytes} {t : FsTree} {size : Nat} {start : Bytes}

/-- The empty key comes before all others. -/
theorem precedes_nil {k : Bytes} (hk : NameFits k) : Precedes [] k := by
  have hnil : keyToFilename [] = ([], 0, 0) := rfl
  have hname : (keyToFilename k).1 ≠ [] := by
    rw [keyToFilename_eq hk.size_le]
    intro hempty
    have hnone : escaped k = escaped [] := hempty
    exact hk.1 (escaped_inj hnone)
  obtain ⟨c, rest, hcons⟩ := List.exists_cons_of_ne_nil hname
  have hlt : ([] : Bytes) < c :: rest := List.nil_lt_cons c rest
  rw [Precedes, hnil, hcons]
  rcases Nat.eq_zero_or_pos (keyToFilename k).2.1 with ha | ha
  · rcases Nat.eq_zero_or_pos (keyToFilename k).2.2 with hb | hb
    · exact .inr ⟨ha.symm, .inr ⟨hb.symm, hlt⟩⟩
    · exact .inr ⟨ha.symm, .inl hb⟩
  · exact .inl ha

/-- The files of a walk that goes through stored keys in their order. -/
theorem exists_walk (hdir : dir.length < maxDirname) (h : Kept dir m t)
    (hself : pathMatch slash dir dir = true) {offs : List Bytes}
    (hsub : offs.Sublist (files dir t)) : ∃ ks : List Bytes, offs = ks.map (keyToFullpath dir) ∧
      ks.Pairwise Precedes ∧ ∀ k, k ∈ ks ↔ m k ≠ none ∧ keyToFullpath dir k ∈ offs := by
  obtain ⟨all, -, hall, hfiles⟩ := exists_keys hdir h hself
  have hsorted := (files_sorted hdir h hself).sublist hsub
  rw [hfiles] at hsub
  obtain ⟨ks, hks, rfl⟩ := List.sublist_map_iff.mp hsub
  have hstored : ∀ k ∈ ks, m k ≠ none := fun k hk => (hall k).mp (hks.subset hk)
  refine ⟨ks, rfl, ?_, fun k => ⟨fun hk => ⟨hstored k hk, List.mem_map_of_mem hk⟩, ?_⟩⟩
  · exact (List.pairwise_map.mp hsorted).imp_of_mem fun hk hk' hbefore =>
      hbefore _ _ (hstored _ hk) (hstored _ hk') rfl rfl
  · rintro ⟨hk, hmem⟩
    obtain ⟨k', hk', heq⟩ := List.mem_map.mp hmem
    rw [← h.path_inj hdir (hstored k' hk') hk heq]
    exact hk'

/-- What one call returns, whatever key it is given. -/
theorem fsGetKeys_reached (stat : Bytes → Nat) (hdir : dir.length < maxDirname) (h : Kept dir m t)
    (hself : pathMatch slash dir dir = true) (hroom : dir.length ≤ 115)
    (hstart : (escaped start).length ≤ maxSystemFilename)
    (hsize : HoldsAll size fun k => m k ≠ none) : ∃ ks : List Bytes,
      fsGetKeys stat dir t size start
        = ks.flatMap (fun k => keyItem (stat (keyToFullpath dir k)) k) ∧
      ks.Pairwise Precedes ∧ ∀ k, k ∈ ks ↔ m k ≠ none ∧ Reached m start k := by
  have hwalk : ∃ offs : List Bytes, offs.Sublist (files dir t) ∧
      fsGetKeys stat dir t size start
        = (traverseFiles stat offs none { room := (size : Int) }).1.out ∧
      ∀ k, m k ≠ none → (keyToFullpath dir k ∈ offs ↔ Reached m start k) := by
    by_cases hnil : start = []
    · refine ⟨files dir t, List.Sublist.refl _, ?_, fun k hk => ?_⟩
      · rw [hnil, fsGetKeys, if_neg (by decide), (h.shaped hdir).traverseA_none hself hroom]
      · exact iff_of_true ((mem_files hdir h hself _).mpr ⟨k, hk, rfl⟩) (.inl hnil)
    · have hfits : NameFits start := ⟨hnil, hstart⟩
      have hlen : start.length ≠ 0 := fun hlen => hnil (List.eq_nil_of_length_eq_zero hlen)
      have hname : (keyToFilename start).1 = escaped start := by rw [keyToFilename_eq hfits.size_le]
      refine ⟨_, walkA_sublist dir t (escaped start) (keyToFilename start).2.1
        (keyToFilename start).2.2, ?_, fun k hk => ?_⟩
      · rw [fsGetKeys, if_pos hlen]
        simp only [hname]
        rw [(h.shaped hdir).traverseA_name hself hroom]
      · rw [mem_walkA hdir h hself start _ hk, Reached, or_iff_right hnil]
        refine or_congr_right (and_congr_right fun ha => or_congr_right ?_)
        refine and_congr_right fun hb => ?_
        rw [hname, keyToFilename_eq (h.domain k hk).size_le]
        by_cases hthere : m start = none
        · rw [filesBehind_absent hdir h hself hthere]
          exact iff_of_false List.not_mem_nil fun hbad => hbad.1 hthere
        · rw [mem_filesBehind_stored hdir h hself hthere hk (Prod.ext ha.symm hb.symm)]
          exact (and_iff_right hthere).symm
  obtain ⟨offs, hsub, hout, hreach⟩ := hwalk
  obtain ⟨ks, rfl, hsorted, hmem⟩ := exists_walk hdir h hself hsub
  have hnodup : ks.Nodup := hsorted.imp fun hbefore heq => by
    rw [heq] at hbefore
    exact not_precedes_self _ hbefore
  refine ⟨ks, ?_, hsorted, fun k => ?_⟩
  · rw [hout, h.walk_items hdir fun k hk => ((hmem k).mp hk).1,
      fitting_all (hsize ks hnodup fun k hk => ((hmem k).mp hk).1)]
  · rw [hmem k]
    exact and_congr_right fun hk => hreach k hk

theorem Reached.precedes {k : Bytes} (hk : NameFits k) (hreach : Reached m start k) :
    Precedes start k := by
  rcases hreach with rfl | hlt | ⟨ha, hb | ⟨hb, -, hname⟩⟩
  · exact precedes_nil hk
  · exact .inl hlt
  · exact .inr ⟨ha, .inl hb⟩
  · exact .inr ⟨ha, .inr ⟨hb, hname⟩⟩

/-- In the directory of `start` no stored key comes behind it. -/
def LastOfDir (m : Bytes → Option Bytes) (start : Bytes) : Prop :=
  ∀ k, m k ≠ none → (keyToFilename k).2 = (keyToFilename start).2 →
    ¬ (keyToFilename start).1 < (keyToFilename k).1

/-- Every key behind `start` is reached unless its own directory hides one. -/
theorem reached_iff : (∀ k, m k ≠ none → Precedes start k → Reached m start k) ↔
    start = [] ∨ m start ≠ none ∨ LastOfDir m start := by
  constructor
  · intro hall
    by_cases hnil : start = []
    · exact .inl hnil
    · by_cases hthere : m start = none
      · refine .inr (.inr fun k hk hhash hname => ?_)
        have ha := (congrArg Prod.fst hhash).symm
        have hb := (congrArg Prod.snd hhash).symm
        rcases hall k hk (.inr ⟨ha, .inr ⟨hb, hname⟩⟩) with hbad | hlt | ⟨-, hlt | ⟨-, hbad, -⟩⟩
        · exact hnil hbad
        · omega
        · omega
        · exact hbad hthere
      · exact .inr (.inl hthere)
  · intro hcond k hk hbefore
    rcases hbefore with hlt | ⟨ha, hb | ⟨hb, hname⟩⟩
    · exact .inr (.inl hlt)
    · exact .inr (.inr ⟨ha, .inl hb⟩)
    · rcases hcond with hnil | hthere | hlast
      · exact .inl hnil
      · exact .inr (.inr ⟨ha, .inr ⟨hb, hthere, hname⟩⟩)
      · exact absurd hname (hlast k hk (Prod.ext ha.symm hb.symm))

theorem listsBehind_iff_of_kept (stat : Bytes → Nat) (hdir : dir.length < maxDirname)
    (h : Kept dir m t) (hstart : (escaped start).length ≤ maxSystemFilename)
    (hsize : HoldsAll size fun k => m k ≠ none) :
    ListsBehind stat dir t size start (fun k => m k ≠ none) ↔
      (∀ k, m k ≠ none → ¬ Precedes start k) ∨
      (dir.length ≤ 115 ∧ pathMatch slash dir dir = true) ∧
        (start = [] ∨ m start ≠ none ∨ LastOfDir m start) := by
  have hshort : ∀ {ks : List Bytes}, (∀ k ∈ ks, m k ≠ none) → ∀ k ∈ ks, k.length < 256 :=
    fun hks k hk => Nat.lt_of_le_of_lt (h.domain k (hks k hk)).length_le (by decide)
  by_cases hfound : dir.length ≤ 115 ∧ pathMatch slash dir dir = true
  · obtain ⟨ks, hout, hsorted, hmem⟩ := fsGetKeys_reached stat hdir h
      hfound.2 hfound.1 hstart hsize
    rw [and_iff_right hfound, ← reached_iff]
    constructor
    · rintro ⟨ks', hout', -, hmem'⟩
      have heq : ks = ks' := items_inj (hshort fun k hk => ((hmem k).mp hk).1)
        (hshort fun k hk => ((hmem' k).mp hk).1) (hout.symm.trans hout')
      refine .inr fun k hk hbefore => ?_
      exact ((hmem k).mp (heq ▸ (hmem' k).mpr ⟨hk, hbefore⟩)).2
    · intro hcond
      refine ⟨ks, hout, hsorted, fun k => ?_⟩
      rw [hmem k]
      refine and_congr_right fun hk => ⟨fun hreach => hreach.precedes (h.domain k hk), ?_⟩
      rcases hcond with hnone | hall
      · exact fun hbefore => absurd hbefore (hnone k hk)
      · exact hall k hk
  · have hout : fsGetKeys stat dir t size start = [] :=
        (h.shaped hdir).fsGetKeys_none hdir hfound start
    rw [or_iff_left fun hbad => hfound hbad.1]
    constructor
    · rintro ⟨ks, hout', -, hmem⟩ k hk hbefore
      have hnil : ks = [] := items_inj (hshort fun k hk => ((hmem k).mp hk).1) nofun
        (hout'.symm.trans hout)
      have hbad := (hmem k).mpr ⟨hk, hbefore⟩
      rw [hnil] at hbad
      cases hbad
    · exact fun hnone => ⟨[], hout, .nil, fun k => ⟨nofun, fun hk => absurd hk.2 (hnone k hk.1)⟩⟩

end Page

/-- A listing goes on behind a key as it should exactly when the key is still there or
is the last of its directory, and the directory can be listed at all. -/
theorem listsBehind_iff (stat : Bytes → Nat) {dir : Bytes} (hdir : dir.length < maxDirname)
    {ops : List FsOp} (hops : ∀ op ∈ ops, NameFits op.key) {start : Bytes}
    (hstart : (escaped start).length ≤ maxSystemFilename) {size : Nat}
    (hsize : HoldsAll size fun k => runMap ops k ≠ none) :
    ListsBehind stat dir (runTree dir ops) size start (fun k => runMap ops k ≠ none) ↔
      (∀ k, runMap ops k ≠ none → ¬ Precedes start k) ∨
      (dir.length ≤ 115 ∧ pathMatch slash dir dir = true) ∧
        (start = [] ∨ runMap ops start ≠ none ∨ LastOfDir (runMap ops) start) :=
  listsBehind_iff_of_kept stat hdir (kept_run hdir hops) hstart hsize

/-! ### Two keys in one directory -/

theorem mem_of_runMap {ops : List FsOp} {k : Bytes} (hk : runMap ops k ≠ none) :
    k ∈ ops.map FsOp.key := by
  have hfold : ∀ (ops : List FsOp) (m : Bytes → Option Bytes),
      ops.foldl (fun m op => (mapStep m op).1) m k ≠ none → m k = none → k ∈ ops.map FsOp.key := by
    intro ops
    induction ops with
    | nil => intro m hk hm; exact absurd hm hk
    | cons op rest ih =>
        intro m hk hm
        by_cases hkey : k = op.key
        · exact hkey ▸ List.mem_cons_self
        · refine List.mem_cons_of_mem _ (ih _ hk ?_)
          cases op with
          | get size k' => exact hm
          | set value k' => exact (Function.update_of_ne hkey _ _).trans hm
          | del k' => exact (Function.update_of_ne hkey _ _).trans hm
  exact hfold ops _ hk rfl

theorem holdsAll_run {ops : List FsOp} {size : Nat}
    (h : (ops.map fun op => itemSz op.key).sum ≤ size) :
    HoldsAll size fun k => runMap ops k ≠ none := by
  intro ks hnodup hstored
  obtain ⟨ks', hperm, hsub⟩ := List.subperm_of_subset hnodup fun k hk =>
    mem_of_runMap (hstored k hk)
  have hle := (hsub.map itemSz).sum_le_sum fun _ _ => Nat.zero_le _
  rw [List.map_map] at hle
  rw [← (hperm.map itemSz).sum_nat]
  exact Nat.le_trans hle h

def twoKeys : List FsOp := [.set (ascii "1") (ascii "bax"), .set (ascii "2") (ascii "eua")]

theorem twoKeys_fits : ∀ op ∈ twoKeys, NameFits op.key := by
  intro op hop
  simp only [twoKeys, List.mem_cons, List.not_mem_nil, or_false] at hop
  rcases hop with rfl | rfl
  all_goals exact ⟨List.cons_ne_nil _ _, by decide⟩

theorem listsBehind_iff_twoKeys : ListsBehind (fun _ => 0) (ascii "/data")
    (runTree (ascii "/data") twoKeys) 4096 (ascii "bax") fun k => runMap twoKeys k ≠ none := by
  have hstored : runMap twoKeys (ascii "bax") ≠ none := by simp [runMap, twoKeys, mapStep, ascii]
  exact (listsBehind_iff _ (by decide) twoKeys_fits (by decide) (holdsAll_run (by decide))).mpr
    (.inr ⟨⟨by decide, by decide⟩, .inr (.inl hstored)⟩)

/-- The first key is deleted once it was listed, and the second one is not found. -/
theorem listsBehind_deleted : ¬ ListsBehind (fun _ => 0) (ascii "/data")
    (runTree (ascii "/data") (twoKeys ++ [.del (ascii "bax")])) 4096 (ascii "bax")
    fun k => runMap (twoKeys ++ [.del (ascii "bax")]) k ≠ none := by
  have hops : ∀ op ∈ twoKeys ++ [.del (ascii "bax")], NameFits op.key := by
    intro op hop
    rcases List.mem_append.mp hop with hop | hop
    · exact twoKeys_fits op hop
    · rw [List.mem_singleton.mp hop]
      exact ⟨List.cons_ne_nil _ _, by decide⟩
  have hdir : (ascii "/data").length < maxDirname := by decide
  have hgone : runMap (twoKeys ++ [.del (ascii "bax")]) (ascii "bax") = none := by
    simp [runMap, twoKeys, mapStep]
  have hstored : runMap (twoKeys ++ [.del (ascii "bax")]) (ascii "eua") ≠ none := by
    simp [runMap, twoKeys, mapStep, ascii]
  have hhash : (keyToFilename (ascii "eua")).2 = (keyToFilename (ascii "bax")).2 := by
    decide +kernel
  have hname : (keyToFilename (ascii "bax")).1 < (keyToFilename (ascii "eua")).1 := by decide
  rw [listsBehind_iff_of_kept _ hdir (kept_run hdir hops) (by decide) (holdsAll_run (by decide))]
  rintro (hnone | ⟨-, hnil | hthere | hlast⟩)
  · have hbefore : Precedes (ascii "bax") (ascii "eua") :=
      .inr ⟨congrArg Prod.fst hhash.symm, .inr ⟨congrArg Prod.snd hhash.symm, hname⟩⟩
    exact hnone _ hstored hbefore
  · exact absurd hnil (by decide)
  · exact hthere hgone
  · exact hlast _ hstored hhash hname

end Smalltable.Proofs
