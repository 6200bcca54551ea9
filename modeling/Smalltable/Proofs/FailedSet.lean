import Smalltable.Proofs.FsEntries
import Smalltable.Proofs.KeyResume

/-!
# Sets that fail

What is seen of the engine are the values of its keys and the keys it lists. Both come
from the entries: a value is the entry of a file, and a listing goes through the names
that do not begin with a dot, in an order that depends on nothing else. A set that is
stopped once its new file is open leaves that file, which is no key's and is listed all
the same, under the key it would be the name of.
-/

namespace Smalltable.Proofs

open Smalltable.Ref

/-! ## Listings of equal entries

A page is made of the names in a directory in their order, and of their times. So two
trees whose directories of the second level have the same entries are listed alike,
whatever else there is in them. -/

/-- What is passed over makes no difference to what is collected in order. -/
theorem flatMap_sorted {β : Type} {l l' : List Bytes} {g g' : Bytes → List β}
    (hl : l.Pairwise (· < ·)) (hl' : l'.Pairwise (· < ·))
    (hg : ∀ q, q ∈ l ∨ q ∈ l' → g q = g' q)
    (hmem : ∀ q, q ∈ l ∨ q ∈ l' → g q ≠ [] → q ∈ l ∧ q ∈ l') :
    l.flatMap g = l'.flatMap g' := by
  have hkept : ∀ l : List Bytes, l.flatMap g = (l.filter fun q => !(g q).isEmpty).flatMap g := by
    intro l
    induction l with
    | nil => rfl
    | cons q rest ih =>
        rw [List.flatMap_cons, List.filter_cons]
        by_cases hq : g q = []
        · rw [hq, List.nil_append, ih]
          rfl
        · have hthere : (!(g q).isEmpty) = true := by simpa using hq
          rw [if_pos hthere, List.flatMap_cons, ih]
  have hsame : (l.filter fun q => !(g q).isEmpty) = l'.filter fun q => !(g q).isEmpty := by
    refine (hl.filter _).eq_of_mem_iff (hl'.filter _) fun q => ?_
    rw [List.mem_filter, List.mem_filter]
    refine and_congr_left fun hq => ?_
    have hne : g q ≠ [] := by simpa using hq
    exact ⟨fun hin => (hmem q (.inl hin) hne).2, fun hin => (hmem q (.inr hin) hne).1⟩
  rw [← List.flatMap_congr fun q hq => hg q (.inr hq), hkept l, hkept l', hsame]

/-- The same names are seen. -/
def SeenAlike (f f' : Entries) : Prop :=
  ∀ p : Place, p.2.head? ≠ some 0x2E → (f p = none ↔ f' p = none)

section Alike

variable {dir : Bytes} {f f' : Entries} {t t' : FsTree}

theorem Holds.mem_filesC (h : Holds dir f t) (hself : pathMatch slash dir dir = true)
    (k0 q : Bytes) : q ∈ filesC t (dirB dir k0) ↔
      ∃ name, slash ∉ name ∧ name ≠ [] ∧ name.head? ≠ some 0x2E ∧
        q = dirB dir k0 ++ slash :: name ∧ f ((keyToFilename k0).2, name) ≠ none := by
  rw [filesC, h.shaped.mem_globC hself]
  refine exists_congr fun name => and_congr_right fun hslash => and_congr_right fun hne => ?_
  refine and_congr_right fun _ => and_congr_right fun hq => ?_
  rw [hq, h.files k0 name hslash hne, ne_eq, Option.map_eq_none_iff]

/-- A directory with a file in it is found. -/
theorem Holds.above_filesC (h : Holds dir f t) (hself : pathMatch slash dir dir = true)
    {k0 q : Bytes} (hq : q ∈ filesC t (dirB dir k0)) :
    dirA dir k0 ∈ dirsBelow t dir ∧ dirB dir k0 ∈ dirsBelow t (dirA dir k0) := by
  obtain ⟨name, hslash, -, -, rfl, hfind⟩ := (h.shaped.mem_globC hself k0 q).mp hq
  obtain ⟨hA, hB⟩ := h.shaped.above hslash hfind
  exact ⟨(h.shaped.mem_dirsA hself _).mpr ⟨k0, rfl, hA⟩,
    (h.shaped.mem_globB hself k0 _).mpr ⟨k0, rfl, rfl, hB⟩⟩

theorem filesC_alike (h : Holds dir f t) (h' : Holds dir f' t')
    (hself : pathMatch slash dir dir = true) (hseen : SeenAlike f f') (k0 : Bytes) :
    filesC t (dirB dir k0) = filesC t' (dirB dir k0) := by
  refine (globPaths_sorted slash h.shaped.tidy.nodup _).eq_of_mem_iff
    (globPaths_sorted slash h'.shaped.tidy.nodup _) fun q => ?_
  refine (h.mem_filesC hself k0 q).trans (Iff.trans ?_ (h'.mem_filesC hself k0 q).symm)
  refine exists_congr fun name => and_congr_right fun _ => and_congr_right fun _ => ?_
  exact and_congr_right fun hdot => and_congr_right fun _ => not_congr (hseen _ hdot)

variable (h : Holds dir f t) (h' : Holds dir f' t') (hself : pathMatch slash dir dir = true)
  (hseen : SeenAlike f f')

include h h' hself hseen

/-- What is collected from the directories below one of the first level. -/
theorem flatMap_alikeB (pick : Bytes → List Bytes → List Bytes) (hpick : ∀ q, pick q [] = [])
    (k0 : Bytes) :
    (dirsBelow t (dirA dir k0)).flatMap (fun q => pick q (filesC t q))
      = (dirsBelow t' (dirA dir k0)).flatMap fun q => pick q (filesC t' q) := by
  have hdir : ∀ q, q ∈ dirsBelow t (dirA dir k0) ∨ q ∈ dirsBelow t' (dirA dir k0) →
      ∃ k, (keyToFilename k).2.1 = (keyToFilename k0).2.1 ∧ q = dirB dir k := by
    rintro q (hq | hq)
    · obtain ⟨k, ha, rfl, -⟩ := (h.shaped.mem_globB hself k0 q).mp hq
      exact ⟨k, ha, rfl⟩
    · obtain ⟨k, ha, rfl, -⟩ := (h'.shaped.mem_globB hself k0 q).mp hq
      exact ⟨k, ha, rfl⟩
  refine flatMap_sorted (globPaths_sorted slash h.shaped.tidy.nodup _)
    (globPaths_sorted slash h'.shaped.tidy.nodup _) (fun q hq => ?_) fun q hq hne => ?_
  · obtain ⟨k, -, rfl⟩ := hdir q hq
    rw [filesC_alike h h' hself hseen]
  · obtain ⟨k, ha, rfl⟩ := hdir q hq
    have hfiles : filesC t (dirB dir k) ≠ [] := by
      intro hnil
      rw [hnil] at hne
      exact hne (hpick _)
    obtain ⟨x, hx⟩ := List.exists_mem_of_ne_nil _ hfiles
    have hx' := hx
    rw [filesC_alike h h' hself hseen] at hx'
    have hB := (h.above_filesC hself hx).2
    have hB' := (h'.above_filesC hself hx').2
    rw [eq_dirA ha] at hB hB'
    exact ⟨hB, hB'⟩

theorem filesB_alike (k0 : Bytes) : filesB t (dirA dir k0) = filesB t' (dirA dir k0) :=
  flatMap_alikeB h h' hself hseen (fun _ l => l) (fun _ => rfl) k0

theorem walkB_alike (name : Bytes) (b : Int) (k0 : Bytes) :
    walkB t name b (dirA dir k0) = walkB t' name b (dirA dir k0) := by
  refine flatMap_alikeB h h' hself hseen (fun q l =>
    if b ≤ dirNumber q then if dirNumber q = b then filesBehind name l else l else []) ?_ k0
  intro q
  rw [show filesBehind name [] = [] from rfl, ite_self, ite_self]

/-- What is collected from the directories of the first level. -/
theorem flatMap_alikeA {g g' : Bytes → List Bytes} (hg : ∀ k, g (dirA dir k) = g' (dirA dir k))
    (hfiles : ∀ q, filesB t q = [] → g q = []) :
    (dirsBelow t dir).flatMap g = (dirsBelow t' dir).flatMap g' := by
  have hdir : ∀ q, q ∈ dirsBelow t dir ∨ q ∈ dirsBelow t' dir → ∃ k, q = dirA dir k := by
    rintro q (hq | hq)
    · obtain ⟨k, rfl, -⟩ := (h.shaped.mem_dirsA hself q).mp hq
      exact ⟨k, rfl⟩
    · obtain ⟨k, rfl, -⟩ := (h'.shaped.mem_dirsA hself q).mp hq
      exact ⟨k, rfl⟩
  refine flatMap_sorted (globPaths_sorted slash h.shaped.tidy.nodup _)
    (globPaths_sorted slash h'.shaped.tidy.nodup _) (fun q hq => ?_) fun q hq hne => ?_
  · obtain ⟨k, rfl⟩ := hdir q hq
    exact hg k
  · obtain ⟨k0, rfl⟩ := hdir q hq
    have hsome : filesB t (dirA dir k0) ≠ [] := fun hnil => hne (hfiles _ hnil)
    obtain ⟨x, hx⟩ := List.exists_mem_of_ne_nil _ hsome
    obtain ⟨off, hoff, hx⟩ := List.mem_flatMap.mp hx
    obtain ⟨k, ha, rfl, -⟩ := (h.shaped.mem_globB hself k0 off).mp hoff
    have hx' := hx
    rw [filesC_alike h h' hself hseen] at hx'
    have hA := (h.above_filesC hself hx).1
    have hA' := (h'.above_filesC hself hx').1
    rw [eq_dirA ha] at hA hA'
    exact ⟨hA, hA'⟩

theorem files_alike : files dir t = files dir t' :=
  flatMap_alikeA h h' hself hseen (filesB_alike h h' hself hseen) fun _ hnil => hnil

theorem walkA_alike (name : Bytes) (a b : Int) :
    walkA dir t name a b = walkA dir t' name a b := by
  refine flatMap_alikeA h h' hself hseen (fun k => ?_) fun q hnil => ?_
  · rw [walkB_alike h h' hself hseen, filesB_alike h h' hself hseen]
  · have hwalk : walkB t name b q = [] := by
      have hsub := walkB_sublist t name b q
      rw [hnil] at hsub
      exact List.sublist_nil.mp hsub
    rw [hnil, hwalk, ite_self, ite_self]

end Alike

/-- What a listing goes through. -/
def walked (dir : Bytes) (t : FsTree) (start : Bytes) : List Bytes :=
  if start.length ≠ 0 then
    walkA dir t (keyToFilename start).1 (keyToFilename start).2.1 (keyToFilename start).2.2
  else files dir t

theorem fsGetKeys_walked {dir : Bytes} {t : FsTree} (h : Shaped dir t)
    (hself : pathMatch slash dir dir = true) (hroom : dir.length ≤ 115) (stat : Bytes → Nat)
    (size : Nat) (start : Bytes) : fsGetKeys stat dir t size start
      = (traverseFiles stat (walked dir t start) none { room := (size : Int) }).1.out := by
  rw [fsGetKeys, walked]
  split
  · simp only [h.traverseA_name hself hroom]
  · rw [h.traverseA_none hself hroom]

/-- Entries that are seen alike are listed alike. -/
theorem fsGetKeys_alike {dir : Bytes} (hdir : dir.length < maxDirname) {f f' : Entries}
    {t t' : FsTree} (h : Holds dir f t) (h' : Holds dir f' t')
    (hseen : SeenAlike f f' ∨ ¬ (dir.length ≤ 115 ∧ pathMatch slash dir dir = true))
    (stat : Bytes → Nat) (size : Nat) (start : Bytes) :
    fsGetKeys stat dir t' size start = fsGetKeys stat dir t size start := by
  by_cases hfound : dir.length ≤ 115 ∧ pathMatch slash dir dir = true
  · have hseen := hseen.resolve_right (not_not.mpr hfound)
    rw [fsGetKeys_walked h.shaped hfound.2 hfound.1, fsGetKeys_walked h'.shaped hfound.2 hfound.1,
      walked, walked, walkA_alike h h' hfound.2 hseen, files_alike h h' hfound.2 hseen]
  · rw [h.shaped.fsGetKeys_none hdir hfound, h'.shaped.fsGetKeys_none hdir hfound]

/-! ## What is listed

Without a start every file is listed, under the key that its name is read back as. -/

/-- The key a file is listed as. -/
def keyAt (off : Bytes) : Option Bytes := (keyUnescape maxKeySize (DirTree.baseName slash off)).join

def itemAt (stat : Bytes → Nat) (off : Bytes) : Option (Nat × Bytes) :=
  (keyAt off).map fun k => (stat off, k)

/-- The keys on a page, as the client reads it. -/
def listed (stat : Bytes → Nat) (dir : Bytes) (t : FsTree) (size : Nat) (start : Bytes) :
    List Bytes :=
  ((SimpleClient.getKeysPage (fsGetKeys stat dir t size) start).getD []).map Prod.snd

/-- With room for all of them, all files that have a key are written. -/
theorem traverseFiles_all {stat : Bytes → Nat} : ∀ (offs : List Bytes) (out : Bytes) (room : Nat),
    ((offs.filterMap keyAt).map itemSz).sum ≤ room →
      (traverseFiles stat offs none { out := out, room := (room : Int) }).1.out
        = out ++ (offs.filterMap (itemAt stat)).flatMap fun i => keyItem i.1 i.2 := by
  intro offs
  induction offs with
  | nil => intro out room _; exact (List.append_nil out).symm
  | cons off rest ih =>
      intro out room hsum
      rw [traverseFiles]
      split
      · next key hkey =>
          have hat : keyAt off = some key := by rw [keyAt, hkey, Option.join_some]
          rw [List.filterMap_cons_some hat, List.map_cons, List.sum_cons] at hsum
          have hitem : itemSz key = sizeofKeyItem + key.length := rfl
          have hnot : ¬ (room : Int) < (sizeofKeyItem : Nat) + (key.length : Nat) := by omega
          have hleft : (room : Int) - ((sizeofKeyItem : Nat) + (key.length : Nat))
              = ((room - itemSz key : Nat) : Int) := by omega
          have hcons : itemAt stat off = some (stat off, key) := by
            rw [itemAt, hat, Option.map_some]
          rw [List.filterMap_cons_some hcons, List.flatMap_cons]
          simp only [if_neg hnot, hleft]
          rw [ih _ _ (by omega), List.append_assoc]
      · next hbroken =>
          have hat : keyAt off = none := by
            rw [keyAt]
            cases hkey : keyUnescape maxKeySize (DirTree.baseName slash off) with
            | none => rfl
            | some key =>
                cases key with
                | none => rfl
                | some key => exact absurd hkey (hbroken key)
          have hcons : itemAt stat off = none := by rw [itemAt, hat, Option.map_none]
          rw [List.filterMap_cons_none hat] at hsum
          rw [List.filterMap_cons_none hcons]
          exact ih out room hsum

theorem keyAt_length {off key : Bytes} (h : keyAt off = some key) : key.length < maxKeySize := by
  rw [keyAt, Option.join_eq_some_iff] at h
  exact length_keyUnescape (by decide) h

theorem listed_all {dir : Bytes} {t : FsTree} (h : Shaped dir t)
    (hself : pathMatch slash dir dir = true) (hroom : dir.length ≤ 115) (stat : Bytes → Nat)
    {size : Nat} (hsize : (((files dir t).filterMap keyAt).map itemSz).sum ≤ size) :
    listed stat dir t size [] = (files dir t).filterMap keyAt := by
  have hout := fsGetKeys_walked h hself hroom stat size []
  rw [walked, if_neg (by decide), traverseFiles_all _ _ _ hsize, List.nil_append] at hout
  have hshort : ∀ i ∈ (files dir t).filterMap (itemAt stat), i.2.length < 256 := by
    intro i hi
    obtain ⟨off, -, hmap⟩ := List.mem_filterMap.mp hi
    obtain ⟨key, hkey, rfl⟩ := Option.map_eq_some_iff.mp hmap
    exact keyAt_length hkey
  rw [listed, getKeysPage_items hshort hout, Option.getD_some, List.map_map, List.map_filterMap]
  refine congrArg (fun g => (files dir t).filterMap g) (funext fun off => ?_)
  rw [itemAt]
  cases keyAt off with
  | none => rfl
  | some key => rfl

/-! ### Names

A name that was cut is still the beginning of an escaped key, and can be read back, if
not to the key it was made of. -/

/-- A cut in front of a `%`, or in front of any, is not inside an escape. -/
theorem escaped_take {key : Bytes} : ∀ {n : Nat},
    (escaped key)[n]? = some percent ∨ percent ∉ (escaped key).take n →
      ∃ front, (escaped key).take n = escaped front := by
  induction key with
  | nil => intro n _; exact ⟨[], by simp [escaped]⟩
  | cons c rest ih =>
      intro n h
      cases n with
      | zero => exact ⟨[], rfl⟩
      | succ n =>
          have hcons : escaped (c :: rest) = keyEscapeByte c ++ escaped rest := List.flatMap_cons
          rw [hcons] at h ⊢
          by_cases hplain : plainChars.contains c
          · have hbyte : keyEscapeByte c = [c] := if_pos hplain
            rw [hbyte, List.singleton_append] at h ⊢
            rw [List.getElem?_cons_succ, List.take_succ_cons, List.mem_cons, not_or] at h
            obtain ⟨front, hfront⟩ := ih (h.imp id And.right)
            refine ⟨c :: front, ?_⟩
            rw [List.take_succ_cons, hfront, escaped, escaped, List.flatMap_cons, hbyte,
              List.singleton_append]
          · have hbyte : keyEscapeByte c = [percent, toHexTrans (c.toNat / 16 % 16),
                toHexTrans (c.toNat % 16)] := if_neg hplain
            have hhex : ∀ n < 16, toHexTrans n ≠ percent := by decide +kernel
            have hhigh := hhex (c.toNat / 16 % 16) (Nat.mod_lt _ (by decide))
            have hlow := hhex (c.toNat % 16) (Nat.mod_lt _ (by decide))
            rw [hbyte] at h ⊢
            simp only [List.cons_append, List.nil_append] at h ⊢
            rw [List.take_succ_cons, List.getElem?_cons_succ] at h
            rcases h with h | h
            · rcases n with - | - | n
              · exact absurd (Option.some.inj h) hhigh
              · exact absurd (Option.some.inj h) hlow
              · obtain ⟨front, hfront⟩ := ih (.inl h)
                refine ⟨c :: front, ?_⟩
                rw [List.take_succ_cons, List.take_succ_cons, List.take_succ_cons, hfront,
                  escaped, escaped, List.flatMap_cons, hbyte]
                rfl
            · exact absurd List.mem_cons_self h

/-- What is left of a name is the name of the front of the key. -/
theorem shortName_escaped (key : Bytes) : ∃ front, shortName (escaped key) = escaped front := by
  rw [shortName]
  split
  · exact ⟨key, rfl⟩
  · split
    · next c hc =>
        have hat : (escaped key)[c]? = some percent := by
          have hpercent : percent ∈ (escaped key).take (maxSystemFilename + 1) := by
            by_contra hnot
            rw [strrchr_none hnot] at hc
            cases hc
          obtain ⟨front, back, hsplit, hback⟩ := split_last hpercent
          rw [hsplit, strrchr_append hback, Option.some.injEq] at hc
          subst hc
          have hlen := congrArg List.length hsplit
          rw [List.length_take, List.length_append, List.length_cons] at hlen
          have hget : ((escaped key).take (maxSystemFilename + 1))[front.length]?
              = some percent := by
            rw [hsplit, List.getElem?_append_right (Nat.le_refl _), Nat.sub_self,
              List.getElem?_cons_zero]
          rw [List.getElem?_take_of_lt (by omega)] at hget
          exact hget
        exact escaped_take (.inl hat)
    · next hnone =>
        refine escaped_take (.inr fun hmem => ?_)
        have hmem' : percent ∈ (escaped key).take (maxSystemFilename + 1) :=
          (List.take_subset_take_left _ (Nat.le_succ _)) hmem
        obtain ⟨front, back, hsplit, hback⟩ := split_last hmem'
        rw [hsplit, strrchr_append hback] at hnone
        cases hnone

/-- A name is listed as the front of the key, and a new file as that with `.new`. -/
theorem keyAt_names {dir k front : Bytes} {key : Bytes} (hsz : key.length ≤ maxKeySize)
    (hfront : fileName key = escaped front) :
    keyAt (dirB dir k ++ slash :: fileName key) = some front ∧
      keyAt (dirB dir k ++ slash :: (fileName key ++ ascii ".new"))
        = some (front ++ ascii ".new") := by
  have hlen : front.length ≤ maxSystemFilename := by
    have hname := length_shortName (keyToFilename key).1
    rw [← fileName, hfront] at hname
    exact Nat.le_trans (length_le_escaped front) hname
  rw [maxSystemFilename] at hlen
  have hroom : front.length < maxKeySize := by
    rw [maxKeySize_eq]
    omega
  constructor
  · rw [keyAt, DirTree.baseName_append slash _ (slash_not_mem_fileName hsz), hfront, escaped,
      keyUnescape_escaped hroom, Option.join_some]
  · have hloop := keyUnescapeLoop_escaped (ascii ".new") front []
      (show ([] : Bytes).length + front.length < maxKeySize by simpa using hroom)
    rw [List.nil_append] at hloop
    rw [keyAt, DirTree.baseName_append slash _ (newName_ok hsz).2, hfront, keyUnescape, escaped,
      hloop]
    have hnew : ∀ (s : Bytes), (∀ c ∈ s, c ≠ 0x25) → ∀ front : Bytes,
        front.length + s.length < maxKeySize →
          keyUnescapeLoop maxKeySize s front = some (some (front ++ s)) := by
      intro s
      induction s with
      | nil => intro _ front _; rw [keyUnescapeLoop, List.append_nil]
      | cons c rest ih =>
          intro hs front hlt
          have hc := hs c List.mem_cons_self
          rw [List.length_cons] at hlt
          rw [keyUnescapeLoop.eq_3 _ _ _ _ fun _ _ _ h => absurd h hc, if_neg hc,
            if_neg (by omega), ih (fun d hd => hs d (List.mem_cons_of_mem _ hd)) _
              (by rw [List.length_append, List.length_singleton]; omega),
            List.append_assoc, List.singleton_append]
    have hfits : front.length + (ascii ".new").length < maxKeySize := by
      rw [maxKeySize_eq, show (ascii ".new").length = 4 from rfl]
      omega
    rw [hnew _ (by decide) _ hfits, Option.join_some]

theorem mem_files_iff {dir : Bytes} {f : Entries} {t : FsTree} (h : Holds dir f t)
    (hself : pathMatch slash dir dir = true) (q : Bytes) : q ∈ files dir t ↔
      ∃ k name, slash ∉ name ∧ name ≠ [] ∧ name.head? ≠ some 0x2E ∧
        q = dirB dir k ++ slash :: name ∧ f ((keyToFilename k).2, name) ≠ none := by
  simp only [files, filesB, List.mem_flatMap]
  constructor
  · rintro ⟨offA, hA, offB, hB, hq⟩
    obtain ⟨k0, rfl, -⟩ := (h.shaped.mem_dirsA hself offA).mp hA
    obtain ⟨k, -, rfl, -⟩ := (h.shaped.mem_globB hself k0 offB).mp hB
    exact ⟨k, (h.mem_filesC hself k q).mp hq⟩
  · rintro ⟨k, hname⟩
    have hq := (h.mem_filesC hself k q).mpr hname
    obtain ⟨hA, hB⟩ := h.above_filesC hself hq
    exact ⟨_, hA, _, hB, hq⟩

/-! ## What a failed set does

The tree after a set that was stopped is put beside the tree without the call. Where the
new file is left the two differ in that entry alone. -/

/-- Every key has the value it has in the other tree, and the same keys are listed. -/
structure SameView (dir : Bytes) (t t' : FsTree) : Prop where
  gets : ∀ size key, key.length ≤ maxKeySize → fsGet dir t' size key = fsGet dir t size key
  lists : ∀ stat size start key,
    key ∈ listed stat dir t' size start ↔ key ∈ listed stat dir t size start

/-- Calls that are not stopped, from any tree. -/
def runFrom (dir : Bytes) (t : FsTree) (ops : List FsOp) : FsTree :=
  ops.foldl (fun t op => (fsStep dir t op).1) t

/-- Later calls for other keys. -/
def OtherKeys (key : Bytes) (ops : List FsOp) : Prop :=
  ∀ op ∈ ops, op.key.length ≤ maxKeySize ∧ op.key ≠ key

/-- Nobody sees that `t'` came after `t`, then or later. -/
def NoEffect (dir key : Bytes) (t t' : FsTree) : Prop :=
  ∀ ops, OtherKeys key ops → SameView dir (runFrom dir t ops) (runFrom dir t' ops)

/-- The same calls, on the entries. -/
def entriesRun (f : Entries) (ops : List FsOp) : Entries := ops.foldl entriesStep f

theorem Holds.run {dir : Bytes} (hdir : dir.length < maxDirname) : ∀ (ops : List FsOp)
    {f : Entries} {t : FsTree}, Holds dir f t → (∀ op ∈ ops, op.key.length ≤ maxKeySize) →
      Holds dir (entriesRun f ops) (runFrom dir t ops) := by
  intro ops
  induction ops with
  | nil => intro f t h _; exact h
  | cons op rest ih =>
      intro f t h hops
      exact ih (h.step hdir (hops op List.mem_cons_self))
        fun op' hop' => hops op' (List.mem_cons_of_mem _ hop')

/-- A call writes the same to the same places, whatever else there is. -/
theorem entriesRun_rel {R : Option Bytes → Option Bytes → Prop} (hrefl : ∀ v, R v v) (p : Place) :
    ∀ (ops : List FsOp) {f f' : Entries}, R (f p) (f' p) →
      R (entriesRun f ops p) (entriesRun f' ops p) := by
  have hupdate : ∀ {f f' : Entries}, R (f p) (f' p) → ∀ (q : Place) (v : Option Bytes),
      R (Function.update f q v p) (Function.update f' q v p) := by
    intro f f' h q v
    rw [Function.update_apply, Function.update_apply]
    split
    · exact hrefl v
    · exact h
  intro ops
  induction ops with
  | nil => intro f f' h; exact h
  | cons op rest ih =>
      intro f f' h
      refine ih ?_
      cases op with
      | get size key => exact h
      | set value key =>
          simp only [entriesStep]
          split
          · exact hupdate h _ _
          · exact hupdate (hupdate h _ _) _ _
      | del key => exact hupdate h _ _

section Effect

variable {dir : Bytes} (hdir : dir.length < maxDirname) {key : Bytes} {f f' : Entries}
  {t t' : FsTree} (h : Holds dir f t) (h' : Holds dir f' t')

include hdir h h'

/-- The new file of a key is not seen where a listing does not come to it. -/
theorem noEffect_of (hrest : ∀ p, p ≠ tempOf key → f p = f' p)
    (hseen : SeenAlike f f' ∨ ¬ (dir.length ≤ 115 ∧ pathMatch slash dir dir = true)) :
    NoEffect dir key t t' := by
  intro ops hops
  have hsz : ∀ op ∈ ops, op.key.length ≤ maxKeySize := fun op hop => (hops op hop).1
  have h1 := h.run hdir ops hsz
  have h1' := h'.run hdir ops hsz
  have hseen1 := hseen.imp_left fun hseen p hdot =>
    entriesRun_rel (R := fun v v' => v = none ↔ v' = none) (fun _ => Iff.rfl) p ops (hseen p hdot)
  refine ⟨fun size k hk => ?_, fun stat size start k => ?_⟩
  · rw [h1.get hdir hk, h1'.get hdir hk,
      entriesRun_rel (fun _ => rfl) _ ops (hrest _ (fileOf_ne_tempOf hk key))]
  · rw [listed, listed, SimpleClient.getKeysPage, SimpleClient.getKeysPage,
      fsGetKeys_alike hdir h1 h1' hseen1]

end Effect

/-- Calls that leave nothing of some keys. -/
def clearing (ks : List Bytes) : List FsOp := ks.flatMap fun k => [.set [] k, .del k]

theorem clearing_spec (p : Place) : ∀ (ks : List Bytes) (f : Entries),
    (∀ k ∈ ks, fileName k ≠ []) →
      ((∃ k ∈ ks, p = fileOf k ∨ p = tempOf k) → entriesRun f (clearing ks) p = none) ∧
        ((∀ k ∈ ks, p ≠ fileOf k ∧ p ≠ tempOf k) → entriesRun f (clearing ks) p = f p) := by
  intro ks
  induction ks with
  | nil => intro f _; exact ⟨by simp, fun _ => rfl⟩
  | cons k rest ih =>
      intro f hne
      have hk := hne k List.mem_cons_self
      obtain ⟨hnone, hsame⟩ := ih (entriesStep (entriesStep f (.set [] k)) (.del k))
        fun k' hk' => hne k' (List.mem_cons_of_mem _ hk')
      have hstep : entriesStep (entriesStep f (.set [] k)) (.del k) p
          = if p = fileOf k ∨ p = tempOf k then none else f p := by
        simp only [entriesStep, if_neg hk, Function.update_apply]
        by_cases hfile : p = fileOf k
        · simp only [hfile, true_or, if_true]
        · simp only [hfile, false_or, if_false]
      refine ⟨fun hat => ?_, fun hp => ?_⟩
      · obtain ⟨k', hk', hp⟩ := hat
        by_cases hin : ∃ k ∈ rest, p = fileOf k ∨ p = tempOf k
        · exact hnone hin
        · have hat : p = fileOf k ∨ p = tempOf k := by
            rcases List.mem_cons.mp hk' with rfl | hk'
            · exact hp
            · exact absurd ⟨k', hk', hp⟩ hin
          have hout : ∀ k ∈ rest, p ≠ fileOf k ∧ p ≠ tempOf k := fun k hk =>
            ⟨fun hfile => hin ⟨k, hk, .inl hfile⟩, fun htemp => hin ⟨k, hk, .inr htemp⟩⟩
          exact (hsame hout).trans (hstep.trans (if_pos hat))
      · have hat := hp k List.mem_cons_self
        exact (hsame fun k' hk' => hp k' (List.mem_cons_of_mem _ hk')).trans
          (hstep.trans (if_neg (not_or.mpr hat)))

/-- A new file that is left behind is listed, once nothing else is listed like it. -/
theorem effect_of {dir : Bytes} (hdir : dir.length < maxDirname) {key : Bytes} {f f' : Entries}
    {t t' : FsTree} (h : Holds dir f t) (h' : Holds dir f' t')
    (hfound : dir.length ≤ 115 ∧ pathMatch slash dir dir = true) (hsz : key.length ≤ maxKeySize)
    (hname : fileName key ≠ []) (hnew : f (tempOf key) = none) (hnew' : f' (tempOf key) ≠ none) :
    ¬ NoEffect dir key t t' := by
  obtain ⟨hroom, hself⟩ := hfound
  obtain ⟨front, hfront⟩ : ∃ front, fileName key = escaped front := by
    rw [fileName, keyToFilename_eq hsz]
    exact shortName_escaped key
  obtain ⟨ks, hks⟩ := h.owned
  let others := ks.filter fun k =>
    decide (k.length ≤ maxKeySize ∧ fileName k ≠ [] ∧ fileOf k ≠ fileOf key)
  have hothers : ∀ k, k ∈ others ↔
      k ∈ ks ∧ k.length ≤ maxKeySize ∧ fileName k ≠ [] ∧ fileOf k ≠ fileOf key := by
    intro k
    rw [List.mem_filter, decide_eq_true_eq]
  have hclear := fun (f : Entries) p => clearing_spec p others f
    fun k hk => ((hothers k).mp hk).2.2.1
  have hops : OtherKeys key (clearing others) := by
    intro op hop
    obtain ⟨k, hk, hop⟩ := List.mem_flatMap.mp hop
    obtain ⟨-, hlen, -, hne⟩ := (hothers k).mp hk
    have hkey : op.key = k := by
      simp only [List.mem_cons, List.not_mem_nil, or_false] at hop
      rcases hop with rfl | rfl
      · rfl
      · rfl
    rw [hkey]
    exact ⟨hlen, fun heq => hne (by rw [heq])⟩
  have h1 := h.run hdir _ fun op hop => (hops op hop).1
  have h1' := h'.run hdir _ fun op hop => (hops op hop).1
  have hstays : ∀ f : Entries, entriesRun f (clearing others) (tempOf key) = f (tempOf key) := by
    intro f
    refine (hclear f _).2 fun k hk => ?_
    exact ⟨(fileOf_ne_tempOf ((hothers k).mp hk).2.1 key).symm,
      fun heq => ((hothers k).mp hk).2.2.2 (tempOf_inj heq).symm⟩
  intro hno
  let size := (((files dir (runFrom dir t (clearing others))).filterMap keyAt).map itemSz).sum +
    (((files dir (runFrom dir t' (clearing others))).filterMap keyAt).map itemSz).sum
  have hlists := (hno _ hops).lists (fun _ => 0) size [] (front ++ ascii ".new")
  rw [listed_all h1.shaped hself hroom _ (Nat.le_add_right _ _),
    listed_all h1'.shaped hself hroom _ (Nat.le_add_left _ _), List.mem_filterMap,
    List.mem_filterMap] at hlists
  have hdot : (fileName key ++ ascii ".new").head? ≠ some 0x2E := by
    obtain ⟨c, rest, hcons⟩ := List.exists_cons_of_ne_nil hname
    rw [hcons, List.cons_append, List.head?_cons]
    intro hc
    have hmem : c ∈ fileName key := hcons ▸ List.mem_cons_self
    exact (fileName_chars hsz hmem).2.1 (Option.some.inj hc)
  obtain ⟨q, hq, hkey⟩ := hlists.mp ⟨_, (mem_files_iff h1' hself _).mpr
    ⟨key, _, (newName_ok hsz).2, (newName_ok hsz).1, hdot, rfl, by
      rw [← tempOf, hstays]
      exact hnew'⟩, (keyAt_names hsz hfront).2⟩
  obtain ⟨k, name, -, -, hseen, rfl, hentry⟩ := (mem_files_iff h1 hself _).mp hq
  have hout : ∀ k' ∈ others, (((keyToFilename k).2, name) : Place) ≠ fileOf k' ∧
      (((keyToFilename k).2, name) : Place) ≠ tempOf k' := by
    intro k' hk'
    by_contra hin
    rw [not_and_or, not_not, not_not] at hin
    exact hentry ((hclear f _).1 ⟨k', hk', hin⟩)
  rw [(hclear f _).2 hout] at hentry
  obtain ⟨k', hk', hlen, hplace⟩ := hks _ hentry
  have hne : fileName k' ≠ [] := by
    rcases hplace with ⟨-, hne⟩ | htemp
    · exact hne
    · intro hnil
      have hhidden : name = fileName k' ++ ascii ".new" := congrArg Prod.snd htemp
      rw [hhidden, hnil] at hseen
      exact hseen rfl
  have hsame : fileOf k' = fileOf key := by
    by_contra hdiff
    have hbad := hout k' ((hothers k').mpr ⟨hk', hlen, hne, hdiff⟩)
    exact hplace.elim (fun hfile => hbad.1 hfile.1) hbad.2
  rcases hplace with ⟨hfile, -⟩ | htemp
  · rw [hsame] at hfile
    have hnames : name = fileName key := congrArg Prod.snd hfile
    rw [hnames, (keyAt_names hsz hfront).1, Option.some.injEq] at hkey
    have hlen := congrArg List.length hkey
    rw [List.length_append, show (ascii ".new").length = 4 from rfl] at hlen
    omega
  · have hboth : tempOf k' = tempOf key := by
      obtain ⟨hhash, hnames⟩ := Prod.mk.inj hsame
      rw [tempOf, tempOf, hhash, hnames]
    rw [htemp, hboth] at hentry
    exact hentry hnew

theorem Holds.temp_iff {dir : Bytes} (hdir : dir.length < maxDirname) {f : Entries} {t : FsTree}
    (h : Holds dir f t) {key : Bytes} (hsz : key.length ≤ maxKeySize) :
    t.find (pathNew dir key) = none ↔ f (tempOf key) = none := by
  rw [pathNew_short hdir, h.files key _ (newName_ok hsz).2 (newName_ok hsz).1,
    Option.map_eq_none_iff, tempOf]

section Failed

variable {dir : Bytes} (hdir : dir.length < maxDirname) {f : Entries} {t : FsTree}
  (h : Holds dir f t) {key : Bytes} (hsz : key.length ≤ maxKeySize) {fault : Option Fault}
  {value : Bytes} (hfails : (fsSetAt fault dir t value key).2 = -1)

include hdir h hsz hfails

/-- Stopped once its new file is open, a set leaves the file. -/
theorem effect_of_late (hlate : ¬ Fault.AtOpen fault) (hname : fileName key ≠ [])
    (hnew : t.find (pathNew dir key) = none)
    (hfound : dir.length ≤ 115 ∧ pathMatch slash dir dir = true) :
    ¬ NoEffect dir key t (fsSetAt fault dir t value key).1 := by
  rcases h.set hdir hsz fault value with ⟨-, -, hopen⟩ | ⟨-, -, h'⟩ | ⟨hdone, -, -⟩
  · exact absurd hopen hlate
  · refine effect_of hdir h h' hfound hsz hname ((h.temp_iff hdir hsz).mp hnew) ?_
    rw [Function.update_self]
    exact nofun
  · omega

/-- Nothing is seen of one that is stopped before, or of a file that is hidden, that was
there before or that nothing finds. -/
theorem noEffect_of_failed (hcond : Fault.AtOpen fault ∨ fileName key = [] ∨
      t.find (pathNew dir key) ≠ none ∨ ¬ (dir.length ≤ 115 ∧ pathMatch slash dir dir = true)) :
    NoEffect dir key t (fsSetAt fault dir t value key).1 := by
  rcases h.set hdir hsz fault value with ⟨-, h', -⟩ | ⟨-, hend, h'⟩ | ⟨hdone, -, -⟩
  · exact noEffect_of hdir h h' (fun _ _ => rfl) (.inl fun _ _ => Iff.rfl)
  · have hrest : ∀ p, p ≠ tempOf key → f p = Function.update f (tempOf key)
        (some (value.take (writeLoop value.length (Fault.rets fault) 0).1)) p :=
      fun p hp => (Function.update_of_ne hp _ _).symm
    refine noEffect_of hdir h h' hrest ?_
    by_cases hnil : fileName key = []
    · refine .inl fun p hdot => iff_of_eq (congrArg (· = none) (hrest p fun htemp => ?_))
      rw [htemp, tempOf, hnil] at hdot
      exact hdot rfl
    · rcases hcond with hopen | hbad | hnew | hnot
      · exact absurd hopen (hend.resolve_left hnil).2
      · exact absurd hbad hnil
      · refine .inl fun p _ => ?_
        by_cases hp : p = tempOf key
        · rw [hp, Function.update_self]
          exact iff_of_false (fun hnone => hnew ((h.temp_iff hdir hsz).mpr hnone)) (by simp)
        · exact iff_of_eq (congrArg (· = none) (hrest p hp))
      · exact .inr hnot
  · omega

end Failed

/-- A set that fails has no effect that is ever seen exactly when it fails before its new
file is open, or the file is hidden, was left there before, or is not found. -/
theorem noEffect_iff {dir : Bytes} (hdir : dir.length < maxDirname) {calls : List FsCall}
    (hcalls : ∀ c ∈ calls, c.key.length ≤ maxKeySize) {fault : Option Fault} {value key : Bytes}
    (hsz : key.length ≤ maxKeySize)
    (hfails : (fsSetAt fault dir (callsTree dir calls) value key).2 = -1) :
    NoEffect dir key (callsTree dir calls) (fsSetAt fault dir (callsTree dir calls) value key).1 ↔
      Fault.AtOpen fault ∨ fileName key = [] ∨
        (callsTree dir calls).find (pathNew dir key) ≠ none ∨
        ¬ (dir.length ≤ 115 ∧ pathMatch slash dir dir = true) := by
  obtain ⟨f, h⟩ := holds_calls hdir hcalls
  refine ⟨fun hno => ?_, noEffect_of_failed hdir h hsz hfails⟩
  by_contra hcond
  simp only [not_or, not_not] at hcond
  obtain ⟨hlate, hname, hnew, hfound⟩ := hcond
  exact effect_of_late hdir h hsz hfails hlate hname hnew hfound hno

theorem noEffect_iff_open : NoEffect (ascii "/data") (ascii "a")
    (callsTree (ascii "/data") [.call (.set (ascii "1") (ascii "a"))])
    (fsSetAt (some .openFirst) (ascii "/data")
      (callsTree (ascii "/data") [.call (.set (ascii "1") (ascii "a"))]) (ascii "2")
      (ascii "a")).1 := by
  refine (noEffect_iff (by decide) ?_ (by decide) (by decide +kernel)).mpr (.inl trivial)
  intro c hc
  rw [List.mem_singleton.mp hc]
  exact (by decide : (ascii "a").length ≤ maxKeySize)

/-- The disk is full when the value is written, and there is a key `a.new`. -/
theorem noEffect_diskFull : (fsSetAt (some (.write [-1])) (ascii "/data")
      (callsTree (ascii "/data") []) (ascii "1") (ascii "a")).2 = -1 ∧
    ¬ NoEffect (ascii "/data") (ascii "a") (callsTree (ascii "/data") [])
      (fsSetAt (some (.write [-1])) (ascii "/data") (callsTree (ascii "/data") []) (ascii "1")
        (ascii "a")).1 := by
  have hfails : (fsSetAt (some (.write [-1])) (ascii "/data")
      (callsTree (ascii "/data") []) (ascii "1") (ascii "a")).2 = -1 := by decide +kernel
  have hnew : (callsTree (ascii "/data") []).find (pathNew (ascii "/data") (ascii "a")) = none := by
    decide +kernel
  exact ⟨hfails, effect_of_late (by decide) (holds_bareTree _) (by decide) hfails id (by decide)
    hnew ⟨by decide, by decide⟩⟩

end Smalltable.Proofs
