import Mathlib.Data.List.TakeWhile
import Smalltable.Proofs.FsStore
import Smalltable.Proofs.Tokens
import Smalltable.Ref.FsKeys
import Smalltable.Ref.SimpleClient

/-!
# Listing the keys of the file-system engine

The walk over the directories visits the files in one order, whatever it is asked
to start behind, so a page is what fits of the files behind the one given: all of
them for no key, and for a key those behind its file. Then the pages make up the
list of all the files.

The patterns the walk gives to `glob` are made of the name of the directory, as if
it stood for itself, and have a fixed room. Nothing is found below a directory that
does not match its own name, or that is longer than 115 bytes.

The times of the files are part of the items and come from `stat`. They are a parameter,
so nothing depends on them.
-/

namespace Smalltable.Proofs

open Smalltable.Ref

/-! ## The walk as one list of files

`glob` answers in the order of `strcmp`, and so the walk visits the files in an order
that does not depend on the call. A start cuts off the front of this list. -/

section Walk

variable {stat : Bytes → Nat}

theorem traverseFiles_append : ∀ (l r : List Bytes) (buf : KeyBuf),
    traverseFiles stat (l ++ r) none buf =
      match traverseFiles stat l none buf with
      | (buf, false) => (buf, false)
      | (buf, true) => traverseFiles stat r none buf := by
  intro l
  induction l with
  | nil => intro r buf; rfl
  | cons off rest ih =>
      intro r buf
      rw [List.cons_append, traverseFiles, traverseFiles]
      split
      · split
        · rfl
        · exact ih r _
      · exact ih r buf

/-- What comes behind the first file with the name. -/
def filesBehind (name : Bytes) (offs : List Bytes) : List Bytes :=
  (offs.dropWhile fun q => DirTree.baseName slash q ≠ name).drop 1

/-- The files up to the one with the name are passed over, and all of them when
there is none. -/
theorem traverseFiles_behind (name : Bytes) : ∀ (offs : List Bytes) (buf : KeyBuf),
    traverseFiles stat offs (some name) buf
      = traverseFiles stat (filesBehind name offs) none buf := by
  intro offs
  induction offs with
  | nil => intro buf; rfl
  | cons q rest ih =>
      intro buf
      rw [traverseFiles, filesBehind]
      by_cases hq : DirTree.baseName slash q = name
      · rw [if_pos hq, List.dropWhile_cons_of_neg (by simpa using hq)]
        rfl
      · rw [if_neg hq, List.dropWhile_cons_of_pos (by simpa using hq), ih buf, filesBehind]

theorem filesBehind_eq_after {off : Bytes} {offs : List Bytes}
    (honly : ∀ q ∈ offs, DirTree.baseName slash q = DirTree.baseName slash off → q = off) :
    filesBehind (DirTree.baseName slash off) offs = after off offs := by
  induction offs with
  | nil => rfl
  | cons q rest ih =>
      have hrest := ih fun q' hq' => honly q' (List.mem_cons_of_mem _ hq')
      rw [filesBehind] at hrest ⊢
      by_cases hq : q = off
      · subst hq
        rw [List.dropWhile_cons_of_neg (by simp), after_cons_self]
        rfl
      · have hname : DirTree.baseName slash q ≠ DirTree.baseName slash off :=
          fun h => hq (honly q List.mem_cons_self h)
        rw [List.dropWhile_cons_of_pos (by simpa using hname), after_cons_of_ne hq]
        exact hrest

/-- Directories one after the other are their files one after the other. -/
theorem traverseDirs_eq {t : FsTree} {num : Int} {same other : Bytes → KeyBuf → KeyBuf × Bool}
    (fsame fother : Bytes → List Bytes) : ∀ (offs : List Bytes) (buf : KeyBuf),
    (∀ off ∈ offs, t.find off = some .dir) →
    (∀ off ∈ offs, dirNumber off = num →
      ∀ buf, same off buf = traverseFiles stat (fsame off) none buf) →
    (∀ off ∈ offs, ∀ buf, other off buf = traverseFiles stat (fother off) none buf) →
      traverseDirs t num same other offs buf
        = traverseFiles stat (offs.flatMap fun off =>
            if num ≤ dirNumber off then
              if dirNumber off = num then fsame off else fother off
            else []) none buf := by
  intro offs
  induction offs with
  | nil => intro buf _ _ _; rw [traverseDirs, List.flatMap_nil, traverseFiles]
  | cons off rest ih =>
      intro buf hdir hsame hother
      have hrest := fun buf => ih buf (fun q hq => hdir q (List.mem_cons_of_mem _ hq))
        (fun q hq => hsame q (List.mem_cons_of_mem _ hq))
        (fun q hq => hother q (List.mem_cons_of_mem _ hq))
      have hfind := hdir off List.mem_cons_self
      have hthere : ¬ t.find off ≠ some .dir := not_not.mpr hfind
      rw [traverseDirs, if_neg hthere, List.flatMap_cons, traverseFiles_append]
      by_cases hge : num ≤ dirNumber off
      · rw [if_pos hge, if_pos hge]
        by_cases heq : dirNumber off = num
        · rw [if_pos heq, if_pos heq, hsame off List.mem_cons_self heq]
          rcases traverseFiles stat (fsame off) none buf with ⟨buf', _ | _⟩
          · rfl
          · exact hrest buf'
        · rw [if_neg heq, if_neg heq, hother off List.mem_cons_self]
          rcases traverseFiles stat (fother off) none buf with ⟨buf', _ | _⟩
          · rfl
          · exact hrest buf'
      · rw [if_neg hge, if_neg hge]
        exact hrest buf

end Walk

/-! ## Pages as they are written and read

An item is written when it fits, and with the first that does not the page ends. The
client reads items until there are no bytes left. -/

/-- The room an item takes. -/
def itemSz (key : Bytes) : Nat := sizeofKeyItem + key.length

theorem traverseFiles_fitting {stat : Bytes → Nat} {f : Bytes → Bytes} : ∀ (ks : List Bytes)
    (out : Bytes) (room : Nat),
    (∀ k ∈ ks, keyUnescape maxKeySize (DirTree.baseName slash (f k)) = some (some k)) →
      (traverseFiles stat (ks.map f) none { out := out, room := room }).1.out
        = out ++ (fitting itemSz room ks).flatMap fun k => keyItem (stat (f k)) k := by
  intro ks
  induction ks with
  | nil => intro out room _; exact (List.append_nil out).symm
  | cons k rest ih =>
      intro out room hname
      rw [List.map_cons, traverseFiles, hname k List.mem_cons_self]
      simp only [fitting]
      by_cases hroom : itemSz k ≤ room
      · have hnot : ¬ (room : Int) < (sizeofKeyItem : Nat) + (k.length : Nat) := by
          rw [itemSz] at hroom
          omega
        have hleft : (room : Int) - ((sizeofKeyItem : Nat) + (k.length : Nat))
            = ((room - itemSz k : Nat) : Int) := by
          rw [itemSz] at hroom ⊢
          omega
        rw [if_neg hnot, if_pos hroom, hleft,
          ih _ _ fun k' hk' => hname k' (List.mem_cons_of_mem _ hk'), List.flatMap_cons,
          List.append_assoc]
      · have hfull : (room : Int) < (sizeofKeyItem : Nat) + (k.length : Nat) := by
          rw [itemSz] at hroom
          omega
        rw [if_pos hfull, if_neg hroom, List.flatMap_nil, List.append_nil]

theorem length_keyItem (iCas : Nat) (key : Bytes) : (keyItem iCas key).length = itemSz key := by
  simp only [keyItem, itemSz, sizeofKeyItem, List.length_append, length_leBytes,
    List.length_singleton]

/-- Items of keys whose length fits its byte are read back. -/
theorem parseKeys_items : ∀ (items : List (Nat × Bytes)) (n : Nat),
    (∀ i ∈ items, i.2.length < 256) → items.length ≤ n →
      SimpleClient.parseKeys n (items.flatMap fun i => keyItem i.1 i.2)
        = some (items.map fun i => (i.1 % 256 ^ 8, i.2)) := by
  intro items
  induction items with
  | nil =>
      intro n _ _
      cases n <;> rfl
  | cons i rest ih =>
      intro n hsz hn
      obtain ⟨iCas, key⟩ := i
      cases n with
      | zero => exact absurd hn (Nat.not_succ_le_zero _)
      | succ n =>
          have hkey : key.length < 256 := hsz _ List.mem_cons_self
          have hrest := ih n (fun i hi => hsz i (List.mem_cons_of_mem _ hi))
            (Nat.le_of_succ_le_succ hn)
          have hlen8 : (leBytes 8 iCas).length = 8 := length_leBytes 8 iCas
          have hshape : (((iCas, key) :: rest).flatMap fun i => keyItem i.1 i.2)
              = leBytes 8 iCas ++ (key.length.toUInt8 :: (key ++ rest.flatMap fun i =>
                  keyItem i.1 i.2)) := by
            rw [List.flatMap_cons, keyItem]
            simp only [List.append_assoc, List.cons_append, List.nil_append]
          have hbyte : ((((iCas, key) :: rest).flatMap fun i => keyItem i.1 i.2).getD 8 0).toNat
              = key.length := by
            rw [hshape, List.getD_eq_getElem?_getD, List.getElem?_append_right (by omega), hlen8]
            simp only [Nat.sub_self, List.getElem?_cons_zero, Option.getD_some, UInt8.toNat_ofNat']
            exact Nat.mod_eq_of_lt hkey
          have htotal : 9 + key.length
              ≤ (((iCas, key) :: rest).flatMap fun i => keyItem i.1 i.2).length := by
            rw [hshape]
            simp only [List.length_append, List.length_cons, hlen8]
            omega
          have hdrop : (((iCas, key) :: rest).flatMap fun i => keyItem i.1 i.2).drop
              (9 + key.length)
              = rest.flatMap fun i => keyItem i.1 i.2 := by
            rw [List.flatMap_cons, List.drop_left' (by rw [length_keyItem, itemSz, sizeofKeyItem])]
          have hslice : SimpleClient.pySlice
              (((iCas, key) :: rest).flatMap fun i => keyItem i.1 i.2) 9 (9 + key.length)
                  = key := by
            have hcas : ∀ tail : Bytes, (leBytes 8 iCas ++ key.length.toUInt8 :: tail).drop 9
                = tail := by
              intro tail
              rw [List.drop_append, List.drop_of_length_le (by omega), hlen8]
              rfl
            rw [SimpleClient.pySlice, List.drop_take, Nat.add_sub_cancel_left, hshape, hcas,
              List.take_left]
          have hval : leVal ((((iCas, key) :: rest).flatMap fun i => keyItem i.1 i.2).take 8)
              = iCas % 256 ^ 8 := by
            rw [hshape, List.take_left' hlen8, leVal_leBytes]
          rw [SimpleClient.parseKeys, if_neg (by omega), if_neg (by omega)]
          simp only [hbyte, hdrop, hrest, hslice, hval, Option.map_some, List.map_cons]

/-- Whatever the walk writes are items of keys shorter than the buffer for one. -/
def Written (out : Bytes) : Prop :=
  ∃ items : List (Nat × Bytes), (∀ i ∈ items, i.2.length < maxKeySize) ∧
    out = items.flatMap fun i => keyItem i.1 i.2

theorem written_nil : Written [] := ⟨[], nofun, rfl⟩

theorem length_keyUnescapeLoop {keySz : Nat} (s front : Bytes) {key : Bytes}
    (h : keyUnescapeLoop keySz s front = some (some key)) (hfront : front.length < keySz) :
    key.length < keySz := by
  fun_induction keyUnescapeLoop keySz s front with
  | case1 front =>
      cases h
      exact hfront
  | case2 => cases h
  | case3 => cases h
  | case4 => cases h
  | case5 front a b rest hlow hok hfull ih =>
      exact ih h (by rw [List.length_append, List.length_singleton]; omega)
  | case6 => cases h
  | case7 => cases h
  | case8 front c rest hshape hc hfull ih =>
      exact ih h (by rw [List.length_append, List.length_singleton]; omega)

theorem length_keyUnescape {keySz : Nat} {s key : Bytes} (hsz : 0 < keySz)
    (h : keyUnescape keySz s = some (some key)) : key.length < keySz :=
  length_keyUnescapeLoop s [] h hsz

theorem written_traverseFiles {stat : Bytes → Nat} (offs : List Bytes) (filename : Option Bytes)
    (buf : KeyBuf) (h : Written buf.out) :
    Written (traverseFiles stat offs filename buf).1.out := by
  fun_induction traverseFiles stat offs filename buf with
  | case1 filename buf => exact h
  | case2 off rest filename buf ih => exact ih h
  | case3 off rest buf key hkey hfull => exact h
  | case4 off rest buf key hkey item hroom ih =>
      obtain ⟨items, hlen, hout⟩ := h
      refine ih ⟨items ++ [(stat off, key)], fun i hi => ?_, ?_⟩
      · rcases List.mem_append.mp hi with hi | hi
        · exact hlen i hi
        · rw [List.mem_singleton.mp hi]
          exact length_keyUnescape (by decide) hkey
      · rw [List.flatMap_append, hout, List.flatMap_singleton]
  | case5 off rest buf hbroken ih => exact ih h

/-- What the walk through a directory keeps, the walk through a level keeps. -/
theorem traverseDirs_keeps {P : KeyBuf → Prop} {t : FsTree} {num : Int}
    {same other : Bytes → KeyBuf → KeyBuf × Bool}
    (hsame : ∀ off buf, P buf → P (same off buf).1)
    (hother : ∀ off buf, P buf → P (other off buf).1) :
    ∀ (offs : List Bytes) (buf : KeyBuf), P buf →
      P (traverseDirs t num same other offs buf).1 := by
  intro offs
  induction offs with
  | nil => intro buf h; exact h
  | cons off rest ih =>
      intro buf h
      have hthis : P (if dirNumber off = num then same off buf else other off buf).1 := by
        split
        · exact hsame off buf h
        · exact hother off buf h
      rw [traverseDirs]
      split
      · exact ih buf h
      · split
        · split
          · next hres =>
              rw [hres] at hthis
              exact hthis
          · next hres =>
              rw [hres] at hthis
              exact ih _ hthis
        · exact ih buf h

/-- What the walk through the files keeps holds of what is written in the end. -/
theorem fsGetKeys_keeps {P : KeyBuf → Prop} {stat : Bytes → Nat}
    (hfiles : ∀ offs filename buf, P buf → P (traverseFiles stat offs filename buf).1)
    (dir : Bytes) (t : FsTree) {bufSz : Int} (start : Bytes) (hstart : P { room := bufSz }) :
    ∃ buf, P buf ∧ fsGetKeys stat dir t bufSz start = buf.out := by
  have hB : ∀ (b : Int) (filename : Option Bytes) (off : Bytes) (buf : KeyBuf),
      P buf → P (traverseB stat t off b filename buf).1 := by
    intro b filename off buf h
    exact traverseDirs_keeps (fun q buf h => hfiles _ _ buf h) (fun q buf h => hfiles _ _ buf h)
      _ buf h
  have hA : ∀ (a b : Int) (filename : Option Bytes),
      P (traverseA stat t dir a b filename { room := bufSz }).1 := by
    intro a b filename
    exact traverseDirs_keeps (hB b filename) (hB (-1) none) _ _ hstart
  rw [fsGetKeys]
  split
  · exact ⟨_, hA _ _ _, rfl⟩
  · exact ⟨_, hA _ _ _, rfl⟩

theorem written_fsGetKeys (stat : Bytes → Nat) (dir : Bytes) (t : FsTree) (bufSz : Int)
    (start : Bytes) : Written (fsGetKeys stat dir t bufSz start) := by
  obtain ⟨buf, hbuf, heq⟩ := fsGetKeys_keeps (P := fun buf => Written buf.out)
    (fun offs filename buf h => written_traverseFiles offs filename buf h) dir t start written_nil
  rw [heq]
  exact hbuf

/-- Nothing is written behind the end of the buffer. -/
structure Within (bufSz : Int) (buf : KeyBuf) : Prop where
  room : 0 ≤ buf.room
  written : (buf.out.length : Int) + buf.room = bufSz

theorem within_traverseFiles {stat : Bytes → Nat} {bufSz : Int} (offs : List Bytes)
    (filename : Option Bytes) (buf : KeyBuf) (h : Within bufSz buf) :
    Within bufSz (traverseFiles stat offs filename buf).1 := by
  fun_induction traverseFiles stat offs filename buf with
  | case1 filename buf => exact h
  | case2 off rest filename buf ih => exact ih h
  | case3 off rest buf key hkey hfull => exact h
  | case4 off rest buf key hkey item hroom ih =>
      have hwritten := h.written
      have hlen : item.length = sizeofKeyItem + key.length := length_keyItem (stat off) key
      refine ih ⟨?_, ?_⟩
      · show 0 ≤ buf.room - (sizeofKeyItem + key.length)
        omega
      · show ((buf.out ++ item).length : Int) + (buf.room - (sizeofKeyItem + key.length)) = bufSz
        rw [List.length_append]
        omega
  | case5 off rest buf hbroken ih => exact ih h

theorem length_fsGetKeys (stat : Bytes → Nat) (dir : Bytes) (t : FsTree) {bufSz : Int}
    (hsize : 0 ≤ bufSz) (start : Bytes) :
    ((fsGetKeys stat dir t bufSz start).length : Int) ≤ bufSz := by
  have hstart : Within bufSz { room := bufSz } := ⟨hsize, by simp⟩
  obtain ⟨buf, hbuf, heq⟩ := fsGetKeys_keeps
    (fun offs filename buf h => within_traverseFiles offs filename buf h) dir t start
    hstart
  have hroom := hbuf.room
  have hwritten := hbuf.written
  rw [heq]
  omega

/-! ## Trees that a run leaves

Besides the files of the keys there are only directories, since the new file of a set
has been moved when it returns (`Kept`). -/

theorem tidy_openNew (dir key path : Bytes) {t : FsTree} (h : DirTree.Tidy slash t) :
    DirTree.Tidy slash (openNew dir t path key).1 :=
  openNew_inv (fun _ _ _ ht hmk => ht.mkdir hmk) (fun _ _ ht hopen => ht.openWrite hopen) h

theorem openNew_opened {dir key path : Bytes} {t t' : FsTree}
    (hopen : openNew dir t path key = (t', true)) : t'.find path = some (.file []) := by
  have hfile : ∀ {t t' : FsTree}, t.openWrite slash path = .ok t' →
      t'.find path = some (.file []) := by
    intro t t' h
    rw [(DirTree.openWrite_cases h).1, DirTree.find_put, if_pos rfl]
  unfold openNew at hopen
  split at hopen
  · next h1 =>
      cases hopen
      exact hfile h1
  · simp only [] at hopen
    split at hopen
    · cases hopen
    · split at hopen
      · next h2 =>
          cases hopen
          exact hfile h2
      · cases hopen
  · cases hopen

theorem tidy_fsStep {dir : Bytes} {t : FsTree} (h : DirTree.Tidy slash t) (op : FsOp) :
    DirTree.Tidy slash (fsStep dir t op).1 := by
  cases op with
  | get size key => exact h
  | set value key =>
      have ht1 := tidy_openNew dir key (pathNew dir key) h
      simp only [fsStep, fsSet]
      split
      · next hopen =>
          rw [pathNew, hopen] at ht1
          exact ht1
      · next hopen =>
          rw [pathNew, hopen] at ht1
          have hwrite := ht1.write (openNew_opened hopen) value
          split
          · exact hwrite
          · next hre => exact hwrite.rename hre
  | del key =>
      simp only [fsStep, fsDel]
      split
      · exact h
      · next hun => exact h.unlink hun

/-- A key whose name is not cut. -/
def NameFits (k : Bytes) : Prop := k ≠ [] ∧ (escaped k).length ≤ maxSystemFilename

theorem length_le_escaped (key : Bytes) : key.length ≤ (escaped key).length := by
  rw [escaped]
  induction key with
  | nil => exact Nat.le_refl 0
  | cons c rest ih =>
      have hc := length_keyEscapeByte c
      rw [List.flatMap_cons, List.length_append, List.length_cons]
      omega

theorem NameFits.length_le {k : Bytes} (h : NameFits k) : k.length ≤ maxSystemFilename :=
  Nat.le_trans (length_le_escaped k) h.2

theorem NameFits.size_le {k : Bytes} (h : NameFits k) : k.length ≤ maxKeySize :=
  Nat.le_trans h.length_le (by decide)

theorem NameFits.fileName_eq {k : Bytes} (h : NameFits k) : fileName k = escaped k := by
  rw [fileName, keyToFilename_eq h.size_le, shortName_of_le h.2]

theorem NameFits.fileName_ne {k : Bytes} (h : NameFits k) : fileName k ≠ [] := by
  rw [h.fileName_eq]
  exact fun hnil => h.1 (escaped_inj hnil)

/-- The directories on the way to the file of a key. -/
abbrev levels (dir : Bytes) (k : Bytes) : List Bytes := [dirA dir k, dirB dir k]

theorem layout_fits {dir : Bytes} (hdir : dir.length < maxDirname) :
    Layout dir NameFits (levels dir) :=
  layout_short hdir (fun _ hk => hk.size_le)
    (namesApart_of_fits (fun _ hk => hk.1) fun _ hk => hk.2)

/-- The tree and the map after a run from a bare directory on. -/
def runTree (dir : Bytes) (ops : List FsOp) : FsTree :=
  ops.foldl (fun t op => (fsStep dir t op).1) (bareTree dir)

/-- What the map has after the calls. -/
def runMap (ops : List FsOp) : Bytes → Option Bytes :=
  ops.foldl (fun m op => (mapStep m op).1) fun _ => none

/-- What a run leaves: the files of the map, and directories. -/
structure Kept (dir : Bytes) (m : Bytes → Option Bytes) (t : FsTree) : Prop where
  stores : Stores dir NameFits (levels dir) m t
  tidy : DirTree.Tidy slash t
  only : ∀ q, t.find q ≠ none → q <+: dir ∨
    ∃ k, NameFits k ∧ (q = dirA dir k ∨ q = dirB dir k ∨ q = keyToFullpath dir k)
  domain : ∀ k, m k ≠ none → NameFits k

theorem nodup_inits (p : Bytes) : p.inits.Nodup := by
  induction p with
  | nil => exact List.nodup_singleton []
  | cons c rest ih =>
      rw [List.inits_cons, List.nodup_cons]
      refine ⟨fun h => ?_, ih.map fun a b h => (List.cons.inj h).2⟩
      obtain ⟨q, -, hq⟩ := List.mem_map.mp h
      cases hq

theorem tidy_bareTree (dir : Bytes) : DirTree.Tidy slash (bareTree dir) := by
  refine ⟨?_, fun p hp => ?_⟩
  · have hpaths : (bareTree dir).paths = dir.inits := by
      rw [bareTree, DirTree.paths, List.map_map]
      exact List.map_id' _
    rw [hpaths]
    exact nodup_inits dir
  · rw [find_bareTree] at hp ⊢
    have hprefix : p <+: dir := by
      by_contra h
      exact hp (if_neg h)
    have hsuffix := (List.drop_suffix 1 _).trans
      (List.dropWhile_suffix (fun c => decide (c ≠ slash)) (l := p.reverse))
    have hparent := List.reverse_prefix.mpr hsuffix
    rw [List.reverse_reverse] at hparent
    exact if_pos (hparent.trans hprefix)

theorem kept_bareTree {dir : Bytes} (hdir : dir.length < maxDirname) :
    Kept dir (fun _ => none) (bareTree dir) := by
  refine ⟨(layout_fits hdir).stores_empty (emptyDir_bareTree dir), tidy_bareTree dir,
    fun q hq => .inl ?_, fun k hk => absurd rfl hk⟩
  rw [find_bareTree] at hq
  by_contra h
  exact hq (if_neg h)

theorem Kept.step {dir : Bytes} (hdir : dir.length < maxDirname) {m : Bytes → Option Bytes}
    {t : FsTree} (h : Kept dir m t) {op : FsOp} (hop : NameFits op.key) :
    Kept dir (mapStep m op).1 (fsStep dir t op).1 := by
  have hl := layout_fits hdir
  refine ⟨(hl.step hop h.stores).2, tidy_fsStep h.tidy op, fun q hq => ?_, fun k hk => ?_⟩
  · cases op with
    | get size k => exact h.only q hq
    | set value k =>
        obtain ⟨-, -, hnew, hrest⟩ := hl.set_find h.stores hop value
        simp only [fsStep] at hq
        by_cases hqk : q = keyToFullpath dir k
        · exact .inr ⟨k, hop, .inr (.inr hqk)⟩
        · have hqn : q ≠ pathNew dir k := by
            rintro rfl
            exact hq hnew
          rcases hrest q hqk hqn with hsame | ⟨hmem, -⟩
          · refine h.only q ?_
            rw [← hsame]
            exact hq
          · simp only [levels, List.mem_cons, List.not_mem_nil, or_false] at hmem
            exact .inr ⟨k, hop, hmem.imp id .inl⟩
    | del k =>
        refine h.only q fun hnone => hq ?_
        rw [fsStep, fsDel_eq (hl.trimmed k hop) (h.stores.files k hop)]
        split
        · exact hnone
        · rw [DirTree.find_erase, hnone, ite_self]
  · cases op with
    | get size k' => exact h.domain k hk
    | set value k' =>
        by_cases hkk : k = k'
        · rw [hkk]
          exact hop
        · simp only [mapStep, Function.update_of_ne hkk] at hk
          exact h.domain k hk
    | del k' =>
        by_cases hkk : k = k'
        · rw [hkk]
          exact hop
        · simp only [mapStep, Function.update_of_ne hkk] at hk
          exact h.domain k hk

theorem kept_run {dir : Bytes} (hdir : dir.length < maxDirname) {ops : List FsOp}
    (hops : ∀ op ∈ ops, NameFits op.key) : Kept dir (runMap ops) (runTree dir ops) := by
  have hfold : ∀ (ops : List FsOp) (m : Bytes → Option Bytes) (t : FsTree), Kept dir m t →
      (∀ op ∈ ops, NameFits op.key) →
      Kept dir (ops.foldl (fun m op => (mapStep m op).1) m)
        (ops.foldl (fun t op => (fsStep dir t op).1) t) := by
    intro ops
    induction ops with
    | nil => intro m t h _; exact h
    | cons op rest ih =>
        intro m t h hops
        exact ih _ _ (h.step hdir (hops op List.mem_cons_self))
          fun q hq => hops q (List.mem_cons_of_mem _ hq)
  exact hfold ops _ _ (kept_bareTree hdir) hops

/-! ## What the patterns match

Two patterns are of three digits, for the directories, and one takes every name. They
find what is there if the front of the pattern, which is the name of the directory,
matches itself and there is room for the whole pattern. -/

theorem count_append_slash (p : Bytes) {name : Bytes} (h : slash ∉ name) :
    (p ++ slash :: name).count slash = p.count slash + 1 := by
  rw [List.count_append, List.count_cons_self, List.count_eq_zero.mpr h]

theorem count_dirA (dir k : Bytes) : (dirA dir k).count slash = dir.count slash + 1 :=
  count_append_slash dir (slash_not_mem_decimal3 (hash_lt k).1)

theorem count_dirB (dir k : Bytes) : (dirB dir k).count slash = dir.count slash + 2 := by
  rw [dirB, count_append_slash _ (slash_not_mem_decimal3 (hash_lt k).2), count_dirA]

theorem fullpath_fits {dir : Bytes} (hdir : dir.length < maxDirname) (k : Bytes) :
    keyToFullpath dir k = dirB dir k ++ slash :: fileName k := by
  rw [keyToFullpath_short hdir, placeOf_eq]

theorem plain_decimal3 {n : Nat} (h : n < 251) : PlainPattern (decimal3 n) := by
  intro c hc
  have hdigit := mem_decimal3 h hc
  refine ⟨?_, ?_, ?_, ?_⟩
  all_goals
    rintro rfl
    exact absurd hdigit (by decide)

/-- Three digits match the pattern when all of it is there. -/
theorem fnmatch_threeDigits {a : Nat} (ha : a < 251) (n : Nat) :
    fnmatch (threeDigits.take n) (decimal3 a) = decide (15 ≤ n) := by
  by_cases hn : 15 ≤ n
  · have hall : threeDigits.take n = threeDigits := List.take_of_length_le hn
    have hitems : parsePattern 15 threeDigits = [.set false [(0x30, 0x39)],
        .set false [(0x30, 0x39)], .set false [(0x30, 0x39)]] := by decide
    have haccept : ∀ c ∈ decimal3 a, (PatItem.set false [(0x30, 0x39)]).accepts c = true := by
      intro c hc
      obtain ⟨hlo, hhi⟩ := mem_decimal3 ha hc
      have hlo' : (0x30 : UInt8) ≤ c := UInt8.le_iff_toNat_le.mpr hlo
      have hhi' : c ≤ (0x39 : UInt8) := UInt8.le_iff_toNat_le.mpr hhi
      simp [PatItem.accepts, hlo', hhi']
    have hdot : (decimal3 a).head? ≠ some 0x2E := by
      intro h
      have hmem := List.mem_of_mem_head? h
      exact absurd (mem_decimal3 ha hmem) (by decide)
    rw [hall, fnmatch, show threeDigits.length = 15 from rfl, hitems]
    rw [decimal3_eq ha] at haccept hdot ⊢
    simp only [List.mem_cons, List.not_mem_nil, or_false, forall_eq_or_imp, forall_eq] at haccept
    simp only [matchItems, haccept.1, haccept.2.1, haccept.2.2, hdot, List.isEmpty_nil,
      Bool.and_self, ne_eq, not_false_iff, true_or, decide_true, hn]
  · -- what is left is too short for three digits or contains a bracket
    have hshort : ∀ n < 15, PatItem.star ∉ parsePattern (threeDigits.take n).length
        (threeDigits.take n) ∧
        ((parsePattern (threeDigits.take n).length (threeDigits.take n)).length ≤ 2 ∨
          PatItem.one 0x5B ∈ parsePattern (threeDigits.take n).length (threeDigits.take n)) := by
      decide
    obtain ⟨hstar, hcase⟩ := hshort n (by omega)
    rw [decide_eq_false hn, Bool.eq_false_iff]
    intro h
    rw [fnmatch, Bool.and_eq_true] at h
    obtain ⟨hlen, hone⟩ := matchItems_noStar hstar h.2
    rcases hcase with hcase | hcase
    · rw [length_decimal3 ha] at hlen
      omega
    · exact absurd (mem_decimal3 ha (hone _ hcase)) (by decide)

theorem slash_not_mem_threeDigits (n : Nat) : slash ∉ threeDigits.take n := fun h =>
  absurd (List.mem_of_mem_take h) (by decide)

/-- The number of a directory decides whether its name, as a pattern, matches. -/
theorem fnmatch_decimal3 {a a' : Nat} (ha : a < 251) (ha' : a' < 251) :
    fnmatch (decimal3 a) (decimal3 a') = decide (a' = a) := by
  rw [fnmatch_plain (plain_decimal3 ha)]
  exact decide_eq_decide.mpr ⟨decimal3_inj ha' ha, fun h => by rw [h]⟩

theorem pathMatch_dirA (dir k k' : Bytes) : pathMatch slash (dirA dir k) (dirA dir k')
    = (pathMatch slash dir dir && decide ((keyToFilename k').2.1 = (keyToFilename k).2.1)) := by
  obtain ⟨ha, -⟩ := hash_lt k
  obtain ⟨ha', -⟩ := hash_lt k'
  rw [dirA, dirA, pathMatch_append (slash_not_mem_decimal3 ha) (slash_not_mem_decimal3 ha'),
    fnmatch_decimal3 ha ha']

theorem pathMatch_dirB (dir k k' : Bytes) : pathMatch slash (dirB dir k) (dirB dir k')
    = (pathMatch slash dir dir && decide ((keyToFilename k').2 = (keyToFilename k).2)) := by
  obtain ⟨-, hb⟩ := hash_lt k
  obtain ⟨-, hb'⟩ := hash_lt k'
  rw [dirB, dirB, pathMatch_append (slash_not_mem_decimal3 hb) (slash_not_mem_decimal3 hb'),
    fnmatch_decimal3 hb hb', pathMatch_dirA, Bool.and_assoc, ← Bool.decide_and,
    decide_eq_decide.mpr Prod.ext_iff.symm]

theorem eq_dirA {dir k k' : Bytes} (h : (keyToFilename k).2.1 = (keyToFilename k').2.1) :
    dirA dir k = dirA dir k' := by rw [dirA, dirA, h]

theorem eq_dirB {dir k k' : Bytes} (h : (keyToFilename k).2 = (keyToFilename k').2) :
    dirB dir k = dirB dir k' := by rw [dirB, dirB, dirA, dirA, h]

/-- A star matches all names but those that begin with a dot. -/
theorem fnmatch_star_iff {name : Bytes} : fnmatch [0x2A] name = true ↔ name.head? ≠ some 0x2E := by
  refine ⟨fun h hdot => ?_, fnmatch_star⟩
  have hitems : parsePattern 1 [0x2A] = [.star] := rfl
  rw [fnmatch, List.length_singleton, hitems, Bool.and_eq_true, decide_eq_true_eq] at h
  rcases h.1 with hhead | hhead
  · exact hhead hdot
  · cases hhead

/-- Below the directory there are two levels of directories, and what is in them. -/
structure Shaped (dir : Bytes) (t : FsTree) : Prop where
  tidy : DirTree.Tidy slash t
  only : ∀ q, t.find q ≠ none → q <+: dir ∨
    (∃ k, (q = dirA dir k ∨ q = dirB dir k) ∧ t.find q = some .dir) ∨
    ∃ k name, slash ∉ name ∧ name ≠ [] ∧ q = dirB dir k ++ slash :: name

section Found

variable {dir : Bytes} {m : Bytes → Option Bytes} {t : FsTree}

theorem Kept.shaped (hdir : dir.length < maxDirname) (h : Kept dir m t) : Shaped dir t := by
  refine ⟨h.tidy, fun q hq => ?_⟩
  rcases h.only q hq with hfront | ⟨k, hk, rfl | rfl | rfl⟩
  · exact .inl hfront
  · have hfind := h.stores.dirs k hk (dirA dir k) List.mem_cons_self
    exact .inr (.inl ⟨k, .inl rfl, hfind.resolve_left hq⟩)
  · have hfind := h.stores.dirs k hk (dirB dir k) (List.mem_cons_of_mem _ List.mem_cons_self)
    exact .inr (.inl ⟨k, .inr rfl, hfind.resolve_left hq⟩)
  · refine .inr (.inr ⟨k, fileName k, slash_not_mem_fileName hk.size_le, hk.fileName_ne,
      fullpath_fits hdir k⟩)

/-- What is found is told by its depth. -/
theorem Shaped.found (h : Shaped dir t) {q : Bytes} (hq : t.find q ≠ none) :
    (q.count slash ≤ dir.count slash) ∨
      (∃ k, q = dirA dir k ∧ q.count slash = dir.count slash + 1 ∧ t.find q = some .dir) ∨
      (∃ k, q = dirB dir k ∧ q.count slash = dir.count slash + 2 ∧ t.find q = some .dir) ∨
      ∃ k name, slash ∉ name ∧ name ≠ [] ∧ q = dirB dir k ++ slash :: name ∧
        q.count slash = dir.count slash + 3 := by
  rcases h.only q hq with hfront | ⟨k, rfl | rfl, hd⟩ | ⟨k, name, hslash, hne, rfl⟩
  · exact .inl (hfront.sublist.count_le slash)
  · exact .inr (.inl ⟨k, rfl, count_dirA dir k, hd⟩)
  · exact .inr (.inr (.inl ⟨k, rfl, count_dirB dir k, hd⟩))
  · refine .inr (.inr (.inr ⟨k, name, hslash, hne, rfl, ?_⟩))
    rw [count_append_slash _ hslash, count_dirB]

theorem Shaped.mem_globA (h : Shaped dir t) (n : Nat) (q : Bytes) :
    q ∈ globPaths slash t.paths (dir ++ slash :: threeDigits.take n) ↔
      (pathMatch slash dir dir = true ∧ 15 ≤ n) ∧ ∃ k, q = dirA dir k ∧ t.find q = some .dir := by
  have hslash := slash_not_mem_threeDigits n
  have hmatch : ∀ k, pathMatch slash (dir ++ slash :: threeDigits.take n) (dirA dir k)
      = (pathMatch slash dir dir && decide (15 ≤ n)) := by
    intro k
    rw [dirA, pathMatch_append hslash (slash_not_mem_decimal3 (hash_lt k).1),
      fnmatch_threeDigits (hash_lt k).1]
  rw [mem_globPaths, DirTree.mem_paths]
  constructor
  · rintro ⟨hfind, hpath⟩
    have hcount := count_of_pathMatch hpath
    rw [count_append_slash dir hslash] at hcount
    rcases h.found hfind with hle | ⟨k, rfl, -, hd⟩ | ⟨k, rfl, hc, -⟩ | ⟨k, name, -, -, rfl, hc⟩
    · omega
    · rw [hmatch, Bool.and_eq_true, decide_eq_true_eq] at hpath
      exact ⟨hpath, k, rfl, hd⟩
    · omega
    · omega
  · rintro ⟨hcond, k, rfl, hd⟩
    refine ⟨by simp [hd], ?_⟩
    rw [hmatch, Bool.and_eq_true, decide_eq_true_eq]
    exact hcond

theorem Shaped.mem_globB (h : Shaped dir t) (hself : pathMatch slash dir dir = true)
    (k0 q : Bytes) : q ∈ globPaths slash t.paths (dirA dir k0 ++ slash :: threeDigits) ↔
      ∃ k, (keyToFilename k).2.1 = (keyToFilename k0).2.1 ∧ q = dirB dir k ∧
        t.find q = some .dir := by
  have hslash : slash ∉ threeDigits := slash_not_mem_threeDigits 15
  have hmatch : ∀ k, pathMatch slash (dirA dir k0 ++ slash :: threeDigits) (dirB dir k)
      = decide ((keyToFilename k).2.1 = (keyToFilename k0).2.1) := by
    intro k
    have hdigits := fnmatch_threeDigits (hash_lt k).2 15
    rw [dirB, pathMatch_append hslash (slash_not_mem_decimal3 (hash_lt k).2), pathMatch_dirA, hself,
      show threeDigits = threeDigits.take 15 from rfl, hdigits]
    simp
  rw [mem_globPaths, DirTree.mem_paths]
  constructor
  · rintro ⟨hfind, hpath⟩
    have hcount := count_of_pathMatch hpath
    rw [count_append_slash _ hslash, count_dirA] at hcount
    rcases h.found hfind with hle | ⟨k, rfl, hc, -⟩ | ⟨k, rfl, -, hd⟩ |
      ⟨k, name, -, -, rfl, hc⟩
    · omega
    · omega
    · rw [hmatch, decide_eq_true_eq] at hpath
      exact ⟨k, hpath, rfl, hd⟩
    · omega
  · rintro ⟨k, ha, rfl, hd⟩
    refine ⟨by simp [hd], ?_⟩
    rw [hmatch, decide_eq_true_eq]
    exact ha

theorem Shaped.mem_globC (h : Shaped dir t) (hself : pathMatch slash dir dir = true)
    (k0 q : Bytes) : q ∈ globPaths slash t.paths (dirB dir k0 ++ slash :: [0x2A]) ↔
      ∃ name, slash ∉ name ∧ name ≠ [] ∧ name.head? ≠ some 0x2E ∧
        q = dirB dir k0 ++ slash :: name ∧ t.find q ≠ none := by
  have hslash : slash ∉ [(0x2A : UInt8)] := by decide
  have hmatch : ∀ k name, slash ∉ name →
      (pathMatch slash (dirB dir k0 ++ slash :: [0x2A]) (dirB dir k ++ slash :: name) = true ↔
        (keyToFilename k).2 = (keyToFilename k0).2 ∧ name.head? ≠ some 0x2E) := by
    intro k name hname
    rw [pathMatch_append hslash hname, pathMatch_dirB, hself, Bool.true_and, Bool.and_eq_true,
      decide_eq_true_eq, fnmatch_star_iff]
  rw [mem_globPaths, DirTree.mem_paths]
  constructor
  · rintro ⟨hfind, hpath⟩
    have hcount := count_of_pathMatch hpath
    rw [count_append_slash _ hslash, count_dirB] at hcount
    rcases h.found hfind with hle | ⟨k, rfl, hc, -⟩ | ⟨k, rfl, hc, -⟩ |
      ⟨k, name, hname, hne, rfl, -⟩
    · omega
    · omega
    · omega
    · obtain ⟨hhash, hdot⟩ := (hmatch k name hname).mp hpath
      exact ⟨name, hname, hne, hdot, by rw [eq_dirB hhash], hfind⟩
  · rintro ⟨name, hname, -, hdot, rfl, hfind⟩
    exact ⟨hfind, (hmatch k0 name hname).mpr ⟨rfl, hdot⟩⟩

/-- The files of a run are in the directories of their keys. -/
theorem Kept.mem_globC (hdir : dir.length < maxDirname) (h : Kept dir m t)
    (hself : pathMatch slash dir dir = true) (k0 q : Bytes) :
    q ∈ globPaths slash t.paths (dirB dir k0 ++ slash :: [0x2A]) ↔
      ∃ k, m k ≠ none ∧ (keyToFilename k).2 = (keyToFilename k0).2 ∧ q = keyToFullpath dir k := by
  rw [(h.shaped hdir).mem_globC hself]
  constructor
  · rintro ⟨name, hname, -, -, rfl, hfind⟩
    have hlen := length_dirs dir k0
    have hdepth := count_append_slash (dirB dir k0) hname
    rw [count_dirB] at hdepth
    rcases h.only _ hfind with hfront | ⟨k, hk, heq | heq | heq⟩
    · have hle := hfront.sublist.count_le slash
      omega
    · rw [heq, count_dirA] at hdepth
      omega
    · rw [heq, count_dirB] at hdepth
      omega
    · rw [heq, h.stores.files k hk, ne_eq, Option.map_eq_none_iff] at hfind
      have hpath := heq
      rw [fullpath_fits hdir] at hpath
      exact ⟨k, hfind, (path_inj hpath).1.symm, heq⟩
  · rintro ⟨k, hk, hhash, rfl⟩
    have hfits := h.domain k hk
    refine ⟨fileName k, slash_not_mem_fileName hfits.size_le, hfits.fileName_ne, fun hdot => ?_, ?_,
      ?_⟩
    · exact (fileName_chars hfits.size_le (List.mem_of_mem_head? hdot)).2.1 rfl
    · rw [fullpath_fits hdir, eq_dirB hhash]
    · rw [h.stores.files k hfits, ne_eq, Option.map_eq_none_iff]
      exact hk

end Found

/-! ## The order of the files

Files are in order by the numbers of their directories and then by name. A key precedes
another when its file does. -/

/-- The order of keys: by the numbers of the directories, then by the name. -/
def Precedes (k k' : Bytes) : Prop :=
  (keyToFilename k).2.1 < (keyToFilename k').2.1 ∨
    (keyToFilename k).2.1 = (keyToFilename k').2.1 ∧
      ((keyToFilename k).2.2 < (keyToFilename k').2.2 ∨
        (keyToFilename k).2.2 = (keyToFilename k').2.2 ∧
          (keyToFilename k).1 < (keyToFilename k').1)

theorem not_precedes_self (k : Bytes) : ¬ Precedes k k := by
  intro h
  rcases h with h | ⟨-, h | ⟨-, h⟩⟩
  · exact Nat.lt_irrefl _ h
  · exact Nat.lt_irrefl _ h
  · exact List.lt_irrefl _ h

section Order

variable {dir : Bytes} {m : Bytes → Option Bytes} {t : FsTree}

/-- The files in one directory, and those below one of the first level. -/
def filesC (t : FsTree) (off : Bytes) : List Bytes :=
  globPaths slash t.paths (off ++ slash :: [0x2A])

/-- The directories that the pattern of three digits finds. -/
def dirsBelow (t : FsTree) (off : Bytes) : List Bytes :=
  globPaths slash t.paths (off ++ slash :: threeDigits)

/-- The files below a directory of the first level, in the order of the walk. -/
def filesB (t : FsTree) (off : Bytes) : List Bytes := (dirsBelow t off).flatMap (filesC t)

/-- All files, in the order of the walk. -/
def files (dir : Bytes) (t : FsTree) : List Bytes := (dirsBelow t dir).flatMap (filesB t)

/-- The files of the walk that starts behind `name` in the directory `b`, and behind
that in the directory `a` of the first level. -/
def walkB (t : FsTree) (name : Bytes) (b : Int) (off : Bytes) : List Bytes :=
  (dirsBelow t off).flatMap fun q =>
    if b ≤ dirNumber q then if dirNumber q = b then filesBehind name (filesC t q) else filesC t q
    else []

/-- What is visited from a start on: the directories in front of it are passed over. -/
def walkA (dir : Bytes) (t : FsTree) (name : Bytes) (a b : Int) : List Bytes :=
  (dirsBelow t dir).flatMap fun q =>
    if a ≤ dirNumber q then if dirNumber q = a then walkB t name b q else filesB t q else []

theorem atoi_decimal3 {n : Nat} (h : n < 251) : atoi (decimal3 n) = n := by
  refine atoi_digits (fun c hc => mem_decimal3 h hc) ?_ (by omega)
  rw [decimal3_eq h]
  simp only [List.foldl_cons, List.foldl_nil, digit_toNat (show n / 100 < 10 by omega),
    digit_toNat (show n / 10 % 10 < 10 by omega), digit_toNat (show n % 10 < 10 by omega)]
  omega

theorem dirNumber_append (p : Bytes) {n : Nat} (h : n < 251) :
    dirNumber (p ++ slash :: decimal3 n) = n := by
  have hdrop : (p ++ slash :: decimal3 n).drop ((p ++ slash :: decimal3 n).length - 3)
      = decimal3 n := by
    have hlen := length_decimal3 h
    rw [show p ++ slash :: decimal3 n = (p ++ [slash]) ++ decimal3 n by simp]
    refine List.drop_left' ?_
    simp only [List.length_append, List.length_singleton, hlen]
    omega
  unfold dirNumber
  rw [hdrop]
  exact atoi_decimal3 h

theorem dirNumber_dirA (dir k : Bytes) : dirNumber (dirA dir k) = (keyToFilename k).2.1 :=
  dirNumber_append dir (hash_lt k).1

theorem dirNumber_dirB (dir k : Bytes) : dirNumber (dirB dir k) = (keyToFilename k).2.2 :=
  dirNumber_append _ (hash_lt k).2

/-- Numbers of three digits are in the order of their texts. -/
theorem decimal3_lt {n n' : Nat} (h : n < 251) (h' : n' < 251) (hlt : decimal3 n < decimal3 n') :
    n < n' := by
  rw [decimal3_eq h, decimal3_eq h'] at hlt
  simp only [List.cons_lt_cons_iff, UInt8.lt_iff_toNat_lt, ← UInt8.toNat_inj, List.not_lt_nil,
    and_false, or_false] at hlt
  rw [digit_toNat (by omega), digit_toNat (by omega), digit_toNat (by omega),
    digit_toNat (by omega), digit_toNat (by omega), digit_toNat (by omega)] at hlt
  omega

theorem append_lt_iff (p a b : Bytes) : p ++ slash :: a < p ++ slash :: b ↔ a < b := by
  have hcons : ∀ (c : UInt8) (x y : Bytes), c :: x < c :: y ↔ x < y := by
    intro c x y
    rw [List.cons_lt_cons_iff]
    refine ⟨fun h => h.elim (fun h => ?_) And.right, fun h => .inr ⟨rfl, h⟩⟩
    exact absurd h (UInt8.lt_irrefl _)
  induction p with
  | nil => exact hcons slash a b
  | cons c rest ih => exact (hcons c _ _).trans ih

theorem Kept.path_inj (hdir : dir.length < maxDirname) (h : Kept dir m t) {k k' : Bytes}
    (hk : m k ≠ none) (hk' : m k' ≠ none) (heq : keyToFullpath dir k = keyToFullpath dir k') :
    k = k' := by
  by_contra hne
  exact (layout_fits hdir).apart.paths k k' (h.domain k hk) (h.domain k' hk') hne heq

/-- A file is in the directory of its key. -/
theorem Kept.mem_filesC (hdir : dir.length < maxDirname) (h : Kept dir m t)
    (hself : pathMatch slash dir dir = true) (k0 : Bytes) {k : Bytes} (hk : m k ≠ none) :
    keyToFullpath dir k ∈ filesC t (dirB dir k0) ↔ (keyToFilename k).2 = (keyToFilename k0).2 := by
  rw [filesC, h.mem_globC hdir hself]
  constructor
  · rintro ⟨k', hk', hhash, heq⟩
    rw [h.path_inj hdir hk hk' heq]
    exact hhash
  · exact fun hhash => ⟨k, hk, hhash, rfl⟩

theorem Shaped.mem_dirsA (h : Shaped dir t) (hself : pathMatch slash dir dir = true) (q : Bytes) :
    q ∈ dirsBelow t dir ↔ ∃ k, q = dirA dir k ∧ t.find q = some .dir := by
  have hmem := h.mem_globA 15 q
  rw [show threeDigits.take 15 = threeDigits from rfl] at hmem
  rw [dirsBelow, hmem]
  exact and_iff_right ⟨hself, Nat.le_refl _⟩

theorem Shaped.dirsA_sorted (h : Shaped dir t) (hself : pathMatch slash dir dir = true) :
    (dirsBelow t dir).Pairwise fun q q' => dirNumber q < dirNumber q' := by
  refine (globPaths_sorted slash h.tidy.nodup _).imp_of_mem ?_
  intro q q' hq hq' hlt
  obtain ⟨k, rfl, -⟩ := (h.mem_dirsA hself q).mp hq
  obtain ⟨k', rfl, -⟩ := (h.mem_dirsA hself q').mp hq'
  rw [dirNumber_dirA, dirNumber_dirA]
  have hnum := decimal3_lt (hash_lt k).1 (hash_lt k').1 ((append_lt_iff _ _ _).mp hlt)
  omega

theorem Shaped.dirsB_sorted (h : Shaped dir t) (hself : pathMatch slash dir dir = true)
    (k0 : Bytes) :
    (dirsBelow t (dirA dir k0)).Pairwise fun q q' => dirNumber q < dirNumber q' := by
  refine (globPaths_sorted slash h.tidy.nodup _).imp_of_mem ?_
  intro q q' hq hq' hlt
  obtain ⟨k, ha, rfl, -⟩ := (h.mem_globB hself k0 q).mp hq
  obtain ⟨k', ha', rfl, -⟩ := (h.mem_globB hself k0 q').mp hq'
  rw [dirNumber_dirB, dirNumber_dirB]
  rw [dirB, dirB, eq_dirA (ha.trans ha'.symm)] at hlt
  have hnum := decimal3_lt (hash_lt k).2 (hash_lt k').2 ((append_lt_iff _ _ _).mp hlt)
  omega

variable (hdir : dir.length < maxDirname) (h : Kept dir m t)
  (hself : pathMatch slash dir dir = true)

include hdir h hself

theorem mem_filesB (k0 q : Bytes) : q ∈ filesB t (dirA dir k0) ↔
    ∃ k, m k ≠ none ∧ (keyToFilename k).2.1 = (keyToFilename k0).2.1 ∧
      q = keyToFullpath dir k := by
  rw [filesB, List.mem_flatMap]
  constructor
  · rintro ⟨off, hoff, hq⟩
    obtain ⟨k1, ha, rfl, -⟩ := ((h.shaped hdir).mem_globB hself k0 off).mp hoff
    obtain ⟨k, hk, hhash, rfl⟩ := (h.mem_globC hdir hself k1 q).mp hq
    exact ⟨k, hk, (congrArg Prod.fst hhash).trans ha, rfl⟩
  · rintro ⟨k, hk, ha, rfl⟩
    have hfits := h.domain k hk
    have hfile : t.find (keyToFullpath dir k) ≠ none := by
      rw [h.stores.files k hfits, ne_eq, Option.map_eq_none_iff]
      exact hk
    have hB := h.tidy.above _ hfile
    rw [fullpath_fits hdir, DirTree.parent_append slash _ (slash_not_mem_fileName hfits.size_le)]
      at hB
    exact ⟨dirB dir k, ((h.shaped hdir).mem_globB hself k0 _).mpr ⟨k, ha, rfl, hB⟩,
      (h.mem_globC hdir hself k _).mpr ⟨k, hk, rfl, rfl⟩⟩

/-- The directories above a file are found. -/
theorem dirs_of_stored {k : Bytes} (hk : m k ≠ none) : dirA dir k ∈ dirsBelow t dir ∧
    dirB dir k ∈ dirsBelow t (dirA dir k) ∧ keyToFullpath dir k ∈ filesC t (dirB dir k) := by
  have hfits := h.domain k hk
  have hfile : t.find (keyToFullpath dir k) ≠ none := by
    rw [h.stores.files k hfits, ne_eq, Option.map_eq_none_iff]
    exact hk
  have hB := h.tidy.above _ hfile
  rw [fullpath_fits hdir, DirTree.parent_append slash _ (slash_not_mem_fileName hfits.size_le)]
    at hB
  have hA := h.tidy.above (dirB dir k) (by rw [hB]; exact nofun)
  rw [parent_dirB] at hA
  exact ⟨((h.shaped hdir).mem_dirsA hself _).mpr ⟨k, rfl, hA⟩,
    ((h.shaped hdir).mem_globB hself k _).mpr ⟨k, rfl, rfl, hB⟩,
    (h.mem_globC hdir hself k _).mpr ⟨k, hk, rfl, rfl⟩⟩

theorem mem_files (q : Bytes) : q ∈ files dir t ↔ ∃ k, m k ≠ none ∧ q = keyToFullpath dir k := by
  rw [files, List.mem_flatMap]
  constructor
  · rintro ⟨off, hoff, hq⟩
    obtain ⟨k1, rfl, -⟩ := ((h.shaped hdir).mem_dirsA hself off).mp hoff
    obtain ⟨k, hk, -, rfl⟩ := (mem_filesB hdir h hself k1 q).mp hq
    exact ⟨k, hk, rfl⟩
  · rintro ⟨k, hk, rfl⟩
    exact ⟨dirA dir k, (dirs_of_stored hdir h hself hk).1,
      (mem_filesB hdir h hself k _).mpr ⟨k, hk, rfl, rfl⟩⟩

/-- The files are in the order of their keys. -/
theorem files_sorted : (files dir t).Pairwise fun q q' => ∀ k k', m k ≠ none → m k' ≠ none →
    q = keyToFullpath dir k → q' = keyToFullpath dir k' → Precedes k k' := by
  have hC : ∀ k0, (filesC t (dirB dir k0)).Pairwise fun q q' => ∀ k k', m k ≠ none → m k' ≠ none →
      q = keyToFullpath dir k → q' = keyToFullpath dir k' → Precedes k k' := by
    intro k0
    refine (globPaths_sorted slash h.tidy.nodup _).imp_of_mem ?_
    intro q q' hq hq' hlt k k' hk hk' hqk hqk'
    have hhash := (h.mem_filesC hdir hself k0 hk).mp (hqk ▸ hq)
    have hhash' := (h.mem_filesC hdir hself k0 hk').mp (hqk' ▸ hq')
    have hsame := hhash.trans hhash'.symm
    rw [hqk, hqk', fullpath_fits hdir, fullpath_fits hdir, eq_dirB hsame] at hlt
    have hname := (append_lt_iff _ _ _).mp hlt
    rw [(h.domain k hk).fileName_eq, (h.domain k' hk').fileName_eq] at hname
    refine .inr ⟨congrArg Prod.fst hsame, .inr ⟨congrArg Prod.snd hsame, ?_⟩⟩
    rw [keyToFilename_eq (h.domain k hk).size_le, keyToFilename_eq (h.domain k' hk').size_le]
    exact hname
  have hB : ∀ k0, (filesB t (dirA dir k0)).Pairwise fun q q' => ∀ k k', m k ≠ none → m k' ≠ none →
      q = keyToFullpath dir k → q' = keyToFullpath dir k' → Precedes k k' := by
    intro k0
    refine List.pairwise_flatMap.mpr ⟨fun off hoff => ?_,
      ((h.shaped hdir).dirsB_sorted hself k0).imp_of_mem ?_⟩
    · obtain ⟨k1, -, rfl, -⟩ := ((h.shaped hdir).mem_globB hself k0 off).mp hoff
      exact hC k1
    · intro off off' hoff hoff' hlt q hq q' hq' k k' hk hk' hqk hqk'
      obtain ⟨k1, ha1, rfl, -⟩ := ((h.shaped hdir).mem_globB hself k0 off).mp hoff
      obtain ⟨k2, ha2, rfl, -⟩ := ((h.shaped hdir).mem_globB hself k0 off').mp hoff'
      have hhash := (h.mem_filesC hdir hself k1 hk).mp (hqk ▸ hq)
      have hhash' := (h.mem_filesC hdir hself k2 hk').mp (hqk' ▸ hq')
      rw [dirNumber_dirB, dirNumber_dirB, ← hhash, ← hhash'] at hlt
      refine .inr ⟨?_, .inl (by omega)⟩
      rw [hhash, hhash', ha1, ha2]
  refine List.pairwise_flatMap.mpr ⟨fun off hoff => ?_,
    ((h.shaped hdir).dirsA_sorted hself).imp_of_mem ?_⟩
  · obtain ⟨k1, rfl, -⟩ := ((h.shaped hdir).mem_dirsA hself off).mp hoff
    exact hB k1
  · intro off off' hoff hoff' hlt q hq q' hq' k k' hk hk' hqk hqk'
    obtain ⟨k1, rfl, -⟩ := ((h.shaped hdir).mem_dirsA hself off).mp hoff
    obtain ⟨k2, rfl, -⟩ := ((h.shaped hdir).mem_dirsA hself off').mp hoff'
    obtain ⟨k3, hk3, ha, heq⟩ := (mem_filesB hdir h hself k1 q).mp hq
    obtain ⟨k4, hk4, ha', heq'⟩ := (mem_filesB hdir h hself k2 q').mp hq'
    rw [← h.path_inj hdir hk hk3 (hqk.symm.trans heq)] at ha
    rw [← h.path_inj hdir hk' hk4 (hqk'.symm.trans heq')] at ha'
    rw [dirNumber_dirA, dirNumber_dirA, ← ha, ← ha'] at hlt
    exact .inl (by omega)

theorem nodup_files : (files dir t).Nodup := by
  refine (files_sorted hdir h hself).imp_of_mem ?_
  intro q q' hq _ hbefore heq
  obtain ⟨k, hk, rfl⟩ := (mem_files hdir h hself q).mp hq
  exact not_precedes_self k (hbefore k k hk hk rfl heq.symm)

end Order

/-! ## The walk over the files of a run

Level by level, from the files up: what a level visits is a list, and the walk over it
begins behind the start or, when the start is not there, where the level puts it. -/

section Traverse

variable {dir : Bytes} {t : FsTree} {stat : Bytes → Nat}

/-- The patterns have room below a directory of 115 bytes. -/
theorem traverseC_eq (hroom : dir.length ≤ 115) (k : Bytes) (filename : Option Bytes)
    (buf : KeyBuf) : traverseC stat t (dirB dir k) filename buf
      = traverseFiles stat (filesC t (dirB dir k)) filename buf := by
  have hlen := length_dirs dir k
  rw [traverseC, filesC, show ascii "/*" = slash :: [0x2A] from rfl, snprintf,
    List.take_of_length_le]
  simp only [List.length_append, List.length_cons, List.length_nil, maxDirname]
  omega

theorem traverseB_eq (hroom : dir.length ≤ 115) (k : Bytes) (b : Int) (filename : Option Bytes)
    (buf : KeyBuf) : traverseB stat t (dirA dir k) b filename buf
      = traverseDirs t b (fun off => traverseC stat t off filename)
          (fun off => traverseC stat t off none) (dirsBelow t (dirA dir k)) buf := by
  have hlen := length_dirs dir k
  have hdigits : threeDigits.length = 15 := rfl
  rw [traverseB, dirsBelow, List.append_assoc, List.singleton_append, snprintf,
    List.take_of_length_le]
  simp only [List.length_append, List.length_cons, hdigits, maxDirname]
  omega

theorem traverseA_eq (hroom : dir.length ≤ 115) (a b : Int) (filename : Option Bytes)
    (buf : KeyBuf) : traverseA stat t dir a b filename buf
      = traverseDirs t a (fun off => traverseB stat t off b filename)
          (fun off => traverseB stat t off (-1) none) (dirsBelow t dir) buf := by
  have hdigits : threeDigits.length = 15 := rfl
  rw [traverseA, dirsBelow, List.append_assoc, List.singleton_append, snprintf,
    List.take_of_length_le]
  simp only [List.length_append, List.length_cons, hdigits, maxDirname]
  omega

variable (h : Shaped dir t)
  (hself : pathMatch slash dir dir = true) (hroom : dir.length ≤ 115)

include h hself hroom

theorem Shaped.traverseB_none (k0 : Bytes) {b : Int} (hb : b ≤ 0) (buf : KeyBuf) :
    traverseB stat t (dirA dir k0) b none buf
      = traverseFiles stat (filesB t (dirA dir k0)) none buf := by
  have hdirs : ∀ off ∈ dirsBelow t (dirA dir k0), t.find off = some .dir ∧ b ≤ dirNumber off ∧
      ∀ buf, traverseC stat t off none buf = traverseFiles stat (filesC t off) none buf := by
    intro off hoff
    obtain ⟨k, -, rfl, hd⟩ := (h.mem_globB hself k0 off).mp hoff
    refine ⟨hd, ?_, traverseC_eq hroom k none⟩
    rw [dirNumber_dirB]
    omega
  rw [traverseB_eq hroom, traverseDirs_eq (filesC t) (filesC t) _ _
    (fun off hoff => (hdirs off hoff).1)
    (fun off hoff _ => (hdirs off hoff).2.2) (fun off hoff => (hdirs off hoff).2.2), filesB]
  refine congrArg (fun l => traverseFiles stat l none buf) (List.flatMap_congr fun off hoff => ?_)
  rw [if_pos (hdirs off hoff).2.1, ite_self]

theorem Shaped.traverseA_none (buf : KeyBuf) :
    traverseA stat t dir 0 0 none buf = traverseFiles stat (files dir t) none buf := by
  have hdirs : ∀ off ∈ dirsBelow t dir, t.find off = some .dir ∧ 0 ≤ dirNumber off ∧
      ∀ b : Int, b ≤ 0 → ∀ buf, traverseB stat t off b none buf
        = traverseFiles stat (filesB t off) none buf := by
    intro off hoff
    obtain ⟨k, rfl, hd⟩ := (h.mem_dirsA hself off).mp hoff
    refine ⟨hd, ?_, fun b hb => h.traverseB_none hself hroom k hb⟩
    rw [dirNumber_dirA]
    omega
  rw [traverseA_eq hroom, traverseDirs_eq (filesB t) (filesB t) _ _
    (fun off hoff => (hdirs off hoff).1)
    (fun off hoff _ => (hdirs off hoff).2.2 0 (Int.le_refl 0))
    (fun off hoff => (hdirs off hoff).2.2 (-1) (by decide)), files]
  refine congrArg (fun l => traverseFiles stat l none buf) (List.flatMap_congr fun off hoff => ?_)
  rw [if_pos (hdirs off hoff).2.1, ite_self]

/-- From some directories and a name on. -/
theorem Shaped.traverseB_name (k0 name : Bytes) (b : Int) (buf : KeyBuf) :
    traverseB stat t (dirA dir k0) b (some name) buf
      = traverseFiles stat (walkB t name b (dirA dir k0)) none buf := by
  have hdirs : ∀ off ∈ dirsBelow t (dirA dir k0), t.find off = some .dir ∧
      ∀ filename buf, traverseC stat t off filename buf
        = traverseFiles stat (filesC t off) filename buf := by
    intro off hoff
    obtain ⟨k, -, rfl, hd⟩ := (h.mem_globB hself k0 off).mp hoff
    exact ⟨hd, traverseC_eq hroom k⟩
  rw [traverseB_eq hroom, traverseDirs_eq (fun off => filesBehind name (filesC t off)) (filesC t)
    _ _ (fun off hoff => (hdirs off hoff).1) ?_ (fun off hoff => (hdirs off hoff).2 none), walkB]
  intro off hoff _ buf
  rw [(hdirs off hoff).2, traverseFiles_behind]

theorem Shaped.traverseA_name (name : Bytes) (a b : Int) (buf : KeyBuf) :
    traverseA stat t dir a b (some name) buf
      = traverseFiles stat (walkA dir t name a b) none buf := by
  have hdirs : ∀ off ∈ dirsBelow t dir, t.find off = some .dir ∧ ∃ k, off = dirA dir k := by
    intro off hoff
    obtain ⟨k, rfl, hd⟩ := (h.mem_dirsA hself off).mp hoff
    exact ⟨hd, k, rfl⟩
  rw [traverseA_eq hroom, traverseDirs_eq (fun off => walkB t name b off) (filesB t) _ _
    (fun off hoff => (hdirs off hoff).1) ?_ ?_, walkA]
  · intro off hoff _ buf
    obtain ⟨-, k, rfl⟩ := hdirs off hoff
    exact h.traverseB_name hself hroom k name b buf
  · intro off hoff buf
    obtain ⟨-, k, rfl⟩ := hdirs off hoff
    exact h.traverseB_none hself hroom k (by decide) buf

end Traverse

/-! ## From a stored key on

When the start is a stored key, its file is in the list, and what is visited is what is
behind it. -/

section Stored

variable {dir : Bytes} {m : Bytes → Option Bytes} {t : FsTree}
  (hdir : dir.length < maxDirname) (h : Kept dir m t) (hself : pathMatch slash dir dir = true)

include hdir h

theorem Kept.baseName {k : Bytes} (hk : m k ≠ none) :
    DirTree.baseName slash (keyToFullpath dir k) = escaped k := by
  have hfits := h.domain k hk
  rw [fullpath_fits hdir, DirTree.baseName_append slash _ (slash_not_mem_fileName hfits.size_le),
    hfits.fileName_eq]

include hself

theorem filesBehind_stored {k : Bytes} (hk : m k ≠ none) :
    filesBehind (escaped k) (filesC t (dirB dir k))
      = after (keyToFullpath dir k) (filesC t (dirB dir k)) := by
  rw [← h.baseName hdir hk]
  refine filesBehind_eq_after fun q hq hname => ?_
  obtain ⟨k', hk', -, rfl⟩ := (h.mem_globC hdir hself k q).mp hq
  rw [h.baseName hdir hk', h.baseName hdir hk] at hname
  rw [escaped_inj hname]

theorem walkB_stored {k : Bytes} (hk : m k ≠ none) :
    walkB t (escaped k) (keyToFilename k).2.2 (dirA dir k)
      = after (keyToFullpath dir k) (filesB t (dirA dir k)) := by
  obtain ⟨-, hB, hC⟩ := dirs_of_stored hdir h hself hk
  rw [filesB, after_flatMap dirNumber ((h.shaped hdir).dirsB_sorted hself k) hB hC ?_,
    dirNumber_dirB, walkB]
  · refine List.flatMap_congr fun off hoff => ?_
    obtain ⟨k', ha, rfl, -⟩ := ((h.shaped hdir).mem_globB hself k off).mp hoff
    by_cases hnum : dirNumber (dirB dir k') = (keyToFilename k).2.2
    · have hb := hnum
      rw [dirNumber_dirB, Int.natCast_inj] at hb
      rw [if_pos hnum, if_pos hnum, eq_dirB (Prod.ext ha hb), filesBehind_stored hdir h hself hk]
    · rw [if_neg hnum, if_neg hnum]
  · intro off hoff hx
    obtain ⟨k', -, rfl, -⟩ := ((h.shaped hdir).mem_globB hself k off).mp hoff
    obtain ⟨k1, hk1, hhash, heq⟩ := (h.mem_globC hdir hself k' _).mp hx
    rw [← h.path_inj hdir hk hk1 heq] at hhash
    rw [dirNumber_dirB, dirNumber_dirB, hhash]

theorem walkA_stored {k : Bytes} (hk : m k ≠ none) :
    walkA dir t (escaped k) (keyToFilename k).2.1 (keyToFilename k).2.2
      = after (keyToFullpath dir k) (files dir t) := by
  have hA := (dirs_of_stored hdir h hself hk).1
  have hx : keyToFullpath dir k ∈ filesB t (dirA dir k) :=
    (mem_filesB hdir h hself k _).mpr ⟨k, hk, rfl, rfl⟩
  rw [files, after_flatMap dirNumber ((h.shaped hdir).dirsA_sorted hself) hA hx ?_,
    dirNumber_dirA, walkA]
  · refine List.flatMap_congr fun off hoff => ?_
    obtain ⟨k', rfl, -⟩ := ((h.shaped hdir).mem_dirsA hself off).mp hoff
    by_cases hnum : dirNumber (dirA dir k') = (keyToFilename k).2.1
    · have ha := hnum
      rw [dirNumber_dirA, Int.natCast_inj] at ha
      rw [if_pos hnum, if_pos hnum, eq_dirA ha, walkB_stored hdir h hself hk]
    · rw [if_neg hnum, if_neg hnum]
  · intro off hoff hx
    obtain ⟨k', rfl, -⟩ := ((h.shaped hdir).mem_dirsA hself off).mp hoff
    obtain ⟨k1, hk1, ha, heq⟩ := (mem_filesB hdir h hself k' _).mp hx
    rw [← h.path_inj hdir hk hk1 heq] at ha
    rw [dirNumber_dirA, dirNumber_dirA, ha]

end Stored

/-! ## Exact listings

The client asks for one page after another, each time behind the last key it has got,
until a page is empty. With room for one item at least every page takes something of the
list, and so the pages are the whole list. Where the patterns find nothing the first
page is empty, and this is right only if nothing is stored. -/

/-- Every page is items that the client reads as they were meant, and page after
page it gets every stored key once. -/
structure ListsExactly (stat : Bytes → Nat) (dir : Bytes) (t : FsTree) (size : Nat)
    (stored : Bytes → Prop) : Prop where
  parses : ∀ start, ∃ items : List (Nat × Bytes),
    fsGetKeys stat dir t size start = items.flatMap (fun i => keyItem i.1 i.2) ∧
      (SimpleClient.getKeysPage (fsGetKeys stat dir t size) start).map (·.map Prod.snd)
        = some (items.map Prod.snd)
  complete : ∃ rounds keys,
    SimpleClient.getKeys (fsGetKeys stat dir t size) rounds = some keys ∧
      (keys.map Prod.snd).Nodup ∧ ∀ k, k ∈ keys.map Prod.snd ↔ stored k

theorem getKeysPage_items {answer : Bytes → Bytes} {start : Bytes} {items : List (Nat × Bytes)}
    (hlen : ∀ i ∈ items, i.2.length < 256)
    (h : answer start = items.flatMap fun i => keyItem i.1 i.2) :
    SimpleClient.getKeysPage answer start = some (items.map fun i => (i.1 % 256 ^ 8, i.2)) := by
  have hfew : items.length ≤ (items.flatMap fun i => keyItem i.1 i.2).length := by
    clear h hlen
    induction items with
    | nil => exact Nat.le_refl 0
    | cons i rest ih =>
        rw [List.flatMap_cons, List.length_append, List.length_cons, length_keyItem, itemSz,
          sizeofKeyItem]
        omega
  rw [SimpleClient.getKeysPage, h, parseKeys_items items _ hlen hfew]

theorem fsGetKeys_parses (stat : Bytes → Nat) (dir : Bytes) (t : FsTree) (size : Nat)
    (start : Bytes) : ∃ items : List (Nat × Bytes),
      fsGetKeys stat dir t size start = items.flatMap (fun i => keyItem i.1 i.2) ∧
        (SimpleClient.getKeysPage (fsGetKeys stat dir t size) start).map (·.map Prod.snd)
          = some (items.map Prod.snd) := by
  obtain ⟨items, hlen, hout⟩ := written_fsGetKeys stat dir t size start
  refine ⟨items, hout, ?_⟩
  rw [getKeysPage_items hlen hout, Option.map_some, List.map_map]
  rfl

section Exact

variable {dir : Bytes} {m : Bytes → Option Bytes} {t : FsTree} {stat : Bytes → Nat} {size : Nat}

theorem exists_preimages {α β : Type} {P : α → Prop} {f : α → β} : ∀ {l : List β},
    (∀ y ∈ l, ∃ x, P x ∧ y = f x) → ∃ xs : List α, (∀ x ∈ xs, P x) ∧ l = xs.map f := by
  intro l
  induction l with
  | nil => exact fun _ => ⟨[], nofun, rfl⟩
  | cons y rest ih =>
      intro h
      obtain ⟨x, hx, rfl⟩ := h y List.mem_cons_self
      obtain ⟨xs, hxs, rfl⟩ := ih fun z hz => h z (List.mem_cons_of_mem _ hz)
      exact ⟨x :: xs, List.forall_mem_cons.mpr ⟨hx, hxs⟩, rfl⟩

/-- The files in their order, as keys. -/
theorem exists_keys (hdir : dir.length < maxDirname) (h : Kept dir m t)
    (hself : pathMatch slash dir dir = true) : ∃ ks : List Bytes, ks.Nodup ∧
      (∀ k, k ∈ ks ↔ m k ≠ none) ∧ files dir t = ks.map (keyToFullpath dir) := by
  obtain ⟨ks, hstored, hks⟩ := exists_preimages fun q hq => (mem_files hdir h hself q).mp hq
  have hnodup := nodup_files hdir h hself
  rw [hks] at hnodup
  refine ⟨ks, hnodup.of_map, fun k => ⟨hstored k, fun hk => ?_⟩, hks⟩
  have hmem := (mem_files hdir h hself _).mpr ⟨k, hk, rfl⟩
  rw [hks] at hmem
  obtain ⟨k', hk', heq⟩ := List.mem_map.mp hmem
  rw [← h.path_inj hdir (hstored k' hk') hk heq]
  exact hk'

/-- The files of stored keys are written as items until the room is used up. -/
theorem Kept.walk_items (hdir : dir.length < maxDirname) (h : Kept dir m t) {l : List Bytes}
    (hl : ∀ k ∈ l, m k ≠ none) :
    (traverseFiles stat (l.map (keyToFullpath dir)) none { room := (size : Int) }).1.out
      = (fitting itemSz size l).flatMap fun k => keyItem (stat (keyToFullpath dir k)) k := by
  rw [traverseFiles_fitting l [] size fun k hk => ?_, List.nil_append]
  rw [h.baseName hdir (hl k hk)]
  refine keyUnescape_escaped (Nat.lt_of_le_of_lt (h.domain k (hl k hk)).length_le ?_)
  rw [maxSystemFilename, maxKeySize_eq]
  decide

/-- A page is what fits of the keys behind the one given. -/
theorem fsGetKeys_eq (hdir : dir.length < maxDirname) (h : Kept dir m t)
    (hself : pathMatch slash dir dir = true) (hroom : dir.length ≤ 115) {ks : List Bytes}
    (hmem : ∀ k, k ∈ ks ↔ m k ≠ none) (hks : files dir t = ks.map (keyToFullpath dir)) :
    fsGetKeys stat dir t size []
        = (fitting itemSz size ks).flatMap (fun k => keyItem (stat (keyToFullpath dir k)) k) ∧
      ∀ k ∈ ks, fsGetKeys stat dir t size k
        = (fitting itemSz size (after k ks)).flatMap
            fun k => keyItem (stat (keyToFullpath dir k)) k := by
  constructor
  · rw [fsGetKeys, if_neg (by decide), (h.shaped hdir).traverseA_none hself hroom, hks]
    exact h.walk_items hdir fun k hk => (hmem k).mp hk
  · intro k hk
    have hstored := (hmem k).mp hk
    have hfits := h.domain k hstored
    have hlen : k.length ≠ 0 := fun hlen => hfits.1 (List.eq_nil_of_length_eq_zero hlen)
    have hescaped : (keyToFilename k).1 = escaped k := by rw [keyToFilename_eq hfits.size_le]
    rw [fsGetKeys, if_pos hlen]
    simp only [hescaped]
    rw [(h.shaped hdir).traverseA_name hself hroom, walkA_stored hdir h hself hstored, hks,
      after_map fun k' hk' heq => h.path_inj hdir ((hmem k').mp hk') hstored heq]
    refine h.walk_items hdir fun k' hk' => (hmem k').mp ?_
    exact (List.dropWhile_suffix _).subset (List.mem_of_mem_drop hk')

/-- Below a directory that is found by its name, nothing is left out. -/
theorem getKeys_complete (hdir : dir.length < maxDirname) (h : Kept dir m t)
    (hself : pathMatch slash dir dir = true) (hroom : dir.length ≤ 115)
    (hsize : sizeofKeyItem + 255 ≤ size) : ∃ rounds keys,
      SimpleClient.getKeys (fsGetKeys stat dir t size) rounds = some keys ∧
        (keys.map Prod.snd).Nodup ∧ ∀ k, k ∈ keys.map Prod.snd ↔ m k ≠ none := by
  obtain ⟨ks, hnodup, hmem, hks⟩ := exists_keys hdir h hself
  obtain ⟨hfirst, hnext⟩ := fsGetKeys_eq hdir h hself hroom hmem hks
  let item : Bytes → Nat × Bytes := fun k => (stat (keyToFullpath dir k) % 256 ^ 8, k)
  have hitem : ∀ l : List Bytes, (l.map item).map Prod.snd = l := by
    intro l
    rw [List.map_map]
    exact List.map_id' l
  have hpage : ∀ (start : Bytes) (l : List Bytes), (∀ k ∈ l, k ∈ ks) →
      fsGetKeys stat dir t size start
        = (fitting itemSz size l).flatMap (fun k => keyItem (stat (keyToFullpath dir k)) k) →
      SimpleClient.getKeysPage (fsGetKeys stat dir t size) start
        = some (fitting (itemSz ∘ Prod.snd) size (l.map item)) := by
    intro start l hl hout
    have hflat : fsGetKeys stat dir t size start
        = ((fitting itemSz size l).map fun k => (stat (keyToFullpath dir k), k)).flatMap
            fun i => keyItem i.1 i.2 := by
      rw [hout, List.flatMap_map]
    rw [getKeysPage_items _ hflat, fitting_map, List.map_map]
    · rfl
    · intro i hi
      obtain ⟨k, hk, rfl⟩ := List.mem_map.mp hi
      have hstored := (hmem k).mp (hl k ((fitting_front itemSz size l).subset hk))
      exact Nat.lt_of_le_of_lt (h.domain k hstored).length_le (by decide)
  have hnodup' : (ks.map item).Nodup := by
    refine List.Nodup.of_map Prod.snd ?_
    rw [hitem]
    exact hnodup
  have hfit : ∀ x ∈ ks.map item, (itemSz ∘ Prod.snd) x ≤ size := by
    intro x hx
    obtain ⟨k, hk, rfl⟩ := List.mem_map.mp hx
    have hlen : k.length ≤ 255 :=
      Nat.le_trans (h.domain k ((hmem k).mp hk)).length_le (by decide)
    exact Nat.le_trans (Nat.add_le_add_left hlen _) hsize
  obtain ⟨pages, hpages, hflat⟩ := collectPages_flatten Prod.snd hnodup' hfit (fun x hx => by
      obtain ⟨k, hk, rfl⟩ := List.mem_map.mp hx
      have hbehind : after (item k) (ks.map item) = (after k ks).map item :=
        after_map fun k' _ heq => congrArg Prod.snd heq
      rw [hbehind]
      exact hpage k (after k ks)
        (fun k' hk' => (List.dropWhile_suffix _).subset (List.mem_of_mem_drop hk')) (hnext k hk))
    ((ks.map item).length + 1) [] (ks.map item) [] rfl (Nat.lt_succ_self _)
    (hpage [] ks (fun _ hk => hk) hfirst)
  refine ⟨(ks.map item).length + 1, ks.map item, ?_, ?_, ?_⟩
  · rw [SimpleClient.getKeys, hpages, Option.map_some, hflat]
  · rw [hitem]
    exact hnodup
  · rw [hitem]
    exact hmem

/-- Below any other directory nothing is found. -/
theorem Shaped.fsGetKeys_none (hdir : dir.length < maxDirname) (h : Shaped dir t)
    (hnot : ¬ (dir.length ≤ 115 ∧ pathMatch slash dir dir = true)) (start : Bytes) :
    fsGetKeys stat dir t size start = [] := by
  have hpattern : snprintf (maxDirname + 4) (dir ++ [slash] ++ threeDigits)
      = dir ++ slash :: threeDigits.take (130 - dir.length) := by
    rw [maxDirname] at hdir ⊢
    rw [snprintf, List.append_assoc, List.singleton_append, List.take_append,
      List.take_of_length_le (by omega),
      show 128 + 4 - 1 - dir.length = 130 - dir.length + 1 by omega, List.take_succ_cons]
  have hempty : globPaths slash t.paths (dir ++ slash :: threeDigits.take (130 - dir.length))
      = [] := by
    refine List.eq_nil_iff_forall_not_mem.mpr fun q hq => ?_
    obtain ⟨⟨hself, hn⟩, -⟩ := (h.mem_globA _ q).mp hq
    exact hnot ⟨by omega, hself⟩
  have hA : ∀ (a b : Int) (filename : Option Bytes) (buf : KeyBuf),
      traverseA stat t dir a b filename buf = (buf, true) := by
    intro a b filename buf
    rw [traverseA, hpattern, hempty, traverseDirs]
  simp only [fsGetKeys, hA, ite_self]

theorem getKeys_none (hdir : dir.length < maxDirname) (h : Kept dir m t)
    (hnot : ¬ (dir.length ≤ 115 ∧ pathMatch slash dir dir = true)) (rounds : Nat) :
    SimpleClient.getKeys (fsGetKeys stat dir t size) (rounds + 1) = some [] := by
  have hpage : SimpleClient.getKeysPage (fsGetKeys stat dir t size) [] = some [] :=
    @getKeysPage_items _ _ [] nofun ((h.shaped hdir).fsGetKeys_none hdir hnot [])
  simp only [SimpleClient.getKeys, collectPages, hpage, List.getLast?_nil, Option.map_some,
    List.flatten_nil]

theorem not_stored_of_lists (hdir : dir.length < maxDirname) (h : Kept dir m t)
    (hnot : ¬ (dir.length ≤ 115 ∧ pathMatch slash dir dir = true)) {stored : Bytes → Prop}
    (hlists : ListsExactly stat dir t size stored) (k : Bytes) : ¬ stored k := by
  obtain ⟨rounds, keys, hkeys, -, hmem⟩ := hlists.complete
  have hnil : keys = [] := by
    cases rounds with
    | zero => simp [SimpleClient.getKeys, collectPages] at hkeys
    | succ n =>
        rw [getKeys_none hdir h hnot, Option.some.injEq] at hkeys
        exact hkeys.symm
  intro hk
  rw [← hmem, hnil] at hk
  cases hk

end Exact

theorem listsExactly_iff_found (stat : Bytes → Nat) {dir : Bytes} (hdir : dir.length < maxDirname)
    {ops : List FsOp} (hops : ∀ op ∈ ops, NameFits op.key) {size : Nat}
    (hsize : sizeofKeyItem + 255 ≤ size) :
    ListsExactly stat dir (runTree dir ops) size (fun k => runMap ops k ≠ none) ↔
      (∀ k, runMap ops k = none) ∨ dir.length ≤ 115 ∧ pathMatch slash dir dir = true := by
  have h := kept_run hdir hops
  by_cases hfound : dir.length ≤ 115 ∧ pathMatch slash dir dir = true
  · refine iff_of_true ⟨fsGetKeys_parses stat dir _ size, ?_⟩ (.inr hfound)
    exact getKeys_complete hdir h hfound.2 hfound.1 hsize
  · rw [or_iff_left hfound]
    constructor
    · intro hlists k
      by_contra hk
      exact not_stored_of_lists hdir h hfound hlists k hk
    · intro hnone
      exact ⟨fsGetKeys_parses stat dir _ size, 1, [], getKeys_none hdir h hfound 0, List.nodup_nil,
        fun k => iff_of_false nofun fun hk => hk (hnone k)⟩

/-- Three long keys are left, of which a page of 264 bytes takes two. -/
def longKeys : List FsOp :=
  [.set (ascii "1") (List.replicate 120 97), .set (ascii "2") (List.replicate 119 98),
    .set (ascii "3") (List.replicate 118 99), .set [] (List.replicate 117 100),
    .set (ascii "4") (List.replicate 120 97), .del (List.replicate 118 99)]

theorem longKeys_fit : ∀ op ∈ longKeys, NameFits op.key := by
  unfold NameFits
  decide +kernel

theorem listsExactly_iff_found_longKeys :
    ListsExactly (fun key => key.length) (ascii "/data") (runTree (ascii "/data") longKeys) 264
      fun k => runMap longKeys k ≠ none :=
  (listsExactly_iff_found _ (by decide) longKeys_fit (by decide)).mpr
    (.inr ⟨by decide, by decide⟩)

/-- The name of the directory is a pattern for another one. -/
theorem listsExactly_bracket : ¬ ListsExactly (fun _ => 0) (ascii "/data[1]")
    (runTree (ascii "/data[1]") [.set (ascii "1") (ascii "a")]) 264
    fun k => runMap [.set (ascii "1") (ascii "a")] k ≠ none := by
  have hops : ∀ op ∈ [FsOp.set (ascii "1") (ascii "a")], NameFits op.key := by
    intro op hop
    rw [List.mem_singleton.mp hop]
    exact ⟨List.cons_ne_nil _ _, by decide⟩
  have hdir : (ascii "/data[1]").length < maxDirname := by decide
  have hnot : ¬ ((ascii "/data[1]").length ≤ 115 ∧
      pathMatch slash (ascii "/data[1]") (ascii "/data[1]") = true) := by decide
  intro hlists
  refine not_stored_of_lists hdir (kept_run hdir hops) hnot hlists (ascii "a") ?_
  simp [runMap, mapStep]

end Smalltable.Proofs
