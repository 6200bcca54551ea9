import Smalltable.Spec.KeyTable
import Smalltable.Proofs.RbOrder

/-!
# The trees of a configuration

The memory has a table when a red-black tree in it has the entries in order, and
there are no other nodes (`Stores`). Each call does to the memory what it does to
the table, and gives the same answer (`treeCall_table`); so does any sequence of
calls (`treeCalls_table`). None of them looks at a node that is freed, and the
rounds of the loops up and down a tree are logarithmic in the number of its
nodes.

`KeyTable` is the level above: a list in order of keys, with the address of each entry.
The two trees of a configuration are of one kind, with a comparison of their own, so
everything is shown once for both.
-/

namespace Smalltable.Proofs.Rb

open Smalltable.Ref.Rb Smalltable.Spec ColoredTree

/-! ## Inserting

The loop goes down from the root, a link at a time, and remembers the last one. It ends
at an equal key or at a link without a node; there the search tree without colours has
its place too. -/

section Insert

variable {α : Type} {m : RbMemory} {h : NodeHeap α} {s : Side} {c : Color}
  {t u : ColoredTree Addr} {p : Addr} {ctx : List (Frame Addr)} {rounds k : Nat}

theorem loadLink_spec (hold : Holds m (plug ctx t)) : loadLink m (linkOf ctx) = some (ptr t) := by
  cases ctx with
  | nil => exact congrArg some hold.root
  | cons f ctx =>
      have hread : Reads m f.side f.elem (above ctx) f.color (ptr t) (ptr f.sibling) :=
        Holds.reads (s := f.side) hold
      rw [linkOf, loadLink, hread.node, Option.map_some, child_nodeAt]

theorem load_spec (hold : Holds h.mem t) (hp : p ∈ t.toList) : load h p = some (h.item p) := by
  obtain ⟨ctx, c, l, r, rfl⟩ := exists_place hp
  have hread := Holds.reads (s := .left) hold
  rw [load, hread.node, Option.map_some]

/-- Where the search for a place ends, and what is there then. -/
def SearchEnds (h : NodeHeap α) (cmp : α → α → Int) (p : Addr) (ctx : List (Frame Addr))
    (t : ColoredTree Addr) (r : Option (Option (Addr × ChildLink))) : Prop :=
  (r = some none ∧ Tree.insertBy (fun p q => cmp (h.item p) (h.item q)) p t.uncolored = none) ∨
  ∃ side, t = plug side .nil ∧ r = some (some (above (side ++ ctx), linkOf (side ++ ctx))) ∧
    ∀ c, Tree.insertBy (fun p q => cmp (h.item p) (h.item q)) p t.uncolored
      = some (plug side (.node c .nil p .nil)).uncolored

variable {cmp : α → α → Int} {q : Addr} {l r : ColoredTree Addr}

theorem SearchEnds.left {res : Option (Option (Addr × ChildLink))}
    (hlt : cmp (h.item p) (h.item q) < 0)
    (hends : SearchEnds h cmp p (⟨.left, c, q, r⟩ :: ctx) l res) :
    SearchEnds h cmp p ctx (.node c l q r) res := by
  rcases hends with ⟨hres, hnone⟩ | ⟨side, rfl, hres, hsome⟩
  · refine .inl ⟨hres, ?_⟩
    rw [uncolored, Tree.insertBy, if_pos hlt, hnone]
    rfl
  · refine .inr ⟨side ++ [⟨.left, c, q, r⟩], ?_, ?_, fun c' => ?_⟩
    · rw [plug_append]
      rfl
    · rw [List.append_assoc]
      exact hres
    · rw [uncolored, Tree.insertBy, if_pos hlt, hsome c', plug_append]
      rfl

theorem SearchEnds.right {res : Option (Option (Addr × ChildLink))}
    (hlt : ¬ cmp (h.item p) (h.item q) < 0) (hgt : cmp (h.item p) (h.item q) > 0)
    (hends : SearchEnds h cmp p (⟨.right, c, q, l⟩ :: ctx) r res) :
    SearchEnds h cmp p ctx (.node c l q r) res := by
  rcases hends with ⟨hres, hnone⟩ | ⟨side, rfl, hres, hsome⟩
  · refine .inl ⟨hres, ?_⟩
    rw [uncolored, Tree.insertBy, if_neg hlt, if_pos hgt, hnone]
    rfl
  · refine .inr ⟨side ++ [⟨.right, c, q, l⟩], ?_, ?_, fun c' => ?_⟩
    · rw [plug_append]
      rfl
    · rw [List.append_assoc]
      exact hres
    · rw [uncolored, Tree.insertBy, if_neg hlt, if_pos hgt, hsome c', plug_append]
      rfl

/-- The search goes the way of `Tree.insertBy`. -/
theorem insertLoop_spec (hold : Holds h.mem (plug ctx t)) (hk : WaysUpTo k (plug ctx t))
    (hlen : k < rounds + ctx.length) :
    SearchEnds h cmp p ctx t
      (insertLoop (cmp (h.item p)) h rounds (above ctx) (linkOf ctx)) := by
  induction t generalizing ctx rounds with
  | nil =>
      have hway := hk.length_le
      obtain ⟨rounds, rfl⟩ : ∃ r, rounds = r + 1 := ⟨rounds - 1, by omega⟩
      refine .inr ⟨[], rfl, ?_, fun c => rfl⟩
      simp only [insertLoop, loadLink_spec hold, Option.bind_eq_bind, Option.bind_some]
      exact if_pos rfl
  | node c l q r ihl ihr =>
      have hway := hk.length_le
      obtain ⟨rounds, rfl⟩ : ∃ r, rounds = r + 1 := ⟨rounds - 1, by omega⟩
      have hq : q ∈ (plug ctx (ColoredTree.node c l q r)).toList := mem_plug_self (s := .left)
      have hnull : q ≠ null := (hold.aligned q hq).1
      have hdown : k < rounds + (ctx.length + 1) := by omega
      have hleft := @ihl (⟨.left, c, q, r⟩ :: ctx) rounds hold hk hdown
      have hright := @ihr (⟨.right, c, q, l⟩ :: ctx) rounds hold hk hdown
      simp only [insertLoop, loadLink_spec hold, Option.bind_eq_bind, Option.bind_some, ptr,
        if_neg hnull, load_spec hold hq]
      split
      · next hlt => exact hleft.left hlt
      · next hlt =>
          split
          · next hgt => exact hright.right hlt hgt
          · next hgt =>
              refine .inl ⟨rfl, ?_⟩
              rw [uncolored, Tree.insertBy, if_neg hlt, if_neg hgt]

/-- The new node is red and has no children. -/
theorem rbLinkNode_spec {w : RbNode} (hold : Holds m (plug ctx .nil)) (hp : Aligned p)
    (hnot : p ∉ (plug ctx .nil).toList) (hnode : m.node p = some w) :
    ∃ m', rbLinkNode p (above ctx) (linkOf ctx) m = some m' ∧
      Holds m' (plug ctx (.node .red .nil p .nil)) ∧
      ∀ q, q ∉ (plug ctx (.node .red .nil p .nil)).toList → m'.node q = m.node q := by
  obtain ⟨haround, -⟩ := hold.focus
  obtain ⟨-, hnodup, -⟩ := hold.apart
  obtain ⟨-, haligned⟩ := hold.aligned_of
  rw [perm_plug.mem_iff] at hnot
  have hall : (plug ctx (ColoredTree.node .red .nil p .nil)).toList.Perm (p :: outside ctx) :=
    perm_plug
  obtain ⟨m1, hm1, hroot1, hp1, hsame1⟩ := assign_spec hnode fun _ => ⟨above ctx, null, null⟩
  have haround1 : Around m1.node m1.root ctx null := by
    rw [hroot1]
    exact haround.frame fun q hq => hsame1 q fun heq => hnot (heq ▸ hq)
  obtain ⟨m2, hm2, haround2, hsame2⟩ := storeLink_spec p haround1 hnodup
  have hword : above ctx = pack (above ctx) .red := BitVec.or_zero.symm
  have hshape2 : Shape m2.node (above ctx) (.node .red .nil p .nil) := by
    refine ⟨?_, trivial, trivial⟩
    rw [hsame2 p hnot, hp1, ← hword]
    rfl
  obtain ⟨hroot, hshape⟩ := shape_plug.mpr ⟨haround2, hshape2⟩
  refine ⟨m2, ?_, ⟨hroot, hshape, ?_, ?_⟩, fun q hq => ?_⟩
  · simp only [rbLinkNode, hm1, Option.bind_eq_bind, Option.bind_some, hm2]
  · exact hall.nodup_iff.mpr (List.nodup_cons.mpr ⟨hnot, hnodup⟩)
  · intro q hq
    rcases List.mem_cons.mp (hall.mem_iff.mp hq) with rfl | hq
    · exact hp
    · exact haligned q hq
  · rw [hall.mem_iff, List.mem_cons, not_or] at hq
    rw [hsame2 q hq.2, hsame1 q hq.1]

theorem treeInsert_spec (cmp : α → α → Int) {n : Nat} {w : RbNode} (hold : Holds h.mem t)
    (hbal : Balanced .black n t) (hk : WaysUpTo k t) (hlen : k + 3 ≤ rounds) (hp : Aligned p)
    (hnot : p ∉ t.toList) (hnode : h.mem.node p = some w) :
    (treeInsert cmp rounds p h = some (h, false) ∧
      Tree.insertBy (fun p q => cmp (h.item p) (h.item q)) p t.uncolored = none) ∨
    ∃ m' t' n' tr, treeInsert cmp rounds p h = some ({ h with mem := m' }, true) ∧
      Tree.insertBy (fun p q => cmp (h.item p) (h.item q)) p t.uncolored = some tr ∧
      t'.toList = tr.toList ∧ Holds m' t' ∧ Balanced .black n' t' ∧
      ∀ q, q ∉ t'.toList → m'.node q = h.mem.node q := by
  have hload : load h p = some (h.item p) := by rw [load, hnode, Option.map_some]
  have hwhole : Holds h.mem (plug [] t) := hold
  have hkwhole : WaysUpTo k (plug [] t) := hk
  have hsearch : SearchEnds h cmp p [] t (insertLoop (cmp (h.item p)) h rounds null .root) :=
    insertLoop_spec hwhole hkwhole (by rw [List.length_nil]; omega)
  rcases hsearch with ⟨hres, hnone⟩ | ⟨side, rfl, hres, hsome⟩
  · refine .inl ⟨?_, hnone⟩
    have hres' : insertLoop (cmp (h.item p)) h rounds null .root = some none := hres
    simp only [treeInsert, hload, Option.bind_eq_bind, Option.bind_some, hres']
  · rw [List.append_nil] at hres
    have hres' : insertLoop (cmp (h.item p)) h rounds null .root
        = some (some (above side, linkOf side)) := hres
    have hway := hk.length_le
    obtain ⟨c, n1, hctx, hnil⟩ := Takes.of_plug hbal
    obtain ⟨m1, hm1, hold1, hsame1⟩ := rbLinkNode_spec hold hp hnot hnode
    cases hnil with
    | nil =>
        obtain ⟨m2, t', n', hm2, h2, hbal2⟩ := @rbInsertColor_spec _ _ _ _ _ rounds (by omega)
          hold1 (.red .nil .nil) hctx
        refine .inr ⟨m2, t', n', _, ?_, hsome .red, ?_, h2.holds, hbal2, fun q hq => ?_⟩
        · simp only [treeInsert, hload, Option.bind_eq_bind, Option.bind_some, hres', hm1]
          rw [show ptr (.node .red .nil p .nil) = p from rfl] at hm2
          rw [hm2, Option.bind_some]
        · rw [h2.list, toList_uncolored]
        · rw [h2.list] at hq
          rw [h2.others q hq, hsame1 q hq]

end Insert

/-! ## The table in memory

There is no node but those of the tree. A new one is not in use before, and one that is
deleted is in the tree, so every call finds the memory as the one before has left it. -/

/-- The memory has a red-black tree, and no other nodes. -/
structure Stores {α : Type} (h : NodeHeap α) (t : ColoredTree Addr) : Prop where
  holds : Holds h.mem t
  balanced : ∃ n, Balanced .black n t
  only : ∀ p, h.mem.node p ≠ none → p ∈ t.toList

def entriesOf {α : Type} (h : NodeHeap α) (t : ColoredTree Addr) : KeyTable α :=
  t.toList.map fun p => (p, h.item p)

/-- The rounds that are enough for a tree of this many nodes. -/
def enough (n : Nat) : Nat := 2 * Nat.log 2 (n + 1) + 3

theorem enough_mono {n n' : Nat} (h : n ≤ n') : enough n ≤ enough n' := by
  have hlog : Nat.log 2 (n + 1) ≤ Nat.log 2 (n' + 1) := Nat.log_mono_right (by omega)
  unfold enough
  omega

section Calls

variable {α β κ : Type} [LinearOrder κ] {cmp : α → α → Int} {find : β → α → Int} {key : α → κ}
  {keyOf : β → κ} {h h' : NodeHeap α} {t t' : ColoredTree Addr} {p : Addr} {a : α}
  {rounds limit : Nat}

@[simp] theorem length_entriesOf : (entriesOf h t).length = t.toList.length := List.length_map _

@[simp] theorem addresses_entriesOf : (entriesOf h t).map Prod.fst = t.toList := by
  rw [entriesOf, List.map_map]
  exact List.map_id _

@[simp] theorem items_entriesOf : (entriesOf h t).map Prod.snd = t.toList.map h.item := by
  rw [entriesOf, List.map_map]
  rfl

theorem ascending_entriesOf :
    Ascending key (entriesOf h t) ↔ t.uncolored.Sorted fun p => key (h.item p) := by
  rw [entriesOf, Ascending, List.pairwise_map, Tree.Sorted, toList_uncolored]

theorem entriesOf_congr (hlist : t'.toList = t.toList)
    (hitem : ∀ p ∈ t.toList, h'.item p = h.item p) : entriesOf h' t' = entriesOf h t := by
  rw [entriesOf, hlist]
  exact List.map_congr_left fun p hp => by rw [hitem p hp]

theorem Stores.within (hs : Stores h t) (hrounds : enough t.toList.length ≤ rounds) :
    ∃ k, WaysUpTo k t ∧ k + 3 ≤ rounds := by
  obtain ⟨n, hbal⟩ := hs.balanced
  exact ⟨_, hbal.within, hrounds⟩

theorem Holds.frame {m m' : RbMemory} (hold : Holds m t) (hroot : m'.root = m.root)
    (hsame : ∀ p ∈ t.toList, m'.node p = m.node p) : Holds m' t :=
  ⟨hroot.trans hold.root, hold.shape.frame hsame, hold.nodup, hold.aligned⟩

theorem Stores.mem_iff (hs : Stores h t) : p ∈ t.toList ↔ h.mem.node p ≠ none := by
  refine ⟨fun hp hnone => ?_, hs.only p⟩
  have hload := load_spec hs.holds hp
  rw [load, hnone] at hload
  cases hload

theorem orders_items (hcmp : Tree.OrdersBy cmp key) (h : NodeHeap α) :
    Tree.OrdersBy (fun p q => cmp (h.item p) (h.item q)) fun p => key (h.item p) :=
  ⟨fun _ _ => hcmp.lt _ _, fun _ _ => hcmp.gt _ _⟩

/-- `malloc` and the fields do not touch the tree. -/
theorem calloc_item (a : α) (hnew : p ∉ t.toList) :
    ∀ q ∈ t.toList, (calloc p a h).item q = h.item q := fun q hq =>
  Function.update_of_ne (fun heq => hnew (by rw [← heq]; exact hq)) _ _

theorem createItem_spec (keyOf : β → κ) (hcmp : Tree.OrdersBy cmp key) (hs : Stores h t)
    (hin : Ascending key (entriesOf h t)) (hrounds : enough t.toList.length ≤ rounds)
    (hp : Aligned p) (hnew : p ∉ t.toList) (a : α) :
    ∃ h' r t', createItem cmp rounds p a h = some (h', r) ∧ Stores h' t' ∧
      tableCall key keyOf (entriesOf h t) (.newItem p a) = (entriesOf h' t', .created r) := by
  obtain ⟨k, hk, hlen⟩ := hs.within hrounds
  obtain ⟨n, hbal⟩ := hs.balanced
  have hitem := calloc_item (h := h) a hnew
  have hitemp : (calloc p a h).item p = a := Function.update_self _ _ _
  have hold1 : Holds (calloc p a h).mem t := hs.holds.frame rfl (update_apart hnew)
  have hnodep : (calloc p a h).mem.node p = some {} := Function.update_self _ _ _
  have hentries : entriesOf (calloc p a h) t = entriesOf h t := entriesOf_congr rfl hitem
  rw [← hentries] at hin ⊢
  have hsorted := ascending_entriesOf.mp hin
  have hdup : (∃ q ∈ t.uncolored.toList, key ((calloc p a h).item q) = key ((calloc p a h).item p))
      ↔ ∃ x ∈ entriesOf (calloc p a h) t, key x.2 = key a := by
    rw [hitemp, toList_uncolored, entriesOf]
    simp only [List.mem_map, exists_exists_and_eq_and]
  have hnone := (Tree.insertBy_eq_none_iff (orders_items hcmp (calloc p a h)) hsorted).trans hdup
  rcases treeInsert_spec cmp hold1 hbal hk hlen hp hnew hnodep with
    ⟨hres, hins⟩ | ⟨m', t', n', tr, hres, hins, hlist, hold', hbal', hsame'⟩
  · refine ⟨free p (calloc p a h), false, t, ?_, ⟨?_, ⟨n, hbal⟩, fun q hq => hs.only q ?_⟩, ?_⟩
    · simp only [createItem, hres, Option.bind_eq_bind, Option.bind_some]
      rfl
    · exact hold1.frame rfl (update_apart hnew)
    · intro hnone
      by_cases heq : q = p
      · rw [heq] at hq
        exact hq (Function.update_self _ _ _)
      · refine hq ((Function.update_of_ne heq _ _).trans ?_)
        exact (Function.update_of_ne heq _ _).trans hnone
    · rw [tableCall, if_pos (hnone.mp hins)]
      rfl
  · have hnodup : ¬ ∃ x ∈ entriesOf (calloc p a h) t, key x.2 = key a := fun hex => by
      rw [hnone.mpr hex] at hins
      cases hins
    have hperm : t'.toList.Perm (p :: t.toList) := by
      have htree := Tree.insertBy_perm hins
      rw [toList_uncolored] at htree
      rw [hlist]
      exact htree
    have hsorted' := Tree.insertBy_sorted (orders_items hcmp (calloc p a h)) hsorted hins
    refine ⟨{ calloc p a h with mem := m' }, true, t', ?_, ⟨hold', ⟨n', hbal'⟩, fun q hq => ?_⟩, ?_⟩
    · simp only [createItem, hres, Option.bind_eq_bind, Option.bind_some]
      rfl
    · by_contra hnot
      have hne : q ≠ p := fun heq => hnot (heq ▸ hperm.mem_iff.mpr List.mem_cons_self)
      refine hnot (hperm.mem_iff.mpr (List.mem_cons_of_mem _ (hs.only q ?_)))
      have hsame := (hsame' q hnot).trans (Function.update_of_ne hne _ _)
      rw [← hsame]
      exact hq
    · rw [tableCall, if_neg hnodup]
      refine Prod.ext (eq_of_perm (ascending_addEntry hin p hnodup) ?_ ?_) rfl
      · rw [ascending_entriesOf, Tree.Sorted, toList_uncolored, hlist]
        exact hsorted'
      · refine (perm_addEntry key p a _).trans ?_
        have hmap := hperm.map fun q => (q, (calloc p a h).item q)
        rw [List.map_cons, hitemp] at hmap
        exact hmap.symm

theorem delItem_spec (hs : Stores h t) (hrounds : enough t.toList.length ≤ rounds)
    (hp : p ∈ t.toList) :
    ∃ h' t', delItem rounds p h = some h' ∧ Stores h' t' ∧ t'.toList = t.toList.erase p ∧
      entriesOf h' t' = (entriesOf h t).filter fun x => x.1 ≠ p := by
  obtain ⟨k, hk, hlen⟩ := hs.within hrounds
  obtain ⟨n, hbal⟩ := hs.balanced
  obtain ⟨m', t', n', hm', hold', hlist, hsame, hbal'⟩ :=
    rbErase_spec hs.holds hbal hp hk (by omega : k + 2 ≤ rounds)
  have hnot : p ∉ t'.toList := by
    rw [hlist]
    exact hs.holds.nodup.not_mem_erase
  refine ⟨free p { h with mem := m' }, t', ?_, ⟨?_, ⟨n', hbal'⟩, fun q hq => ?_⟩, hlist, ?_⟩
  · simp only [delItem, hm', Option.bind_eq_bind, Option.bind_some]
  · exact hold'.frame rfl (update_apart hnot)
  · by_cases heq : q = p
    · rw [heq] at hq
      exact absurd (Function.update_self _ _ _) hq
    · by_contra hqt
      have hsame' : (free p { h with mem := m' }).mem.node q = h.mem.node q :=
        (Function.update_of_ne heq _ _).trans (hsame q hqt)
      rw [hsame'] at hq
      rw [hlist] at hqt
      exact hqt ((List.mem_erase_of_ne heq).mpr (hs.only q hq))
  · rw [entriesOf, hlist, hs.holds.nodup.erase_eq_filter, entriesOf, List.filter_map]
    refine congrArg (List.map _) (List.filter_congr fun q _ => ?_)
    rw [Bool.eq_iff_iff]
    simp

theorem freeAll_spec (hs : Stores h t) (hrounds : enough t.toList.length ≤ rounds)
    (hlimit : t.toList.length < limit) :
    ∃ h', freeAll rounds limit h = some h' ∧ Stores h' .nil := by
  induction limit generalizing h t with
  | zero => omega
  | succ limit ih =>
      have hroot := hs.holds.root
      by_cases ht : t = .nil
      · subst ht
        exact ⟨h, if_pos hroot, hs⟩
      · have hmem := ptr_mem ht
        have hne : h.mem.root ≠ null := by
          rw [hroot]
          exact (hs.holds.aligned _ hmem).1
        obtain ⟨h1, t1, hh1, hs1, hlist, -⟩ := delItem_spec hs hrounds hmem
        have hlen : t1.toList.length + 1 = t.toList.length := by
          rw [hlist]
          exact List.length_erase_add_one hmem
        obtain ⟨h2, hh2, hs2⟩ := ih hs1 ((enough_mono (by omega)).trans hrounds) (by omega)
        refine ⟨h2, ?_, hs2⟩
        rw [freeAll, if_neg hne, hroot, hh1]
        exact hh2

/-! ## Searching and listing

The loops up and down read the links of one node after another. Their rounds are bounded
by the height of the tree, which is bounded by the number of its nodes (`enough`). -/

theorem ne_null (hs : Stores h t) (hp : p ∈ t.toList) : p ≠ null := (hs.holds.aligned p hp).1

/-- What `rb_next` gives, without `NULL`. -/
def nextOf (rounds : Nat) (h : NodeHeap α) (p : Addr) : Option Addr :=
  (rbNext rounds p h.mem).filter fun q => q ≠ null

theorem rbNext_spec (hs : Stores h t) (hrounds : enough t.toList.length ≤ rounds)
    {before after : List Addr} (hsplit : t.toList = before ++ p :: after) :
    rbNext rounds p h.mem = some (firstOf after) ∧ nextOf rounds h p = after.head? := by
  obtain ⟨k, hk, hlen⟩ := hs.within hrounds
  have hnext : rbNext rounds p h.mem = some (firstOf after) :=
    neighbour_next (s := .right) hs.holds hk (by omega : k < rounds) hsplit
  refine ⟨hnext, ?_⟩
  rw [nextOf, hnext]
  cases after with
  | nil => rfl
  | cons q after =>
      have hq : q ≠ null := ne_null hs (by rw [hsplit]; simp)
      simp [firstOf, hq]

/-- The search goes the way of `Tree.floorWith`. -/
theorem findLoop_spec {f : α → Int} {u : ColoredTree Addr} {ctx : List (Frame Addr)} {k n : Nat}
    (hs : Stores h (plug ctx u)) (hrounds : enough (plug ctx u).toList.length ≤ rounds)
    (hk : WaysUpTo k (plug ctx u)) (hn : k < n + ctx.length) :
    findLoop f rounds h n (ptr u) = some
      ((Tree.floorWith (nextOf rounds h) (fun p => f (h.item p)) u.uncolored).getD null) := by
  induction u generalizing ctx n with
  | nil =>
      have hway := hk.length_le
      obtain ⟨n, rfl⟩ : ∃ r, n = r + 1 := ⟨n - 1, by omega⟩
      exact if_pos rfl
  | node c l q r ihl ihr =>
      have hway := hk.length_le
      obtain ⟨n, rfl⟩ : ∃ r, n = r + 1 := ⟨n - 1, by omega⟩
      have hq : q ∈ (plug ctx (ColoredTree.node c l q r)).toList := mem_plug_self (s := .left)
      have hread := Holds.reads (s := .left) hs.holds
      have hdown : k < n + (ctx.length + 1) := by omega
      have hleft := @ihl (⟨.left, c, q, r⟩ :: ctx) n hs hrounds hk hdown
      have hright := @ihr (⟨.right, c, q, l⟩ :: ctx) n hs hrounds hk hdown
      obtain ⟨before, after, hsplit⟩ := List.append_of_mem hq
      obtain ⟨hnext, hnextOf⟩ := rbNext_spec hs hrounds hsplit
      simp only [findLoop, ptr, if_neg (ne_null hs hq), load_spec hs.holds hq, hread.node,
        Option.bind_eq_bind, Option.bind_some, rbLeft_nodeAt, rbRight_nodeAt, hnext, uncolored,
        Tree.floorWith, hnextOf]
      split
      · exact hleft
      · cases after with
        | nil => exact if_pos rfl
        | cons q' after =>
            have hq' : q' ∈ (plug ctx (ColoredTree.node c l q r)).toList := by rw [hsplit]; simp
            have hne : firstOf (q' :: after) ≠ null := ne_null hs hq'
            have hload : load h (firstOf (q' :: after)) = some (h.item q') := load_spec hs.holds hq'
            simp only [if_neg hne, hload, Option.bind_some, List.head?_cons]
            split
            · rfl
            · exact hright

theorem find_spec (hfind : ∀ b a, find b a < 0 ↔ keyOf b < key a) (hs : Stores h t)
    (hin : Ascending key (entriesOf h t)) (hrounds : enough t.toList.length ≤ rounds) (b : β) :
    findLoop (find b) rounds h rounds h.mem.root
      = some (((lastUpTo key (keyOf b) (entriesOf h t)).map Prod.fst).getD null) := by
  obtain ⟨k, hk, hlen⟩ := hs.within hrounds
  have hwhole : Stores h (plug [] t) := hs
  have hrw : enough (plug [] t).toList.length ≤ rounds := hrounds
  have hkw : WaysUpTo k (plug [] t) := hk
  rw [hs.holds.root, findLoop_spec (f := find b) hwhole hrw hkw (by rw [List.length_nil]; omega)]
  have hsucc : Tree.IsSuccessor (nextOf rounds h) t.uncolored := fun before p after hsplit => by
    rw [toList_uncolored] at hsplit
    exact (rbNext_spec hs hrounds hsplit).2
  have hsorted := ascending_entriesOf.mp hin
  have hnone : ∀ p, (none : Option Addr) = some p → find b (h.item p) < 0 := nofun
  rw [Tree.floorWith_eq_floorBy hsucc,
    Tree.floorBy_eq_getLast? (fun p => hfind b (h.item p)) hsorted hnone, toList_uncolored,
    lastUpTo, entriesOf, List.filter_map, List.getLast?_map, Option.map_map]
  have hfilter : t.toList.filter (fun p => decide (¬ find b (h.item p) < 0))
      = t.toList.filter
        ((fun x : Addr × α => decide (key x.2 ≤ keyOf b)) ∘ fun p => (p, h.item p)) := by
    refine List.filter_congr fun p _ => decide_eq_decide.mpr ?_
    rw [hfind, not_lt]
  rw [hfilter]
  exact congrArg (fun o : Option Addr => some (o.getD null)) Option.map_id'.symm

theorem walkLoop_spec (hs : Stores h t) (hrounds : enough t.toList.length ≤ rounds)
    {before after : List Addr} (hsplit : t.toList = before ++ after)
    (hlimit : after.length < limit) :
    walkLoop rounds h limit (firstOf after) = some after := by
  induction limit generalizing before after with
  | zero => omega
  | succ limit ih =>
      cases after with
      | nil => exact if_pos rfl
      | cons p after =>
          have hp : p ∈ t.toList := by rw [hsplit]; simp
          have hrest : t.toList = (before ++ [p]) ++ after := by rw [hsplit]; simp
          rw [List.length_cons] at hlimit
          obtain ⟨hnext, -⟩ := rbNext_spec hs hrounds hsplit
          show walkLoop rounds h (limit + 1) p = _
          simp only [walkLoop, if_neg (ne_null hs hp), hnext, Option.bind_eq_bind, Option.bind_some,
            ih hrest (by omega)]

theorem walkNodes_spec (hs : Stores h t) (hrounds : enough t.toList.length ≤ rounds)
    (hlimit : t.toList.length < limit) : walkNodes rounds limit h = some t.toList := by
  obtain ⟨k, hk, hlen⟩ := hs.within hrounds
  have hfirst : rbFirst rounds h.mem = some (firstOf t.toList) :=
    outermost_spec (s := .left) hs.holds hk (by omega : k < rounds)
  simp only [walkNodes, hfirst, Option.bind_eq_bind, Option.bind_some]
  exact walkLoop_spec hs hrounds (List.nil_append _).symm hlimit

/-! ## Calls

One call on memory is one call on the table; a sequence of calls goes on from the table
it has come to. -/

/-- The step lemma. -/
theorem treeCall_table (hcmp : Tree.OrdersBy cmp key)
    (hfind : ∀ b a, find b a < 0 ↔ keyOf b < key a) (hs : Stores h t)
    (hin : Ascending key (entriesOf h t)) (hrounds : enough t.toList.length ≤ rounds)
    (hlimit : t.toList.length < limit) {c : TreeCall α β} (hok : Allowed (entriesOf h t) c) :
    ∃ h' t', treeCall cmp find rounds limit h c
        = some (h', (tableCall key keyOf (entriesOf h t) c).2) ∧ Stores h' t' ∧
      entriesOf h' t' = (tableCall key keyOf (entriesOf h t) c).1 := by
  cases c with
  | newItem p a =>
      obtain ⟨hp, hnew⟩ := hok
      rw [addresses_entriesOf] at hnew
      obtain ⟨h', r, t', hres, hs', htable⟩ := createItem_spec keyOf hcmp hs hin hrounds hp hnew a
      refine ⟨h', t', ?_, hs', ?_⟩
      · rw [htable, treeCall, hres]
        rfl
      · rw [htable]
  | delItem p =>
      have hp : p ∈ (entriesOf h t).map Prod.fst := hok
      rw [addresses_entriesOf] at hp
      obtain ⟨h', t', hres, hs', -, hentries⟩ := delItem_spec hs hrounds hp
      refine ⟨h', t', ?_, hs', hentries⟩
      rw [treeCall, hres]
      rfl
  | find b =>
      refine ⟨h, t, ?_, hs, rfl⟩
      rw [treeCall, find_spec hfind hs hin hrounds b]
      rfl
  | walk =>
      refine ⟨h, t, ?_, hs, rfl⟩
      rw [treeCall, walkNodes_spec hs hrounds hlimit, tableCall, addresses_entriesOf]
      rfl
  | freeAll =>
      obtain ⟨h', hres, hs'⟩ := freeAll_spec hs hrounds hlimit
      refine ⟨h', .nil, ?_, hs', rfl⟩
      rw [treeCall, hres]
      rfl

/-- The run lemma. -/
theorem treeCalls_from (hcmp : Tree.OrdersBy cmp key)
    (hfind : ∀ b a, find b a < 0 ↔ keyOf b < key a) {calls : List (TreeCall α β)}
    (hs : Stores h t) (hin : Ascending key (entriesOf h t))
    (hrounds : enough (t.toList.length + calls.length) ≤ rounds)
    (hlimit : t.toList.length + calls.length < limit)
    (hok : AllAllowed key keyOf (entriesOf h t) calls) :
    ∃ h' t', treeCalls cmp find rounds limit h calls
        = some (h', (tableCalls key keyOf (entriesOf h t) calls).2) ∧ Stores h' t' ∧
      entriesOf h' t' = (tableCalls key keyOf (entriesOf h t) calls).1 := by
  induction calls generalizing h t with
  | nil => exact ⟨h, t, rfl, hs, rfl⟩
  | cons c calls ih =>
      obtain ⟨hc, hrest⟩ := hok
      rw [List.length_cons] at hrounds hlimit
      obtain ⟨h1, t1, hres1, hs1, htable⟩ := treeCall_table hcmp hfind hs hin
        ((enough_mono (by omega)).trans hrounds) (by omega : t.toList.length < limit) hc
      have hlen : (tableCall key keyOf (entriesOf h t) c).1.length ≤ (entriesOf h t).length + 1 :=
        length_tableCall_le keyOf _ c
      have hin1 : Ascending key (tableCall key keyOf (entriesOf h t) c).1 :=
        ascending_tableCall keyOf hin c
      rw [← htable] at hlen hin1 hrest
      rw [length_entriesOf, length_entriesOf] at hlen
      obtain ⟨h2, t2, hres2, hs2, htable2⟩ := ih hs1 hin1
        ((enough_mono (by omega)).trans hrounds) (by omega) hrest
      rw [htable] at hres2 htable2
      refine ⟨h2, t2, ?_, hs2, htable2⟩
      simp only [treeCalls, hres1, Option.bind_eq_bind, Option.bind_some, hres2]
      rfl

theorem stores_empty (item : Addr → α) : Stores { item := item } .nil :=
  ⟨⟨rfl, trivial, List.nodup_nil, fun _ hp => by cases hp⟩, ⟨0, .nil⟩, fun _ hne => absurd rfl hne⟩

/-- Any sequence of calls does to a tree in memory what it does to a table, beginning
with none. -/
theorem treeCalls_table (hcmp : Tree.OrdersBy cmp key)
    (hfind : ∀ b a, find b a < 0 ↔ keyOf b < key a) (item : Addr → α)
    {calls : List (TreeCall α β)} (hrounds : 2 * Nat.log 2 (calls.length + 1) + 3 ≤ rounds)
    (hlimit : calls.length < limit) (hok : AllAllowed key keyOf [] calls) :
    ∃ h t, treeCalls cmp find rounds limit { item := item } calls
        = some (h, (tableCalls key keyOf [] calls).2) ∧ Stores h t ∧
      entriesOf h t = (tableCalls key keyOf [] calls).1 := by
  refine treeCalls_from hcmp hfind (stores_empty item) List.Pairwise.nil ?_ ?_ hok
  · rw [toList, List.length_nil, Nat.zero_add]
    exact hrounds
  · rw [toList, List.length_nil, Nat.zero_add]
    exact hlimit

end Calls

end Smalltable.Proofs.Rb
