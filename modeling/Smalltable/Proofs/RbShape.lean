import Mathlib.Data.List.Perm.Basic
import Mathlib.Data.List.Nodup
import Smalltable.Ref.RbTree

/-!
# Red-black trees in memory: what a memory holds

A memory holds a tree (`Holds`) when the root and the nodes are as the tree says:
each node has its children, its parent and its colour, and no node is there
twice. The nodes of a tree are its elements, by their addresses. What is around a
subtree can be told apart from the subtree (`shape_plug`), so an operation is
described at the place where it works.

The operations the two balancing functions are made of keep the elements and their
order: they paint a node (`rbSetBlack_becomes`, `rbSetRed_becomes`,
`rbSetColor_becomes`) or rotate two (`rotate_becomes`). Nodes of other trees stay
as they are.
-/

namespace Smalltable.Proofs.Rb

open Smalltable.Ref.Rb ColoredTree

/-! ## A parent and a colour in one word

Addresses of nodes are multiples of four, so the two lowest bits of the word are free.
Each of the macros keeps the part that it does not set. -/

/-- The colour is the lowest bit. -/
def bits : Color → BitVec 64
  | .red => rbRed
  | .black => rbBlack

/-- `rb_parent_color` of a node with this parent and this colour. -/
def pack (parent : Addr) (c : Color) : BitVec 64 := parent ||| bits c

theorem getElem_zero {i : Nat} (h : i < 64) : (0 : BitVec 64)[i] = false := by
  rw [BitVec.getElem_eq_testBit_toNat]
  exact Nat.zero_testBit i

theorem getElem_one {i : Nat} (h : i < 64) : (1 : BitVec 64)[i] = decide (i < 1) := by
  rw [BitVec.getElem_eq_testBit_toNat]
  exact Nat.testBit_two_pow_sub_one 1 i

theorem getElem_three {i : Nat} (h : i < 64) : (3 : BitVec 64)[i] = decide (i < 2) := by
  rw [BitVec.getElem_eq_testBit_toNat]
  exact Nat.testBit_two_pow_sub_one 2 i

theorem getElem_bits (c : Color) {i : Nat} (h : i < 64) :
    (bits c)[i] = (decide (i < 1) && decide (c = .black)) := by
  cases c with
  | red => exact (getElem_zero h).trans (Bool.and_false _).symm
  | black => exact (getElem_one h).trans (Bool.and_true _).symm

section Words

variable {q q' : Addr} {c c' : Color}

theorem getElem_free (h : Free q) {i : Nat} (hi : i < 64) (hlt : i < 2) : q[i] = false := by
  have hbit : (q &&& 3)[i] = false := by
    rw [h]
    exact getElem_zero hi
  rw [BitVec.getElem_and, getElem_three, decide_eq_true hlt, Bool.and_true] at hbit
  exact hbit

theorem free_null : Free null := by decide

theorem pack_parent (h : Free q) : pack q c &&& ~~~3#64 = q := by
  ext i hi
  have hlow := getElem_free h hi
  have h3 : (3#64)[i] = decide (i < 2) := getElem_three hi
  rw [pack, BitVec.getElem_and, BitVec.getElem_or, BitVec.getElem_not, h3, getElem_bits]
  grind

theorem pack_color (h : Free q) : pack q c &&& 1 = bits c := by
  ext i hi
  have hlow := getElem_free h hi
  rw [pack, BitVec.getElem_and, BitVec.getElem_or, getElem_one, getElem_bits]
  grind

theorem pack_setParent (h : Free q) : (pack q c &&& 3) ||| q' = pack q' c := by
  ext i hi
  have hlow := getElem_free h hi
  rw [pack, pack, BitVec.getElem_or, BitVec.getElem_and, BitVec.getElem_or, BitVec.getElem_or,
    getElem_three, getElem_bits]
  grind

theorem pack_setColor (h : Free q) : (pack q c &&& ~~~1#64) ||| bits c' = pack q c' := by
  ext i hi
  have hlow := getElem_free h hi
  have h1 : (1#64)[i] = decide (i < 1) := getElem_one hi
  rw [pack, pack, BitVec.getElem_or, BitVec.getElem_and, BitVec.getElem_or, BitVec.getElem_or,
    BitVec.getElem_not, h1, getElem_bits, getElem_bits]
  grind

theorem pack_setRed (h : Free q) : pack q c &&& ~~~1#64 = pack q .red := by
  have hred : (pack q c &&& ~~~1#64) ||| bits .red = pack q .red := pack_setColor h
  exact BitVec.or_zero.symm.trans hred

theorem pack_setBlack : pack q c ||| 1 = pack q .black := by
  ext i hi
  rw [pack, pack, BitVec.getElem_or, BitVec.getElem_or, BitVec.getElem_or, getElem_one,
    getElem_bits, getElem_bits]
  grind

end Words

/-! ## A tree in the memory

A tree is divided into a subtree and the frames above it. `Shape` is about the nodes of
the subtree, `Around` about those of the frames, and the two have no node in common. -/

/-- The pointer to a tree. -/
def ptr : ColoredTree Addr → Addr
  | .nil => null
  | .node _ _ p _ => p

/-- The parent of what is in this place of a tree below `parent`. -/
def aboveIn (parent : Addr) : List (Frame Addr) → Addr
  | [] => parent
  | f :: _ => f.elem

/-- The parent of a place, or null at the root. -/
abbrev above : List (Frame Addr) → Addr := aboveIn null

/-- The node with `p` on the side `s` and `q` on the other. -/
def nodeAt (s : Side) (w : BitVec 64) (p q : Addr) : RbNode :=
  match s with
  | .left => ⟨w, q, p⟩
  | .right => ⟨w, p, q⟩

section Node

variable (s : Side) (w w' : BitVec 64) (p q r : Addr)

@[simp] theorem rbLeft_nodeAt : (nodeAt .left w p q).rbLeft = p := rfl

@[simp] theorem rbRight_nodeAt : (nodeAt .left w p q).rbRight = q := rfl

@[simp] theorem child_nodeAt : child s (nodeAt s w p q) = p := by cases s <;> rfl

@[simp] theorem child_other_nodeAt : child s.other (nodeAt s w p q) = q := by cases s <;> rfl

@[simp] theorem withChild_nodeAt : withChild s r (nodeAt s w p q) = nodeAt s w r q := by
  cases s <;> rfl

@[simp] theorem withChild_other_nodeAt :
    withChild s.other r (nodeAt s w p q) = nodeAt s w p r := by cases s <;> rfl

@[simp] theorem word_nodeAt : (nodeAt s w p q).rbParentColor = w := by cases s <;> rfl

@[simp] theorem withWord_nodeAt :
    { nodeAt s w p q with rbParentColor := w' } = nodeAt s w' p q := by cases s <;> rfl

end Node

/-- The nodes of a subtree are in memory, below `parent`. -/
def Shape (mem : Addr → Option RbNode) (parent : Addr) : ColoredTree Addr → Prop
  | .nil => True
  | .node c l p r =>
      mem p = some (nodeAt .left (pack parent c) (ptr l) (ptr r)) ∧ Shape mem p l ∧ Shape mem p r

/-- What is around a place in a tree below `parent`, with the pointer `q` in it. -/
def AroundIn (mem : Addr → Option RbNode) (parent root : Addr) : List (Frame Addr) → Addr → Prop
  | [], q => root = q
  | f :: ctx, q =>
      mem f.elem = some (nodeAt f.side (pack (aboveIn parent ctx) f.color) q (ptr f.sibling)) ∧
      Shape mem f.elem f.sibling ∧ AroundIn mem parent root ctx f.elem

/-- All that is around a place is in memory: the nodes on the way down to it, and what
is beside the way. -/
abbrev Around (mem : Addr → Option RbNode) : Addr → List (Frame Addr) → Addr → Prop :=
  AroundIn mem null

/-- The elements around a place. -/
def outside (ctx : List (Frame Addr)) : List Addr := elemsBefore ctx ++ elemsAfter ctx

/-- The memory holds the tree. Nodes that are not of the tree may have anything in them.
-/
structure Holds (m : RbMemory) (t : ColoredTree Addr) : Prop where
  root : m.root = ptr t
  shape : Shape m.node null t
  nodup : t.toList.Nodup
  aligned : ∀ p ∈ t.toList, Aligned p

section Shape

variable {s : Side} {c : Color} {t u : ColoredTree Addr} {p q parent root : Addr}
  {mem mem' : Addr → Option RbNode} {ctx : List (Frame Addr)} {f : Frame Addr}

@[simp] theorem ptr_join : ptr (join s c t p u) = p := by cases s <;> rfl

theorem ptr_ne (hnull : q ≠ null) (h : q ∉ t.toList) : ptr t ≠ q := by
  cases t with
  | nil => exact fun heq => hnull heq.symm
  | node c l p r => exact fun heq => h (by rw [← heq]; simp [toList, ptr])

theorem shape_join : Shape mem parent (join s c t p u) ↔
    mem p = some (nodeAt s (pack parent c) (ptr t) (ptr u)) ∧ Shape mem p t ∧ Shape mem p u := by
  cases s with
  | left => rfl
  | right => exact and_congr Iff.rfl and_comm

theorem Shape.frame (h : Shape mem parent t) (hsame : ∀ p ∈ t.toList, mem' p = mem p) :
    Shape mem' parent t := by
  induction t generalizing parent with
  | nil => trivial
  | node c l p r ihl ihr =>
      obtain ⟨hp, hl, hr⟩ := h
      refine ⟨?_, ihl hl fun q hq => hsame q ?_, ihr hr fun q hq => hsame q ?_⟩
      · rw [hsame p (by simp [toList])]
        exact hp
      · simp [toList, hq]
      · simp [toList, hq]

theorem perm_join : (join s c t p u).toList.Perm (p :: (t.toList ++ u.toList)) := by
  cases s with
  | left => exact List.perm_middle
  | right => exact List.perm_middle.trans ((List.perm_append_comm).cons p)

theorem perm_outside_cons :
    (outside (f :: ctx)).Perm (f.elem :: (f.sibling.toList ++ outside ctx)) := by
  obtain ⟨s, c, p, sib⟩ := f
  cases s with
  | left =>
      refine List.perm_middle.trans (.cons p ?_)
      exact List.perm_append_comm_assoc _ _ _
  | right =>
      show (elemsBefore ctx ++ (sib.toList ++ [p]) ++ elemsAfter ctx).Perm _
      rw [List.append_assoc, List.append_assoc]
      refine (List.perm_append_comm_assoc _ _ _).trans ?_
      exact (List.perm_middle.append_left sib.toList).trans List.perm_middle

theorem perm_plug : (plug ctx t).toList.Perm (t.toList ++ outside ctx) := by
  rw [toList_plug, outside, List.append_assoc]
  exact List.perm_append_comm_assoc _ _ _

theorem AroundIn.frame (h : AroundIn mem parent root ctx q)
    (hsame : ∀ p ∈ outside ctx, mem' p = mem p) : AroundIn mem' parent root ctx q := by
  induction ctx generalizing q with
  | nil => exact h
  | cons f ctx ih =>
      obtain ⟨hf, hsib, hctx⟩ := h
      have hmem : ∀ p, p = f.elem ∨ p ∈ f.sibling.toList ∨ p ∈ outside ctx → mem' p = mem p := by
        intro p hp
        refine hsame p (perm_outside_cons.mem_iff.mpr ?_)
        rw [List.mem_cons, List.mem_append]
        exact hp
      refine ⟨?_, hsib.frame fun p hp => hmem p (.inr (.inl hp)),
        ih hctx fun p hp => hmem p (.inr (.inr hp))⟩
      rw [hmem _ (.inl rfl)]
      exact hf

/-- A tree is a subtree and what is around it. -/
theorem shape_plug : (root = ptr (plug ctx t) ∧ Shape mem parent (plug ctx t)) ↔
    AroundIn mem parent root ctx (ptr t) ∧ Shape mem (aboveIn parent ctx) t := by
  induction ctx generalizing t with
  | nil => rfl
  | cons f ctx ih =>
      rw [plug, ih, Frame.fill, ptr_join, shape_join]
      constructor
      · rintro ⟨hctx, hf, ht, hsib⟩
        exact ⟨⟨hf, hsib, hctx⟩, ht⟩
      · rintro ⟨⟨hf, hsib, hctx⟩, ht⟩
        exact ⟨hctx, hf, ht, hsib⟩

end Shape

/-! ## Reading

At the place where an operation works, its neighbours are those that the frames say. -/

section Read

variable {m : RbMemory} {s : Side} {c : Color} {t u : ColoredTree Addr} {p q : Addr}
  {ctx : List (Frame Addr)}

/-- What is read from a node. -/
structure Reads (m : RbMemory) (s : Side) (p parent : Addr) (c : Color) (q r : Addr) : Prop where
  node : m.node p = some (nodeAt s (pack parent c) q r)
  free : Free parent

theorem Reads.parent {r parent : Addr} (h : Reads m s p parent c q r) :
    rbParent (nodeAt s (pack parent c) q r) = parent := by
  rw [rbParent, word_nodeAt, pack_parent h.free]

theorem Reads.color {r parent : Addr} (h : Reads m s p parent c q r) :
    rbColor (nodeAt s (pack parent c) q r) = bits c := by
  rw [rbColor, word_nodeAt, pack_color h.free]

theorem Reads.isRed {r parent : Addr} (h : Reads m s p parent c q r) :
    rbIsRed (nodeAt s (pack parent c) q r) = decide (c = .red) := by
  rw [rbIsRed, h.color]
  cases c <;> rfl

theorem Reads.isBlack {r parent : Addr} (h : Reads m s p parent c q r) :
    rbIsBlack (nodeAt s (pack parent c) q r) = decide (c = .black) := by
  rw [rbIsBlack, h.color]
  cases c <;> rfl

theorem Holds.focus (h : Holds m (plug ctx t)) :
    Around m.node m.root ctx (ptr t) ∧ Shape m.node (above ctx) t :=
  shape_plug.mp ⟨h.root, h.shape⟩

theorem mem_plug_self : p ∈ (plug ctx (join s c t p u)).toList := by
  rw [perm_plug.mem_iff, List.mem_append, perm_join.mem_iff]
  exact .inl List.mem_cons_self

theorem Holds.free_above (h : Holds m (plug ctx t)) : Free (above ctx) := by
  cases ctx with
  | nil => exact free_null
  | cons f ctx => exact (h.aligned f.elem mem_plug_self).2

theorem Holds.reads (h : Holds m (plug ctx (join s c t p u))) :
    Reads m s p (above ctx) c (ptr t) (ptr u) :=
  ⟨(shape_join.mp h.focus.2).1, h.free_above⟩

/-- The pointer to a tree is `NULL` when there is none, and only then. -/
theorem Holds.ptr_eq_null (h : Holds m (plug ctx t)) : ptr t = null ↔ t = .nil := by
  cases t with
  | nil => exact ⟨fun _ => rfl, fun _ => rfl⟩
  | node c l p r =>
      have hp : p ∈ (plug ctx (join .left c l p r)).toList := mem_plug_self
      exact ⟨fun hnull => absurd hnull (h.aligned p hp).1, fun hnil => by cases hnil⟩

end Read

/-! ## Writing

A write changes one node. If it belongs to the subtree, what is around it is as it was,
and the other way round; that is all that is needed to put the two together again. -/

/-- `m'` has the tree `t'`, with the elements of `t`, where `m` has `t`, and is
`m` elsewhere. -/
structure Becomes (m m' : RbMemory) (t t' : ColoredTree Addr) : Prop where
  holds : Holds m' t'
  list : t'.toList = t.toList
  others : ∀ p, p ∉ t.toList → m'.node p = m.node p

theorem Becomes.refl {m : RbMemory} {t : ColoredTree Addr} (h : Holds m t) : Becomes m m t t :=
  ⟨h, rfl, fun _ _ => rfl⟩

theorem Becomes.trans {m m' m'' : RbMemory} {t t' t'' : ColoredTree Addr}
    (h : Becomes m m' t t') (h' : Becomes m' m'' t' t'') : Becomes m m'' t t'' := by
  refine ⟨h'.holds, h'.list.trans h.list, fun p hp => ?_⟩
  rw [h'.others p (by rw [h.list]; exact hp), h.others p hp]

section Write

variable {m : RbMemory} {s : Side} {c c' : Color} {t u : ColoredTree Addr} {p q : Addr}
  {ctx : List (Frame Addr)}

theorem assign_eq {r : RbNode} (h : m.node p = some r) (f : RbNode → RbNode) :
    assign p f m = some { m with node := Function.update m.node p (some (f r)) } := by
  rw [assign, h]

theorem update_apart {mem : Addr → Option RbNode} {r : Option RbNode} {l : List Addr}
    (h : p ∉ l) : ∀ q ∈ l, Function.update mem p r q = mem q :=
  fun q hq => Function.update_of_ne (fun heq => h (by rw [← heq]; exact hq)) _ _

theorem not_mem_join (h : (join s c t p u).toList.Nodup) : p ∉ t.toList ∧ p ∉ u.toList := by
  have hnot := (List.nodup_cons.mp (perm_join.nodup_iff.mp h)).1
  rw [List.mem_append, not_or] at hnot
  exact hnot

/-- The elements of a subtree and what is around it are all different. -/
theorem Holds.apart (h : Holds m (plug ctx t)) : t.toList.Nodup ∧ (outside ctx).Nodup ∧
    ∀ p ∈ t.toList, p ∉ outside ctx := by
  obtain ⟨ht, hctx, hne⟩ := List.nodup_append.mp (perm_plug.nodup_iff.mp h.nodup)
  exact ⟨ht, hctx, fun p hp hmem => hne p hp p hmem rfl⟩

theorem Holds.aligned_of (h : Holds m (plug ctx t)) : (∀ p ∈ t.toList, Aligned p) ∧
    ∀ p ∈ outside ctx, Aligned p := by
  refine ⟨fun p hp => h.aligned p ?_, fun p hp => h.aligned p ?_⟩
  · exact perm_plug.mem_iff.mpr (List.mem_append_left _ hp)
  · exact perm_plug.mem_iff.mpr (List.mem_append_right _ hp)

/-- At a place, from what is in it and what is around it. -/
theorem holds_of {m' : RbMemory} {t' : ColoredTree Addr} (h : Holds m (plug ctx t))
    (hsub : t'.toList.Sublist t.toList) (haround : Around m'.node m'.root ctx (ptr t'))
    (hshape : Shape m'.node (above ctx) t') : Holds m' (plug ctx t') := by
  have hwhole : (plug ctx t').toList.Sublist (plug ctx t).toList := by
    rw [toList_plug, toList_plug]
    exact (hsub.append_left _).append_right _
  obtain ⟨hroot, hall⟩ := shape_plug.mpr ⟨haround, hshape⟩
  exact ⟨hroot, hall, hwhole.nodup h.nodup, fun p hp => h.aligned p (hwhole.subset hp)⟩

theorem becomes_of {m' : RbMemory} {t' : ColoredTree Addr} (h : Holds m (plug ctx t))
    (hlist : t'.toList = t.toList) (haround : Around m'.node m'.root ctx (ptr t'))
    (hshape : Shape m'.node (above ctx) t')
    (hothers : ∀ p, p ∉ t.toList → p ∉ outside ctx → m'.node p = m.node p) :
    Becomes m m' (plug ctx t) (plug ctx t') := by
  refine ⟨holds_of h (by rw [hlist]) haround hshape, toList_plug_congr ctx hlist, fun p hp => ?_⟩
  rw [perm_plug.mem_iff, List.mem_append, not_or] at hp
  exact hothers p hp.1 hp.2

/-- A change of the colour of a node. -/
theorem assign_becomes (h : Holds m (plug ctx t)) (hne : t ≠ .nil) {f : RbNode → RbNode}
    (hf : ∀ q r, f (nodeAt .left (pack (above ctx) t.color) q r)
      = nodeAt .left (pack (above ctx) c') q r) :
    ∃ m', assign (ptr t) f m = some m' ∧ Becomes m m' (plug ctx t) (plug ctx (t.paint c')) := by
  cases t with
  | nil => exact absurd rfl hne
  | node c l p r =>
      obtain ⟨haround, hp, hl, hr⟩ := h.focus
      obtain ⟨hnodup, -, hout⟩ := h.apart
      obtain ⟨hnotl, hnotr⟩ := not_mem_join (s := .left) hnodup
      have hmem : p ∈ (ColoredTree.node c l p r).toList := by simp [toList]
      refine ⟨_, assign_eq hp f, becomes_of h rfl ?_ ⟨?_, ?_, ?_⟩ ?_⟩
      · exact haround.frame (update_apart (hout p hmem))
      · exact (Function.update_self _ _ _).trans (congrArg some (hf _ _))
      · exact hl.frame (update_apart hnotl)
      · exact hr.frame (update_apart hnotr)
      · exact fun q hq _ => Function.update_of_ne (fun heq => hq (by rw [heq]; exact hmem)) _ _

theorem rbSetBlack_becomes (h : Holds m (plug ctx t)) (hne : t ≠ .nil) :
    ∃ m', rbSetBlack (ptr t) m = some m' ∧
      Becomes m m' (plug ctx t) (plug ctx (t.paint .black)) :=
  assign_becomes h hne fun q r => by
    rw [word_nodeAt, pack_setBlack, withWord_nodeAt]

theorem rbSetRed_becomes (h : Holds m (plug ctx t)) (hne : t ≠ .nil) :
    ∃ m', rbSetRed (ptr t) m = some m' ∧
      Becomes m m' (plug ctx t) (plug ctx (t.paint .red)) :=
  assign_becomes h hne fun q r => by
    rw [word_nodeAt, pack_setRed h.free_above, withWord_nodeAt]

theorem rbSetColor_becomes (c' : Color) (h : Holds m (plug ctx t)) (hne : t ≠ .nil) :
    ∃ m', rbSetColor (ptr t) (bits c') m = some m' ∧
      Becomes m m' (plug ctx t) (plug ctx (t.paint c')) :=
  assign_becomes h hne fun q r => by
    rw [word_nodeAt, pack_setColor h.free_above, withWord_nodeAt]

/-! ### Rotations

A rotation is some writes in a row, in an order in which the memory holds no tree
between them; so they are followed node by node. -/

/-- A subtree gets another parent. -/
theorem setParentIf_spec {q : Addr} (q' : Addr) (ht : Shape m.node q t) (hfree : Free q)
    (hnodup : t.toList.Nodup) (haligned : ∀ p ∈ t.toList, Aligned p) :
    ∃ m', setParentIf (ptr t) q' m = some m' ∧ m'.root = m.root ∧ Shape m'.node q' t ∧
      ∀ p, p ∉ t.toList → m'.node p = m.node p := by
  cases t with
  | nil => exact ⟨m, rfl, rfl, trivial, fun _ _ => rfl⟩
  | node c l p r =>
      obtain ⟨hp, hl, hr⟩ := ht
      obtain ⟨hnotl, hnotr⟩ := not_mem_join (s := .left) hnodup
      have hmem : p ∈ (ColoredTree.node c l p r).toList := by simp [toList]
      have hne : ptr (.node c l p r) ≠ null := (haligned p hmem).1
      rw [setParentIf, if_pos hne, rbSetParent]
      refine ⟨_, assign_eq hp _, rfl, ⟨?_, ?_, ?_⟩, fun p' hp' => ?_⟩
      · rw [word_nodeAt, pack_setParent hfree, withWord_nodeAt]
        exact Function.update_self _ _ _
      · exact hl.frame (update_apart hnotl)
      · exact hr.frame (update_apart hnotr)
      · exact Function.update_of_ne (fun heq => hp' (by rw [heq]; exact hmem)) _ _

theorem assign_spec {r : RbNode} (h : m.node p = some r) (f : RbNode → RbNode) :
    ∃ m', assign p f m = some m' ∧ m'.root = m.root ∧ m'.node p = some (f r) ∧
      ∀ q, q ≠ p → m'.node q = m.node q :=
  ⟨_, assign_eq h f, rfl, Function.update_self _ _ _, fun _ hq => Function.update_of_ne hq _ _⟩

/-- The link a place is found by. -/
def linkOf : List (Frame Addr) → ChildLink
  | [] => .root
  | f :: _ => .field f.side f.elem

/-- Another pointer is put in a place. -/
theorem storeLink_spec (p : Addr) (h : Around m.node m.root ctx q)
    (hnodup : (outside ctx).Nodup) :
    ∃ m', storeLink (linkOf ctx) p m = some m' ∧ Around m'.node m'.root ctx p ∧
      ∀ r, r ∉ outside ctx → m'.node r = m.node r := by
  cases ctx with
  | nil => exact ⟨{ m with root := p }, rfl, rfl, fun _ _ => rfl⟩
  | cons f ctx =>
      obtain ⟨hf, hsib, hctx⟩ := h
      have hmem : f.elem ∈ outside (f :: ctx) :=
        perm_outside_cons.mem_iff.mpr List.mem_cons_self
      have hnot := (List.nodup_cons.mp (perm_outside_cons.nodup_iff.mp hnodup)).1
      rw [List.mem_append, not_or] at hnot
      obtain ⟨m', hm', hroot, hf', hsame⟩ := assign_spec hf (withChild f.side p)
      rw [withChild_nodeAt] at hf'
      refine ⟨m', hm', ⟨hf', ?_, ?_⟩, fun r hr => hsame r fun heq => hr (heq ▸ hmem)⟩
      · exact hsib.frame fun r hr => hsame r fun heq => hnot.1 (heq ▸ hr)
      · rw [hroot]
        exact hctx.frame fun r hr => hsame r fun heq => hnot.2 (heq ▸ hr)

theorem replaceChild_spec (s : Side) {old : Addr} (new : Addr) (h : Around m.node m.root ctx old)
    (hnodup : (outside ctx).Nodup) (haligned : ∀ p ∈ outside ctx, Aligned p)
    (hold : old ≠ null ∧ old ∉ outside ctx) :
    ∃ m', replaceChild s (above ctx) old new m = some m' ∧
      Around m'.node m'.root ctx new ∧ ∀ p, p ∉ outside ctx → m'.node p = m.node p := by
  have hset : replaceChild s (above ctx) old new m = storeLink (linkOf ctx) new m := by
    cases ctx with
    | nil => rfl
    | cons f ctx =>
        obtain ⟨hf, -, -⟩ := h
        have hmem : ∀ p, p = f.elem ∨ p ∈ f.sibling.toList → p ∈ outside (f :: ctx) :=
          fun p hp => by
            rw [perm_outside_cons.mem_iff, List.mem_cons, List.mem_append]
            tauto
        have hne : f.elem ≠ null := (haligned f.elem (hmem _ (.inl rfl))).1
        have hsibling : ptr f.sibling ≠ old :=
          ptr_ne hold.1 fun hp => hold.2 (hmem old (.inr hp))
        show replaceChild s f.elem old new m = setChild f.side f.elem new m
        rw [replaceChild, if_pos hne, hf]
        -- whichever side is looked at first, the pointer that is found is `old`
        rcases Side.eq_or_other f.side s with rfl | rfl
        · exact if_pos (child_nodeAt _ _ _ _)
        · refine (if_neg ?_).trans ?_
          · rw [child_other_nodeAt]
            exact hsibling
          · rw [Side.other_other]
  rw [hset]
  exact storeLink_spec new h hnodup

/-- A node goes down on the side `s`, and its child on the other side comes up. -/
theorem rotate_becomes {c1 c2 : Color} {a b d : ColoredTree Addr} {x y : Addr}
    (h : Holds m (plug ctx (join s c1 a x (join s c2 b y d)))) :
    ∃ m', rotate s x m = some m' ∧ Becomes m m' (plug ctx (join s c1 a x (join s c2 b y d)))
      (plug ctx (join s c2 (join s c1 a x b) y d)) := by
  obtain ⟨haround, hshape⟩ := h.focus
  obtain ⟨hx, ha, hsub⟩ := shape_join.mp hshape
  obtain ⟨hy, hb, hd⟩ := shape_join.mp hsub
  rw [ptr_join] at hx haround
  have hlist : (join s c2 (join s c1 a x b) y d).toList
      = (join s c1 a x (join s c2 b y d)).toList := by
    cases s <;> simp [join, toList]
  have hfree := h.free_above
  obtain ⟨hnodup, hctx, hout⟩ := h.apart
  obtain ⟨haligned, halignedctx⟩ := h.aligned_of
  have hperm : (join s c1 a x (join s c2 b y d)).toList.Perm
      (x :: (a.toList ++ (y :: (b.toList ++ d.toList)))) :=
    perm_join.trans ((perm_join.append_left _).cons x)
  simp only [hperm.mem_iff, List.mem_cons, List.mem_append] at hout haligned
  have hdistinct := hperm.nodup_iff.mp hnodup
  simp only [List.nodup_cons, List.nodup_append, List.mem_append, List.mem_cons] at hdistinct
  have hxb : x ∉ b.toList := by grind
  have hyb : y ∉ b.toList := by grind
  have hxy : y ≠ x := by grind
  have hnotx : x ∉ outside ctx := hout x (.inl rfl)
  have hnoty : y ∉ outside ctx := by grind
  have hnotb : ∀ p ∈ b.toList, p ∉ outside ctx := by grind
  have hfreex : Free x := (haligned x (.inl rfl)).2
  have hfreey : Free y := (haligned y (.inr (.inr (.inl rfl)))).2
  -- `node->rb_right = right->rb_left`, and its parent
  obtain ⟨m1, hm1, hroot1, hx1, hsame1⟩ := assign_spec hx (withChild s.other (ptr b))
  have hb1 : Shape m1.node y b := hb.frame fun p hp => hsame1 p fun heq => hxb (heq ▸ hp)
  obtain ⟨m2, hm2, hroot2, hb2, hsame2⟩ := setParentIf_spec x hb1 hfreey
    (by grind) (fun p hp => haligned p (.inr (.inr (.inr (.inl hp)))))
  -- `right->rb_left = node`, and its parent
  have hy2 : m2.node y = some (nodeAt s (pack x c2) (ptr b) (ptr d)) := by
    rw [hsame2 y hyb, hsame1 y hxy, hy]
  obtain ⟨m3, hm3, hroot3, hy3, hsame3⟩ := assign_spec hy2 (withChild s x)
  obtain ⟨m4, hm4, hroot4, hy4, hsame4⟩ := assign_spec hy3
    fun r => { r with rbParentColor := (r.rbParentColor &&& 3) ||| above ctx }
  rw [withChild_nodeAt, word_nodeAt, pack_setParent hfreex, withWord_nodeAt] at hy4
  have hback : ∀ q, q ≠ y → q ∉ b.toList → m4.node q = m1.node q := fun q hq hqb => by
    rw [hsame4 q hq, hsame3 q hq, hsame2 q hqb]
  -- the pointer from above
  have haround4 : Around m4.node m4.root ctx x := by
    rw [hroot4, hroot3, hroot2, hroot1]
    refine haround.frame fun q hq => ?_
    rw [hback q (fun heq => hnoty (heq ▸ hq)) (fun hqb => hnotb q hqb hq),
      hsame1 q fun heq => hnotx (heq ▸ hq)]
  obtain ⟨m5, hm5, haround5, hsame5⟩ := replaceChild_spec s y haround4 hctx halignedctx
    ⟨(haligned x (.inl rfl)).1, hnotx⟩
  -- the parent of `node`
  have hx5 : m5.node x = some (nodeAt s (pack (above ctx) c1) (ptr a) (ptr b)) := by
    rw [hsame5 x hnotx, hback x (fun heq => hxy heq.symm) hxb, hx1, withChild_other_nodeAt]
  obtain ⟨m6, hm6, hroot6, hx6, hsame6⟩ := assign_spec hx5
    fun r => { r with rbParentColor := (r.rbParentColor &&& 3) ||| y }
  rw [word_nodeAt, pack_setParent hfree, withWord_nodeAt] at hx6
  have hkeep : ∀ q, q ≠ x → q ≠ y → q ∉ b.toList → q ∉ outside ctx → m6.node q = m.node q := by
    intro q hqx hqy hqb hqo
    rw [hsame6 q hqx, hsame5 q hqo, hback q hqy hqb, hsame1 q hqx]
  refine ⟨m6, ?_, becomes_of h hlist ?_ ?_ ?_⟩
  · have hparent : rbParent (nodeAt s (pack (above ctx) c1) (ptr a) y) = above ctx := by
      rw [rbParent, word_nodeAt, pack_parent hfree]
    simp only [rotate, hx, Option.bind_eq_bind, Option.bind_some, child_other_nodeAt, hparent, hy,
      child_nodeAt, setChild, hm1, hm2, hm3, rbSetParent, hm4, hm5, hm6]
  · rw [ptr_join, hroot6]
    exact haround5.frame fun q hq => hsame6 q fun heq => hnotx (heq ▸ hq)
  · rw [shape_join, shape_join, ptr_join]
    refine ⟨?_, ⟨hx6, ?_, ?_⟩, ?_⟩
    · rw [hsame6 y hxy, hsame5 y hnoty]
      exact hy4
    · exact ha.frame fun q hq => hkeep q (by grind) (by grind) (by grind) (by grind)
    · refine hb2.frame fun q hq => ?_
      rw [hsame6 q (by grind), hsame5 q (hnotb q hq), hsame4 q (by grind), hsame3 q (by grind)]
    · exact hd.frame fun q hq => hkeep q (by grind) (by grind) (by grind) (by grind)
  · intro q hq hqo
    rw [hperm.mem_iff] at hq
    simp only [List.mem_cons, List.mem_append, not_or] at hq
    exact hkeep q hq.1 hq.2.2.1 hq.2.2.2.1 hqo

/-- The same with the child on the side `s`. -/
theorem rotate_other_becomes {c1 c2 : Color} {a b d : ColoredTree Addr} {x y : Addr}
    (h : Holds m (plug ctx (join s c1 (join s c2 a y b) x d))) :
    ∃ m', rotate s.other x m = some m' ∧ Becomes m m' (plug ctx (join s c1 (join s c2 a y b) x d))
      (plug ctx (join s c2 a y (join s c1 b x d))) := by
  rw [← join_other s c1 d, ← join_other s c2 b] at h ⊢
  rw [← join_other s c2 (join s c1 b x d), ← join_other s c1 d]
  exact rotate_becomes h

end Write

end Smalltable.Proofs.Rb
