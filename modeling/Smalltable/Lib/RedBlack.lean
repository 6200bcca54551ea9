import Mathlib.Algebra.Group.Nat.Defs
import Mathlib.Data.Nat.Log
import Smalltable.Lib.SearchTree

/-!
# Red-black trees, with the place of a subtree

Coloured binary trees and the rules their colours obey: no red node has a red
child, and all ways down have the same number of black nodes (`Balanced`). What
is around a subtree is the list of the nodes above it, from its parent to the
root, each with its other child (`Frame`); `plug` puts a tree in its place, and
`Takes` says which trees may go there.

Left and right are the two values of `Side`, so that a statement and its mirror
image are one. The way down to a node is short (`Balanced.within`).
-/

namespace Smalltable

inductive Side where
  | left
  | right
  deriving DecidableEq, Repr

def Side.other : Side → Side
  | .left => .right
  | .right => .left

@[simp] theorem Side.other_other (s : Side) : s.other.other = s := by cases s <;> rfl

theorem Side.eq_or_other (s s' : Side) : s' = s ∨ s' = s.other := by cases s <;> cases s' <;> decide

inductive Color where
  | red
  | black
  deriving DecidableEq, Repr

inductive ColoredTree (α : Type) where
  | nil
  | node (c : Color) (l : ColoredTree α) (a : α) (r : ColoredTree α)

/-- A node above a subtree: the side the subtree is on, and what is on the other. -/
structure Frame (α : Type) where
  side : Side
  color : Color
  elem : α
  sibling : ColoredTree α

namespace ColoredTree

variable {α : Type}

def toList : ColoredTree α → List α
  | nil => []
  | node _ l a r => l.toList ++ a :: r.toList

def color : ColoredTree α → Color
  | nil => .black
  | node c _ _ _ => c

def left : ColoredTree α → ColoredTree α
  | nil => nil
  | node _ l _ _ => l

def right : ColoredTree α → ColoredTree α
  | nil => nil
  | node _ _ _ r => r

/-- Colour the root. -/
def paint (c : Color) : ColoredTree α → ColoredTree α
  | nil => nil
  | node _ l a r => node c l a r

/-- The node with `t` on the side `s` and `u` on the other. -/
def join (s : Side) (c : Color) (t : ColoredTree α) (a : α) (u : ColoredTree α) :
    ColoredTree α :=
  match s with
  | .left => node c t a u
  | .right => node c u a t

def Frame.fill (f : Frame α) (t : ColoredTree α) : ColoredTree α :=
  join f.side f.color t f.elem f.sibling

/-- The whole tree around `t`. -/
def plug : List (Frame α) → ColoredTree α → ColoredTree α
  | [], t => t
  | f :: ctx, t => plug ctx (Frame.fill f t)

/-- What comes before the subtree in order, and what comes after it. -/
def elemsBefore : List (Frame α) → List α
  | [] => []
  | f :: ctx =>
      match f.side with
      | .left => elemsBefore ctx
      | .right => elemsBefore ctx ++ (f.sibling.toList ++ [f.elem])

def elemsAfter : List (Frame α) → List α
  | [] => []
  | f :: ctx =>
      match f.side with
      | .left => f.elem :: (f.sibling.toList ++ elemsAfter ctx)
      | .right => elemsAfter ctx

theorem node_eq_join (s : Side) (c : Color) (l : ColoredTree α) (a : α) (r : ColoredTree α) :
    ∃ t u, node c l a r = join s c t a u := by
  cases s with
  | left => exact ⟨l, r, rfl⟩
  | right => exact ⟨r, l, rfl⟩

theorem join_other (s : Side) (c : Color) (t : ColoredTree α) (a : α) (u : ColoredTree α) :
    join s.other c t a u = join s c u a t := by cases s <;> rfl

@[simp] theorem paint_join (s : Side) (c c' : Color) (t : ColoredTree α) (a : α)
    (u : ColoredTree α) : (join s c t a u).paint c' = join s c' t a u := by cases s <;> rfl

@[simp] theorem color_join (s : Side) (c : Color) (t : ColoredTree α) (a : α)
    (u : ColoredTree α) : (join s c t a u).color = c := by cases s <;> rfl

theorem toList_plug (ctx : List (Frame α)) (t : ColoredTree α) :
    (plug ctx t).toList = elemsBefore ctx ++ t.toList ++ elemsAfter ctx := by
  induction ctx generalizing t with
  | nil => simp [plug, elemsBefore, elemsAfter]
  | cons f ctx ih =>
      rw [plug, ih]
      cases hs : f.side with
      | left => simp [Frame.fill, join, elemsBefore, elemsAfter, hs, toList]
      | right => simp [Frame.fill, join, elemsBefore, elemsAfter, hs, toList]

/-- A subtree in another shape. -/
theorem toList_plug_congr (ctx : List (Frame α)) {t t' : ColoredTree α}
    (h : t'.toList = t.toList) : (plug ctx t').toList = (plug ctx t).toList := by
  rw [toList_plug, toList_plug, h]

theorem plug_append (ctx ctx' : List (Frame α)) (t : ColoredTree α) :
    plug (ctx ++ ctx') t = plug ctx' (plug ctx t) := by
  induction ctx generalizing t with
  | nil => rfl
  | cons f ctx ih => exact ih _

/-- The tree without its colours. -/
def uncolored : ColoredTree α → Tree α
  | nil => .leaf
  | node _ l a r => .node l.uncolored a r.uncolored

@[simp] theorem toList_uncolored (t : ColoredTree α) : t.uncolored.toList = t.toList := by
  induction t with
  | nil => rfl
  | node c l a r ihl ihr => rw [uncolored, Tree.toList, ihl, ihr, toList]

/-- Each element has its place. -/
theorem exists_place {a : α} : ∀ {t : ColoredTree α}, a ∈ t.toList →
    ∃ ctx c l r, t = plug ctx (node c l a r) := by
  intro t
  induction t with
  | nil => intro h; cases h
  | node c l b r ihl ihr =>
      intro h
      rcases List.mem_append.mp h with h | h
      · obtain ⟨ctx, c', l', r', heq⟩ := ihl h
        refine ⟨ctx ++ [⟨.left, c, b, r⟩], c', l', r', ?_⟩
        rw [plug_append, ← heq]
        rfl
      · rcases List.mem_cons.mp h with heq | h
        · exact ⟨[], c, l, r, by rw [heq]; rfl⟩
        · obtain ⟨ctx, c', l', r', heq⟩ := ihr h
          refine ⟨ctx ++ [⟨.right, c, b, l⟩], c', l', r', ?_⟩
          rw [plug_append, ← heq]
          rfl

/-- Going to the side `s` as far as there is a node. -/
theorem exists_outermost (s : Side) : ∀ {t : ColoredTree α}, t ≠ nil →
    ∃ ctx c a u, t = plug ctx (join s c nil a u) ∧ ∀ f ∈ ctx, f.side = s := by
  intro t
  induction t with
  | nil => intro h; exact absurd rfl h
  | node c l a r ihl ihr =>
      intro _
      have key : ∀ t u : ColoredTree α,
          (t ≠ nil → ∃ ctx c' b v, t = plug ctx (join s c' nil b v) ∧ ∀ f ∈ ctx, f.side = s) →
          ∃ ctx c' b v, join s c t a u = plug ctx (join s c' nil b v) ∧ ∀ f ∈ ctx, f.side = s := by
        intro t u ih
        by_cases ht : t = nil
        · exact ⟨[], c, a, u, by rw [ht]; rfl, fun f hf => by cases hf⟩
        · obtain ⟨ctx, c', b, v, heq, hside⟩ := ih ht
          refine ⟨ctx ++ [⟨s, c, a, u⟩], c', b, v, ?_, fun f hf => ?_⟩
          · rw [plug_append, ← heq]
            rfl
          · rcases List.mem_append.mp hf with hf | hf
            · exact hside f hf
            · rw [List.mem_singleton.mp hf]
      cases s with
      | left => exact key l r ihl
      | right => exact key r l ihr

theorem plug_ne_nil (ctx : List (Frame α)) {t : ColoredTree α} (h : t ≠ nil) :
    plug ctx t ≠ nil := by
  induction ctx generalizing t with
  | nil => exact h
  | cons f ctx ih =>
      refine ih ?_
      obtain ⟨s, c, a, sib⟩ := f
      cases s <;> exact fun heq => by cases heq

/-! ## In the direction of a side -/

/-- A list from left to right, in the direction of a side. -/
def order : Side → List α → List α
  | .left, l => l.reverse
  | .right, l => l

/-- What follows a subtree in the direction of a side. -/
def ahead : Side → List (Frame α) → List α
  | .left, ctx => (elemsBefore ctx).reverse
  | .right, ctx => elemsAfter ctx

@[simp] theorem order_nil (s : Side) : order s ([] : List α) = [] := by cases s <;> rfl

theorem order_join (s : Side) (c : Color) (t : ColoredTree α) (a : α) (u : ColoredTree α) :
    order s (join s c t a u).toList = order s u.toList ++ a :: order s t.toList := by
  cases s with
  | left => simp [order, join, toList]
  | right => rfl

theorem order_plug (s : Side) (ctx : List (Frame α)) (t : ColoredTree α) :
    ∃ l, order s (plug ctx t).toList = l ++ (order s t.toList ++ ahead s ctx) := by
  cases s with
  | left => exact ⟨(elemsAfter ctx).reverse, by simp [order, ahead, toList_plug]⟩
  | right => exact ⟨elemsBefore ctx, by simp [order, ahead, toList_plug]⟩

@[simp] theorem ahead_nil (s : Side) : ahead s ([] : List (Frame α)) = [] := by cases s <;> rfl

theorem ahead_cons_same (s : Side) (c : Color) (a : α) (sib : ColoredTree α)
    (ctx : List (Frame α)) : ahead s (⟨s, c, a, sib⟩ :: ctx) = ahead s ctx := by
  cases s <;> rfl

theorem ahead_cons_other (s : Side) (c : Color) (a : α) (sib : ColoredTree α)
    (ctx : List (Frame α)) :
    ahead s (⟨s.other, c, a, sib⟩ :: ctx) = a :: (order s sib.toList ++ ahead s ctx) := by
  cases s with
  | left => simp [ahead, order, elemsBefore, Side.other]
  | right => rfl

theorem ahead_of_same {s : Side} {ctx : List (Frame α)} (h : ∀ f ∈ ctx, f.side = s) :
    ahead s ctx = [] := by
  induction ctx with
  | nil => exact ahead_nil s
  | cons f ctx ih =>
      obtain ⟨sf, c, a, sib⟩ := f
      have hsf : sf = s := h _ List.mem_cons_self
      rw [hsf, ahead_cons_same]
      exact ih fun f' hf' => h f' (List.mem_cons_of_mem _ hf')

/-- The outermost node on a side is the first one in the other direction. -/
theorem order_outermost {s : Side} {ctx : List (Frame α)} (h : ∀ f ∈ ctx, f.side = s)
    (t : ColoredTree α) :
    order s.other (plug ctx t).toList = order s.other t.toList ++ ahead s.other ctx := by
  have hnone := ahead_of_same h
  cases s with
  | left =>
      have hbefore : elemsBefore ctx = [] := List.reverse_eq_nil_iff.mp hnone
      simp [order, ahead, toList_plug, Side.other, hbefore]
  | right =>
      have hafter : elemsAfter ctx = [] := hnone
      simp [order, ahead, toList_plug, Side.other, hafter]

/-! ## The rules -/

/-- A tree of this colour and this number of black nodes on each way down. -/
inductive Balanced : Color → Nat → ColoredTree α → Prop where
  | nil : Balanced .black 0 nil
  | red {n : Nat} {l : ColoredTree α} {a : α} {r : ColoredTree α} (hl : Balanced .black n l)
      (hr : Balanced .black n r) : Balanced .red n (node .red l a r)
  | black {c c' : Color} {n : Nat} {l : ColoredTree α} {a : α} {r : ColoredTree α}
      (hl : Balanced c n l) (hr : Balanced c' n r) : Balanced .black (n + 1) (node .black l a r)

/-- A tree of this colour and black height here makes one of black height `h`. -/
inductive Takes (h : Nat) : Color → Nat → List (Frame α) → Prop where
  | root : Takes h .black h []
  | red {n : Nat} {s : Side} {a : α} {sib : ColoredTree α} {ctx : List (Frame α)}
      (hsib : Balanced .black n sib) (hctx : Takes h .red n ctx) :
      Takes h .black n (⟨s, .red, a, sib⟩ :: ctx)
  | black {c c' : Color} {n : Nat} {s : Side} {a : α} {sib : ColoredTree α}
      {ctx : List (Frame α)} (hsib : Balanced c' n sib) (hctx : Takes h .black (n + 1) ctx) :
      Takes h c n (⟨s, .black, a, sib⟩ :: ctx)

section Rules

variable {s : Side} {c c' : Color} {n h : Nat} {t u : ColoredTree α} {a : α}
  {ctx : List (Frame α)}

theorem Balanced.color_eq (ht : Balanced c n t) : t.color = c := by cases ht <;> rfl

theorem Balanced.ne_nil (ht : Balanced .red n t) : t ≠ .nil := by
  intro hnil
  rw [hnil] at ht
  cases ht

theorem Balanced.paint (ht : Balanced c n t) : Balanced c n (t.paint c) := by
  cases ht with
  | nil => exact .nil
  | red hl hr => exact .red hl hr
  | black hl hr => exact .black hl hr

theorem Balanced.joinRed (s : Side) (a : α) (ht : Balanced .black n t)
    (hu : Balanced .black n u) : Balanced .red n (join s .red t a u) := by
  cases s with
  | left => exact .red ht hu
  | right => exact .red hu ht

theorem Balanced.joinBlack (s : Side) (a : α) (ht : Balanced c n t) (hu : Balanced c' n u) :
    Balanced .black (n + 1) (join s .black t a u) := by
  cases s with
  | left => exact .black ht hu
  | right => exact .black hu ht

theorem Balanced.red_cases (s : Side) (ht : Balanced .red n t) :
    ∃ u a v, t = join s .red u a v ∧ Balanced .black n u ∧ Balanced .black n v := by
  cases ht with
  | @red _ l a r hl hr =>
      cases s with
      | left => exact ⟨l, a, r, rfl, hl, hr⟩
      | right => exact ⟨r, a, l, rfl, hr, hl⟩

theorem Balanced.black_cases (s : Side) (ht : Balanced .black (n + 1) t) :
    ∃ u a v c c', t = join s .black u a v ∧ Balanced c n u ∧ Balanced c' n v := by
  cases ht with
  | @black c c' _ l a r hl hr =>
      cases s with
      | left => exact ⟨l, a, r, c, c', rfl, hl, hr⟩
      | right => exact ⟨r, a, l, c', c, rfl, hr, hl⟩

theorem Balanced.blackenRed (ht : Balanced .red n t) :
    Balanced .black (n + 1) (t.paint .black) := by
  cases ht with
  | red hl hr => exact .black hl hr

theorem Takes.black_of (hctx : Takes h c n ctx) : Takes h .black n ctx := by
  cases hctx with
  | root => exact .root
  | red hsib hctx => exact .red hsib hctx
  | black hsib hctx => exact .black hsib hctx

theorem Takes.plug (hctx : Takes h c n ctx) (ht : Balanced c n t) :
    Balanced .black h (plug ctx t) := by
  induction hctx generalizing t with
  | root => exact ht
  | red hsib _ ih => exact ih (ht.joinRed _ _ hsib)
  | black hsib _ ih => exact ih (ht.joinBlack _ _ hsib)

/-- The other way round: what a place of a tree accepts. -/
theorem Takes.of_plug (ht : Balanced .black h (ColoredTree.plug ctx t)) :
    ∃ c n, Takes h c n ctx ∧ Balanced c n t := by
  induction ctx generalizing t with
  | nil => exact ⟨.black, h, .root, ht⟩
  | cons f ctx ih =>
      obtain ⟨c, n, hctx, hfill⟩ := ih ht
      obtain ⟨s, cf, b, sib⟩ := f
      cases cf with
      | red =>
          have hc := hfill.color_eq
          rw [Frame.fill, color_join] at hc
          cases hc
          obtain ⟨u, b', v, heq, hu, hv⟩ := hfill.red_cases s
          cases s with
          | left => cases heq; exact ⟨.black, n, .red hv hctx, hu⟩
          | right => cases heq; exact ⟨.black, n, .red hv hctx, hu⟩
      | black =>
          have hc := hfill.color_eq
          rw [Frame.fill, color_join] at hc
          cases hc
          cases n with
          | zero => cases s <;> cases hfill
          | succ n =>
              obtain ⟨u, b', v, cu, cv, heq, hu, hv⟩ := hfill.black_cases s
              cases s with
              | left => cases heq; exact ⟨cu, n, .black hv hctx, hu⟩
              | right => cases heq; exact ⟨cu, n, .black hv hctx, hu⟩

/-! ## Short ways -/

theorem Balanced.size_ge (ht : Balanced c n t) : 2 ^ n ≤ t.toList.length + 1 := by
  induction ht with
  | nil => exact Nat.le_refl _
  | red hl hr ihl ihr =>
      simp only [toList, List.length_append, List.length_cons]
      omega
  | black hl hr ihl ihr =>
      simp only [toList, List.length_append, List.length_cons, Nat.pow_succ]
      omega

/-- At least every second node on the way is black. -/
theorem Takes.length_add_le (hctx : Takes h c n ctx) :
    ctx.length + 2 * n + (if c = .red then 1 else 0) ≤ 2 * h := by
  induction hctx with
  | root => simp
  | red hsib hctx ih =>
      rw [if_pos rfl] at ih
      rw [if_neg (by decide), List.length_cons]
      omega
  | black hsib hctx ih =>
      rw [if_neg (by decide)] at ih
      rw [List.length_cons]
      split <;> omega

/-- No way down is longer than `k`. -/
def WaysUpTo (k : Nat) (t : ColoredTree α) : Prop :=
  ∀ ctx u, t = ColoredTree.plug ctx u → ctx.length ≤ k

theorem WaysUpTo.length_le {k : Nat} (hk : WaysUpTo k (ColoredTree.plug ctx t)) : ctx.length ≤ k :=
  hk ctx t rfl

theorem WaysUpTo.add_length_le {k : Nat} {ctx' : List (Frame α)}
    (hk : WaysUpTo k (ColoredTree.plug ctx (ColoredTree.plug ctx' t))) :
    ctx'.length + ctx.length ≤ k := by
  rw [← List.length_append]
  exact hk _ t (plug_append ctx' ctx t).symm

/-- The ways are logarithmic in the number of nodes. -/
theorem Balanced.within (ht : Balanced .black h t) :
    WaysUpTo (2 * Nat.log 2 (t.toList.length + 1)) t := by
  rintro ctx u rfl
  obtain ⟨c, n, hctx, -⟩ := Takes.of_plug ht
  have hlen := hctx.length_add_le
  have hlog : h ≤ Nat.log 2 ((ColoredTree.plug ctx u).toList.length + 1) :=
    Nat.le_log_of_pow_le (by decide) ht.size_ge
  omega

end Rules

end ColoredTree

end Smalltable
