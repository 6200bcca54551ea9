import Mathlib.Data.List.Sort

/-!
# Names that match a pattern

Patterns as in POSIX, in its locale: `*`, `?`, a bracket expression, and a
backslash in front of a character that is meant as such. A bracket that is not
closed is a character like any other. A name that begins with a dot is only matched
by a pattern that does.

A path matches when it has as many names as the pattern and each matches its own.
-/

namespace Smalltable

/-! ## Names of a path -/

section Names

variable {α : Type} [DecidableEq α]

def splitNames (sep : α) : List α → List (List α)
  | [] => [[]]
  | c :: rest =>
      if c = sep then [] :: splitNames sep rest
      else
        match splitNames sep rest with
        | [] => [[c]]
        | name :: names => (c :: name) :: names

theorem splitNames_ne_nil (sep : α) (p : List α) : splitNames sep p ≠ [] := by
  cases p with
  | nil => exact List.cons_ne_nil _ _
  | cons c rest =>
      rw [splitNames]
      split
      · exact List.cons_ne_nil _ _
      · split
        · exact List.cons_ne_nil _ _
        · exact List.cons_ne_nil _ _

theorem splitNames_name {sep : α} {name : List α} (h : sep ∉ name) :
    splitNames sep name = [name] := by
  induction name with
  | nil => rfl
  | cons c rest ih =>
      obtain ⟨hc, hrest⟩ := not_or.mp (fun hor => h (List.mem_cons.mpr hor))
      rw [splitNames, if_neg (Ne.symm hc), ih hrest]

theorem splitNames_append (sep : α) {name : List α} (h : sep ∉ name) (p : List α) :
    splitNames sep (p ++ sep :: name) = splitNames sep p ++ [name] := by
  induction p with
  | nil =>
      have hname := splitNames_name h
      simp [splitNames, hname]
  | cons c rest ih =>
      rw [List.cons_append, splitNames, splitNames, ih]
      split
      · rfl
      · cases hsplit : splitNames sep rest with
        | nil => exact absurd hsplit (splitNames_ne_nil sep rest)
        | cons name names => rfl

theorem length_splitNames (sep : α) (p : List α) :
    (splitNames sep p).length = p.count sep + 1 := by
  induction p with
  | nil => rfl
  | cons c rest ih =>
      rw [splitNames]
      split
      · next hc =>
          rw [hc, List.length_cons, ih, List.count_cons_self]
      · next hc =>
          rw [List.count_cons_of_ne hc, ← ih]
          cases hsplit : splitNames sep rest with
          | nil => exact absurd hsplit (splitNames_ne_nil sep rest)
          | cons name names => rfl

end Names

/-! ## Patterns -/

inductive PatItem where
  | one (c : UInt8)
  | any
  | star
  | set (neg : Bool) (ranges : List (UInt8 × UInt8))
  /-- a backslash with nothing behind it -/
  | never
  deriving DecidableEq

def PatItem.accepts : PatItem → UInt8 → Bool
  | .one d, c => c = d
  | .any, _ => true
  | .star, _ => true
  | .set neg ranges, c => (ranges.any fun r => r.1 ≤ c ∧ c ≤ r.2) != neg
  | .never, _ => false

/-! ### Brackets -/

/-- The characters of a class such as `[:alpha:]`. -/
def classRanges (name : List UInt8) : Option (List (UInt8 × UInt8)) :=
  [("alnum", [(0x30, 0x39), (0x41, 0x5A), (0x61, 0x7A)]), ("alpha", [(0x41, 0x5A), (0x61, 0x7A)]),
    ("blank", [(0x09, 0x09), (0x20, 0x20)]), ("cntrl", [(0x00, 0x1F), (0x7F, 0x7F)]),
    ("digit", [(0x30, 0x39)]), ("graph", [(0x21, 0x7E)]), ("lower", [(0x61, 0x7A)]),
    ("print", [(0x20, 0x7E)]), ("punct", [(0x21, 0x2F), (0x3A, 0x40), (0x5B, 0x60), (0x7B, 0x7E)]),
    ("space", [(0x09, 0x0D), (0x20, 0x20)]), ("upper", [(0x41, 0x5A)]),
    ("xdigit", [(0x30, 0x39), (0x41, 0x46), (0x61, 0x66)])].lookup
      (String.ofList (name.map fun c => Char.ofNat c.toNat))

/-- What stands between `[` with a mark and the mark with `]`. -/
def parseMarked (mark : UInt8) : List UInt8 → List UInt8 → Option (List UInt8 × List UInt8)
  | [], _ => none
  | c :: rest, name =>
      if c = mark ∧ rest.head? = some 0x5D then some (name, rest.drop 1)
      else parseMarked mark rest (name ++ [c])

/-- A class, or a character: as it is, behind a backslash, or between `[.` and `.]`
or `[=` and `=]`. -/
def parseElem : List UInt8 → Option ((List (UInt8 × UInt8) ⊕ UInt8) × List UInt8)
  | [] => none
  | [0x5C] => none
  | 0x5C :: c :: rest => some (.inr c, rest)
  | 0x5B :: mark :: rest =>
      if mark = 0x3A ∨ mark = 0x2E ∨ mark = 0x3D then
        match parseMarked mark rest [] with
        | none => some (.inr 0x5B, mark :: rest)
        | some (name, rest) =>
            if mark = 0x3A then (classRanges name).map fun ranges => (.inl ranges, rest)
            else
              match name with
              | [c] => some (.inr c, rest)
              | _ => none
      else some (.inr 0x5B, mark :: rest)
  | c :: rest => some (.inr c, rest)

/-- The elements up to the closing bracket, which is not the first of them, and
what comes after. -/
def parseSet : Nat → Bool → List UInt8 → Option (List (UInt8 × UInt8) × List UInt8)
  | 0, _, _ => none
  | n + 1, first, s =>
      if ¬ first ∧ s.head? = some 0x5D then some ([], s.drop 1)
      else
        match parseElem s with
        | none => none
        | some (.inl ranges, rest) =>
            (parseSet n false rest).map fun r => (ranges ++ r.1, r.2)
        | some (.inr c, rest) =>
            if rest.head? = some 0x2D ∧ (rest.drop 1).head? ≠ some 0x5D then
              match parseElem (rest.drop 1) with
              | some (.inr d, rest) => (parseSet n false rest).map fun r => ((c, d) :: r.1, r.2)
              | _ => none
            else (parseSet n false rest).map fun r => ((c, c) :: r.1, r.2)

def parseBracket (s : List UInt8) : Option (PatItem × List UInt8) :=
  let neg := s.head? = some 0x21 ∨ s.head? = some 0x5E
  (parseSet (s.length + 1) true (if neg then s.drop 1 else s)).map fun r => (.set neg r.1, r.2)

/-! ### Patterns and names -/

def parsePattern : Nat → List UInt8 → List PatItem
  | 0, _ => []
  | _ + 1, [] => []
  | n + 1, c :: rest =>
      if c = 0x2A then .star :: parsePattern n rest
      else if c = 0x3F then .any :: parsePattern n rest
      else if c = 0x5C then
        match rest with
        | [] => [.never]
        | d :: rest => .one d :: parsePattern n rest
      else if c = 0x5B then
        match parseBracket rest with
        | some (item, rest) => item :: parsePattern n rest
        | none => .one c :: parsePattern n rest
      else .one c :: parsePattern n rest

def matchItems : List PatItem → List UInt8 → Bool
  | [], s => s.isEmpty
  | .star :: items, s => (List.range (s.length + 1)).any fun i => matchItems items (s.drop i)
  | _ :: _, [] => false
  | item :: items, c :: s => item.accepts c && matchItems items s

def fnmatch (pattern name : List UInt8) : Bool :=
  let items := parsePattern pattern.length pattern
  (name.head? ≠ some 0x2E ∨ items.head? = some (.one 0x2E)) && matchItems items name

def matchNames : List (List UInt8) → List (List UInt8) → Bool
  | [], [] => true
  | pattern :: patterns, name :: names => fnmatch pattern name && matchNames patterns names
  | _, _ => false

def pathMatch (sep : UInt8) (pattern path : List UInt8) : Bool :=
  matchNames (splitNames sep pattern) (splitNames sep path)

/-- `glob` over the paths there are: those that match, in the order of
`strcmp`. -/
def globPaths (sep : UInt8) (paths : List (List UInt8)) (pattern : List UInt8) :
    List (List UInt8) :=
  (paths.filter (pathMatch sep pattern)).insertionSort (· ≤ ·)

theorem mem_globPaths {sep : UInt8} {paths : List (List UInt8)} {pattern p : List UInt8} :
    p ∈ globPaths sep paths pattern ↔ p ∈ paths ∧ pathMatch sep pattern p = true := by
  rw [globPaths, List.mem_insertionSort, List.mem_filter]

/-- Nothing is found twice, and what is found is sorted. -/
theorem nodup_globPaths (sep : UInt8) {paths : List (List UInt8)} (h : paths.Nodup)
    (pattern : List UInt8) : (globPaths sep paths pattern).Nodup :=
  (List.perm_insertionSort _ _).nodup_iff.mpr (h.filter _)

theorem globPaths_sorted (sep : UInt8) {paths : List (List UInt8)} (h : paths.Nodup)
    (pattern : List UInt8) : (globPaths sep paths pattern).Pairwise (· < ·) := by
  have hsorted := List.pairwise_insertionSort (· ≤ ·) (paths.filter (pathMatch sep pattern))
  exact (hsorted.and (nodup_globPaths sep h pattern)).imp fun h => Std.lt_of_le_of_ne h.1 h.2

theorem matchNames_append : ∀ (ps ns : List (List UInt8)) (p n : List UInt8),
    matchNames (ps ++ [p]) (ns ++ [n]) = (matchNames ps ns && fnmatch p n) := by
  intro ps
  induction ps with
  | nil =>
      intro ns p n
      cases ns with
      | nil => simp [matchNames]
      | cons n' ns => cases ns <;> simp [matchNames]
  | cons p' ps ih =>
      intro ns p n
      cases ns with
      | nil => cases ps <;> simp [matchNames]
      | cons n' ns =>
          rw [List.cons_append, List.cons_append, matchNames, ih, matchNames, Bool.and_assoc]

/-- A pattern for the last name decides among the paths below a directory. -/
theorem pathMatch_append {sep : UInt8} {pattern name : List UInt8} (hp : sep ∉ pattern)
    (hn : sep ∉ name) (p q : List UInt8) :
    pathMatch sep (p ++ sep :: pattern) (q ++ sep :: name)
      = (pathMatch sep p q && fnmatch pattern name) := by
  rw [pathMatch, splitNames_append sep hp, splitNames_append sep hn, matchNames_append]
  rfl

theorem length_of_matchNames : ∀ {ps ns : List (List UInt8)}, matchNames ps ns = true →
    ps.length = ns.length := by
  intro ps
  induction ps with
  | nil => intro ns h; cases ns <;> simp_all [matchNames]
  | cons p ps ih =>
      intro ns h
      cases ns with
      | nil => simp [matchNames] at h
      | cons n ns =>
          rw [matchNames, Bool.and_eq_true] at h
          rw [List.length_cons, List.length_cons, ih h.2]

/-- A path that matches is as deep as the pattern. -/
theorem count_of_pathMatch {sep : UInt8} {pattern path : List UInt8}
    (h : pathMatch sep pattern path = true) : pattern.count sep = path.count sep := by
  have hlen := length_of_matchNames h
  rw [length_splitNames, length_splitNames] at hlen
  omega

/-! ## Patterns that are easy to read -/

theorem parseMarked_rest {mark : UInt8} : ∀ {s name name' rest : List UInt8},
    parseMarked mark s name = some (name', rest) → rest ⊆ s := by
  intro s
  induction s with
  | nil => intro name name' rest h; cases h
  | cons c s ih =>
      intro name name' rest h
      rw [parseMarked] at h
      split at h
      · cases h
        exact fun d hd => List.mem_cons_of_mem c ((List.drop_sublist 1 s).subset hd)
      · exact fun d hd => List.mem_cons_of_mem c (ih h hd)

theorem parseElem_rest {s rest : List UInt8} {x : List (UInt8 × UInt8) ⊕ UInt8}
    (h : parseElem s = some (x, rest)) : rest ⊆ s := by
  unfold parseElem at h
  split at h
  · cases h
  · cases h
  · cases h
    exact fun d hd => List.mem_cons_of_mem _ (List.mem_cons_of_mem _ hd)
  · next mark s' =>
      split at h
      · split at h
        · cases h
          exact fun d hd => List.mem_cons_of_mem _ hd
        · next name rest' hmarked =>
            have hsub : rest' ⊆ 0x5B :: mark :: s' := fun d hd =>
              List.mem_cons_of_mem _ (List.mem_cons_of_mem _ (parseMarked_rest hmarked hd))
            split at h
            · obtain ⟨ranges, -, heq⟩ := Option.map_eq_some_iff.mp h
              cases heq
              exact hsub
            · split at h
              · cases h
                exact hsub
              · cases h
      · cases h
        exact fun d hd => List.mem_cons_of_mem _ hd
  · cases h
    exact fun d hd => List.mem_cons_of_mem _ hd

/-- Without a closing bracket there is no bracket expression. -/
theorem parseSet_unclosed : ∀ (n : Nat) (first : Bool) {s : List UInt8}, 0x5D ∉ s →
    parseSet n first s = none := by
  intro n
  induction n with
  | zero => intro first s _; rfl
  | succ n ih =>
      intro first s hs
      have hhead : s.head? ≠ some 0x5D := fun h => hs (List.mem_of_head? h)
      rw [parseSet, if_neg fun h => hhead h.2]
      cases helem : parseElem s with
      | none => rfl
      | some r =>
          obtain ⟨x, rest⟩ := r
          have hrest : 0x5D ∉ rest := fun h => hs (parseElem_rest helem h)
          cases x with
          | inl ranges => simp only [ih false hrest, Option.map_none]
          | inr c =>
              simp only [ih false hrest, Option.map_none]
              split
              · cases hnext : parseElem (rest.drop 1) with
                | none => rfl
                | some r =>
                    obtain ⟨y, rest'⟩ := r
                    have hrest' : 0x5D ∉ rest' := fun h =>
                      hrest ((List.drop_sublist 1 rest).subset (parseElem_rest hnext h))
                    cases y with
                    | inl ranges => rfl
                    | inr d => simp only [ih false hrest', Option.map_none]
              · rfl

theorem parseBracket_unclosed {s : List UInt8} (h : 0x5D ∉ s) : parseBracket s = none := by
  have hinner : 0x5D ∉ (if s.head? = some 0x21 ∨ s.head? = some 0x5E then s.drop 1 else s) := by
    split
    · exact fun hmem => h ((List.drop_sublist 1 s).subset hmem)
    · exact h
  simp only [parseBracket, parseSet_unclosed _ _ hinner, Option.map_none]

/-- Nothing means something else: no star, no question mark, no backslash, and no
bracket that is closed. -/
structure LiteralPattern (s : List UInt8) : Prop where
  chars : ∀ c ∈ s, c ≠ 0x2A ∧ c ≠ 0x3F ∧ c ≠ 0x5C
  brackets : ¬ [0x5B, 0x5D].Sublist s

theorem LiteralPattern.of_sublist {s t : List UInt8} (h : LiteralPattern t) (hsub : s.Sublist t) :
    LiteralPattern s :=
  ⟨fun c hc => h.chars c (hsub.subset hc), fun hin => h.brackets (hin.trans hsub)⟩

theorem parsePattern_literal : ∀ {n : Nat} {s : List UInt8}, s.length ≤ n → LiteralPattern s →
    parsePattern n s = s.map .one := by
  intro n
  induction n with
  | zero =>
      intro s h _
      rw [List.eq_nil_of_length_eq_zero (Nat.le_zero.mp h)]
      rfl
  | succ n ih =>
      intro s h hlit
      cases s with
      | nil => rfl
      | cons c rest =>
          obtain ⟨h1, h2, h3⟩ := hlit.chars c List.mem_cons_self
          have hrest := ih (Nat.le_of_succ_le_succ h)
              (hlit.of_sublist (List.sublist_cons_self c rest))
          simp only [parsePattern, if_neg h1, if_neg h2, if_neg h3, hrest, List.map_cons]
          by_cases h4 : c = 0x5B
          · subst h4
            have hopen : 0x5D ∉ rest := fun hin =>
              hlit.brackets (List.cons_sublist_cons.mpr (List.singleton_sublist.mpr hin))
            rw [if_pos rfl, parseBracket_unclosed hopen]
          · rw [if_neg h4]

/-- Without a character that means something else. -/
def PlainPattern (s : List UInt8) : Prop := ∀ c ∈ s, c ≠ 0x2A ∧ c ≠ 0x3F ∧ c ≠ 0x5C ∧ c ≠ 0x5B

theorem PlainPattern.literal {s : List UInt8} (h : PlainPattern s) : LiteralPattern s where
  chars c hc := ⟨(h c hc).1, (h c hc).2.1, (h c hc).2.2.1⟩
  brackets hin := (h 0x5B (hin.subset List.mem_cons_self)).2.2.2 rfl

theorem matchItems_one : ∀ (s name : List UInt8),
    matchItems (s.map .one) name = decide (name = s) := by
  intro s
  induction s with
  | nil => intro name; cases name <;> rfl
  | cons c rest ih =>
      intro name
      cases name with
      | nil => rfl
      | cons d name =>
          rw [List.map_cons, matchItems, ih name]
          · simp [PatItem.accepts, List.cons.injEq]
          · exact nofun

theorem fnmatch_literal {s : List UInt8} (h : LiteralPattern s) (name : List UInt8) :
    fnmatch s name = decide (name = s) := by
  rw [fnmatch, parsePattern_literal (Nat.le_refl _) h, matchItems_one]
  by_cases hname : name = s
  · subst hname
    cases name with
    | nil => rfl
    | cons c rest => simp
  · simp [hname]

theorem fnmatch_plain {s : List UInt8} (h : PlainPattern s) (name : List UInt8) :
    fnmatch s name = decide (name = s) := fnmatch_literal h.literal name

theorem splitNames_sublist {sep : UInt8} : ∀ {s name : List UInt8},
    name ∈ splitNames sep s → name.Sublist s := by
  intro s
  induction s with
  | nil =>
      intro name h
      rw [splitNames, List.mem_singleton] at h
      rw [h]
  | cons c rest ih =>
      intro name h
      rw [splitNames] at h
      split at h
      · rcases List.mem_cons.mp h with rfl | h
        · exact List.nil_sublist _
        · exact (ih h).cons c
      · split at h
        · next hnil => exact absurd hnil (splitNames_ne_nil sep rest)
        · next first names hsplit =>
            have hmem : ∀ n ∈ first :: names, n.Sublist rest := fun n hn => ih (hsplit ▸ hn)
            rcases List.mem_cons.mp h with rfl | h
            · exact (hmem first List.mem_cons_self).cons_cons c
            · exact (hmem name (List.mem_cons_of_mem first h)).cons c

/-- The names of a path say what the path is. -/
theorem splitNames_inj {sep : UInt8} : ∀ {s t : List UInt8},
    splitNames sep s = splitNames sep t → s = t := by
  intro s
  induction s with
  | nil =>
      intro t h
      cases t with
      | nil => rfl
      | cons d t =>
          rw [splitNames, splitNames] at h
          split at h
          · exact absurd (List.cons.inj h).2.symm (splitNames_ne_nil sep t)
          · split at h
            · cases (List.cons.inj h).1
            · cases (List.cons.inj h).1
  | cons c s ih =>
      intro t h
      cases t with
      | nil =>
          rw [splitNames, splitNames] at h
          split at h
          · exact absurd (List.cons.inj h).2 (splitNames_ne_nil sep s)
          · split at h
            · cases (List.cons.inj h).1
            · cases (List.cons.inj h).1
      | cons d t =>
          rw [splitNames, splitNames] at h
          obtain ⟨a, as, hs⟩ := List.exists_cons_of_ne_nil (splitNames_ne_nil sep s)
          obtain ⟨b, bs, ht⟩ := List.exists_cons_of_ne_nil (splitNames_ne_nil sep t)
          simp only [hs, ht] at h
          by_cases hc : c = sep
          · by_cases hd : d = sep
            · rw [if_pos hc, if_pos hd] at h
              rw [hc, hd, ih (hs.trans ((List.cons.inj h).2.trans ht.symm))]
            · rw [if_pos hc, if_neg hd] at h
              cases (List.cons.inj h).1
          · by_cases hd : d = sep
            · rw [if_neg hc, if_pos hd] at h
              cases (List.cons.inj h).1
            · rw [if_neg hc, if_neg hd] at h
              obtain ⟨hfirst, hnames⟩ := List.cons.inj h
              obtain ⟨rfl, rfl⟩ := List.cons.inj hfirst
              rw [ih (hs.trans (hnames ▸ ht.symm))]

theorem matchNames_literal : ∀ {ps ns : List (List UInt8)}, (∀ p ∈ ps, LiteralPattern p) →
    matchNames ps ns = decide (ns = ps) := by
  intro ps
  induction ps with
  | nil => intro ns _; cases ns <;> rfl
  | cons p ps ih =>
      intro ns h
      cases ns with
      | nil => rfl
      | cons n ns =>
          rw [matchNames, fnmatch_literal (h p List.mem_cons_self),
            ih fun q hq => h q (List.mem_cons_of_mem p hq)]
          simp [List.cons.injEq]

/-- It matches the path it is, and no other. -/
theorem pathMatch_literal {sep : UInt8} {pattern : List UInt8} (h : LiteralPattern pattern)
    (path : List UInt8) : pathMatch sep pattern path = decide (path = pattern) := by
  rw [pathMatch, matchNames_literal fun p hp => h.of_sublist (splitNames_sublist hp)]
  refine decide_eq_decide.mpr ⟨splitNames_inj, fun heq => by rw [heq]⟩

theorem globPaths_literal {sep : UInt8} {pattern : List UInt8} (h : LiteralPattern pattern)
    {paths : List (List UInt8)} (hnodup : paths.Nodup) :
    globPaths sep paths pattern = if pattern ∈ paths then [pattern] else [] := by
  have hfilter : paths.filter (pathMatch sep pattern) = paths.filter (· == pattern) :=
    List.filter_congr fun p _ => by rw [pathMatch_literal h, beq_eq_decide]
  rw [globPaths, hfilter, List.filter_beq]
  split
  · next hin => rw [List.count_eq_one_of_mem hnodup hin]; rfl
  · next hno => rw [List.count_eq_zero_of_not_mem hno]; rfl

theorem fnmatch_star {name : List UInt8} (h : name.head? ≠ some 0x2E) :
    fnmatch [0x2A] name = true := by
  have hitems : parsePattern 1 [0x2A] = [.star] := rfl
  have hmatch : matchItems [.star] name = true := by
    rw [matchItems, List.any_eq_true]
    exact ⟨name.length, List.mem_range.mpr (Nat.lt_succ_self _), by simp [matchItems]⟩
  simp only [fnmatch, List.length_singleton, hitems, hmatch, Bool.and_true]
  simp [h]

/-- Without a star, a name has one character for each item. -/
theorem matchItems_noStar : ∀ {items : List PatItem} {s : List UInt8}, PatItem.star ∉ items →
    matchItems items s = true →
      items.length = s.length ∧ ∀ c, PatItem.one c ∈ items → c ∈ s := by
  intro items
  induction items with
  | nil =>
      intro s _ h
      cases s with
      | nil => exact ⟨rfl, nofun⟩
      | cons c s => simp [matchItems] at h
  | cons item items ih =>
      intro s hstar h
      obtain ⟨hitem, hrest⟩ := not_or.mp fun hor => hstar (List.mem_cons.mpr hor)
      cases s with
      | nil => cases item <;> simp_all [matchItems]
      | cons c s =>
          rw [matchItems.eq_4 _ _ _ _ (fun heq => hitem heq.symm), Bool.and_eq_true] at h
          obtain ⟨hlen, hone⟩ := ih hrest h.2
          refine ⟨by rw [List.length_cons, List.length_cons, hlen], fun d hd => ?_⟩
          rcases List.mem_cons.mp hd with heq | hd
          · rw [← heq, PatItem.accepts, decide_eq_true_eq] at h
            rw [h.1]
            exact List.mem_cons_self
          · exact List.mem_cons_of_mem _ (hone d hd)

end Smalltable
