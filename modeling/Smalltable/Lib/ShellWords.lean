import Smalltable.Lib.Bytes
import Smalltable.Lib.Glob

/-!
# The tokens of a shell command

Token recognition as POSIX has it, on a text with holes: blanks and operators separate
words, except in quotes, in a command substitution and in braces behind a dollar; a hash
that begins a word begins a comment.

A string without special characters in a hole outside all quotes changes nothing around
it. The tokens are those of the text with the holes, and the string is a part of the
word its hole is in.

Expansions come afterwards, and what they make of a word can depend on anything: the
files there are, the users there are, the shell. What they all keep to is that a word is
left as it is in which nothing asks for an expansion (`Literal`): nothing special, no
tilde in front, and no bracket or brace that is closed. An `Expansion` is whatever keeps
to this, and pathname expansion is one, with any files (`pathnameExpansion`).
-/

namespace Smalltable.Shell

/-- A character, or a hole for a string. -/
inductive Sym (ι : Type) where
  | chr (c : UInt8)
  | hole (i : ι)
  deriving DecidableEq

inductive Token (ι : Type) where
  | word (w : List (Sym ι))
  | operator (c : UInt8)
  | blank
  deriving DecidableEq

/-- What has been opened and not closed. -/
inductive Opened where
  | single | double | backquote | paren | brace | comment
  deriving DecidableEq

def closer : Opened → Option UInt8
  | .single => some 0x27
  | .double => some 0x22
  | .backquote => some 0x60
  | .paren => some 0x29
  | .brace => some 0x7D
  | .comment => none

def operators : Bytes := ascii "|&;<>()\n"

/-- The characters that are special somewhere in a word. -/
def special : Bytes := ascii "|&;<>()$`\\\"'*? \t\n"

/-- The characters that ask for an expansion when they are closed. -/
def brackets : Bytes := ascii "[]{}"

structure Lexer (ι : Type) where
  /-- from the innermost on -/
  opened : List Opened := []
  /-- behind a backslash -/
  escaped : Bool := false
  /-- behind a dollar -/
  dollar : Bool := false
  word : Option (List (Sym ι)) := none
  done : List (Token ι) := []

namespace Lexer

variable {ι : Type}

def part (l : Lexer ι) (s : Sym ι) : Lexer ι :=
  { l with escaped := false, dollar := false, word := some (l.word.getD [] ++ [s]) }

/-- The tokens, if this is the end. -/
def tokens (l : Lexer ι) : List (Token ι) := l.done ++ l.word.toList.map .word

def separate (l : Lexer ι) (t : Token ι) : Lexer ι := { done := l.tokens ++ [t] }

/-- What is open behind a character of a word. -/
def opens (l : Lexer ι) (c : UInt8) : List Opened :=
  let top := l.opened.head?
  if top.bind closer = some c then l.opened.tail
  else if top = some .single then l.opened
  else if c = 0x27 ∧ top ≠ some .double then .single :: l.opened
  else if c = 0x22 then .double :: l.opened
  else if c = 0x60 then .backquote :: l.opened
  else if c = 0x28 ∧ (l.dollar ∨ top = some .paren) then .paren :: l.opened
  else if c = 0x7B ∧ l.dollar then .brace :: l.opened
  else l.opened

/-- A character that is part of a word. -/
def keep (l : Lexer ι) (c : UInt8) : Lexer ι :=
  { l.part (.chr c) with
    opened := l.opens c
    escaped := c = 0x5C ∧ l.opened.head? ≠ some .single
    dollar := c = 0x24 ∧ l.opened.head? ≠ some .single }

def chr (l : Lexer ι) (c : UInt8) : Lexer ι :=
  if l.escaped then l.part (.chr c)
  else
    match l.opened with
    | [] =>
        if c = 0x23 ∧ l.word = none then { l with opened := [.comment] }
        else if c = 0x20 ∨ c = 0x09 then l.separate .blank
        else if c ∈ operators ∧ ¬ (c = 0x28 ∧ l.dollar) then l.separate (.operator c)
        else l.keep c
    | .comment :: _ => if c = 0x0A then l.separate (.operator c) else l
    | _ => l.keep c

def step (l : Lexer ι) : Sym ι → Lexer ι
  | .chr c => l.chr c
  | .hole i => l.part (.hole i)

def run (l : Lexer ι) (t : List (Sym ι)) : Lexer ι := t.foldl step l

/-- Outside all quotes. -/
structure Plain (l : Lexer ι) : Prop where
  opened : l.opened = []
  escaped : l.escaped = false
  dollar : l.dollar = false

instance (l : Lexer ι) : Decidable l.Plain :=
  decidable_of_iff (l.opened = [] ∧ l.escaped = false ∧ l.dollar = false)
    ⟨fun h => ⟨h.1, h.2.1, h.2.2⟩, fun h => ⟨h.opened, h.escaped, h.dollar⟩⟩

/-- Every hole is outside all quotes. -/
def plainHoles (l : Lexer ι) : List (Sym ι) → Bool
  | [] => true
  | .chr c :: rest => plainHoles (l.chr c) rest
  | .hole i :: rest => decide l.Plain && plainHoles (l.part (.hole i)) rest

end Lexer

section Fill

variable {ι : Type}

def tokens (t : List (Sym ι)) : List (Token ι) := (Lexer.run {} t).tokens

def text (s : Bytes) : List (Sym ι) := s.map .chr

variable (v : ι → Bytes)

def Sym.fill : Sym ι → Bytes
  | .chr c => [c]
  | .hole i => v i

/-- The string that a text with holes becomes. -/
def fill (t : List (Sym ι)) : Bytes := t.flatMap (Sym.fill v)

def Token.fill : Token ι → Token ι
  | .word w => .word (text (Shell.fill v w))
  | .operator c => .operator c
  | .blank => .blank

def Lexer.fill (l : Lexer ι) : Lexer ι :=
  { l with word := l.word.map fun w => text (Shell.fill v w), done := l.done.map (Token.fill v) }

/-- A string that is a word, or a part of one, wherever it is put. -/
structure Inert (s : Bytes) : Prop where
  nonempty : s ≠ []
  free : ∀ c ∈ s, c ∉ special
  start : s.head? ≠ some 0x23

/-! ## Filling a hole -/

variable {v} {l : Lexer ι}

theorem fill_append (t u : List (Sym ι)) : fill v (t ++ u) = fill v t ++ fill v u :=
  List.flatMap_append

theorem text_append (s t : Bytes) : (text (s ++ t) : List (Sym ι)) = text s ++ text t :=
  List.map_append

theorem Lexer.tokens_fill : (l.fill v).tokens = l.tokens.map (Token.fill v) := by
  rw [Lexer.tokens, Lexer.tokens, List.map_append]
  cases hw : l.word with
  | none => simp [Lexer.fill, hw]
  | some w => simp [Lexer.fill, hw, Token.fill]

theorem Lexer.part_fill (c : UInt8) : (l.fill v).part (.chr c) = (l.part (.chr c)).fill v := by
  have hword : ∀ w : List (Sym ι), text (Shell.fill v w) ++ [.chr c]
      = (text (Shell.fill v (w ++ [.chr c])) : List (Sym ι)) := by
    intro w
    rw [fill_append, text_append]
    rfl
  cases hw : l.word with
  | none => simp [Lexer.part, Lexer.fill, hw, Shell.fill, Sym.fill, text]
  | some w => simp [Lexer.part, Lexer.fill, hw, hword]

theorem Lexer.separate_fill {t : Token ι} (ht : t.fill v = t) :
    (l.fill v).separate t = (l.separate t).fill v := by
  rw [Lexer.separate, Lexer.separate, Lexer.tokens_fill]
  simp [Lexer.fill, ht]

theorem Lexer.keep_fill (c : UInt8) : (l.fill v).keep c = (l.keep c).fill v := by
  rw [Lexer.keep, Lexer.keep, Lexer.part_fill]
  rfl

/-- What a character does is decided by what is open, and by whether there is a word. -/
theorem Lexer.chr_fill (c : UInt8) : (l.fill v).chr c = (l.chr c).fill v := by
  have hnone : (l.fill v).word = none ↔ l.word = none := Option.map_eq_none_iff
  rw [Lexer.chr, Lexer.chr]
  show (if l.escaped then _ else match l.opened with | [] => _ | .comment :: _ => _ | _ => _) = _
  by_cases hesc : l.escaped
  · rw [if_pos hesc, if_pos hesc, Lexer.part_fill]
  · rw [if_neg hesc, if_neg hesc]
    match l.opened with
    | [] =>
        simp only [hnone]
        by_cases hhash : c = 0x23 ∧ l.word = none
        · rw [if_pos hhash, if_pos hhash]
          rfl
        · rw [if_neg hhash, if_neg hhash]
          by_cases hblank : c = 0x20 ∨ c = 0x09
          · rw [if_pos hblank, if_pos hblank, Lexer.separate_fill rfl]
          · rw [if_neg hblank, if_neg hblank]
            by_cases hop : c ∈ operators ∧ ¬ (c = 0x28 ∧ l.dollar)
            · have hop' : c ∈ operators ∧ ¬ (c = 0x28 ∧ (l.fill v).dollar) := hop
              rw [if_pos hop, if_pos hop', Lexer.separate_fill rfl]
            · have hop' : ¬ (c ∈ operators ∧ ¬ (c = 0x28 ∧ (l.fill v).dollar)) := hop
              rw [if_neg hop, if_neg hop', Lexer.keep_fill]
    | .comment :: _ =>
        simp only []
        by_cases hline : c = 0x0A
        · rw [if_pos hline, if_pos hline, Lexer.separate_fill rfl]
        · rw [if_neg hline, if_neg hline]
    | .single :: _ => exact Lexer.keep_fill c
    | .double :: _ => exact Lexer.keep_fill c
    | .backquote :: _ => exact Lexer.keep_fill c
    | .paren :: _ => exact Lexer.keep_fill c
    | .brace :: _ => exact Lexer.keep_fill c

theorem Lexer.Plain.part (h : l.Plain) (s : Sym ι) : (l.part s).Plain := ⟨h.opened, rfl, rfl⟩

/-- An ordinary character outside all quotes. -/
theorem Lexer.Plain.chr (h : l.Plain) {c : UInt8} (hc : c ∉ special)
    (hstart : l.word = none → c ≠ 0x23) : l.chr c = l.part (.chr c) := by
  have hne : ∀ d ∈ special, c ≠ d := fun d hd heq => hc (heq ▸ hd)
  have hop : c ∉ operators := fun hmem => hne c ((by decide : operators ⊆ special) hmem) rfl
  have hopens : l.opens c = [] := by
    simp [Lexer.opens, h.opened, h.dollar, hne 0x27 (by decide), hne 0x22 (by decide),
      hne 0x60 (by decide)]
  rw [Lexer.chr, if_neg (by simp [h.escaped])]
  simp only [h.opened]
  rw [if_neg (fun hhash => hstart hhash.2 hhash.1),
    if_neg (not_or.mpr ⟨hne 0x20 (by decide), hne 0x09 (by decide)⟩), if_neg (fun h => hop h.1),
    Lexer.keep, hopens]
  simp [Lexer.part, h.opened, hne 0x5C (by decide), hne 0x24 (by decide)]

/-- More of them, in a word. -/
theorem Lexer.Plain.run_text : ∀ {s : Bytes} {l : Lexer ι} {w : List (Sym ι)}, l.Plain →
    l.word = some w → (∀ c ∈ s, c ∉ special) →
      l.run (text s) = { l with word := some (w ++ text s) } := by
  intro s
  induction s with
  | nil =>
      intro l w _ hw _
      rw [text, List.map_nil, List.append_nil, ← hw]
      rfl
  | cons c s ih =>
      intro l w h hw hfree
      have hc := h.chr (hfree c List.mem_cons_self) (by simp [hw])
      have hpart : (l.part (.chr c)).word = some (w ++ [.chr c]) := by simp [Lexer.part, hw]
      have hrest := ih (h.part (.chr c)) hpart fun d hd => hfree d (List.mem_cons_of_mem _ hd)
      show (l.chr c).run (text s) = _
      rw [hc, hrest]
      simp [Lexer.part, h.escaped, h.dollar, text]

theorem Lexer.Plain.run_fill (h : l.Plain) {i : ι} (hv : Inert (v i)) :
    (l.fill v).run (text (v i)) = (l.part (.hole i)).fill v := by
  obtain ⟨hne, hfree, hstart⟩ := hv
  obtain ⟨c, s, hs⟩ := List.exists_cons_of_ne_nil hne
  rw [hs] at hfree hstart
  have hplain : (l.fill v).Plain := ⟨h.opened, h.escaped, h.dollar⟩
  have hc := hplain.chr (hfree c List.mem_cons_self) fun _ heq => hstart (by rw [heq]; rfl)
  have hrest := (hplain.part (.chr c)).run_text rfl fun d hd => hfree d (List.mem_cons_of_mem _ hd)
  rw [hs]
  show ((l.fill v).chr c).run (text s) = _
  rw [hc, hrest]
  cases hw : l.word with
  | none => simp [Lexer.part, Lexer.fill, hw, Shell.fill, Sym.fill, hs, text]
  | some w => simp [Lexer.part, Lexer.fill, hw, Shell.fill, Sym.fill, hs, text]

/-- The tokens of a text with its holes filled, if all holes are outside quotes. -/
theorem Lexer.run_fill : ∀ {t : List (Sym ι)} {l : Lexer ι}, l.plainHoles t →
    (∀ i, .hole i ∈ t → Inert (v i)) →
      (l.fill v).run (text (Shell.fill v t)) = (l.run t).fill v := by
  intro t
  induction t with
  | nil => intro l _ _; rfl
  | cons s rest ih =>
      intro l h hv
      have hrest := fun i hi => hv i (List.mem_cons_of_mem _ hi)
      cases s with
      | chr c =>
          show ((l.fill v).chr c).run (text (Shell.fill v rest)) = _
          rw [Lexer.chr_fill]
          exact ih h hrest
      | hole i =>
          obtain ⟨hplain, h⟩ := (Bool.and_eq_true _ _).mp h
          have hplain : l.Plain := of_decide_eq_true hplain
          have hsplit : (text (Shell.fill v (.hole i :: rest)) : List (Sym ι))
              = text (v i) ++ text (Shell.fill v rest) := text_append _ _
          rw [hsplit, Lexer.run, List.foldl_append]
          show ((l.fill v).run (text (v i))).run _ = _
          rw [hplain.run_fill (hv i List.mem_cons_self)]
          exact ih h hrest

theorem tokens_fill {t : List (Sym ι)} (h : Lexer.plainHoles {} t)
    (hv : ∀ i, .hole i ∈ t → Inert (v i)) :
    tokens (text (fill v t)) = (tokens t).map (Token.fill v) := by
  rw [tokens, tokens, ← Lexer.tokens_fill, ← Lexer.run_fill h hv]
  rfl

end Fill

/-! ## Expansions -/

/-- A word that asks for no expansion. -/
structure Literal (w : Bytes) : Prop where
  nonempty : w ≠ []
  free : ∀ c ∈ w, c ∉ special
  tilde : w.head? ≠ some 0x7E
  brackets : ¬ (ascii "[]").Sublist w
  braces : ¬ (ascii "{}").Sublist w

/-- What a shell makes of words. -/
structure Expansion where
  words : Bytes → List Bytes
  literal : ∀ {w}, Literal w → words w = [w]

theorem Literal.pattern {w : Bytes} (h : Literal w) : LiteralPattern w where
  chars c hc := by
    have hne : ∀ d ∈ special, c ≠ d := fun d hd heq => h.free c hc (heq ▸ hd)
    exact ⟨hne 0x2A (by decide), hne 0x3F (by decide), hne 0x5C (by decide)⟩
  brackets := h.brackets

/-- The paths that match take the place of the word, if there are any. -/
def pathnameExpansion (paths : List Bytes) (h : paths.Nodup) : Expansion where
  words w :=
    match globPaths 0x2F paths w with
    | [] => [w]
    | found => found
  literal := by
    intro w hw
    rw [globPaths_literal hw.pattern h]
    split
    · next hnil => rfl
    · next hne =>
        split at hne
        · next hin => rw [if_pos hin]
        · exact absurd rfl hne

example : (pathnameExpansion [ascii "ab", ascii "a"] (by decide)).words (ascii "a[b]")
    = [ascii "ab"] := by decide

example : tokens (text (ascii "ls 'a b'>x") : List (Sym Nat)) =
    [.word (text (ascii "ls")), .blank, .word (text (ascii "'a b'")), .operator 0x3E,
      .word (text (ascii "x"))] := by decide

end Smalltable.Shell
