import Smalltable.Lib.Words
import Smalltable.Proofs.ConfigText

/-!
# One entry for each line

A text is first split into lines and every line into words, both by `split_line`,
which collects no more tokens than `argv` has room for: the last one is not cut, and
the rest of the text is in it. No line that loads has so many words, and behind a
second colon nothing is read, so all this matters for is the lines. From the last
line there is room for on, the text is read as one line. Its line breaks are
characters of words then, and a comment in it goes on to the end.

That one line makes at most one entry. It is the entry of the line it begins with when
that line is complete by itself and none of the words behind was added to it, and it
is all there should be when no line behind asks for an entry.
-/

namespace Smalltable.Proofs

open Smalltable.Ref

/-! ## Tokens are words

The loop of `split_line` keeps a state for each token, and its result is not a list of
words by definition. As long as there is room it is: the words of the text, up to the
character that ends it. The last token takes everything that is left. -/

/-- The sets of characters that `split_line` is given. -/
def isOneOf (chars : Bytes) (c : UInt8) : Bool := decide (c ∈ chars)

section Split

variable {sepChars quitChars : Bytes} {argvSz : Nat}

theorem sepTable_cases {c : UInt8} {kind : Nat} (h : sepTable sepChars quitChars c = some kind) :
    (kind = 2 ∧ c ∈ quitChars) ∨ (kind = 1 ∧ c ∉ quitChars ∧ c ∈ sepChars) ∨
      (kind = 0 ∧ c ∉ quitChars ∧ c ∉ sepChars) := by
  rw [sepTable] at h
  split at h
  · cases h
  · cases h
    by_cases hquit : c ∈ quitChars
    · simp [hquit]
    · by_cases hsep : c ∈ sepChars <;> simp [hquit, hsep]

/-- The part of a line that is split. -/
def beforeQuit (quitChars line : Bytes) : Bytes := line.takeWhile fun c => !isOneOf quitChars c

/-- What the last token has beyond it, if it is not cut. -/
def fromQuit (quitChars line : Bytes) : Bytes := line.dropWhile fun c => !isOneOf quitChars c

/-- The token that fills `argv`: from the word number `n` on, all of the line. -/
def lastToken (sepChars quitChars : Bytes) (n : Nat) (front line : Bytes) : List Bytes :=
  let rest := fromWord (isOneOf sepChars) n (front ++ beforeQuit quitChars line)
  if rest = [] then [] else [rest ++ fromQuit quitChars line]

/-- A token that is being collected. -/
def OpenToken (sepChars : Bytes) (n : Nat) (cur : Option Bytes) : Prop :=
  ∀ token ∈ cur, 0 < n ∧ token ≠ [] ∧ ∀ c ∈ token, isOneOf sepChars c = false

theorem openToken_none {n : Nat} : OpenToken sepChars n none := by
  intro token h
  cases h

/-- At the end of what is split, the current token is the last. -/
theorem openToken_end {n : Nat} {cur : Option Bytes} (hcur : OpenToken sepChars n cur) :
    (words (isOneOf sepChars) (cur.getD [])).take n = cur.toList ∧
      fromWord (isOneOf sepChars) n (cur.getD []) = [] := by
  cases cur with
  | none => exact ⟨by rw [Option.getD_none, words_nil, List.take_nil]; rfl, fromWord_nil n⟩
  | some token =>
      obtain ⟨hn, hne, hfree⟩ := hcur token rfl
      rw [Option.getD_some, fromWord_eq_nil_iff, words_word hfree hne]
      exact ⟨List.take_of_length_le hn, hn⟩

theorem openToken_new {n : Nat} (hn : 0 < n) {c : UInt8} (hc : isOneOf sepChars c = false) :
    OpenToken sepChars n (some [c]) := by
  intro token h
  cases h
  exact ⟨hn, by simp, by simpa using hc⟩

theorem OpenToken.grow {n : Nat} {token : Bytes} (h : OpenToken sepChars n (some token))
    {c : UInt8} (hc : isOneOf sepChars c = false) : OpenToken sepChars n (some (token ++ [c])) := by
  obtain ⟨hn, -, hfree⟩ := h token rfl
  intro t ht
  cases ht
  refine ⟨hn, by simp, fun d hd => ?_⟩
  rcases List.mem_append.mp hd with hd | hd
  · exact hfree d hd
  · rw [List.mem_singleton.mp hd]
    exact hc

theorem splitLoop_words : ∀ {line : Bytes} {argv : List Bytes} {cur : Option Bytes}
    {r : List Bytes} {n : Nat}, argv.length + n + 1 = argvSz → OpenToken sepChars n cur →
      splitLoop sepChars quitChars argvSz line argv cur = some r →
      r = argv ++ (words (isOneOf sepChars) (cur.getD [] ++ beforeQuit quitChars line)).take n ++
        lastToken sepChars quitChars n (cur.getD []) line := by
  intro line
  induction line with
  | nil =>
      intro argv cur r n _ hcur h
      cases h
      obtain ⟨hwords, hlast⟩ := openToken_end hcur
      simp only [lastToken, beforeQuit, List.takeWhile_nil, List.append_nil, hwords, hlast, if_true]
  | cons c rest ih =>
      intro argv cur r n hroom hcur h
      rw [splitLoop.eq_def] at h
      simp only [] at h
      cases hkind : sepTable sepChars quitChars c with
      | none => rw [hkind] at h; cases h
      | some kind =>
          rw [hkind] at h
          rcases sepTable_cases hkind with ⟨rfl, hquit⟩ | ⟨rfl, hquit, hsep⟩ | ⟨rfl, hquit, hsep⟩
          · -- the line is given up
            cases h
            have hbefore : beforeQuit quitChars (c :: rest) = [] := by
              simp [beforeQuit, isOneOf, hquit]
            obtain ⟨hwords, hlast⟩ := openToken_end hcur
            simp only [lastToken, hbefore, List.append_nil, hwords, hlast, if_true]
          · have hbefore : beforeQuit quitChars (c :: rest) = c :: beforeQuit quitChars rest := by
              simp [beforeQuit, isOneOf, hquit]
            have hfrom : fromQuit quitChars (c :: rest) = fromQuit quitChars rest := by
              simp [fromQuit, isOneOf, hquit]
            have hc : isOneOf sepChars c = true := decide_eq_true hsep
            cases cur with
            | none =>
                have h := ih (by simpa using hroom) openToken_none h
                simp only [Option.toList_none, List.append_nil, Option.getD_none, List.nil_append]
                  at h
                simp only [h, lastToken, hbefore, hfrom, Option.getD_none, List.nil_append,
                  words_cons hc, fromWord_cons hc]
            | some token =>
                obtain ⟨hn, hne, hfree⟩ := hcur token rfl
                obtain ⟨k, rfl⟩ : ∃ k, n = k + 1 := ⟨n - 1, by omega⟩
                have h := ih (n := k) (by simp; omega) openToken_none h
                simp only [Option.getD_none, List.nil_append] at h
                have hfrom' := fromWord_word_append hfree hne k
                  (t := c :: beforeQuit quitChars rest) (fun d hd => by cases hd; exact hc)
                simp only [h, lastToken, hbefore, hfrom, Option.getD_some, Option.toList_some,
                  words_word_cons hfree hne hc, hfrom', fromWord_cons hc, List.take_succ_cons,
                  List.append_assoc, List.singleton_append, List.nil_append]
          · have hbefore : beforeQuit quitChars (c :: rest) = c :: beforeQuit quitChars rest := by
              simp [beforeQuit, isOneOf, hquit]
            have hfrom : fromQuit quitChars (c :: rest) = fromQuit quitChars rest := by
              simp [fromQuit, isOneOf, hquit]
            have hc : isOneOf sepChars c = false := decide_eq_false hsep
            cases cur with
            | some token =>
                obtain ⟨hn, hne, hfree⟩ := hcur token rfl
                have h := ih hroom (hcur.grow hc) h
                simp only [lastToken, Option.getD_some, List.append_assoc,
                  List.singleton_append] at h
                simp only [h, lastToken, hbefore, hfrom, Option.getD_some, List.append_assoc]
            | none =>
                simp only [] at h
                split at h
                · next hfull =>
                    cases h
                    obtain rfl : n = 0 := by omega
                    have hrest : beforeQuit quitChars rest ++ fromQuit quitChars rest = rest :=
                      List.takeWhile_append_dropWhile
                    simp only [lastToken, hbefore, hfrom, Option.getD_none, List.nil_append,
                      fromWord_zero hc, reduceCtorEq, if_false, List.take_zero, List.append_nil,
                      List.cons_append, hrest]
                · next hfull =>
                    have h := ih hroom (openToken_new (show 0 < n by omega) hc) h
                    simp only [lastToken, Option.getD_some, List.singleton_append] at h
                    simp only [h, lastToken, hbefore, hfrom, Option.getD_none, List.nil_append]

variable {line : Bytes} {argv : List Bytes}

/-- While `argv` is not full, its tokens are the words. -/
theorem splitLine_words (h : splitLine sepChars quitChars argvSz line = some argv)
    (hroom : argv.length < argvSz) :
    argv = words (isOneOf sepChars) (beforeQuit quitChars line) := by
  obtain ⟨n, rfl⟩ : ∃ n, argvSz = n + 1 := ⟨argvSz - 1, by omega⟩
  have hargv := splitLoop_words (n := n) (by simp) openToken_none h
  simp only [lastToken, Option.getD_none, List.nil_append] at hargv
  by_cases hlast : fromWord (isOneOf sepChars) n (beforeQuit quitChars line) = []
  · rw [if_pos hlast, List.append_nil] at hargv
    rw [hargv, List.take_of_length_le (fromWord_eq_nil_iff.mp hlast)]
  · rw [if_neg hlast] at hargv
    rw [fromWord_eq_nil_iff] at hlast
    rw [hargv, List.length_append, List.length_take, List.length_singleton] at hroom
    omega

/-- Without characters that end the line. -/
theorem splitLine_lines {n : Nat} (h : splitLine sepChars [] (n + 1) line = some argv) :
    argv = (words (isOneOf sepChars) line).take n ++
      if fromWord (isOneOf sepChars) n line = [] then []
      else [fromWord (isOneOf sepChars) n line] := by
  have hbefore : beforeQuit [] line = line := by simp [beforeQuit, isOneOf]
  have hfrom : fromQuit [] line = [] := by simp [fromQuit, isOneOf]
  have hargv := splitLoop_words (n := n) (by simp) openToken_none h
  simpa only [lastToken, Option.getD_none, List.nil_append, hbefore, hfrom, List.append_nil]
    using hargv

end Split

/-! ## What a text says

These are the lines as a reader of the text sees them, without the limits of the arrays.
A line asks for a proxy or a server by its first word, and what it asks for is read from
the words behind it. -/

/-- The lines of a text that are not empty. -/
def linesOf (text : Bytes) : List Bytes := words (isOneOf (ascii "\n\r")) text

/-- The words of a line, up to its comment. -/
def wordsOf (line : Bytes) : List Bytes :=
  words (isOneOf (ascii " ,\t")) (beforeQuit (ascii "#") line)

/-- Host and port, or nothing when the port is missing or out of range. -/
def readAddress (word : Bytes) : Option (Bytes × Int) :=
  match words (isOneOf (ascii ":")) word with
  | host :: port :: _ => if 1 ≤ atoi port ∧ atoi port ≤ 65535 then some (host, atoi port) else none
  | _ => none

/-- A weight within its range. -/
def readWeight (word : Bytes) : Option Int :=
  if 1 ≤ atoi word ∧ atoi word ≤ 999999 then some (atoi word) else none

/-- The key is what the line has behind the weight, if anything. -/
def readKey : List Bytes → Option Bytes
  | [] => some []
  | [hex] => (decodeHex hex).join
  | _ => none

/-- The proxy of a `proxy` line, from its words. -/
def readProxy : List Bytes → Option StProxy
  | [_, addr] => (readAddress addr).map fun a => ⟨a.1, a.2⟩
  | _ => none

/-- The server of a `server` line. -/
def readServer : List Bytes → Option ServerLine
  | _ :: addr :: weight :: hex =>
      match readAddress addr, readWeight weight, readKey hex with
      | some (host, port), some weight, some key => some (host, port, weight, key)
      | _, _, _ => none
  | _ => none

/-- The words of the lines that begin with a keyword. -/
def askingFor (keyword : Bytes) (lines : List Bytes) : List (List Bytes) :=
  (lines.map wordsOf).filter fun ws => ws.head? = some keyword

/-- There is one proxy for each `proxy` line and one server for each `server` line,
and it is the one the line says. -/
structure LinesKept (text : Bytes) (w : ProxyWorld) : Prop where
  proxies : (w.proxies.toList.map some).Perm
    ((askingFor (ascii "proxy") (linesOf text)).map readProxy)
  servers : (w.servers.toList.map fun s => some (serverLine s)).Perm
    ((askingFor (ascii "server") (linesOf text)).map readServer)

/-- The first line of a text that begins with one, and the lines behind it. -/
def firstLine (rest : Bytes) : Bytes := rest.takeWhile fun c => !isOneOf (ascii "\n\r") c

/-- The lines of a text without the first one. -/
def linesBehind (rest : Bytes) : List Bytes :=
  linesOf (rest.dropWhile fun c => !isOneOf (ascii "\n\r") c)

/-! ## A line by its words

`Reads` has a case for each way a line can go: nothing to do, one of the errors, or an
entry. The handlers of lines fail on what the readers above do not read, and agree where
both succeed. -/

/-- What the words of a line come to if there is no error in them. -/
inductive Reads : List Bytes → ConfigLine → Prop
  | blank : Reads [] .blank
  | proxy {addr host : Bytes} {port : Int} (haddr : readAddress addr = some (host, port)) :
      Reads [ascii "proxy", addr] (.entry (.proxy host port))
  | server {addr weightText host key : Bytes} {hex : List Bytes} {port weight : Int}
      (haddr : readAddress addr = some (host, port)) (hweight : readWeight weightText = some weight)
      (hkey : readKey hex = some key) :
      Reads (ascii "server" :: addr :: weightText :: hex) (.entry (.server host port weight key))

/-- A colon ends a number. -/
theorem atoi_firstWord (s : Bytes) :
    atoi (s.takeWhile fun c => !isOneOf (ascii ":") c) = atoi s := by
  have hsplit := List.takeWhile_append_dropWhile (p := fun c => !isOneOf (ascii ":") c) (l := s)
  cases hrest : s.dropWhile fun c => !isOneOf (ascii ":") c with
  | nil => rw [hrest, List.append_nil] at hsplit; rw [hsplit]
  | cons c t =>
      have hc := List.head?_dropWhile_not (fun c => !isOneOf (ascii ":") c) s
      rw [hrest] at hc hsplit
      have hc : c = 0x3A := by simpa [isOneOf, ascii] using hc
      rw [← hsplit, hc, atoi_append (by decide) (.inr (by decide))]
      rw [← hc, hsplit]

/-- `get_host_port` reads on behind a second colon, but a number ends there. -/
theorem readAddress_of_getHostPort {word host : Bytes} {port : Int}
    (h : getHostPort word = some (some (host, port))) : readAddress word = some (host, port) := by
  unfold getHostPort at h
  split at h
  · cases h
  · next host' portText hsplit =>
      simp only [] at h
      split at h
      · cases h
      · next hrange =>
          cases h
          have hargv := splitLine_lines (n := 1) hsplit
          split at hargv
          · next hnil =>
              rw [List.append_nil] at hargv
              have hlen := congrArg List.length hargv
              rw [List.length_take] at hlen
              simp only [List.length_cons, List.length_nil] at hlen
              omega
          · next hne =>
              obtain ⟨htake, hport⟩ :=
                List.append_inj' (show [host] ++ [portText] = _ from hargv) rfl
              have hdrop : words (isOneOf (ascii ":")) (fromWord (isOneOf (ascii ":")) 1 word)
                  = (words (isOneOf (ascii ":")) word).drop 1 := words_fromWord 1 word
              rw [words_first (head_fromWord 1 word) hne] at hdrop
              have hwords := List.take_append_drop 1 (words (isOneOf (ascii ":")) word)
              rw [← htake, ← hdrop, ← List.singleton_inj.mp hport] at hwords
              rw [readAddress, ← hwords]
              simp only [List.singleton_append, atoi_firstWord]
              rw [if_pos (by omega)]
  · cases h

theorem splitLine_wordsOf {line : Bytes} {argv : List Bytes}
    (h : splitLine (ascii " ,\t") (ascii "#") 32 line = some argv) (hlen : argv.length < 32) :
    wordsOf line = argv := (splitLine_words h hlen).symm

theorem parseProxy_reads {args : List Bytes} {l : ConfigLine}
    (h : parseProxy (ascii "proxy" :: args) = some l) (hok : ∀ err, l ≠ .error err) :
    args.length ≤ 3 ∧ Reads (ascii "proxy" :: args) l := by
  unfold parseProxy at h
  split at h
  · cases h
    exact absurd rfl (hok _)
  · next hlen =>
      have hlen : args.length = 1 := by simpa using hlen
      obtain ⟨addr, rfl⟩ := List.length_eq_one_iff.mp hlen
      split at h
      · cases h
      · cases h
        exact absurd rfl (hok _)
      · next host port haddr =>
          cases h
          exact ⟨by simp, .proxy (readAddress_of_getHostPort haddr)⟩

theorem parseServer_reads {args : List Bytes} {l : ConfigLine}
    (h : parseServer (ascii "server" :: args) = some l) (hok : ∀ err, l ≠ .error err) :
    args.length ≤ 3 ∧ Reads (ascii "server" :: args) l := by
  unfold parseServer at h
  split at h
  · cases h
    exact absurd rfl (hok _)
  · next hlen =>
      rw [List.length_cons] at hlen
      refine ⟨by omega, ?_⟩
      obtain ⟨addr, args, rfl⟩ := List.exists_cons_of_length_pos (show 0 < args.length by omega)
      rw [List.length_cons] at hlen
      obtain ⟨weightText, hex, rfl⟩ :=
        List.exists_cons_of_length_pos (show 0 < args.length by omega)
      rw [List.length_cons] at hlen
      split at h
      · cases h
      · cases h
        exact absurd rfl (hok _)
      · next host port haddr =>
          have haddr := readAddress_of_getHostPort haddr
          simp only [List.getD_cons_succ, List.getD_cons_zero, List.length_cons] at h
          split at h
          · cases h
            exact absurd rfl (hok _)
          · next hrange =>
              have hweight : readWeight weightText = some (atoi weightText) := by
                rw [readWeight, if_pos (by omega)]
              split at h
              · next hfour =>
                  obtain ⟨digits, rfl⟩ := List.length_eq_one_iff.mp (show hex.length = 1 by omega)
                  simp only [List.getD_cons_zero] at h
                  split at h
                  · cases h
                  · cases h
                    exact absurd rfl (hok _)
                  · next key hkey =>
                      cases h
                      exact .server haddr hweight (by rw [readKey, hkey]; rfl)
              · next hthree =>
                  cases h
                  obtain rfl := List.eq_nil_of_length_eq_zero (show hex.length = 0 by omega)
                  exact .server haddr hweight rfl

/-- What a line that is not broken comes to is read off its words. -/
theorem parseLine_reads {line : Bytes} {l : ConfigLine} (h : parseLine line = some l)
    (hok : ∀ err, l ≠ .error err) : Reads (wordsOf line) l := by
  unfold parseLine at h
  split at h
  · cases h
  · next hargv =>
      cases h
      rw [splitLine_wordsOf hargv (by decide)]
      exact .blank
  · next keyword args hargv =>
      split at h
      · next hproxy =>
          subst hproxy
          obtain ⟨hlen, hreads⟩ := parseProxy_reads h hok
          rwa [splitLine_wordsOf hargv (by rw [List.length_cons]; omega)]
      · split at h
        · next hserver =>
            subst hserver
            obtain ⟨hlen, hreads⟩ := parseServer_reads h hok
            rwa [splitLine_wordsOf hargv (by rw [List.length_cons]; omega)]
        · cases h
          exact absurd rfl (hok _)

/-! ## What the lines ask for

The entries of a text are those of its lines in their order. One list of them is made
for the proxies and one for the servers. -/

theorem askingFor_cons_of_head {keyword line : Bytes} (lines : List Bytes)
    (h : (wordsOf line).head? = some keyword) :
    askingFor keyword (line :: lines) = wordsOf line :: askingFor keyword lines := by
  rw [askingFor, List.map_cons, List.filter_cons_of_pos (by simpa using h)]
  rfl

theorem askingFor_cons_of_not {keyword line : Bytes} (lines : List Bytes)
    (h : (wordsOf line).head? ≠ some keyword) :
    askingFor keyword (line :: lines) = askingFor keyword lines := by
  rw [askingFor, List.map_cons, List.filter_cons_of_neg (by simpa using h)]
  rfl

theorem askingFor_append (keyword : Bytes) (before behind : List Bytes) :
    askingFor keyword (before ++ behind)
      = askingFor keyword before ++ askingFor keyword behind := by
  rw [askingFor, List.map_append, List.filter_append]
  rfl

/-- The entries of lines that load are those the lines say. -/
theorem entriesOf_reads : ∀ {lines : List Bytes} {es : List ConfigEntry},
    entriesOf lines = some es →
      (proxiesOf es).map some = (askingFor (ascii "proxy") lines).map readProxy ∧
        (serversOf es).map some = (askingFor (ascii "server") lines).map readServer := by
  intro lines
  induction lines with
  | nil =>
      intro es h
      cases h
      exact ⟨rfl, rfl⟩
  | cons line rest ih =>
      intro es h
      have hps : (ascii "proxy") ≠ ascii "server" := by decide
      rw [entriesOf] at h
      split at h
      · next hline =>
          have hreads := parseLine_reads hline (by simp)
          generalize hws : wordsOf line = ws at hreads
          cases hreads with
          | blank =>
              rw [askingFor_cons_of_not _ (by simp [hws]), askingFor_cons_of_not _ (by simp [hws])]
              exact ih h
      · next e hline =>
          have hreads := parseLine_reads hline (by simp)
          obtain ⟨es', hes', rfl⟩ := Option.map_eq_some_iff.mp h
          obtain ⟨hp, hs⟩ := ih hes'
          generalize hws : wordsOf line = ws at hreads
          cases hreads with
          | proxy haddr =>
              rw [askingFor_cons_of_head _ (by rw [hws]; rfl),
                askingFor_cons_of_not _ (by simpa [hws] using hps), List.map_cons, ← hp, hws,
                readProxy, haddr]
              exact ⟨rfl, hs⟩
          | server haddr hweight hkey =>
              rw [askingFor_cons_of_not _ (by simpa [hws] using hps.symm),
                askingFor_cons_of_head _ (by rw [hws]; rfl), List.map_cons, ← hs, hws, readServer,
                haddr, hweight, hkey]
              exact ⟨hp, rfl⟩
      · cases h

/-! ## From the last line on

The lines behind the last one there is room for belong to it. Where the text has a line
break a word may go on or a new one begins, and there are no other differences
(`GoesOn`). -/

/-- The words of a text beside those of its first line. A line break is no separator:
the last word goes on behind it, or a new one begins with it. -/
inductive GoesOn : List Bytes → List Bytes → Prop
  | same (ws : List Bytes) : GoesOn ws ws
  | next (ws : List Bytes) {c : UInt8} (hc : c ∈ ascii "\n\r") (u : Bytes) (more : List Bytes) :
      GoesOn ws (ws ++ (c :: u) :: more)
  | grown (ws : List Bytes) (w : Bytes) {c : UInt8} (hc : c ∈ ascii "\n\r") (u : Bytes)
      (more : List Bytes) : GoesOn (ws ++ [w]) (ws ++ (w ++ c :: u) :: more)

theorem wordsOf_goesOn (rest : Bytes) : GoesOn (wordsOf (firstLine rest)) (wordsOf rest) := by
  have hsplit := List.takeWhile_append_dropWhile
    (p := fun c => !isOneOf (ascii "\n\r") c) (l := rest)
  have hbefore : beforeQuit (ascii "#") rest = beforeQuit (ascii "#") (firstLine rest ++
      rest.dropWhile fun c => !isOneOf (ascii "\n\r") c) := by
    rw [firstLine, hsplit]
  rw [wordsOf, wordsOf, hbefore, beforeQuit, beforeQuit, List.takeWhile_append]
  split
  · next hwhole =>
      have hline : (firstLine rest).takeWhile (fun c => !isOneOf (ascii "#") c) = firstLine rest :=
        (List.takeWhile_prefix _).eq_of_length hwhole
      rw [hline]
      cases hrest : rest.dropWhile fun c => !isOneOf (ascii "\n\r") c with
      | nil =>
          rw [List.takeWhile_nil, List.append_nil]
          exact .same _
      | cons c t =>
          have hc := List.head?_dropWhile_not (fun c => !isOneOf (ascii "\n\r") c) rest
          rw [hrest] at hc
          have hc : c ∈ ascii "\n\r" := by simpa [isOneOf] using hc
          have hplain : ∀ c ∈ ascii "\n\r", isOneOf (ascii "#") c = false ∧
              isOneOf (ascii " ,\t") c = false := by decide
          obtain ⟨hquit, hsep⟩ := hplain c hc
          rw [List.takeWhile_cons_of_pos (by simp [hquit])]
          obtain ⟨u, more, h | ⟨ws, w, h1, h2⟩⟩ := words_append_word hsep
            (t.takeWhile fun c => !isOneOf (ascii "#") c) (firstLine rest)
          · rw [h]
            exact .next _ hc u more
          · rw [h1, h2]
            exact .grown ws w hc u more
  · exact .same _

theorem goesOn_nil {first : List Bytes} (h : GoesOn first []) : first = [] := by
  generalize hwhole : ([] : List Bytes) = whole at h
  cases h with
  | same => rfl
  | next ws hc u more => simp at hwhole
  | grown ws w hc u more => simp at hwhole

/-- A first word of the text is there in the line already, or the line ends before it
or in it. -/
theorem goesOn_cons {first whole : List Bytes} {x : Bytes} (h : GoesOn first (x :: whole)) :
    (∃ first', first = x :: first' ∧ GoesOn first' whole) ∨
      ∃ w c u, c ∈ ascii "\n\r" ∧ x = w ++ c :: u ∧ (first = [w] ∨ first = [] ∧ w = []) := by
  generalize hwhole : x :: whole = l at h
  cases h with
  | same => exact .inl ⟨whole, hwhole.symm, .same _⟩
  | next ws hc u more =>
      cases first with
      | nil =>
          obtain ⟨rfl, rfl⟩ := List.cons.inj hwhole
          exact .inr ⟨[], _, u, hc, rfl, .inr ⟨rfl, rfl⟩⟩
      | cons y ws =>
          obtain ⟨rfl, rfl⟩ := List.cons.inj hwhole
          exact .inl ⟨ws, rfl, .next ws hc u more⟩
  | grown ws w hc u more =>
      cases ws with
      | nil =>
          obtain ⟨rfl, rfl⟩ := List.cons.inj hwhole
          exact .inr ⟨w, _, u, hc, rfl, .inl rfl⟩
      | cons y ws =>
          obtain ⟨rfl, rfl⟩ := List.cons.inj hwhole
          exact .inl ⟨ws ++ [w], rfl, .grown ws w hc u more⟩

/-- A first word without line breaks. -/
theorem goesOn_keyword {first whole : List Bytes} {x : Bytes} (h : GoesOn first (x :: whole))
    (hx : ∀ c ∈ ascii "\n\r", c ∉ x) : ∃ first', first = x :: first' ∧ GoesOn first' whole := by
  rcases goesOn_cons h with h | ⟨w, c, u, hc, rfl, -⟩
  · exact h
  · exact absurd (by simp) (hx c hc)

/-! ### What is read of a longer word

A weight ends with its digits and a port does too, so such a word may go on without any
effect; a key does not, as every character of it has to be a digit. -/

theorem readWeight_append {w : Bytes} {weight : Int} (h : readWeight w = some weight) {c : UInt8}
    (hc : c ∈ ascii "\n\r") (u : Bytes) : readWeight (w ++ c :: u) = some weight := by
  have hdigit : ∀ c ∈ ascii "\n\r", isDigit c = false := by decide
  unfold readWeight at h ⊢
  split at h
  · next hrange =>
      rw [atoi_append (hdigit c hc) (.inl (not_blank_of_atoi (by omega))), if_pos hrange]
      exact h
  · cases h

theorem readAddress_append {addr : Bytes} {a : Bytes × Int} (h : readAddress addr = some a)
    {c : UInt8} (hc : c ∈ ascii "\n\r") (u : Bytes) : readAddress (addr ++ c :: u) = some a := by
  have hplain : ∀ c ∈ ascii "\n\r", isDigit c = false ∧ isOneOf (ascii ":") c = false := by decide
  obtain ⟨hdigit, hsep⟩ := hplain c hc
  unfold readAddress at h ⊢
  split at h
  · next host port more hwords =>
      split at h
      · next hrange =>
          obtain ⟨u', more', happ | ⟨ws, w, h1, h2⟩⟩ := words_append_word hsep u addr
          · rw [happ, hwords]
            simp only [List.cons_append]
            rw [if_pos hrange]
            exact h
          · rw [h2]
            rw [hwords] at h1
            cases ws with
            | nil => simp at h1
            | cons v vs =>
                obtain ⟨rfl, htail⟩ := List.cons.inj h1
                cases vs with
                | nil =>
                    obtain ⟨rfl, -⟩ := List.cons.inj htail
                    simp only [List.cons_append, List.nil_append]
                    rw [atoi_append hdigit (.inl (not_blank_of_atoi (by omega))), if_pos hrange]
                    exact h
                | cons v' vs =>
                    obtain ⟨rfl, -⟩ := List.cons.inj htail
                    simp only [List.cons_append]
                    rw [if_pos hrange]
                    exact h
      · cases h
  · cases h

/-- A key is given as one word of digits, or not at all. -/
theorem readKey_some {hex : List Bytes} {key : Bytes} (h : readKey hex = some key) :
    hex = [] ∧ key = [] ∨ ∃ digits, hex = [digits] ∧ decodeHex digits = some (some key) := by
  unfold readKey at h
  split at h
  · exact .inl ⟨rfl, (Option.some.inj h).symm⟩
  · next digits => exact .inr ⟨digits, rfl, Option.join_eq_some_iff.mp h⟩
  · cases h

/-- The digits of a key have no line break among them. -/
theorem readKey_break {hex : List Bytes} {key : Bytes} (h : readKey hex = some key) :
    ∀ x ∈ hex, ∀ c ∈ ascii "\n\r", c ∉ x := by
  have hnot : ∀ c ∈ ascii "\n\r", hexToInt c = 0 ∧ c ≠ 0x30 := by decide
  rcases readKey_some h with ⟨rfl, -⟩ | ⟨digits, rfl, hdecode⟩
  · exact nofun
  · intro x hx c hc hmem
    rw [List.mem_singleton.mp hx] at hmem
    obtain ⟨hzero, hne⟩ := hnot c hc
    exact hne ((decodeHexLoop_spec hdecode).2.2 c hmem hzero)

/-! ### The line beside the text

Whether the text from the last line on makes the entry of its first line alone depends
on how it goes on, and on nothing else. -/

theorem reads_proxy {ws : List Bytes} {l : ConfigLine} (h : Reads (ascii "proxy" :: ws) l) :
    ∃ addr host port, ws = [addr] ∧ readAddress addr = some (host, port) ∧
      l = .entry (.proxy host port) := by
  generalize hall : ascii "proxy" :: ws = all at h
  cases h with
  | blank => cases hall
  | proxy haddr => exact ⟨_, _, _, (List.cons.inj hall).2, haddr, rfl⟩
  | server => exact absurd (List.cons.inj hall).1 (by decide)

theorem reads_server {ws : List Bytes} {l : ConfigLine} (h : Reads (ascii "server" :: ws) l) :
    ∃ addr weightText hex host port weight key, ws = addr :: weightText :: hex ∧
      readAddress addr = some (host, port) ∧ readWeight weightText = some weight ∧
      readKey hex = some key ∧ l = .entry (.server host port weight key) := by
  generalize hall : ascii "server" :: ws = all at h
  cases h with
  | blank => cases hall
  | proxy => exact absurd (List.cons.inj hall).1 (by decide)
  | server haddr hweight hkey =>
      exact ⟨_, _, _, _, _, _, _, (List.cons.inj hall).2, haddr, hweight, hkey, rfl⟩

theorem goesOn_unbroken : ∀ {whole first : List Bytes}, GoesOn first whole →
    (∀ x ∈ whole, ∀ c ∈ ascii "\n\r", c ∉ x) → first = whole := by
  intro whole
  induction whole with
  | nil => exact fun h _ => goesOn_nil h
  | cons x whole ih =>
      intro first h hx
      obtain ⟨first', rfl, hrest⟩ := goesOn_keyword h (hx x List.mem_cons_self)
      rw [ih hrest fun y hy => hx y (List.mem_cons_of_mem _ hy)]

/-- A `server` line behind its keyword: it is complete, or it ends in the weight, or
before that. -/
theorem goesOn_server {first hex : List Bytes} {addr weightText : Bytes}
    (h : GoesOn first (addr :: weightText :: hex)) (hhex : ∀ x ∈ hex, ∀ c ∈ ascii "\n\r", c ∉ x) :
    first = addr :: weightText :: hex ∨ first.length ≤ 1 ∨
      ∃ w c u, c ∈ ascii "\n\r" ∧ weightText = w ++ c :: u ∧ first = [addr, w] := by
  rcases goesOn_cons h with ⟨first, rfl, h2⟩ | ⟨w, c, u, -, -, rfl | ⟨rfl, -⟩⟩
  · rcases goesOn_cons h2 with ⟨first, rfl, h3⟩ | ⟨w, c, u, hc, hw, rfl | ⟨rfl, -⟩⟩
    · exact .inl (by rw [goesOn_unbroken h3 hhex])
    · exact .inr (.inr ⟨w, c, u, hc, hw, rfl⟩)
    · exact .inr (.inl (by simp))
  · exact .inr (.inl (by simp))
  · exact .inr (.inl (by simp))

/-- Words that are a key make one that is not empty. -/
theorem readKey_nil {hex : List Bytes} (h : readKey hex = some []) (hne : ∀ x ∈ hex, x ≠ []) :
    hex = [] := by
  rcases readKey_some h with ⟨rfl, -⟩ | ⟨digits, rfl, hdecode⟩
  · rfl
  · exact absurd rfl (decodeHex_ne_nil hdecode (hne _ List.mem_cons_self))

theorem keywords_unbroken : (∀ c ∈ ascii "\n\r", c ∉ ascii "proxy") ∧
    ∀ c ∈ ascii "\n\r", c ∉ ascii "server" := by decide

/-- The text and its first line say the same exactly when the line is complete by itself
and has all the words. -/
theorem reads_goesOn_iff {first whole : List Bytes} {l : ConfigLine} (hgo : GoesOn first whole)
    (hreads : Reads whole l) (hne : ∀ x ∈ whole, x ≠ []) :
    Reads first l ↔ (∃ l', Reads first l') ∧ first.length = whole.length := by
  cases hreads with
  | blank =>
      rw [goesOn_nil hgo]
      exact ⟨fun h => ⟨⟨_, h⟩, rfl⟩, fun _ => .blank⟩
  | proxy haddr =>
      obtain ⟨first, rfl, hgo'⟩ := goesOn_keyword hgo keywords_unbroken.1
      constructor
      · intro h
        obtain ⟨_, _, _, rfl, -⟩ := reads_proxy h
        exact ⟨⟨_, h⟩, rfl⟩
      · rintro ⟨⟨l', h'⟩, -⟩
        obtain ⟨addr', host', port', rfl, haddr', -⟩ := reads_proxy h'
        rcases goesOn_cons hgo' with ⟨f, hf, -⟩ | ⟨w, c, u, hc, rfl, hf | ⟨hf, -⟩⟩
        · obtain ⟨rfl, -⟩ := List.cons.inj hf
          exact .proxy haddr
        · obtain rfl := List.singleton_inj.mp hf
          rw [readAddress_append haddr' hc, ← haddr'] at haddr
          exact .proxy haddr
        · cases hf
  | server haddr hweight hkey =>
      obtain ⟨first, rfl, hgo'⟩ := goesOn_keyword hgo keywords_unbroken.2
      rcases goesOn_server hgo' (readKey_break hkey) with rfl | hshort | ⟨w, c, u, hc, rfl, rfl⟩
      · exact ⟨fun h => ⟨⟨_, h⟩, rfl⟩, fun _ => .server haddr hweight hkey⟩
      · -- nothing is read of a line that ends before the weight
        have hnone : ∀ l', ¬ Reads (ascii "server" :: first) l' := by
          intro l' h'
          obtain ⟨_, _, _, _, _, _, _, rfl, -⟩ := reads_server h'
          simp at hshort
        exact ⟨fun h => absurd h (hnone _), fun ⟨⟨l', h'⟩, _⟩ => absurd h' (hnone l')⟩
      · constructor
        · intro h
          refine ⟨⟨_, h⟩, ?_⟩
          obtain ⟨_, _, _, _, _, _, _, hshape, _, _, hkey', heq⟩ := reads_server h
          cases hshape
          cases heq
          cases hkey'
          rw [readKey_nil hkey fun x hx => hne x (by simp [hx])]
          rfl
        · rintro ⟨⟨l', h'⟩, hlen⟩
          obtain ⟨_, _, _, _, _, _, _, hshape, _, hweight', _, -⟩ := reads_server h'
          cases hshape
          obtain rfl := List.eq_nil_of_length_eq_zero (by simpa using hlen.symm)
          rw [readWeight_append hweight' hc, ← hweight'] at hweight
          exact .server haddr hweight hkey

/-! ## Loading a text

What the loader makes of the text is put beside the lines once more. The lines with room
of their own are kept. The others are kept when the one line that is read in their place
makes the entry of the first of them and nothing behind asks for one (`OnlyFirstLine`).
-/

/-- What is left of a text from the last line on there is room for. -/
def fromLastLine (text : Bytes) : Bytes :=
  fromWord (isOneOf (ascii "\n\r")) (maxConfigLines - 1) text

/-- Of the text that is read as one line, only the first line matters: it is complete by
itself, no word was added to it, and no line behind it asks for an entry. -/
structure OnlyFirstLine (rest : Bytes) : Prop where
  complete : ∃ l, Reads (wordsOf (firstLine rest)) l
  words : (wordsOf (firstLine rest)).length = (wordsOf rest).length
  proxies : askingFor (ascii "proxy") (linesBehind rest) = []
  servers : askingFor (ascii "server") (linesBehind rest) = []

/-- The entries are those the lines say. -/
structure Says (lines : List Bytes) (es : List ConfigEntry) : Prop where
  proxies : ((proxiesOf es).map some).Perm ((askingFor (ascii "proxy") lines).map readProxy)
  servers : ((serversOf es).map some).Perm ((askingFor (ascii "server") lines).map readServer)

theorem linesKept_says_iff {es : List ConfigEntry} {text : Bytes} {w : ProxyWorld}
    (h : Described es w) : LinesKept text w ↔ Says (linesOf text) es := by
  have hp := h.proxies.map some
  have hs := h.servers.map some
  rw [List.map_map] at hs
  exact ⟨fun hkept => ⟨hp.symm.trans hkept.proxies, hs.symm.trans hkept.servers⟩,
    fun hsays => ⟨hp.trans hsays.proxies, hs.trans hsays.servers⟩⟩

theorem says_append_iff {before behind : List Bytes} {es1 es2 : List ConfigEntry}
    (h : entriesOf before = some es1) :
    Says (before ++ behind) (es1 ++ es2) ↔ Says behind es2 := by
  obtain ⟨hp, hs⟩ := entriesOf_reads h
  have hproxies : ((proxiesOf (es1 ++ es2)).map some).Perm
      ((askingFor (ascii "proxy") (before ++ behind)).map readProxy) ↔
      ((proxiesOf es2).map some).Perm ((askingFor (ascii "proxy") behind).map readProxy) := by
    rw [proxiesOf, List.filterMap_append, List.map_append, askingFor_append, List.map_append, ← hp]
    exact List.perm_append_left_iff _
  have hservers : ((serversOf (es1 ++ es2)).map some).Perm
      ((askingFor (ascii "server") (before ++ behind)).map readServer) ↔
      ((serversOf es2).map some).Perm ((askingFor (ascii "server") behind).map readServer) := by
    rw [serversOf, List.filterMap_append, List.map_append, askingFor_append, List.map_append, ← hs]
    exact List.perm_append_left_iff _
  exact ⟨fun h => ⟨hproxies.mp h.proxies, hservers.mp h.servers⟩,
    fun h => ⟨hproxies.mpr h.proxies, hservers.mpr h.servers⟩⟩

theorem entriesOf_parts : ∀ {before behind : List Bytes} {es : List ConfigEntry},
    entriesOf (before ++ behind) = some es →
      ∃ es1 es2, entriesOf before = some es1 ∧ entriesOf behind = some es2 ∧ es = es1 ++ es2 := by
  intro before
  induction before with
  | nil => exact fun {behind es} h => ⟨[], es, rfl, h, rfl⟩
  | cons line before ih =>
      intro behind es h
      rw [List.cons_append, entriesOf] at h
      rw [entriesOf]
      split at h
      · next hline =>
          obtain ⟨es1, es2, h1, h2, rfl⟩ := ih h
          exact ⟨es1, es2, h1, h2, rfl⟩
      · next e hline =>
          obtain ⟨es', hes', rfl⟩ := Option.map_eq_some_iff.mp h
          obtain ⟨es1, es2, h1, h2, rfl⟩ := ih hes'
          exact ⟨e :: es1, es2, by rw [h1]; rfl, h2, rfl⟩
      · cases h

theorem readProxy_iff {ws : List Bytes} {host : Bytes} {port : Int} :
    readProxy (ascii "proxy" :: ws) = some ⟨host, port⟩ ↔
      Reads (ascii "proxy" :: ws) (.entry (.proxy host port)) := by
  constructor
  · intro h
    unfold readProxy at h
    split at h
    · next addr hws =>
        obtain ⟨rfl, rfl⟩ := List.cons.inj hws
        obtain ⟨a, haddr, ha⟩ := Option.map_eq_some_iff.mp h
        cases ha
        exact .proxy haddr
    · cases h
  · intro h
    obtain ⟨addr, _, _, rfl, haddr, heq⟩ := reads_proxy h
    cases heq
    rw [readProxy, haddr]
    rfl

theorem readServer_iff {ws : List Bytes} {host key : Bytes} {port weight : Int} :
    readServer (ascii "server" :: ws) = some (host, port, weight, key) ↔
      Reads (ascii "server" :: ws) (.entry (.server host port weight key)) := by
  constructor
  · intro h
    unfold readServer at h
    split at h
    · next addr weightText hex hws =>
        obtain ⟨rfl, rfl⟩ := List.cons.inj hws
        split at h
        · next haddr hweight hkey =>
            cases h
            exact .server haddr hweight hkey
        · cases h
    · cases h
  · intro h
    obtain ⟨_, _, _, _, _, _, _, rfl, haddr, hweight, hkey, heq⟩ := reads_server h
    cases heq
    rw [readServer, haddr, hweight, hkey]

theorem onlyFirstLine_iff {rest : Bytes} {l : ConfigLine} (h : Reads (wordsOf rest) l) :
    OnlyFirstLine rest ↔ Reads (wordsOf (firstLine rest)) l ∧
      askingFor (ascii "proxy") (linesBehind rest) = [] ∧
      askingFor (ascii "server") (linesBehind rest) = [] := by
  rw [reads_goesOn_iff (wordsOf_goesOn rest) h fun x hx => (words_spec hx).1]
  exact ⟨fun ⟨h1, h2, h3, h4⟩ => ⟨⟨h1, h2⟩, h3, h4⟩, fun ⟨⟨h1, h2⟩, h3, h4⟩ => ⟨h1, h2, h3, h4⟩⟩

theorem says_nil_iff {lines : List Bytes} : Says lines [] ↔
    askingFor (ascii "proxy") lines = [] ∧ askingFor (ascii "server") lines = [] := by
  constructor
  · rintro ⟨hp, hs⟩
    exact ⟨List.map_eq_nil_iff.mp (List.nil_perm.mp hp),
      List.map_eq_nil_iff.mp (List.nil_perm.mp hs)⟩
  · rintro ⟨hp, hs⟩
    exact ⟨by rw [hp]; exact .refl _, by rw [hs]; exact .refl _⟩

theorem says_proxy_iff {lines : List Bytes} {host : Bytes} {port : Int} :
    Says lines [.proxy host port] ↔
      (askingFor (ascii "proxy") lines).map readProxy = [some ⟨host, port⟩] ∧
        askingFor (ascii "server") lines = [] := by
  constructor
  · rintro ⟨hp, hs⟩
    exact ⟨(List.singleton_perm.mp hp).symm, List.map_eq_nil_iff.mp (List.nil_perm.mp hs)⟩
  · rintro ⟨hp, hs⟩
    exact ⟨by rw [hp]; exact .refl _, by rw [hs]; exact .refl _⟩

theorem says_server_iff {lines : List Bytes} {host key : Bytes} {port weight : Int} :
    Says lines [.server host port weight key] ↔ askingFor (ascii "proxy") lines = [] ∧
      (askingFor (ascii "server") lines).map readServer = [some (host, port, weight, key)] := by
  constructor
  · rintro ⟨hp, hs⟩
    exact ⟨List.map_eq_nil_iff.mp (List.nil_perm.mp hp), (List.singleton_perm.mp hs).symm⟩
  · rintro ⟨hp, hs⟩
    exact ⟨by rw [hp]; exact .refl _, by rw [hs]; exact .refl _⟩

/-- The text that is read as one line, beside the lines it is made of. -/
theorem says_last_iff {rest : Bytes} {es : List ConfigEntry} (hes : entriesOf [rest] = some es) :
    Says (firstLine rest :: linesBehind rest) es ↔ OnlyFirstLine rest := by
  have hps : (ascii "proxy") ≠ ascii "server" := by decide
  have hgo := wordsOf_goesOn rest
  rw [entriesOf] at hes
  split at hes
  · next hline =>
      cases hes
      have hreads := parseLine_reads hline (by simp)
      rw [onlyFirstLine_iff hreads, says_nil_iff]
      generalize wordsOf rest = ws at hgo hreads
      cases hreads
      have hnil := goesOn_nil hgo
      rw [askingFor_cons_of_not _ (by simp [hnil]), askingFor_cons_of_not _ (by simp [hnil]), hnil]
      exact ⟨fun h => ⟨.blank, h⟩, fun h => h.2⟩
  · next e hline =>
      cases hes
      have hreads := parseLine_reads hline (by simp)
      rw [onlyFirstLine_iff hreads]
      generalize wordsOf rest = ws at hgo hreads
      cases hreads with
      | proxy haddr =>
          obtain ⟨first, hfirst, -⟩ := goesOn_keyword hgo keywords_unbroken.1
          rw [says_proxy_iff, askingFor_cons_of_head _ (by rw [hfirst]; rfl),
            askingFor_cons_of_not _ (by simpa [hfirst] using hps), hfirst, ← readProxy_iff,
            List.map_cons, List.cons.injEq, List.map_eq_nil_iff, and_assoc]
      | server haddr hweight hkey =>
          obtain ⟨first, hfirst, -⟩ := goesOn_keyword hgo keywords_unbroken.2
          rw [says_server_iff, askingFor_cons_of_not _ (by simpa [hfirst] using hps.symm),
            askingFor_cons_of_head _ (by rw [hfirst]; rfl), hfirst, ← readServer_iff,
            List.map_cons, List.cons.injEq, List.map_eq_nil_iff, and_left_comm]
  · cases hes

/-- Nothing is left of a text with room for all its lines. -/
theorem onlyFirstLine_nil : OnlyFirstLine [] := by
  have hline : wordsOf (firstLine []) = [] := words_nil
  have hbehind : linesBehind [] = [] := by
    rw [linesBehind, List.dropWhile_nil, linesOf, words_nil]
  refine ⟨⟨.blank, ?_⟩, rfl, ?_, ?_⟩
  · rw [hline]
    exact .blank
  · rw [hbehind]
    rfl
  · rw [hbehind]
    rfl

theorem linesKept_last {w : ProxyWorld} {text : Bytes} {lines : List Bytes} {es : List ConfigEntry}
    (hlines : splitLine (ascii "\n\r") [] maxConfigLines text = some lines)
    (hes : entriesOf lines = some es) (hw : Described es w) :
    LinesKept text w ↔ OnlyFirstLine (fromLastLine text) := by
  have hargv : lines = (linesOf text).take (maxConfigLines - 1) ++
      if fromLastLine text = [] then [] else [fromLastLine text] :=
    splitLine_lines (n := maxConfigLines - 1) hlines
  have hwords := List.take_append_drop (maxConfigLines - 1) (linesOf text)
  have hrest : (linesOf text).drop (maxConfigLines - 1) = linesOf (fromLastLine text) :=
    (words_fromWord _ _).symm
  rw [hargv] at hes
  obtain ⟨es1, es2, h1, h2, rfl⟩ := entriesOf_parts hes
  rw [linesKept_says_iff hw, ← hwords, says_append_iff h1, hrest]
  by_cases hnil : fromLastLine text = []
  · rw [if_pos hnil] at h2
    cases h2
    rw [hnil, says_nil_iff]
    exact ⟨fun _ => onlyFirstLine_nil, fun _ => ⟨rfl, rfl⟩⟩
  · rw [if_neg hnil] at h2
    have hfirst : linesOf (fromLastLine text)
        = firstLine (fromLastLine text) :: linesBehind (fromLastLine text) :=
      words_first (head_fromWord _ _) hnil
    rw [hfirst, says_last_iff h2]

/-- A text that loads makes an entry for each of its lines exactly when, from the 1024th
line on, only that line matters and is complete. -/
theorem linesKept_iff (env : ProxyEnv) {w w' : ProxyWorld} {text : Bytes}
    (hproxies : w.proxies = .leaf) (hservers : w.servers = .leaf)
    (h : loadConfigFromString env false w text = some (w', none)) :
    LinesKept text w' ↔ OnlyFirstLine (fromLastLine text) := by
  obtain ⟨lines, es, hlines, hes, hall⟩ := createAll_of_load env h
  exact linesKept_last hlines hes (createAll_leaf hproxies hservers hall)

theorem linesKept_iff_goodText :
    ∃ w', loadConfigFromString plainEnv false {} (ascii goodText) = some (w', none) ∧
      (LinesKept (ascii goodText) w' ↔ OnlyFirstLine (fromLastLine (ascii goodText))) := by
  have h : ((loadConfigFromString plainEnv false {} (ascii goodText)).map
      fun r => r.2.isNone) = some true := by decide +kernel
  obtain ⟨⟨w', err⟩, hload, herr⟩ := Option.map_eq_some_iff.mp h
  rw [Option.isNone_iff_eq_none] at herr
  subst herr
  exact ⟨w', hload, linesKept_iff plainEnv rfl rfl hload⟩

/-- The 1024th line ends in a comment, and a server's line is behind it. -/
def swallowedText : Bytes :=
  (List.replicate (maxConfigLines - 2) (ascii "#") ++ [ascii "server b:2 1"]).flatMap
    (· ++ [0x0A]) ++ ascii "proxy a:1 # myself\nserver c:3 1 61\n"

def swallowedEntries : List ConfigEntry :=
  [.server (ascii "b") 2 1 [], .proxy (ascii "a") 1]

theorem splitLine_swallowed : splitLine (ascii "\n\r") [] maxConfigLines swallowedText = some
    (List.replicate (maxConfigLines - 2) (ascii "#") ++
      [ascii "server b:2 1", ascii "proxy a:1 # myself\nserver c:3 1 61\n"]) :=
  splitLine_comments (maxConfigLines - 2) (ascii "server b:2 1")
    (ascii "roxy a:1 # myself\nserver c:3 1 61\n") (c := 0x70) (by unfold TokenChars; decide)
    (by decide) (by unfold TokenChars; decide)

theorem entriesOf_swallowed : entriesOf (List.replicate (maxConfigLines - 2) (ascii "#") ++
    [ascii "server b:2 1", ascii "proxy a:1 # myself\nserver c:3 1 61\n"])
      = some swallowedEntries := by
  rw [entriesOf_comments]
  decide +kernel

theorem fromLastLine_swallowed :
    fromLastLine swallowedText = ascii "proxy a:1 # myself\nserver c:3 1 61\n" := by
  have hwords : ∀ l ∈ List.replicate (maxConfigLines - 2) (ascii "#") ++ [ascii "server b:2 1"],
      l ≠ [] ∧ ∀ d ∈ l, isOneOf (ascii "\n\r") d = false := by
    intro l hl
    rcases List.mem_append.mp hl with hl | hl
    · rw [List.eq_of_mem_replicate hl]
      decide
    · rw [List.mem_singleton.mp hl]
      decide
  have hlen : (List.replicate (maxConfigLines - 2) (ascii "#") ++ [ascii "server b:2 1"]).length
      = maxConfigLines - 1 := by
    rw [List.length_append, List.length_replicate]
    rfl
  have h := fromWord_flatMap (c := 0x0A) (by decide)
    (ascii "proxy a:1 # myself\nserver c:3 1 61\n") hwords
  rw [hlen] at h
  exact h.trans (by decide +kernel)

theorem configEntries_swallowed : configEntries swallowedText = some swallowedEntries := by
  rw [configEntries, splitLine_swallowed]
  simp only [entriesOf_swallowed]
  rw [if_neg (by decide)]

theorem not_onlyFirstLine_swallowed : ¬ OnlyFirstLine (fromLastLine swallowedText) := by
  rw [fromLastLine_swallowed]
  intro h
  exact absurd h.servers (by decide +kernel)

/-- The server is not created, and there is no error. -/
theorem linesKept_swallowed :
    ∃ w', loadConfigFromString plainEnv false {} swallowedText = some (w', none) ∧
      ¬ LinesKept swallowedText w' := by
  have hall : (createAll plainEnv {} swallowedEntries).isSome := by decide +kernel
  obtain ⟨w', hall⟩ := Option.isSome_iff_exists.mp hall
  refine ⟨w', (loadConfigFromString_loading plainEnv {} configEntries_swallowed).1 w' hall, ?_⟩
  rw [linesKept_last splitLine_swallowed entriesOf_swallowed (createAll_leaf rfl rfl hall)]
  exact not_onlyFirstLine_swallowed

end Smalltable.Proofs
