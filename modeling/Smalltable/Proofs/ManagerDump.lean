import Smalltable.Proofs.ManagerText

/-!
# What the manager writes

Each proxy and server is a line of its own, if there is room for all of them. The last
line there is room for takes the text to its end, and then it has too many words, or a
line break at the end of a key. So a text that loads has less lines than that, and its
proxies have ports.

Nothing is asked of the hosts at first, not even that there is one. It is the loading of
the text that says what they are: a line that is read makes an entry with a host and a
port.
-/

namespace Smalltable.Proofs

open Smalltable.Ref

/-! ## Lines and their entries

The entries of a text are those of its lines, one after another. In a text with as many
lines as there is room for, the last is not cut; and a line of a proxy or a server that
is not cut does not load. -/

theorem entriesOf_append {ls ls' : List Bytes} {es es' : List ConfigEntry}
    (h : entriesOf ls = some es) (h' : entriesOf ls' = some es') :
    entriesOf (ls ++ ls') = some (es ++ es') := by
  induction ls generalizing es with
  | nil =>
      cases h
      exact h'
  | cons l ls ih =>
      rw [entriesOf] at h
      rw [List.cons_append, entriesOf]
      cases hline : parseLine l with
      | none => rw [hline] at h; cases h
      | some parsed =>
          rw [hline] at h
          cases parsed with
          | blank => exact ih h
          | error err => cases h
          | entry e =>
              obtain ⟨es1, hes1, rfl⟩ := Option.map_eq_some_iff.mp h
              simp only []
              rw [ih hes1]
              rfl

theorem entriesOf_line {lines : List Bytes} {es : List ConfigEntry}
    (h : entriesOf lines = some es) {line : Bytes} (hline : line ∈ lines) :
    parseLine line = some .blank ∨ ∃ e, parseLine line = some (.entry e) := by
  induction lines generalizing es with
  | nil => cases hline
  | cons l rest ih =>
      unfold entriesOf at h
      split at h
      · next hblank =>
          rcases List.mem_cons.mp hline with rfl | hline
          · exact .inl hblank
          · exact ih h hline
      · next e hentry =>
          obtain ⟨es', hes', rfl⟩ := Option.map_eq_some_iff.mp h
          rcases List.mem_cons.mp hline with rfl | hline
          · exact .inr ⟨e, hentry⟩
          · exact ih hes' hline
      · cases h

/-- The last line there is room for takes all that is left. -/
theorem splitLine_full (before : List Bytes) {c : UInt8} (rest : Bytes)
    (hbefore : ∀ l ∈ before, l ≠ [] ∧ TokenChars (ascii "\n\r") [] l)
    (hc : c < 0x80 ∧ c ∉ ascii "\n\r" ∧ c ∉ ([] : Bytes)) :
    splitLine (ascii "\n\r") [] (before.length + 1) (before.flatMap (· ++ [0x0A]) ++ c :: rest)
      = some (before ++ [c :: rest]) := by
  have hfilter : before.filter (fun l => !l.isEmpty) = before := by
    refine List.filter_eq_self.mpr fun l hl => ?_
    simp [(hbefore l hl).1]
  rw [splitLine, splitLoop_lines (by decide) (by decide) (by decide) _ _ []
    (fun l hl => (hbefore l hl).2) (by rw [hfilter]; simp), hfilter, List.nil_append]
  exact splitLoop_last hc rest rfl

theorem splitLoop_length {sepChars quitChars : Bytes} {argvSz : Nat} : ∀ {line : Bytes}
    {argv : List Bytes} {cur : Option Bytes} {r : List Bytes},
      splitLoop sepChars quitChars argvSz line argv cur = some r →
        argv.length + cur.toList.length ≤ r.length := by
  intro line
  induction line with
  | nil =>
      intro argv cur r h
      cases h
      rw [List.length_append]
  | cons c rest ih =>
      intro argv cur r h
      unfold splitLoop at h
      split at h
      · cases h
      · have hlen := ih h
        rw [List.length_append] at hlen
        exact (Nat.le_add_right _ _).trans hlen
      · cases h
        rw [List.length_append]
      · split at h
        · have hlen := ih h
          exact hlen
        · split at h
          · cases h
            rw [List.length_append]
            exact Nat.add_le_add_left (Nat.zero_le _) _
          · have hlen := ih h
            exact Nat.le_of_succ_le hlen

/-- One more word, whatever it is. -/
theorem splitLoop_more {sepChars quitChars : Bytes} {argvSz : Nat} {c : UInt8} {rest : Bytes}
    {argv r : List Bytes} (hc : c < 0x80 ∧ c ∉ sepChars ∧ c ∉ quitChars)
    (hroom : argv.length + 1 < argvSz)
    (h : splitLoop sepChars quitChars argvSz (c :: rest) argv none = some r) :
    argv <+: r ∧ argv.length < r.length := by
  refine ⟨splitLoop_front h, ?_⟩
  rw [splitLoop, sepTable_token hc] at h
  simp only [] at h
  rw [if_neg (by omega)] at h
  exact splitLoop_length h

/-- A word of a host: one line, one word, no comment. -/
structure HostWord (host : Bytes) : Prop where
  nonempty : host ≠ []
  chars : ∀ c ∈ host, c < 0x80 ∧ c ≠ 0 ∧ c ∉ ascii " ,\t" ∧ c ∉ ascii "#" ∧ c ∉ ascii "\n\r"

theorem HostWord.word {host : Bytes} (h : HostWord host) :
    TokenChars (ascii " ,\t") (ascii "#") host :=
  fun c hc => ⟨(h.chars c hc).1, (h.chars c hc).2.2.1, (h.chars c hc).2.2.2.1⟩

theorem parseLine_proxyWord {host : Bytes} (h : HostWord host) :
    parseLine (ascii "proxy\t" ++ host) = match getHostPort host with
      | none => none
      | some none => some (.error (ascii "Bad host description or port number"))
      | some (some (host, port)) => some (.entry (.proxy host port)) := by
  unfold parseLine
  rw [splitLine_proxy h.word h.nonempty]
  simp only [if_true]
  unfold parseProxy
  rw [if_neg (by simp)]
  rfl

theorem hostChar {c : UInt8} (hlow : c < 0x80) (hzero : c ≠ 0) (hspace : isSpace c = false)
    (hcomma : c ≠ 0x2C) (hhash : c ≠ 0x23) :
    c < 0x80 ∧ c ≠ 0 ∧ c ∉ ascii " ,\t" ∧ c ∉ ascii "#" ∧ c ∉ ascii "\n\r" := by
  have hsep : ∀ c ∈ ascii " ,\t", isSpace c = true ∨ c = 0x2C := by decide
  have hquit : ∀ c ∈ ascii "#", c = 0x23 := by decide
  have hbreak : ∀ c ∈ ascii "\n\r", isSpace c = true := by decide
  refine ⟨hlow, hzero, fun h => ?_, fun h => hhash (hquit c h), fun h => ?_⟩
  · rcases hsep c h with hs | hs
    · rw [hspace] at hs
      cases hs
    · exact hcomma hs
  · have hs := hbreak c h
    rw [hspace] at hs
    cases hs

/-- A line of a proxy with the next line behind it. -/
theorem parseLine_proxy_uncut {host keyword rest : Bytes} {c : UInt8} {l : ConfigLine}
    (hhost : HostWord host) (hkeyword : TokenChars (ascii " ,\t") (ascii "#") keyword)
    (hc : c < 0x80 ∧ c ∉ ascii " ,\t" ∧ c ∉ ascii "#")
    (h : parseLine ((ascii "proxy\t" ++ host) ++ 0x0A :: (keyword ++ 0x09 :: c :: rest)) = some l) :
    ∃ err, l = .error err := by
  have hproxy : TokenChars (ascii " ,\t") (ascii "#") (ascii "proxy") := by
    unfold TokenChars
    decide
  have hsecond : TokenChars (ascii " ,\t") (ascii "#") (host ++ 0x0A :: keyword) := by
    intro d hd
    rcases List.mem_append.mp hd with hd | hd
    · exact hhost.word d hd
    · rcases List.mem_cons.mp hd with rfl | hd
      · decide
      · exact hkeyword d hd
  have hline : (ascii "proxy\t" ++ host) ++ 0x0A :: (keyword ++ 0x09 :: c :: rest)
      = ascii "proxy" ++ 0x09 :: ((host ++ 0x0A :: keyword) ++ 0x09 :: c :: rest) := by
    simp [ascii]
  unfold parseLine at h
  rw [splitLine, hline, splitLoop_token_sep hproxy (by decide) (by decide) (by decide) (by decide) _
    (by decide), splitLoop_token_sep hsecond (by simp) (by decide) (by decide) (by decide) _
    (by simp)] at h
  split at h
  · cases h
  · next hnil =>
      have hpre := (splitLoop_more hc (by simp) hnil).1
      exact absurd (List.prefix_nil.mp hpre) (by simp)
  · next keyword' args hargv =>
      obtain ⟨⟨more, hmore⟩, hlen⟩ := splitLoop_more hc (by simp) hargv
      rw [List.nil_append, List.cons_append, List.cons_append, List.cons.injEq] at hmore
      obtain ⟨rfl, hargs⟩ := hmore
      rw [if_pos rfl, parseProxy, if_pos] at h
      · exact ⟨_, (Option.some.inj h).symm⟩
      · simp only [List.nil_append, List.length_append, List.length_cons, List.length_nil] at hlen ⊢
        omega

/-- A line of a server with all that is behind it. -/
theorem parseLine_server_uncut {addr hex rest : Bytes} {weight : Int} {l : ConfigLine}
    (haddr : TokenChars (ascii " ,\t") (ascii "#") addr) (hne : addr ≠ []) (hweight : 1 ≤ weight)
    (hhex : TokenChars (ascii " ,\t") (ascii "#") hex) (heven : hex.length % 2 = 0)
    (hrest : rest = [] ∨ ∃ c rest', (c < 0x80 ∧ c ∉ ascii " ,\t" ∧ c ∉ ascii "#") ∧
      rest = ascii "server" ++ 0x09 :: c :: rest')
    (h : parseLine (serverText addr weight hex ++ 0x0A :: rest) = some l) :
    ∃ err, l = .error err := by
  have hserver : TokenChars (ascii " ,\t") (ascii "#") (ascii "server") := by
    unfold TokenChars
    decide
  have hline : serverText addr weight hex ++ 0x0A :: rest = ascii "server" ++ 0x09 ::
      (addr ++ 0x2C :: 0x20 :: (decimal weight ++ 0x2C :: 0x20 :: (hex ++ 0x0A :: rest))) := by
    simp [serverText, ascii]
  have hbreak : TokenChars (ascii " ,\t") (ascii "#") (hex ++ [0x0A]) := by
    intro d hd
    rcases List.mem_append.mp hd with hd | hd
    · exact hhex d hd
    · rw [List.mem_singleton.mp hd]
      decide
  unfold parseLine at h
  rw [splitLine, hline, splitLoop_token_sep hserver (by decide) (by decide) (by decide)
      (by decide) _
      (by decide),
    splitLoop_token_sep haddr hne (by decide) (by decide) (by decide) _ (by simp),
    splitLoop_sep (by decide) (by decide) (by decide),
    splitLoop_token_sep (decimal_word hweight) (decimal_ne_nil_int hweight) (by decide) (by decide)
      (by decide) _ (by simp),
    splitLoop_sep (by decide) (by decide) (by decide)] at h
  rcases hrest with rfl | ⟨c, rest', hc, rfl⟩
  · -- the line break is taken for a part of the key
    rw [splitLoop_token_end hbreak (by simp) (by simp)] at h
    simp only [List.nil_append, List.cons_append, Option.toList_none, List.append_nil,
      show ascii "server" ≠ ascii "proxy" by decide, if_false, if_true] at h
    unfold parseServer at h
    rw [if_neg (by simp)] at h
    split at h
    · cases h
    · exact ⟨_, (Option.some.inj h).symm⟩
    · simp only [List.getD_cons_succ, List.getD_cons_zero] at h
      split at h
      · exact ⟨_, (Option.some.inj h).symm⟩
      · rw [if_pos (by simp)] at h
        split at h
        · cases h
        · exact ⟨_, (Option.some.inj h).symm⟩
        · next hdecode =>
            have hlen := (decodeHexLoop_spec hdecode).1
            rw [List.length_append, List.length_singleton, List.length_nil] at hlen
            omega
  · -- there are more words
    have hfourth : TokenChars (ascii " ,\t") (ascii "#") (hex ++ 0x0A :: ascii "server") := by
      intro d hd
      rcases List.mem_append.mp hd with hd | hd
      · exact hhex d hd
      · rcases List.mem_cons.mp hd with rfl | hd
        · decide
        · exact hserver d hd
    have hshape : hex ++ 0x0A :: (ascii "server" ++ 0x09 :: c :: rest')
        = (hex ++ 0x0A :: ascii "server") ++ 0x09 :: c :: rest' := by
      simp
    rw [hshape, splitLoop_token_sep hfourth (by simp) (by decide) (by decide) (by decide) _
      (by simp)] at h
    split at h
    · cases h
    · next hnil =>
        have hpre := (splitLoop_more hc (by simp) hnil).1
        exact absurd (List.prefix_nil.mp hpre) (by simp)
    · next keyword' args hargv =>
        obtain ⟨⟨more, hmore⟩, hlen⟩ := splitLoop_more hc (by simp) hargv
        simp only [List.nil_append, Option.toList_none, List.append_nil, List.cons_append,
          List.cons.injEq] at hmore
        obtain ⟨rfl, hargs⟩ := hmore
        rw [if_neg (by decide), if_pos rfl, parseServer, if_pos] at h
        · exact ⟨_, (Option.some.inj h).symm⟩
        · simp only [List.nil_append, Option.toList_none, List.append_nil, List.length_append,
            List.length_cons, List.length_nil] at hlen ⊢
          omega

/-! ## Writing it out

The manager prints a host and a port, and keys as hex digits. Read by the proxy again
these are what they were, unless the host has characters that separate words. -/

theorem decodeHex_hexEncode {key : Bytes} (h : key.length ≤ 256) :
    decodeHex (Manager.hexEncode key) = some (some key) := by
  have hdigit : ∀ n < 16, ¬ (ascii "0123456789abcdef").getD n 0 ≥ 0x80 ∧
      hexToInt ((ascii "0123456789abcdef").getD n 0) = n ∧
        ¬ (n = 0 ∧ (ascii "0123456789abcdef").getD n 0 ≠ 0x30) := by
    decide +kernel
  have hall : ∀ (key front : Bytes), front.length + key.length ≤ 256 →
      decodeHexLoop (Manager.hexEncode key) front = some (some (front ++ key)) := by
    intro key
    induction key with
    | nil =>
        intro front _
        rw [Manager.hexEncode, List.flatMap_nil, decodeHexLoop, List.append_nil]
    | cons c rest ih =>
        intro front h
        rw [List.length_cons] at h
        have hrest := ih (front ++ [c]) (by rw [List.length_append, List.length_singleton]; omega)
        rw [List.append_assoc, List.singleton_append, Manager.hexEncode] at hrest
        have hlt := UInt8.toNat_lt c
        obtain ⟨ha, hhi, hza⟩ := hdigit (c.toNat / 16) (by omega)
        obtain ⟨hb, hlo, hzb⟩ := hdigit (c.toNat % 16) (by omega)
        have hc : c.toNat / 16 * 16 + c.toNat % 16 = c.toNat := by omega
        rw [Manager.hexEncode, List.flatMap_cons, List.cons_append, List.cons_append,
          List.nil_append, decodeHexLoop, if_neg (by omega), if_neg (not_or.mpr ⟨ha, hb⟩), hhi, hlo,
          if_neg (not_or.mpr ⟨hza, hzb⟩), hc]
        simpa using hrest
  rw [decodeHex, hall key [] (by simpa using h), List.nil_append]

section Dump

variable (order : Manager.IterOrder) (proxies : Dict Bytes Manager.Client)
  (servers : Dict Bytes Manager.ServerRange)

/-- The lines of the proxies, in an order that the dictionary decides. -/
def proxyLines : List Bytes := (order.iteritems proxies.items).map fun p => Manager.proxyText p.1

/-- The lines of the servers, in another such order. -/
def serverLines : List Bytes :=
  (order.iteritems servers.items).map fun p =>
    serverText p.1 p.2.weight (Manager.hexEncode p.2.lKey)

/-- All lines that `dump_config` writes. -/
def dumpLines : List Bytes := proxyLines order proxies ++ serverLines order servers

theorem length_proxyLines : (proxyLines order proxies).length = proxies.items.length := by
  rw [proxyLines, List.length_map, (order.perm _).length_eq]

theorem length_serverLines : (serverLines order servers).length = servers.items.length := by
  rw [serverLines, List.length_map, (order.perm _).length_eq]

variable {order proxies servers}

theorem mem_proxyLines {l : Bytes} : l ∈ proxyLines order proxies ↔
    ∃ host ∈ proxies.keys, l = ascii "proxy\t" ++ host := by
  rw [proxyLines, List.mem_map, Dict.keys]
  constructor
  · rintro ⟨p, hp, rfl⟩
    exact ⟨p.1, List.mem_map_of_mem ((order.perm _).mem_iff.mp hp), rfl⟩
  · rintro ⟨host, hhost, rfl⟩
    obtain ⟨p, hp, rfl⟩ := List.mem_map.mp hhost
    exact ⟨p, (order.perm _).mem_iff.mpr hp, rfl⟩

theorem mem_serverLines {l : Bytes} : l ∈ serverLines order servers ↔
    ∃ p ∈ servers.items, l = serverText p.1 p.2.weight (Manager.hexEncode p.2.lKey) := by
  rw [serverLines, List.mem_map]
  constructor
  · rintro ⟨p, hp, rfl⟩
    exact ⟨p, (order.perm _).mem_iff.mp hp, rfl⟩
  · rintro ⟨p, hp, rfl⟩
    exact ⟨p, (order.perm _).mem_iff.mpr hp, rfl⟩

theorem intercalate_lines : ∀ {l : List Bytes}, l ≠ [] →
    [0x0A].intercalate l ++ [0x0A] = l.flatMap (· ++ [0x0A])
  | [], h => absurd rfl h
  | [a], _ => by simp
  | a :: b :: l, _ => by
      have ih := intercalate_lines (List.cons_ne_nil b l)
      rw [List.intercalate_cons_cons, List.append_assoc, List.append_assoc, ih,
        List.flatMap_cons (x := a), List.append_assoc]

theorem dumpConfig_eq (hne : servers.items ≠ []) : Manager.dumpConfig order proxies servers
    = (dumpLines order proxies servers).flatMap (· ++ [0x0A]) := by
  refine intercalate_lines ?_
  refine List.append_ne_nil_of_right_ne_nil _ fun hnil => hne ?_
  have hlen := length_serverLines order servers
  rw [serverLines, hnil, List.length_nil] at hlen
  exact List.length_eq_zero_iff.mp hlen.symm

theorem hexEncode_subset (key : Bytes) : Manager.hexEncode key ⊆ ascii "0123456789abcdef" := by
  have hhex : ∀ n < 16, (ascii "0123456789abcdef").getD n 0 ∈ ascii "0123456789abcdef" := by
    decide +kernel
  intro c hc
  obtain ⟨k, -, hc⟩ := List.mem_flatMap.mp hc
  have hlt := UInt8.toNat_lt k
  simp only [List.mem_cons, List.not_mem_nil, or_false] at hc
  rcases hc with rfl | rfl
  · exact hhex _ (by omega)
  · exact hhex _ (by omega)

theorem decimal_chars (n : Int) : decimal n ⊆ ascii "-0123456789" := by
  have hdigits : ascii "0123456789" ⊆ ascii "-0123456789" := by decide
  cases n with
  | ofNat k =>
      cases k with
      | zero => decide
      | succ k =>
          have hpos : (1 : Int) ≤ ((k + 1 : Nat) : Int) := by omega
          exact List.Subset.trans (decimal_subset hpos) hdigits
  | negSucc k =>
      have hneg : decimal (Int.negSucc k) = 0x2D :: decimal ((k + 1 : Nat) : Int) := by
        rw [decimal, decimal, ascii, ascii, show toString (Int.negSucc k)
          = "-" ++ toString ((k + 1 : Nat) : Int) from rfl, String.toList_append, List.map_append]
        rfl
      rw [hneg]
      exact List.cons_subset.mpr
        ⟨by decide, List.Subset.trans (decimal_subset (by omega)) hdigits⟩

/-- The lines that are written are lines. -/
structure CleanLine (l : Bytes) : Prop where
  nonempty : l ≠ []
  chars : ∀ c ∈ l, c < 0x80 ∧ c ≠ 0 ∧ c ∉ ascii "\n\r"

theorem CleanLine.line {l : Bytes} (h : CleanLine l) : TokenChars (ascii "\n\r") [] l :=
  fun c hc => ⟨(h.chars c hc).1, (h.chars c hc).2.2, List.not_mem_nil⟩

theorem cleanLine_dumpLines (hproxies : ∀ host ∈ proxies.keys, HostWord host)
    (hservers : ∀ host ∈ servers.keys, HostWord host) {l : Bytes}
    (hl : l ∈ dumpLines order proxies servers) : CleanLine l := by
  have hplain : ∀ c ∈ ascii "proxyserver\t, -0123456789abcdef",
      c < 0x80 ∧ c ≠ 0 ∧ c ∉ ascii "\n\r" := by decide
  have hpart : ∀ {s : Bytes}, s ⊆ ascii "proxyserver\t, -0123456789abcdef" →
      ∀ c ∈ s, c < 0x80 ∧ c ≠ 0 ∧ c ∉ ascii "\n\r" := fun hs c hc => hplain c (hs hc)
  have hhost : ∀ {host : Bytes}, HostWord host →
      ∀ c ∈ host, c < 0x80 ∧ c ≠ 0 ∧ c ∉ ascii "\n\r" := fun h c hc =>
    ⟨(h.chars c hc).1, (h.chars c hc).2.1, (h.chars c hc).2.2.2.2⟩
  rcases List.mem_append.mp hl with hl | hl
  · obtain ⟨host, hmem, rfl⟩ := mem_proxyLines.mp hl
    refine ⟨by simp [ascii], fun c hc => ?_⟩
    rcases List.mem_append.mp hc with hc | hc
    · exact hpart (by decide) c hc
    · exact hhost (hproxies host hmem) c hc
  · obtain ⟨p, hp, rfl⟩ := mem_serverLines.mp hl
    refine ⟨by simp [serverText, ascii], fun c hc => ?_⟩
    simp only [serverText, List.mem_append] at hc
    rcases hc with ((((hc | hc) | hc) | hc) | hc) | hc
    · exact hpart (show ascii "server\t" ⊆ _ by decide) c hc
    · exact hhost (hservers p.1 (List.mem_map_of_mem hp)) c hc
    · exact hpart (show ascii ", " ⊆ _ by decide) c hc
    · exact hpart (List.Subset.trans (decimal_chars _) (by decide)) c hc
    · exact hpart (show ascii ", " ⊆ _ by decide) c hc
    · exact hpart (List.Subset.trans (hexEncode_subset _) (by decide)) c hc

theorem cString_lines {ls : List Bytes} (h : ∀ l ∈ ls, CleanLine l) :
    cString (ls.flatMap (· ++ [0x0A])) = ls.flatMap (· ++ [0x0A]) := by
  refine cString_of_not_mem fun hmem => ?_
  obtain ⟨l, hl, hc⟩ := List.mem_flatMap.mp hmem
  rcases List.mem_append.mp hc with hc | hc
  · exact ((h l hl).chars _ hc).2.1 rfl
  · exact absurd (List.mem_singleton.mp hc) (by decide)

/-- A text of clean lines is told apart into them, or there are too many. -/
theorem splitLine_clean {ls : List Bytes} (h : ∀ l ∈ ls, CleanLine l) :
    (ls.length < maxConfigLines ∧
      splitLine (ascii "\n\r") [] maxConfigLines (ls.flatMap (· ++ [0x0A])) = some ls) ∨
    ∃ before l after, ls = before ++ l :: after ∧ before.length + 1 = maxConfigLines ∧
      splitLine (ascii "\n\r") [] maxConfigLines (ls.flatMap (· ++ [0x0A]))
        = some (before ++ [l ++ 0x0A :: after.flatMap (· ++ [0x0A])]) := by
  by_cases hlen : ls.length < maxConfigLines
  · have hfilter : ls.filter (fun l => !l.isEmpty) = ls := by
      refine List.filter_eq_self.mpr fun l hl => ?_
      simp [(h l hl).nonempty]
    refine .inl ⟨hlen, ?_⟩
    rw [splitLine_textOf (.inl rfl) (fun l hl => (h l hl).line) (by rw [hfilter]; exact hlen),
      hfilter]
  · have hpos : 0 < maxConfigLines := by decide
    have hlt : maxConfigLines - 1 < ls.length := by omega
    have hsplit : ls = ls.take (maxConfigLines - 1) ++
        ls[maxConfigLines - 1] :: ls.drop (maxConfigLines - 1 + 1) := by
      rw [List.getElem_cons_drop, List.take_append_drop]
    have hbefore : (ls.take (maxConfigLines - 1)).length + 1 = maxConfigLines := by
      rw [List.length_take]
      omega
    refine .inr ⟨_, _, _, hsplit, hbefore, ?_⟩
    generalize ls.take (maxConfigLines - 1) = before at hsplit hbefore ⊢
    generalize ls.drop (maxConfigLines - 1 + 1) = after at hsplit ⊢
    generalize ls[maxConfigLines - 1] = l at hsplit ⊢
    have hl := h l (by rw [hsplit]; simp)
    obtain ⟨c, rest, rfl⟩ := List.exists_cons_of_ne_nil hl.nonempty
    have hfull := splitLine_full before (rest ++ 0x0A :: after.flatMap (· ++ [0x0A]))
      (fun l' hl' => ⟨(h l' (by rw [hsplit]; exact List.mem_append_left _ hl')).nonempty,
        (h l' (by rw [hsplit]; exact List.mem_append_left _ hl')).line⟩)
      (hl.line c List.mem_cons_self)
    rw [hbefore] at hfull
    rw [hsplit, List.flatMap_append, List.flatMap_cons, List.append_assoc, List.singleton_append,
      List.cons_append, hfull]

/-! ### What a text that loads had to be

The other direction: from the entries of the text back to the proxies and servers it was
printed from. -/

theorem proxyLine_front {host : Bytes} (h : HostWord host) : ∃ c rest,
    ascii "proxy\t" ++ host = ascii "proxy" ++ 0x09 :: c :: rest ∧
      (c < 0x80 ∧ c ∉ ascii " ,\t" ∧ c ∉ ascii "#") := by
  obtain ⟨c, rest, rfl⟩ := List.exists_cons_of_ne_nil h.nonempty
  exact ⟨c, rest, by simp [ascii], h.word c List.mem_cons_self⟩

theorem serverLine_front {host : Bytes} (weight : Int) (hex : Bytes) (h : HostWord host) : ∃ c rest,
    serverText host weight hex = ascii "server" ++ 0x09 :: c :: rest ∧
      (c < 0x80 ∧ c ∉ ascii " ,\t" ∧ c ∉ ascii "#") := by
  obtain ⟨c, rest, rfl⟩ := List.exists_cons_of_ne_nil h.nonempty
  exact ⟨c, rest ++ (ascii ", " ++ (decimal weight ++ (ascii ", " ++ hex))),
    by simp [serverText, ascii], h.word c List.mem_cons_self⟩

theorem length_hexEncode (key : Bytes) : (Manager.hexEncode key).length % 2 = 0 := by
  induction key with
  | nil => rfl
  | cons c key ih =>
      rw [Manager.hexEncode, List.flatMap_cons, List.length_append, List.length_cons,
        List.length_singleton]
      rw [Manager.hexEncode] at ih
      omega

/-- A line that loads is not an error. -/
theorem not_error_of_entriesOf {lines : List Bytes} {es : List ConfigEntry}
    (h : entriesOf lines = some es) {line : Bytes} (hline : line ∈ lines)
    (herr : ∀ l, parseLine line = some l → ∃ err, l = .error err) : False := by
  rcases entriesOf_line h hline with hblank | ⟨e, he⟩
  · obtain ⟨err, heq⟩ := herr _ hblank
    cases heq
  · obtain ⟨err, heq⟩ := herr _ he
    cases heq

section Loads

variable {env' : ProxyEnv} {w1 w' : ProxyWorld}

theorem entries_of_dump (hproxies : ∀ host ∈ proxies.keys, HostWord host)
    (hservers : ∀ host ∈ servers.keys, HostWord host) (hne : servers.items ≠ [])
    (hload : loadConfigFromString env' false w1
      (cString (Manager.dumpConfig order proxies servers)) = some (w', none)) :
    ∃ lines es, entriesOf lines = some es ∧
      (((dumpLines order proxies servers).length < maxConfigLines ∧
          lines = dumpLines order proxies servers) ∨
        ∃ before l after, dumpLines order proxies servers = before ++ l :: after ∧
          before.length + 1 = maxConfigLines ∧
          lines = before ++ [l ++ 0x0A :: after.flatMap (· ++ [0x0A])]) := by
  have hclean : ∀ l ∈ dumpLines order proxies servers, CleanLine l :=
    fun l hl => cleanLine_dumpLines hproxies hservers hl
  rw [dumpConfig_eq hne, cString_lines hclean] at hload
  obtain ⟨lines, es, hlines, hes, -⟩ := createAll_of_load env' hload
  refine ⟨lines, es, hes, ?_⟩
  rcases splitLine_clean hclean with ⟨hlen, hsplit⟩ | ⟨before, l, after, hshape, hbefore, hsplit⟩
  · rw [hlines] at hsplit
    exact .inl ⟨hlen, Option.some.inj hsplit⟩
  · rw [hlines] at hsplit
    exact .inr ⟨before, l, after, hshape, hbefore, Option.some.inj hsplit⟩

/-- The proxies' lines are read, each on its own. -/
theorem proxies_of_dump (hproxies : ∀ host ∈ proxies.keys, HostWord host)
    (hservers : ∀ host ∈ servers.keys, HostWord host) (hne : servers.items ≠ [])
    (hload : loadConfigFromString env' false w1
      (cString (Manager.dumpConfig order proxies servers)) = some (w', none)) :
    (proxyLines order proxies).length < maxConfigLines ∧
      ∀ host ∈ proxies.keys, ∃ name port, getHostPort host = some (some (name, port)) := by
  obtain ⟨lines, es, hes, hlines⟩ := entries_of_dump hproxies hservers hne hload
  have hread : ∀ host ∈ proxies.keys, ascii "proxy\t" ++ host ∈ lines →
      ∃ name port, getHostPort host = some (some (name, port)) := by
    intro host hhost hmem
    have hparse := parseLine_proxyWord (hproxies host hhost)
    rcases entriesOf_line hes hmem with hline | ⟨e, hline⟩
    · rw [hline] at hparse
      split at hparse <;> cases hparse
    · rw [hline] at hparse
      split at hparse
      · cases hparse
      · cases hparse
      · next name port hport => exact ⟨name, port, hport⟩
  have hsub : proxyLines order proxies ⊆ lines →
      ∀ host ∈ proxies.keys, ∃ name port, getHostPort host = some (some (name, port)) :=
    fun hsub host hhost => hread host hhost (hsub (mem_proxyLines.mpr ⟨host, hhost, rfl⟩))
  rcases hlines with ⟨hlen, rfl⟩ | ⟨before, l, after, hshape, hbefore, rfl⟩
  · refine ⟨?_, hsub (List.subset_append_left _ _)⟩
    rw [dumpLines, List.length_append] at hlen
    omega
  · rcases List.append_eq_append_iff.mp hshape with ⟨mid, rfl, -⟩ | ⟨mid, hmid, hafter⟩
    · refine ⟨?_, hsub fun l' hl' => List.mem_append_left _ (List.mem_append_left _ hl')⟩
      rw [List.length_append] at hbefore
      omega
    · cases mid with
      | nil =>
          rw [List.append_nil] at hmid
          refine ⟨by rw [hmid]; omega, hsub fun l' hl' => List.mem_append_left _ ?_⟩
          rwa [← hmid]
      | cons l' mid =>
          rw [List.cons_append] at hafter
          obtain ⟨rfl, rfl⟩ := List.cons.inj hafter
          have hl : l ∈ proxyLines order proxies := by
            rw [hmid]
            simp
          obtain ⟨host, hhost, rfl⟩ := mem_proxyLines.mp hl
          have hnext : ∃ keyword c rest, (mid ++ serverLines order servers).flatMap (· ++ [0x0A])
              = keyword ++ 0x09 :: c :: rest ∧ TokenChars (ascii " ,\t") (ascii "#") keyword ∧
                (c < 0x80 ∧ c ∉ ascii " ,\t" ∧ c ∉ ascii "#") := by
            cases mid with
            | nil =>
                obtain ⟨s, ss, hss⟩ := List.exists_cons_of_ne_nil
                  (show serverLines order servers ≠ [] by
                    rw [← List.length_pos_iff, length_serverLines]
                    exact List.length_pos_iff.mpr hne)
                obtain ⟨p, hp, rfl⟩ := mem_serverLines.mp
                  (show s ∈ serverLines order servers by rw [hss]; exact List.mem_cons_self)
                obtain ⟨c, rest, hfront, hc⟩ := serverLine_front p.2.weight
                  (Manager.hexEncode p.2.lKey) (hservers p.1 (List.mem_map_of_mem hp))
                refine ⟨ascii "server", c, rest ++ 0x0A :: ss.flatMap (· ++ [0x0A]), ?_,
                  by unfold TokenChars; decide, hc⟩
                rw [hss, List.nil_append, List.flatMap_cons, hfront]
                simp
            | cons m mid =>
                obtain ⟨host', hhost', rfl⟩ := mem_proxyLines.mp
                  (show m ∈ proxyLines order proxies by rw [hmid]; simp)
                obtain ⟨c, rest, hfront, hc⟩ := proxyLine_front (hproxies host' hhost')
                refine ⟨ascii "proxy", c, rest ++ 0x0A ::
                  (mid ++ serverLines order servers).flatMap (· ++ [0x0A]), ?_,
                  by unfold TokenChars; decide, hc⟩
                rw [List.cons_append, List.flatMap_cons, hfront]
                simp
          obtain ⟨keyword, c, rest, hrest, hkeyword, hc⟩ := hnext
          rw [hrest] at hes
          exact (not_error_of_entriesOf hes (List.mem_append_right _ (List.mem_singleton_self _))
            fun l hl => parseLine_proxy_uncut (hproxies host hhost) hkeyword hc hl).elim

/-- And there is room for all. -/
theorem room_of_dump (hproxies : ∀ host ∈ proxies.keys, HostWord host)
    (hservers : ∀ host ∈ servers.keys, HostWord host)
    (hweights : ∀ p ∈ servers.items, 1 ≤ p.2.weight) (hne : servers.items ≠ [])
    (hload : loadConfigFromString env' false w1
      (cString (Manager.dumpConfig order proxies servers)) = some (w', none)) :
    (dumpLines order proxies servers).length < maxConfigLines := by
  have hroom := (proxies_of_dump hproxies hservers hne hload).1
  obtain ⟨lines, es, hes, hlines⟩ := entries_of_dump hproxies hservers hne hload
  rcases hlines with ⟨hlen, -⟩ | ⟨before, l, after, hshape, hbefore, rfl⟩
  · exact hlen
  · obtain ⟨mid, rfl, hafter⟩ : ∃ mid, before = proxyLines order proxies ++ mid ∧
        serverLines order servers = mid ++ l :: after := by
      rcases List.append_eq_append_iff.mp hshape with ⟨mid, hmid, hafter⟩ | ⟨mid, hmid, hafter⟩
      · exact ⟨mid, hmid, hafter⟩
      · cases mid with
        | nil => exact ⟨[], by rw [hmid]; simp, hafter.symm⟩
        | cons l' mid =>
            rw [hmid, List.length_append, List.length_cons] at hroom
            omega
    have hl : l ∈ serverLines order servers := by
      rw [hafter]
      simp
    obtain ⟨p, hp, rfl⟩ := mem_serverLines.mp hl
    have hhost := hservers p.1 (List.mem_map_of_mem hp)
    have hrest : after.flatMap (· ++ [(0x0A : UInt8)]) = [] ∨ ∃ c rest',
        (c < 0x80 ∧ c ∉ ascii " ,\t" ∧ c ∉ ascii "#") ∧
          after.flatMap (· ++ [0x0A]) = ascii "server" ++ 0x09 :: c :: rest' := by
      cases after with
      | nil => exact .inl rfl
      | cons s after =>
          obtain ⟨q, hq, rfl⟩ := mem_serverLines.mp
            (show s ∈ serverLines order servers by rw [hafter]; simp)
          obtain ⟨c, rest, hfront, hc⟩ := serverLine_front q.2.weight
            (Manager.hexEncode q.2.lKey) (hservers q.1 (List.mem_map_of_mem hq))
          refine .inr ⟨c, rest ++ 0x0A :: after.flatMap (· ++ [0x0A]), hc, ?_⟩
          rw [List.flatMap_cons, hfront]
          simp
    have hhex : TokenChars (ascii " ,\t") (ascii "#") (Manager.hexEncode p.2.lKey) :=
      tokenChars_of_subset (hexEncode_subset _) (by decide)
    exact (not_error_of_entriesOf hes (List.mem_append_right _ (List.mem_singleton_self _))
      fun l hl => parseLine_server_uncut hhost.word hhost.nonempty (hweights p hp) hhex
        (length_hexEncode _) hrest hl).elim

end Loads

end Dump

end Smalltable.Proofs
