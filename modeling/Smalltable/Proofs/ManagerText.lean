import Mathlib.Data.List.Sort
import Smalltable.Proofs.ConfigText
import Smalltable.Proofs.Routing
import Smalltable.Ref.ManagerConfig

/-!
# What the manager reads in a printed configuration

Python's `split` knows more white space than `split_line`, a vertical tab, a form
feed and the line breaks, and a host may have these in it. A line of a proxy has two
words if its address is one, and then that is what is taken for the host. A line of a
server is read back when its host has no white space at all.

What is shown of Python's functions is no more than is needed of the lines the proxy
prints, and the lines are taken with every host that a loaded configuration can have.
-/

namespace Smalltable.Proofs

open Smalltable.Ref

/-! ## Strings

Python's functions on strings, as far as they are used: numbers, hex digits, and what
`strip` and `split` leave. -/

theorem pyInt_decimal {n : Int} (h : 1 ≤ n) : Manager.pyInt (decimal n) = some n := by
  obtain ⟨k, rfl⟩ := Int.eq_ofNat_of_zero_le (show 0 ≤ n by omega)
  have hsign : ∀ c : UInt8, c.toNat < 0x30 → (decimal (k : Int)).head? ≠ some c := by
    intro c hc hhead
    have hlo := (mem_decimal (List.mem_of_mem_head? hhead)).1
    omega
  have hdigits : ¬ (decimal (k : Int) = [] ∨ ∃ c ∈ decimal (k : Int), isDigit c = false) := by
    rintro (hnil | ⟨c, hc, hno⟩)
    · exact decimal_ne_nil k hnil
    · have hrange := mem_decimal hc
      simp only [isDigit, decide_eq_false_iff_not, UInt8.le_iff_toNat_le] at hno
      exact hno hrange
  have hfold := foldl_decimal k
  unfold Manager.pyInt
  simp only [hsign 0x2D (by decide), hsign 0x2B (by decide), or_self, if_false]
  rw [if_neg hdigits, hfold]

theorem hexDecode_encodeHex {key : Bytes} (h : key.length ≤ 256) :
    Manager.hexDecode (encodeHex key) = some key := by
  have hdigit : ∀ n < 16, Manager.hexDigit (toHexTrans n) = some n := by decide +kernel
  have hall : ∀ key : Bytes, Manager.hexDecode (key.flatMap fun c =>
      [toHexTrans (c.toNat / 16 % 16), toHexTrans (c.toNat % 16)]) = some key := by
    intro key
    induction key with
    | nil => rfl
    | cons c rest ih =>
        have hlt := UInt8.toNat_lt c
        have hc : c.toNat / 16 % 16 * 16 + c.toNat % 16 = c.toNat := by omega
        rw [List.flatMap_cons, List.cons_append, List.cons_append, List.nil_append,
          Manager.hexDecode, hdigit _ (Nat.mod_lt _ (by decide)),
          hdigit _ (Nat.mod_lt _ (by decide)),
          ih]
        simp only [hc]
        simp
  rw [encodeHex, List.take_of_length_le h]
  exact hall key

/-- A string of odd length is not hexadecimal. -/
theorem hexDecode_odd : ∀ {s : Bytes}, s.length % 2 = 1 → Manager.hexDecode s = none
  | [], h => by simp at h
  | [_], _ => rfl
  | a :: b :: rest, h => by
      have hrest : rest.length % 2 = 1 := by
        simp only [List.length_cons] at h
        omega
      rw [Manager.hexDecode, hexDecode_odd hrest]
      cases Manager.hexDigit a <;> cases Manager.hexDigit b <;> rfl

theorem length_encodeHex (key : Bytes) : (encodeHex key).length % 2 = 0 := by
  rw [encodeHex]
  generalize key.take 256 = k
  induction k with
  | nil => rfl
  | cons c rest ih =>
      rw [List.flatMap_cons, List.length_append, List.length_cons, List.length_singleton]
      omega

theorem pyStrip_subset (s : Bytes) : Manager.pyStrip s ⊆ s := by
  intro c hc
  have hc := (List.dropWhile_suffix _).subset (List.mem_reverse.mp hc)
  exact (List.dropWhile_suffix _).subset (List.mem_reverse.mp hc)

/-- Stripping takes off what separates the words. -/
theorem words_pyStrip {sep : UInt8 → Bool} (hsep : ∀ c, isSpace c → sep c) (s : Bytes) :
    words sep (Manager.pyStrip s) = words sep s := by
  have hfront : ∀ t : Bytes, words sep (t.dropWhile isSpace) = words sep t := by
    intro t
    conv_rhs => rw [← List.takeWhile_append_dropWhile (p := isSpace) (l := t)]
    rw [words_blank_append fun c hc => hsep c (List.mem_takeWhile_imp hc)]
  have hback : ∀ t : Bytes, words sep (t.reverse.dropWhile isSpace).reverse = words sep t := by
    intro t
    have hsplit : t = (t.reverse.dropWhile isSpace).reverse
        ++ (t.reverse.takeWhile isSpace).reverse := by
      rw [← List.reverse_append, List.takeWhile_append_dropWhile, List.reverse_reverse]
    conv_rhs => rw [hsplit]
    rw [words_append_blank fun c hc => hsep c (List.mem_takeWhile_imp (List.mem_reverse.mp hc))]
  rw [Manager.pyStrip, hback, hfront]

/-- A line as `only_lines` gives it. -/
def strippedLine (line : Bytes) : Bytes := (Manager.pyStrip line).takeWhile (· ≠ 0x23)

theorem strippedLine_eq {line : Bytes} (h : (0x23 : UInt8) ∉ line) :
    strippedLine line = Manager.pyStrip line := by
  refine List.takeWhile_eq_self_iff.mpr fun c hc => ?_
  rw [decide_eq_true_eq]
  rintro rfl
  exact h (pyStrip_subset line hc)

theorem strippedLine_subset (line : Bytes) : strippedLine line ⊆ line :=
  fun _ hc => pyStrip_subset line ((List.takeWhile_prefix _).subset hc)

theorem hash_notMem_strippedLine (line : Bytes) : (0x23 : UInt8) ∉ strippedLine line := fun h => by
  simpa using List.mem_takeWhile_imp h

/-- What the words of a server's line stand between. -/
def serverSep (c : UInt8) : Bool := isSpace c || c = 0x2C

theorem words_server (line : Bytes) :
    Manager.pySplit (Manager.pyReplace 0x09 0x20 (Manager.pyReplace 0x2C 0x20 line))
      = words serverSep line := by
  rw [Manager.pySplit, Manager.pyReplace, Manager.pyReplace, List.map_map]
  refine words_map (fun c => ?_) (fun c hc => ?_) line
  · by_cases hcomma : c = 0x2C
    · subst hcomma
      decide
    · by_cases htab : c = 0x09
      · subst htab
        decide
      · simp [serverSep, hcomma, htab]
  · have hcomma : c ≠ 0x2C := by
      rintro rfl
      exact absurd hc (by decide)
    have htab : c ≠ 0x09 := by
      rintro rfl
      exact absurd hc (by decide)
    simp [hcomma, htab]

/-! ## Lines

A line that the proxy has printed is split at white space, which is more than the
characters that separate words for the proxy. -/

theorem newClient_address {host : Bytes} {port : Int} (h : AddressOk host port) :
    Manager.newClient (address host port) = some ⟨host, port⟩ := by
  have hcolon : ∀ c ∈ host, decide (c ≠ 0x3A) = true := by
    intro c hc
    rw [decide_eq_true_eq]
    rintro rfl
    exact (h.name _ hc).2.1 (by decide)
  have haddress : address host port = host ++ 0x3A :: decimal port := by
    simp [address, ascii]
  have htake : (address host port).takeWhile (· ≠ 0x3A) = host := by
    rw [haddress, List.takeWhile_append_of_pos hcolon, List.takeWhile_cons_of_neg (by decide),
      List.append_nil]
  have hdrop : (address host port).dropWhile (· ≠ 0x3A) = 0x3A :: decimal port := by
    rw [haddress, List.dropWhile_append_of_pos hcolon, List.dropWhile_cons_of_neg (by decide)]
  unfold Manager.newClient
  simp only [htake, hdrop, List.drop_succ_cons, List.drop_zero, decimal_ne_nil_int h.port.1,
    if_false, pyInt_decimal h.port.1, Option.map_some]

theorem pySplit_proxy {addr : Bytes} (h : (0x23 : UInt8) ∉ addr) :
    Manager.pySplit (strippedLine (ascii "proxy\t" ++ addr))
      = ascii "proxy" :: words isSpace addr := by
  have hline : ascii "proxy\t" ++ addr = ascii "proxy" ++ 0x09 :: addr := by
    simp [ascii]
  have hhash : (0x23 : UInt8) ∉ ascii "proxy\t" ++ addr := by
    rw [List.mem_append, not_or]
    exact ⟨by decide, h⟩
  rw [strippedLine_eq hhash, Manager.pySplit, words_pyStrip (fun _ hc => hc), hline,
    words_word_cons (by decide) (by decide) (by decide)]

/-- The words of a server's line, as the manager sees them. -/
theorem words_serverText {addr hex : Bytes} {weight : Int} (hweight : 1 ≤ weight)
    (haddr : (0x23 : UInt8) ∉ addr) (hhex : (0x23 : UInt8) ∉ hex) :
    words serverSep (strippedLine (serverText addr weight hex))
      = ascii "server" :: (words serverSep addr ++ decimal weight :: words serverSep hex) := by
  have hline : serverText addr weight hex = ascii "server" ++ 0x09 :: (addr ++ 0x2C :: 0x20 ::
      (decimal weight ++ 0x2C :: 0x20 :: hex)) := by
    simp [serverText, ascii]
  have hdigits : ∀ c ∈ decimal weight, serverSep c = false ∧ c ≠ 0x23 := by
    have hall : ∀ c ∈ ascii "0123456789", serverSep c = false ∧ c ≠ 0x23 := by decide
    exact fun c hc => hall c (decimal_subset hweight hc)
  have hhash : (0x23 : UInt8) ∉ serverText addr weight hex := by
    have hserver : (0x23 : UInt8) ∉ ascii "server" := by decide
    rw [hline]
    simp only [List.mem_append, List.mem_cons, not_or]
    exact ⟨hserver, by decide, haddr, by decide, by decide, fun hc => (hdigits _ hc).2 rfl,
      by decide, by decide, hhex⟩
  rw [strippedLine_eq hhash, words_pyStrip (by intro c hc; simp [serverSep, hc]), hline,
    words_word_cons (by decide) (by decide) (by decide), words_append_cons _ _ (by decide),
    words_cons (by decide), words_word_cons (fun c hc => (hdigits c hc).1)
      (decimal_ne_nil_int hweight) (by decide), words_cons (by decide)]

/-- An address is one word when its host has no white space. -/
theorem address_free {host : Bytes} {port : Int} (h : AddressOk host port)
    (hhost : ∀ c ∈ host, isSpace c = false) : ∀ c ∈ address host port, serverSep c = false := by
  have hrest : ∀ c ∈ ascii ":" ++ ascii "0123456789", serverSep c = false := by decide
  intro c hc
  simp only [address, List.mem_append] at hc
  rcases hc with (hc | hc) | hc
  · have hcomma : c ≠ 0x2C := by
      rintro rfl
      exact (h.word _ hc).2.1 (by decide)
    simp [serverSep, hhost c hc, hcomma]
  · exact hrest c (List.mem_append_left _ hc)
  · exact hrest c (List.mem_append_right _ (decimal_subset h.port.1 hc))

theorem hash_notMem_address {host : Bytes} {port : Int} (h : AddressOk host port) :
    (0x23 : UInt8) ∉ address host port :=
  fun hc => (address_word h _ hc).2.2 (by decide)

/-- A server whose host has no white space is read as it is. -/
theorem serverOf_serverText {host key : Bytes} {port weight : Int} (h : AddressOk host port)
    (hhost : ∀ c ∈ host, isSpace c = false) (hweight : 1 ≤ weight) (hkey : key.length ≤ 256) :
    Manager.serverOf (strippedLine (serverText (address host port) weight (encodeHex key)))
      = some (address host port, ⟨⟨host, port⟩, weight, key⟩) := by
  have hhex : ∀ c ∈ encodeHex key, serverSep c = false ∧ c ≠ 0x23 := by
    have hall : ∀ c ∈ ascii "0123456789ABCDEF", serverSep c = false ∧ c ≠ 0x23 := by decide
    exact fun c hc => hall c (encodeHex_subset key hc)
  have hwords : words serverSep (strippedLine (serverText (address host port) weight
      (encodeHex key))) = ascii "server" :: address host port :: decimal weight ::
        words serverSep (encodeHex key) := by
    rw [words_serverText hweight (hash_notMem_address h) fun hc => (hhex _ hc).2 rfl,
      words_word (address_free h hhost) (address_ne_nil h), List.singleton_append]
  have hentry : ∀ hex, hex = encodeHex key →
      Manager.serverOf.entry (address host port) (decimal weight) hex
        = some (address host port, ⟨⟨host, port⟩, weight, key⟩) := by
    rintro _ rfl
    unfold Manager.serverOf.entry
    rw [newClient_address h, pyInt_decimal hweight, hexDecode_encodeHex hkey]
  unfold Manager.serverOf
  rw [words_server, hwords]
  by_cases hnil : encodeHex key = []
  · rw [hnil, words_nil]
    exact hentry [] hnil.symm
  · rw [words_word (fun c hc => (hhex c hc).1) hnil]
    exact hentry _ rfl

/-! ## The lines of the text

The comments of the proxy are left out, and the lines that are left are those of the
proxies and servers, in their order. -/

theorem mapM_eq_some_iff {α β : Type} {f : α → Option β} : ∀ {l : List α} {r : List β},
    l.mapM f = some r ↔ l.map f = r.map some := by
  intro l
  induction l with
  | nil =>
      intro r
      rw [List.mapM_nil, List.map_nil]
      cases r <;> simp
  | cons a l ih =>
      intro r
      rw [List.mapM_cons, List.map_cons]
      cases ha : f a with
      | none => cases r <;> simp
      | some b =>
          cases hl : l.mapM f with
          | none =>
              have hno : ∀ r : List β, l.map f ≠ r.map some := fun r hr => by
                rw [ih.mpr hr] at hl
                cases hl
              cases r with
              | nil => simp
              | cons c r => simpa using fun _ => hno r
          | some r' =>
              cases r with
              | nil => simp
              | cons c r =>
                  have hr := ih.mp hl
                  have hinj : r'.map some = r.map some ↔ r' = r :=
                    (Option.some_injective β).list_map.eq_iff
                  rw [hr]
                  simp [hinj]

theorem splitOn_flatMap (ls : List Bytes) (last : Bytes) :
    (ls.flatMap (· ++ [0x0A]) ++ last).splitOn 0x0A
      = ls.flatMap (·.splitOn 0x0A) ++ last.splitOn 0x0A := by
  induction ls with
  | nil => rfl
  | cons l ls ih =>
      rw [List.flatMap_cons, List.flatMap_cons, List.append_assoc, List.append_assoc,
        List.singleton_append, List.splitOn_append_cons_self, ih, List.append_assoc]

/-- The lines of the manager that begin with a keyword. -/
theorem onlyLines_flatMap {pre : Bytes} (hpre : pre ≠ []) (ls : List Bytes) :
    Manager.onlyLines pre (ls.flatMap (· ++ [0x0A])) = ls.flatMap fun l =>
      ((l.splitOn 0x0A).filter fun line => pre.isPrefixOf line).map strippedLine := by
  have hnil : ([[]] : List Bytes).filter (fun line => pre.isPrefixOf line) = [] := by
    cases pre with
    | nil => exact absurd rfl hpre
    | cons c pre => rfl
  have hsplit := splitOn_flatMap ls []
  rw [List.append_nil, List.splitOn_nil] at hsplit
  rw [Manager.onlyLines, hsplit, List.filter_append, hnil, List.append_nil, List.filter_flatMap,
    List.map_flatMap]
  rfl

/-! ## Ranges

The manager goes through the lines of the servers and makes a range from each to the
next. -/

def hostLine (s : StServer) : Bytes × Manager.HostLine :=
  (address s.host s.port, ⟨⟨s.host, s.port⟩, s.weight, s.key⟩)

theorem keys_ranges : ∀ l : List (Bytes × Manager.HostLine),
    (Manager.ranges l).map Prod.fst = l.map Prod.fst
  | [] => rfl
  | (host, s) :: rest => by
      rw [Manager.ranges, List.map_cons, List.map_cons, keys_ranges rest]

/-- What a range says beside its end. -/
theorem map_ranges : ∀ l : List (Bytes × Manager.HostLine),
    (Manager.ranges l).map (fun p => (p.1, (⟨p.2.mc, p.2.weight, p.2.lKey⟩ : Manager.HostLine)))
      = l
  | [] => rfl
  | (host, s) :: rest => by
      rw [Manager.ranges, List.map_cons, map_ranges rest]

theorem ranges_append (host : Bytes) (s : Manager.HostLine)
    (after : List (Bytes × Manager.HostLine)) :
    ∀ before, ∃ front, Manager.ranges (before ++ (host, s) :: after) = front ++
      (host, ⟨s.mc, s.weight, s.key, after.head?.map fun next => next.2.key⟩) ::
        Manager.ranges after
  | [] => ⟨[], rfl⟩
  | (h, u) :: before => by
      obtain ⟨front, hfront⟩ := ranges_append host s after before
      rw [List.cons_append, Manager.ranges, hfront]
      exact ⟨_ :: front, rfl⟩

theorem ranges_split {host : Bytes} {r : Manager.ServerRange} :
    ∀ {l : List (Bytes × Manager.HostLine)} {front back : List (Bytes × Manager.ServerRange)},
      Manager.ranges l = front ++ (host, r) :: back → ∃ before s after,
        l = before ++ (host, s) :: after ∧ back = Manager.ranges after ∧
          r = ⟨s.mc, s.weight, s.key, after.head?.map fun next => next.2.key⟩
  | [], front, back, h => by
      rw [Manager.ranges] at h
      simp at h
  | (h', s) :: rest, [], back, h => by
      rw [Manager.ranges, List.nil_append] at h
      obtain ⟨hhead, hback⟩ := List.cons.inj h
      obtain ⟨rfl, rfl⟩ := Prod.mk.inj hhead
      exact ⟨[], s, rest, rfl, hback.symm, rfl⟩
  | (h', s) :: rest, p :: front, back, h => by
      rw [Manager.ranges, List.cons_append] at h
      obtain ⟨before, u, after, rfl, hback, hr⟩ := ranges_split (List.cons.inj h).2
      exact ⟨(h', s) :: before, u, after, rfl, hback, hr⟩

/-! ## Reading the text

What the manager makes of the lines of the proxies and of those of the servers, when all
of them can be read. -/

section Read

variable {env : ProxyEnv} {w : ProxyWorld}

/-- The printed text when it is not cut. -/
def printedText (env : ProxyEnv) (w : ProxyWorld) : Bytes :=
  (textLines env w).flatMap (· ++ [0x0A])

/-- A line as the manager gets it, if it begins with the keyword. -/
def pyLines (pre l : Bytes) : List Bytes :=
  ((l.splitOn 0x0A).filter fun line => pre.isPrefixOf line).map strippedLine

theorem pyLines_unbroken {pre l : Bytes} (h : (0x0A : UInt8) ∉ l) :
    pyLines pre l = if pre.isPrefixOf l then [strippedLine l] else [] := by
  rw [pyLines, List.splitOn_eq_singleton h]
  by_cases hpre : pre.isPrefixOf l
  · simp [hpre]
  · simp [hpre]

theorem break_notMem_headLines (h : PlainComment env) {l : Bytes} (hl : l ∈ headLines env) :
    (0x0A : UInt8) ∉ l := fun hc => (headLines_chars h hl hc).2.2 (by decide)

/-- The lines of the proxies come from the proxies, as long as no server has a line break. -/
theorem onlyLines_proxy (hcomment : PlainComment env)
    (hservers : ∀ s ∈ w.servers.toList,
      (0x0A : UInt8) ∉ entryLine (.server s.host s.port s.weight s.key)) :
    Manager.onlyLines (ascii "proxy") (printedText env w) = w.proxies.toList.flatMap fun p =>
      pyLines (ascii "proxy") (entryLine (.proxy p.host p.port)) := by
  have hhead : (headLines env).flatMap (pyLines (ascii "proxy")) = [] := by
    refine List.flatMap_eq_nil_iff.mpr fun l hl => ?_
    rw [pyLines_unbroken (break_notMem_headLines hcomment hl), if_neg]
    simp only [headLines, List.mem_cons, List.not_mem_nil, or_false] at hl
    rcases hl with rfl | rfl <;> exact Bool.false_ne_true
  have hserver : (w.servers.toList.map fun s =>
      entryLine (.server s.host s.port s.weight s.key)).flatMap (pyLines (ascii "proxy")) = [] := by
    refine List.flatMap_eq_nil_iff.mpr fun l hl => ?_
    obtain ⟨s, hs, rfl⟩ := List.mem_map.mp hl
    rw [pyLines_unbroken (hservers s hs), if_neg]
    exact Bool.false_ne_true
  have hnil : pyLines (ascii "proxy") [] = [] := rfl
  have hall := onlyLines_flatMap (show ascii "proxy" ≠ [] by decide) (textLines env w)
  rw [printedText, hall]
  show (textLines env w).flatMap (pyLines (ascii "proxy")) = _
  rw [textLines, List.flatMap_append, List.flatMap_append, List.flatMap_append,
    List.flatMap_append, hhead, hserver, List.flatMap_singleton, hnil, List.flatMap_map]
  simp

theorem onlyLines_server (hcomment : PlainComment env)
    (hproxies : ∀ p ∈ w.proxies.toList, (0x0A : UInt8) ∉ entryLine (.proxy p.host p.port))
    (hservers : ∀ s ∈ w.servers.toList,
      (0x0A : UInt8) ∉ entryLine (.server s.host s.port s.weight s.key)) :
    Manager.onlyLines (ascii "server") (printedText env w) = w.servers.toList.map fun s =>
      strippedLine (entryLine (.server s.host s.port s.weight s.key)) := by
  have hhead : (headLines env).flatMap (pyLines (ascii "server")) = [] := by
    refine List.flatMap_eq_nil_iff.mpr fun l hl => ?_
    rw [pyLines_unbroken (break_notMem_headLines hcomment hl), if_neg]
    simp only [headLines, List.mem_cons, List.not_mem_nil, or_false] at hl
    rcases hl with rfl | rfl <;> exact Bool.false_ne_true
  have hproxy : (w.proxies.toList.map fun p =>
      entryLine (.proxy p.host p.port)).flatMap (pyLines (ascii "server")) = [] := by
    refine List.flatMap_eq_nil_iff.mpr fun l hl => ?_
    obtain ⟨p, hp, rfl⟩ := List.mem_map.mp hl
    rw [pyLines_unbroken (hproxies p hp), if_neg]
    exact Bool.false_ne_true
  have hnil : pyLines (ascii "server") [] = [] := rfl
  have hall := onlyLines_flatMap (show ascii "server" ≠ [] by decide) (textLines env w)
  rw [printedText, hall]
  show (textLines env w).flatMap (pyLines (ascii "server")) = _
  rw [textLines, List.flatMap_append, List.flatMap_append, List.flatMap_append,
    List.flatMap_append, hhead, hproxy, List.flatMap_singleton, hnil, List.flatMap_map,
    List.nil_append, List.nil_append, List.nil_append, ← List.flatMap_pure_eq_map]
  refine List.flatMap_congr fun s hs => ?_
  rw [pyLines_unbroken (hservers s hs), if_pos]
  · rfl
  · rfl

theorem entryLine_server (host : Bytes) (port weight : Int) (key : Bytes) :
    entryLine (.server host port weight key)
      = serverText (address host port) weight (encodeHex key) := by
  simp only [entryLine, serverText, address, List.append_assoc]

theorem entryLine_proxy (host : Bytes) (port : Int) :
    entryLine (.proxy host port) = ascii "proxy\t" ++ address host port := by
  simp only [entryLine, address, List.append_assoc]

theorem mem_worldEntries_server {s : StServer} (h : s ∈ w.servers.toList) :
    .server s.host s.port s.weight s.key ∈ worldEntries w :=
  List.mem_append_right _ (List.mem_map_of_mem h)

theorem mem_worldEntries_proxy {p : StProxy} (h : p ∈ w.proxies.toList) :
    .proxy p.host p.port ∈ worldEntries w :=
  List.mem_append_left _ (List.mem_map_of_mem h)

/-- Servers without white space are read as they are, and in the order of their keys. -/
theorem connectServers_eq (hw : LoadedConfig w)
    (hservers : ∀ s ∈ w.servers.toList, ∀ c ∈ s.host, isSpace c = false) {text : Bytes}
    (htext : Manager.onlyLines (ascii "server") text = w.servers.toList.map fun s =>
      strippedLine (entryLine (.server s.host s.port s.weight s.key))) :
    Manager.connectServers text
      = some (Dict.ofList (Manager.ranges (w.servers.toList.map hostLine))) := by
  have hread : (w.servers.toList.map fun s =>
      strippedLine (entryLine (.server s.host s.port s.weight s.key))).mapM Manager.serverOf
        = some (w.servers.toList.map hostLine) := by
    rw [mapM_eq_some_iff, List.map_map, List.map_map]
    refine List.map_congr_left fun s hs => ?_
    obtain ⟨haddr, hweight, hkey⟩ := (hw.entries _ (mem_worldEntries_server hs)).1
    simp only [Function.comp_apply]
    rw [entryLine_server, serverOf_serverText haddr (hservers s hs) hweight.1 hkey, hostLine]
  have hsorted : (w.servers.toList.map hostLine).Pairwise
      fun a b => decide (¬ b.2.key < a.2.key) = true := by
    rw [List.pairwise_map]
    refine hw.trees.servers.imp fun {a b} hlt => ?_
    rw [decide_eq_true_eq]
    exact not_before_iff.mpr (le_of_lt hlt)
  unfold Manager.connectServers
  rw [htext, hread, Option.map_some, List.mergeSort_of_pairwise hsorted]

/-! ## What comes out of reading

From the picture back to the lines: its hosts are those of the servers whose lines were
read, in their order. Of a text that has lost its last line break nothing comes out. -/

theorem exists_of_map_eq {α β : Type} {f : α → Option β} {l : List α} {r : List β}
    (h : l.map f = r.map some) :
    (∀ a ∈ l, ∃ b ∈ r, f a = some b) ∧ ∀ b ∈ r, ∃ a ∈ l, f a = some b := by
  constructor
  · intro a ha
    have hmem : f a ∈ r.map some := by
      rw [← h]
      exact List.mem_map_of_mem ha
    obtain ⟨b, hb, heq⟩ := List.mem_map.mp hmem
    exact ⟨b, hb, heq.symm⟩
  · intro b hb
    have hmem : some b ∈ l.map f := by
      rw [h]
      exact List.mem_map_of_mem hb
    obtain ⟨a, ha, heq⟩ := List.mem_map.mp hmem
    exact ⟨a, ha, heq⟩

theorem connectServers_keys {text host : Bytes} {servers : Dict Bytes Manager.ServerRange}
    (h : Manager.connectServers text = some servers) (hmem : host ∈ servers.keys) :
    ∃ line ∈ Manager.onlyLines (ascii "server") text, host ∈ words serverSep line := by
  obtain ⟨hosts, hread, rfl⟩ := Option.map_eq_some_iff.mp h
  rw [Dict.mem_keys_ofList, keys_ranges] at hmem
  obtain ⟨⟨host', s⟩, hs, rfl⟩ := List.mem_map.mp hmem
  rw [List.mem_mergeSort] at hs
  obtain ⟨line, hline, heq⟩ := (exists_of_map_eq (mapM_eq_some_iff.mp hread)).2 _ hs
  refine ⟨line, hline, ?_⟩
  have hentry : ∀ {host weight hex : Bytes}, Manager.serverOf.entry host weight hex
      = some (host', s) → host = host' := by
    intro host weight hex hentry
    unfold Manager.serverOf.entry at hentry
    split at hentry
    · cases hentry
      rfl
    · cases hentry
  unfold Manager.serverOf at heq
  rw [words_server] at heq
  split at heq
  · next hwords =>
      rw [hwords, ← hentry heq]
      simp
  · next hwords =>
      rw [hwords, ← hentry heq]
      simp
  · cases heq

theorem connectProxies_lines {text : Bytes} {proxies : Dict Bytes Manager.Client}
    (h : Manager.connectProxies text = some proxies) :
    (∀ line ∈ Manager.onlyLines (ascii "proxy") text, ∃ keyword host,
      words isSpace line = [keyword, host] ∧ host ∈ proxies.keys) ∧
    ∀ host ∈ proxies.keys, ∃ line ∈ Manager.onlyLines (ascii "proxy") text,
      ∃ keyword, words isSpace line = [keyword, host] := by
  obtain ⟨hosts, hread, rfl⟩ := Option.map_eq_some_iff.mp h
  have hmap := exists_of_map_eq (mapM_eq_some_iff.mp hread)
  have hproxy : ∀ {line host : Bytes} {mc : Manager.Client},
      Manager.proxyOf line = some (host, mc) → ∃ keyword, words isSpace line = [keyword, host] := by
    intro line host mc hline
    unfold Manager.proxyOf at hline
    split at hline
    · next keyword host' hwords =>
        obtain ⟨mc', -, heq⟩ := Option.map_eq_some_iff.mp hline
        cases heq
        exact ⟨keyword, hwords⟩
    · cases hline
  constructor
  · intro line hline
    obtain ⟨⟨host, mc⟩, hmem, heq⟩ := hmap.1 line hline
    obtain ⟨keyword, hwords⟩ := hproxy heq
    refine ⟨keyword, host, hwords, ?_⟩
    rw [Dict.mem_keys_ofList]
    exact List.mem_map_of_mem (f := Prod.fst) hmem
  · intro host hhost
    rw [Dict.mem_keys_ofList] at hhost
    obtain ⟨⟨host', mc⟩, hmem, rfl⟩ := List.mem_map.mp hhost
    obtain ⟨line, hline, heq⟩ := hmap.2 _ hmem
    exact ⟨line, hline, hproxy heq⟩

theorem break_notMem_server (hw : LoadedConfig w)
    (hservers : ∀ s ∈ w.servers.toList, ∀ c ∈ s.host, isSpace c = false) :
    ∀ s ∈ w.servers.toList,
      (0x0A : UInt8) ∉ entryLine (.server s.host s.port s.weight s.key) := by
  intro s hs hc
  rcases entryLine_chars (hw.entries _ (mem_worldEntries_server hs)).1 hc with hc | hc
  · exact absurd (hservers s hs _ hc) (by decide)
  · exact absurd hc (by decide)

/-- Where the last line break is lost to a zero, the last key is not hexadecimal. -/
theorem connectServers_cut (hw : LoadedConfig w)
    (hservers : ∀ s ∈ w.servers.toList, ∀ c ∈ s.host, isSpace c = false) :
    Manager.connectServers ((printedText env w).dropLast ++ [0]) = none := by
  obtain ⟨init, s, hlist⟩ := (List.eq_nil_or_concat' w.servers.toList).resolve_left hw.servers
  have hs : s ∈ w.servers.toList := by
    rw [hlist]
    simp
  obtain ⟨haddr, hweight, hkey⟩ := (hw.entries _ (mem_worldEntries_server hs)).1
  have hlast : entryLine (.server s.host s.port s.weight s.key) ++ [0]
      = serverText (address s.host s.port) s.weight (encodeHex s.key ++ [0]) := by
    rw [entryLine_server, serverText, serverText, List.append_assoc]
  have hbreak : (0x0A : UInt8) ∉ entryLine (.server s.host s.port s.weight s.key) ++ [0] := by
    rw [List.mem_append, not_or]
    exact ⟨break_notMem_server hw hservers s hs, by decide⟩
  have htext : ∃ front : List Bytes, (printedText env w).dropLast ++ [0]
      = front.flatMap (· ++ [0x0A]) ++ (entryLine (.server s.host s.port s.weight s.key)
          ++ [0]) := by
    rw [printedText, textLines, hlist, List.map_append, ← List.append_assoc, List.flatMap_append,
      List.map_singleton, List.flatMap_singleton, ← List.append_assoc, List.dropLast_concat,
      List.append_assoc]
    exact ⟨_, rfl⟩
  obtain ⟨front, hfront⟩ := htext
  have hmem : strippedLine (serverText (address s.host s.port) s.weight (encodeHex s.key ++ [0]))
      ∈ Manager.onlyLines (ascii "server") ((printedText env w).dropLast ++ [0]) := by
    refine List.mem_map_of_mem (List.mem_filter.mpr ⟨?_, rfl⟩)
    rw [hfront, splitOn_flatMap, List.splitOn_eq_singleton hbreak, hlast]
    exact List.mem_append_right _ (List.mem_singleton_self _)
  have hnone : Manager.serverOf (strippedLine (serverText (address s.host s.port) s.weight
      (encodeHex s.key ++ [0]))) = none := by
    have hhex : ∀ c ∈ encodeHex s.key ++ [0], serverSep c = false ∧ c ≠ 0x23 := by
      have hall : ∀ c ∈ ascii "0123456789ABCDEF" ++ [0], serverSep c = false ∧ c ≠ 0x23 := by
        decide
      intro c hc
      refine hall c ?_
      rcases List.mem_append.mp hc with hc | hc
      · exact List.mem_append_left _ (encodeHex_subset s.key hc)
      · exact List.mem_append_right _ hc
    have hodd : Manager.hexDecode (encodeHex s.key ++ [0]) = none := by
      refine hexDecode_odd ?_
      have heven := length_encodeHex s.key
      rw [List.length_append, List.length_singleton]
      omega
    unfold Manager.serverOf
    rw [words_server, words_serverText hweight.1 (hash_notMem_address haddr)
        fun hc => (hhex _ hc).2 rfl,
      words_word (address_free haddr (hservers s hs)) (address_ne_nil haddr),
      words_word (fun c hc => (hhex c hc).1) (by simp), List.singleton_append]
    show Manager.serverOf.entry _ _ _ = none
    unfold Manager.serverOf.entry
    rw [hodd]
    split
    · next hkey => cases hkey
    · rfl
  rw [Manager.connectServers, Option.map_eq_none_iff]
  by_contra hsome
  obtain ⟨hosts, hread⟩ := Option.ne_none_iff_exists'.mp hsome
  obtain ⟨p, -, hp⟩ := (exists_of_map_eq (mapM_eq_some_iff.mp hread)).1 _ hmem
  rw [hnone] at hp
  cases hp

end Read

end Smalltable.Proofs
