import Smalltable.Proofs.ConfigRouting
import Smalltable.Proofs.KeyNames
import Smalltable.Proofs.Tokens

/-!
# A configuration written out and loaded again

An entry is printed as a line that asks for the same entry, as long as it stays one
line. The host of an entry is a token of the line it came from, so it has no
character that separates words, but a line break is none of these: a host has one
when its line has one, and that is the last line there is room for, which is not cut.
-/

namespace Smalltable.Proofs

open Smalltable.Ref

/-! ## Entries of a text

An entry comes from one line, whose words it has: a host without separators, a port, a
weight and a key of bytes. This is all that is needed of it to print it. -/

/-- The one part of an entry that is printed as it is. -/
def hostOf : ConfigEntry → Bytes
  | .proxy host _ => host
  | .server host _ _ _ => host

/-- A host and a port as `get_host_port` gives them for a word of a line. -/
structure AddressOk (host : Bytes) (port : Int) : Prop where
  nonempty : host ≠ []
  word : TokenChars (ascii " ,\t") (ascii "#") host
  name : TokenChars (ascii ":") [] host
  port : 1 ≤ port ∧ port ≤ 65535

/-- What is known of an entry that came from a text: every field is in its range. -/
def EntryOk : ConfigEntry → Prop
  | .proxy host port => AddressOk host port
  | .server host port weight key =>
      AddressOk host port ∧ (1 ≤ weight ∧ weight ≤ 999999) ∧ key.length ≤ 256

theorem getHostPort_some {line host : Bytes} {port : Int}
    (h : getHostPort line = some (some (host, port))) :
    host ≠ [] ∧ TokenChars (ascii ":") [] host ∧ host ⊆ line ∧ 1 ≤ port ∧ port ≤ 65535 := by
  unfold getHostPort at h
  split at h
  · cases h
  · next host' portStr hsplit =>
      simp only [] at h
      split at h
      · cases h
      · next hport =>
          cases h
          have hne := splitLine_ne_nil hsplit
          have hwhole := (splitLoop_whole (by decide) (by simp) (by simp) (by simp) hsplit).2
          have hsub := splitLoop_subset line (by simp) (by simp) (fun _ hc => hc) hsplit
          exact ⟨hne _ List.mem_cons_self, hwhole _ List.mem_cons_self,
            hsub _ List.mem_cons_self, by omega, by omega⟩
  · cases h

/-- The second word of a line is whole, as no line has room for only two. -/
theorem word_ok {line host : Bytes} {port : Int} {argv : List Bytes}
    (hargv : splitLine (ascii " ,\t") (ascii "#") 32 line = some argv) (hlen : 1 < argv.length)
    (h : getHostPort (argv.getD 1 []) = some (some (host, port))) :
    AddressOk host port ∧ host ⊆ line := by
  obtain ⟨hne, hname, hsub, hport⟩ := getHostPort_some h
  have hwhole := (splitLoop_whole (by decide) (by simp) (by simp) (by simp) hargv).2
  have hline := splitLoop_subset line (by simp) (by simp) (fun _ hc => hc) hargv
  have hword : argv.getD 1 [] = argv[1] := by simp [List.getD, hlen]
  have hmem : argv.getD 1 [] ∈ argv := by
    rw [hword]
    exact List.getElem_mem hlen
  have htake : argv.getD 1 [] ∈ argv.take (32 - 1) := by
    rw [hword, ← List.getElem_take (j := 31) (h := by rw [List.length_take]; omega)]
    exact List.getElem_mem _
  refine ⟨⟨hne, fun c hc => hwhole _ htake c (hsub hc), hname, hport⟩, ?_⟩
  exact fun c hc => hline _ hmem (hsub hc)

theorem parseLine_entry {line : Bytes} {e : ConfigEntry}
    (h : parseLine line = some (.entry e)) : EntryOk e ∧ hostOf e ⊆ line := by
  unfold parseLine at h
  split at h
  · cases h
  · cases h
  · next keyword args hargv =>
      split at h
      · unfold parseProxy at h
        split at h
        · cases h
        · next hlen =>
            split at h
            · cases h
            · cases h
            · next host port haddr =>
                cases h
                exact word_ok hargv (by omega) haddr
      · split at h
        · unfold parseServer at h
          split at h
          · cases h
          · next hlen =>
              split at h
              · cases h
              · cases h
              · next host port haddr =>
                  obtain ⟨hok, hsub⟩ := word_ok hargv (by omega) haddr
                  simp only [] at h
                  split at h
                  · cases h
                  · next hweight =>
                      split at h
                      · split at h
                        · cases h
                        · cases h
                        · next key hkey =>
                            cases h
                            have hshort := (decodeHexLoop_spec hkey).2.1 (Nat.zero_le 256)
                            exact ⟨⟨hok, by omega, hshort⟩, hsub⟩
                      · cases h
                        exact ⟨⟨hok, by omega, Nat.zero_le _⟩, hsub⟩
        · cases h

theorem entriesOf_mem : ∀ {lines : List Bytes} {es : List ConfigEntry},
    entriesOf lines = some es → ∀ e ∈ es, ∃ line ∈ lines, parseLine line = some (.entry e) := by
  intro lines
  induction lines with
  | nil =>
      intro es h e he
      cases h
      cases he
  | cons line rest ih =>
      intro es h e he
      unfold entriesOf at h
      split at h
      · obtain ⟨l, hl, hparse⟩ := ih h e he
        exact ⟨l, List.mem_cons_of_mem _ hl, hparse⟩
      · next e' hline =>
          obtain ⟨es', hes', rfl⟩ := Option.map_eq_some_iff.mp h
          rcases List.mem_cons.mp he with rfl | he
          · exact ⟨line, List.mem_cons_self, hline⟩
          · obtain ⟨l, hl, hparse⟩ := ih hes' e he
            exact ⟨l, List.mem_cons_of_mem _ hl, hparse⟩
      · cases h

/-- One broken line, and there are no entries. -/
theorem entriesOf_error : ∀ {lines : List Bytes} {line err : Bytes}, line ∈ lines →
    parseLine line = some (.error err) → entriesOf lines = none := by
  intro lines
  induction lines with
  | nil => intro line err h _; cases h
  | cons l rest ih =>
      intro line err h herr
      unfold entriesOf
      rcases List.mem_cons.mp h with rfl | h
      · rw [herr]
      · split
        · exact ih h herr
        · rw [ih h herr]
          rfl
        · rfl

/-! ## Entries as lines

A printed entry has only few characters besides those of its host, and none of these
separates lines. -/

/-- The line of an entry, without its line break. -/
def entryLine : ConfigEntry → Bytes
  | .proxy host port => ascii "proxy\t" ++ host ++ ascii ":" ++ decimal port
  | .server host port weight key =>
      ascii "server\t" ++ host ++ ascii ":" ++ decimal port ++ ascii ", " ++ decimal weight ++
        ascii ", " ++ encodeHex key

/-- What stands in a line beside the host. -/
def lineChars : Bytes := ascii "proxyserver\t:, 0123456789ABCDEF"

theorem decimal_subset {n : Int} (h : 1 ≤ n) : decimal n ⊆ ascii "0123456789" := by
  have hdigits : ∀ n < 0x3A, 0x30 ≤ n → n.toUInt8 ∈ ascii "0123456789" := by decide
  obtain ⟨k, rfl⟩ := Int.eq_ofNat_of_zero_le (show 0 ≤ n by omega)
  intro c hc
  obtain ⟨hlo, hhi⟩ := mem_decimal hc
  have hmem := hdigits c.toNat (by omega) hlo
  simpa using hmem

theorem encodeHex_subset (key : Bytes) : encodeHex key ⊆ ascii "0123456789ABCDEF" := by
  intro c hc
  obtain ⟨k, -, hc⟩ := List.mem_flatMap.mp hc
  simp only [List.mem_cons, List.not_mem_nil, or_false] at hc
  rcases hc with rfl | rfl
  · exact toHexTrans_mem (by omega)
  · exact toHexTrans_mem (by omega)

theorem entryLine_chars {e : ConfigEntry} (h : EntryOk e) {c : UInt8} (hc : c ∈ entryLine e) :
    c ∈ hostOf e ∨ c ∈ lineChars := by
  have hproxy : ascii "proxy\t" ⊆ lineChars := by decide
  have hserver : ascii "server\t" ⊆ lineChars := by decide
  have hcolon : ascii ":" ⊆ lineChars := by decide
  have hcomma : ascii ", " ⊆ lineChars := by decide
  have hdigits : ascii "0123456789" ⊆ lineChars := by decide
  have hhex : ascii "0123456789ABCDEF" ⊆ lineChars := by decide
  cases e with
  | proxy host port =>
      simp only [entryLine, List.mem_append] at hc
      rcases hc with ((hc | hc) | hc) | hc
      · exact .inr (hproxy hc)
      · exact .inl hc
      · exact .inr (hcolon hc)
      · exact .inr (hdigits (decimal_subset h.port.1 hc))
  | server host port weight key =>
      obtain ⟨haddr, hweight, -⟩ := h
      simp only [entryLine, List.mem_append] at hc
      rcases hc with ((((((hc | hc) | hc) | hc) | hc) | hc) | hc) | hc
      · exact .inr (hserver hc)
      · exact .inl hc
      · exact .inr (hcolon hc)
      · exact .inr (hdigits (decimal_subset haddr.port.1 hc))
      · exact .inr (hcomma hc)
      · exact .inr (hdigits (decimal_subset hweight.1 hc))
      · exact .inr (hcomma hc)
      · exact .inr (hhex (encodeHex_subset key hc))

/-! ## Reading them back

Numbers and keys are read as they were printed; the address is split at its colon, since
the host has none. -/

theorem decodeHexLoop_encoded : ∀ (key front : Bytes), front.length + key.length ≤ 256 →
    decodeHexLoop (key.flatMap fun c => [toHexTrans (c.toNat / 16 % 16), toHexTrans (c.toNat % 16)])
      front = some (some (front ++ key)) := by
  intro key
  induction key with
  | nil =>
      intro front _
      rw [List.flatMap_nil, decodeHexLoop, List.append_nil]
  | cons c rest ih =>
      intro front h
      rw [List.length_cons] at h
      have hrest := ih (front ++ [c]) (by rw [List.length_append, List.length_singleton]; omega)
      rw [List.append_assoc, List.singleton_append] at hrest
      obtain ⟨ha, hhi, hza⟩ := toHexTrans_spec (c.toNat / 16 % 16) (Nat.mod_lt _ (by decide))
      obtain ⟨hb, hlo, hzb⟩ := toHexTrans_spec (c.toNat % 16) (Nat.mod_lt _ (by decide))
      have hlt := UInt8.toNat_lt c
      have hc : c.toNat / 16 % 16 * 16 + c.toNat % 16 = c.toNat := by omega
      rw [List.flatMap_cons, List.cons_append, List.cons_append, List.nil_append, decodeHexLoop,
        if_neg (by omega), if_neg (not_or.mpr ⟨ha, hb⟩), hhi, hlo,
        if_neg (not_or.mpr ⟨hza, hzb⟩), hc]
      simpa using hrest

/-- A key that is not too long is read as it was printed. -/
theorem decodeHex_encodeHex {key : Bytes} (h : key.length ≤ 256) :
    decodeHex (encodeHex key) = some (some key) := by
  rw [decodeHex, encodeHex, List.take_of_length_le h,
      decodeHexLoop_encoded key [] (by simpa using h),
    List.nil_append]

/-- Words of a line that stand beside others. -/
theorem tokenChars_of_subset {s cs sepChars quitChars : Bytes} (hsub : s ⊆ cs)
    (hcs : ∀ c ∈ cs, c < 0x80 ∧ c ∉ sepChars ∧ c ∉ quitChars) : TokenChars sepChars quitChars s :=
  fun c hc => hcs c (hsub hc)

theorem atoi_decimal_int {n : Int} (h : 1 ≤ n) (hsmall : n < 2 ^ 31) : atoi (decimal n) = n := by
  obtain ⟨k, rfl⟩ := Int.eq_ofNat_of_zero_le (show 0 ≤ n by omega)
  exact atoi_decimal (by omega)

theorem decimal_ne_nil_int {n : Int} (h : 1 ≤ n) : decimal n ≠ [] := by
  obtain ⟨k, rfl⟩ := Int.eq_ofNat_of_zero_le (show 0 ≤ n by omega)
  exact decimal_ne_nil k

/-- `host:port` -/
def address (host : Bytes) (port : Int) : Bytes := host ++ ascii ":" ++ decimal port

theorem getHostPort_address {host : Bytes} {port : Int} (h : AddressOk host port) :
    getHostPort (address host port) = some (some (host, port)) := by
  have hlast : TokenChars (ascii ":") [] (decimal port) :=
    tokenChars_of_subset (decimal_subset h.port.1) (by decide)
  have hsplit : splitLine (ascii ":") [] 2 (address host port) = some [host, decimal port] := by
    obtain ⟨c, rest, hdec⟩ := List.exists_cons_of_ne_nil (decimal_ne_nil_int h.port.1)
    have haddress : address host port = host ++ 0x3A :: decimal port := by
      simp [address, ascii]
    rw [splitLine, haddress, splitLoop_token_sep h.name h.nonempty (by decide) (by decide)
      (by decide) _ (by decide), hdec]
    rw [hdec] at hlast
    exact splitLoop_last (hlast c List.mem_cons_self) rest rfl
  obtain ⟨hlo, hhi⟩ := h.port
  unfold getHostPort
  rw [hsplit]
  simp only []
  rw [atoi_decimal_int hlo (by omega), if_neg (by omega)]

theorem address_word {host : Bytes} {port : Int} (h : AddressOk host port) :
    TokenChars (ascii " ,\t") (ascii "#") (address host port) := by
  intro c hc
  simp only [address, List.mem_append] at hc
  rcases hc with (hc | hc) | hc
  · exact h.word c hc
  · exact tokenChars_of_subset (List.Subset.refl (ascii ":")) (by decide) c hc
  · exact tokenChars_of_subset (decimal_subset h.port.1) (by decide) c hc

theorem address_ne_nil {host : Bytes} {port : Int} (h : AddressOk host port) :
    address host port ≠ [] := by
  rw [address]
  simp [h.nonempty]

/-- A number or a key as a word. -/
theorem digits_word {s : Bytes} (h : s ⊆ ascii "0123456789ABCDEF") :
    TokenChars (ascii " ,\t") (ascii "#") s :=
  tokenChars_of_subset h (by decide)

theorem decimal_word {n : Int} (h : 1 ≤ n) :
    TokenChars (ascii " ,\t") (ascii "#") (decimal n) :=
  tokenChars_of_subset (decimal_subset h) (by decide)

theorem splitLine_proxy {addr : Bytes} (haddr : TokenChars (ascii " ,\t") (ascii "#") addr)
    (hne : addr ≠ []) :
    splitLine (ascii " ,\t") (ascii "#") 32 (ascii "proxy\t" ++ addr)
      = some [ascii "proxy", addr] := by
  have hword : TokenChars (ascii " ,\t") (ascii "#") (ascii "proxy") := by
    unfold TokenChars
    decide
  have hline : ascii "proxy\t" ++ addr = ascii "proxy" ++ 0x09 :: addr := by
    simp [ascii]
  rw [splitLine, hline, splitLoop_token_sep hword (by decide) (by decide) (by decide) (by decide) _
    (by decide)]
  exact splitLoop_token_end haddr hne (by decide)

/-- The comma ends a word, the blank behind it ends none. -/
theorem splitLine_server {addr hex : Bytes} {weight : Int}
    (haddr : TokenChars (ascii " ,\t") (ascii "#") addr) (hne : addr ≠ []) (hweight : 1 ≤ weight)
    (hhex : TokenChars (ascii " ,\t") (ascii "#") hex) :
    splitLine (ascii " ,\t") (ascii "#") 32 (serverText addr weight hex)
      = some ([ascii "server", addr, decimal weight] ++ if hex = [] then [] else [hex]) := by
  have hword : TokenChars (ascii " ,\t") (ascii "#") (ascii "server") := by
    unfold TokenChars
    decide
  have hline : serverText addr weight hex = ascii "server" ++ 0x09 :: (addr ++ 0x2C :: 0x20 ::
      (decimal weight ++ 0x2C :: 0x20 :: hex)) := by
    simp [serverText, ascii]
  rw [splitLine, hline, splitLoop_token_sep hword (by decide) (by decide) (by decide) (by decide) _
      (by decide),
    splitLoop_token_sep haddr hne (by decide) (by decide) (by decide) _ (by simp),
    splitLoop_sep (by decide) (by decide) (by decide),
    splitLoop_token_sep (decimal_word hweight) (decimal_ne_nil_int hweight) (by decide) (by decide)
      (by decide) _ (by simp),
    splitLoop_sep (by decide) (by decide) (by decide)]
  by_cases hnil : hex = []
  · rw [if_pos hnil, hnil]
    rfl
  · rw [if_neg hnil, splitLoop_token_end hhex hnil (by simp)]
    rfl

theorem parseLine_server {host hex key : Bytes} {port weight : Int} (haddr : AddressOk host port)
    (hweight : 1 ≤ weight ∧ weight ≤ 999999) (hhex : TokenChars (ascii " ,\t") (ascii "#") hex)
    (hkey : decodeHex hex = some (some key)) :
    parseLine (serverText (address host port) weight hex)
      = some (.entry (.server host port weight key)) := by
  have hatoi := atoi_decimal_int hweight.1 (by omega)
  unfold parseLine
  rw [splitLine_server (address_word haddr) (address_ne_nil haddr) hweight.1 hhex]
  simp only [List.cons_append, List.nil_append,
    show ascii "server" ≠ ascii "proxy" by decide, if_false, if_true]
  unfold parseServer
  by_cases hnil : hex = []
  · subst hnil
    cases hkey
    rw [if_neg (by simp)]
    simp only [if_true, List.getD_cons_succ, List.getD_cons_zero, getHostPort_address haddr,
      hatoi]
    rw [if_neg (by omega), if_neg (by simp)]
  · simp only [if_neg hnil]
    rw [if_neg (by simp)]
    simp only [List.getD_cons_succ, List.getD_cons_zero, getHostPort_address haddr, hatoi, hkey]
    rw [if_neg (by omega), if_pos (by simp)]

theorem parseLine_proxy {host : Bytes} {port : Int} (h : AddressOk host port) :
    parseLine (ascii "proxy\t" ++ address host port) = some (.entry (.proxy host port)) := by
  unfold parseLine
  rw [splitLine_proxy (address_word h) (address_ne_nil h)]
  simp only [if_true]
  unfold parseProxy
  rw [if_neg (by simp)]
  simp only [List.getD_cons_succ, List.getD_cons_zero, getHostPort_address h]

/-- An entry is read from its line. -/
theorem parseLine_entryLine {e : ConfigEntry} (h : EntryOk e) :
    parseLine (entryLine e) = some (.entry e) := by
  cases e with
  | proxy host port =>
      rw [← parseLine_proxy h]
      simp only [entryLine, address, List.append_assoc]
  | server host port weight key =>
      obtain ⟨haddr, hweight, hkey⟩ := h
      rw [← parseLine_server haddr hweight (digits_word (encodeHex_subset key))
        (decodeHex_encodeHex hkey)]
      simp only [entryLine, serverText, address, List.append_assoc]

/-! ## A line that is cut in its host

When the host has a line break, the line ends there for the reader. What is left of it
has no port, and such a line does not load. -/

/-- The line up to the host. -/
def lineFront : ConfigEntry → Bytes
  | .proxy _ _ => ascii "proxy\t"
  | .server _ _ _ _ => ascii "server\t"

theorem entryLine_front : ∀ e : ConfigEntry,
    ∃ back, entryLine e = lineFront e ++ (hostOf e ++ back)
  | .proxy host port => ⟨ascii ":" ++ decimal port, by
      simp only [entryLine, lineFront, hostOf, List.append_assoc]⟩
  | .server host port weight key => ⟨ascii ":" ++ (decimal port ++ (ascii ", " ++
      (decimal weight ++ (ascii ", " ++ encodeHex key)))), by
      simp only [entryLine, lineFront, hostOf, List.append_assoc]⟩

/-- One word behind the keyword at most. -/
theorem splitLine_cut {keyword host : Bytes} (hkeyword : keyword ≠ [])
    (hword : TokenChars (ascii " ,\t") (ascii "#") keyword)
    (hhost : TokenChars (ascii " ,\t") (ascii "#") host) :
    splitLine (ascii " ,\t") (ascii "#") 32 (keyword ++ 0x09 :: host)
      = some (keyword :: if host = [] then [] else [host]) := by
  rw [splitLine, splitLoop_token_sep hword hkeyword (by decide) (by decide) (by decide) _
    (by decide)]
  by_cases hnil : host = []
  · rw [if_pos hnil, hnil]
    rfl
  · rw [if_neg hnil]
    exact splitLoop_token_end hhost hnil (by simp)

/-- There is no port behind the beginning of a host. -/
theorem getHostPort_cut {host : Bytes} (h : TokenChars (ascii ":") [] host) :
    getHostPort host = some none := by
  have hsplit : splitLine (ascii ":") [] 2 host = some (if host = [] then [] else [host]) := by
    rw [splitLine]
    by_cases hnil : host = []
    · rw [if_pos hnil, hnil]
      rfl
    · rw [if_neg hnil]
      exact splitLoop_token_end h hnil (by decide)
  unfold getHostPort
  rw [hsplit]
  by_cases hnil : host = []
  · rw [if_pos hnil]
  · rw [if_neg hnil]

theorem parseLine_cut {e : ConfigEntry} (h : EntryOk e) {front back : Bytes}
    (hsplit : hostOf e = front ++ back) :
    ∃ err, parseLine (lineFront e ++ front) = some (.error err) := by
  have hpart : ∀ {sepChars quitChars : Bytes}, TokenChars sepChars quitChars (hostOf e) →
      TokenChars sepChars quitChars front := by
    intro _ _ hall c hc
    refine hall c ?_
    rw [hsplit]
    exact List.mem_append_left _ hc
  have hproxy : TokenChars (ascii " ,\t") (ascii "#") (ascii "proxy") := by
    unfold TokenChars
    decide
  have hserver : TokenChars (ascii " ,\t") (ascii "#") (ascii "server") := by
    unfold TokenChars
    decide
  unfold parseLine
  cases e with
  | proxy host port =>
      have h : AddressOk host port := h
      rw [show lineFront (.proxy host port) ++ front = ascii "proxy" ++ 0x09 :: front by
        simp [lineFront, ascii], splitLine_cut (by decide) hproxy (hpart h.word)]
      simp only [if_true]
      unfold parseProxy
      by_cases hnil : front = []
      · rw [if_pos hnil, if_pos (by simp)]
        exact ⟨_, rfl⟩
      · rw [if_neg hnil, if_neg (by simp)]
        simp only [List.getD_cons_succ, List.getD_cons_zero, getHostPort_cut (hpart h.name)]
        exact ⟨_, rfl⟩
  | server host port weight key =>
      have h : AddressOk host port := h.1
      rw [show lineFront (.server host port weight key) ++ front
          = ascii "server" ++ 0x09 :: front by
        simp [lineFront, ascii], splitLine_cut (by decide) hserver (hpart h.word)]
      simp only [show ascii "server" ≠ ascii "proxy" by decide, if_false, if_true]
      unfold parseServer
      rw [if_pos (by by_cases hnil : front = [] <;> simp [hnil])]
      exact ⟨_, rfl⟩

/-! ## What is written

The text consists of comments and one line for each proxy and each server. A buffer that
takes it has all of it but perhaps the last line break, which makes no difference to the
lines. -/

/-- The entries of a configuration, in the order they are written. -/
def worldEntries (w : ProxyWorld) : List ConfigEntry :=
  w.proxies.toList.map (fun proxy => .proxy proxy.host proxy.port) ++
    w.servers.toList.map fun server => .server server.host server.port server.weight server.key

/-- The comment that every configuration begins with. -/
def headLines (env : ProxyEnv) : List Bytes :=
  [ascii "# This file is automatically generated. Do not edit.",
   ascii "#Created on " ++ strip env.ctime ++ ascii ", " ++ env.hostname]

/-- The lines of the text, an empty one before the proxies and one before the servers. -/
def textLines (env : ProxyEnv) (w : ProxyWorld) : List Bytes :=
  headLines env ++ [[]] ++
    w.proxies.toList.map (fun proxy => entryLine (.proxy proxy.host proxy.port)) ++ [[]] ++
    w.servers.toList.map fun server =>
      entryLine (.server server.host server.port server.weight server.key)

theorem flatten_configLines (env : ProxyEnv) (w : ProxyWorld) :
    (configLines env w).flatten = (textLines env w).flatMap (· ++ [0x0A]) := by
  have hbreak : ascii "\n" = [0x0A] := rfl
  have hhead : ascii "# This file is automatically generated. Do not edit.\n"
      = ascii "# This file is automatically generated. Do not edit." ++ [0x0A] := by decide
  have hempty : ascii "\n\n" = [0x0A, 0x0A] := rfl
  simp [configLines, textLines, headLines, entryLine, hbreak, hhead, hempty, List.flatMap_def,
    Function.comp_def]

theorem filter_textLines (env : ProxyEnv) (w : ProxyWorld) :
    (textLines env w).filter (fun l => !l.isEmpty)
      = headLines env ++ (worldEntries w).map entryLine := by
  have hline : ∀ e, (entryLine e).isEmpty = false := by
    intro e
    obtain ⟨back, hback⟩ := entryLine_front e
    rw [hback]
    cases e <;> rfl
  have hhead : (headLines env).filter (fun l => !l.isEmpty) = headLines env := rfl
  simp [textLines, worldEntries, List.filter_append, hhead, List.filter_map, Function.comp_def,
    hline]

/-- All is stored, or a zero takes the place of the last byte when there is just no
room for it. -/
def Stored (b b' : LineWriter) (text : Bytes) : Prop :=
  (b'.out = b.out ++ text ∧ (text.length : Int) < b.left) ∨
    (b'.out = b.out ++ (text.dropLast ++ [0]) ∧ (text.length : Int) = b.left)

theorem writeLine_some {b b' : LineWriter} {text : Bytes} (hne : text ≠ [])
    (h : writeLine b text = some b') : b'.left = b.left - text.length ∧ Stored b b' text := by
  unfold writeLine at h
  split at h
  · cases h
  · cases h
    have hpos := List.length_pos_iff.mpr hne
    refine ⟨rfl, ?_⟩
    by_cases hlt : (text.length : Int) < b.left
    · refine .inl ⟨?_, hlt⟩
      simp only [if_pos hlt]
    · refine .inr ⟨?_, by omega⟩
      simp only [if_neg hlt, List.dropLast_eq_take, show min 1 text.length = 1 by omega]
      rfl

theorem writeLines_some : ∀ {ls : List Bytes} {b b' : LineWriter}, ls ≠ [] →
    (∀ t ∈ ls, t ≠ []) → writeLines b ls = some b' → Stored b b' ls.flatten := by
  intro ls
  induction ls with
  | nil => intro b b' hls; exact absurd rfl hls
  | cons text rest ih =>
      intro b b' _ hne h
      rw [writeLines] at h
      split at h
      · cases h
      · next b1 hb1 =>
          obtain ⟨hleft, hout⟩ := writeLine_some (hne text List.mem_cons_self) hb1
          cases rest with
          | nil =>
              cases h
              rw [List.flatten_cons, List.flatten_nil, List.append_nil]
              exact hout
          | cons t rest =>
              have hrest := fun t' ht => hne t' (List.mem_cons_of_mem text ht)
              have hpos := List.length_pos_iff.mpr (hrest t List.mem_cons_self)
              have hcons : (text :: t :: rest).flatten = text ++ (t :: rest).flatten :=
                List.flatten_cons
              have hlen : ((text ++ (t :: rest).flatten).length : Int)
                  = text.length + ((t :: rest).flatten).length := by
                rw [List.length_append, Int.natCast_add]
              rcases hout with ⟨hout, -⟩ | ⟨-, hfull⟩
              · have hflat : (t :: rest).flatten ≠ [] := by
                  rw [List.flatten_cons]
                  exact List.append_ne_nil_of_left_ne_nil (hrest t List.mem_cons_self) _
                rw [hcons]
                rcases ih (List.cons_ne_nil _ _) hrest h with ⟨hih, hroom⟩ | ⟨hih, hroom⟩
                · exact .inl ⟨by rw [hih, hout, List.append_assoc], by omega⟩
                · refine .inr ⟨?_, by omega⟩
                  rw [hih, hout, List.dropLast_append_of_ne_nil hflat, List.append_assoc,
                    List.append_assoc]
              · -- no room is left for another line
                rw [writeLines, writeLine, if_pos (by omega)] at h
                cases h

/-- The text of some lines, whole or without its last line break. -/
def TextOf (ls : List Bytes) (text : Bytes) : Prop :=
  text = ls.flatMap (· ++ [0x0A]) ∨ text = (ls.flatMap (· ++ [0x0A])).dropLast

theorem cString_of_not_mem {s : Bytes} (h : (0 : UInt8) ∉ s) : cString s = s := by
  refine List.takeWhile_eq_self_iff.mpr fun c hc => ?_
  rw [decide_eq_true_eq]
  rintro rfl
  exact h hc

theorem cString_zero {s : Bytes} (h : (0 : UInt8) ∉ s) (rest : Bytes) :
    cString (s ++ 0 :: rest) = s := by
  rw [cString, List.takeWhile_append_of_pos]
  · simp
  · intro c hc
    rw [decide_eq_true_eq]
    rintro rfl
    exact h hc

theorem configLines_ne_nil (env : ProxyEnv) (w : ProxyWorld) : ∀ t ∈ configLines env w, t ≠ [] := by
  intro t ht hnil
  subst hnil
  simp [configLines, ascii] at ht

/-- What `config_to_string` leaves in its buffer. -/
theorem configToString_out {env : ProxyEnv} {w : ProxyWorld} {bufSz r : Int} {out : Bytes}
    (h : configToString env w bufSz = some (out, r)) :
    (out = (textLines env w).flatMap (· ++ [0x0A]) ∧
        ((configLines env w).flatten.length : Int) < bufSz) ∨
      (out = ((textLines env w).flatMap (· ++ [0x0A])).dropLast ++ [0] ∧
        ((configLines env w).flatten.length : Int) = bufSz) := by
  unfold configToString at h
  split at h
  · cases h
  · next b hb =>
      cases h
      have hout := writeLines_some (by simp [configLines]) (configLines_ne_nil env w) hb
      rw [Stored, List.nil_append, List.nil_append] at hout
      rwa [← flatten_configLines]

theorem cString_configToString {env : ProxyEnv} {w : ProxyWorld} {bufSz r : Int} {out : Bytes}
    (hzero : ∀ t ∈ textLines env w, (0 : UInt8) ∉ t)
    (h : configToString env w bufSz = some (out, r)) : TextOf (textLines env w) (cString out) := by
  have hflat : (0 : UInt8) ∉ (textLines env w).flatMap (· ++ [0x0A]) := by
    intro hmem
    obtain ⟨t, ht, hc⟩ := List.mem_flatMap.mp hmem
    rcases List.mem_append.mp hc with hc | hc
    · exact hzero t ht hc
    · exact absurd (List.mem_singleton.mp hc) (by decide)
  rcases configToString_out h with ⟨rfl, -⟩ | ⟨rfl, -⟩
  · exact .inl (cString_of_not_mem hflat)
  · exact .inr (cString_zero (fun hmem => hflat (List.dropLast_subset _ hmem)) [])

section Text

variable {ls : List Bytes} {text : Bytes}

theorem splitLine_textOf (h : TextOf ls text) (hls : ∀ l ∈ ls, TokenChars (ascii "\n\r") [] l)
    {n : Nat} (hroom : (ls.filter fun l => !l.isEmpty).length < n) :
    splitLine (ascii "\n\r") [] n text = some (ls.filter fun l => !l.isEmpty) := by
  rcases h with rfl | rfl
  · have hsplit := splitLoop_lines (c := 0x0A) (by decide) (by decide) (by decide) [] ls [] hls
      (by simpa using hroom)
    rw [List.append_nil, List.nil_append] at hsplit
    rw [splitLine, hsplit, splitLoop, Option.toList_none, List.append_nil]
  · rcases List.eq_nil_or_concat' ls with rfl | ⟨init, last, rfl⟩
    · rfl
    · -- the last line is not ended by a line break
      have hshape : ((init ++ [last]).flatMap (· ++ [(0x0A : UInt8)])).dropLast
          = init.flatMap (· ++ [0x0A]) ++ last := by
        rw [List.flatMap_append, List.flatMap_singleton, ← List.append_assoc,
          List.dropLast_concat]
      rw [List.filter_append, List.length_append] at hroom
      rw [hshape, splitLine, splitLoop_lines (by decide) (by decide) (by decide) last init []
        (fun l hl => hls l (List.mem_append_left _ hl)) (by simpa using by omega), List.nil_append,
        List.filter_append]
      by_cases hnil : last = []
      · subst hnil
        rfl
      · have hfilter : [last].filter (fun l => !l.isEmpty) = [last] := by
          simp [hnil]
        rw [hfilter] at hroom ⊢
        exact splitLoop_token_end (hls last (by simp)) hnil (by simpa using hroom)

theorem textOf_front {before after : List Bytes} {front back : Bytes} {c : UInt8}
    (h : TextOf (before ++ (front ++ c :: back) :: after) text) :
    ∃ rest, text = before.flatMap (· ++ [0x0A]) ++ (front ++ c :: rest) := by
  have hshape : (before ++ (front ++ c :: back) :: after).flatMap (· ++ [(0x0A : UInt8)])
      = before.flatMap (· ++ [0x0A]) ++ (front ++ c :: (back ++ 0x0A ::
          after.flatMap (· ++ [0x0A]))) := by
    simp
  rcases h with rfl | rfl
  · exact ⟨_, hshape⟩
  · refine ⟨(back ++ 0x0A :: after.flatMap (· ++ [0x0A])).dropLast, ?_⟩
    rw [hshape, List.dropLast_append_of_ne_nil (by simp), List.dropLast_append_of_ne_nil (by simp),
      List.dropLast_cons_of_ne_nil (by simp)]

/-- The first line that has a break in it is cut there. -/
theorem splitLine_broken {before after lines : List Bytes} {front back : Bytes}
    {c : UInt8} {n : Nat}
    (h : TextOf (before ++ (front ++ c :: back) :: after) text)
    (hbefore : ∀ l ∈ before, TokenChars (ascii "\n\r") [] l)
    (hfront : TokenChars (ascii "\n\r") [] front) (hne : front ≠ [])
    (hc : c < 0x80 ∧ c ∈ ascii "\n\r")
    (hroom : (before.filter fun l => !l.isEmpty).length + 1 < n)
    (hlines : splitLine (ascii "\n\r") [] n text = some lines) : front ∈ lines := by
  obtain ⟨rest, rfl⟩ := textOf_front h
  rw [splitLine, splitLoop_lines (by decide) (by decide) (by decide) _ before [] hbefore
    (by simpa using by omega), splitLoop_token_sep hfront hne hc.1 hc.2 (by simp) _
    (by simpa using hroom)] at hlines
  exact (splitLoop_front hlines).subset (by simp)

end Text

/-! ## LoadedConfig configurations -/

/-- What loading into an empty configuration leaves. -/
structure LoadedConfig (w : ProxyWorld) : Prop where
  trees : TreesOk w
  entries : ∀ e ∈ worldEntries w, EntryOk e ∧ (0 : UInt8) ∉ hostOf e
  proxies : w.proxies.toList ≠ []
  servers : w.servers.toList ≠ []

theorem proxiesOf_worldEntries (w : ProxyWorld) :
    proxiesOf (worldEntries w) = w.proxies.toList := by
  rw [proxiesOf, worldEntries, List.filterMap_append, List.filterMap_map, List.filterMap_map]
  simp [toProxy, Function.comp_def]

theorem serversOf_worldEntries (w : ProxyWorld) :
    serversOf (worldEntries w) = w.servers.toList.map serverLine := by
  rw [serversOf, worldEntries, List.filterMap_append, List.filterMap_map, List.filterMap_map]
  simp [toServer, serverLine, Function.comp_def]

theorem mem_of_mem_proxiesOf {es : List ConfigEntry} {p : StProxy} (h : p ∈ proxiesOf es) :
    .proxy p.host p.port ∈ es := by
  obtain ⟨e, he, hp⟩ := List.mem_filterMap.mp h
  cases e with
  | proxy host port => cases hp; exact he
  | server host port weight key => cases hp

theorem mem_of_mem_serversOf {es : List ConfigEntry} {l : ServerLine} (h : l ∈ serversOf es) :
    .server l.1 l.2.1 l.2.2.1 l.2.2.2 ∈ es := by
  obtain ⟨e, he, hl⟩ := List.mem_filterMap.mp h
  cases e with
  | proxy host port => cases hl
  | server host port weight key => cases hl; exact he

theorem distinct_worldEntries {w : ProxyWorld} (h : TreesOk w) : Distinct (worldEntries w) := by
  refine ⟨?_, ?_⟩
  · rw [proxiesOf_worldEntries]
    exact h.proxies.imp fun hlt heq => absurd hlt (by rw [heq]; exact lt_irrefl _)
  · rw [serversOf_worldEntries, List.map_map]
    refine List.Pairwise.map _ (fun a b hlt heq => ?_) h.servers
    have heq : a.key = b.key := heq
    have hlt : ordKey a.key < ordKey b.key := hlt
    rw [heq] at hlt
    exact lt_irrefl _ hlt

section Load

variable {env : ProxyEnv} {w0 w : ProxyWorld}

theorem treesOk_leaf (hproxies : w0.proxies = .leaf) (hservers : w0.servers = .leaf) :
    TreesOk w0 := by
  refine ⟨?_, ?_⟩
  · rw [hproxies]; exact List.Pairwise.nil
  · rw [hservers]; exact List.Pairwise.nil

/-- A text that loads has both kinds of entries. -/
theorem configEntries_of_load {text : Bytes}
    (h : loadConfigFromString env false w0 text = some (w, none)) :
    ∃ es, configEntries text = some es ∧ createAll env w0 es = some w := by
  obtain ⟨lines, es, hlines, hes, hall⟩ := createAll_of_load env h
  refine ⟨es, ?_, hall⟩
  obtain ⟨m, hrun⟩ := (loadLines_loading env 0 { world := w0 } hes).1 w hall
  unfold loadConfigFromString at h
  rw [hlines] at h
  simp only [] at h
  rw [hrun] at h
  have herr := (Prod.mk.inj (Option.some.inj h)).2
  rw [Option.map_eq_none_iff, Option.none_or, countError_eq_none_iff] at herr
  unfold configEntries
  rw [hlines]
  simp only []
  rw [hes]
  simp only []
  rw [if_neg]
  simpa [not_or] using herr

theorem createAll_leaf {es : List ConfigEntry} (hproxies : w0.proxies = .leaf)
    (hservers : w0.servers = .leaf) (h : createAll env w0 es = some w) : Described es w := by
  obtain ⟨htrees, hp, hs⟩ := createAll_some env (treesOk_leaf hproxies hservers) h
  rw [hproxies, show (Tree.leaf.toList : List StProxy) = [] from rfl, List.append_nil] at hp
  rw [hservers, show (Tree.leaf.toList : List StServer) = [] from rfl, List.map_nil,
    List.append_nil] at hs
  exact ⟨htrees, hp, hs⟩

theorem configEntries_some {text : Bytes} {es : List ConfigEntry}
    (h : configEntries text = some es) : ∃ lines,
      splitLine (ascii "\n\r") [] maxConfigLines text = some lines ∧ entriesOf lines = some es ∧
        proxiesOf es ≠ [] ∧ serversOf es ≠ [] := by
  unfold configEntries at h
  split at h
  · cases h
  · next lines hlines =>
      split at h
      · cases h
      · next es' hes =>
          split at h
          · cases h
          · next hboth =>
              cases h
              exact ⟨lines, hlines, hes, fun hnil => hboth (.inl hnil),
                fun hnil => hboth (.inr hnil)⟩

theorem loaded_of_load {buf : Bytes} (hproxies : w0.proxies = .leaf) (hservers : w0.servers = .leaf)
    (h : loadConfigFromString env false w0 (cString buf) = some (w, none)) : LoadedConfig w := by
  obtain ⟨es, hes, hall⟩ := configEntries_of_load h
  obtain ⟨lines, hlines, hent, hp, hs⟩ := configEntries_some hes
  have hdescr := createAll_leaf hproxies hservers hall
  have hzero : (0 : UInt8) ∉ cString buf := fun hmem => by
    simpa using List.mem_takeWhile_imp hmem
  have hsub := splitLoop_subset (cString buf) (by simp) (by simp) (fun _ hc => hc) hlines
  refine ⟨hdescr.trees, fun e he => ?_, fun hnil => hp ?_, fun hnil => hs ?_⟩
  · have hmem : e ∈ es := by
      rcases List.mem_append.mp he with he | he
      · obtain ⟨p, hp, rfl⟩ := List.mem_map.mp he
        exact mem_of_mem_proxiesOf (hdescr.proxies.subset hp)
      · obtain ⟨s, hs, rfl⟩ := List.mem_map.mp he
        exact mem_of_mem_serversOf (hdescr.servers.subset (List.mem_map_of_mem hs))
    obtain ⟨line, hline, hparse⟩ := entriesOf_mem hent e hmem
    obtain ⟨hok, hhost⟩ := parseLine_entry hparse
    exact ⟨hok, fun hc => hzero (hsub line hline (hhost hc))⟩
  · exact (hnil ▸ hdescr.proxies).nil_eq.symm
  · have hperm := hdescr.servers
    rw [hnil] at hperm
    exact hperm.nil_eq.symm

end Load

/-! ## The round trip

If no host has a line break, each printed entry is one line and asks for itself. If one
has, the first such line is an error, so the text is not loaded at all. -/

/-- The date and the host name stay in their comment. -/
def PlainComment (env : ProxyEnv) : Prop :=
  ∀ c ∈ strip env.ctime ++ env.hostname, c < 0x80 ∧ c ≠ 0 ∧ c ∉ ascii "\n\r"

/-- The lines of the proxies and servers are those of the text, by which they are
lines in the first place. -/
structure OneLineHosts (w : ProxyWorld) : Prop where
  proxies : ∀ proxy ∈ w.proxies.toList, ∀ c ∈ ascii "\n\r", c ∉ proxy.host
  servers : ∀ server ∈ w.servers.toList, ∀ c ∈ ascii "\n\r", c ∉ server.host

/-- The text loads, makes the same proxies and servers, and they are printed as the
same lines again. -/
def RoundTrips (env env' : ProxyEnv) (w w1 : ProxyWorld) (text : Bytes) : Prop :=
  ∃ w', loadConfigFromString env' false w1 text = some (w', none) ∧
    (∀ p, p ∈ w'.proxies.toList ↔ p ∈ w.proxies.toList) ∧
    (∀ l, l ∈ w'.servers.toList.map serverLine ↔ l ∈ w.servers.toList.map serverLine) ∧
    ∀ env2, (configLines env2 w').drop 2 = (configLines env w).drop 2

theorem oneLineHosts_iff {w : ProxyWorld} : OneLineHosts w ↔
    ∀ e ∈ worldEntries w, ∀ c ∈ ascii "\n\r", c ∉ hostOf e := by
  constructor
  · rintro ⟨hp, hs⟩ e he
    rcases List.mem_append.mp he with he | he
    · obtain ⟨p, hmem, rfl⟩ := List.mem_map.mp he
      exact hp p hmem
    · obtain ⟨s, hmem, rfl⟩ := List.mem_map.mp he
      exact hs s hmem
  · intro h
    exact ⟨fun p hp => h _ (List.mem_append_left _ (List.mem_map_of_mem hp)),
      fun s hs => h _ (List.mem_append_right _ (List.mem_map_of_mem hs))⟩

theorem entryLine_unbroken {e : ConfigEntry} (h : EntryOk e)
    (hhost : ∀ c ∈ ascii "\n\r", c ∉ hostOf e) : TokenChars (ascii "\n\r") [] (entryLine e) := by
  intro c hc
  rcases entryLine_chars h hc with hc | hc
  · have hlow : c < 0x80 := by
      cases e with
      | proxy host port => exact (AddressOk.word h c hc).1
      | server host port weight key => exact (h.1.word c hc).1
    exact ⟨hlow, fun hbreak => hhost c hbreak hc, List.not_mem_nil⟩
  · exact tokenChars_of_subset (List.Subset.refl lineChars) (by decide) c hc

section RoundTrip

variable {env : ProxyEnv} {w : ProxyWorld}

theorem mem_textLines {t : Bytes} (h : t ∈ textLines env w) :
    t ∈ headLines env ∨ t = [] ∨ ∃ e ∈ worldEntries w, t = entryLine e := by
  simp only [textLines, List.mem_append, List.mem_singleton, List.mem_map] at h
  rcases h with (((h | h) | ⟨p, hp, rfl⟩) | h) | ⟨s, hs, rfl⟩
  · exact .inl h
  · exact .inr (.inl h)
  · exact .inr (.inr ⟨_, List.mem_append_left _ (List.mem_map_of_mem hp), rfl⟩)
  · exact .inr (.inl h)
  · exact .inr (.inr ⟨_, List.mem_append_right _ (List.mem_map_of_mem hs), rfl⟩)

theorem headLines_chars (h : PlainComment env) {t : Bytes} (ht : t ∈ headLines env) {c : UInt8}
    (hc : c ∈ t) : c < 0x80 ∧ c ≠ 0 ∧ c ∉ ascii "\n\r" := by
  have hfirst : ∀ c ∈ ascii "# This file is automatically generated. Do not edit.",
      c < 0x80 ∧ c ≠ 0 ∧ c ∉ ascii "\n\r" := by decide
  have hcreated : ∀ c ∈ ascii "#Created on ", c < 0x80 ∧ c ≠ 0 ∧ c ∉ ascii "\n\r" := by decide
  have hcomma : ∀ c ∈ ascii ", ", c < 0x80 ∧ c ≠ 0 ∧ c ∉ ascii "\n\r" := by decide
  simp only [headLines, List.mem_cons, List.not_mem_nil, or_false] at ht
  rcases ht with rfl | rfl
  · exact hfirst c hc
  · simp only [List.mem_append] at hc
    rcases hc with ((hc | hc) | hc) | hc
    · exact hcreated c hc
    · exact h c (List.mem_append_left _ hc)
    · exact hcomma c hc
    · exact h c (List.mem_append_right _ hc)

theorem parseLine_comment (rest : Bytes) : parseLine (0x23 :: rest) = some .blank := by
  have hsplit : splitLine (ascii " ,\t") (ascii "#") 32 (0x23 :: rest) = some [] :=
    splitLoop_quit (by decide) (by decide) rest [] none
  unfold parseLine
  rw [hsplit]

theorem entriesOf_map {α : Type} {line : α → Bytes} {entry : α → ConfigEntry} : ∀ {l : List α},
    (∀ a ∈ l, parseLine (line a) = some (.entry (entry a))) →
      entriesOf (l.map line) = some (l.map entry) := by
  intro l
  induction l with
  | nil => intro _; rfl
  | cons a l ih =>
      intro h
      rw [List.map_cons, entriesOf, h a List.mem_cons_self]
      simp only []
      rw [ih fun b hb => h b (List.mem_cons_of_mem _ hb)]
      rfl

theorem entriesOf_textLines (h : ∀ e ∈ worldEntries w, EntryOk e) :
    entriesOf ((textLines env w).filter fun l => !l.isEmpty) = some (worldEntries w) := by
  have hsecond : ascii "#Created on " = 0x23 :: ascii "Created on " := rfl
  rw [filter_textLines, headLines, hsecond, List.cons_append, List.cons_append, List.nil_append,
    List.cons_append, List.cons_append, entriesOf,
    show ascii "# This file is automatically generated. Do not edit."
      = 0x23 :: ascii " This file is automatically generated. Do not edit." by decide,
    parseLine_comment, List.cons_append]
  simp only []
  rw [entriesOf, parseLine_comment]
  exact (entriesOf_map fun e he => parseLine_entryLine (h e he)).trans (by rw [List.map_id'])

theorem length_textLines (hcount : w.proxies.toList.length + w.servers.toList.length
    ≤ maxConfigLines - 3) :
    ((textLines env w).filter fun l => !l.isEmpty).length < maxConfigLines := by
  rw [filter_textLines, List.length_append, List.length_map, worldEntries, List.length_append,
    List.length_map, List.length_map, show (headLines env).length = 2 from rfl]
  rw [maxConfigLines] at hcount ⊢
  omega

theorem zero_notMem_textLines (hw : LoadedConfig w) (hcomment : PlainComment env) {t : Bytes}
    (ht : t ∈ textLines env w) : (0 : UInt8) ∉ t := by
  intro hc
  rcases mem_textLines ht with ht | rfl | ⟨e, he, rfl⟩
  · exact (headLines_chars hcomment ht hc).2.1 rfl
  · cases hc
  · obtain ⟨hok, hzero⟩ := hw.entries e he
    rcases entryLine_chars hok hc with hc | hc
    · exact hzero hc
    · exact absurd hc (by decide)

/-- With every entry on its line, the text makes them all again. -/
theorem reload_of_oneLine (env' : ProxyEnv) {w1 : ProxyWorld} {text : Bytes} (hw : LoadedConfig w)
    (hcomment : PlainComment env) (hcount : w.proxies.toList.length + w.servers.toList.length
      ≤ maxConfigLines - 3) (htext : TextOf (textLines env w) text)
    (hproxies : w1.proxies = .leaf) (hservers : w1.servers = .leaf) (h : OneLineHosts w) :
    ∃ w', loadConfigFromString env' false w1 text = some (w', none) ∧
      Described (worldEntries w) w' := by
  rw [oneLineHosts_iff] at h
  have hlines : ∀ l ∈ textLines env w, TokenChars (ascii "\n\r") [] l := by
    intro l hl
    rcases mem_textLines hl with hl | rfl | ⟨e, he, rfl⟩
    · intro c hc
      obtain ⟨hlow, -, hbreak⟩ := headLines_chars hcomment hl hc
      exact ⟨hlow, hbreak, List.not_mem_nil⟩
    · exact fun c hc => absurd hc List.not_mem_nil
    · exact entryLine_unbroken (hw.entries e he).1 (h e he)
  have hsplit := splitLine_textOf htext hlines (length_textLines hcount)
  have hentries : configEntries text = some (worldEntries w) := by
    unfold configEntries
    rw [hsplit]
    simp only []
    rw [entriesOf_textLines fun e he => (hw.entries e he).1]
    simp only []
    rw [proxiesOf_worldEntries, serversOf_worldEntries, if_neg]
    simpa [not_or] using ⟨hw.proxies, hw.servers⟩
  have hfresh : Fresh w1 (worldEntries w) := by
    refine ⟨distinct_worldEntries hw.trees, ?_, ?_⟩
    · rw [hproxies]
      exact fun _ _ => List.not_mem_nil
    · rw [hservers]
      exact fun _ _ => List.not_mem_nil
  obtain ⟨w', hall⟩ := (createAll_isSome_iff env' (treesOk_leaf hproxies hservers)).mpr hfresh
  exact ⟨w', (loadConfigFromString_loading env' w1 hentries).1 w' hall,
    createAll_leaf hproxies hservers hall⟩

theorem exists_first {α : Type} {P : α → Prop} {l : List α} (h : ∃ a ∈ l, ¬ P a) :
    ∃ before a after, l = before ++ a :: after ∧ ¬ P a ∧ ∀ b ∈ before, P b := by
  classical
  obtain ⟨a, ha⟩ := Option.isSome_iff_exists.mp
    ((List.find?_isSome (p := fun a => decide (¬ P a))).mpr (by simpa using h))
  obtain ⟨hnot, before, after, hshape, hbefore⟩ := List.find?_eq_some_iff_append.mp ha
  exact ⟨before, a, after, hshape, by simpa using hnot, by simpa using hbefore⟩

theorem break_low {c : UInt8} (h : c ∈ ascii "\n\r") : c < 0x80 := by
  have hall : ∀ c ∈ ascii "\n\r", c < 0x80 := by decide
  exact hall c h

theorem lineFront_append {e : ConfigEntry} (h : EntryOk e) {front back : Bytes}
    (hsplit : hostOf e = front ++ back) (hfront : ∀ c ∈ front, c ∉ ascii "\n\r") :
    TokenChars (ascii "\n\r") [] (lineFront e ++ front) := by
  intro c hc
  rcases List.mem_append.mp hc with hc | hc
  · refine tokenChars_of_subset (show _ ⊆ lineChars from ?_) (by decide) c hc
    cases e with
    | proxy host port => exact show ascii "proxy\t" ⊆ lineChars by decide
    | server host port weight key => exact show ascii "server\t" ⊆ lineChars by decide
  · have hhost : c ∈ hostOf e := by
      rw [hsplit]
      exact List.mem_append_left _ hc
    refine ⟨?_, hfront c hc, List.not_mem_nil⟩
    cases e with
    | proxy host port => exact (AddressOk.word h c hhost).1
    | server host port weight key => exact (h.1.word c hhost).1

theorem length_before {before after : List Bytes} {l : Bytes} {n : Nat}
    (hroom : ((before ++ l :: after).filter fun l => !l.isEmpty).length < n)
    (hnot : ¬ TokenChars (ascii "\n\r") [] l) :
    (before.filter fun l => !l.isEmpty).length + 1 < n := by
  have hne : l ≠ [] := by
    rintro rfl
    exact hnot fun c hc => absurd hc List.not_mem_nil
  have hl : (l :: after).filter (fun l => !l.isEmpty) = l :: after.filter fun l => !l.isEmpty := by
    simp [hne]
  rw [List.filter_append, hl, List.length_append, List.length_cons] at hroom
  omega

/-- A line broken in a host is one that asks for nothing. -/
theorem oneLine_of_reload {env' : ProxyEnv} {w1 w' : ProxyWorld} {text : Bytes}
    (hw : LoadedConfig w)
    (hcomment : PlainComment env) (hcount : w.proxies.toList.length + w.servers.toList.length
      ≤ maxConfigLines - 3) (htext : TextOf (textLines env w) text)
    (hload : loadConfigFromString env' false w1 text = some (w', none)) : OneLineHosts w := by
  obtain ⟨lines, es, hlines, hes, -⟩ := createAll_of_load env' hload
  have hroom : ((textLines env w).filter fun l => !l.isEmpty).length < maxConfigLines :=
    length_textLines hcount
  by_contra hbroken
  have hany : ∃ l ∈ textLines env w, ¬ TokenChars (ascii "\n\r") [] l := by
    rw [oneLineHosts_iff] at hbroken
    push Not at hbroken
    obtain ⟨e, he, c, hc, hmem⟩ := hbroken
    obtain ⟨back, hback⟩ := entryLine_front e
    refine ⟨entryLine e, ?_, fun hall => ?_⟩
    · have hfilter : entryLine e ∈ (textLines env w).filter fun l => !l.isEmpty := by
        rw [filter_textLines]
        exact List.mem_append_right _ (List.mem_map_of_mem he)
      exact List.mem_of_mem_filter hfilter
    · refine (hall c ?_).2.1 hc
      rw [hback]
      exact List.mem_append_right _ (List.mem_append_left _ hmem)
  obtain ⟨before, l, after, hshape, hnot, hbefore⟩ := exists_first hany
  rw [hshape] at htext hroom
  have hmem : l ∈ textLines env w := by
    rw [hshape]
    exact List.mem_append_right _ List.mem_cons_self
  rcases mem_textLines hmem with hl | rfl | ⟨e, he, rfl⟩
  · refine hnot fun c hc => ?_
    obtain ⟨hlow, -, hbreak⟩ := headLines_chars hcomment hl hc
    exact ⟨hlow, hbreak, List.not_mem_nil⟩
  · exact hnot fun c hc => absurd hc List.not_mem_nil
  · have hok := (hw.entries e he).1
    have hhost : ∃ c ∈ hostOf e, ¬ c ∉ ascii "\n\r" := by
      by_contra hno
      push Not at hno
      exact hnot (entryLine_unbroken hok fun c hc hmem => hno c hmem hc)
    obtain ⟨front, c, back, hsplit, hc, hfront⟩ := exists_first hhost
    obtain ⟨rest, hrest⟩ := entryLine_front e
    have hline : entryLine e = (lineFront e ++ front) ++ c :: (back ++ rest) := by
      rw [hrest, hsplit]
      simp only [List.append_assoc, List.cons_append]
    obtain ⟨err, herr⟩ := parseLine_cut hok hsplit
    rw [hline] at htext
    have hin := splitLine_broken htext hbefore (lineFront_append hok hsplit hfront)
      (by cases e <;> simp [lineFront, ascii]) ⟨break_low (not_not.mp hc), not_not.mp hc⟩
      (length_before hroom hnot) hlines
    rw [entriesOf_error hin herr] at hes
    cases hes

theorem configLines_drop (env : ProxyEnv) (w : ProxyWorld) :
    (configLines env w).drop 2 = (w.proxies.toList.map fun proxy =>
        ascii "proxy\t" ++ proxy.host ++ ascii ":" ++ decimal proxy.port ++ ascii "\n") ++
      [ascii "\n"] ++ (w.servers.toList.map serverLine).map fun l =>
        ascii "server\t" ++ l.1 ++ ascii ":" ++ decimal l.2.1 ++ ascii ", " ++ decimal l.2.2.1 ++
          ascii ", " ++ encodeHex l.2.2.2 ++ ascii "\n" := by
  rw [List.map_map]
  rfl

theorem serverLines_eq_of_perm {w' : ProxyWorld} (h : TreesOk w') (hw : TreesOk w)
    (hperm : (w'.servers.toList.map serverLine).Perm (w.servers.toList.map serverLine)) :
    w'.servers.toList.map serverLine = w.servers.toList.map serverLine := by
  have hpair : ∀ {t : Tree StServer}, t.Sorted (fun s => ordKey s.key) →
      (t.toList.map serverLine).Pairwise fun a b => ordKey (lineKey a) < ordKey (lineKey b) :=
    fun ht => List.pairwise_map.mpr ht
  exact hperm.eq_of_pairwise (fun a b _ _ hlt hgt => absurd hlt hgt.asymm) (hpair h.servers)
    (hpair hw.servers)

/-- Both trees are in order, so the same entries make the same lists. -/
theorem lists_of_described {w' : ProxyWorld} (hw : TreesOk w)
    (h : Described (worldEntries w) w') : w'.proxies.toList = w.proxies.toList ∧
      w'.servers.toList.map serverLine = w.servers.toList.map serverLine := by
  have hp := h.proxies
  have hs := h.servers
  rw [proxiesOf_worldEntries] at hp
  rw [serversOf_worldEntries] at hs
  exact ⟨hp.eq_of_pairwise (fun a b _ _ hlt hgt => absurd hlt hgt.asymm) h.trees.proxies
    hw.proxies, serverLines_eq_of_perm h.trees hw hs⟩

/-- A configuration that was loaded and printed loads again, to the same proxies
and servers, exactly when none of their hosts has a line break in it. -/
theorem config_roundTrips_iff {env0 env' : ProxyEnv} {w0 w1 : ProxyWorld} {buf out : Bytes}
    {bufSz r : Int} (hproxies0 : w0.proxies = .leaf) (hservers0 : w0.servers = .leaf)
    (hload : loadConfigFromString env0 false w0 (cString buf) = some (w, none))
    (hcount : w.proxies.toList.length + w.servers.toList.length ≤ maxConfigLines - 3)
    (hcomment : PlainComment env) (hprinted : configToString env w bufSz = some (out, r))
    (hproxies1 : w1.proxies = .leaf) (hservers1 : w1.servers = .leaf) :
    RoundTrips env env' w w1 (cString out) ↔ OneLineHosts w := by
  have hw := loaded_of_load hproxies0 hservers0 hload
  have htext := cString_configToString (fun t ht => zero_notMem_textLines hw hcomment ht) hprinted
  constructor
  · rintro ⟨w', hload', -⟩
    exact oneLine_of_reload hw hcomment hcount htext hload'
  · intro hone
    obtain ⟨w', hload', hdescr⟩ :=
      reload_of_oneLine env' hw hcomment hcount htext hproxies1 hservers1 hone
    obtain ⟨hp, hs⟩ := lists_of_described hw.trees hdescr
    refine ⟨w', hload', fun p => by rw [hp], fun l => by rw [hs], fun env2 => ?_⟩
    rw [configLines_drop, configLines_drop, hp, hs]

end RoundTrip

/-- A date as `ctime` writes it, and a host. -/
def datedEnv : ProxyEnv :=
  { plainEnv with
    ctime := ascii "Thu Jan  1 00:00:00 1970\n"
    hostname := ascii "localhost" }

theorem config_roundTrips_iff_goodText : ∃ w out r,
    loadConfigFromString datedEnv false {} (cString (ascii goodText)) = some (w, none) ∧
      configToString datedEnv w 1024 = some (out, r) ∧
      (RoundTrips datedEnv datedEnv w {} (cString out) ↔ OneLineHosts w) := by
  have h : ((loadConfigFromString datedEnv false {} (cString (ascii goodText))).map fun l =>
      (l.2.isNone, (configToString datedEnv l.1 1024).isSome,
        decide (l.1.proxies.toList.length + l.1.servers.toList.length ≤ maxConfigLines - 3)))
        = some (true, true, true) := by
    decide +kernel
  obtain ⟨⟨w, err⟩, hload, heq⟩ := Option.map_eq_some_iff.mp h
  obtain ⟨herr, heq⟩ := Prod.mk.inj heq
  obtain ⟨hprinted, hcount⟩ := Prod.mk.inj heq
  rw [Option.isNone_iff_eq_none] at herr
  subst herr
  obtain ⟨⟨out, r⟩, hprinted⟩ := Option.isSome_iff_exists.mp hprinted
  exact ⟨w, out, r, hload, hprinted, config_roundTrips_iff rfl rfl hload (of_decide_eq_true hcount)
    (by unfold PlainComment; decide) hprinted rfl rfl⟩

/-- Comments up to the last two lines there is room for. -/
def cutText : Bytes :=
  (List.replicate (maxConfigLines - 2) (ascii "#") ++ [ascii "server b:2 1"]).flatMap
    (· ++ [0x0A]) ++ ascii "proxy x\ny:1"

def cutEntries : List ConfigEntry :=
  [.server (ascii "b") 2 1 [], .proxy (ascii "x\ny") 1]

theorem entriesOf_comments (rest : List Bytes) : ∀ n : Nat,
    entriesOf (List.replicate n (ascii "#") ++ rest) = entriesOf rest := by
  intro n
  induction n with
  | zero => rfl
  | succ n ih =>
      rw [List.replicate_succ, List.cons_append, entriesOf,
        show ascii "#" = 0x23 :: [] from rfl, parseLine_comment]
      exact ih

theorem splitLine_comments (n : Nat) (line last : Bytes) {c : UInt8}
    (hline : TokenChars (ascii "\n\r") [] line) (hne : line ≠ [])
    (hc : TokenChars (ascii "\n\r") [] [c]) :
    splitLine (ascii "\n\r") [] (n + 2) ((List.replicate n (ascii "#") ++ [line]).flatMap
      (· ++ [0x0A]) ++ c :: last) = some (List.replicate n (ascii "#") ++ [line, c :: last]) := by
  have hcomment : TokenChars (ascii "\n\r") [] (ascii "#") := by
    unfold TokenChars
    decide
  have hall : ∀ l ∈ List.replicate n (ascii "#") ++ [line], TokenChars (ascii "\n\r") [] l := by
    intro l hl
    rcases List.mem_append.mp hl with hl | hl
    · rw [List.eq_of_mem_replicate hl]
      exact hcomment
    · rw [List.mem_singleton.mp hl]
      exact hline
  have hfilter : (List.replicate n (ascii "#") ++ [line]).filter (fun l => !l.isEmpty)
      = List.replicate n (ascii "#") ++ [line] := by
    refine List.filter_eq_self.mpr fun l hl => ?_
    rcases List.mem_append.mp hl with hl | hl
    · rw [List.eq_of_mem_replicate hl]
      rfl
    · rw [List.mem_singleton.mp hl]
      simp [hne]
  rw [splitLine, splitLoop_lines (by decide) (by decide) (by decide) _ _ [] hall
    (by rw [hfilter]; simp), hfilter, splitLoop_last (hc c List.mem_cons_self) _ (by simp)]
  simp

theorem zero_notMem_cutText : (0 : UInt8) ∉ cutText := by
  intro hmem
  rcases List.mem_append.mp hmem with hmem | hmem
  · obtain ⟨l, hl, hc⟩ := List.mem_flatMap.mp hmem
    rcases List.mem_append.mp hl with hl | hl
    · rw [List.eq_of_mem_replicate hl] at hc
      exact absurd hc (by decide)
    · rw [List.mem_singleton.mp hl] at hc
      exact absurd hc (by decide)
  · exact absurd hmem (by decide)

theorem configEntries_cutText : configEntries cutText = some cutEntries := by
  have hsplit := splitLine_comments (maxConfigLines - 2) (ascii "server b:2 1")
    (ascii "roxy x\ny:1") (c := 0x70) (by unfold TokenChars; decide) (by decide)
    (by unfold TokenChars; decide)
  have hentries : entriesOf [ascii "server b:2 1", 0x70 :: ascii "roxy x\ny:1"]
      = some cutEntries := by decide +kernel
  have hlines : splitLine (ascii "\n\r") [] maxConfigLines cutText = some
      (List.replicate (maxConfigLines - 2) (ascii "#") ++
        [ascii "server b:2 1", 0x70 :: ascii "roxy x\ny:1"]) := hsplit
  unfold configEntries
  rw [hlines]
  simp only []
  rw [entriesOf_comments, hentries]
  simp only []
  rw [if_neg (by decide)]

/-- The proxy is printed on two lines, and the first of them has no port. -/
theorem config_roundTrips_cut : ∃ w out r,
    loadConfigFromString datedEnv false {} (cString cutText) = some (w, none) ∧
      w.proxies.toList.length + w.servers.toList.length ≤ maxConfigLines - 3 ∧
      PlainComment datedEnv ∧ configToString datedEnv w 1024 = some (out, r) ∧
      ¬ RoundTrips datedEnv datedEnv w {} (cString out) := by
  have h : ((createAll datedEnv {} cutEntries).bind fun w => (configToString datedEnv w 1024).map
      fun o => (decide (w.proxies.toList.length + w.servers.toList.length ≤ maxConfigLines - 3),
        (loadConfigFromString datedEnv false {} (cString o.1)).map fun l => l.2.isSome))
          = some (true, some true) := by
    decide +kernel
  obtain ⟨w, hall, hrest⟩ := Option.bind_eq_some_iff.mp h
  obtain ⟨⟨out, r⟩, hprinted, heq⟩ := Option.map_eq_some_iff.mp hrest
  obtain ⟨hcount, hreload⟩ := Prod.mk.inj heq
  have hload := (loadConfigFromString_loading datedEnv {} configEntries_cutText).1 w hall
  rw [← cString_of_not_mem zero_notMem_cutText] at hload
  refine ⟨w, out, r, hload, of_decide_eq_true hcount, by unfold PlainComment; decide, hprinted, ?_⟩
  rintro ⟨w', hload', -⟩
  rw [hload'] at hreload
  cases hreload

end Smalltable.Proofs
