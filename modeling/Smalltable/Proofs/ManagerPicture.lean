import Mathlib.Data.List.Sort
import Smalltable.Proofs.ManagerDump
import Smalltable.Proofs.Routing

/-!
# The manager's picture of the keys

A server's range goes up to the key of the next one, so the manager's ranges are the
intervals the proxy divides the keys into. But they are kept by host: of two servers at
one host only the last one's range is there. And the text has to be read and written
again: a host with white space in it is not read as what it is, a proxy has to be left
with a name, and the text that is written has no more lines than there is room for.

In which order Python goes through a dictionary is left open, and the result is for all
orders. The same is true of the trees of the proxy that reads the text: their balancing
is free.
-/

namespace Smalltable.Proofs

open Smalltable.Ref

/-- `l_key <= key` and `key < r_key`, or there is no `r_key`. -/
def KeyInRange (key : Bytes) (r : Manager.ServerRange) : Prop :=
  ¬ key < r.lKey ∧ ∀ rKey, r.rKey = some rKey → key < rKey

/-- Each key is in the range of the host its server is at, and in no other; and the
configuration that is written from the picture routes the same. -/
def PictureAgrees (order : Manager.IterOrder) (env' : ProxyEnv) (w w1 : ProxyWorld)
    (text : Bytes) : Prop :=
  ∃ proxies servers, Manager.connectProxies text = some proxies ∧
    Manager.connectServers text = some servers ∧
    (∀ key host, (∃ r, (host, r) ∈ servers.items ∧ KeyInRange key r) ↔
      ∃ s, findStServer w.servers key = some s ∧ address s.host s.port = host) ∧
    ∃ w', loadConfigFromString env' false w1
        (cString (Manager.dumpConfig order proxies servers)) = some (w', none) ∧
      ∀ key, (findStServer w'.servers key).map (fun s => address s.host s.port)
        = (findStServer w.servers key).map fun s => address s.host s.port

/-- The host without the white space in front of it. -/
def proxyName (proxy : StProxy) : Bytes := proxy.host.dropWhile isSpace

/-- A configuration the manager can work with. -/
structure Manageable (w : ProxyWorld) : Prop where
  servers : ∀ s ∈ w.servers.toList, ∀ c ∈ s.host, isSpace c = false
  addresses : (w.servers.toList.map fun s => address s.host s.port).Nodup
  proxies : ∀ p ∈ w.proxies.toList, ∃ blanks name, p.host = blanks ++ name ∧
    (∀ c ∈ blanks, isSpace c ∧ c ≠ 0x0A) ∧ name ≠ [] ∧ ∀ c ∈ name, isSpace c = false
  room : (w.proxies.toList.map fun p => address (proxyName p) p.port).dedup.length +
    w.servers.toList.length < maxConfigLines

/-! ## Ranges

Both sides are told as intervals of keys. The proxy's follow from the order of its
servers' keys, and the manager's are found by the host. -/

/-- The range of a server is the interval from it to the next one. -/
theorem inRange_iff {servers : Tree StServer} (h : servers.Sorted fun s => ordKey s.key)
    {before after : List StServer} {s : StServer} (hsplit : servers.toList = before ++ s :: after)
    (key : Bytes) :
    KeyInRange key ⟨⟨s.host, s.port⟩, s.weight, s.key,
      (after.map hostLine).head?.map fun next => next.2.key⟩ ↔
          findStServer servers key = some s := by
  rw [(divides_of_sorted h).interval key before s after hsplit, KeyInRange, List.head?_map]
  cases after.head? with
  | none => exact Iff.and Iff.rfl ⟨fun _ => nofun, fun _ => nofun⟩
  | some next =>
      refine Iff.and Iff.rfl ⟨fun hr u hu => ?_, fun hr k hk => ?_⟩
      · cases hu
        exact hr next.key rfl
      · cases hk
        exact hr next rfl

/-- What is kept of the ranges: of each host the last. -/
theorem mem_ofList_ranges {servers : Tree StServer} {host : Bytes} {r : Manager.ServerRange} :
    (host, r) ∈ (Dict.ofList (Manager.ranges (servers.toList.map hostLine))).items ↔
      ∃ before s after, servers.toList = before ++ s :: after ∧ address s.host s.port = host ∧
        (∀ u ∈ after, address u.host u.port ≠ host) ∧
        r = ⟨⟨s.host, s.port⟩, s.weight, s.key,
          (after.map hostLine).head?.map fun next => next.2.key⟩ := by
  rw [Dict.mem_ofList]
  constructor
  · rintro ⟨front, back, hsplit, hnot⟩
    obtain ⟨before, s, after, hmap, rfl, rfl⟩ := ranges_split hsplit
    obtain ⟨b, rest, hlist, rfl, hrest⟩ := List.map_eq_append_iff.mp hmap
    obtain ⟨u, a, rfl, hu, rfl⟩ := List.map_eq_cons_iff.mp hrest
    obtain ⟨rfl, rfl⟩ := Prod.mk.inj hu
    refine ⟨b, u, a, hlist, rfl, fun v hv heq => hnot ?_, rfl⟩
    rw [keys_ranges, List.map_map, ← heq]
    exact List.mem_map_of_mem (f := Prod.fst ∘ hostLine) hv
  · rintro ⟨before, s, after, hlist, rfl, hnot, rfl⟩
    obtain ⟨front, hfront⟩ := ranges_append (address s.host s.port)
      ⟨⟨s.host, s.port⟩, s.weight, s.key⟩ (after.map hostLine) (before.map hostLine)
    refine ⟨front, Manager.ranges (after.map hostLine), ?_, ?_⟩
    · rw [hlist, List.map_append, List.map_cons]
      exact hfront
    · rw [keys_ranges, List.map_map]
      intro hmem
      obtain ⟨u, hu, heq⟩ := List.mem_map.mp hmem
      exact hnot u hu heq

/-- The ranges agree with the proxy exactly when no two servers are at one host. -/
theorem ranges_agree_iff {servers : Tree StServer} (h : servers.Sorted fun s => ordKey s.key) :
    (∀ key host, (∃ r, (host, r) ∈ (Dict.ofList (Manager.ranges
        (servers.toList.map hostLine))).items ∧ KeyInRange key r) ↔
      ∃ s, findStServer servers key = some s ∧ address s.host s.port = host) ↔
    (servers.toList.map fun s => address s.host s.port).Nodup := by
  have hlist : servers.toList.Pairwise fun a b => ordKey a.key < ordKey b.key := h
  constructor
  · intro hagree
    rw [List.nodup_iff_pairwise_ne, List.pairwise_map]
    refine List.pairwise_of_forall_sublist fun {s t} hsub heq => ?_
    have hpair := hlist.sublist hsub
    have hlt : ordKey s.key < ordKey t.key := by
      rw [List.pairwise_pair] at hpair
      exact hpair
    have hs : findStServer servers s.key = some s := by
      refine ((divides_of_sorted h).found s.key s).mpr ⟨hsub.subset (by simp), ?_, ?_⟩
      · exact not_before_iff.mpr le_rfl
      · exact fun u _ hu => hu
    obtain ⟨r, hr, hge, -⟩ := (hagree s.key (address s.host s.port)).mpr ⟨s, hs, rfl⟩
    obtain ⟨before, u, after, hsplit, hu, hnot, rfl⟩ := mem_ofList_ranges.mp hr
    have ht : t ∈ servers.toList := hsub.subset (by simp)
    have hle : ordKey t.key ≤ ordKey u.key := by
      rw [hsplit] at ht hlist
      rcases List.mem_append.mp ht with ht | ht
      · exact le_of_lt ((List.pairwise_append.mp hlist).2.2 t ht u List.mem_cons_self)
      · rcases List.mem_cons.mp ht with rfl | ht
        · exact le_rfl
        · exact absurd heq.symm (hnot t ht)
    have hge : ¬ Before s.key u.key := hge
    rw [not_before_iff] at hge
    exact absurd (lt_of_lt_of_le hlt hle) (not_lt.mpr hge)
  · intro hnodup key host
    constructor
    · rintro ⟨r, hr, hin⟩
      obtain ⟨before, s, after, hsplit, rfl, -, rfl⟩ := mem_ofList_ranges.mp hr
      exact ⟨s, (inRange_iff h hsplit key).mp hin, rfl⟩
    · rintro ⟨s, hs, rfl⟩
      obtain ⟨before, after, hsplit⟩ := List.append_of_mem (Tree.floorBy_mem hs)
      refine ⟨_, mem_ofList_ranges.mpr ⟨before, s, after, hsplit, rfl, fun u hu heq => ?_, rfl⟩,
        (inRange_iff h hsplit key).mpr hs⟩
      rw [hsplit, List.map_append, List.map_cons, List.nodup_append, List.nodup_cons] at hnodup
      refine hnodup.2.1.1 ?_
      rw [← heq]
      exact List.mem_map_of_mem (f := fun s => address s.host s.port) hu

/-! ## Written and loaded again

What the manager prints of a picture that agrees is a configuration, and loading it
gives a proxy that routes every key to the host it was routed to before. -/

/-- A proxy's address as it is left of its line. -/
def proxyHost (p : StProxy) : Bytes × Manager.Client :=
  (address (proxyName p) p.port, ⟨proxyName p, p.port⟩)

/-- A host without the blanks in front is still a host. -/
theorem addressOk_suffix {blanks name : Bytes} {port : Int} (h : AddressOk (blanks ++ name) port)
    (hne : name ≠ []) : AddressOk name port :=
  ⟨hne, fun c hc => h.word c (List.mem_append_right _ hc),
    fun c hc => h.name c (List.mem_append_right _ hc), h.port⟩

theorem proxyName_eq {p : StProxy} {blanks name : Bytes} (hhost : p.host = blanks ++ name)
    (hblanks : ∀ c ∈ blanks, isSpace c) (hne : name ≠ []) (hname : ∀ c ∈ name, isSpace c = false) :
    proxyName p = name := by
  obtain ⟨c, rest, rfl⟩ := List.exists_cons_of_ne_nil hne
  rw [proxyName, hhost, List.dropWhile_append_of_pos hblanks, List.dropWhile_cons_of_neg]
  rw [hname c List.mem_cons_self]
  exact Bool.false_ne_true

theorem hostWord_address {host : Bytes} {port : Int} (h : AddressOk host port)
    (hfree : ∀ c ∈ host, isSpace c = false) (hzero : (0 : UInt8) ∉ host) :
    HostWord (address host port) := by
  have hrest : ∀ c ∈ ascii ":" ++ ascii "0123456789", c ≠ 0 ∧ c ∉ ascii "\n\r" := by decide
  refine ⟨address_ne_nil h, fun c hc => ?_⟩
  obtain ⟨hlow, hsep, hquit⟩ := address_word h c hc
  have hplain : c ≠ 0 ∧ c ∉ ascii "\n\r" := by
    simp only [address, List.mem_append] at hc
    rcases hc with (hc | hc) | hc
    · refine ⟨?_, fun hbreak => ?_⟩
      · rintro rfl
        exact hzero hc
      · have hall : ∀ c ∈ ascii "\n\r", isSpace c = true := by decide
        exact absurd (hall c hbreak) (by rw [hfree c hc]; exact Bool.false_ne_true)
    · exact hrest c (List.mem_append_left _ hc)
    · exact hrest c (List.mem_append_right _ (decimal_subset h.port.1 hc))
  exact ⟨hlow, hplain.1, hsep, hquit, hplain.2⟩

/-- Where a key goes is decided by the lines of the servers alone. -/
theorem findStServer_congr {t t' : Tree StServer} (h : t.Sorted fun s => ordKey s.key)
    (h' : t'.Sorted fun s => ordKey s.key)
    (heq : t.toList.map serverLine = t'.toList.map serverLine)
    (key : Bytes) : (findStServer t key).map serverLine = (findStServer t' key).map serverLine := by
  have hlast : ∀ {t : Tree StServer}, (t.Sorted fun s => ordKey s.key) →
      (findStServer t key).map serverLine
        = ((t.toList.map serverLine).filter fun l => ¬ keyCmp key (lineKey l) < 0).getLast? := by
    intro t ht
    have hnone : ∀ b : StServer, (none : Option StServer) = some b → keyCmp key b.key < 0 := nofun
    rw [findStServer, Tree.floorBy_eq_getLast? (fun s : StServer => keyCmp_lt key s.key) ht hnone,
      List.filter_map, List.getLast?_map]
    rfl
  rw [hlast h, hlast h', heq]

section Agree

variable {env env' : ProxyEnv} {w w1 : ProxyWorld} {order : Manager.IterOrder}

/-- Every server is somewhere in a picture that agrees, so its host is one word. -/
theorem servers_of_agree {text : Bytes} {servers : Dict Bytes Manager.ServerRange}
    (hw : LoadedConfig w) (h : Manager.connectServers text = some servers)
    (hagree : ∀ key host, (∃ r, (host, r) ∈ servers.items ∧ KeyInRange key r) ↔
      ∃ s, findStServer w.servers key = some s ∧ address s.host s.port = host) :
    ∀ s ∈ w.servers.toList, address s.host s.port ∈ servers.keys ∧
      ∀ c ∈ s.host, isSpace c = false := by
  intro s hs
  have hfind : findStServer w.servers s.key = some s :=
    ((divides_of_sorted hw.trees.servers).found s.key s).mpr
      ⟨hs, not_before_iff.mpr le_rfl, fun u _ hu => hu⟩
  obtain ⟨r, hr, -⟩ := (hagree s.key (address s.host s.port)).mpr ⟨s, hfind, rfl⟩
  have hkey : address s.host s.port ∈ servers.keys := List.mem_map_of_mem (f := Prod.fst) hr
  refine ⟨hkey, fun c hc => ?_⟩
  obtain ⟨line, -, hword⟩ := connectServers_keys h hkey
  have hfree := (words_spec hword).2.1 c (by
    rw [address]
    exact List.mem_append_left _ (List.mem_append_left _ hc))
  rw [serverSep, Bool.or_eq_false_iff] at hfree
  exact hfree.1

theorem break_notMem_proxy (hw : LoadedConfig w) {p : StProxy} (hp : p ∈ w.proxies.toList)
    (h : (0x0A : UInt8) ∉ p.host) : (0x0A : UInt8) ∉ entryLine (.proxy p.host p.port) := by
  intro hc
  rcases entryLine_chars (hw.entries _ (mem_worldEntries_proxy hp)).1 hc with hc | hc
  · exact h hc
  · exact absurd hc (by decide)

/-- Proxies that are left with a name are read under it. -/
theorem connectProxies_eq (hw : LoadedConfig w) (hcomment : PlainComment env)
    (hservers : ∀ s ∈ w.servers.toList, ∀ c ∈ s.host, isSpace c = false)
    (hproxies : ∀ p ∈ w.proxies.toList, ∃ blanks name, p.host = blanks ++ name ∧
      (∀ c ∈ blanks, isSpace c ∧ c ≠ 0x0A) ∧ name ≠ [] ∧ ∀ c ∈ name, isSpace c = false) :
    Manager.connectProxies (printedText env w)
      = some (Dict.ofList (w.proxies.toList.map proxyHost)) := by
  have hbreak : ∀ p ∈ w.proxies.toList, (0x0A : UInt8) ∉ p.host := by
    intro p hp hc
    obtain ⟨blanks, name, hhost, hblanks, -, hname⟩ := hproxies p hp
    rw [hhost] at hc
    rcases List.mem_append.mp hc with hc | hc
    · exact (hblanks _ hc).2 rfl
    · exact absurd (hname _ hc) (by decide)
  have hlines : Manager.onlyLines (ascii "proxy") (printedText env w)
      = w.proxies.toList.map fun p => strippedLine (entryLine (.proxy p.host p.port)) := by
    rw [onlyLines_proxy hcomment (break_notMem_server hw hservers), ← List.flatMap_pure_eq_map]
    refine List.flatMap_congr fun p hp => ?_
    rw [pyLines_unbroken (break_notMem_proxy hw hp (hbreak p hp)), if_pos]
    · rfl
    · rfl
  have hread : (w.proxies.toList.map fun p =>
      strippedLine (entryLine (.proxy p.host p.port))).mapM Manager.proxyOf
        = some (w.proxies.toList.map proxyHost) := by
    rw [mapM_eq_some_iff, List.map_map, List.map_map]
    refine List.map_congr_left fun p hp => ?_
    obtain ⟨blanks, name, hhost, hblanks, hne, hname⟩ := hproxies p hp
    have haddr : AddressOk p.host p.port := (hw.entries _ (mem_worldEntries_proxy hp)).1
    have hnameEq := proxyName_eq hhost (fun c hc => (hblanks c hc).1) hne hname
    have hok : AddressOk name p.port := by
      rw [hhost] at haddr
      exact addressOk_suffix haddr hne
    have hfree : ∀ c ∈ address name p.port, isSpace c = false := by
      intro c hc
      have hc := address_free hok hname c hc
      rw [serverSep, Bool.or_eq_false_iff] at hc
      exact hc.1
    have hsplit : address p.host p.port = blanks ++ address name p.port := by
      rw [address, hhost, address, List.append_assoc, List.append_assoc, List.append_assoc]
    simp only [Function.comp_apply]
    unfold Manager.proxyOf
    rw [entryLine_proxy, pySplit_proxy (hash_notMem_address haddr), hsplit,
      words_blank_append fun c hc => (hblanks c hc).1, words_word hfree (address_ne_nil hok)]
    simp only [newClient_address hok, Option.map_some, proxyHost, hnameEq]
  rw [Manager.connectProxies, hlines, hread, Option.map_some]

/-- The entries that are written, of the proxies and servers in a picture. -/
def dumpEntries (order : Manager.IterOrder) (proxies : Dict Bytes Manager.Client)
    (servers : Dict Bytes Manager.ServerRange) : List ConfigEntry :=
  (order.iteritems proxies.items).map (fun p => .proxy p.2.host p.2.port) ++
    (order.iteritems servers.items).map fun p =>
      .server p.2.mc.host p.2.mc.port p.2.weight p.2.lKey

theorem proxiesOf_dumpEntries (proxies : Dict Bytes Manager.Client)
    (servers : Dict Bytes Manager.ServerRange) : proxiesOf (dumpEntries order proxies servers)
      = (order.iteritems proxies.items).map fun p => ⟨p.2.host, p.2.port⟩ := by
  rw [proxiesOf, dumpEntries, List.filterMap_append, List.filterMap_map, List.filterMap_map]
  simp [toProxy, Function.comp_def]

theorem serversOf_dumpEntries (proxies : Dict Bytes Manager.Client)
    (servers : Dict Bytes Manager.ServerRange) : serversOf (dumpEntries order proxies servers)
      = (order.iteritems servers.items).map fun p =>
          (p.2.mc.host, p.2.mc.port, p.2.weight, p.2.lKey) := by
  rw [serversOf, dumpEntries, List.filterMap_append, List.filterMap_map, List.filterMap_map]
  simp [toServer, Function.comp_def]

theorem proxies_item (hw : LoadedConfig w) (hm : Manageable w) {p : Bytes × Manager.Client}
    (hp : p ∈ (Dict.ofList (w.proxies.toList.map proxyHost)).items) :
    AddressOk p.2.host p.2.port ∧ p.1 = address p.2.host p.2.port ∧ HostWord p.1 := by
  obtain ⟨host, mc⟩ := p
  obtain ⟨before, after, hsplit, -⟩ := Dict.mem_ofList.mp hp
  have hmem : (host, mc) ∈ w.proxies.toList.map proxyHost := by
    rw [hsplit]
    simp
  obtain ⟨proxy, hproxy, heq⟩ := List.mem_map.mp hmem
  obtain ⟨rfl, rfl⟩ := Prod.mk.inj heq
  obtain ⟨blanks, name, hhost, hblanks, hne, hname⟩ := hm.proxies proxy hproxy
  obtain ⟨hentry, hzero⟩ := hw.entries _ (mem_worldEntries_proxy hproxy)
  have haddr : AddressOk proxy.host proxy.port := hentry
  have hzero : (0 : UInt8) ∉ proxy.host := hzero
  have hnameEq := proxyName_eq hhost (fun c hc => (hblanks c hc).1) hne hname
  rw [hhost] at haddr hzero
  have hok := addressOk_suffix haddr hne
  rw [hnameEq]
  exact ⟨hok, rfl, hostWord_address hok hname fun hc => hzero (List.mem_append_right _ hc)⟩

theorem servers_item (hw : LoadedConfig w)
    (hservers : ∀ s ∈ w.servers.toList, ∀ c ∈ s.host, isSpace c = false)
    {p : Bytes × Manager.ServerRange}
    (hp : p ∈ (Dict.ofList (Manager.ranges (w.servers.toList.map hostLine))).items) :
    AddressOk p.2.mc.host p.2.mc.port ∧ p.1 = address p.2.mc.host p.2.mc.port ∧ HostWord p.1 ∧
      (1 ≤ p.2.weight ∧ p.2.weight ≤ 999999) ∧ p.2.lKey.length ≤ 256 := by
  obtain ⟨host, r⟩ := p
  obtain ⟨before, s, after, hsplit, rfl, -, rfl⟩ := mem_ofList_ranges.mp hp
  have hs : s ∈ w.servers.toList := by
    rw [hsplit]
    simp
  obtain ⟨⟨haddr, hweight, hkey⟩, hzero⟩ := hw.entries _ (mem_worldEntries_server hs)
  exact ⟨haddr, rfl, hostWord_address haddr (hservers s hs) hzero, hweight, hkey⟩

/-- What is written for a configuration the manager can work with is that
configuration, as far as the servers go. -/
theorem dump_loads (env' : ProxyEnv) (order : Manager.IterOrder) (hw : LoadedConfig w)
    (hm : Manageable w) (hproxies1 : w1.proxies = .leaf)
    (hservers1 : w1.servers = .leaf) :
    ∃ w', loadConfigFromString env' false w1 (cString (Manager.dumpConfig order
        (Dict.ofList (w.proxies.toList.map proxyHost))
        (Dict.ofList (Manager.ranges (w.servers.toList.map hostLine))))) = some (w', none) ∧
      TreesOk w' ∧ w'.servers.toList.map serverLine = w.servers.toList.map serverLine := by
  have hpItem := fun p => proxies_item (p := p) hw hm
  have hsItem := fun p => servers_item (p := p) hw hm.servers
  have hsItems : (Dict.ofList (Manager.ranges (w.servers.toList.map hostLine))).items
      = Manager.ranges (w.servers.toList.map hostLine) := by
    refine Dict.items_ofList ?_
    rw [keys_ranges, List.map_map]
    exact hm.addresses
  have hplen : (Dict.ofList (w.proxies.toList.map proxyHost)).items.length
      = (w.proxies.toList.map fun p => address (proxyName p) p.port).dedup.length := by
    rw [Dict.length_ofList, List.map_map]
    rfl
  generalize Dict.ofList (w.proxies.toList.map proxyHost) = proxies at hpItem hplen ⊢
  generalize Dict.ofList (Manager.ranges (w.servers.toList.map hostLine)) = servers
    at hsItem hsItems ⊢
  have hpWord : ∀ host ∈ proxies.keys, HostWord host := by
    intro host hhost
    obtain ⟨p, hp, rfl⟩ := List.mem_map.mp hhost
    exact (hpItem p hp).2.2
  have hsWord : ∀ host ∈ servers.keys, HostWord host := by
    intro host hhost
    obtain ⟨p, hp, rfl⟩ := List.mem_map.mp hhost
    exact (hsItem p hp).2.2.1
  have hslen : servers.items.length = w.servers.toList.length := by
    have hlen := congrArg List.length (keys_ranges (w.servers.toList.map hostLine))
    rw [hsItems, ← List.length_map (f := Prod.fst), hlen, List.length_map, List.length_map]
  have hlen : (dumpLines order proxies servers).length < maxConfigLines := by
    rw [dumpLines, List.length_append, length_proxyLines, length_serverLines, hslen, hplen]
    exact hm.room
  have hne : servers.items ≠ [] := by
    rw [← List.length_pos_iff, hslen]
    exact List.length_pos_iff.mpr hw.servers
  have hpne : proxies.items ≠ [] := by
    rw [← List.length_pos_iff, hplen, List.length_pos_iff, Ne, List.dedup_eq_nil,
        List.map_eq_nil_iff]
    exact hw.proxies
  have hclean : ∀ l ∈ dumpLines order proxies servers, CleanLine l :=
    fun l hl => cleanLine_dumpLines hpWord hsWord hl
  have hentries : entriesOf (dumpLines order proxies servers)
      = some (dumpEntries order proxies servers) := by
    refine entriesOf_append (entriesOf_map fun p hp => ?_) (entriesOf_map fun p hp => ?_)
    · obtain ⟨hok, hhost, -⟩ := hpItem p ((order.perm _).mem_iff.mp hp)
      rw [hhost]
      exact parseLine_proxy hok
    · obtain ⟨hok, hhost, -, hweight, hkey⟩ := hsItem p ((order.perm _).mem_iff.mp hp)
      rw [hhost]
      exact parseLine_server hok hweight (tokenChars_of_subset (hexEncode_subset _) (by decide))
        (decodeHex_hexEncode hkey)
  have hconfig : configEntries ((dumpLines order proxies servers).flatMap (· ++ [0x0A]))
      = some (dumpEntries order proxies servers) := by
    rcases splitLine_clean hclean with ⟨-, hsplit⟩ | ⟨before, l, after, hshape, hbefore, -⟩
    · unfold configEntries
      rw [hsplit]
      simp only []
      rw [hentries]
      simp only []
      rw [if_neg]
      rw [proxiesOf_dumpEntries, serversOf_dumpEntries, not_or, List.map_eq_nil_iff,
        List.map_eq_nil_iff]
      exact ⟨fun h => hpne ((h ▸ order.perm proxies.items).nil_eq.symm),
        fun h => hne ((h ▸ order.perm servers.items).nil_eq.symm)⟩
    · rw [hshape, List.length_append, List.length_cons] at hlen
      omega
  have hserverLines : (serversOf (dumpEntries order proxies servers)).Perm
      (w.servers.toList.map serverLine) := by
    have hmap := congrArg (List.map fun p : Bytes × Manager.HostLine =>
      (p.2.mc.host, p.2.mc.port, p.2.weight, p.2.key)) (map_ranges (w.servers.toList.map hostLine))
    rw [List.map_map, List.map_map, ← hsItems] at hmap
    rw [serversOf_dumpEntries]
    refine ((order.perm servers.items).map _).trans ?_
    exact List.Perm.of_eq hmap
  have hdistinct : Distinct (dumpEntries order proxies servers) := by
    refine ⟨?_, ?_⟩
    · rw [proxiesOf_dumpEntries]
      refine (((order.perm proxies.items).map _).nodup_iff).mpr ?_
      refine List.Nodup.of_map (fun p : StProxy => address p.host p.port) ?_
      rw [List.map_map]
      refine (List.map_congr_left fun p hp => ?_ : proxies.items.map Prod.fst = _) ▸ proxies.nodup
      exact (hpItem p hp).2.1
    · rw [((hserverLines.map lineKey).nodup_iff)]
      have hkeys := (distinct_worldEntries hw.trees).servers
      rwa [serversOf_worldEntries] at hkeys
  have hfresh : Fresh w1 (dumpEntries order proxies servers) := by
    refine ⟨hdistinct, ?_, ?_⟩
    · rw [hproxies1]
      exact fun _ _ => List.not_mem_nil
    · rw [hservers1]
      exact fun _ _ => List.not_mem_nil
  obtain ⟨w', hall⟩ := (createAll_isSome_iff env' (treesOk_leaf hproxies1 hservers1)).mpr hfresh
  have hdescr := createAll_leaf hproxies1 hservers1 hall
  refine ⟨w', ?_, hdescr.trees, ?_⟩
  · rw [dumpConfig_eq hne, cString_lines hclean]
    exact (loadConfigFromString_loading env' w1 hconfig).1 w' hall
  · exact serverLines_eq_of_perm hdescr.trees hw.trees (hdescr.servers.trans hserverLines)

/-! ## What an agreeing picture needs

Each part of `Manageable` is needed, since without it there is a key for which the
picture and the proxy differ, or the text does not load. -/

section Needs

variable {proxies : Dict Bytes Manager.Client} {servers : Dict Bytes Manager.ServerRange}

theorem mem_onlyLines {pre text line : Bytes} (h : line ∈ Manager.onlyLines pre text) :
    line ⊆ text ∧ (0x23 : UInt8) ∉ line := by
  obtain ⟨piece, hpiece, rfl⟩ := List.mem_map.mp h
  have hsub := subset_of_mem_splitOnP (List.mem_of_mem_filter hpiece)
  exact ⟨fun c hc => hsub (strippedLine_subset piece hc), hash_notMem_strippedLine piece⟩

theorem mem_pyLines {pre l line : Bytes} (h : line ∈ pyLines pre l) :
    line ⊆ l ∧ (0x23 : UInt8) ∉ line := by
  obtain ⟨piece, hpiece, rfl⟩ := List.mem_map.mp h
  have hsub := subset_of_mem_splitOnP (List.mem_of_mem_filter hpiece)
  exact ⟨fun c hc => hsub (strippedLine_subset piece hc), hash_notMem_strippedLine piece⟩

theorem printedText_chars (hw : LoadedConfig w) (hcomment : PlainComment env) {c : UInt8}
    (hc : c ∈ printedText env w) : c < 0x80 ∧ c ≠ 0 := by
  have hplain : ∀ c ∈ lineChars, c < 0x80 ∧ c ≠ 0 := by decide
  obtain ⟨l, hl, hc⟩ := List.mem_flatMap.mp hc
  rcases List.mem_append.mp hc with hc | hc
  · rcases mem_textLines hl with hl | rfl | ⟨e, he, rfl⟩
    · exact ⟨(headLines_chars hcomment hl hc).1, (headLines_chars hcomment hl hc).2.1⟩
    · cases hc
    · obtain ⟨hok, hzero⟩ := hw.entries e he
      rcases entryLine_chars hok hc with hc | hc
      · refine ⟨?_, fun h => hzero (h ▸ hc)⟩
        cases e with
        | proxy host port => exact (AddressOk.word hok c hc).1
        | server host port weight key => exact (hok.1.word c hc).1
      · exact hplain c hc
  · rw [List.mem_singleton.mp hc]
    decide

theorem hostWord_of_proxies (hw : LoadedConfig w) (hcomment : PlainComment env)
    (hservers : ∀ s ∈ w.servers.toList, ∀ c ∈ s.host, isSpace c = false)
    (h : Manager.connectProxies (printedText env w) = some proxies) :
    ∀ host ∈ proxies.keys, HostWord host := by
  have hplain : ∀ c ∈ ascii "proxy\t" ++ ascii ":" ++ ascii "0123456789",
      c < 0x80 ∧ c ≠ 0 ∧ c ≠ 0x2C := by decide
  intro host hhost
  obtain ⟨line, hline, keyword, hwords⟩ := (connectProxies_lines h).2 host hhost
  have hword : host ∈ words isSpace line := by
    rw [hwords]
    simp
  obtain ⟨hne, hfree, hsub⟩ := words_spec hword
  rw [onlyLines_proxy hcomment (break_notMem_server hw hservers)] at hline
  obtain ⟨p, hp, hline⟩ := List.mem_flatMap.mp hline
  obtain ⟨hlsub, hhash⟩ := mem_pyLines hline
  obtain ⟨hentry, hzero⟩ := hw.entries _ (mem_worldEntries_proxy hp)
  have haddr : AddressOk p.host p.port := hentry
  refine ⟨hne, fun c hc => ?_⟩
  have hchars : c < 0x80 ∧ c ≠ 0 ∧ c ≠ 0x2C := by
    have hmem := hlsub (hsub hc)
    simp only [entryLine, List.mem_append] at hmem
    rcases hmem with ((hmem | hmem) | hmem) | hmem
    · exact hplain c (List.mem_append_left _ (List.mem_append_left _ hmem))
    · obtain ⟨hlow, hsep, -⟩ := haddr.word c hmem
      exact ⟨hlow, fun h => hzero (h ▸ hmem), fun h => hsep (h ▸ by decide)⟩
    · exact hplain c (List.mem_append_left _ (List.mem_append_right _ hmem))
    · exact hplain c (List.mem_append_right _ (decimal_subset haddr.port.1 hmem))
  exact hostChar hchars.1 hchars.2.1 (hfree c hc) hchars.2.2 fun h => hhash (h ▸ hsub hc)

theorem hostWord_of_servers (hw : LoadedConfig w) (hcomment : PlainComment env)
    (h : Manager.connectServers (printedText env w) = some servers) :
    ∀ host ∈ servers.keys, HostWord host := by
  intro host hhost
  obtain ⟨line, hline, hword⟩ := connectServers_keys h hhost
  obtain ⟨hne, hfree, hsub⟩ := words_spec hword
  obtain ⟨hlsub, hhash⟩ := mem_onlyLines hline
  refine ⟨hne, fun c hc => ?_⟩
  obtain ⟨hlow, hzero⟩ := printedText_chars hw hcomment (hlsub (hsub hc))
  have hsep := hfree c hc
  rw [serverSep, Bool.or_eq_false_iff, decide_eq_false_iff_not] at hsep
  exact hostChar hlow hzero hsep.1 hsep.2 fun h => hhash (h ▸ hsub hc)

/-- A line of a proxy that is broken in its host leaves a proxy without a port. -/
theorem proxies_unbroken (hw : LoadedConfig w) (hcomment : PlainComment env)
    (hservers : ∀ s ∈ w.servers.toList, ∀ c ∈ s.host, isSpace c = false)
    (h : Manager.connectProxies (printedText env w) = some proxies)
    (hports : ∀ host ∈ proxies.keys, ∃ name port, getHostPort host = some (some (name, port))) :
    ∀ p ∈ w.proxies.toList, (0x0A : UInt8) ∉ p.host := by
  intro p hp hbreak
  have haddr : AddressOk p.host p.port := (hw.entries _ (mem_worldEntries_proxy hp)).1
  obtain ⟨front, back, hsplit, hfront⟩ := List.eq_append_cons_of_mem hbreak
  have hpart : front ⊆ p.host := by
    rw [hsplit]
    exact List.subset_append_left _ _
  have hkeyword : (0x0A : UInt8) ∉ ascii "proxy\t" ++ front := by
    rw [List.mem_append, not_or]
    exact ⟨by decide, hfront⟩
  have hline : strippedLine (ascii "proxy\t" ++ front)
      ∈ Manager.onlyLines (ascii "proxy") (printedText env w) := by
    rw [onlyLines_proxy hcomment (break_notMem_server hw hservers)]
    refine List.mem_flatMap.mpr ⟨p, hp, List.mem_map_of_mem (List.mem_filter.mpr ⟨?_, rfl⟩)⟩
    have hshape : entryLine (.proxy p.host p.port) = (ascii "proxy\t" ++ front) ++ 0x0A ::
        (back ++ (ascii ":" ++ decimal p.port)) := by
      rw [entryLine, hsplit]
      simp only [List.append_assoc, List.cons_append]
    rw [hshape, List.splitOn_append_cons_self, List.splitOn_eq_singleton hkeyword]
    exact List.mem_append_left _ (List.mem_singleton_self _)
  obtain ⟨keyword, host, hwords, hhost⟩ := (connectProxies_lines h).1 _ hline
  have hhash : (0x23 : UInt8) ∉ front := fun hc => (haddr.word _ (hpart hc)).2.2 (by decide)
  have hpy := pySplit_proxy hhash
  rw [Manager.pySplit, hwords, List.cons.injEq] at hpy
  have hword : host ∈ words isSpace front := by
    rw [← hpy.2]
    exact List.mem_singleton_self _
  have hsub := (words_spec hword).2.2
  obtain ⟨name, port, hport⟩ := hports host hhost
  have hname : TokenChars (ascii ":") [] host := fun c hc => haddr.name c (hpart (hsub hc))
  rw [getHostPort_cut hname] at hport
  cases hport

theorem getHostPort_unnamed {port : Int} (h : 1 ≤ port) :
    getHostPort (ascii ":" ++ decimal port) = some none := by
  have hdigits : TokenChars (ascii ":") [] (decimal port) :=
    tokenChars_of_subset (decimal_subset h) (by decide)
  have hsplit : splitLine (ascii ":") [] 2 (ascii ":" ++ decimal port) = some [decimal port] := by
    rw [splitLine, show ascii ":" ++ decimal port = 0x3A :: decimal port from rfl,
      splitLoop_sep (by decide) (by decide) (by decide)]
    exact splitLoop_token_end hdigits (decimal_ne_nil_int h) (by decide)
  unfold getHostPort
  rw [hsplit]

/-- An address that is one word has white space in front of it at most. -/
theorem address_word_split {host word : Bytes} {port : Int} (hport : 1 ≤ port)
    (h : words isSpace (address host port) = [word]) :
    ∃ blanks name, host = blanks ++ name ∧ (∀ c ∈ blanks, isSpace c) ∧
      (∀ c ∈ name, isSpace c = false) ∧ word = name ++ (ascii ":" ++ decimal port) := by
  obtain ⟨before, after, hsplit, hbefore, hafter, -, hfree⟩ := words_eq_singleton_iff.mp h
  have hdigits : ∀ c ∈ ascii ":" ++ ascii "0123456789", isSpace c = false := by decide
  have hnil : after = [] := by
    rcases List.eq_nil_or_concat' after with hnil | ⟨init, c, rfl⟩
    · exact hnil
    · obtain ⟨ds, d, hd⟩ :=
        (List.eq_nil_or_concat' (decimal port)).resolve_left (decimal_ne_nil_int hport)
      have hdm : d ∈ decimal port := by
        rw [hd]
        simp
      have hlast : (host ++ ascii ":" ++ ds) ++ [d] = (before ++ word ++ init) ++ [c] := by
        rw [List.append_assoc (before ++ word), ← hsplit, address, hd]
        simp only [List.append_assoc]
      have hdc := List.append_inj_right' hlast rfl
      rw [List.singleton_inj] at hdc
      have hspace := hafter c (by simp)
      rw [← hdc, hdigits d (List.mem_append_right _ (decimal_subset hport hdm))] at hspace
      cases hspace
  rw [hnil, List.append_nil, address, List.append_assoc] at hsplit
  rcases List.append_eq_append_iff.mp hsplit with ⟨mid, hmid, hrest⟩ | ⟨name, hname, hword⟩
  · cases mid with
    | nil =>
        rw [List.append_nil] at hmid
        exact ⟨host, [], by simp, hmid ▸ hbefore, by simp, hrest.symm⟩
    | cons c mid =>
        have hc := hbefore c (by rw [hmid]; simp)
        have hcolon : c = 0x3A := by
          have hhead := congrArg List.head? hrest
          simpa [ascii] using hhead.symm
        rw [hcolon] at hc
        exact absurd hc (by decide)
  · refine ⟨before, name, hname, hbefore, fun c hc => hfree c ?_, hword⟩
    rw [hword]
    exact List.mem_append_left _ hc

theorem proxies_named (hw : LoadedConfig w) (hcomment : PlainComment env)
    (hservers : ∀ s ∈ w.servers.toList, ∀ c ∈ s.host, isSpace c = false)
    (h : Manager.connectProxies (printedText env w) = some proxies)
    (hports : ∀ host ∈ proxies.keys, ∃ name port, getHostPort host = some (some (name, port))) :
    ∀ p ∈ w.proxies.toList, ∃ blanks name, p.host = blanks ++ name ∧
      (∀ c ∈ blanks, isSpace c ∧ c ≠ 0x0A) ∧ name ≠ [] ∧ ∀ c ∈ name, isSpace c = false := by
  intro p hp
  have haddr : AddressOk p.host p.port := (hw.entries _ (mem_worldEntries_proxy hp)).1
  have hbreak := proxies_unbroken hw hcomment hservers h hports p hp
  have hline : strippedLine (entryLine (.proxy p.host p.port))
      ∈ Manager.onlyLines (ascii "proxy") (printedText env w) := by
    rw [onlyLines_proxy hcomment (break_notMem_server hw hservers)]
    refine List.mem_flatMap.mpr ⟨p, hp, ?_⟩
    rw [pyLines_unbroken (break_notMem_proxy hw hp hbreak), if_pos]
    · exact List.mem_singleton_self _
    · rfl
  obtain ⟨keyword, host, hwords, hhost⟩ := (connectProxies_lines h).1 _ hline
  have hpy := pySplit_proxy (hash_notMem_address haddr)
  rw [← entryLine_proxy, Manager.pySplit, hwords, List.cons.injEq] at hpy
  obtain ⟨blanks, name, hsplit, hblanks, hname, rfl⟩ :=
    address_word_split haddr.port.1 hpy.2.symm
  refine ⟨blanks, name, hsplit, fun c hc => ⟨hblanks c hc, fun hlf => hbreak ?_⟩, fun hnil => ?_,
    hname⟩
  · rw [← hlf, hsplit]
    exact List.mem_append_left _ hc
  · obtain ⟨host', port, hport⟩ := hports _ hhost
    rw [hnil, List.nil_append, getHostPort_unnamed haddr.port.1] at hport
    cases hport

end Needs

/-- The manager's picture of a configuration agrees with the proxy exactly when it
can work with the configuration and the text was not cut. -/
theorem picture_agrees_iff {env0 : ProxyEnv} {w0 : ProxyWorld} {buf out : Bytes} {bufSz r : Int}
    (hproxies0 : w0.proxies = .leaf) (hservers0 : w0.servers = .leaf)
    (hload : loadConfigFromString env0 false w0 (cString buf) = some (w, none))
    (hcomment : PlainComment env) (hprinted : configToString env w bufSz = some (out, r))
    (hproxies1 : w1.proxies = .leaf) (hservers1 : w1.servers = .leaf) :
    PictureAgrees order env' w w1 out ↔
      Manageable w ∧ ((configLines env w).flatten.length : Int) < bufSz := by
  have hw := loaded_of_load hproxies0 hservers0 hload
  have hout := configToString_out hprinted
  constructor
  · rintro ⟨proxies, servers, hconnP, hconnS, hagree, w', hload', -⟩
    have hall := servers_of_agree hw hconnS hagree
    have hservers := fun s hs => (hall s hs).2
    rcases hout with ⟨rfl, hroom⟩ | ⟨rfl, -⟩
    · have hpWord := hostWord_of_proxies hw hcomment hservers hconnP
      have hsWord := hostWord_of_servers hw hcomment hconnS
      have hne : servers.items ≠ [] := by
        obtain ⟨s, ss, hss⟩ := List.exists_cons_of_ne_nil hw.servers
        have hkey := (hall s (by rw [hss]; exact List.mem_cons_self)).1
        intro hnil
        rw [Dict.keys, hnil] at hkey
        cases hkey
      have hports := (proxies_of_dump hpWord hsWord hne hload').2
      have hnamed := proxies_named hw hcomment hservers hconnP hports
      have hbreak := proxies_unbroken hw hcomment hservers hconnP hports
      have hconnS' := connectServers_eq hw hservers (onlyLines_server hcomment
        (fun p hp => break_notMem_proxy hw hp (hbreak p hp)) (break_notMem_server hw hservers))
      have hconnP' := connectProxies_eq hw hcomment hservers hnamed
      have hS : servers = Dict.ofList (Manager.ranges (w.servers.toList.map hostLine)) :=
        Option.some.inj (hconnS.symm.trans hconnS')
      have hP : proxies = Dict.ofList (w.proxies.toList.map proxyHost) :=
        Option.some.inj (hconnP.symm.trans hconnP')
      have hlen := room_of_dump hpWord hsWord (fun p hp => by
        rw [hS] at hp
        exact (servers_item hw hservers hp).2.2.2.1.1) hne hload'
      rw [hS] at hagree
      have hnodup := (ranges_agree_iff hw.trees.servers).mp hagree
      refine ⟨⟨hservers, hnodup, hnamed, ?_⟩, hroom⟩
      rw [dumpLines, List.length_append, length_proxyLines, length_serverLines, hP, hS,
        Dict.length_ofList, Dict.items_ofList, List.map_map] at hlen
      · have hranges := congrArg List.length (keys_ranges (w.servers.toList.map hostLine))
        rw [List.length_map, List.length_map, List.length_map] at hranges
        rw [hranges] at hlen
        exact hlen
      · rw [keys_ranges, List.map_map]
        exact hnodup
    · have hcut : Manager.connectServers ((printedText env w).dropLast ++ [0]) = none :=
        connectServers_cut hw hservers
      rw [printedText] at hcut
      rw [hcut] at hconnS
      cases hconnS
  · rintro ⟨hm, hroom⟩
    have hbreak : ∀ p ∈ w.proxies.toList, (0x0A : UInt8) ∉ p.host := by
      intro p hp hc
      obtain ⟨blanks, name, hhost, hblanks, -, hname⟩ := hm.proxies p hp
      rw [hhost] at hc
      rcases List.mem_append.mp hc with hc | hc
      · exact (hblanks _ hc).2 rfl
      · exact absurd (hname _ hc) (by decide)
    rcases hout with ⟨rfl, -⟩ | ⟨-, hfull⟩
    · have hconnS := connectServers_eq hw hm.servers (onlyLines_server hcomment
        (fun p hp => break_notMem_proxy hw hp (hbreak p hp)) (break_notMem_server hw hm.servers))
      have hconnP := connectProxies_eq hw hcomment hm.servers hm.proxies
      obtain ⟨w', hload', htrees, hlines⟩ :=
        dump_loads env' order hw hm hproxies1 hservers1
      refine ⟨_, _, hconnP, hconnS, (ranges_agree_iff hw.trees.servers).mpr hm.addresses,
          w', hload',
        fun key => ?_⟩
      have hroute := findStServer_congr htrees.servers hw.trees.servers hlines key
      have haddr := congrArg (Option.map fun l : ServerLine => address l.1 l.2.1) hroute
      rw [Option.map_map, Option.map_map] at haddr
      exact haddr
    · omega

end Agree

/-- A dictionary that is gone through as it stands. -/
def listOrder : Manager.IterOrder where
  iteritems := fun l => l
  perm := fun l => .refl l

theorem picture_agrees_iff_goodText : ∃ w out r,
    loadConfigFromString datedEnv false {} (cString (ascii goodText)) = some (w, none) ∧
      configToString datedEnv w 1024 = some (out, r) ∧
      (PictureAgrees listOrder datedEnv w {} out ↔
        Manageable w ∧ ((configLines datedEnv w).flatten.length : Int) < 1024) := by
  have h : ((loadConfigFromString datedEnv false {} (cString (ascii goodText))).map fun l =>
      (l.2.isNone, (configToString datedEnv l.1 1024).isSome)) = some (true, true) := by
    decide +kernel
  obtain ⟨⟨w, err⟩, hload, heq⟩ := Option.map_eq_some_iff.mp h
  obtain ⟨herr, hprinted⟩ := Prod.mk.inj heq
  rw [Option.isNone_iff_eq_none] at herr
  subst herr
  obtain ⟨⟨out, r⟩, hprinted⟩ := Option.isSome_iff_exists.mp hprinted
  exact ⟨w, out, r, hload, hprinted, picture_agrees_iff rfl rfl hload
    (by unfold PlainComment; decide) hprinted rfl rfl⟩

/-- Two ranges at one host. -/
def sharedText : String := "proxy a:1\nserver b:2 1\nserver b:2 1 61\n"

/-- Only the range from `a` on is in the picture, and no host has the empty key. -/
theorem picture_shared : ∃ w out r,
    loadConfigFromString datedEnv false {} (cString (ascii sharedText)) = some (w, none) ∧
      PlainComment datedEnv ∧ configToString datedEnv w 1024 = some (out, r) ∧
      ¬ PictureAgrees listOrder datedEnv w {} out := by
  have h : ((loadConfigFromString datedEnv false {} (cString (ascii sharedText))).map fun l =>
      ((l.2.isNone, (configToString datedEnv l.1 1024).isSome,
          decide ((configLines datedEnv l.1).flatten.length < 1024)),
        (l.1.servers.toList.map fun s => address s.host s.port),
        (l.1.proxies.toList.map StProxy.host, l.1.servers.toList.map StServer.host)))
      = some ((true, true, true), [ascii "b:2", ascii "b:2"],
          ([ascii "a"], [ascii "b", ascii "b"])) := by
    decide +kernel
  obtain ⟨⟨w, err⟩, hload, heq⟩ := Option.map_eq_some_iff.mp h
  obtain ⟨hflags, hrest⟩ := Prod.mk.inj heq
  obtain ⟨haddresses, hhosts⟩ := Prod.mk.inj hrest
  obtain ⟨hproxies, hservers⟩ := Prod.mk.inj hhosts
  obtain ⟨herr, hflags⟩ := Prod.mk.inj hflags
  obtain ⟨hprinted, hroom⟩ := Prod.mk.inj hflags
  rw [Option.isNone_iff_eq_none] at herr
  subst herr
  obtain ⟨⟨out, r⟩, hprinted⟩ := Option.isSome_iff_exists.mp hprinted
  have hcomment : PlainComment datedEnv := by
    unfold PlainComment
    decide
  refine ⟨w, out, r, hload, hcomment, hprinted, ?_⟩
  rintro ⟨proxies, servers, -, hconnS, hagree, -⟩
  have hw := loaded_of_load rfl rfl hload
  have hfree : ∀ s ∈ w.servers.toList, ∀ c ∈ s.host, isSpace c = false := by
    intro s hs
    have hmem : s.host ∈ w.servers.toList.map StServer.host := List.mem_map_of_mem hs
    rw [show w.servers.toList.map StServer.host = [ascii "b", ascii "b"] from hservers] at hmem
    have hall : ∀ host ∈ [ascii "b", ascii "b"], ∀ c ∈ host, isSpace c = false := by decide
    exact hall s.host hmem
  have hbreak : ∀ p ∈ w.proxies.toList, (0x0A : UInt8) ∉ p.host := by
    intro p hp
    have hmem : p.host ∈ w.proxies.toList.map StProxy.host := List.mem_map_of_mem hp
    rw [show w.proxies.toList.map StProxy.host = [ascii "a"] from hproxies] at hmem
    have hall : ∀ host ∈ [ascii "a"], (0x0A : UInt8) ∉ host := by decide
    exact hall p.host hmem
  rcases configToString_out hprinted with ⟨rfl, -⟩ | ⟨-, hfull⟩
  · have hconnS' := connectServers_eq hw hfree (onlyLines_server hcomment
      (fun p hp => break_notMem_proxy hw hp (hbreak p hp)) (break_notMem_server hw hfree))
    rw [Option.some.inj (hconnS.symm.trans hconnS')] at hagree
    have hnodup := (ranges_agree_iff hw.trees.servers).mp hagree
    rw [show (w.servers.toList.map fun s => address s.host s.port) = [ascii "b:2", ascii "b:2"] from
      haddresses] at hnodup
    exact absurd hnodup (by decide)
  · have hroom := of_decide_eq_true hroom
    omega

end Smalltable.Proofs
