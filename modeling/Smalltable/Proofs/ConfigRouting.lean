import Smalltable.Proofs.ProxyCollect
import Smalltable.Proofs.SetConfig

/-!
# Which configurations route every key

A key belongs to the last server whose own key is not after it, so there is a
server for every key when one of them starts at the empty key. Nothing in
`load_config_from_string` asks for such a server: it counts the servers and
refuses none for leaving a gap at the beginning. A text has one exactly when
some `server` line has no key, since a key that is written out is never empty.

The condition is on the lines as `split_line` has them. The line with the empty key may
be any of them, since the tree puts it in front, and the other servers only take keys
away from it.
-/

namespace Smalltable.Proofs

open Smalltable.Ref

/-! ## Lines and their keys

A key that is written out has at least one byte, or the line is refused. So an entry has
the empty key exactly when its line has no word for it. -/

/-- `split_line` collects no empty token. -/
theorem splitLoop_ne_nil {sepChars quitChars : Bytes} {argvSz : Nat} :
    ∀ {line : Bytes} {argv : List Bytes} {cur : Option Bytes} {r : List Bytes},
      (∀ t ∈ argv, t ≠ []) → (∀ t ∈ cur, t ≠ []) →
      splitLoop sepChars quitChars argvSz line argv cur = some r → ∀ t ∈ r, t ≠ [] := by
  intro line
  induction line with
  | nil =>
      intro argv cur r hargv hcur h
      cases h
      simpa [or_imp, forall_and] using ⟨hargv, hcur⟩
  | cons c rest ih =>
      intro argv cur r hargv hcur h
      have happend : ∀ t ∈ argv ++ cur.toList, t ≠ [] := by
        simpa [or_imp, forall_and] using ⟨hargv, hcur⟩
      unfold splitLoop at h
      split at h
      · cases h
      · exact ih happend (by simp) h
      · cases h; exact happend
      · split at h
        · refine ih hargv ?_ h
          simp
        · split at h
          · cases h
            simpa [or_imp, forall_and] using hargv
          · refine ih hargv ?_ h
            simp

theorem splitLine_ne_nil {sepChars quitChars line : Bytes} {argvSz : Nat} {argv : List Bytes}
    (h : splitLine sepChars quitChars argvSz line = some argv) : ∀ t ∈ argv, t ≠ [] :=
  splitLoop_ne_nil (by simp) (by simp) h

/-- What is read as a key: pairs of digits, each of them a byte, and no more than 256. -/
theorem decodeHexLoop_spec {hex key k : Bytes} (h : decodeHexLoop hex key = some (some k)) :
    hex.length + 2 * key.length = 2 * k.length ∧ (key.length ≤ 256 → k.length ≤ 256) ∧
      ∀ c ∈ hex, hexToInt c = 0 → c = 0x30 := by
  induction hex, key using decodeHexLoop.induct with
  | case1 a b rest key hlong => simp [decodeHexLoop, hlong] at h
  | case2 a b rest key hlong hneg => simp [decodeHexLoop, hlong, hneg] at h
  | case3 a b rest key hlong hneg hbad => simp [decodeHexLoop, hlong, hneg, hbad] at h
  | case4 a b rest key hlong hneg hbad ih =>
      rw [decodeHexLoop, if_neg hlong, if_neg hneg, if_neg hbad] at h
      obtain ⟨hlen, hshort, hdigits⟩ := ih h
      simp only [List.length_append, List.length_cons, List.length_nil] at hlen hshort ⊢
      refine ⟨by omega, fun _ => hshort (by omega), fun c hc hzero => ?_⟩
      rcases List.mem_cons.mp hc with rfl | hc
      · exact by_contra fun hne => hbad (.inl ⟨hzero, hne⟩)
      · rcases List.mem_cons.mp hc with rfl | hc
        · exact by_contra fun hne => hbad (.inr ⟨hzero, hne⟩)
        · exact hdigits c hc hzero
  | case5 => simp [decodeHexLoop] at h
  | case6 key =>
      cases h
      exact ⟨by rw [List.length_nil, Nat.zero_add], id, nofun⟩

theorem decodeHex_ne_nil {hex key : Bytes} (h : decodeHex hex = some (some key))
    (hne : hex ≠ []) : key ≠ [] := by
  have hlen := (decodeHexLoop_spec h).1
  have hpos := List.length_pos_iff.mpr hne
  simp only [List.length_nil] at hlen
  exact List.ne_nil_of_length_pos (by omega)

/-- A `server` line with an address and a weight and no more. -/
def Unkeyed (line : Bytes) : Prop :=
  ∃ addr weight, splitLine (ascii " ,\t") (ascii "#") 32 line = some [ascii "server", addr, weight]

/-- What a `server` line can come to; its key is empty when it has none. -/
theorem parseServer_cases {argv : List Bytes} {l : ConfigLine} (h : parseServer argv = some l)
    (hne : ∀ t ∈ argv, t ≠ []) : (∃ err, l = .error err) ∨
      ∃ host port weight key, l = .entry (.server host port weight key) ∧
        (key = [] ↔ argv.length = 3) := by
  unfold parseServer at h
  split at h
  · cases h; exact .inl ⟨_, rfl⟩
  · next hlen =>
      split at h
      · cases h
      · cases h; exact .inl ⟨_, rfl⟩
      · simp only [] at h
        split at h
        · cases h; exact .inl ⟨_, rfl⟩
        · split at h
          · next hfour =>
              split at h
              · cases h
              · cases h; exact .inl ⟨_, rfl⟩
              · next k hk =>
                  cases h
                  have harg : argv.getD 3 [] ≠ [] := by
                    have hlt : 3 < argv.length := by omega
                    simpa [List.getD, hlt] using hne _ (List.getElem_mem hlt)
                  refine .inr ⟨_, _, _, _, rfl, ?_⟩
                  simp [hfour, decodeHex_ne_nil hk harg]
          · next hfour =>
              cases h
              refine .inr ⟨_, _, _, _, rfl, ?_⟩
              simp only [true_iff]
              omega

/-- Of the lines of a text that loads, the unkeyed ones make servers at the
empty key, and no others do. -/
theorem parseLine_unkeyed {line : Bytes} {e : ConfigEntry} (h : parseLine line = some (.entry e)) :
    Unkeyed line ↔ (toServer e).map lineKey = some [] := by
  unfold parseLine at h
  unfold Unkeyed
  split at h
  · cases h
  · cases h
  · next keyword args hargv =>
      have hne := splitLine_ne_nil hargv
      rw [hargv]
      split at h
      · next hproxy =>
          subst hproxy
          have hkey : (toServer e).map lineKey = none := by
            unfold parseProxy at h
            split at h
            · cases h
            · split at h <;> cases h
              rfl
          rw [hkey]
          simp [show ascii "proxy" ≠ ascii "server" by decide]
      · split at h
        · next hserver =>
            subst hserver
            rcases parseServer_cases h hne with ⟨err, herr⟩ | ⟨host, port, weight, key, he, hlen⟩
            · cases herr
            · cases he
              simp only [toServer, Option.map_some, lineKey, Option.some.injEq, hlen]
              constructor
              · rintro ⟨addr, wt, heq⟩
                cases heq
                rfl
              · intro h3
                obtain ⟨addr, wt, rfl⟩ : ∃ addr wt, args = [addr, wt] :=
                  List.length_eq_two.mp (by simpa using h3)
                exact ⟨addr, wt, rfl⟩
        · cases h

theorem not_unkeyed_blank {line : Bytes} (h : parseLine line = some .blank) : ¬ Unkeyed line := by
  rintro ⟨addr, weight, hargv⟩
  unfold parseLine at h
  rw [hargv] at h
  simp only [show ascii "server" ≠ ascii "proxy" by decide, if_false, if_true] at h
  rcases parseServer_cases h (splitLine_ne_nil hargv) with ⟨_, herr⟩ | ⟨_, _, _, _, he, -⟩
  · cases herr
  · cases he

theorem entriesOf_unkeyed : ∀ {lines : List Bytes} {es : List ConfigEntry},
    entriesOf lines = some es →
      ((∃ line ∈ lines, Unkeyed line) ↔ [] ∈ (serversOf es).map lineKey) := by
  intro lines
  induction lines with
  | nil =>
      intro es h
      cases h
      simp [serversOf]
  | cons line rest ih =>
      intro es h
      rw [entriesOf] at h
      split at h
      · next hblank => simp [not_unkeyed_blank hblank, ih h]
      · next e he =>
          obtain ⟨es', hes', rfl⟩ := Option.map_eq_some_iff.mp h
          rw [List.exists_mem_cons_iff, parseLine_unkeyed he, ih hes']
          cases hserver : toServer e with
          | none => simp [serversOf, hserver]
          | some l => simp [serversOf, hserver, @eq_comm Bytes []]
      · cases h

/-! ## Loading a configuration

The entries of the text and the servers of the tree are the same, and the search for the
empty key finds a server only if there is one with this key. Every other key finds it
when nothing nearer is there. -/

section Load

variable (env : ProxyEnv) {w w' : ProxyWorld} {text : Bytes}

theorem entriesOf_of_loadLines {testing : Bool} : ∀ {lines : List Bytes} {n m : Nat}
    {l l' : Loading}, loadLines env testing lines n l = some (l', none, m) →
      ∃ es, entriesOf lines = some es := by
  intro lines
  induction lines with
  | nil => intro n m l l' _; exact ⟨[], rfl⟩
  | cons line rest ih =>
      intro n m l l' h
      rw [loadLines] at h
      rw [entriesOf]
      split at h
      · cases h
      · next hline => rw [hline]; exact ih h
      · cases h
      · next e hline =>
          rw [hline]
          split at h
          · cases h
          · obtain ⟨es, hes⟩ := ih h
            exact ⟨e :: es, by simp [hes]⟩

/-- A load without error has created all the text asks for. -/
theorem createAll_of_load (h : loadConfigFromString env false w text = some (w', none)) :
    ∃ lines es, splitLine (ascii "\n\r") [] maxConfigLines text = some lines ∧
      entriesOf lines = some es ∧ createAll env w es = some w' := by
  unfold loadConfigFromString at h
  split at h
  · cases h
  · next lines hlines =>
      split at h
      · cases h
      · next l err lineNo hrun =>
          obtain ⟨hworld, herr⟩ := Prod.mk.inj (Option.some.inj h)
          have herr : err = none := by
            rw [Option.map_eq_none_iff, Option.or_eq_none_iff] at herr
            exact herr.1
          rw [herr] at hrun
          obtain ⟨es, hes⟩ := entriesOf_of_loadLines env hrun
          obtain ⟨hok, hbad⟩ := loadLines_loading env 0 { world := w } hes
          refine ⟨lines, es, hlines, hes, ?_⟩
          cases hall : createAll env w es with
          | none =>
              obtain ⟨l1, err1, m, hm⟩ := hbad hall
              rw [hm] at hrun
              cases hrun
          | some w1 =>
              obtain ⟨m, hm⟩ := hok w1 hall
              rw [hm] at hrun
              cases hrun
              rw [← hworld]

theorem findStServer_nil {servers : Tree StServer} {s : StServer}
    (h : findStServer servers [] = some s) : s.key = [] := by
  have hge := Tree.floorBy_not_lt h
  rw [keyCmp_lt] at hge
  cases hkey : s.key with
  | nil => rfl
  | cons a key =>
      rw [hkey] at hge
      exact absurd (by simp [ordKey]) hge

/-- Every key a request can have is some server's, and so the assertion of
`process_multi` holds for every request the framing lets pass. -/
structure RoutesEveryKey (w : ProxyWorld) : Prop where
  keys : ∀ key : Bytes, key.length ≤ maxKeySize → ∃ s, findStServer w.servers key = some s
  requests : ∀ buf : Bytes, 0 < reqbufGetSaneRequestSz buf 0x80 →
    ∃ s, findStServer w.servers (reqbufGetKey buf) = some s

theorem routesEveryKey_iff (h : TreesOk w) :
    RoutesEveryKey w ↔ [] ∈ w.servers.toList.map StServer.key := by
  constructor
  · intro hall
    obtain ⟨s, hs⟩ := hall.keys [] (Nat.zero_le _)
    exact List.mem_map.mpr ⟨s, Tree.floorBy_mem hs, findStServer_nil hs⟩
  · intro hmem
    have hempty := List.mem_map.mp hmem
    have hfind : ∀ key, ∃ s, findStServer w.servers key = some s := by
      intro key
      obtain ⟨s, -, hs⟩ := findStServer_isSome h hempty key
      exact ⟨s, hs⟩
    exact ⟨fun key _ => hfind key, fun buf _ => hfind (reqbufGetKey buf)⟩

/-- The text has a `server` line without a key. -/
def HasUnkeyedServer (text : Bytes) : Prop :=
  ∃ lines, splitLine (ascii "\n\r") [] maxConfigLines text = some lines ∧
    ∃ line ∈ lines, Unkeyed line

theorem loadedConfig_routes_iff (hproxies : w.proxies = .leaf) (hservers : w.servers = .leaf)
    (h : loadConfigFromString env false w text = some (w', none)) :
    RoutesEveryKey w' ↔ HasUnkeyedServer text := by
  obtain ⟨lines, es, hlines, hes, hall⟩ := createAll_of_load env h
  have htrees : TreesOk w := by
    refine ⟨?_, ?_⟩
    · rw [hproxies]; exact List.Pairwise.nil
    · rw [hservers]; exact List.Pairwise.nil
  obtain ⟨htrees', -, hperm⟩ := createAll_some env htrees hall
  have hkeys : ([] : Bytes) ∈ w'.servers.toList.map StServer.key ↔
      [] ∈ (serversOf es).map lineKey := by
    rw [hservers, show (Tree.leaf.toList : List StServer) = [] from rfl, List.map_nil,
      List.append_nil] at hperm
    rw [← (hperm.map lineKey).mem_iff, List.map_map]
    rfl
  rw [routesEveryKey_iff htrees', hkeys, ← entriesOf_unkeyed hes, HasUnkeyedServer]
  simp [hlines]

end Load

theorem loadedConfig_routes_iff_goodText :
    ∃ w', loadConfigFromString plainEnv false {} (ascii goodText) = some (w', none) ∧
      (RoutesEveryKey w' ↔ HasUnkeyedServer (ascii goodText)) := by
  have h : ((loadConfigFromString plainEnv false {} (ascii goodText)).map
      fun r => r.2.isNone) = some true := by decide +kernel
  obtain ⟨⟨w', err⟩, hload, herr⟩ := Option.map_eq_some_iff.mp h
  rw [Option.isNone_iff_eq_none] at herr
  subst herr
  exact ⟨w', hload, loadedConfig_routes_iff plainEnv rfl rfl hload⟩

/-- The only server starts at `a`, and nothing before that has a place. -/
def gapText : String := "proxy a:1\nserver b:2 1 61\n"

theorem loadedConfig_gap :
    ∃ w', loadConfigFromString plainEnv false {} (ascii gapText) = some (w', none) ∧
      ¬ RoutesEveryKey w' := by
  have h : ((loadConfigFromString plainEnv false {} (ascii gapText)).map
      fun r => (r.2.isNone, (findStServer r.1.servers (ascii "A")).isNone))
          = some (true, true) := by
    decide +kernel
  obtain ⟨⟨w', err⟩, hload, heq⟩ := Option.map_eq_some_iff.mp h
  obtain ⟨herr, hfind⟩ := Prod.mk.inj heq
  rw [Option.isNone_iff_eq_none] at herr hfind
  subst herr
  refine ⟨w', hload, fun hall => ?_⟩
  obtain ⟨s, hs⟩ := hall.keys (ascii "A") (by decide)
  rw [hfind] at hs
  cases hs

end Smalltable.Proofs
