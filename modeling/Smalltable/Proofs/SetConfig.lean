import Smalltable.Proofs.Framing
import Smalltable.Proofs.ProxyTrees
import Smalltable.Ref.ProxySysCommand

/-!
# SET_CONFIG

The new text is first loaded for show and then for real. What both have in
common is `configEntries`, the proxies and servers a text asks for. The dry run
accepts a text that has them and at least one of each; the real load creates
them one after the other and fails at the first that is there already. So the
two agree exactly on the texts without duplicates, and since the old
configuration is gone by then, a text with one takes the proxy down.

`cmd_set_config` itself is told apart by what it is asked: it refuses and changes
nothing (`cmdSetConfig_refuses`), or it is stopped and given a text that describes
something, and then it loads (`cmdSetConfig_loads`). That what it loads is what
the lines of the text say is another matter (`SetConfigLines`).
-/

namespace Smalltable.Proofs

open Smalltable.Ref

/-! ## What a text asks for

The entries are what the parser makes of the lines, in their order. A world is described
by them when it has their proxies and their servers and no others, in whatever order the
trees have them. -/

/-- The entries of the lines, if none of them is broken. -/
def entriesOf : List Bytes → Option (List ConfigEntry)
  | [] => some []
  | line :: rest =>
      match parseLine line with
      | some .blank => entriesOf rest
      | some (.entry e) => (entriesOf rest).map (e :: ·)
      | _ => none

/-- The entries that ask for a proxy. -/
def toProxy : ConfigEntry → Option StProxy
  | .proxy host port => some ⟨host, port⟩
  | .server _ _ _ _ => none

/-- Host, port, weight and key of a server. -/
abbrev ServerLine := Bytes × Int × Int × Bytes

def toServer : ConfigEntry → Option ServerLine
  | .proxy _ _ => none
  | .server host port weight key => some (host, port, weight, key)

/-- A server without its number, as a line can name it. -/
def serverLine (s : StServer) : ServerLine := (s.host, s.port, s.weight, s.key)

def lineKey (l : ServerLine) : Bytes := l.2.2.2

/-- The proxies that the entries ask for. -/
def proxiesOf (es : List ConfigEntry) : List StProxy := es.filterMap toProxy

/-- The servers that they ask for. -/
def serversOf (es : List ConfigEntry) : List ServerLine := es.filterMap toServer

/-- The entries of a text, if it passes for a configuration: every line is right, and
there is a proxy and a server. -/
def configEntries (text : Bytes) : Option (List ConfigEntry) :=
  match splitLine (ascii "\n\r") [] maxConfigLines text with
  | none => none
  | some lines =>
      match entriesOf lines with
      | none => none
      | some es => if proxiesOf es = [] ∨ serversOf es = [] then none else some es

/-- No proxy is named twice, and no two servers start at the same key. -/
structure Distinct (es : List ConfigEntry) : Prop where
  proxies : (proxiesOf es).Nodup
  servers : ((serversOf es).map lineKey).Nodup

/-- The trees are those the entries describe. -/
structure Described (es : List ConfigEntry) (w : ProxyWorld) : Prop where
  trees : TreesOk w
  proxies : w.proxies.toList.Perm (proxiesOf es)
  servers : (w.servers.toList.map serverLine).Perm (serversOf es)

/-- Up to the first broken line, no byte takes a lookup out of its table. -/
def LinesInTable : List Bytes → Prop
  | [] => True
  | line :: rest =>
      match parseLine line with
      | none => False
      | some (.error _) => True
      | some _ => LinesInTable rest

def InTable (text : Bytes) : Prop :=
  ∃ lines, splitLine (ascii "\n\r") [] maxConfigLines text = some lines ∧ LinesInTable lines

/-! ## Creating the entries

An entry is created if nothing with its key is there. So all of them can be created, in
an empty world, when no two have the same key, and the order makes no difference to
that. -/

section Create

variable (env : ProxyEnv)

/-- What loading does with an entry; `none` where its key is there already. -/
def createEntry (w : ProxyWorld) : ConfigEntry → Option ProxyWorld
  | .proxy host port => newStProxy env w host port
  | .server host port weight key => newStServer env w host port weight key

/-- One entry after another. -/
def createAll : ProxyWorld → List ConfigEntry → Option ProxyWorld
  | w, [] => some w
  | w, e :: es =>
      match createEntry env w e with
      | none => none
      | some w => createAll w es

theorem createAll_some : ∀ {es : List ConfigEntry} {w w' : ProxyWorld}, TreesOk w →
    createAll env w es = some w' → TreesOk w' ∧
      w'.proxies.toList.Perm (proxiesOf es ++ w.proxies.toList) ∧
      (w'.servers.toList.map serverLine).Perm
          (serversOf es ++ w.servers.toList.map serverLine) := by
  intro es
  induction es with
  | nil =>
      intro w w' h hs
      cases hs
      exact ⟨h, .refl _, .refl _⟩
  | cons e es ih =>
      intro w w' h hs
      rw [createAll] at hs
      split at hs
      · cases hs
      · next w1 hw1 =>
          cases e with
          | proxy host port =>
              obtain ⟨h1, hperm, hservers⟩ := newStProxy_some env h hw1
              obtain ⟨h2, hp, hsv⟩ := ih h1 hs
              rw [hservers] at hsv
              refine ⟨h2, hp.trans ?_, hsv⟩
              exact (hperm.append_left _).trans List.perm_middle
          | server host port weight key =>
              obtain ⟨h1, hproxies, hperm⟩ := newStServer_some env h hw1
              obtain ⟨h2, hp, hsv⟩ := ih h1 hs
              rw [hproxies] at hp
              refine ⟨h2, hp, hsv.trans ?_⟩
              exact ((hperm.map serverLine).append_left _).trans List.perm_middle

/-- Entries that are neither twice in the list nor in the trees already. -/
structure Fresh (w : ProxyWorld) (es : List ConfigEntry) : Prop where
  distinct : Distinct es
  proxies : ∀ p ∈ proxiesOf es, p ∉ w.proxies.toList
  servers : ∀ k ∈ (serversOf es).map lineKey, k ∉ w.servers.toList.map StServer.key

theorem fresh_proxy {w : ProxyWorld} {host : Bytes} {port : Int} {es : List ConfigEntry} :
    Fresh w (.proxy host port :: es) ↔ (⟨host, port⟩ : StProxy) ∉ w.proxies.toList ∧
      (⟨host, port⟩ : StProxy) ∉ proxiesOf es ∧ Fresh w es := by
  have hp : proxiesOf (.proxy host port :: es) = ⟨host, port⟩ :: proxiesOf es := rfl
  constructor
  · rintro ⟨⟨h1, h2⟩, h3, h4⟩
    rw [hp] at h1 h3
    obtain ⟨hnot, h1⟩ := List.nodup_cons.mp h1
    exact ⟨h3 _ List.mem_cons_self, hnot,
      ⟨⟨h1, h2⟩, fun p hmem => h3 p (List.mem_cons_of_mem _ hmem), h4⟩⟩
  · rintro ⟨h1, h2, ⟨⟨h3, h4⟩, h5, h6⟩⟩
    refine ⟨⟨?_, h4⟩, ?_, h6⟩
    · rw [hp]
      exact List.nodup_cons.mpr ⟨h2, h3⟩
    · intro p hmem
      rw [hp] at hmem
      rcases List.mem_cons.mp hmem with rfl | hmem
      · exact h1
      · exact h5 p hmem

theorem fresh_server {w : ProxyWorld} {host : Bytes} {port weight : Int} {key : Bytes}
    {es : List ConfigEntry} :
    Fresh w (.server host port weight key :: es) ↔ key ∉ w.servers.toList.map StServer.key ∧
      key ∉ (serversOf es).map lineKey ∧ Fresh w es := by
  have hs : (serversOf (.server host port weight key :: es)).map lineKey
      = key :: (serversOf es).map lineKey := rfl
  constructor
  · rintro ⟨⟨h1, h2⟩, h3, h4⟩
    rw [hs] at h2 h4
    obtain ⟨hnot, h2⟩ := List.nodup_cons.mp h2
    exact ⟨h4 _ List.mem_cons_self, hnot,
      ⟨⟨h1, h2⟩, h3, fun k hmem => h4 k (List.mem_cons_of_mem _ hmem)⟩⟩
  · rintro ⟨h1, h2, ⟨⟨h3, h4⟩, h5, h6⟩⟩
    refine ⟨⟨h3, ?_⟩, h5, ?_⟩
    · rw [hs]
      exact List.nodup_cons.mpr ⟨h2, h4⟩
    · intro k hmem
      rw [hs] at hmem
      rcases List.mem_cons.mp hmem with rfl | hmem
      · exact h1
      · exact h6 k hmem

theorem createAll_isSome_iff : ∀ {es : List ConfigEntry} {w : ProxyWorld}, TreesOk w →
    ((∃ w', createAll env w es = some w') ↔ Fresh w es) := by
  intro es
  induction es with
  | nil =>
      intro w _
      exact ⟨fun _ => ⟨⟨.nil, .nil⟩, nofun, nofun⟩, fun _ => ⟨w, rfl⟩⟩
  | cons e es ih =>
      intro w h
      rw [createAll]
      cases e with
      | proxy host port =>
          rw [fresh_proxy, ← newStProxy_eq_none_iff env h host port]
          show (∃ w', (match newStProxy env w host port with
            | none => none
            | some w => createAll env w es) = some w') ↔ _
          cases hnew : newStProxy env w host port with
          | none => simp
          | some w1 =>
              obtain ⟨h1, hperm, hservers⟩ := newStProxy_some env h hnew
              simp only [reduceCtorEq, not_false_eq_true, true_and]
              rw [ih h1]
              constructor
              · rintro ⟨hd, hp, hs⟩
                rw [hservers] at hs
                refine ⟨fun hmem => ?_, ⟨hd, fun p hmem hold => ?_, hs⟩⟩
                · exact hp _ hmem (hperm.mem_iff.mpr List.mem_cons_self)
                · exact hp p hmem (hperm.mem_iff.mpr (List.mem_cons_of_mem _ hold))
              · rintro ⟨hnot, ⟨hd, hp, hs⟩⟩
                refine ⟨hd, fun p hmem hnew => ?_, by rw [hservers]; exact hs⟩
                rcases List.mem_cons.mp (hperm.mem_iff.mp hnew) with rfl | hold
                · exact hnot hmem
                · exact hp p hmem hold
      | server host port weight key =>
          rw [fresh_server, ← newStServer_eq_none_iff env h host port weight key]
          show (∃ w', (match newStServer env w host port weight key with
            | none => none
            | some w => createAll env w es) = some w') ↔ _
          cases hnew : newStServer env w host port weight key with
          | none => simp
          | some w1 =>
              obtain ⟨h1, hproxies, hperm⟩ := newStServer_some env h hnew
              have hkeys : ∀ k, k ∈ w1.servers.toList.map StServer.key ↔
                  k = key ∨ k ∈ w.servers.toList.map StServer.key := by
                intro k
                rw [(hperm.map StServer.key).mem_iff]
                exact List.mem_cons
              simp only [reduceCtorEq, not_false_eq_true, true_and]
              rw [ih h1]
              constructor
              · rintro ⟨hd, hp, hs⟩
                rw [hproxies] at hp
                refine ⟨fun hmem => ?_, ⟨hd, hp, fun k hmem hold => ?_⟩⟩
                · exact hs _ hmem ((hkeys _).mpr (.inl rfl))
                · exact hs k hmem ((hkeys k).mpr (.inr hold))
              · rintro ⟨hnot, ⟨hd, hp, hs⟩⟩
                refine ⟨hd, by rw [hproxies]; exact hp, fun k hmem hnew => ?_⟩
                rcases (hkeys k).mp hnew with rfl | hold
                · exact hnot hmem
                · exact hs k hmem hold

end Create

/-! ## The two runs

Both runs go through the same lines. One counts what it finds and the other creates it;
so they differ where an entry cannot be created. -/

section Load

variable (env : ProxyEnv)

/-- The dry run counts the entries and touches nothing. -/
theorem loadLines_testing : ∀ {lines : List Bytes} (n : Nat) (l : Loading), LinesInTable lines →
    ∃ l' err m, loadLines env true lines n l = some (l', err, m) ∧ l'.world = l.world ∧
      (err = none ↔ entriesOf lines ≠ none) ∧
      ∀ es, entriesOf lines = some es → l'.proxies = l.proxies + (proxiesOf es).length ∧
        l'.servers = l.servers + (serversOf es).length := by
  intro lines
  induction lines with
  | nil =>
      intro n l _
      refine ⟨l, none, n, rfl, rfl, by simp [entriesOf], ?_⟩
      intro es hes
      cases hes
      exact ⟨rfl, rfl⟩
  | cons line rest ih =>
      intro n l h
      unfold LinesInTable at h
      unfold loadLines entriesOf
      cases hline : parseLine line with
      | none => rw [hline] at h; exact h.elim
      | some parsed =>
          rw [hline] at h
          cases parsed with
          | blank => exact ih (n + 1) l h
          | error err => exact ⟨l, some err, n, rfl, rfl, by simp, nofun⟩
          | entry e =>
              cases e with
              | proxy host port =>
                  obtain ⟨l', err, m, hrun, hworld, herr, hcount⟩ :=
                    ih (n + 1) { l with proxies := l.proxies + 1 } h
                  refine ⟨l', err, m, hrun, hworld, by simpa using herr, ?_⟩
                  intro es hes
                  obtain ⟨es', hes', rfl⟩ := Option.map_eq_some_iff.mp hes
                  obtain ⟨h1, h2⟩ := hcount es' hes'
                  have hp : (proxiesOf (.proxy host port :: es')).length
                      = (proxiesOf es').length + 1 := rfl
                  have hs : serversOf (.proxy host port :: es') = serversOf es' := rfl
                  have h1 : l'.proxies = l.proxies + 1 + (proxiesOf es').length := h1
                  rw [hp, hs]
                  exact ⟨by omega, h2⟩
              | server host port weight key =>
                  obtain ⟨l', err, m, hrun, hworld, herr, hcount⟩ :=
                    ih (n + 1) { l with servers := l.servers + 1 } h
                  refine ⟨l', err, m, hrun, hworld, by simpa using herr, ?_⟩
                  intro es hes
                  obtain ⟨es', hes', rfl⟩ := Option.map_eq_some_iff.mp hes
                  obtain ⟨h1, h2⟩ := hcount es' hes'
                  have hp : proxiesOf (.server host port weight key :: es') = proxiesOf es' := rfl
                  have hs : (serversOf (.server host port weight key :: es')).length
                      = (serversOf es').length + 1 := rfl
                  have h2 : l'.servers = l.servers + 1 + (serversOf es').length := h2
                  rw [hp, hs]
                  exact ⟨h1, by omega⟩

theorem loadLines_outOfTable : ∀ {lines : List Bytes} (n : Nat) (l : Loading),
    ¬ LinesInTable lines → loadLines env true lines n l = none := by
  intro lines
  induction lines with
  | nil => intro n l h; exact absurd trivial h
  | cons line rest ih =>
      intro n l h
      unfold LinesInTable at h
      unfold loadLines
      cases hline : parseLine line with
      | none => rfl
      | some parsed =>
          rw [hline] at h
          cases parsed with
          | blank => exact ih (n + 1) l h
          | error err => exact absurd trivial h
          | entry e =>
              cases e with
              | proxy host port => exact ih (n + 1) _ h
              | server host port weight key => exact ih (n + 1) _ h

/-- The real load creates the entries, or stops at a duplicate. -/
theorem loadLines_loading : ∀ {lines : List Bytes} {es : List ConfigEntry} (n : Nat) (l : Loading),
    entriesOf lines = some es →
      (∀ w', createAll env l.world es = some w' → ∃ m, loadLines env false lines n l = some
        (⟨w', l.proxies + (proxiesOf es).length, l.servers + (serversOf es).length⟩, none, m)) ∧
      (createAll env l.world es = none →
        ∃ l' err m, loadLines env false lines n l = some (l', some err, m)) := by
  intro lines
  induction lines with
  | nil =>
      intro es n l hes
      cases hes
      refine ⟨fun w' hw => ?_, nofun⟩
      cases hw
      exact ⟨n, rfl⟩
  | cons line rest ih =>
      intro es n l hes
      unfold entriesOf at hes
      unfold loadLines
      split at hes
      · next hline =>
          rw [hline]
          exact ih (n + 1) l hes
      · next e hline =>
          rw [hline]
          obtain ⟨es', hes', rfl⟩ := Option.map_eq_some_iff.mp hes
          cases e with
          | proxy host port =>
              show (∀ w', (match newStProxy env l.world host port with
                  | none => none
                  | some w => createAll env w es') = some w' → _) ∧
                ((match newStProxy env l.world host port with
                  | none => none
                  | some w => createAll env w es') = none → _)
              cases hnew : newStProxy env l.world host port with
              | none =>
                  refine ⟨nofun, fun _ => ⟨l, ascii "Duplicate proxy", n, ?_⟩⟩
                  simp [loadEntry, hnew]
              | some w1 =>
                  have hp : (proxiesOf (.proxy host port :: es')).length
                      = (proxiesOf es').length + 1 := rfl
                  have hsv : serversOf (.proxy host port :: es') = serversOf es' := rfl
                  obtain ⟨hok, herr⟩ :=
                    ih (n + 1) { l with world := w1, proxies := l.proxies + 1 } hes'
                  simp only [loadEntry, hnew, Bool.false_eq_true, if_false]
                  refine ⟨fun w' hw' => ?_, herr⟩
                  obtain ⟨m, hm⟩ := hok w' hw'
                  refine ⟨m, ?_⟩
                  rw [hm, hp, hsv, Nat.add_right_comm, Nat.add_assoc]
          | server host port weight key =>
              show (∀ w', (match newStServer env l.world host port weight key with
                  | none => none
                  | some w => createAll env w es') = some w' → _) ∧
                ((match newStServer env l.world host port weight key with
                  | none => none
                  | some w => createAll env w es') = none → _)
              cases hnew : newStServer env l.world host port weight key with
              | none =>
                  refine ⟨nofun, fun _ => ⟨l, ascii "Duplicate server", n, ?_⟩⟩
                  simp [loadEntry, hnew]
              | some w1 =>
                  have hp : proxiesOf (.server host port weight key :: es') = proxiesOf es' := rfl
                  have hsv : (serversOf (.server host port weight key :: es')).length
                      = (serversOf es').length + 1 := rfl
                  obtain ⟨hok, herr⟩ :=
                    ih (n + 1) { l with world := w1, servers := l.servers + 1 } hes'
                  simp only [loadEntry, hnew, Bool.false_eq_true, if_false]
                  refine ⟨fun w' hw' => ?_, herr⟩
                  obtain ⟨m, hm⟩ := hok w' hw'
                  refine ⟨m, ?_⟩
                  rw [hm, hp, hsv, Nat.add_right_comm, Nat.add_assoc]
      · cases hes

theorem countError_eq_none_iff (l : Loading) : countError l = none ↔
    l.proxies ≠ 0 ∧ l.servers ≠ 0 := by
  unfold countError
  split
  · next h => simp [h]
  · next h =>
      split
      · next h' => simp [h']
      · next h' => simp [h, h']

variable {text : Bytes}

/-- The dry run: no error exactly for a text that describes a configuration. -/
theorem loadConfigFromString_testing (w : ProxyWorld) (h : InTable text) :
    ∃ err, loadConfigFromString env true w text = some (w, err) ∧
      (err = none ↔ configEntries text ≠ none) := by
  obtain ⟨lines, hlines, hin⟩ := h
  obtain ⟨l, err, m, hrun, hworld, herr, hcount⟩ := loadLines_testing env 0 { world := w } hin
  unfold loadConfigFromString configEntries
  rw [hlines]
  simp only []
  rw [hrun]
  simp only []
  have hworld : l.world = w := hworld
  rw [hworld]
  refine ⟨_, rfl, ?_⟩
  rw [Option.map_eq_none_iff, Option.or_eq_none_iff, countError_eq_none_iff, herr]
  cases hes : entriesOf lines with
  | none => simp
  | some es =>
      obtain ⟨h1, h2⟩ := hcount es hes
      have h1 : l.proxies = (proxiesOf es).length := h1.trans (Nat.zero_add _)
      have h2 : l.servers = (serversOf es).length := h2.trans (Nat.zero_add _)
      rw [h1, h2]
      simp

theorem loadConfigFromString_outOfTable (w : ProxyWorld) (h : ¬ InTable text) :
    loadConfigFromString env true w text = none := by
  unfold loadConfigFromString
  cases hlines : splitLine (ascii "\n\r") [] maxConfigLines text with
  | none => rfl
  | some lines =>
      have hout : ¬ LinesInTable lines := fun hin => h ⟨lines, hlines, hin⟩
      simp only []
      rw [loadLines_outOfTable env 0 _ hout]

/-- The real load of a text that passed the dry run. -/
theorem loadConfigFromString_loading {es : List ConfigEntry} (w : ProxyWorld)
    (h : configEntries text = some es) :
    (∀ w', createAll env w es = some w' →
      loadConfigFromString env false w text = some (w', none)) ∧
    (createAll env w es = none →
      ∃ w' err, loadConfigFromString env false w text = some (w', some err)) := by
  unfold configEntries at h
  split at h
  · cases h
  · next lines hlines =>
      split at h
      · cases h
      · next es' hes =>
          split at h
          · cases h
          · next hboth =>
              cases h
              obtain ⟨hok, hbad⟩ := loadLines_loading env 0 { world := w } hes
              unfold loadConfigFromString
              rw [hlines]
              simp only []
              refine ⟨fun w' hw' => ?_, fun hnone => ?_⟩
              · obtain ⟨m, hm⟩ := hok w' hw'
                have hcount : countError ⟨w', 0 + (proxiesOf es).length,
                    0 + (serversOf es).length⟩ = none := by
                  rw [countError_eq_none_iff]
                  simpa [not_or] using hboth
                rw [hm]
                simp only []
                rw [hcount]
                rfl
              · obtain ⟨l', err, m, hm⟩ := hbad hnone
                rw [hm]
                exact ⟨_, _, rfl⟩

end Load

/-! ## The command

The command has tests in front, for its arguments and for the state of the proxy. What
the text is asked about is what has been copied of it into the buffer of the loader. -/

section Command

variable (env : ProxyEnv)

/-- The arguments `cmd_set_config` accepts. -/
def SetConfigArgs (req : StReq) : Prop := req.extras = [] ∧ req.key = [] ∧ req.value ≠ []

/-- The text that is loaded. -/
def configText (req : StReq) : Bytes := cString req.value

/-- What the dry run accepts can be loaded into the flushed configuration. -/
def DryRunAgrees (p : Pool) (w : ProxyWorld) (text : Bytes) : Prop :=
  (∃ w', loadConfigFromString env true w text = some (w', none)) →
    ∃ w', loadConfigFromString env false (flushConfig p w).2 text = some (w', none)

/-- The text names a proxy twice, or two servers with one key, and would be
fine otherwise. -/
def HasDuplicates (text : Bytes) : Prop :=
  ∃ es, configEntries text = some es ∧ ¬ Distinct es

theorem treesOk_flushed (p : Pool) (w : ProxyWorld) : TreesOk (flushConfig p w).2 :=
  ⟨List.Pairwise.nil, List.Pairwise.nil⟩

theorem fresh_flushed (p : Pool) (w : ProxyWorld) {es : List ConfigEntry} :
    Fresh (flushConfig p w).2 es ↔ Distinct es :=
  ⟨fun h => h.distinct, fun h => ⟨h, fun _ _ => List.not_mem_nil, fun _ _ => List.not_mem_nil⟩⟩

/-- On the flushed configuration, only duplicates stand in the way. -/
theorem reload_iff (p : Pool) (w : ProxyWorld) {text : Bytes} {es : List ConfigEntry}
    (h : configEntries text = some es) :
    (∃ w', loadConfigFromString env false (flushConfig p w).2 text = some (w', none)) ↔
      Distinct es := by
  obtain ⟨hok, hbad⟩ := loadConfigFromString_loading env (flushConfig p w).2 h
  have hiff : (∃ w', createAll env (flushConfig p w).2 es = some w') ↔ _ :=
    createAll_isSome_iff env (treesOk_flushed p w)
  rw [fresh_flushed] at hiff
  rw [← hiff]
  constructor
  · rintro ⟨w', hw'⟩
    cases hall : createAll env (flushConfig p w).2 es with
    | none =>
        obtain ⟨w1, err, herr⟩ := hbad hall
        rw [herr] at hw'
        cases hw'
    | some w1 => exact ⟨w1, rfl⟩
  · rintro ⟨w', hw'⟩
    exact ⟨w', hok w' hw'⟩

theorem described_of_reload (p : Pool) (w : ProxyWorld) {text : Bytes} {es : List ConfigEntry}
    (h : configEntries text = some es) {w' : ProxyWorld}
    (hw' : loadConfigFromString env false (flushConfig p w).2 text = some (w', none)) :
    Described es w' := by
  obtain ⟨hok, hbad⟩ := loadConfigFromString_loading env (flushConfig p w).2 h
  cases hall : createAll env (flushConfig p w).2 es with
  | none =>
      obtain ⟨w1, err, herr⟩ := hbad hall
      rw [herr] at hw'
      cases hw'
  | some w1 =>
      rw [hok w1 hall] at hw'
      cases hw'
      obtain ⟨h1, h2, h3⟩ := createAll_some env (treesOk_flushed p w) hall
      have hnil : (flushConfig p w).2.servers.toList.map serverLine = [] := rfl
      have hnil' : (flushConfig p w).2.proxies.toList = [] := rfl
      rw [hnil', List.append_nil] at h2
      rw [hnil, List.append_nil] at h3
      exact ⟨h1, h2, h3⟩

theorem linesInTable_of_entriesOf : ∀ {lines : List Bytes} {es : List ConfigEntry},
    entriesOf lines = some es → LinesInTable lines := by
  intro lines
  induction lines with
  | nil => exact fun _ => trivial
  | cons line rest ih =>
      intro es h
      unfold entriesOf at h
      unfold LinesInTable
      split at h
      · next hline => rw [hline]; exact ih h
      · next hline =>
          rw [hline]
          obtain ⟨es', hes', -⟩ := Option.map_eq_some_iff.mp h
          exact ih hes'
      · cases h

/-- A text that describes something stays inside the tables. -/
theorem inTable_of_configEntries {text : Bytes} {es : List ConfigEntry}
    (h : configEntries text = some es) : InTable text := by
  unfold configEntries at h
  split at h
  · cases h
  · next lines hlines =>
      refine ⟨lines, hlines, ?_⟩
      split at h
      · cases h
      · next hes => exact linesInTable_of_entriesOf hes

theorem dryRunAgrees_iff (p : Pool) (w : ProxyWorld) {text : Bytes} :
    DryRunAgrees env p w text ↔ ¬ HasDuplicates text := by
  by_cases hin : InTable text
  · obtain ⟨err, hdry, herr⟩ := loadConfigFromString_testing env w hin
    constructor
    · rintro hagree ⟨es, hes, hdup⟩
      have hnone : err = none := herr.mpr (by rw [hes]; exact nofun)
      rw [hnone] at hdry
      exact hdup ((reload_iff env p w hes).mp (hagree ⟨w, hdry⟩))
    · rintro hno ⟨w', hw'⟩
      rw [hw'] at hdry
      obtain ⟨es, hes⟩ := Option.ne_none_iff_exists'.mp (herr.mp (by cases hdry; rfl))
      refine (reload_iff env p w hes).mpr ?_
      by_contra hdup
      exact hno ⟨es, hes, hdup⟩
  · have hout := loadConfigFromString_outOfTable env w hin
    constructor
    · rintro - ⟨es, hes, -⟩
      exact hin (inTable_of_configEntries hes)
    · rintro - ⟨w', hw'⟩
      rw [hout] at hw'
      cases hw'

/-- A refusal answers with its status and changes nothing. -/
theorem refuse_some (p : Pool) (w : ProxyWorld) (res : StRes) (status : Nat)
    (errStr : Option Bytes) {str : Bytes} (hstr : errorStr (status % 256) errStr = some str) :
    ∃ res', Proxy.refuse p w res status errStr = some (p, w, res') ∧
      res'.status = status % 256 := by
  unfold Proxy.refuse setErrorCode
  simp only [hstr]
  exact ⟨_, rfl, rfl⟩

theorem loadConfigFromString_short {testing : Bool} {w w' : ProxyWorld} {text err : Bytes}
    (h : loadConfigFromString env testing w text = some (w', some err)) : err.length < 256 := by
  unfold loadConfigFromString at h
  split at h
  · cases h
  · split at h
    · cases h
    · next l e m _ =>
        obtain ⟨-, herr⟩ := Prod.mk.inj (Option.some.inj h)
        obtain ⟨x, -, rfl⟩ := Option.map_eq_some_iff.mp herr
        rw [snprintf, List.length_take]
        omega

/-- It is asked for a new configuration, and will have it. -/
structure WillLoad (w : ProxyWorld) (req : StReq) : Prop where
  args : SetConfigArgs req
  stopped : w.stopped = true
  accepted : configEntries (configText req) ≠ none

/-- An error, and nothing has changed. -/
def Refused (w : ProxyWorld) (r : Option Proxy.Reply) : Prop :=
  ∃ p' w' res', r = some (p', w', res') ∧ res'.status ≠ memcacheStatusOk ∧
    w'.proxies = w.proxies ∧ w'.servers = w.servers ∧ w'.stopped = w.stopped

theorem cmdSetConfig_refuses (p : Pool) (w : ProxyWorld) (req : StReq) {res : StRes}
    (hroom : 256 ≤ res.bufSz) (hin : SetConfigArgs req → InTable (configText req))
    (hnot : ¬ WillLoad w req) : Refused w (Proxy.cmdSetConfig env p w req res) := by
  unfold Refused Proxy.cmdSetConfig
  split
  · obtain ⟨res', hres, hstatus⟩ := refuse_some p w res memcacheStatusInvalidArguments none rfl
    refine ⟨p, w, res', hres, ?_, rfl, rfl, rfl⟩
    rw [hstatus]
    decide
  · next hargs =>
      rw [not_or, not_or, not_not, not_not] at hargs
      obtain ⟨err, hdry, herr⟩ := loadConfigFromString_testing env w (hin hargs)
      rw [configText] at hdry
      rw [hdry]
      cases err with
      | some err =>
          have hshort := loadConfigFromString_short env hdry
          simp only []
          rw [if_pos (by omega)]
          exact ⟨p, w, _, rfl, by show memcacheStatusItemNotStored ≠ _; decide, rfl, rfl, rfl⟩
      | none =>
          simp only []
          split
          · obtain ⟨res', hres, hstatus⟩ := refuse_some p w res memcacheStatusKeyNotFound
              (some Proxy.notStopped) rfl
            refine ⟨p, w, res', hres, ?_, rfl, rfl, rfl⟩
            rw [hstatus]
            decide
          · next hstopped => exact absurd ⟨hargs, by simpa using hstopped, herr.mp rfl⟩ hnot

theorem cmdSetConfig_loads (p : Pool) (w : ProxyWorld) (req : StReq) (res : StRes)
    (hload : WillLoad w req) (hno : ¬ HasDuplicates (configText req)) :
    ∃ p' w' res' es, Proxy.cmdSetConfig env p w req res = some (p', w', res') ∧
      res'.status = memcacheStatusOk ∧ configEntries (configText req) = some es ∧
      Described es w' := by
  obtain ⟨⟨h1, h2, h3⟩, hstopped, haccepted⟩ := hload
  obtain ⟨es, hes⟩ := Option.ne_none_iff_exists'.mp haccepted
  obtain ⟨err, hdry, herr⟩ := loadConfigFromString_testing env w (inTable_of_configEntries hes)
  have hnone : err = none := herr.mpr haccepted
  have hdistinct : Distinct es := by
    by_contra hdup
    exact hno ⟨es, hes, hdup⟩
  obtain ⟨w', hw'⟩ := (reload_iff env p w hes).mpr hdistinct
  unfold Proxy.cmdSetConfig
  rw [if_neg (by simp [h1, h2, h3])]
  rw [hnone, configText] at hdry
  rw [hdry]
  have hreload := hw'
  rw [configText] at hreload
  simp only [hstopped, Bool.not_true, Bool.false_eq_true, if_false]
  rw [hreload]
  exact ⟨_, w', _, es, rfl, rfl, hes, described_of_reload env p w hes hw'⟩

/-- A byte outside the tables: the command does not come back. -/
theorem cmdSetConfig_outOfTable (p : Pool) (w : ProxyWorld) {req : StReq} (res : StRes)
    (hargs : SetConfigArgs req) (hout : ¬ InTable (configText req)) :
    Proxy.cmdSetConfig env p w req res = none := by
  obtain ⟨h1, h2, h3⟩ := hargs
  unfold Proxy.cmdSetConfig
  rw [if_neg (by simp [h1, h2, h3])]
  have hdry := loadConfigFromString_outOfTable env w hout
  rw [configText] at hdry
  rw [hdry]

end Command

def setConfigRequest (text : String) : Bytes :=
  Request.frame { opcode := proxyCmdSetConfig, reserved := 2, value := ascii text }

def goodText : String := "proxy a:1\nserver b:2 1\n"

end Smalltable.Proofs
