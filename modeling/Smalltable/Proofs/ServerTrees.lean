import Smalltable.Lib.Transition
import Smalltable.Proofs.ConfigTrees
import Smalltable.Proofs.Routing

/-!
# The tree of the servers in memory

The proxy without memory (`ProxyWorld`) leaves open how its trees are balanced and
how a node is erased, and says what these do to the list of the servers. The
calls of the proxy on memory and those calls go together (`serverCalls_memory`):
neither level does something that the other does not, and a server is found for a
key on the one exactly when it is on the other.

The addresses of the nodes come with the calls, as the allocator chooses them. They may
be used again, but not while a server is there, and which they are makes no difference
to what is found (`entriesOf`).
-/

namespace Smalltable.Proofs.Rb

open Smalltable.Ref Smalltable.Ref.Rb Smalltable.Spec ColoredTree

theorem serverFind (key : Bytes) (s : StServer) :
    keyCmp key s.key < 0 ↔ ordKey key < ordKey s.key := keyCmp_lt key s.key

/-- Three servers, one of which is refused, and an address that is used again. -/
def serverTreeCalls : List (TreeCall StServer Bytes) :=
  [.newItem 16 ⟨0, ascii "b", 1, 1, ascii "m"⟩, .newItem 32 ⟨1, ascii "a", 1, 1, []⟩,
    .newItem 48 ⟨2, ascii "c", 1, 1, ascii "m"⟩, .find (ascii "n"), .delItem 16,
    .newItem 16 ⟨2, ascii "d", 1, 1, ascii "ma"⟩, .walk, .find (ascii "m"), .freeAll, .walk]

theorem treeCalls_table_servers :
    ∃ h t, treeCalls (fun a b : StServer => keyCmp a.key b.key) (fun key s => keyCmp key s.key) 9 11
        { item := fun _ => ⟨0, [], 0, 0, []⟩ } serverTreeCalls
        = some (h, (tableCalls (fun s : StServer => ordKey s.key) ordKey [] serverTreeCalls).2) ∧
      Stores h t ∧
      entriesOf h t = (tableCalls (fun s : StServer => ordKey s.key) ordKey [] serverTreeCalls).1 :=
  treeCalls_table serverOrder serverFind _ (by decide) (by decide) (by decide)

/-! ## Both levels

The two states have the same servers in the same order (`Same`). A call is refused on
both or on none; and since the order of a tree decides what is found in it, the searches
agree. -/

/-- A call, with the address of the server. The number counts the servers that are
created. -/
def serverCallAt (rounds : Nat) (s : NodeHeap StServer × Nat) :
    Addr × ServerCall → Option (NodeHeap StServer × Nat)
  | (p, .newServer host port weight key) =>
      (Rb.newStServer rounds p ⟨s.2, host, port, weight, key⟩ s.1).map fun r =>
        (r.1, if r.2 then s.2 + 1 else s.2)
  | (p, .delServer _) => (Rb.delStServer rounds p s.1).map fun h => (h, s.2)

/-- A new server is at an address that is not in use, and a server that is deleted is
there. -/
def CallOk (s : NodeHeap StServer × Nat) : Addr × ServerCall → Prop
  | (p, .newServer ..) => Aligned p ∧ s.1.mem.node p = none
  | (p, .delServer ptr) => ∃ srv, load s.1 p = some srv ∧ srv.ptr = ptr

instance (s : NodeHeap StServer × Nat) (c : Addr × ServerCall) : Decidable (CallOk s c) :=
  match c with
  | (p, .newServer ..) =>
      decidable_of_iff (Aligned p ∧ (s.1.mem.node p).isNone) (by
        rw [Option.isNone_iff_eq_none]
        rfl)
  | (p, .delServer ptr) =>
      decidable_of_iff ((load s.1 p).any fun srv => srv.ptr = ptr) (by
        rw [Option.any_eq_true]
        simp only [decide_eq_true_eq]
        rfl)

/-- Both levels have the same servers, in the same order and with the same numbers. -/
structure Same (s : NodeHeap StServer × Nat) (w : ProxyWorld) (t : ColoredTree Addr) : Prop where
  stores : Stores s.1 t
  servers : w.servers.toList = t.toList.map s.1.item
  next : w.nextServer = s.2
  sorted : TreesOk w
  numbers : (w.servers.toList.map StServer.ptr).Nodup
  below : ∀ srv ∈ w.servers.toList, srv.ptr < w.nextServer

section Both

variable (env : ProxyEnv) (er : RbErase) {s : NodeHeap StServer × Nat} {w : ProxyWorld}
  {t : ColoredTree Addr} {p : Addr} {rounds : Nat}

theorem Same.ascending (h : Same s w t) :
    Ascending (fun s : StServer => ordKey s.key) (entriesOf s.1 t) := by
  have hsorted := h.sorted.servers
  rw [Tree.Sorted, h.servers, List.pairwise_map] at hsorted
  rw [entriesOf, Ascending, List.pairwise_map]
  exact hsorted

/-- Searching. -/
theorem Same.find (h : Same s w t) (hrounds : enough t.toList.length ≤ rounds) (key : Bytes) :
    ∃ q, Rb.findStServer rounds key s.1 = some q ∧ load s.1 q = Ref.findStServer w.servers key := by
  have hfind := find_spec serverFind h.stores h.ascending hrounds key
  refine ⟨_, hfind, ?_⟩
  have hnone : ∀ a, (none : Option StServer) = some a → keyCmp key a.key < 0 := nofun
  have hfloor := Tree.floorBy_eq_getLast? (fun a => serverFind key a) h.sorted.servers hnone
  have hnull : load s.1 null = none := by
    have hnode : s.1.mem.node null = none := by
      by_contra hne
      exact ne_null h.stores (h.stores.only null hne) rfl
    rw [load, hnode, Option.map_none]
  have hfilter : t.toList.filter (fun p => decide (¬ keyCmp key (s.1.item p).key < 0))
      = t.toList.filter (fun p => decide (ordKey (s.1.item p).key ≤ ordKey key)) :=
    List.filter_congr fun p _ => decide_eq_decide.mpr (by rw [serverFind, not_lt])
  rw [Ref.findStServer, hfloor, h.servers, List.filter_map, List.getLast?_map, lastUpTo, entriesOf,
    List.filter_map, List.getLast?_map, Option.map_map]
  show load s.1 ((Option.map _ (t.toList.filter
      fun p => decide (ordKey (s.1.item p).key ≤ ordKey key)).getLast?).getD null)
    = Option.map _ (t.toList.filter fun p => decide (¬ keyCmp key (s.1.item p).key < 0)).getLast?
  rw [hfilter]
  cases hlast : (t.toList.filter
      fun p => decide (ordKey (s.1.item p).key ≤ ordKey key)).getLast? with
  | none => exact hnull
  | some q =>
      have hq := List.mem_of_mem_filter (List.mem_of_getLast? hlast)
      exact load_spec h.stores.holds hq

theorem newStServer_next {host : Bytes} {port weight : Int} {key : Bytes} {w' : ProxyWorld}
    (hs : Ref.newStServer env w host port weight key = some w') :
    w'.nextServer = w.nextServer + 1 := by
  unfold Ref.newStServer at hs
  simp only [] at hs
  split at hs
  · cases hs
  · next w1 hw1 =>
      cases hs
      unfold Ref.stServerInsert at hw1
      split at hw1
      · cases hw1
      · cases hw1
        rfl

/-- The step lemma, for a new server. -/
theorem Same.newServer (h : Same s w t) (hrounds : enough t.toList.length ≤ rounds) (hp : Aligned p)
    (hnew : s.1.mem.node p = none) (host : Bytes) (port weight : Int) (key : Bytes) :
    ∃ s' t', serverCallAt rounds s (p, .newServer host port weight key) = some s' ∧
      Same s' ((Ref.newStServer env w host port weight key).getD w) t' ∧
      t'.toList.length ≤ t.toList.length + 1 := by
  have hnot : p ∉ t.toList := fun hmem => h.stores.mem_iff.mp hmem hnew
  obtain ⟨h', r, t', hres, hs', htable⟩ :=
    createItem_spec ordKey serverOrder h.stores h.ascending hrounds hp hnot
      (⟨s.2, host, port, weight, key⟩ : StServer)
  have hcall : serverCallAt rounds s (p, .newServer host port weight key)
      = some (h', if r then s.2 + 1 else s.2) := by
    rw [serverCallAt, Rb.newStServer, hres]
    rfl
  have hnone := newStServer_eq_none_iff env h.sorted host port weight key
  rw [h.servers, List.map_map] at hnone
  rw [tableCall] at htable
  split at htable
  · next hdup =>
      obtain ⟨hentries, hr⟩ := Prod.mk.inj htable
      cases hr
      have haddr := congrArg (List.map Prod.fst) hentries
      have hitems := congrArg (List.map Prod.snd) hentries
      rw [addresses_entriesOf, addresses_entriesOf] at haddr
      rw [items_entriesOf, items_entriesOf] at hitems
      obtain ⟨x, hx, hkey⟩ := hdup
      obtain ⟨q, hq, rfl⟩ := List.mem_map.mp hx
      have hrefused := hnone.mpr (List.mem_map.mpr ⟨q, hq, ordKey_inj.mp hkey⟩)
      refine ⟨_, t', hcall, ?_, by rw [← haddr]; omega⟩
      rw [hrefused]
      exact ⟨hs', h.servers.trans hitems, h.next, h.sorted, h.numbers, h.below⟩
  · next hfresh =>
      obtain ⟨hentries, hr⟩ := Prod.mk.inj htable
      cases hr
      cases hworld : Ref.newStServer env w host port weight key with
      | none =>
          obtain ⟨q, hq, hkey⟩ := List.mem_map.mp (hnone.mp hworld)
          exact absurd ⟨_, List.mem_map.mpr ⟨q, hq, rfl⟩, congrArg ordKey hkey⟩ hfresh
      | some w' =>
          obtain ⟨hsorted', -, hperm⟩ := newStServer_some env h.sorted hworld
          have hnext := newStServer_next env hworld
          rw [h.next] at hperm
          have hadd := perm_addEntry (fun s : StServer => ordKey s.key) p
            ⟨s.2, host, port, weight, key⟩ (entriesOf s.1 t)
          have hin' := ascending_addEntry h.ascending p hfresh
          rw [hentries] at hadd hin'
          have hitems := hadd.map Prod.snd
          rw [items_entriesOf, List.map_cons, items_entriesOf, ← h.servers] at hitems
          refine ⟨_, t', hcall, ⟨hs', ?_, ?_, hsorted', ?_, ?_⟩, ?_⟩
          · have hbefore : (t'.toList.map h'.item).Pairwise
                fun x y => ordKey x.key < ordKey y.key := by
              rw [← items_entriesOf, List.pairwise_map]
              exact hin'
            exact List.Perm.eq_of_pairwise (fun _ _ _ _ hlt hgt => absurd hlt (lt_asymm hgt))
              hsorted'.servers hbefore (hperm.trans hitems.symm)
          · show w'.nextServer = s.2 + 1
            rw [hnext, h.next]
          · refine (hperm.map StServer.ptr).nodup_iff.mpr (List.nodup_cons.mpr ⟨?_, h.numbers⟩)
            intro hmem
            obtain ⟨srv, hsrv, heq⟩ := List.mem_map.mp hmem
            have hlt := h.below srv hsrv
            have hnum : srv.ptr = s.2 := heq
            rw [h.next] at hlt
            omega
          · intro srv hsrv
            show srv.ptr < w'.nextServer
            rw [hnext]
            rcases List.mem_cons.mp (hperm.mem_iff.mp hsrv) with rfl | hold
            · have := h.next
              show s.2 < w.nextServer + 1
              omega
            · exact Nat.lt_succ_of_lt (h.below srv hold)
          · have hlen := hadd.length_eq
            rw [List.length_cons, length_entriesOf, length_entriesOf] at hlen
            omega

/-- For a server that is deleted. -/
theorem Same.delServer (h : Same s w t) (hrounds : enough t.toList.length ≤ rounds)
    {srv : StServer} (hload : load s.1 p = some srv) (pool : Pool) :
    ∃ s' sw t', serverCallAt rounds s (p, .delServer srv.ptr) = some s' ∧
      serverCall env er (pool, w) (.delServer srv.ptr) = some sw ∧ Same s' sw.2 t' ∧
      t'.toList.length ≤ t.toList.length + 1 := by
  have hp : p ∈ t.toList := h.stores.mem_iff.mpr fun hnone => by
    rw [load, hnone] at hload
    cases hload
  have hitem : s.1.item p = srv := Option.some.inj ((load_spec h.stores.holds hp).symm.trans hload)
  have hsrv : srv ∈ w.servers.toList := by
    rw [h.servers]
    exact List.mem_map.mpr ⟨p, hp, hitem⟩
  have hinj : ∀ srv' ∈ w.servers.toList, srv'.ptr = srv.ptr → srv' = srv := fun srv' hsrv' heq =>
    List.inj_on_of_nodup_map h.numbers hsrv' hsrv heq
  have hfind : w.servers.toList.find? (·.ptr = srv.ptr) = some srv := by
    cases hfound : w.servers.toList.find? (·.ptr = srv.ptr) with
    | none =>
        have hne := List.find?_eq_none.mp hfound srv hsrv
        exact absurd (decide_eq_true rfl) hne
    | some srv' =>
        have hnum : srv'.ptr = srv.ptr := by simpa using List.find?_some hfound
        rw [hinj srv' (List.mem_of_find?_eq_some hfound) hnum]
  obtain ⟨h', t', hres, hs', hlist, hentries⟩ := delItem_spec h.stores hrounds hp
  have hservers : (er.rbErase srv.ptr w.servers).toList = t'.toList.map h'.item := by
    have hitems := congrArg (List.map Prod.snd) hentries
    rw [items_entriesOf, entriesOf, List.filter_map, List.map_map] at hitems
    rw [er.toList_rbErase, h.servers, List.filter_map, hitems]
    refine congrArg (List.map _) (List.filter_congr fun q hq => decide_eq_decide.mpr ?_)
    refine not_congr ⟨fun hnum => ?_, fun heq => ?_⟩
    · have hnumbers := h.numbers
      rw [h.servers, List.map_map] at hnumbers
      exact List.inj_on_of_nodup_map hnumbers hq hp (hnum.trans (congrArg StServer.ptr hitem.symm))
    · have hqp : q = p := heq
      rw [hqp, hitem]
  have hsub : (er.rbErase srv.ptr w.servers).toList.Sublist w.servers.toList := by
    rw [er.toList_rbErase]
    exact List.filter_sublist
  refine ⟨(h', s.2), Ref.delStServer er pool w srv, t', ?_, ?_,
    ⟨hs', hservers, h.next, ?_, ?_, ?_⟩, ?_⟩
  · rw [serverCallAt, Rb.delStServer, hres]
    rfl
  · rw [serverCall, hfind]
    rfl
  · exact ⟨h.sorted.proxies, List.Pairwise.sublist hsub h.sorted.servers⟩
  · exact (hsub.map StServer.ptr).nodup h.numbers
  · exact fun srv' hsrv' => h.below srv' (hsub.subset hsrv')
  · rw [hlist, List.length_erase_of_mem hp]
    omega

/-- Both levels do the same, and find the same. -/
theorem serverCalls_same (pool : Pool) {calls : List (Addr × ServerCall)} (h : Same s w t)
    (hrounds : enough (t.toList.length + calls.length) ≤ rounds)
    (hok : AllSteps (serverCallAt rounds) CallOk s calls) :
    ∃ s' sw t', runSteps (serverCallAt rounds) s calls = some s' ∧
      runSteps (serverCall env er) (pool, w) (calls.map Prod.snd) = some sw ∧ Same s' sw.2 t' ∧
      enough t'.toList.length ≤ rounds := by
  induction calls generalizing s w t pool with
  | nil => exact ⟨s, (pool, w), t, rfl, rfl, h, hrounds⟩
  | cons c calls ih =>
      obtain ⟨hc, hrest⟩ := hok
      rw [List.length_cons] at hrounds
      have hnow : enough t.toList.length ≤ rounds := (enough_mono (by omega)).trans hrounds
      obtain ⟨s1, sw1, t1, hs1, hw1, h1, hlen⟩ : ∃ s1 sw1 t1, serverCallAt rounds s c = some s1 ∧
          serverCall env er (pool, w) c.2 = some sw1 ∧ Same s1 sw1.2 t1 ∧
          t1.toList.length ≤ t.toList.length + 1 := by
        obtain ⟨p, c⟩ := c
        cases c with
        | newServer host port weight key =>
            obtain ⟨s1, t1, hs1, h1, hlen⟩ := h.newServer env hnow hc.1 hc.2 host port weight key
            exact ⟨s1, _, t1, hs1, rfl, h1, hlen⟩
        | delServer ptr =>
            obtain ⟨srv, hload, rfl⟩ := hc
            exact h.delServer env er hnow hload pool
      obtain ⟨s2, sw2, t2, hs2, hw2, h2, hrounds2⟩ := @ih s1 sw1.2 t1 sw1.1 h1
        ((enough_mono (by omega)).trans hrounds) (hrest s1 hs1)
      refine ⟨s2, sw2, t2, ?_, ?_, h2, hrounds2⟩
      · rw [runSteps_cons hs1]
        exact hs2
      · rw [List.map_cons, runSteps_cons hw1]
        exact hw2

theorem serverCalls_memory (pool : Pool) (item : Addr → StServer)
    {calls : List (Addr × ServerCall)} (hrounds : 2 * Nat.log 2 (calls.length + 1) + 3 ≤ rounds)
    (hok : AllSteps (serverCallAt rounds) CallOk ({ item := item }, 0) calls) :
    ∃ s sw t, runSteps (serverCallAt rounds) ({ item := item }, 0) calls = some s ∧
      runSteps (serverCall env er) (pool, {}) (calls.map Prod.snd) = some sw ∧
      Stores s.1 t ∧ t.toList.map s.1.item = sw.2.servers.toList ∧
      ∀ key, ∃ q, Rb.findStServer rounds key s.1 = some q ∧
        load s.1 q = Ref.findStServer sw.2.servers key := by
  have hstart : Same ({ item := item }, 0) {} .nil :=
    ⟨stores_empty item, rfl, rfl, ⟨List.Pairwise.nil, List.Pairwise.nil⟩, List.nodup_nil,
      fun _ hs => by cases hs⟩
  have hstartrounds : enough ((ColoredTree.nil : ColoredTree Addr).toList.length + calls.length)
      ≤ rounds := by
    rw [toList, List.length_nil, Nat.zero_add]
    exact hrounds
  obtain ⟨s, sw, t, hs, hw, h, hrounds'⟩ :=
    serverCalls_same env er pool hstart hstartrounds hok
  exact ⟨s, sw, t, hs, hw, h.stores, h.servers.symm, fun key => h.find hrounds' key⟩

end Both

/-- Three servers, one of which is refused, and one that is deleted again. -/
def serverCallsAt : List (Addr × ServerCall) :=
  [(16, .newServer (ascii "b") 1 1 (ascii "m")), (32, .newServer (ascii "a") 1 1 []),
    (48, .newServer (ascii "c") 1 1 (ascii "m")), (16, .delServer 0),
    (16, .newServer (ascii "d") 1 1 (ascii "ma"))]

theorem serverCalls_memory_calls :
    ∃ s sw t, runSteps (serverCallAt 7) ({ item := fun _ => ⟨0, [], 0, 0, []⟩ }, 0) serverCallsAt
        = some s ∧
      runSteps (serverCall plainEnv rebuilding) ([], {}) (serverCallsAt.map Prod.snd) = some sw ∧
      Stores s.1 t ∧ t.toList.map s.1.item = sw.2.servers.toList ∧
      ∀ key, ∃ q, Rb.findStServer 7 key s.1 = some q ∧
        load s.1 q = Ref.findStServer sw.2.servers key :=
  serverCalls_memory plainEnv rebuilding [] _ (by decide) (by decide +kernel)

end Smalltable.Proofs.Rb
