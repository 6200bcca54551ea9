import Smalltable.Lib.Transition
import Smalltable.Proofs.ProxyTrees

/-!
# Routing

Whatever sequence of servers was created and deleted, the tree holds them in
the order of their keys, and no key twice. So `find_st_server` finds the last
server that is not above the key it is given: the keys are divided into the
intervals between the servers.

`Divides` says this of a list of servers, and the order of their keys is all that it
needs. The balancing of the tree keeps the order, so it plays no part.
-/

namespace Smalltable.Proofs

open Smalltable.Ref

/-- Byte by byte, and a proper prefix first. -/
abbrev Before (a b : Bytes) : Prop := List.Lex (fun x y => x < y) a b

theorem before_iff : ∀ {a b : Bytes}, Before a b ↔ ordKey a < ordKey b := by
  intro a
  induction a with
  | nil =>
      intro b
      cases b with
      | nil => simp [ordKey]
      | cons y b => simp [ordKey]
  | cons x a ih =>
      intro b
      cases b with
      | nil => simp [ordKey]
      | cons y b =>
          have ih : List.Lex (fun x y : UInt8 => x < y) a b ↔
              a.map UInt8.toNat < b.map UInt8.toNat := ih
          rw [ordKey, ordKey, List.map_cons, List.map_cons, List.cons_lt_cons_iff, Before,
            List.cons_lex_cons_iff, ih, UInt8.toNat_inj, UInt8.lt_iff_toNat_lt]

theorem not_before_iff {a b : Bytes} : ¬ Before a b ↔ ordKey b ≤ ordKey a := by
  rw [before_iff, not_lt]

/-- A tree of servers that divides the keys among them. -/
structure Divides (servers : Tree StServer) : Prop where
  nodup : (servers.toList.map StServer.key).Nodup
  increasing : (servers.toList.map StServer.key).Pairwise Before
  /-- the greatest key that is not above the given one -/
  found : ∀ key s, findStServer servers key = some s ↔
    s ∈ servers.toList ∧ ¬ Before key s.key ∧
      ∀ u ∈ servers.toList, ¬ Before key u.key → ¬ Before s.key u.key
  notFound : ∀ key, findStServer servers key = none ↔ ∀ u ∈ servers.toList, Before key u.key
  /-- the interval from a server to the next one -/
  interval : ∀ key before s after, servers.toList = before ++ s :: after →
    (findStServer servers key = some s ↔
      ¬ Before key s.key ∧ ∀ next, after.head? = some next → Before key next.key)
  byNext : ∀ rbNext, Tree.IsSuccessor rbNext servers →
    ∀ key, findStServerByNext rbNext servers key = findStServer servers key

theorem divides_of_sorted {servers : Tree StServer}
    (h : servers.Sorted fun s => ordKey s.key) : Divides servers := by
  have hcmp : ∀ (key : Bytes) (s : StServer), keyCmp key s.key < 0 ↔ ordKey key < ordKey s.key :=
    fun key s => keyCmp_lt key s.key
  have hlist : servers.toList.Pairwise fun a b => ordKey a.key < ordKey b.key := h
  have hincreasing : (servers.toList.map StServer.key).Pairwise Before := by
    rw [List.pairwise_map]
    exact hlist.imp before_iff.mpr
  refine ⟨?_, hincreasing, fun key s => ?_, fun key => ?_, fun key before s after hsplit => ?_,
    fun rbNext hnext key => Tree.floorWith_eq_floorBy hnext⟩
  · refine hincreasing.imp fun {a b} hlt (heq : a = b) => ?_
    rw [heq] at hlt
    exact lt_irrefl _ (before_iff.mp hlt)
  · simp only [not_before_iff]
    exact Tree.floorBy_eq_some_iff (hcmp key) h
  · simp only [before_iff]
    exact Tree.floorBy_eq_none_iff (hcmp key) h
  · rw [not_before_iff]
    simp only [before_iff]
    exact Tree.floorBy_eq_some_iff_between (hcmp key) h hsplit

section Calls

variable (env : ProxyEnv) (er : RbErase)

/-- The step lemma. -/
theorem serverCall_sorted {s s' : Pool × ProxyWorld} {c : ServerCall}
    (h : s.2.servers.Sorted fun s => ordKey s.key) (hc : serverCall env er s c = some s') :
    s'.2.servers.Sorted fun s => ordKey s.key := by
  cases c with
  | newServer host port weight key =>
      cases hc
      show ((newStServer env s.2 host port weight key).getD s.2).servers.Sorted _
      unfold newStServer stServerInsert
      simp only []
      cases hins : Tree.insertBy (fun a b : StServer => keyCmp a.key b.key)
          ⟨s.2.nextServer, host, port, weight, key⟩ s.2.servers with
      | none => exact h
      | some t =>
          exact sorted_of_toList (Tree.insertBy_sorted serverOrder h hins)
            (env.toList_rbInsertColor t)
  | delServer ptr =>
      obtain ⟨srv, -, rfl⟩ := Option.map_eq_some_iff.mp hc
      show (er.rbErase srv.ptr s.2.servers).toList.Pairwise _
      rw [er.toList_rbErase]
      exact List.Pairwise.filter _ h

/-- Any sequence of calls, on a proxy without servers. -/
theorem routing_divides {p : Pool} {w : ProxyWorld} {calls : List ServerCall}
    {s : Pool × ProxyWorld} (hempty : w.servers = .leaf)
    (h : runSteps (serverCall env er) (p, w) calls = some s) : Divides s.2.servers := by
  have hstart : (p, w).2.servers.Sorted fun s => ordKey s.key := by
    rw [hempty]
    exact List.Pairwise.nil
  have hall : AllSteps (serverCall env er) (fun _ _ => True) (p, w) calls :=
    allSteps_of_forall (fun _ _ => trivial) calls _
  exact divides_of_sorted (runSteps_invariant
    (P := fun s => s.2.servers.Sorted fun s => ordKey s.key)
    (fun _ _ _ hs _ hc => serverCall_sorted env er hs hc) hstart hall h)

end Calls

/-- The tree rebuilt without the node. -/
def rebuilding : RbErase where
  rbErase := fun ptr t => (t.toList.filter fun s => s.ptr ≠ ptr).foldr (Tree.node .leaf) .leaf
  toList_rbErase := by
    intro ptr t
    induction t.toList.filter fun s => s.ptr ≠ ptr with
    | nil => rfl
    | cons s rest ih => rw [List.foldr_cons, Tree.toList, ih]; rfl

/-- Three servers, one of them asked for twice and one deleted again. -/
def serverCalls : List ServerCall :=
  [.newServer (ascii "b") 1 1 (ascii "m"), .newServer (ascii "a") 1 1 [],
    .newServer (ascii "c") 1 1 (ascii "m"), .newServer (ascii "d") 1 1 (ascii "ma"), .delServer 0]

theorem routing_divides_calls :
    ∃ s, runSteps (serverCall plainEnv rebuilding) ([], {}) serverCalls = some s ∧
      s.2.servers.toList.map StServer.key = [[], ascii "ma"] ∧ Divides s.2.servers := by
  have hrun : (runSteps (serverCall plainEnv rebuilding) ([], {}) serverCalls).map
      (fun s => s.2.servers.toList.map StServer.key) = some [[], ascii "ma"] := by decide
  obtain ⟨s, hs, hkeys⟩ := Option.map_eq_some_iff.mp hrun
  exact ⟨s, hs, hkeys, routing_divides plainEnv rebuilding rfl hs⟩

end Smalltable.Proofs
