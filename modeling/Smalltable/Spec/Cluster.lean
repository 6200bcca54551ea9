import Smalltable.Lib.Shards
import Smalltable.Spec.Store

/-!
# What a cluster is for

Several servers have a store each, and each key is at home in one of the
stores. Seen from outside this is one store: a history of requests, each answered
by the server it is for, is a history of the one map in which every key has the
item that its home has for it (`oneStore_partRun`).

The servers draw CAS values from counters of their own. A history of the one
store therefore leaves open where its CAS values come from, and says where they
go.
-/

namespace Smalltable.Spec

open Smalltable.Ref

/-- What a request does to one store, when the CAS value it may draw is `cas`. -/
def serveWith (cas : Nat) (m : Map) (req : StReq) : Map × Response :=
  let r := serveStep (fun n => (n, cas)) ⟨m, 0⟩ req
  (r.1.map, r.2)

/-- A history of one store, with its answers. -/
inductive OneStore : Map → List StReq → List Response → Map → Prop where
  | nil (m : Map) : OneStore m [] [] m
  | cons {m m' : Map} {req : StReq} {rest : List StReq} {rs : List Response} (cas : Nat)
      (h : OneStore (serveWith cas m req).1 rest rs m') :
      OneStore m (req :: rest) ((serveWith cas m req).2 :: rs) m'

theorem OneStore.append {m m1 m2 : Map} {reqs more : List StReq} {rs ts : List Response}
    (h : OneStore m reqs rs m1) (h' : OneStore m1 more ts m2) :
    OneStore m (reqs ++ more) (rs ++ ts) m2 := by
  induction h with
  | nil m => exact h'
  | cons cas _ ih => exact .cons cas (ih h')

/-! ## A request looks at its own key only -/

section Step

variable {draw : Nat → Nat × Nat} {st : State} {req : StReq} {m : Map}

theorem step_other {key : Bytes} (hkey : key ≠ req.key) (hop : IsStoreOpcode req.opcode) :
    (step draw st req).1.map key = st.map key := by
  rw [step_map_eq_observe draw st req hop key, observe,
    if_neg fun h => hkey h.2.symm]

/-- On another map with the same item, and with the CAS value drawn there. -/
theorem step_eq_on (draw : Nat → Nat × Nat) (hm : m req.key = st.map req.key) :
    (step (fun n => (n, (draw st.counter).2)) ⟨m, 0⟩ req).2 = (step draw st req).2 ∧
    (step (fun n => (n, (draw st.counter).2)) ⟨m, 0⟩ req).1.map
      = Function.update m req.key ((step draw st req).1.map req.key) := by
  have hsame : Function.update m req.key (st.map req.key) = m := by
    rw [← hm, Function.update_eq_self]
  rw [step, step]
  split
  · exact ⟨rfl, hsame.symm⟩
  · split
    · simp only [hm]
      split
      · exact ⟨rfl, hsame.symm⟩
      · exact ⟨rfl, hsame.symm⟩
    · split
      · simp only [hm]
        split
        · exact ⟨rfl, hsame.symm⟩
        · refine ⟨rfl, ?_⟩
          simp only [Function.update_self]
      · have haccepts : Accepts m req ↔ Accepts st.map req := by
          rw [Accepts, Accepts, hm]
        have hrefusal : refusalStatus m req = refusalStatus st.map req := by
          rw [refusalStatus, refusalStatus, hm]
        by_cases hacc : Accepts st.map req
        · simp only [if_pos hacc, if_pos (haccepts.mpr hacc), Function.update_self]
          exact ⟨trivial, trivial⟩
        · simp only [if_neg hacc, if_neg fun h => hacc (haccepts.mp h), hrefusal]
          exact ⟨trivial, hsame.symm⟩

theorem serveStep_other {key : Bytes} (hkey : key ≠ req.key) :
    (serveStep draw st req).1.map key = st.map key := by
  rw [serveStep]
  split
  · next hop => exact step_other hkey hop
  · split
    · rfl
    · split
      · rfl
      · rfl

/-- The other commands do not look at the store. -/
theorem serveStep_plain (draw : Nat → Nat × Nat) (st : State)
    (hop : ¬ IsStoreOpcode req.opcode) :
    (serveStep draw st req).1 = st ∧
    ∀ (draw' : Nat → Nat × Nat) (st' : State),
      (serveStep draw' st' req).2 = (serveStep draw st req).2 := by
  simp only [serveStep, if_neg hop]
  split
  · exact ⟨rfl, fun _ _ => rfl⟩
  · split
    · exact ⟨rfl, fun _ _ => rfl⟩
    · exact ⟨rfl, fun _ _ => rfl⟩

theorem serveWith_plain (hop : ¬ IsStoreOpcode req.opcode) (cas : Nat) :
    serveWith cas m req = (m, (serveStep draw st req).2) := by
  obtain ⟨hstate, hanswer⟩ := serveStep_plain draw st hop
  obtain ⟨hstate', -⟩ := serveStep_plain (fun n => (n, cas)) ⟨m, 0⟩ hop
  rw [serveWith, hstate', hanswer]

theorem serveWith_eq_on (hop : IsStoreOpcode req.opcode) (hm : m req.key = st.map req.key) :
    serveWith (draw st.counter).2 m req
      = (Function.update m req.key ((serveStep draw st req).1.map req.key),
          (serveStep draw st req).2) := by
  obtain ⟨hanswer, hmap⟩ := step_eq_on draw hm
  simp only [serveWith, serveStep, if_pos hop, hanswer, hmap]

end Step

/-! ## The stores of all servers -/

section Cluster

variable {ι R : Type} [DecidableEq ι] (draw : Nat → Nat × Nat) (unpack : R → StReq)
  (owner : R → ι) (home : Bytes → ι)

/-- Each server serves what is for it. -/
def serveParts : (ι → State) → List R → (ι → State) × List Response :=
  partRun (fun st r => serveStep draw st (unpack r)) owner

/-- The map of the cluster. -/
def wholeMap (s : ι → State) : Map := joined State.map home s

variable {draw unpack owner home}

variable (draw) in
theorem wholeMap_partStep {s : ι → State} {r : R}
    (hhome : IsStoreOpcode (unpack r).opcode → owner r = home (unpack r).key) :
    ∃ cas, serveWith cas (wholeMap home s) (unpack r)
      = (wholeMap home (partStep (fun st r => serveStep draw st (unpack r)) owner s r).1,
          (partStep (fun st r => serveStep draw st (unpack r)) owner s r).2) := by
  by_cases hop : IsStoreOpcode (unpack r).opcode
  · refine ⟨(draw (s (owner r)).counter).2, ?_⟩
    have hjoined : wholeMap home (partStep (fun st r => serveStep draw st (unpack r)) owner s r).1
        = Function.update (wholeMap home s) (unpack r).key
            ((serveStep draw (s (owner r)) (unpack r)).1.map (unpack r).key) :=
      joined_partStep (fun r => (unpack r).key) (fun k hk => serveStep_other hk) (hhome hop)
    rw [hjoined]
    refine serveWith_eq_on hop ?_
    rw [wholeMap, joined, ← hhome hop]
  · refine ⟨0, ?_⟩
    have hjoined : wholeMap home (partStep (fun st r => serveStep draw st (unpack r)) owner s r).1
        = wholeMap home s :=
      joined_partStep_same fun k => by rw [(serveStep_plain draw _ hop).1]
    rw [hjoined]
    exact serveWith_plain hop 0

/-- The servers together are one store. -/
theorem oneStore_partRun (reqs : List R) (s : ι → State)
    (hhome : ∀ r ∈ reqs, IsStoreOpcode (unpack r).opcode → owner r = home (unpack r).key) :
    OneStore (wholeMap home s) (reqs.map unpack) (serveParts draw unpack owner s reqs).2
      (wholeMap home (serveParts draw unpack owner s reqs).1) := by
  induction reqs generalizing s with
  | nil => exact .nil _
  | cons r rest ih =>
      obtain ⟨cas, hcas⟩ := wholeMap_partStep draw (s := s) (hhome r List.mem_cons_self)
      have hrest := ih (partStep (fun st r => serveStep draw st (unpack r)) owner s r).1
        fun q hq => hhome q (List.mem_cons_of_mem _ hq)
      show OneStore _ (unpack r :: rest.map unpack)
        ((partStep (fun st r => serveStep draw st (unpack r)) owner s r).2 :: _) _
      rw [← congrArg Prod.snd hcas]
      refine .cons cas ?_
      rw [congrArg Prod.fst hcas]
      exact hrest

end Cluster

end Smalltable.Spec
