import Smalltable.Proofs.StoreRefine

/-!
# Check-and-set

A client that wants to change an item reads it, keeps the CAS value of the
answer, and stores with that value: the store should only succeed if nobody
stored in between. The values come from a counter, but `cmd_set` takes the
value of `++unique_number || ++unique_number`, and a C logical or is 0 or 1:
every item gets the CAS value 1 (`nextCas_eq_one`), so a token that was read
once fits every later item of its key.

Histories are judged from outside, by the bytes of the requests and of their
answers (`NoLostUpdate`, `FreshTokens`). `checkAndSet_iff` says exactly which
of them are safe: those in which no key is stored twice. That condition is
about the requests and the map they meet, not about the answers.

That a history is safe does not mean that CAS works, as a token from the server fits
every later item of its key. It means that there was no second store to be lost.
-/

namespace Smalltable.Proofs

open Smalltable.Ref Smalltable.Spec

/-! ## Safe histories

`NoLostUpdate` is about a lookup, a store with its token and what was stored in between,
`FreshTokens` about two stores of one key. Nothing of the server is in them but the
bytes that it has read and answered. -/

/-- A request with its response. -/
abbrev Transaction := Bytes × Bytes

namespace Transaction

/-- A successful store of `key`. -/
def StoresKey (key : Bytes) (e : Transaction) : Prop :=
  IsStore (mcGetOpcode e.1) ∧ reqbufGetKey e.1 = key ∧ mcGetStatus e.2 = memcacheStatusOk

instance (key : Bytes) (e : Transaction) : Decidable (e.StoresKey key) :=
  inferInstanceAs (Decidable (_ ∧ _))

/-- A GET of `key` that was answered with the CAS token `c`. -/
def ReadsToken (key : Bytes) (c : Nat) (e : Transaction) : Prop :=
  mcGetOpcode e.1 = memcacheCmdGet ∧ reqbufGetKey e.1 = key ∧
    mcGetStatus e.2 = memcacheStatusOk ∧ mcGetCas e.2 = c

/-- A successful SET of `key` that quoted the token `c`. -/
def QuotesToken (key : Bytes) (c : Nat) (e : Transaction) : Prop :=
  mcGetOpcode e.1 = memcacheCmdSet ∧ e.StoresKey key ∧ mcGetCas e.1 = c

end Transaction

/-- Between a GET that was given a token and a SET that succeeds with it, no
store of that key succeeded. -/
def NoLostUpdate (es : List Transaction) : Prop :=
  ∀ key c before get between set after,
    es = before ++ get :: between ++ set :: after →
    get.ReadsToken key c → set.QuotesToken key c →
    ∀ e ∈ between, ¬ Transaction.StoresKey key e

/-- No two successful stores of a key carry the same CAS value. -/
def FreshTokens (es : List Transaction) : Prop :=
  es.Pairwise fun e f => ∀ key, e.StoresKey key → f.StoresKey key → mcGetCas e.2 ≠ mcGetCas f.2

/-- The keys that are stored, in order, seen from the requests and the map each
of them meets. -/
def acceptedKeys (draw : Nat → Nat × Nat) : State → List StReq → List Bytes
  | _, [] => []
  | st, req :: rest =>
      let tail := acceptedKeys draw (step draw st req).1 rest
      if validArguments req ∧ IsStore req.opcode ∧ Accepts st.map req then req.key :: tail
      else tail

/-! ## What the answers show

An answer to a store shows whether it was accepted; an answer to a lookup shows the
token, and that is 1 for every item that the server has stored. So as soon as one key is
stored twice, both stores carry the same token. -/

theorem nextCas_eq_one (u : Nat) : (nextCas u).2 = 1 := by
  simp only [nextCas]
  split
  · rfl
  · next hzero =>
      have hu : (u + 1) % 2 ^ 64 = 0 := not_not.mp hzero
      rw [hu]
      rfl

/-- A store is answered OK exactly when it is accepted, and then with the CAS
value 1. -/
theorem step_store_status (st : State) {req : StReq} (hop : IsStore req.opcode) :
    ((step nextCas st req).2.status % 2 ^ 16 = memcacheStatusOk ↔
      validArguments req ∧ IsStore req.opcode ∧ Accepts st.map req) ∧
    (Accepts st.map req → validArguments req → (step nextCas st req).2.cas = 1) := by
  have hget : req.opcode ≠ memcacheCmdGet := by
    rcases hop with h | h | h <;> rw [h] <;> decide
  have hdel : req.opcode ≠ memcacheCmdDelete := by
    rcases hop with h | h | h <;> rw [h] <;> decide
  rw [step, if_neg hget, if_neg hdel]
  by_cases hv : validArguments req = false
  · rw [if_pos hv]
    refine ⟨⟨fun hbad => absurd hbad (by show ¬ 4 % 2 ^ 16 = 0; decide), ?_⟩, ?_⟩
    · rintro ⟨hv', -⟩
      rw [hv] at hv'
      exact absurd hv' (by decide)
    · intro _ hv'
      rw [hv] at hv'
      exact absurd hv' (by decide)
  · have hv' : validArguments req = true := by simpa using hv
    rw [if_neg hv]
    simp only []
    by_cases hacc : Accepts st.map req
    · rw [if_pos hacc]
      exact ⟨⟨fun _ => ⟨hv', hop, hacc⟩, fun _ => rfl⟩, fun _ _ => nextCas_eq_one _⟩
    · rw [if_neg hacc]
      refine ⟨⟨fun hbad => ?_, fun h => absurd h.2.2 hacc⟩, fun h => absurd h hacc⟩
      have hne : refusalStatus st.map req % 2 ^ 16 ≠ memcacheStatusOk := by
        rw [refusalStatus]
        split
        · decide
        · split <;> decide
      exact absurd hbad hne

theorem storesKey_iff (st : State) (request key : Bytes) :
    Transaction.StoresKey key (request, (step nextCas st (unpackRequest request)).2.frame) ↔
      (validArguments (unpackRequest request) ∧ IsStore (unpackRequest request).opcode ∧
        Accepts st.map (unpackRequest request)) ∧ (unpackRequest request).key = key := by
  constructor
  · rintro ⟨hop, hkey, hstatus⟩
    rw [Response.mcGetStatus_frame] at hstatus
    exact ⟨(step_store_status st hop).1.mp hstatus, hkey⟩
  · rintro ⟨hacc, hkey⟩
    have hop : IsStore (unpackRequest request).opcode := hacc.2.1
    refine ⟨hop, hkey, ?_⟩
    rw [Response.mcGetStatus_frame]
    exact (step_store_status st hop).1.mpr hacc

theorem storesKey_cas {st : State} {request key : Bytes}
    (h : Transaction.StoresKey key (request, (step nextCas st (unpackRequest request)).2.frame)) :
    mcGetCas (step nextCas st (unpackRequest request)).2.frame = 1 := by
  obtain ⟨⟨hv, hop, hacc⟩, -⟩ := (storesKey_iff st request key).mp h
  rw [Response.mcGetCas_frame, (step_store_status st hop).2 hacc hv]
  rfl

/-- The exchanges of a history, as the specification has them. -/
def exchanges (st : State) (requests : List Bytes) : List Transaction :=
  requests.zip ((run nextCas st (requests.map unpackRequest)).2.map Response.frame)

theorem exchanges_cons (st : State) (request : Bytes) (rest : List Bytes) :
    exchanges st (request :: rest)
      = (request, (step nextCas st (unpackRequest request)).2.frame) ::
          exchanges (step nextCas st (unpackRequest request)).1 rest := rfl

theorem exchanges_cas {st : State} {requests : List Bytes} {e : Transaction} {key : Bytes}
    (he : e ∈ exchanges st requests) (hs : e.StoresKey key) : mcGetCas e.2 = 1 := by
  induction requests generalizing st with
  | nil => exact absurd he (by simp [exchanges])
  | cons request rest ih =>
      rw [exchanges_cons] at he
      rcases List.mem_cons.mp he with rfl | hrest
      · exact storesKey_cas hs
      · exact ih hrest

theorem mem_acceptedKeys {st : State} {requests : List Bytes} {key : Bytes} :
    key ∈ acceptedKeys nextCas st (requests.map unpackRequest) ↔
      ∃ e ∈ exchanges st requests, e.StoresKey key := by
  induction requests generalizing st with
  | nil => simp [acceptedKeys, exchanges]
  | cons request rest ih =>
      rw [exchanges_cons, List.exists_mem_cons_iff, storesKey_iff, ← ih, List.map_cons,
        acceptedKeys]
      split
      · next hacc =>
          rw [List.mem_cons]
          exact or_congr ⟨fun h => ⟨hacc, h.symm⟩, fun h => h.2.symm⟩ Iff.rfl
      · next hacc =>
          exact ⟨.inr, fun h => h.resolve_left fun hc => hacc hc.1⟩

/-- No key twice among the accepted ones, said of the exchanges. -/
theorem acceptedKeys_nodup_iff {st : State} {requests : List Bytes} :
    (acceptedKeys nextCas st (requests.map unpackRequest)).Nodup ↔
      (exchanges st requests).Pairwise fun e f =>
        ∀ key, e.StoresKey key → ¬ Transaction.StoresKey key f := by
  induction requests generalizing st with
  | nil => simp [acceptedKeys, exchanges]
  | cons request rest ih =>
      rw [exchanges_cons, List.pairwise_cons, ← ih, List.map_cons, acceptedKeys]
      split
      · next hacc =>
          rw [List.nodup_cons, mem_acceptedKeys]
          refine and_congr_left fun _ => ⟨fun h f hf key hs hfs => ?_, fun h hex => ?_⟩
          · obtain ⟨-, hkey⟩ := (storesKey_iff st request key).mp hs
            exact h ⟨f, hf, hkey ▸ hfs⟩
          · obtain ⟨f, hf, hfs⟩ := hex
            exact h f hf _ ((storesKey_iff st request _).mpr ⟨hacc, rfl⟩) hfs
      · next hacc =>
          refine ⟨fun h => ⟨fun f _ key hs => ?_, h⟩, fun h => h.2⟩
          exact absurd ((storesKey_iff st request key).mp hs).1 hacc

/-- Since all tokens are equal, tokens are fresh only where no key is stored
twice, and there an update cannot be lost either. -/
theorem exchanges_safe_iff (st : State) (requests : List Bytes) :
    (NoLostUpdate (exchanges st requests) ∧ FreshTokens (exchanges st requests)) ↔
      (acceptedKeys nextCas st (requests.map unpackRequest)).Nodup := by
  rw [acceptedKeys_nodup_iff]
  constructor
  · rintro ⟨-, hfresh⟩
    refine List.Pairwise.imp_of_mem ?_ hfresh
    intro e f he hf hne key hes hfs
    exact hne key hes hfs ((exchanges_cas he hes).trans (exchanges_cas hf hfs).symm)
  · intro honce
    refine ⟨?_, honce.imp fun h key hes hfs => absurd hfs (h key hes)⟩
    intro key c before get between set after heq _ hset e he hes
    rw [heq, List.pairwise_append] at honce
    exact honce.2.2 e (List.mem_append_right _ (List.mem_cons_of_mem _ he)) set
      List.mem_cons_self key hes hset.2.1

/-! ## The server's histories -/

section Server

variable {σ γ : Type} (eng : MapEngine σ) (vx : Vx γ) (cfg : Config γ)

/-- Check-and-set protects a history exactly when it stores no key twice. -/
theorem checkAndSet_iff {w : World σ γ} {m : Map} (h : Represents eng w.store m)
    (hslots : w.BuiltinsIntact) (history : List (Io × Bytes))
    (hreq : ∀ r ∈ history, StoreRequest r.2) :
    ∃ w' responses, serveAll eng.toStStorageApi vx cfg w history = some (w', responses) ∧
      ((NoLostUpdate ((history.map Prod.snd).zip responses) ∧
          FreshTokens ((history.map Prod.snd).zip responses)) ↔
        (acceptedKeys nextCas ⟨m, w.uniqueNumber⟩
          (history.map fun r => unpackRequest r.2)).Nodup) := by
  obtain ⟨w', hall, -⟩ := serveAll_refines eng vx cfg h hslots hreq
  refine ⟨w', _, hall, ?_⟩
  have hsafe := exchanges_safe_iff ⟨m, w.uniqueNumber⟩ (history.map Prod.snd)
  rw [exchanges, List.map_map] at hsafe
  exact hsafe

end Server

/-- One client stores and another reads; the first stores again, and the
second's store over the value it read still succeeds. -/
def lostUpdateHistory : List (Io × Bytes) :=
  [({}, setRequest "a" "1" 0), ({}, getRequest "a"), ({}, setRequest "a" "2" 0),
    ({}, setRequest "a" "3" 1)]

theorem lostUpdateHistory_storeRequests : ∀ r ∈ lostUpdateHistory, StoreRequest r.2 := by
  have h : ∀ request ∈ lostUpdateHistory.map Prod.snd, StoreRequest request := by decide
  exact fun r hr => h r.2 (List.mem_map_of_mem hr)

theorem checkAndSet_lostUpdate :
    ∃ w' responses, serveAll mapEngine.toStStorageApi idleVx plainConfig freshWorld
        lostUpdateHistory = some (w', responses) ∧
      ¬ NoLostUpdate ((lostUpdateHistory.map Prod.snd).zip responses) := by
  obtain ⟨w', hall, -⟩ := serveAll_refines mapEngine idleVx plainConfig (w := freshWorld)
    represents_empty (fun _ _ => rfl) lostUpdateHistory_storeRequests
  refine ⟨w', _, hall, fun hsafe => ?_⟩
  refine hsafe (ascii "a") 1 [_] _ [_] _ [] rfl ?_ ?_ _ List.mem_cons_self ?_
  · exact ⟨by decide, by decide, by decide, by decide⟩
  · exact ⟨by decide, ⟨by decide, by decide, by decide⟩, by decide⟩
  · exact ⟨by decide, by decide, by decide⟩

/-- Two clients that store different keys do not meet. -/
theorem checkAndSet_iff_twoKeys :
    ∃ w' responses, serveAll mapEngine.toStStorageApi idleVx plainConfig freshWorld
        [({}, setRequest "a" "1" 0), ({}, setRequest "b" "1" 0)] = some (w', responses) ∧
      ((NoLostUpdate ([setRequest "a" "1" 0, setRequest "b" "1" 0].zip responses) ∧
          FreshTokens ([setRequest "a" "1" 0, setRequest "b" "1" 0].zip responses)) ↔
        (acceptedKeys nextCas ⟨fun _ => none, 0⟩
          [unpackRequest (setRequest "a" "1" 0), unpackRequest (setRequest "b" "1" 0)]).Nodup) := by
  refine checkAndSet_iff mapEngine idleVx plainConfig (w := freshWorld) represents_empty
    (fun _ _ => rfl) [({}, setRequest "a" "1" 0), ({}, setRequest "b" "1" 0)] ?_
  intro r hr
  rcases List.mem_cons.mp hr with rfl | hr
  · show StoreRequest (setRequest "a" "1" 0)
    decide
  · rw [List.mem_singleton.mp hr]
    show StoreRequest (setRequest "b" "1" 0)
    decide

end Smalltable.Proofs
