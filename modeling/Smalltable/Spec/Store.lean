import Mathlib.Logic.Function.Basic
import Smalltable.Proofs.Framing
import Smalltable.Ref.Storage

/-!
# What the store commands are for

A store is a map from keys to items, and an item is a value with its flags,
expiration and CAS value. This file says what GET, SET, ADD, REPLACE and
DELETE do to such a map and what they answer, without buffers, byte orders or
an engine.

The CAS value of a store is drawn from a counter. How the counter turns into a
value is left to a function `draw`, so that the specification says where the
values go and nothing about what they are.

`MapEngine` is the other end: a storage engine whose `get`, `set` and `del`
act on a map from keys to byte strings, seen through `view`. `HidesReadahead`
asks less of an engine: only that what it reads ahead is not seen.
-/

namespace Smalltable.Spec

open Smalltable.Ref

structure Item where
  value : Bytes
  flags : Nat
  expiration : Nat
  cas : Nat
  deriving DecidableEq

abbrev Map := Bytes → Option Item

/-- The requests this file is about: the five opcodes. -/
def IsStoreOpcode (op : UInt8) : Prop :=
  op = memcacheCmdGet ∨ op = memcacheCmdSet ∨ op = memcacheCmdAdd ∨
    op = memcacheCmdReplace ∨ op = memcacheCmdDelete

instance (op : UInt8) : Decidable (IsStoreOpcode op) :=
  inferInstanceAs (Decidable (_ ∨ _))

def IsStore (op : UInt8) : Prop :=
  op = memcacheCmdSet ∨ op = memcacheCmdAdd ∨ op = memcacheCmdReplace

instance (op : UInt8) : Decidable (IsStore op) := inferInstanceAs (Decidable (_ ∨ _))

/-- When SET, ADD and REPLACE store. -/
def Accepts (m : Map) (req : StReq) : Prop :=
  (req.cas = 0 ∨ (m req.key).any (fun it => it.cas = req.cas)) ∧
  (req.opcode = memcacheCmdAdd → m req.key = none) ∧
  (req.opcode = memcacheCmdReplace → m req.key ≠ none)

instance (m : Map) (req : StReq) : Decidable (Accepts m req) :=
  inferInstanceAs (Decidable (_ ∧ _))

/-- And what they answer when they do not: the CAS value is looked at first,
then the opcode's own demand. -/
def refusalStatus (m : Map) (req : StReq) : Nat :=
  match m req.key with
  | none => memcacheStatusKeyNotFound
  | some it =>
      if req.cas ≠ 0 ∧ it.cas ≠ req.cas then memcacheStatusItemNotStored
      else memcacheStatusKeyExists

/-- Which of extras, key and value a request may carry. -/
def validArguments (req : StReq) : Bool :=
  if req.opcode = memcacheCmdGet ∨ req.opcode = memcacheCmdDelete then
    req.extras = [] ∧ req.key ≠ [] ∧ req.value = []
  else req.extras.length = 8 ∧ req.key ≠ []

def newItem (req : StReq) (cas : Nat) : Item :=
  { value := req.value
    flags := beVal (slice req.extras 0 4)
    expiration := beVal (slice req.extras 4 4)
    cas := cas }

/-- A map, and the counter the next CAS value is drawn from. -/
structure State where
  map : Map
  counter : Nat

/-- The bare answer to a request. -/
def answer (req : StReq) (status : Nat) : Response :=
  { opcode := req.opcode, opaqueId := req.opaqueId, status := status }

/-- An error answer carries its message. -/
def failure (req : StReq) (status : Nat) : Response :=
  { answer req status with value := (errorCodes status).getD [] }

def step (draw : Nat → Nat × Nat) (st : State) (req : StReq) : State × Response :=
  if validArguments req = false then (st, failure req memcacheStatusInvalidArguments)
  else if req.opcode = memcacheCmdGet then
    match st.map req.key with
    | none => (st, failure req memcacheStatusKeyNotFound)
    | some it =>
        (st, { answer req memcacheStatusOk with
                 cas := it.cas, extras := beBytes 4 it.flags, value := it.value })
  else if req.opcode = memcacheCmdDelete then
    if st.map req.key = none then (st, failure req memcacheStatusKeyNotFound)
    else ({ st with map := Function.update st.map req.key none }, answer req memcacheStatusOk)
  else
    let drawn := draw st.counter
    if Accepts st.map req then
      ({ map := Function.update st.map req.key (some (newItem req drawn.2)),
         counter := drawn.1 },
        { answer req memcacheStatusOk with cas := drawn.2 })
    else ({ st with counter := drawn.1 }, failure req (refusalStatus st.map req))

/-- A whole history, with its answers. -/
def run (draw : Nat → Nat × Nat) : State → List StReq → State × List Response
  | st, [] => (st, [])
  | st, req :: rest =>
      let r := step draw st req
      let t := run draw r.1 rest
      (t.1, r.2 :: t.2)

/-! ## The other commands on a connection

NOOP and VERSION do not touch the map. All builtin commands are subject to one
more rule: when the output that waits for the client has reached
`3 * MAX_REQUEST_SIZE` bytes, a request is refused without being looked at. -/

def IsDataOpcode (op : UInt8) : Prop :=
  IsStoreOpcode op ∨ op = memcacheCmdNoop ∨ op = memcacheCmdVersion

instance (op : UInt8) : Decidable (IsDataOpcode op) := inferInstanceAs (Decidable (_ ∨ _))

def versionText : Bytes := ascii "smalltable-0.0.1"

def serveStep (draw : Nat → Nat × Nat) (st : State) (req : StReq) : State × Response :=
  if IsStoreOpcode req.opcode then step draw st req
  else if req.extras ≠ [] ∨ req.key ≠ [] ∨ req.value ≠ [] then
    (st, failure req memcacheStatusInvalidArguments)
  else if req.opcode = memcacheCmdVersion then
    (st, { answer req memcacheStatusOk with value := versionText })
  else (st, answer req memcacheStatusOk)

/-- Requests one at a time, none of them refused for the output. -/
def serveRun (draw : Nat → Nat × Nat) : State → List StReq → State × List Response
  | st, [] => (st, [])
  | st, req :: rest =>
      let r := serveStep draw st req
      let t := serveRun draw r.1 rest
      (t.1, r.2 :: t.2)

theorem serveRun_append (draw : Nat → Nat × Nat) (st : State) (a b : List StReq) :
    serveRun draw st (a ++ b)
      = ((serveRun draw (serveRun draw st a).1 b).1,
          (serveRun draw st a).2 ++ (serveRun draw (serveRun draw st a).1 b).2) := by
  induction a generalizing st with
  | nil => rfl
  | cons req rest ih => simp only [List.cons_append, serveRun, ih]

/-- Every request gets one answer. -/
theorem length_serveRun (draw : Nat → Nat × Nat) (st : State) (reqs : List StReq) :
    (serveRun draw st reqs).2.length = reqs.length := by
  induction reqs generalizing st with
  | nil => rfl
  | cons req rest ih => simp only [serveRun, List.length_cons, ih]

def outputLimit : Nat := 3 * maxRequestSize

/-- The refusal of a request that came with too much output waiting. -/
def overloaded (req : StReq) : Response :=
  { answer req memcacheStatusInternalError with value := ascii "Unknown error code" }

/-- A batch, with `used` bytes of output waiting in front of it. -/
def batchRun (draw : Nat → Nat × Nat) : State → Nat → List StReq → State × List Response
  | st, _, [] => (st, [])
  | st, used, req :: rest =>
      let r := if used < outputLimit then serveStep draw st req else (st, overloaded req)
      let t := batchRun draw r.1 (used + r.2.frame.length) rest
      (t.1, r.2 :: t.2)

/-- The bytes of a list of answers. -/
def bytesOf (rs : List Response) : Bytes := (rs.map Response.frame).flatten

theorem bytesOf_cons (r : Response) (rs : List Response) :
    bytesOf (r :: rs) = r.frame ++ bytesOf rs := rfl

theorem le_length_bytesOf (rs : List Response) : 24 * rs.length ≤ (bytesOf rs).length := by
  induction rs with
  | nil => exact Nat.le_refl _
  | cons r rest ih =>
      have hr := r.length_frame
      rw [memcacheHeaderSize_eq] at hr
      rw [bytesOf_cons, List.length_append, List.length_cons]
      omega

theorem bytesOf_append (rs ts : List Response) : bytesOf (rs ++ ts) = bytesOf rs ++ bytesOf ts := by
  rw [bytesOf, List.map_append, List.flatten_append]
  rfl

/-- Below the limit to the end, a batch is its requests one at a time. -/
theorem batchRun_eq_serveRun {draw : Nat → Nat × Nat} {reqs : List StReq} {st : State}
    {used : Nat}
    (h : used + (bytesOf (serveRun draw st reqs).2).length < outputLimit + 24) :
    batchRun draw st used reqs = serveRun draw st reqs := by
  induction reqs generalizing st used with
  | nil => rfl
  | cons req rest ih =>
      have hsum : (bytesOf (serveRun draw st (req :: rest)).2).length
          = (serveStep draw st req).2.frame.length
            + (bytesOf (serveRun draw (serveStep draw st req).1 rest).2).length := by
        rw [serveRun, bytesOf_cons, List.length_append]
      have hframe := (serveStep draw st req).2.length_frame
      rw [memcacheHeaderSize_eq] at hframe
      rw [hsum] at h
      simp only [batchRun, serveRun]
      rw [if_pos (by omega), ih (by omega)]

/-! ## What an observer can say about the map

The answers tell which stores and deletes succeeded and which CAS value each
store got, so the requests and answers of a history determine what the map has
for a key. -/

/-- What one request and its answer do to the item of `key`. -/
def observe (key : Bytes) (it : Option Item) (req : StReq) (r : Response) : Option Item :=
  if r.status = memcacheStatusOk ∧ req.key = key then
    if IsStore req.opcode then some (newItem req r.cas)
    else if req.opcode = memcacheCmdDelete then none
    else it
  else it

/-- The item the last successful store of `key` put there, if no successful
delete came after it; `it` when the history has neither. -/
def lastStore : List (StReq × Response) → Bytes → Option Item → Option Item
  | [], _, it => it
  | (req, r) :: rest, key, it => lastStore rest key (observe key it req r)

theorem step_map_eq_observe (draw : Nat → Nat × Nat) (st : State) (req : StReq)
    (hop : IsStoreOpcode req.opcode) (key : Bytes) :
    (step draw st req).1.map key = observe key (st.map key) req (step draw st req).2 := by
  have hnotOk : ∀ status, status ≠ memcacheStatusOk →
      observe key (st.map key) req (Spec.failure req status) = st.map key := by
    intro status hne
    rw [observe, if_neg]
    exact fun hc => hne hc.1
  rw [step]
  split
  · exact (hnotOk _ (by decide)).symm
  · split
    · next hget =>
        have hns : ¬ IsStore req.opcode := by rw [hget]; decide
        have hnd : req.opcode ≠ memcacheCmdDelete := by rw [hget]; decide
        split
        · exact (hnotOk _ (by decide)).symm
        · simp only [observe, if_neg hns, if_neg hnd, ite_self]
    · split
      · next hdel =>
          have hns : ¬ IsStore memcacheCmdDelete := by decide
          split
          · exact (hnotOk _ (by decide)).symm
          · by_cases hk : req.key = key
            · subst hk
              simp [observe, hdel, hns, answer]
            · rw [observe, if_neg (fun hc => hk hc.2)]
              exact Function.update_of_ne (fun he => hk he.symm) _ _
      · next hget hdel =>
          have hs : IsStore req.opcode := by
            rcases hop with h | h | h | h | h
            · exact absurd h hget
            · exact .inl h
            · exact .inr (.inl h)
            · exact .inr (.inr h)
            · exact absurd h hdel
          simp only []
          split
          · by_cases hk : req.key = key
            · subst hk
              simp [observe, hs, answer]
            · rw [observe, if_neg (fun hc => hk hc.2)]
              exact Function.update_of_ne (fun he => hk he.symm) _ _
          · refine (hnotOk _ ?_).symm
            rw [refusalStatus]
            split
            · decide
            · split <;> decide

theorem run_map_eq_lastStore {draw : Nat → Nat × Nat} (reqs : List StReq) (st : State)
    (hop : ∀ req ∈ reqs, IsStoreOpcode req.opcode) (key : Bytes) :
    (run draw st reqs).1.map key
      = lastStore (reqs.zip (run draw st reqs).2) key (st.map key) := by
  induction reqs generalizing st with
  | nil => rfl
  | cons req rest ih =>
      have hstep := step_map_eq_observe draw st req (hop req List.mem_cons_self) key
      have hrest := ih (step draw st req).1 fun q hq => hop q (List.mem_cons_of_mem _ hq)
      simp only [run, List.zip_cons_cons, lastStore]
      rw [hrest, hstep]

/-! ## Engines that behave as a map -/

/-- A storage engine that acts as a map from keys to byte strings. `get` may do
as it likes when the caller has too little room. -/
structure MapEngine (σ : Type) extends StStorageApi σ where
  view : σ → Bytes → Option Bytes
  get_view : ∀ (s : σ) (size : Int) (key : Bytes),
    (∀ v, view s key = some v → (v.length : Int) ≤ size) → get s size key = view s key
  set_view : ∀ (s : σ) (v key : Bytes), view (set s v key).1 = Function.update (view s) key (some v)
  set_ret : ∀ (s : σ) (v key : Bytes), 0 ≤ (set s v key).2
  del_view : ∀ (s : σ) (key : Bytes), view (del s key).1 = Function.update (view s) key none
  del_ret : ∀ (s : σ) (key : Bytes), (del s key).2 < 0 ↔ view s key = none
  readahead_view : ∀ (f : σ → List Bytes → σ), readahead = some f →
    ∀ (s : σ) (keys : List Bytes), view (f s keys) = view s

/-- An engine over the map itself. -/
def mapEngine : MapEngine (Bytes → Option Bytes) where
  get := fun s size key =>
    match s key with
    | none => none
    | some v => if (v.length : Int) ≤ size then some v else none
  set := fun s v key => (Function.update s key (some v), v.length)
  del := fun s key => (Function.update s key none, if s key = none then -1 else 0)
  view := fun s => s
  get_view := by
    intro s size key h
    cases hv : s key with
    | none => rfl
    | some v => simp only [if_pos (h v hv)]
  set_view := fun _ _ _ => rfl
  set_ret := fun _ v _ => Int.natCast_nonneg v.length
  del_view := fun _ _ => rfl
  del_ret := by
    intro s key
    show (if s key = none then (-1 : Int) else 0) < 0 ↔ s key = none
    split <;> simp_all
  readahead_view := fun f h => absurd h (by simp)

/-- The metadata an item is stored with. -/
def Item.metadata (it : Item) : McMetadata :=
  { flags := it.flags, expiration := it.expiration, cas := it.cas }

/-- The byte string an item is stored as. -/
def Item.toBytes (it : Item) : Bytes := it.value ++ it.metadata.toBytes

/-- An item that fits the protocol. -/
structure Item.Ok (it : Item) : Prop where
  value : it.value.length ≤ maxValueSize
  metadata : it.metadata.Ok

/-- The engine's data stands for the map `m`. -/
structure Represents {σ : Type} (eng : MapEngine σ) (s : σ) (m : Map) : Prop where
  view : ∀ key, eng.view s key = (m key).map Item.toBytes
  ok : ∀ key it, m key = some it → it.Ok

theorem represents_empty : Represents mapEngine (fun _ => none) (fun _ => none) :=
  ⟨fun _ => rfl, fun _ _ h => absurd h (by simp)⟩

/-! ## Engines whose readahead is not seen -/

/-- The largest byte string an item is stored as. -/
def itemRoom : Nat := maxValueSize + sizeofMcMetadata

/-- An engine whose `readahead` changes nothing that its other calls show. `Same`
relates data that no `get`, `set` or `del` tells apart, whatever room there is for an
item that is read. What `set` and `del` make of the data is the engine's own affair,
and they may fail. -/
structure HidesReadahead {σ : Type} (api : StStorageApi σ) (Same : σ → σ → Prop) : Prop where
  symm : ∀ s t, Same s t → Same t s
  trans : ∀ s t u, Same s t → Same t u → Same s u
  get : ∀ s t, Same s t → ∀ (size size' : Int) (key : Bytes), itemRoom ≤ size → itemRoom ≤ size' →
    api.get s size key = api.get t size' key
  fits : ∀ s t, Same s t → ∀ (key v : Bytes), api.get s itemRoom key = some v →
    v.length ≤ itemRoom
  set : ∀ s t, Same s t → ∀ v key : Bytes, v.length ≤ itemRoom →
    ((api.set s v key).2 < 0 ↔ (api.set t v key).2 < 0) ∧
      Same (api.set s v key).1 (api.set t v key).1
  del : ∀ s t, Same s t → ∀ key : Bytes,
    ((api.del s key).2 < 0 ↔ (api.del t key).2 < 0) ∧ Same (api.del s key).1 (api.del t key).1
  readahead : ∀ f, api.readahead = some f → ∀ s, Same s s → ∀ keys, Same s (f s keys)

end Smalltable.Spec
