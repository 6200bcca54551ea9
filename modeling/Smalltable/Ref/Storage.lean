import Smalltable.Ref.Framing

/-!
# The storage layer (`storage.c`)

A storage engine is a table of functions over its own data. `get` is told how
much room the caller has and answers with the bytes it wrote there, or nothing
for a negative return; `set` and `del` answer with the C return value.
`readahead` is a hint about keys to come, an empty list being the call that
clears earlier hints; it and `get_keys` may be absent. It is handed an array of
pointers and an array of sizes, and may write to the second: `sto_ydb.c` stores
the sizes as unsigned shorts, one behind the other, where the ints were.

`storage_set` stores the metadata behind the value and `storage_get` splits it
off again. The metadata is a C struct copied as it lies in memory, so its
fields are little endian here, as on the x86 hosts the program is built for.
-/

namespace Smalltable.Ref

/-- `struct st_storage_api`, over the engine's own data `σ`. -/
structure StStorageApi (σ : Type) where
  get : σ → Int → Bytes → Option Bytes
  set : σ → Bytes → Bytes → σ × Int
  del : σ → Bytes → σ × Int
  readahead : Option (σ → List Bytes → σ) := none
  /-- what `readahead` leaves at the front of the array of sizes -/
  readaheadSizes : List Nat → Bytes := fun _ => []
  getKeys : Option (σ → Int → Bytes → Option Bytes) := none

/-- The sizes as `readahead` of `sto_ydb.c` leaves them. -/
def narrowedSizes (keySzs : List Nat) : Bytes := keySzs.flatMap (leBytes 2)

structure McMetadata where
  flags : Nat
  expiration : Nat
  cas : Nat
  deriving DecidableEq

/-- `sizeof(MC_METADATA)` -/
def sizeofMcMetadata : Nat := 16

def McMetadata.toBytes (md : McMetadata) : Bytes :=
  leBytes 4 md.flags ++ leBytes 4 md.expiration ++ leBytes 8 md.cas

def McMetadata.ofBytes (b : Bytes) : McMetadata :=
  { flags := leVal (slice b 0 4)
    expiration := leVal (slice b 4 4)
    cas := leVal (slice b 8 8) }

/-- `ntohl` and `htonl` swap the bytes of a 32-bit value. -/
def ntohl (x : Nat) : Nat := beVal (leBytes 4 x)

def htonl (x : Nat) : Nat := ntohl x

variable {σ : Type} (api : StStorageApi σ)

/-- What the engine wrote at `value`, and the metadata found behind the value.
The outer `none` is the failed `assert`. -/
def storageGet (s : σ) (valueSz : Int) (key : Bytes) :
    Option (Option (Bytes × McMetadata)) :=
  match api.get s valueSz key with
  | none => some none
  | some item =>
      if item.length < sizeofMcMetadata then some none
      else if (item.length : Int) ≤ valueSz then
        some (some (item, McMetadata.ofBytes (item.drop (item.length - sizeofMcMetadata))))
      else none

/-- The room behind the value is lent by the request buffer and restored. -/
def storageSet (s : σ) (md : McMetadata) (value key : Bytes) : σ × Int :=
  if key.length = 0 then (s, -1)
  else api.set s (value ++ md.toBytes) key

def storageDelete (s : σ) (key : Bytes) : σ × Int := api.del s key

def storagePrefetch (s : σ) (keys : List Bytes) : σ :=
  match api.readahead with
  | some readahead => readahead s keys
  | none => s

def storageGetKeys (s : σ) (bufSz : Int) (key : Bytes) : Option Bytes :=
  match api.getKeys with
  | some getKeys => getKeys s bufSz key
  | none => none

/-! The metadata comes back as it was stored, and the two byte swaps on the
way of the flags cancel against the wire order. -/

structure McMetadata.Ok (md : McMetadata) : Prop where
  flags : md.flags < 2 ^ 32
  expiration : md.expiration < 2 ^ 32
  cas : md.cas < 2 ^ 64

theorem McMetadata.length_toBytes (md : McMetadata) :
    md.toBytes.length = sizeofMcMetadata := by
  simp [McMetadata.toBytes, sizeofMcMetadata]

theorem McMetadata.ofBytes_toBytes {md : McMetadata} (h : md.Ok) :
    McMetadata.ofBytes md.toBytes = md := by
  have h1 : slice md.toBytes 0 4 = leBytes 4 md.flags := by
    simp [slice, McMetadata.toBytes]
  have h2 : slice md.toBytes 4 4 = leBytes 4 md.expiration := by
    simp [slice, McMetadata.toBytes]
  have h3 : slice md.toBytes 8 8 = leBytes 8 md.cas := by
    simp [slice, McMetadata.toBytes, List.drop_append, List.drop_of_length_le,
      List.take_of_length_le]
  have e1 : md.flags % 256 ^ 4 = md.flags := Nat.mod_eq_of_lt h.flags
  have e2 : md.expiration % 256 ^ 4 = md.expiration := Nat.mod_eq_of_lt h.expiration
  have e3 : md.cas % 256 ^ 8 = md.cas := Nat.mod_eq_of_lt h.cas
  rw [McMetadata.ofBytes, h1, h2, h3, leVal_leBytes, leVal_leBytes, leVal_leBytes, e1, e2, e3]

/-- Loading a word in host order and swapping it reads it in network order. -/
theorem ntohl_leVal {b : Bytes} (h : b.length = 4) : ntohl (leVal b) = beVal b := by
  have hb := leBytes_leVal b
  rw [h] at hb
  rw [ntohl, hb]

/-- Swapping a word and storing it in host order writes it in network order. -/
theorem leBytes_htonl (x : Nat) : leBytes 4 (htonl x) = beBytes 4 x := by
  have h := leBytes_leVal (leBytes 4 x).reverse
  rw [List.length_reverse, length_leBytes] at h
  rw [htonl, ntohl, beVal, h, beBytes]

end Smalltable.Ref
