import Smalltable.Proofs.Framing
import Smalltable.Ref.SimpleClient

/-!
# The wire format between the implementations

A frame is nine numbers in a fixed format and three strings. Whoever packs one,
the other side reads back what was packed: the C code by offsets into the
header, the Python client by the same format string. Both directions come down
to reading a big endian number where it was written.
-/

namespace Smalltable.Proofs

open Smalltable.Ref Smalltable.Ref.SimpleClient

/-! ## The header in the client's format

Python's `struct` with the format of the header lays out one number after another. The C
code has an offset for each of them, and these are the sums of the widths. -/

theorem toUInt8_mod (n : Nat) : (n % 256).toUInt8 = n.toUInt8 :=
  UInt8.toNat_inj.mp (by simp)

theorem beBytes_one (n : Nat) : beBytes 1 n = [n.toUInt8] := by
  rw [beBytes, leBytes, leBytes, List.reverse_singleton, toUInt8_mod]

theorem beBytes_one_toNat (b : UInt8) : beBytes 1 b.toNat = [b] := by
  rw [beBytes_one]
  simp

section Format

variable (magic opcode : UInt8) (keyLength extrasLength status bodyLength opaqueId cas : Nat)

/-- The header is the nine numbers one after the other. -/
theorem header_append (rest : Bytes) :
    header magic opcode keyLength extrasLength status bodyLength opaqueId cas ++ rest
      = beBytes 1 magic.toNat ++ (beBytes 1 opcode.toNat ++ (beBytes 2 keyLength ++
        (beBytes 1 extrasLength ++ (beBytes 1 0 ++ (beBytes 2 status ++ (beBytes 4 bodyLength ++
        (beBytes 4 opaqueId ++ (beBytes 8 cas ++ rest)))))))) := by
  rw [beBytes_one_toNat, beBytes_one_toNat, beBytes_one, beBytes_one, header]
  simp

theorem structPack_cons {width n : Nat} (h : n < 256 ^ width) (rest : List (Nat × Nat)) :
    structPack ((width, n) :: rest) = (structPack rest).map (beBytes width n ++ ·) := by
  rw [structPack, if_pos h]

theorem structUnpack_cons {width n : Nat} (h : n < 256 ^ width) (rest : List Nat) (buf : Bytes) :
    structUnpack (width :: rest) (beBytes width n ++ buf)
      = (structUnpack rest buf).map (n :: ·) := by
  have hlen := length_beBytes width n
  rw [structUnpack, if_neg (by rw [List.length_append]; omega), List.take_left' hlen,
    List.drop_left' hlen, beVal_beBytes, Nat.mod_eq_of_lt h]

variable {keyLength extrasLength status bodyLength opaqueId cas}
  (hkey : keyLength < 256 ^ 2) (hextras : extrasLength < 256 ^ 1) (hstatus : status < 256 ^ 2)
  (hbody : bodyLength < 256 ^ 4) (hop : opaqueId < 256 ^ 4) (hcas : cas < 256 ^ 8)
include hkey hextras hstatus hbody hop hcas

theorem structPack_header :
    structPack [(1, magic.toNat), (1, opcode.toNat), (2, keyLength), (1, extrasLength), (1, 0),
        (2, status), (4, bodyLength), (4, opaqueId), (8, cas)]
      = some (header magic opcode keyLength extrasLength status bodyLength opaqueId cas) := by
  rw [structPack_cons magic.toNat_lt, structPack_cons opcode.toNat_lt, structPack_cons hkey,
    structPack_cons hextras, structPack_cons (by decide), structPack_cons hstatus,
    structPack_cons hbody, structPack_cons hop, structPack_cons hcas, structPack]
  have h := header_append magic opcode keyLength extrasLength status bodyLength opaqueId cas []
  rw [List.append_nil] at h
  rw [h]
  rfl

theorem structUnpack_header (rest : Bytes) :
    structUnpack headerFormat
        (header magic opcode keyLength extrasLength status bodyLength opaqueId cas ++ rest)
      = some [magic.toNat, opcode.toNat, keyLength, extrasLength, 0, status, bodyLength, opaqueId,
        cas] := by
  rw [header_append, headerFormat, structUnpack_cons magic.toNat_lt,
    structUnpack_cons opcode.toNat_lt, structUnpack_cons hkey, structUnpack_cons hextras,
    structUnpack_cons (by decide), structUnpack_cons hstatus, structUnpack_cons hbody,
    structUnpack_cons hop, structUnpack_cons hcas, structUnpack]
  rfl

end Format

/-! ## The parts behind the header

Extras, key and value lie behind the header in this order, each as long as the header
says. -/

section Parts

variable {hdr extras key value : Bytes} (hlen : hdr.length = memcacheHeaderSize) (rest : Bytes)
include hlen

theorem slice_extras : slice (hdr ++ (extras ++ (key ++ (value ++ rest)))) memcacheHeaderSize
    extras.length = extras := by
  rw [slice_append_right (Nat.le_of_eq hlen), hlen, Nat.sub_self,
    slice_append_left (by omega), slice_all]

theorem slice_key : slice (hdr ++ (extras ++ (key ++ (value ++ rest))))
    (memcacheHeaderSize + extras.length) key.length = key := by
  rw [slice_append_right (by omega), hlen, Nat.add_sub_cancel_left,
    slice_append_right (Nat.le_refl _), Nat.sub_self, slice_append_left (by omega), slice_all]

theorem slice_value : slice (hdr ++ (extras ++ (key ++ (value ++ rest))))
    (memcacheHeaderSize + extras.length + key.length) value.length = value := by
  rw [slice_append_right (by omega), hlen, Nat.add_assoc, Nat.add_sub_cancel_left,
    slice_append_right (by omega), Nat.add_sub_cancel_left, slice_append_right (Nat.le_refl _),
    Nat.sub_self, slice_append_left (by omega), slice_all]

end Parts

/-! ## Requests

A request whose fields fit into their widths can be read back; and so can one that the
client has packed, by the code of the server. -/

/-- The limits of the protocol, and the widths of the fields. -/
structure Packable (r : Request) : Prop where
  reserved : r.reserved < 256 ^ 2
  opaqueId : r.opaqueId < 256 ^ 4
  cas : r.cas < 256 ^ 8
  extras : r.extras.length ≤ 255
  key : r.key.length ≤ maxKeySize
  value : r.value.length ≤ maxValueSize

theorem Request.frame_eq (r : Request) : r.frame = header 0x80 r.opcode r.key.length
    r.extras.length r.reserved (r.extras.length + r.key.length + r.value.length) r.opaqueId r.cas
      ++ (r.extras ++ (r.key ++ r.value)) := by
  simp only [Request.frame, header, List.append_assoc]

theorem pack_eq_frame {r : Request} (h : Packable r) :
    pack r.opcode.toNat r.key r.extras r.value r.opaqueId r.cas r.reserved = some r.frame := by
  have hextras := h.extras
  have hkey := h.key
  have hvalue := h.value
  rw [maxKeySize_eq] at hkey
  rw [maxValueSize_eq] at hvalue
  have hkey' : r.key.length < 256 ^ 2 := by omega
  have hextras' : r.extras.length < 256 ^ 1 := by omega
  have hbody : r.extras.length + r.key.length + r.value.length < 256 ^ 4 := by omega
  have hpack := structPack_header 0x80 r.opcode hkey' hextras' h.reserved hbody h.opaqueId h.cas
  have hmagic : (0x80 : UInt8).toNat = 0x80 := rfl
  rw [hmagic] at hpack
  unfold pack
  simp only [hpack, Option.map_some, Request.frame_eq, List.append_assoc]

theorem Request.frame_wellFormed {r : Request} (h : Packable r) : WellFormed 0x80 r.frame := by
  rw [Request.frame_eq]
  exact wellFormed_header 0x80 r.opcode r.reserved r.opaqueId r.cas h.extras h.key h.value

/-- What `unpack_request` makes of it. -/
theorem unpackRequest_frame {r : Request} (h : Packable r) (rest : Bytes) :
    unpackRequest (r.frame ++ rest) =
      { opcode := r.opcode
        status := r.reserved
        opaqueId := r.opaqueId
        cas := r.cas
        extras := r.extras
        key := r.key
        value := r.value } := by
  have hextras := h.extras
  have hkey := h.key
  have hvalue := h.value
  rw [maxKeySize_eq] at hkey
  rw [maxValueSize_eq] at hvalue
  have hhdr := length_header 0x80 r.opcode r.key.length r.extras.length r.reserved
    (r.extras.length + r.key.length + r.value.length) r.opaqueId r.cas
  have hsum : (r.extras.length + r.key.length + r.value.length + 2 ^ 33 - r.extras.length
      - r.key.length) % 2 ^ 32 = r.value.length := by omega
  unfold unpackRequest
  rw [Request.frame_eq, List.append_assoc, List.append_assoc, List.append_assoc,
    mcGetOpcode_header, mcGetStatus_header, mcGetOpaque_header, mcGetCas_header,
    mcGetExtrasLength_header, mcGetKeyLength_header, mcGetBodyLength_header]
  have hr : r.reserved % 2 ^ 16 = r.reserved := Nat.mod_eq_of_lt h.reserved
  have ho : r.opaqueId % 2 ^ 32 = r.opaqueId := Nat.mod_eq_of_lt h.opaqueId
  have hc : r.cas % 2 ^ 64 = r.cas := Nat.mod_eq_of_lt h.cas
  have hk : r.key.length % 2 ^ 16 = r.key.length := by omega
  have he : r.extras.length % 256 = r.extras.length := by omega
  have hb : (r.extras.length + r.key.length + r.value.length) % 2 ^ 32
      = r.extras.length + r.key.length + r.value.length := by omega
  simp only [hr, ho, hc, hk, he, hb, hsum]
  rw [slice_extras hhdr, slice_key hhdr, slice_value hhdr]

/-! ## Responses

The server packs a response around a value that is in the buffer already. What the
client unpacks are the fields that were given, and the same value. -/

/-- A response as `pack_response` wants it: the parts lie one after the other
from `res->buf` on, and there is room for them. -/
structure LaidOut (res : StRes) (bufSz : Int) (extras key value : Bytes) : Prop where
  extrasSz : res.extrasSz = extras.length
  keySz : res.keySz = key.length
  valueSz : res.valueSz = value.length
  extrasPtr : extras ≠ [] → res.extras = some 0
  keyPtr : key ≠ [] → res.key = some extras.length
  valuePtr : value ≠ [] → res.value = some (extras.length + key.length)
  mem : peek res.mem (extras.length + key.length + value.length) = extras ++ (key ++ value)
  room : (memcacheHeaderSize + (extras.length + key.length + value.length) : Nat) ≤ bufSz
  extrasMax : extras.length ≤ 255
  keyMax : key.length ≤ maxKeySize
  valueMax : value.length ≤ maxValueSize
  status : res.status < 256 ^ 2
  opaqueId : res.opaqueId < 256 ^ 4
  cas : res.cas < 256 ^ 8

section Response

variable {res : StRes} {bufSz : Int} {extras key value : Bytes}

/-- The frame of such a response. -/
def responseFrame (res : StRes) (extras key value : Bytes) : Bytes :=
  header 0x81 res.opcode key.length extras.length res.status
    (extras.length + key.length + value.length) res.opaqueId res.cas ++ (extras ++ (key ++ value))

theorem packResponse_laidOut (h : LaidOut res bufSz extras key value) :
    packResponse bufSz res = some (responseFrame res extras key value) := by
  have hextras := h.extrasMax
  have hkey := h.keyMax
  have hvalue := h.valueMax
  have hroom := h.room
  rw [maxKeySize_eq] at hkey
  rw [maxValueSize_eq] at hvalue
  have hmod : ((extras.length + key.length + value.length : Nat) : Int) % 2 ^ 32
      = (extras.length + key.length + value.length : Nat) := by omega
  unfold packResponse
  rw [h.extrasSz, h.keySz, h.valueSz, asInt_of_lt (by omega)]
  simp only []
  have hne : ∀ {part : Bytes}, part.length ≠ 0 → part ≠ [] := fun hpos hnil => by
    rw [hnil] at hpos
    exact hpos rfl
  rw [if_neg (by omega), if_neg fun hbad => hbad.2 (h.extrasPtr (hne hbad.1)),
    if_neg fun hbad => hbad.2 (h.keyPtr (hne hbad.1)),
    if_neg fun hbad => hbad.2 (h.valuePtr (hne hbad.1)), hmod,
    Int.toNat_natCast, h.mem, packHeader_eq, h.extrasSz, h.keySz, responseFrame]

theorem responseFrame_wellFormed (h : LaidOut res bufSz extras key value) :
    WellFormed 0x81 (responseFrame res extras key value) :=
  wellFormed_header 0x81 res.opcode res.status res.opaqueId res.cas h.extrasMax h.keyMax h.valueMax

theorem ite_length (part : Bytes) : (if part.length ≠ 0 then part else []) = part := by
  split
  · rfl
  · next h => exact (List.eq_nil_of_length_eq_zero (not_not.mp h)).symm

/-- A slice of the buffer, in the client's notation. -/
theorem pySlice_eq_slice (buf : Bytes) (i n : Nat) : pySlice buf i (i + n) = slice buf i n := by
  rw [pySlice, slice, List.drop_take, Nat.add_sub_cancel_left]

/-- What `_unpack` makes of it. -/
theorem unpack_responseFrame (h : LaidOut res bufSz extras key value) (rest : Bytes) :
    unpack (responseFrame res extras key value ++ rest) = some
      { opcode := res.opcode.toNat
        status := res.status
        opaqueId := res.opaqueId
        cas := res.cas
        extras := extras
        key := key
        value := value } := by
  have hextras := h.extrasMax
  have hkey := h.keyMax
  have hvalue := h.valueMax
  rw [maxKeySize_eq] at hkey
  rw [maxValueSize_eq] at hvalue
  have hkey' : key.length < 256 ^ 2 := by omega
  have hextras' : extras.length < 256 ^ 1 := by omega
  have hbody : extras.length + key.length + value.length < 256 ^ 4 := by omega
  have hhdr := length_header 0x81 res.opcode key.length extras.length res.status
    (extras.length + key.length + value.length) res.opaqueId res.cas
  have hunpack := structUnpack_header 0x81 res.opcode hkey' hextras' h.status hbody h.opaqueId
    h.cas (extras ++ (key ++ (value ++ rest)))
  have hvalueEnd : 24 + (extras.length + key.length + value.length)
      = 24 + extras.length + key.length + value.length := by omega
  have hvalueLength : (((extras.length + key.length + value.length : Nat) : Int) - key.length
      - extras.length ≠ 0) ↔ value.length ≠ 0 := by omega
  unfold unpack
  rw [responseFrame, List.append_assoc, List.append_assoc, List.append_assoc, hunpack]
  simp only [hvalueEnd, hvalueLength, pySlice_eq_slice]
  rw [← memcacheHeaderSize_eq, slice_extras hhdr, slice_key hhdr, slice_value hhdr,
    ite_length, ite_length, ite_length]

end Response

/-- Both directions, whatever follows the frame in the buffer. -/
theorem wire_roundTrip :
    (∀ r, Packable r → ∃ buf,
      pack r.opcode.toNat r.key r.extras r.value r.opaqueId r.cas r.reserved = some buf ∧
      ∀ rest, reqbufGetSaneRequestSz (buf ++ rest) 0x80 = buf.length ∧
        unpackRequest (buf ++ rest) =
          { opcode := r.opcode
            status := r.reserved
            opaqueId := r.opaqueId
            cas := r.cas
            extras := r.extras
            key := r.key
            value := r.value }) ∧
    (∀ res bufSz extras key value, LaidOut res bufSz extras key value → ∃ buf,
      packResponse bufSz res = some buf ∧
      ∀ rest, reqbufGetSaneRequestSz (buf ++ rest) 0x81 = buf.length ∧
        unpack (buf ++ rest) = some
          { opcode := res.opcode.toNat
            status := res.status
            opaqueId := res.opaqueId
            cas := res.cas
            extras := extras
            key := key
            value := value }) := by
  refine ⟨fun r h => ⟨r.frame, pack_eq_frame h, fun rest => ⟨?_, unpackRequest_frame h rest⟩⟩,
    fun res bufSz extras key value h => ⟨_, packResponse_laidOut h, fun rest => ⟨?_,
      unpack_responseFrame h rest⟩⟩⟩
  · exact reqbufGetSaneRequestSz_append (Request.frame_wellFormed h)
  · exact reqbufGetSaneRequestSz_append (responseFrame_wellFormed h)

/-- A SET, and the answer to a GET of what it stores. -/
theorem wire_roundTrip_set :
    (∃ buf, pack 1 (ascii "k") (List.replicate 8 0) (ascii "v") 7 0 1 = some buf ∧
      reqbufGetSaneRequestSz (buf ++ [0x80]) 0x80 = 34) ∧
    ∃ buf, packResponse 64
        { opcode := 0, opaqueId := 7, cas := 9, extras := some 0, extrasSz := 4, value := some 4,
          valueSz := 1, bufSz := 40, mem := [0, 0, 0, 0] ++ ascii "v" } = some buf ∧
      unpack buf = some
        { opcode := 0, status := 0, opaqueId := 7, cas := 9, extras := [0, 0, 0, 0], key := [],
          value := ascii "v" } := by
  constructor
  · obtain ⟨buf, hpack, hread⟩ := wire_roundTrip.1
      { opcode := 1, reserved := 1, opaqueId := 7, extras := List.replicate 8 0,
        key := ascii "k", value := ascii "v" }
      ⟨by decide, by decide, by decide, by decide, by decide, by decide⟩
    have hlen : (pack 1 (ascii "k") (List.replicate 8 0) (ascii "v") 7 0 1).map List.length
        = some 34 := by decide
    refine ⟨buf, hpack, (hread [0x80]).1.trans ?_⟩
    have hpack : pack 1 (ascii "k") (List.replicate 8 0) (ascii "v") 7 0 1 = some buf := hpack
    rw [hpack] at hlen
    have hlen : buf.length = 34 := Option.some.inj hlen
    rw [hlen]
    rfl
  · obtain ⟨buf, hpack, hread⟩ := wire_roundTrip.2
      { opcode := 0, opaqueId := 7, cas := 9, extras := some 0, extrasSz := 4, value := some 4,
        valueSz := 1, bufSz := 40, mem := [0, 0, 0, 0] ++ ascii "v" }
      64 [0, 0, 0, 0] [] (ascii "v")
      ⟨rfl, rfl, rfl, fun _ => rfl, fun h => absurd rfl h, fun _ => rfl, by decide, by decide,
        by decide, by decide, by decide, by decide, by decide, by decide⟩
    have h := (hread []).2
    rw [List.append_nil] at h
    exact ⟨buf, hpack, h⟩

end Smalltable.Proofs
