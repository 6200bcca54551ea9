import Smalltable.Ref.Framing

/-!
# What the size check admits

`WellFormed magic f` says that `reqbuf_get_sane_request_sz` accepts `f` as
exactly one frame. Its consequences are read off once (`WellFormed.facts`):
the length is the header plus the declared body, the three parts fit in it and
each is within its limit. Since the check looks at the header only, bytes
after a frame change nothing, and a frame that has not arrived whole asks for
more data; that is the framing every loop of the program relies on
(`wireFraming`), and `forRequests_flatten` is its use: a loop that steps from
header to header over a batch is a loop over the list of its requests.

The second half reads back what `pack_response` writes.
-/

namespace Smalltable.Ref

/-- The bytes are one whole frame, and the size check accepts them. -/
def WellFormed (magic : UInt8) (f : Bytes) : Prop :=
  f ≠ [] ∧ reqbufGetSaneRequestSz f magic = f.length

instance (magic : UInt8) (f : Bytes) : Decidable (WellFormed magic f) :=
  inferInstanceAs (Decidable (_ ∧ _))

structure FrameFacts (magic : UInt8) (f : Bytes) : Prop where
  header : memcacheHeaderSize ≤ f.length
  length : f.length = memcacheHeaderSize + mcGetBodyLength f
  magic : mcGetMagic f = magic
  fits : mcGetExtrasLength f + mcGetKeyLength f ≤ mcGetBodyLength f
  value : mcGetBodyLength f - mcGetExtrasLength f - mcGetKeyLength f ≤ maxValueSize
  key : mcGetKeyLength f ≤ maxKeySize

theorem mcGetExtrasLength_lt (f : Bytes) : mcGetExtrasLength f < 256 :=
  (f.getD 4 0).toNat_lt

theorem FrameFacts.length_lt {magic : UInt8} {f : Bytes} (h : FrameFacts magic f) :
    f.length ≤ maxRequestSize := by
  have h1 := h.length
  have h2 := h.value
  have h3 := h.key
  have h4 := mcGetExtrasLength_lt f
  have h5 := h.fits
  rw [memcacheHeaderSize_eq] at h1
  rw [maxValueSize_eq] at h2
  rw [maxKeySize_eq] at h3
  rw [maxRequestSize_eq]
  omega

theorem WellFormed.facts {magic : UInt8} {f : Bytes} (h : WellFormed magic f) :
    FrameFacts magic f := by
  obtain ⟨hne, hsz⟩ := h
  have hpos : 0 < f.length := List.length_pos_iff.mpr hne
  have hext := mcGetExtrasLength_lt f
  simp only [reqbufGetSaneRequestSz] at hsz
  split at hsz
  · omega
  · next hhdr =>
      split at hsz
      · omega
      · split at hsz
        · omega
        · next hmagic =>
            split at hsz
            · omega
            · next hfits =>
                split at hsz
                · omega
                · next hval =>
                    split at hsz
                    · omega
                    · next hkey =>
                        -- the declared sizes are small, so nothing wrapped
                        rw [maxValueSize_eq] at hval
                        rw [maxKeySize_eq] at hkey
                        rw [memcacheHeaderSize_eq] at hhdr
                        rw [memcacheHeaderSize_eq, asInt_of_lt (by omega)] at hsz
                        refine ⟨?_, ?_, ?_, ?_, ?_, ?_⟩
                        · rw [memcacheHeaderSize_eq]; omega
                        · rw [memcacheHeaderSize_eq]; omega
                        · exact (not_not.mp hmagic).symm
                        · omega
                        · rw [maxValueSize_eq]; omega
                        · rw [maxKeySize_eq]; omega

/-- The facts are all there is to it. -/
theorem FrameFacts.wellFormed {magic : UInt8} {f : Bytes} (h : FrameFacts magic f) :
    WellFormed magic f := by
  have h1 := h.header
  have h2 := h.length
  have h3 := h.length_lt
  rw [memcacheHeaderSize_eq] at h1 h2
  rw [maxRequestSize_eq] at h3
  refine ⟨List.length_pos_iff.mp (by omega), ?_⟩
  simp only [reqbufGetSaneRequestSz]
  rw [memcacheHeaderSize_eq, if_neg (by omega), asInt_of_lt (by omega), if_neg (by omega),
    if_neg (not_not.mpr h.magic.symm), if_neg (Nat.not_lt.mpr h.fits),
    if_neg (Nat.not_lt.mpr h.value), if_neg (Nat.not_lt.mpr h.key)]
  omega

/-! ## The header decides

Every field lies in the first 24 bytes, so it reads the same with anything
appended. -/

section Append

variable {f : Bytes} (rest : Bytes) (h : memcacheHeaderSize ≤ f.length)
include h

theorem getD_append_header {i : Nat} (hi : i < memcacheHeaderSize) :
    (f ++ rest).getD i 0 = f.getD i 0 := by
  rw [List.getD_eq_getElem?_getD, List.getD_eq_getElem?_getD,
    List.getElem?_append_left (Nat.lt_of_lt_of_le hi h)]

theorem slice_append_header {off n : Nat} (hn : off + n ≤ memcacheHeaderSize) :
    slice (f ++ rest) off n = slice f off n :=
  slice_append_left (Nat.le_trans hn h)

theorem mcGetMagic_append : mcGetMagic (f ++ rest) = mcGetMagic f :=
  getD_append_header rest h (by decide)

theorem mcGetExtrasLength_append : mcGetExtrasLength (f ++ rest) = mcGetExtrasLength f :=
  congrArg UInt8.toNat (getD_append_header rest h (by decide))

theorem mcGetKeyLength_append : mcGetKeyLength (f ++ rest) = mcGetKeyLength f :=
  congrArg beVal (slice_append_header rest h (by decide))

theorem mcGetStatus_append : mcGetStatus (f ++ rest) = mcGetStatus f :=
  congrArg beVal (slice_append_header rest h (by decide))

theorem mcGetBodyLength_append : mcGetBodyLength (f ++ rest) = mcGetBodyLength f :=
  congrArg beVal (slice_append_header rest h (by decide))

end Append

theorem reqbufGetSaneRequestSz_append {magic : UInt8} {f rest : Bytes}
    (h : WellFormed magic f) :
    reqbufGetSaneRequestSz (f ++ rest) magic = f.length := by
  have hf := h.facts
  have h1 := hf.header
  have h2 := hf.length
  have h3 := hf.length_lt
  rw [memcacheHeaderSize_eq] at h2
  rw [maxRequestSize_eq] at h3
  simp only [reqbufGetSaneRequestSz]
  rw [mcGetBodyLength_append rest h1, mcGetMagic_append rest h1,
    mcGetExtrasLength_append rest h1, mcGetKeyLength_append rest h1, List.length_append,
    if_neg (by omega), asInt_of_lt (by rw [memcacheHeaderSize_eq]; omega),
    if_neg (by rw [memcacheHeaderSize_eq]; omega), if_neg (not_not.mpr hf.magic.symm),
    if_neg (Nat.not_lt.mpr hf.fits), if_neg (Nat.not_lt.mpr hf.value),
    if_neg (Nat.not_lt.mpr hf.key), memcacheHeaderSize_eq]
  omega

theorem reqbufGetSaneRequestSz_part {magic : UInt8} {f p : Bytes}
    (h : WellFormed magic f) (hp : p <+: f) (hlt : p.length < f.length) :
    reqbufGetSaneRequestSz p magic = 0 := by
  have hf := h.facts
  have h2 := hf.length
  have h3 := hf.length_lt
  rw [maxRequestSize_eq] at h3
  simp only [reqbufGetSaneRequestSz]
  split
  · rfl
  · next hhdr =>
      obtain ⟨rest, rfl⟩ := hp
      rw [mcGetBodyLength_append rest (by omega)] at h2
      rw [memcacheHeaderSize_eq] at h2
      rw [asInt_of_lt (by rw [memcacheHeaderSize_eq]; omega),
        if_pos (by rw [memcacheHeaderSize_eq]; omega)]

/-- What the check accepts at the head of a buffer is a frame. -/
theorem reqbufGetSaneRequestSz_take {magic : UInt8} {buf : Bytes}
    (hok : reqbufGetSaneRequestSz buf magic ≠ -1) (hmore : reqbufGetSaneRequestSz buf magic ≠ 0) :
    0 < reqbufGetSaneRequestSz buf magic ∧ reqbufGetSaneRequestSz buf magic ≤ buf.length ∧
      WellFormed magic (buf.take (reqbufGetSaneRequestSz buf magic).toNat) := by
  have hext := mcGetExtrasLength_lt buf
  have hsz : ∃ n : Nat, reqbufGetSaneRequestSz buf magic = n ∧
      n = memcacheHeaderSize + mcGetBodyLength buf ∧ n ≤ buf.length ∧
      mcGetMagic buf = magic ∧
      mcGetExtrasLength buf + mcGetKeyLength buf ≤ mcGetBodyLength buf ∧
      mcGetBodyLength buf - mcGetExtrasLength buf - mcGetKeyLength buf ≤ maxValueSize ∧
      mcGetKeyLength buf ≤ maxKeySize := by
    simp only [reqbufGetSaneRequestSz] at hok hmore ⊢
    repeat' split at hok
    all_goals try exact absurd rfl hok
    · next hhdr => rw [if_pos hhdr] at hmore; exact absurd rfl hmore
    · next hhdr hpart => rw [if_neg hhdr, if_pos hpart] at hmore; exact absurd rfl hmore
    · next hhdr hlen hmagic hfits hval hkey =>
        rw [if_neg hhdr, if_neg hlen, if_neg hmagic, if_neg hfits, if_neg hval, if_neg hkey]
        have hval' := hval
        have hkey' := hkey
        rw [maxValueSize_eq] at hval'
        rw [maxKeySize_eq] at hkey'
        have hint : asInt (mcGetBodyLength buf + memcacheHeaderSize)
            = (mcGetBodyLength buf + memcacheHeaderSize : Nat) :=
          asInt_of_lt (by rw [memcacheHeaderSize_eq]; omega)
        rw [hint] at hlen ⊢
        exact ⟨_, rfl, by omega, by omega, (not_not.mp hmagic).symm, by omega, by omega, by omega⟩
  obtain ⟨n, hn, hlen, hle, hmagic, hfits, hval, hkey⟩ := hsz
  have hpos : 0 < n := by rw [memcacheHeaderSize_eq] at hlen; omega
  have htake : (buf.take n).length = n := by rw [List.length_take]; omega
  have hhdr : memcacheHeaderSize ≤ (buf.take n).length := by omega
  have hsplit : buf.take n ++ buf.drop n = buf := List.take_append_drop n buf
  have e1 := mcGetMagic_append (buf.drop n) hhdr
  have e2 := mcGetExtrasLength_append (buf.drop n) hhdr
  have e3 := mcGetKeyLength_append (buf.drop n) hhdr
  have e4 := mcGetBodyLength_append (buf.drop n) hhdr
  rw [hsplit] at e1 e2 e3 e4
  rw [hn, Int.toNat_natCast]
  refine ⟨by omega, by omega, FrameFacts.wellFormed ⟨hhdr, ?_, ?_, ?_, ?_, ?_⟩⟩
  · rw [htake, ← e4]; exact hlen
  · rw [← e1]; exact hmagic
  · rw [← e2, ← e3, ← e4]; exact hfits
  · rw [← e2, ← e3, ← e4]; exact hval
  · rw [← e3]; exact hkey

/-- The framing of one direction of the wire: requests are `0x80`, responses
`0x81`. -/
def wireFraming (magic : UInt8) : Framing UInt8 where
  size := fun buf => reqbufGetSaneRequestSz buf magic
  Frame := WellFormed magic
  ne_nil := fun h => h.1
  size_nil := rfl
  size_append := fun h => reqbufGetSaneRequestSz_append h
  size_part := fun h hp hlt => reqbufGetSaneRequestSz_part h hp hlt

/-! ## Loops over a batch

A loop that takes its steps by the length in the header is a fold over the requests,
when the batch is made of whole ones. -/

theorem mcGetRequestSz_append {magic : UInt8} {f : Bytes} (h : WellFormed magic f)
    (rest : Bytes) : mcGetRequestSz (f ++ rest) = f.length := by
  have hf := h.facts
  have h2 := hf.length
  have h3 := hf.length_lt
  rw [maxRequestSize_eq] at h3
  rw [mcGetRequestSz, mcGetBodyLength_append rest hf.header, ← h2, asInt_of_lt (by omega)]

theorem forRequests_flatten {σ : Type} {magic : UInt8} {fs : List Bytes}
    (hfs : ∀ f ∈ fs, WellFormed magic f) (s : σ)
    (body : σ → Bytes → Option (ForInStep σ)) :
    forRequests fs.flatten s body = foldFrames body s fs := by
  have hne : ∀ f ∈ fs, f ≠ [] := fun f hf => (hfs f hf).1
  exact walk_flatten hne (fun f hf rest => mcGetRequestSz_append (hfs f hf) rest)
    (length_le_length_flatten hne)

/-! ## What `pack_response` writes

A response is given by its fields, and `Response.frame` is how they are laid out. What a
reader of the header gets are these fields again, as far as they are in the range that a
header has for them. -/

theorem length_peek (mem : Bytes) (n : Nat) : (peek mem n).length = n := by
  rw [peek, List.length_append, List.length_take, List.length_replicate]
  omega

theorem peek_of_le {mem : Bytes} {n : Nat} (h : n ≤ mem.length) : peek mem n = mem.take n := by
  rw [peek, Nat.sub_eq_zero_of_le h, List.replicate_zero, List.append_nil]

/-- The nine fields of a header. -/
def header (magic opcode : UInt8) (keyLength extrasLength status bodyLength opaqueId cas : Nat) :
    Bytes :=
  [magic, opcode] ++ beBytes 2 keyLength ++ [extrasLength.toUInt8, 0x00] ++
    beBytes 2 status ++ beBytes 4 bodyLength ++ beBytes 4 opaqueId ++ beBytes 8 cas

section Readback

variable (magic opcode : UInt8) (keyLength extrasLength status bodyLength opaqueId cas : Nat)
  (body : Bytes)

theorem length_header : (header magic opcode keyLength extrasLength status bodyLength opaqueId
    cas).length = memcacheHeaderSize := by
  simp [header, memcacheHeaderSize]

theorem mcGetMagic_header : mcGetMagic (header magic opcode keyLength extrasLength status
    bodyLength opaqueId cas ++ body) = magic := by
  simp [mcGetMagic, header]

theorem mcGetOpcode_header : mcGetOpcode (header magic opcode keyLength extrasLength status
    bodyLength opaqueId cas ++ body) = opcode := by
  simp [mcGetOpcode, header]

theorem mcGetExtrasLength_header : mcGetExtrasLength (header magic opcode keyLength extrasLength
    status bodyLength opaqueId cas ++ body) = extrasLength % 256 := by
  simp [mcGetExtrasLength, header]

theorem mcGetKeyLength_header : mcGetKeyLength (header magic opcode keyLength extrasLength
    status bodyLength opaqueId cas ++ body) = keyLength % 2 ^ 16 := by
  have h : slice (header magic opcode keyLength extrasLength status bodyLength opaqueId cas
      ++ body) 2 2 = beBytes 2 keyLength := by
    simp [slice, header]
  rw [mcGetKeyLength, h, beVal_beBytes]
  rfl

theorem mcGetStatus_header : mcGetStatus (header magic opcode keyLength extrasLength
    status bodyLength opaqueId cas ++ body) = status % 2 ^ 16 := by
  have h : slice (header magic opcode keyLength extrasLength status bodyLength opaqueId cas
      ++ body) 6 2 = beBytes 2 status := by
    simp [slice, header, List.drop_append, List.drop_of_length_le]
  rw [mcGetStatus, h, beVal_beBytes]
  rfl

theorem mcGetBodyLength_header : mcGetBodyLength (header magic opcode keyLength extrasLength
    status bodyLength opaqueId cas ++ body) = bodyLength % 2 ^ 32 := by
  have h : slice (header magic opcode keyLength extrasLength status bodyLength opaqueId cas
      ++ body) 8 4 = beBytes 4 bodyLength := by
    simp [slice, header, List.drop_append, List.drop_of_length_le]
  rw [mcGetBodyLength, h, beVal_beBytes]
  rfl

theorem mcGetOpaque_header : mcGetOpaque (header magic opcode keyLength extrasLength
    status bodyLength opaqueId cas ++ body) = opaqueId % 2 ^ 32 := by
  have h : slice (header magic opcode keyLength extrasLength status bodyLength opaqueId cas
      ++ body) 12 4 = beBytes 4 opaqueId := by
    simp [slice, header, List.drop_append, List.drop_of_length_le]
  rw [mcGetOpaque, h, beVal_beBytes]
  rfl

theorem mcGetCas_header : mcGetCas (header magic opcode keyLength extrasLength
    status bodyLength opaqueId cas ++ body) = cas % 2 ^ 64 := by
  have h : slice (header magic opcode keyLength extrasLength status bodyLength opaqueId cas
      ++ body) 16 8 = beBytes 8 cas := by
    simp [slice, header, List.drop_append, List.drop_of_length_le]
  rw [mcGetCas, h, beVal_beBytes]
  rfl

end Readback

/-- A header in front of parts that are within the limits makes a frame. -/
theorem wellFormed_header (magic opcode : UInt8) (status opaqueId cas : Nat)
    {extras key value : Bytes} (hextras : extras.length ≤ 255) (hkey : key.length ≤ maxKeySize)
    (hvalue : value.length ≤ maxValueSize) :
    WellFormed magic (header magic opcode key.length extras.length status
      (extras.length + key.length + value.length) opaqueId cas ++ (extras ++ (key ++ value))) := by
  rw [maxKeySize_eq] at hkey
  rw [maxValueSize_eq] at hvalue
  have hlen := length_header magic opcode key.length extras.length status
    (extras.length + key.length + value.length) opaqueId cas
  apply FrameFacts.wellFormed
  refine ⟨?_, ?_, mcGetMagic_header _ _ _ _ _ _ _ _ _, ?_, ?_, ?_⟩
  · rw [List.length_append, hlen]
    omega
  · rw [mcGetBodyLength_header, List.length_append, hlen]
    simp only [List.length_append]
    omega
  · rw [mcGetExtrasLength_header, mcGetKeyLength_header, mcGetBodyLength_header]
    omega
  · rw [mcGetExtrasLength_header, mcGetKeyLength_header, mcGetBodyLength_header, maxValueSize_eq]
    omega
  · rw [mcGetKeyLength_header, maxKeySize_eq]
    omega

section PackHeader

variable (res : StRes) (n : Nat) (body : Bytes)

theorem packHeader_eq : packHeader res n = header 0x81 res.opcode res.keySz res.extrasSz
    res.status n res.opaqueId res.cas := rfl

theorem length_packHeader : (packHeader res n).length = memcacheHeaderSize :=
  length_header _ _ _ _ _ _ _ _

theorem mcGetExtrasLength_packHeader :
    mcGetExtrasLength (packHeader res n ++ body) = res.extrasSz % 256 :=
  mcGetExtrasLength_header _ _ _ _ _ _ _ _ body

theorem mcGetKeyLength_packHeader :
    mcGetKeyLength (packHeader res n ++ body) = res.keySz % 2 ^ 16 :=
  mcGetKeyLength_header _ _ _ _ _ _ _ _ body

theorem mcGetStatus_packHeader :
    mcGetStatus (packHeader res n ++ body) = res.status % 2 ^ 16 :=
  mcGetStatus_header _ _ _ _ _ _ _ _ body

theorem mcGetBodyLength_packHeader :
    mcGetBodyLength (packHeader res n ++ body) = n % 2 ^ 32 :=
  mcGetBodyLength_header _ _ _ _ _ _ _ _ body

theorem mcGetOpaque_packHeader :
    mcGetOpaque (packHeader res n ++ body) = res.opaqueId % 2 ^ 32 :=
  mcGetOpaque_header _ _ _ _ _ _ _ _ body

theorem mcGetCas_packHeader :
    mcGetCas (packHeader res n ++ body) = res.cas % 2 ^ 64 :=
  mcGetCas_header _ _ _ _ _ _ _ _ body

end PackHeader

/-- A request as a client packs it. -/
structure Request where
  opcode : UInt8
  reserved : Nat := 0
  opaqueId : Nat := 0
  cas : Nat := 0
  extras : Bytes := []
  key : Bytes := []
  value : Bytes := []

def Request.frame (r : Request) : Bytes :=
  [0x80, r.opcode] ++ beBytes 2 r.key.length ++ [r.extras.length.toUInt8, 0x00] ++
    beBytes 2 r.reserved ++ beBytes 4 (r.extras.length + r.key.length + r.value.length) ++
    beBytes 4 r.opaqueId ++ beBytes 8 r.cas ++ r.extras ++ r.key ++ r.value

/-- A response as a value: what the frame is meant to carry. No command of the
server or of the proxy answers with a key. -/
structure Response where
  opcode : UInt8
  opaqueId : Nat
  status : Nat
  cas : Nat := 0
  extras : Bytes := []
  value : Bytes := []
  deriving DecidableEq

/-- Its bytes. -/
def Response.frame (r : Response) : Bytes :=
  packHeader { opcode := r.opcode, opaqueId := r.opaqueId, status := r.status, cas := r.cas,
               extrasSz := r.extras.length, bufSz := 0 } (r.extras.length + r.value.length)
    ++ r.extras ++ r.value

theorem Response.length_frame (r : Response) :
    r.frame.length = memcacheHeaderSize + r.extras.length + r.value.length := by
  rw [Response.frame, List.length_append, List.length_append, length_packHeader]

theorem Response.mcGetStatus_frame (r : Response) :
    mcGetStatus r.frame = r.status % 2 ^ 16 := by
  rw [Response.frame, List.append_assoc]
  exact mcGetStatus_packHeader _ _ _

theorem Response.mcGetCas_frame (r : Response) : mcGetCas r.frame = r.cas % 2 ^ 64 := by
  rw [Response.frame, List.append_assoc]
  exact mcGetCas_packHeader _ _ _

theorem Response.frame_wellFormed {r : Response} (hext : r.extras.length < 256)
    (hval : r.value.length ≤ maxValueSize) : WellFormed 0x81 r.frame := by
  have hkey : ([] : Bytes).length ≤ maxKeySize := Nat.zero_le _
  have hext' : r.extras.length ≤ 255 := Nat.le_of_lt_succ hext
  have h := wellFormed_header 0x81 r.opcode r.status r.opaqueId r.cas hext' hkey hval
  rw [List.nil_append, List.length_nil, Nat.add_zero] at h
  rw [Response.frame, List.append_assoc]
  exact h

/-- `pack_response` on a response whose parts were written where it wants
them. -/
theorem packResponse_frame {bufSz : Int} {res : StRes} (extras value : Bytes)
    (hkey : res.keySz = 0)
    (hextras : res.extrasSz = extras.length) (hext : extras ≠ [] → res.extras = some 0)
    (hvalue : res.valueSz = value.length)
    (hval : value ≠ [] → res.value = some extras.length)
    (hmem : peek res.mem (extras.length + value.length) = extras ++ value)
    (hlt : extras.length + value.length < 2 ^ 31)
    (hroom : (memcacheHeaderSize + extras.length + value.length : Nat) ≤ bufSz) :
    packResponse bufSz res = some (Response.frame
      { opcode := res.opcode, opaqueId := res.opaqueId, status := res.status,
        cas := res.cas, extras := extras, value := value }) := by
  have hsum : res.extrasSz + res.keySz + res.valueSz = extras.length + value.length := by
    rw [hkey, hextras, hvalue, Nat.add_zero]
  have hint : asInt (res.extrasSz + res.keySz + res.valueSz)
      = (extras.length + value.length : Nat) := by rw [hsum, asInt_of_lt hlt]
  have hmod : ((extras.length + value.length : Nat) : Int) % 2 ^ 32
      = (extras.length + value.length : Nat) := by omega
  simp only [packResponse]
  rw [hint, if_neg (by omega), if_neg, if_neg, if_neg]
  · rw [hmod, Int.toNat_natCast, hmem, Response.frame, List.append_assoc, packHeader,
      packHeader, hextras, hkey]
  · rintro ⟨hne, hbad⟩
    refine hbad ?_
    rw [hextras, hkey, Nat.add_zero]
    exact hval (List.length_pos_iff.mp (by omega))
  · rintro ⟨hne, -⟩
    exact hne hkey
  · rintro ⟨hne, hbad⟩
    exact hbad (hext (List.length_pos_iff.mp (by omega)))

/-- An error answer is the message in a frame with the request's opcode and
opaque, as long as the writer has room for it. -/
theorem packResponse_setErrorCode {bufSz : Int} (res : StRes) {status : Nat}
    {errStr : Option Bytes} {str : Bytes} (hstatus : status < 256)
    (hstr : errorStr status errStr = some str) (hshort : str.length < 256)
    (hbuf : res.bufSz = bufSz - memcacheHeaderSize)
    (hroom : (memcacheHeaderSize + 256 : Nat) ≤ bufSz) :
    (setErrorCode res status errStr).bind (packResponse bufSz) = some (Response.frame
      { opcode := res.opcode, opaqueId := res.opaqueId, status := status, value := str }) := by
  have hsz : ¬ res.bufSz < 0 := by omega
  have hmin : min str.length res.bufSz.toNat = str.length := by omega
  simp only [setErrorCode, Nat.mod_eq_of_lt hstatus, hstr, if_neg hsz, hmin, List.take_length,
    Option.bind_some]
  refine packResponse_frame [] str rfl rfl (fun h => absurd rfl h) rfl (fun _ => rfl)
    ?_ ?_ ?_
  · show peek (poke res.mem 0 str) ([].length + str.length) = [] ++ str
    rw [List.length_nil, Nat.zero_add, List.nil_append, peek_of_le, take_poke_zero]
    rw [poke_zero, List.length_append]
    omega
  · rw [List.length_nil]; omega
  · rw [List.length_nil]; omega

theorem errorFromReqbuf_eq (request : Bytes) {resBufSz : Int} {status : Nat}
    {errStr : Option Bytes} {str : Bytes} (hstatus : status < 256)
    (hstr : errorStr status errStr = some str) (hshort : str.length < 256)
    (hroom : (memcacheHeaderSize + 256 : Nat) ≤ resBufSz) :
    errorFromReqbuf request resBufSz status errStr = some (Response.frame
      { opcode := mcGetOpcode request, opaqueId := mcGetOpaque request, status := status,
        value := str }) := by
  have h := packResponse_setErrorCode (prepareRes resBufSz request) hstatus hstr hshort
    rfl hroom
  rw [errorFromReqbuf]
  cases hres : setErrorCode (prepareRes resBufSz request) status errStr with
  | none => rw [hres] at h; exact absurd h (by simp)
  | some res => rw [hres] at h; exact h

end Smalltable.Ref
