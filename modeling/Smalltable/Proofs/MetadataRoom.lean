import Smalltable.Proofs.BatchBound

/-!
# Room for the metadata behind a batch

`process_multi` begins by making sure that there is room for `MC_METADATA` behind
the batch, for `storage_set` to write it there. If that makes the block grow, the
block moves, and the request pointer that `conn_recv` has handed over stays where
the block was.

Before `recv` is called there is room for at least one byte, so what `recv`
leaves free can be anything from nothing on. With nothing left `retry_recv` goes
round again and the block grows. With more left than the metadata takes all is
well, and `process_multi` keeps it so for the batches that follow. In between
are sixteen lengths, and a batch that is there then is handed over with too
little room (`LeavesRoom`). That is decided by the data: a request is held back
or it is not, and where this ends does not depend on what comes later
(`BatchReady`).
-/

namespace Smalltable.Proofs

open Smalltable.Ref Smalltable.Spec Relation

/-- What is free behind `stop_off`. -/
def bufTail (b : Buffer) : Int := b.bufSz - b.stopOff

/-! ## The block

`buf_get_writer` moves the block only when what is asked for does not fit behind
`stop_off`, and a buffer that has become empty begins at the front again. -/

section Block

variable (p : Pool) {b : Buffer}

theorem bufTakeBlock_allocated (b : Buffer) : (bufTakeBlock p b).2.allocated = true := by
  rw [bufTakeBlock]
  split
  · next h => exact h
  · rfl

theorem bufTakeBlock_of_allocated (h : b.allocated = true) : bufTakeBlock p b = (p, b) := by
  rw [bufTakeBlock, if_pos h]

theorem bufGetWriter_stopOff (b : Buffer) (n : Int) :
    (bufGetWriter p b n).2.1.stopOff = b.stopOff :=
  (bufTakeBlock_offsets p b).2.1

/-- A block only grows. -/
theorem bufTail_writer (h : b.allocated = true) (n : Int) :
    bufTail b ≤ bufTail (bufGetWriter p b n).2.1 := by
  have hgrow := growBuf_ge (bufTakeBlock p b).2.stopOff n
    (n + (bufTakeBlock p b).2.stopOff + 1 - (bufTakeBlock p b).2.bufSz).toNat
    (bufTakeBlock p b).2.bufSz
  have hsz : b.bufSz ≤ (bufGetWriter p b n).2.1.bufSz := by
    rw [bufTakeBlock_of_allocated p h] at hgrow
    simp only [bufGetWriter, bufAlloc, bufTakeBlock_of_allocated p h]
    exact hgrow
  rw [bufTail, bufTail, bufGetWriter_stopOff]
  omega

/-- With nothing left it grows by a whole block size. -/
theorem bufTail_writer_full (h : b.allocated = true) (hfull : bufTail b = 0) :
    bufTail (bufGetWriter p b 0).2.1 = initialBufSize := by
  rw [bufTail] at hfull
  have hfuel : (0 + b.stopOff + 1 - b.bufSz).toNat = 0 + 1 := by omega
  have hsz : (bufGetWriter p b 0).2.1.bufSz = b.bufSz + initialBufSize := by
    simp only [bufGetWriter, bufAlloc, bufTakeBlock_of_allocated p h]
    rw [hfuel, growBuf, if_pos (by omega), growBuf]
  rw [bufTail, bufGetWriter_stopOff, hsz]
  omega

theorem bufProduce_nil (b : Buffer) : bufProduce b [] = b := by
  rw [bufProduce, List.append_nil, List.length_nil, Int.natCast_zero, Int.add_zero]

/-- The block stays where it is exactly when there is room already. -/
theorem bufGetWriter_stays_iff (h : b.allocated = true) (n : Int) :
    (bufGetWriter p b n).2.1.bufSz = b.bufSz ↔ n < bufTail b := by
  have hroom := bufGetWriter_room p b n
  have hroom' : n < (bufGetWriter p b n).2.1.bufSz - (bufGetWriter p b n).2.1.stopOff := hroom
  rw [bufGetWriter_stopOff] at hroom'
  constructor
  · intro hsame
    rw [hsame] at hroom'
    exact hroom'
  · intro hfree
    rw [bufTail] at hfree
    have hfuel : (n + b.stopOff + 1 - b.bufSz).toNat = 0 := by omega
    simp only [bufGetWriter, bufAlloc, bufTakeBlock_of_allocated p h]
    rw [hfuel, growBuf]

end Block

/-! ## When a batch is there

A batch is there when a request that is not held back follows on those that are. What is
in the buffer tells whether it is; nothing that comes later is asked. -/

/-- Of what is in the buffer, `total` bytes, `data` has not been looked at, and
`requests` are held back: the requests at its head, without any more data, make a
batch. -/
inductive BatchReady (total : Nat) : Int → Bytes → Prop
  | last {requests : Int} {data : Bytes} (hwhole : 0 < reqbufGetSaneRequestSz data 0x80)
      (hloud : ¬ (flagQuiet (mcGetReserved data) ∧ total < maxRequestSize ∧
        requests < maxQuietRequests)) : BatchReady total requests data
  | held {requests : Int} {data : Bytes} (hwhole : 0 < reqbufGetSaneRequestSz data 0x80)
      (hquiet : flagQuiet (mcGetReserved data) ∧ total < maxRequestSize ∧
        requests < maxQuietRequests)
      (hrest : BatchReady total (requests + 1)
        (data.drop (reqbufGetSaneRequestSz data 0x80).toNat)) : BatchReady total requests data

theorem not_batchReady_nil (total : Nat) (requests : Int) : ¬ BatchReady total requests [] := by
  intro h
  have hsize : ¬ 0 < reqbufGetSaneRequestSz [] 0x80 := by decide
  cases h with
  | last hwhole _ => exact hsize hwhole
  | held hwhole _ _ => exact hsize hwhole

section Room

variable {ω : Type}

/-- A batch is there. -/
def Ready (c : Conn ω) : Prop :=
  BatchReady (bufGetReader c.io.recvBuf).length c.io.requests (newData c)

/-- The metadata can be written behind the batch, and the block need not move. -/
structure MetadataRoom (io : Io) : Prop where
  room : sizeofMcMetadata < bufTail io.recvBuf
  stays : (bufGetWriter io.pool io.recvBuf sizeofMcMetadata).2.1.bufSz = io.recvBuf.bufSz

/-- A block that stays has the room. -/
theorem metadataRoom_of_stays {io : Io}
    (h : (bufGetWriter io.pool io.recvBuf sizeofMcMetadata).2.1.bufSz = io.recvBuf.bufSz) :
    MetadataRoom io := by
  refine ⟨?_, h⟩
  have hroom : (sizeofMcMetadata : Int) <
      (bufGetWriter io.pool io.recvBuf sizeofMcMetadata).2.1.bufSz
      - (bufGetWriter io.pool io.recvBuf sizeofMcMetadata).2.1.stopOff :=
    bufGetWriter_room io.pool io.recvBuf sizeofMcMetadata
  rw [bufGetWriter_stopOff, h] at hroom
  exact hroom

theorem metadataRoom_requests (io : Io) (n : Int) :
    MetadataRoom { io with requests := n } ↔ MetadataRoom io :=
  ⟨fun h => ⟨h.room, h.stays⟩, fun h => ⟨h.room, h.stays⟩⟩

/-- What `recv` leaves free when it returns `n` bytes. -/
def roomLeft (c : Conn ω) (n : Nat) : Int := (bufGetWriter c.io.pool c.io.recvBuf 0).2.2 - n

/-- `recv` does not complete a batch with one to sixteen bytes left free. -/
def LeavesRoom (c : Conn ω) (n : Nat) : Prop :=
  BatchReady ((bufGetReader c.io.recvBuf).length + n) c.io.requests
      (newData c ++ c.input.take n) →
    roomLeft c n = 0 ∨ sizeofMcMetadata < roomLeft c n

/-- When a batch is there, the room is; and if nothing is left, `recv` comes
first. -/
structure RoomInv (c : Conn ω) : Prop where
  released : c.io.recvBuf.allocated = false → c.io.recvBuf.bufSz = 0
  room : Ready c → sizeofMcMetadata < bufTail c.io.recvBuf ∨
    bufTail c.io.recvBuf = 0 ∧ c.pc = .retryRecv

variable {c c' : Conn ω} {pend : List Bytes} {more : Bytes}

theorem HandsOver.ready {batch : Bytes} (h : HandsOver c batch) : Ready c := .last h.whole h.loud

theorem not_ready_empty (hnil : bufGetReader c.io.recvBuf = []) : ¬ Ready c := by
  rw [Ready, newData, hnil, List.drop_nil]
  exact not_batchReady_nil _ _

/-- Holding a request back moves `new_data` behind it. -/
theorem newData_held {r : Int} (n : Int) (hoff : 0 ≤ c.quietRecvOff) (hr : 0 < r) :
    newData { c with quietRecvOff := c.quietRecvOff + r, io := { c.io with requests := n } }
      = (newData c).drop r.toNat := by
  rw [newData, newData, List.drop_drop, ← Int.toNat_add hoff hr.le]

theorem RoomInv.of_eq (h : RoomInv c) (hpc : c.pc ≠ .retryRecv)
    (hrecv : c'.io.recvBuf = c.io.recvBuf) (hoff : c'.quietRecvOff = c.quietRecvOff)
    (hreq : c'.io.requests = c.io.requests) : RoomInv c' := by
  refine ⟨by rw [hrecv]; exact h.released, fun hready => ?_⟩
  have hready' : Ready c := by
    rw [Ready, newData, hrecv, hoff, hreq] at hready
    exact hready
  rw [hrecv]
  rcases h.room hready' with hroom | ⟨-, hretry⟩
  · exact .inl hroom
  · exact absurd hretry hpc

theorem RoomInv.others (h : RoomInv c) (w : ω) (p : Pool) :
    RoomInv { c with world := w, io := { c.io with pool := p } } := ⟨h.released, h.room⟩

/-- A buffer that holds a batch has a block. -/
theorem RoomInv.allocated (h : RoomInv c) (hg : Gathered c pend more) (hready : Ready c) :
    c.io.recvBuf.allocated = true := by
  cases hal : c.io.recvBuf.allocated with
  | true => rfl
  | false =>
      have hsz := h.released hal
      have hlen := hg.held.mem_length
      have hroom := h.room hready
      rw [bufTail, hsz] at hroom
      have hnil : c.io.recvBuf.mem = [] := List.eq_nil_of_length_eq_zero (by omega)
      have hdata : newData c = [] := by
        rw [newData, bufGetReader, hnil, List.drop_nil, List.drop_nil]
      rw [Ready, hdata] at hready
      exact absurd hready (not_batchReady_nil _ _)

theorem RoomInv.metadataRoom (h : RoomInv c) (hg : Gathered c pend more) {batch : Bytes}
    (hover : HandsOver c batch) : MetadataRoom c.io := by
  have hready := hover.ready
  obtain ⟨written, hpc⟩ := hover.pc
  rcases h.room hready with hroom | ⟨-, hretry⟩
  · exact ⟨hroom, (bufGetWriter_stays_iff _ (h.allocated hg hready) _).mpr hroom⟩
  · rw [hpc] at hretry
    cases hretry

/-! ## One step

`recv` is the step that can leave too little room, which is what the condition is about.
The others keep what there is: a batch that has been consumed makes room, and what
`process_multi` asks for it gets. -/

theorem allocated_writer (p : Pool) (b : Buffer) (n : Int) :
    (bufGetWriter p b n).2.1.allocated = true := bufTakeBlock_allocated p b

/-- Room is asked for and nothing comes in. -/
theorem RoomInv.asked (h : RoomInv c) (hg : Gathered c pend more) {pc : ConnPc} :
    RoomInv { c with
      pc := pc
      io := { c.io with
        pool := (bufGetWriter c.io.pool c.io.recvBuf 0).1
        recvBuf := (bufGetWriter c.io.pool c.io.recvBuf 0).2.1 } } := by
  have hsame : bufGetReader (bufGetWriter c.io.pool c.io.recvBuf 0).2.1
      = bufGetReader c.io.recvBuf := by
    rw [(bufGetWriter_holds hg.held c.io.pool 0).reader, hg.held.reader]
  refine ⟨fun hno => ?_, fun hready => .inl ?_⟩
  · rw [allocated_writer] at hno
    cases hno
  · have hready' : Ready c := by
      rw [Ready, newData, hsame] at hready
      exact hready
    have hal := h.allocated hg hready'
    rcases h.room hready' with hroom | ⟨hfull, -⟩
    · exact hroom.trans_le (bufTail_writer c.io.pool hal 0)
    · show (sizeofMcMetadata : Int) < bufTail (bufGetWriter c.io.pool c.io.recvBuf 0).2.1
      rw [bufTail_writer_full c.io.pool hal hfull]
      decide

/-- What `recv` has brought in. -/
theorem received_room (hg : Gathered c pend more) {n : Nat} (hlen : (c.input.take n).length = n) :
    (bufGetReader (bufProduce (bufGetWriter c.io.pool c.io.recvBuf 0).2.1
        (c.input.take n))).drop c.quietRecvOff.toNat = newData c ++ c.input.take n ∧
      (bufGetReader (bufProduce (bufGetWriter c.io.pool c.io.recvBuf 0).2.1
        (c.input.take n))).length = (bufGetReader c.io.recvBuf).length + n ∧
      bufTail (bufProduce (bufGetWriter c.io.pool c.io.recvBuf 0).2.1 (c.input.take n))
        = roomLeft c n := by
  have hprod := bufProduce_holds (bufGetWriter_holds hg.held c.io.pool 0) (c.input.take n)
  refine ⟨?_, ?_, ?_⟩
  · rw [hprod.reader, hg.newData_eq, hg.off, Int.toNat_natCast, List.append_assoc, List.drop_left]
  · rw [hprod.reader, hg.held.reader, List.length_append, hlen]
  · show (bufGetWriter c.io.pool c.io.recvBuf 0).2.1.bufSz
      - ((bufGetWriter c.io.pool c.io.recvBuf 0).2.1.stopOff + ((c.input.take n).length : Nat))
      = (bufGetWriter c.io.pool c.io.recvBuf 0).2.1.bufSz
        - (bufGetWriter c.io.pool c.io.recvBuf 0).2.1.stopOff - n
    omega

theorem RoomInv.step_recv (h : RoomInv c) (hg : Gathered c pend more) {r : RecvResult}
    (hroom : ∀ n, r = .got n → LeavesRoom c n) (hs : connRetryRecv c r = some c') :
    RoomInv c' := by
  unfold connRetryRecv at hs
  cases r with
  | got n =>
      simp only [] at hs
      split at hs
      · next hn =>
          cases hs
          have hlen : (c.input.take n).length = n := by
            rw [List.length_take]
            omega
          obtain ⟨hdata, htotal, htail⟩ := received_room hg hlen
          refine ⟨fun hno => ?_, fun hready => ?_⟩
          · have hno : (bufGetWriter c.io.pool c.io.recvBuf 0).2.1.allocated = false := hno
            rw [allocated_writer] at hno
            cases hno
          · rw [Ready, newData] at hready
            simp only [hdata, htotal] at hready
            simp only [htail]
            rcases hroom n rfl hready with hfull | hfree
            · refine .inr ⟨hfull, if_pos ?_⟩
              rw [roomLeft] at hfull
              omega
            · exact .inl hfree
      · cases hs
  | again =>
      cases hs
      rw [bufProduce_nil]
      exact h.asked hg
  | eof =>
      cases hs
      exact h.asked hg
  | error =>
      cases hs
      exact h.asked hg

theorem RoomInv.step_send (h : RoomInv c) (hpc : c.pc = .connSend) {r : SendResult}
    (hs : connSend c r = some c') : RoomInv c' := by
  have hne : c.pc ≠ .retryRecv := by
    rw [hpc]
    exact nofun
  have hafter : ∀ (d : Conn ω) (b : Bool), d.io.recvBuf = c.io.recvBuf →
      d.quietRecvOff = c.quietRecvOff → d.io.requests = c.io.requests →
      RoomInv (connAfterSend d b) := by
    intro d b hrecv hoff hreq
    rw [connAfterSend]
    split
    · exact h.of_eq hne hrecv hoff hreq
    · exact h.of_eq hne hrecv hoff hreq
  unfold connSend at hs
  simp only [] at hs
  split at hs
  · cases hs
  · cases r with
    | sent n =>
        simp only [] at hs
        split at hs
        · cases hs
          exact hafter _ _ rfl rfl rfl
        · cases hs
    | again =>
        cases hs
        exact hafter c false rfl rfl rfl
    | error =>
        cases hs
        exact h.of_eq hne rfl rfl rfl

/-- What is left behind a batch keeps the room that was made for it. -/
theorem roomInv_consume {p : Pool} {b : Buffer} {n : Int} (hal : b.allocated = true)
    (hroom : (sizeofMcMetadata : Int) < bufTail b) :
    ((bufConsume p b n).2.allocated = false → (bufConsume p b n).2.bufSz = 0) ∧
      (bufGetReader (bufConsume p b n).2 ≠ [] →
        sizeofMcMetadata < bufTail (bufConsume p b n).2) := by
  rw [bufConsume]
  split
  · exact ⟨fun _ => rfl, fun hne => absurd rfl hne⟩
  · refine ⟨fun hno => ?_, fun _ => hroom⟩
    have hno : b.allocated = false := hno
    rw [hal] at hno
    cases hno

end Room

section Server

variable {σ γ : Type} (api : StStorageApi σ) (vx : Vx γ) (cfg : Config γ)

theorem IoMoves.recv_room {io io' : Io} (h : IoMoves io io') {n : Int}
    (hal : io.recvBuf.allocated = true) (hroom : n < bufTail io.recvBuf) :
    io'.recvBuf.allocated = true ∧ n < bufTail io'.recvBuf := by
  induction h with
  | refl => exact ⟨hal, hroom⟩
  | tail _ hmove ih =>
      cases hmove with
      | recvRoom m => exact ⟨allocated_writer _ _ m, ih.2.trans_le (bufTail_writer _ ih.1 m)⟩
      | sendRoom m => exact ih
      | produce bs _ => exact ih
      | rollback m => exact ih

/-- `process_multi` leaves the room it has made. -/
theorem processMulti_leavesRoom {w w' : World σ γ} {io io' : Io} {reqBuf : Bytes} {n : Int}
    (hs : processMulti api vx cfg w io reqBuf = some (w', io', n)) :
    io'.recvBuf.allocated = true ∧ sizeofMcMetadata < bufTail io'.recvBuf :=
  (processMulti_room api vx cfg hs).1.recv_room (allocated_writer _ _ _)
    (bufGetWriter_room io.pool io.recvBuf sizeofMcMetadata)

variable {c c' : Conn (World σ γ)} {pend : List Bytes} {more : Bytes}

theorem RoomInv.step_swallow (h : RoomInv c) (hoff : 0 ≤ c.quietRecvOff) {written : Bool}
    (hpc : c.pc = .swallowNextRequest written)
    (hs : connSwallow (processMulti api vx cfg) c written = some c') : RoomInv c' := by
  have hne : c.pc ≠ .retryRecv := by
    rw [hpc]
    exact nofun
  rw [connSwallow] at hs
  simp only [] at hs
  split at hs
  · cases hs
    exact h.of_eq hne rfl rfl rfl
  · next hok =>
      split at hs
      · cases hs
        exact h.of_eq hne rfl rfl rfl
      · next hmore =>
          have hwhole := (reqbufGetSaneRequestSz_take hok hmore).1
          split at hs
          · next hhold =>
              -- the requests behind it make a batch, so this one and those do
              cases hs
              refine ⟨h.released, fun hready => ?_⟩
              have hready' : Ready c := .held hwhole hhold (newData_held _ hoff hwhole ▸ hready)
              exact (h.room hready').imp_right fun hfull => absurd hfull.2 hne
          · rw [connProcess] at hs
            split at hs
            · cases hs
            · next w io consumed hmulti =>
                cases hs
                obtain ⟨hal, hroom⟩ := processMulti_leavesRoom api vx cfg hmulti
                obtain ⟨hreleased, hkept⟩ :=
                  roomInv_consume (p := io.pool) (n := consumed) hal hroom
                exact ⟨hreleased, fun hready =>
                    .inl (hkept fun hnil => not_ready_empty hnil hready)⟩

/-! ## Runs

A run whose calls of `recv` leave room hands over no batch without room. And where a
call does not, the next steps of the code lead to such a batch, without anything from
outside. -/

/-- A step of the connection in which `recv` leaves room, or of the others. -/
inductive RoomyMove : Conn (World σ γ) → Conn (World σ γ) → Prop
  | own {c c' : Conn (World σ γ)} {a : ConnAction}
      (hs : connStep (processMulti api vx cfg) c a = some c')
      (hroom : ∀ n, a = .recv (.got n) → LeavesRoom c n) : RoomyMove c c'
  | others (c : Conn (World σ γ)) (w : World σ γ) (p : Pool) :
      RoomyMove c { c with world := w, io := { c.io with pool := p } }

variable {api vx cfg} in
theorem RoomyMove.connMove (h : RoomyMove api vx cfg c c') :
    ConnMove (serverHandler api vx cfg) c c' := by
  cases h with
  | own hs _ => exact .own hs
  | others w p => exact .others c w p

theorem RoomInv.step (h : RoomInv c) (hg : Gathered c pend more)
    (hmove : RoomyMove api vx cfg c c') : RoomInv c' := by
  cases hmove with
  | others w p => exact h.others w p
  | own hs hroom =>
      rcases connStep_cases _ hs with ⟨hpc, -, rfl⟩ | ⟨r, -, ha, hs⟩ | ⟨written, hpc, -, hs⟩ |
        ⟨r, hpc, -, hs⟩ | ⟨hpc, -, -, rfl⟩
      · refine h.of_eq ?_ rfl rfl rfl
        simp [hpc]
      · exact h.step_recv hg (fun n hn => hroom n (hn ▸ ha)) hs
      · refine h.step_swallow api vx cfg ?_ hpc hs
        rw [hg.off]
        exact Int.natCast_nonneg _
      · exact h.step_send hpc hs
      · rw [connAfterSend]
        refine h.of_eq ?_ rfl rfl rfl
        simp [hpc]

theorem roomInv_connNew (w : World σ γ) (conn : Nat) (pool : Pool) (stream : Bytes) :
    RoomInv (connNew w conn pool stream) :=
  ⟨fun _ => rfl, fun hready => absurd hready (not_batchReady_nil _ _)⟩

theorem roomInv_run {w : World σ γ} {conn : Nat} {pool : Pool} {stream : Bytes}
    (hrun : ReflTransGen (RoomyMove api vx cfg) (connNew w conn pool stream) c) :
    RoomInv c ∧ ∃ pend more, Gathered c pend more := by
  refine run_invariant (P := fun c => RoomInv c ∧ ∃ pend more, Gathered c pend more) ?_
    ⟨roomInv_connNew w conn pool stream, [], [], gathered_connNew w conn pool stream⟩ hrun
  intro c c' hinv hmove
  obtain ⟨h, pend, more, hg⟩ := hinv
  exact ⟨h.step api vx cfg hg hmove, hg.step (serverHandler api vx cfg) hmove.connMove⟩

/-- Where a batch is there, the code comes to it by itself, and the buffer is then
as it is now. -/
theorem batchReady_handsOver {total : Nat} {requests : Int} {data : Bytes}
    (h : BatchReady total requests data) : ∀ {c : Conn (World σ γ)} {written : Bool},
    c.pc = .swallowNextRequest written → 0 ≤ c.quietRecvOff →
    total = (bufGetReader c.io.recvBuf).length → requests = c.io.requests → data = newData c →
    ∃ c' batch, ReflTransGen (ConnMove (serverHandler api vx cfg)) c c' ∧ HandsOver c' batch ∧
      c'.io.recvBuf = c.io.recvBuf ∧ c'.io.pool = c.io.pool := by
  induction h with
  | last hwhole hloud =>
      intro c written hpc _ htotal hreq hdata
      subst htotal hreq hdata
      exact ⟨c, _, .refl, ⟨⟨written, hpc⟩, hwhole, hloud, rfl⟩, rfl, rfl⟩
  | held hwhole hquiet hrest ih =>
      intro c written hpc hoff htotal hreq hdata
      subst htotal hreq hdata
      let held : Conn (World σ γ) := { c with
        quietRecvOff := c.quietRecvOff + reqbufGetSaneRequestSz (newData c) 0x80
        io := { c.io with requests := c.io.requests + 1 } }
      have hstep : connStep (processMulti api vx cfg) c .run = some held := by
        have hswallow : connSwallow (processMulti api vx cfg) c written = some held := by
          rw [connSwallow]
          simp only []
          rw [if_neg (by omega), if_neg (by omega)]
          exact if_pos hquiet
        unfold connStep
        simp only [hpc, hswallow]
      have hoff' : 0 ≤ held.quietRecvOff := by
        show 0 ≤ c.quietRecvOff + reqbufGetSaneRequestSz (newData c) 0x80
        omega
      obtain ⟨c', batch, hrun, hover, hrecv, hpool⟩ := ih (c := held) hpc hoff' rfl rfl
        (newData_held _ hoff hwhole).symm
      exact ⟨c', batch, ReflTransGen.head (.own hstep) hrun, hover, hrecv, hpool⟩

/-- In a run in which `recv` always leaves room, the room is there whenever a batch
is handed over; and where it does not, the code goes on to hand over a batch
whose block has to move. -/
theorem metadataRoom_of_leavesRoom (w : World σ γ) (conn : Nat) (pool : Pool) (stream : Bytes) :
    (∀ (c : Conn (World σ γ)) (batch : Bytes),
      ReflTransGen (RoomyMove api vx cfg) (connNew w conn pool stream) c → HandsOver c batch →
      MetadataRoom c.io) ∧
    ∀ (c c' : Conn (World σ γ)) (n : Nat),
      ReflTransGen (ConnMove (serverHandler api vx cfg)) (connNew w conn pool stream) c →
      connStep (processMulti api vx cfg) c (.recv (.got n)) = some c' → ¬ LeavesRoom c n →
      ∃ c'' batch, ReflTransGen (ConnMove (serverHandler api vx cfg)) c' c'' ∧
        HandsOver c'' batch ∧ ¬ MetadataRoom c''.io := by
  refine ⟨fun c batch hrun hover => ?_, fun c c' n hrun hs hbad => ?_⟩
  · obtain ⟨h, pend, more, hg⟩ := roomInv_run api vx cfg hrun
    exact h.metadataRoom hg hover
  · obtain ⟨pend, more, hg⟩ := gathered_run (serverHandler api vx cfg) hrun
    obtain ⟨hready, hroom⟩ := Classical.not_imp.mp hbad
    rw [not_or] at hroom
    have hs : connRetryRecv c (.got n) = some c' := by
      rcases connStep_cases _ hs with ⟨-, ha, -⟩ | ⟨r, -, ha, hs⟩ | ⟨written, -, ha, -⟩ |
        ⟨r, -, ha, -⟩ | ⟨-, ha, -⟩
      · cases ha
      · cases ha
        exact hs
      · cases ha
      · cases ha
      · cases ha
    unfold connRetryRecv at hs
    simp only [] at hs
    split at hs
    · next hn =>
        have hfree : ¬ (n : Int) = (bufGetWriter c.io.pool c.io.recvBuf 0).2.2 := by
          intro hall
          refine hroom.1 ?_
          rw [roomLeft]
          omega
        rw [if_neg hfree] at hs
        have hlen : (c.input.take n).length = n := by
          rw [List.length_take]
          omega
        obtain ⟨hdata, htotal, htail⟩ := received_room hg hlen
        cases hs
        obtain ⟨c'', batch, hrun', hover, hrecv, -⟩ := batchReady_handsOver api vx cfg hready
          (c := { c with
            io := { c.io with
              pool := (bufGetWriter c.io.pool c.io.recvBuf 0).1
              recvBuf := bufProduce (bufGetWriter c.io.pool c.io.recvBuf 0).2.1 (c.input.take n) }
            input := c.input.drop n
            pc := .swallowNextRequest false }) rfl
          (by show 0 ≤ c.quietRecvOff; rw [hg.off]; exact Int.natCast_nonneg _) htotal.symm rfl
          hdata.symm
        refine ⟨c'', batch, hrun', hover, fun hstays => hroom.2 ?_⟩
        have hfits := hstays.room
        rw [hrecv] at hfits
        exact htail ▸ hfits
    · cases hs

end Server

/-! ## A NOOP alone, and a great many of them -/

/-- All of a NOOP is received, with most of the block left. -/
theorem receivedNoop_run :
    ReflTransGen (RoomyMove mapEngine.toStStorageApi idleVx plainConfig)
      (connNew freshWorld 0 [] noop) (receivedConn freshWorld noop []) := by
  have hrecv := receivedConn_recv (processMulti mapEngine.toStStorageApi idleVx plainConfig)
    freshWorld [] noop_wellFormed.1 (by decide)
  refine (ReflTransGen.single (.own (a := .event) rfl nofun)).tail (.own hrecv ?_)
  intro n hn _
  cases hn
  exact .inr (by decide)

theorem metadataRoom_of_leavesRoom_noop :
    MetadataRoom (receivedConn freshWorld noop []).io :=
  (metadataRoom_of_leavesRoom mapEngine.toStStorageApi idleVx plainConfig freshWorld 0 []
    noop).1 _ noop receivedNoop_run (receivedConn_handsOver freshWorld noop_wellFormed (by decide)
      [] [])

/-- As many NOOPs as fit in a block, of which all but the last 16 bytes are
received at once. -/
def manyNoops : Bytes := (List.replicate 180224 noop).flatten

theorem manyNoops_split : ∃ more rest, manyNoops = noop ++ more ++ rest ∧
    (noop ++ more).length = 4325360 := by
  have hlen : (List.replicate 180223 noop).flatten.length = 4325352 := by
    rw [List.length_flatten, List.map_replicate, List.sum_replicate_nat]
    decide
  refine ⟨(List.replicate 180223 noop).flatten.take 4325336,
    (List.replicate 180223 noop).flatten.drop 4325336, ?_, ?_⟩
  · rw [manyNoops, List.replicate_succ, List.flatten_cons, List.append_assoc,
      List.take_append_drop]
  · rw [List.length_append, List.length_take, hlen]
    decide

/-- They are handed over with 16 bytes left in the block. -/
theorem manyNoops_moves : ∃ c : Conn (World (Bytes → Option Bytes) Unit),
    ReflTransGen (ConnMove (serverHandler mapEngine.toStStorageApi idleVx plainConfig))
      (connNew freshWorld 0 [] manyNoops) c ∧ HandsOver c noop ∧ ¬ MetadataRoom c.io := by
  obtain ⟨more, rest, hsplit, hlen⟩ := manyNoops_split
  have hne : noop ++ more ≠ [] := List.ne_nil_of_length_pos (by omega)
  have hshort : ((noop ++ more).length : Int) < initialBufSize := by
    rw [hlen, initialBufSize_eq]
    decide
  have hrun := receivedConn_run
    (serverHandler mapEngine.toStStorageApi idleVx plainConfig) freshWorld rest hne hshort
  rw [← hsplit] at hrun
  refine ⟨receivedConn freshWorld (noop ++ more) rest, hrun,
    receivedConn_handsOver freshWorld noop_wellFormed (by decide) more rest, fun hroom => ?_⟩
  have htail : bufTail (receivedConn freshWorld (noop ++ more) rest).io.recvBuf = 16 := by
    show initialBufSize - ((noop ++ more).length : Int) = 16
    rw [hlen, initialBufSize_eq]
    decide
  have hfits := hroom.room
  rw [htail] at hfits
  exact absurd hfits (by decide)

theorem metadataRoom_manyNoops :
    ¬ ∀ (stream : Bytes) (c : Conn (World (Bytes → Option Bytes) Unit)) (batch : Bytes),
      ReflTransGen (ConnMove (serverHandler mapEngine.toStStorageApi idleVx plainConfig))
        (connNew freshWorld 0 [] stream) c → HandsOver c batch → MetadataRoom c.io := by
  intro hall
  obtain ⟨c, hrun, hover, hmoves⟩ := manyNoops_moves
  exact hmoves (hall manyNoops c noop hrun hover)

end Smalltable.Proofs
