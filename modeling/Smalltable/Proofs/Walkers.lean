import Smalltable.Proofs.Batch
import Smalltable.Proofs.ErrorPath
import Smalltable.Proofs.MetadataRoom
import Smalltable.Proofs.ProxySpread

/-!
# The loops that step from request to request

`reqbuf_get_sane_request_sz` adds in 32 bits and compares as `int`, so a body of
almost 4 gigabytes passes for a short one; the tests behind the addition catch
that. What comes through is the size of a frame whose parts lie side by side in
it (`SaneSize`).

Everything behind the check trusts it. There is one loop in the program, written
out five times: it steps by `MC_GET_REQUEST_SZ` and ends when the pointer meets
the end of the buffer. Over a buffer that is made of accepted requests it is the
loop over the list of them (`Walks`). `conn_recv` hands over such a buffer, the
groups of `process_multi` are runs of its requests, and what the proxy keeps for
a server until the exchange ends are some of its requests, in order, and the
NOOP (`Spread`).

What the loops of the server step through is what stands at the pointer they are
given, and `process_multi` begins by asking for room behind the batch. If that
makes the block move, the pointer goes to memory that has been given back, and
nothing is known of what is there (`startReqBuf`). So the loops of the server
visit the batch when its block stays (`serverWalks_stays`), and only by luck when
it does not: whatever else is there, they visit something else
(`serverWalks_moved`). `MetadataRoom` has the condition on `recv` under which the
block stays in a whole run, and that nothing weaker would do.

The proxy asks for no such room, and its loops need no condition.
-/

namespace Smalltable.Proofs

open Smalltable.Ref Smalltable.Spec Relation

/-! ## The size check

The sum of the header and the body is taken in 32 bits, and what is compared are parts
of it. An accepted size is that of the sum without wrapping, as the parts have limits of
their own. -/

/-- What is known of an accepted size. -/
structure SaneSize (buf : Bytes) (magic : UInt8) (r : Int) : Prop where
  header : memcacheHeaderSize ≤ r
  length : r ≤ buf.length
  max : r ≤ maxRequestSize
  body : r = memcacheHeaderSize + mcGetBodyLength buf
  magic : mcGetMagic buf = magic
  extras : (unpackRequest buf).extras.length = mcGetExtrasLength buf
  key : (unpackRequest buf).key.length = mcGetKeyLength buf
  parts : buf.take r.toNat = buf.take memcacheHeaderSize ++ ((unpackRequest buf).extras ++
    ((unpackRequest buf).key ++ (unpackRequest buf).value))

/-- The three slices follow one another. -/
theorem take_slices (buf : Bytes) (a b c d : Nat) : buf.take (a + b + c + d)
    = buf.take a ++ (slice buf a b ++ (slice buf (a + b) c ++ slice buf (a + b + c) d)) := by
  rw [List.take_add, List.take_add, List.take_add, List.append_assoc, List.append_assoc]
  rfl

theorem length_slice_within {buf : Bytes} {off n : Nat} (h : off + n ≤ buf.length) :
    (slice buf off n).length = n := by
  rw [length_slice]
  omega

theorem reqbufGetSaneRequestSz_sane (buf : Bytes) (magic : UInt8) :
    reqbufGetSaneRequestSz buf magic = -1 ∨ reqbufGetSaneRequestSz buf magic = 0 ∨
      SaneSize buf magic (reqbufGetSaneRequestSz buf magic) := by
  by_cases hbroken : reqbufGetSaneRequestSz buf magic = -1
  · exact .inl hbroken
  · by_cases hmore : reqbufGetSaneRequestSz buf magic = 0
    · exact .inr (.inl hmore)
    · refine .inr (.inr ?_)
      obtain ⟨hpos, hle, hwf⟩ := reqbufGetSaneRequestSz_take hbroken hmore
      generalize reqbufGetSaneRequestSz buf magic = r at hpos hle hwf
      obtain ⟨n, rfl⟩ := Int.eq_ofNat_of_zero_le hpos.le
      have hfacts := hwf.facts
      have hmax := hfacts.length_lt
      have hheader := hfacts.header
      have hlen := hfacts.length
      have hfits := hfacts.fits
      have hmagic := hfacts.magic
      rw [Int.toNat_natCast] at hheader hlen hfits hmagic hmax
      have htake : (buf.take n).length = n := by
        rw [List.length_take]
        omega
      have hsplit : buf.take n ++ buf.drop n = buf := List.take_append_drop n buf
      rw [← mcGetBodyLength_append (buf.drop n) hheader, hsplit] at hlen hfits
      rw [← mcGetExtrasLength_append (buf.drop n) hheader, hsplit,
        ← mcGetKeyLength_append (buf.drop n) hheader, hsplit] at hfits
      rw [← mcGetMagic_append (buf.drop n) hheader, hsplit] at hmagic
      rw [htake] at hheader hlen hmax
      have hhdr := memcacheHeaderSize_eq
      have hmaxsz := maxRequestSize_eq
      have hvalue : (mcGetBodyLength buf + 2 ^ 33 - mcGetExtrasLength buf - mcGetKeyLength buf)
          % 2 ^ 32 = mcGetBodyLength buf - mcGetExtrasLength buf - mcGetKeyLength buf := by
        omega
      refine ⟨by omega, by omega, by omega, by omega, hmagic, ?_, ?_, ?_⟩
      · exact length_slice_within (by omega)
      · exact length_slice_within (by omega)
      · have hsum : n = memcacheHeaderSize + mcGetExtrasLength buf + mcGetKeyLength buf
            + (mcGetBodyLength buf - mcGetExtrasLength buf - mcGetKeyLength buf) := by omega
        rw [Int.toNat_natCast]
        simp only [unpackRequest, hvalue]
        rw [← take_slices, ← hsum]

/-! ## The loop

From request to request the pointer is at the beginning of one of them, so the length it
reads there is that of a frame, and the next one begins where this one ends. -/

/-- The loop over `reqBuf` visits each of `frames` once, in order, and ends at the
end of the buffer, whatever its body does. -/
structure Walks (reqBuf : Bytes) (frames : List Bytes) : Prop where
  wf : ∀ f ∈ frames, WellFormed 0x80 f
  each : ∀ {σ : Type} (s : σ) (body : σ → Bytes → Option (ForInStep σ)),
    forRequests reqBuf s body = foldFrames body s frames

theorem walks_flatten {frames : List Bytes} (hwf : ∀ f ∈ frames, WellFormed 0x80 f) :
    Walks frames.flatten frames :=
  ⟨hwf, fun s body => forRequests_flatten hwf s body⟩

/-- Only one buffer is visited as `frames`. -/
theorem Walks.flatten {reqBuf : Bytes} {frames : List Bytes} (h : Walks reqBuf frames) :
    reqBuf = frames.flatten := by
  have hlog := h.each ([] : List Bytes) fun l f => some (.yield (l ++ [f]))
  rw [foldFrames_total (fun l f => l ++ [f])] at hlog
  have hall := walk_log hlog
  rw [List.flatten_nil, List.nil_append] at hall
  have hsnoc : frames.foldl (fun l f => l ++ [f]) [] = frames := by
    rw [List.foldl_append_eq_append, List.nil_append, ← List.flatMap_def,
      List.flatMap_singleton']
  rw [← hall, hsnoc]

theorem BatchOk.walks {batch : Bytes} {frames : List Bytes} (h : BatchOk batch frames) :
    Walks batch frames := by
  rw [h.flatten]
  exact walks_flatten h.wf

section Server

variable {σ γ : Type} (api : StStorageApi σ) (vx : Vx γ) (cfg : Config γ)

/-- The end of `try_prefetch`. -/
def prefetchEnd (p : Prefetch σ) : σ :=
  if p.bKey.length ≠ 0 then storagePrefetch api p.store p.bKey else p.store

/-- The loops of the server over a batch and over its groups. The old block of
`recv_buf`, if it is not the one any more, has `freed` where the batch was. -/
structure ServerWalks (w : World σ γ) (io : Io) (freed batch : Bytes) (frames : List Bytes) :
    Prop where
  walks : Walks (startReqBuf io freed batch) frames
  tryPrefetch : ∀ (t : CmdTable) (store : σ),
    Ref.tryPrefetch api t store (startReqBuf io freed batch)
      = some (prefetchEnd api (frames.foldl (prefetchStep api t) { store := store }))
  processMulti : processMultiAt api vx cfg w io freed batch
    = (dispatchStart api w io batch).bind fun d => (dispatchAll api vx cfg d frames).bind fun d' =>
        (runGroup api vx cfg d'.group d'.world d'.io).map fun r => (r.1, r.2, (batch.length : Int))
  groups : ∀ r ∈ batchRuns api vx cfg w io frames, r.requests <:+: frames ∧
    Walks r.group.reqBuf r.requests ∧
    (∀ (ptr : CmdPtr) (w : World σ γ) (io : Io),
      builtinCommandsCallback api vx cfg ptr w io r.group.reqBuf
        = foldFrames (fun st f => (builtinCommand api vx cfg ptr st.1 st.2 f).map .yield) (w, io)
            r.requests) ∧
    ∀ io : Io, ∃ io', unknownCommands io r.group.reqBuf = some io' ∧
      Appended io.sendBuf io'.sendBuf (unknownAnswers r.requests)

theorem startReqBuf_stays {io : Io} (h : MetadataRoom io) (freed batch : Bytes) :
    startReqBuf io freed batch = batch := if_pos h.stays

/-- While the block stays, the loops visit the batch. -/
theorem serverWalks_stays (w : World σ γ) {io : Io} (hroom : MetadataRoom io) (freed : Bytes)
    {frames : List Bytes} (hwf : ∀ f ∈ frames, WellFormed 0x80 f) :
    ServerWalks api vx cfg w io freed frames.flatten frames := by
  have hstays := startReqBuf_stays hroom freed frames.flatten
  refine ⟨?_, fun t store => ?_, ?_, fun r hr => ?_⟩
  · rw [hstays]
    exact walks_flatten hwf
  · rw [hstays, Ref.tryPrefetch, forRequests_flatten hwf, foldFrames_total]
    rfl
  · rw [processMultiAt, hstays]
    exact processMulti_flatten api vx cfg hwf
  · obtain ⟨hbuf, hin⟩ := batchRuns_neighbours api vx cfg r hr
    have hreq : ∀ f ∈ r.requests, WellFormed 0x80 f := fun f hf => hwf f (hin.subset hf)
    rw [hbuf]
    exact ⟨hin, walks_flatten hreq, fun ptr w io =>
      builtinCommandsCallback_flatten api vx cfg ptr w io hreq, unknownCommands_appends hreq⟩

/-- When it moves, they visit the batch only if what is in its old place happens to
be the batch. -/
theorem serverWalks_moved (w : World σ γ) {io : Io} (hmoves : ¬ MetadataRoom io)
    {freed batch : Bytes} {frames : List Bytes} (hok : BatchOk batch frames) (hne : freed ≠ batch) :
    ¬ ServerWalks api vx cfg w io freed batch frames := by
  intro h
  have hseen := h.walks.flatten
  have hfreed : startReqBuf io freed batch = freed :=
    if_neg fun hstays => hmoves (metadataRoom_of_stays hstays)
  rw [hfreed, ← hok.flatten] at hseen
  exact hne hseen

/-- Every batch of the run is visited as the frames it is made of, whatever is in
blocks that have been given back. -/
def HandsOverWalked (c : Conn (World σ γ)) : Prop :=
  ∀ batch, HandsOver c batch → ∃ frames, BatchOk batch frames ∧
    ∀ freed : Bytes, freed.length = batch.length →
      ServerWalks api vx cfg c.world { c.io with requests := c.io.requests + 1 } freed batch frames

end Server

/-! ## The five loops

Those of the server go over what is handed over and over its groups, those of the proxy
over what is handed over and over what is kept for a server. -/

/-- The size check is sound. The loops agree with it on every batch: those of the
server, over the batch and over its groups, in every run in which `recv` leaves
room, and where it does not the code goes on to a batch that its loops do not
visit, unless it happens to be in two places; and the one of the proxy, over
what a server has been sent when its exchange fails. -/
theorem sizeCheck_sound_walked {σ γ : Type} (api : StStorageApi σ) (vx : Vx γ) (cfg : Config γ)
    (w : World σ γ) (env : ProxyEnv) (conn : Nat) (pool : Pool) (stream : Bytes) :
    (∀ (buf : Bytes) (magic : UInt8), reqbufGetSaneRequestSz buf magic = -1 ∨
      reqbufGetSaneRequestSz buf magic = 0 ∨
      SaneSize buf magic (reqbufGetSaneRequestSz buf magic)) ∧
    ((∀ c, ReflTransGen (RoomyMove api vx cfg) (connNew w conn pool stream) c →
        HandsOverWalked api vx cfg c) ∧
      ∀ (c c' : Conn (World σ γ)) (n : Nat),
        ReflTransGen (ConnMove (serverHandler api vx cfg)) (connNew w conn pool stream) c →
        connStep (processMulti api vx cfg) c (.recv (.got n)) = some c' → ¬ LeavesRoom c n →
        ∃ c'' batch, ReflTransGen (ConnMove (serverHandler api vx cfg)) c' c'' ∧
          HandsOver c'' batch ∧ ∀ frames freed, BatchOk batch frames → freed ≠ batch →
            ¬ ServerWalks api vx cfg c''.world { c''.io with requests := c''.io.requests + 1 }
              freed batch frames) ∧
    ∀ (text : Bytes) (w : ProxyWorld) (net : List Proxy.NetEvent)
      (c : Conn (ProxyWorld × List Proxy.NetEvent)) (batch : Bytes),
      loadConfigFromString env false {} text = some (w, none) →
      ReflTransGen (ProxyMove env) (connNew (w, net) conn pool stream) c →
      HandsOver c batch → ∃ frames, BatchOk batch frames ∧ Walks batch frames ∧
        ∀ (s : Proxy.Collect) (p1 p2 : Pool) (w1 : ProxyWorld) (net' : List Proxy.NetEvent)
          (xs : Nat → Option Exchange) (ptr : Nat) (x : Exchange),
          Proxy.collect env c.io.conn c.io.pool c.world.1 batch = some s →
          Proxy.appendNoops s.servers s.pool s.world = some (p1, w1) →
          Proxy.serveEvents p1 (Proxy.startExchanges s.servers w1) net' = some (p2, xs) →
          xs ptr = some x → x.pc ≠ .done →
          ∃ fs : List Bytes, fs.Sublist frames ∧
            Walks (bufGetReader x.srv.sendBuf) (fs ++ [noop]) := by
  refine ⟨reqbufGetSaneRequestSz_sane, ?_, ?_⟩
  · have hrooms := metadataRoom_of_leavesRoom api vx cfg w conn pool stream
    refine ⟨fun c hrun batch hover => ?_, fun c c' n hrun hs hbad => ?_⟩
    · obtain ⟨-, pend, more, hg⟩ := roomInv_run api vx cfg hrun
      obtain ⟨frames, hok⟩ := hg.batchOk hover
      have hroom := hrooms.1 c batch hrun hover
      refine ⟨frames, hok, fun freed _ => ?_⟩
      rw [hok.flatten]
      exact serverWalks_stays api vx cfg c.world ((metadataRoom_requests _ _).mpr hroom) freed
        hok.wf
    · obtain ⟨c'', batch, hrun', hover, hmoves⟩ := hrooms.2 c c' n hrun hs hbad
      refine ⟨c'', batch, hrun', hover, fun frames freed hok hne => ?_⟩
      exact serverWalks_moved api vx cfg c''.world
          (mt (metadataRoom_requests _ _).mp hmoves) hok hne
  · intro text w net c batch hload hrun hover
    obtain ⟨hquiet, pend, more, h⟩ := proxyRun_quiet env hload hrun
    obtain ⟨frames, hok⟩ := h.batchOk hover
    refine ⟨frames, hok, hok.walks, ?_⟩
    intro s p1 p2 w1 net' xs ptr x hcollect hnoops hserve hx hgoing
    rw [hok.flatten] at hcollect
    have hspread := collect_spread env c.io.conn hquiet hok.wf hcollect
    obtain ⟨-, fs, hfs, hkeeps⟩ := hspread.exchange hnoops hserve hx
    rcases hkeeps with ⟨-, hsend⟩ | ⟨hdone, -⟩
    · refine ⟨fs, hfs, ?_⟩
      rw [hsend.reader]
      refine walks_flatten fun f hf => ?_
      rcases List.mem_append.mp hf with hf | hf
      · exact hok.wf f (hfs.subset hf)
      · rw [List.mem_singleton.mp hf]
        exact noop_wellFormed
    · exact absurd hdone hgoing

/-- A NOOP, as a buffer and as a stream. -/
theorem sizeCheck_sound_walked_noop :
    SaneSize noop 0x80 24 ∧ ∃ frames, BatchOk noop frames ∧
      ∀ freed : Bytes, freed.length = noop.length →
        ServerWalks mapEngine.toStStorageApi idleVx plainConfig freshWorld
          { (receivedConn freshWorld noop []).io with requests := 1 } freed noop frames := by
  obtain ⟨hsize, hserver, -⟩ := sizeCheck_sound_walked mapEngine.toStStorageApi idleVx plainConfig
    freshWorld plainEnv 0 [] noop
  refine ⟨?_, ?_⟩
  · rcases hsize noop 0x80 with hbroken | hmore | hsane
    · exact absurd hbroken (by decide)
    · exact absurd hmore (by decide)
    · exact hsane
  · exact hserver.1 (receivedConn freshWorld noop []) receivedNoop_run noop
      (receivedConn_handsOver freshWorld noop_wellFormed (by decide) [] [])

/-- With all but 16 bytes of a block full of NOOPs received, the loops do not visit
the first of them: they are where it was. -/
theorem sizeCheck_walked_manyNoops :
    ¬ ∀ (stream : Bytes) (c : Conn (World (Bytes → Option Bytes) Unit)),
      ReflTransGen (ConnMove (serverHandler mapEngine.toStStorageApi idleVx plainConfig))
        (connNew freshWorld 0 [] stream) c →
      HandsOverWalked mapEngine.toStStorageApi idleVx plainConfig c := by
  intro hall
  obtain ⟨c, hrun, hover, hmoves⟩ := manyNoops_moves
  obtain ⟨frames, hok, hwalks⟩ := hall manyNoops c hrun noop hover
  refine serverWalks_moved _ idleVx plainConfig c.world
    (mt (metadataRoom_requests _ _).mp hmoves) hok ?_ (hwalks (List.replicate 24 0) (by decide))
  decide

end Smalltable.Proofs
