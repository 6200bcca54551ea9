import Smalltable.Proofs.Framing
import Smalltable.Proofs.Table

/-!
# What serving a batch does to the buffers

Everything that happens to the buffers of a connection while its requests are
served is one of four moves: room is asked for in either buffer, bytes are
produced into room that is there, or bytes are given back. So what a move
keeps, `process_multi` keeps, whatever the commands, the engine and the guests
do.

The moves are also recorded in the buffers, so what is shown of them can be used of a
whole run: `BufferRange` counts on the room they leave, `MetadataRoom` on the block that
they do not move.

A builtin command asks for room and produces once. A process may produce as often as it
likes, and when it fails all of this is given back and one message for each request
produced instead.
-/

namespace Smalltable.Proofs

open Smalltable.Ref Relation

/-- All that happens to the buffers of a connection, one at a time. -/
inductive IoMove : Io → Io → Prop
  | recvRoom (io : Io) (n : Int) : IoMove io { io with
      pool := (bufGetWriter io.pool io.recvBuf n).1
      recvBuf := (bufGetWriter io.pool io.recvBuf n).2.1 }
  | sendRoom (io : Io) (n : Int) : IoMove io { io with
      pool := (bufGetWriter io.pool io.sendBuf n).1
      sendBuf := (bufGetWriter io.pool io.sendBuf n).2.1 }
  | produce (io : Io) (bs : Bytes)
      (hroom : io.sendBuf.stopOff + bs.length ≤ io.sendBuf.bufSz) :
      IoMove io { io with sendBuf := bufProduce io.sendBuf bs }
  | rollback (io : Io) (n : Int) :
      IoMove io { io with sendBuf := bufRollbackProduced io.sendBuf n }

abbrev IoMoves := ReflTransGen IoMove

/-- Room is asked for and used. -/
theorem IoMoves.write {io0 io : Io} (h : IoMoves io0 io) {n : Int} {bs : Bytes}
    (hlen : (bs.length : Int) ≤ (bufGetWriter io.pool io.sendBuf n).2.2) :
    IoMoves io0 { io with
      pool := (bufGetWriter io.pool io.sendBuf n).1
      sendBuf := bufProduce (bufGetWriter io.pool io.sendBuf n).2.1 bs } := by
  have hsz : (bufGetWriter io.pool io.sendBuf n).2.2
      = (bufGetWriter io.pool io.sendBuf n).2.1.bufSz
        - (bufGetWriter io.pool io.sendBuf n).2.1.stopOff := rfl
  refine (h.tail (.sendRoom io n)).tail (.produce _ bs ?_)
  show (bufGetWriter io.pool io.sendBuf n).2.1.stopOff + bs.length
    ≤ (bufGetWriter io.pool io.sendBuf n).2.1.bufSz
  omega

theorem bufGetUsed_writer (p : Pool) (b : Buffer) (minSize : Int) :
    bufGetUsed (bufGetWriter p b minSize).2.1 = bufGetUsed b := by
  obtain ⟨hstart, hstop, -⟩ := bufTakeBlock_offsets p b
  show (bufTakeBlock p b).2.stopOff - (bufTakeBlock p b).2.startOff = b.stopOff - b.startOff
  rw [hstart, hstop]

theorem bufGetReader_writer (p : Pool) (b : Buffer) (n : Int) :
    bufGetReader (bufGetWriter p b n).2.1 = bufGetReader b := by
  obtain ⟨hstart, -, hmem⟩ := bufTakeBlock_offsets p b
  show List.drop (bufTakeBlock p b).2.startOff.toNat (bufTakeBlock p b).2.mem
    = List.drop b.startOff.toNat b.mem
  rw [hstart, hmem]

theorem length_packResponse_le {bufSz : Int} {res : StRes} {out : Bytes}
    (hsz : (memcacheHeaderSize : Int) ≤ bufSz) (h : packResponse bufSz res = some out) :
    (out.length : Int) ≤ bufSz := by
  unfold packResponse at h
  simp only [] at h
  repeat' split at h
  all_goals try cases h
  rw [List.length_append, length_packHeader, length_peek]
  omega

theorem length_errorFromReqbuf_le {request : Bytes} {bufSz : Int} {status : Nat}
    {errStr : Option Bytes} {out : Bytes} (hsz : (memcacheHeaderSize : Int) ≤ bufSz)
    (h : errorFromReqbuf request bufSz status errStr = some out) :
    (out.length : Int) ≤ bufSz := by
  unfold errorFromReqbuf at h
  split at h
  · cases h
  · exact length_packResponse_le hsz h

section Moves

variable {σ γ : Type} (api : StStorageApi σ) (vx : Vx γ) (cfg : Config γ)

/-- Of the system calls, one writes to the connection. -/
theorem syscalls_io {pid num : Nat} {s s' : Sys σ γ} (hnum : num ≠ 0xFF03)
    (hs : syscalls api vx pid num s = some s') : s'.io = s.io := by
  unfold syscalls at hs
  split at hs
  · unfold syscallExit withProc at hs
    repeat' split at hs
    all_goals (cases hs; try rfl)
  · unfold syscallBrk at hs
    simp only [] at hs
    repeat' split at hs
    all_goals (cases hs; rfl)
  · unfold syscallWrite at hs
    simp only [] at hs
    repeat' split at hs
    all_goals (cases hs; rfl)
  · unfold syscallRegister at hs
    simp only [] at hs
    repeat' split at hs
    all_goals (cases hs; try rfl)
  · unfold syscallUnregister withProc at hs
    simp only [] at hs
    repeat' split at hs
    all_goals (cases hs; try rfl)
  · unfold syscallReadrequests withProc at hs
    simp only [] at hs
    repeat' split at hs
    all_goals (cases hs; try rfl)
  · exact absurd rfl hnum
  · unfold syscallStGet at hs
    simp only [] at hs
    repeat' split at hs
    all_goals (cases hs; rfl)
  · unfold syscallStPrefetch at hs
    simp only [] at hs
    repeat' split at hs
    all_goals (cases hs; rfl)
  · unfold syscallStSet at hs
    simp only [] at hs
    repeat' split at hs
    all_goals (cases hs; rfl)
  · unfold syscallStDel at hs
    simp only [] at hs
    repeat' split at hs
    all_goals (cases hs; rfl)
  · unfold syscallStGetrandom at hs
    simp only [] at hs
    repeat' split at hs
    all_goals (cases hs; rfl)
  · cases hs; rfl

theorem syscallWriteresponses_moves {pid : Nat} {s s' : Sys σ γ}
    (hs : syscallWriteresponses vx pid s = some s') : IoMoves s.io s'.io := by
  unfold syscallWriteresponses withProc at hs
  split at hs
  · cases hs
  · simp only [] at hs
    split at hs
    · cases hs; exact .refl
    · next hlen =>
        split at hs
        · cases hs; exact .refl
        · split at hs
          · cases hs
          · have hroom := bufGetWriter_room s.io.pool s.io.sendBuf
              (asInt (vx.reg s.guest .ecx))
            have hfit : ((vx.read s.guest (vx.reg s.guest .edx)
                (asInt (vx.reg s.guest .ecx)).toNat).length : Int)
                ≤ (bufGetWriter s.io.pool s.io.sendBuf (asInt (vx.reg s.guest .ecx))).2.2 := by
              rw [vx.length_read]
              omega
            split at hs
            · cases hs; exact IoMoves.write .refl hfit
            · cases hs; exact IoMoves.write .refl hfit

theorem doSyscall_moves {pid : Nat} {s s' : Sys σ γ} (hs : doSyscall api vx pid s = some s') :
    IoMoves s.io s'.io := by
  unfold doSyscall at hs
  split at hs
  · cases hs
  · next s1 hs1 =>
      cases hs
      by_cases hnum : vx.reg s.guest .eax = 0xFF03
      · rw [hnum] at hs1
        have h1 := syscallWriteresponses_moves vx hs1
        exact h1
      · have hio := syscalls_io api vx hnum hs1
        show IoMoves s.io s1.io
        rw [hio]

theorem processRun_moves {limit : Int} {pid : Nat} {w w' : World σ γ} {io io' : Io} {r : Int}
    (hs : processRun api vx limit pid w io = some (w', io', r)) : IoMoves io io' := by
  obtain ⟨pr, g, s, pr', -, -, hloop, -, -, rfl, -⟩ := processRun_loop api vx hs
  exact processRunLoop_invariant api vx (P := fun _ io' => IoMoves io io')
    (fun h hcall => h.trans (doSyscall_moves api vx hcall)) _ _ .refl hloop

theorem unknownCommands_moves {io io' : Io} {reqBuf : Bytes}
    (hs : unknownCommands io reqBuf = some io') : IoMoves io io' := by
  refine walk_invariant (P := fun io' => IoMoves io io') ?_ ReflTransGen.refl hs
  intro s f s' hmoves hb
  rcases hb with hb | hb
  · simp only [] at hb
    split at hb
    · cases hb
    · next produced hp =>
        cases hb
        refine hmoves.write (length_errorFromReqbuf_le ?_ hp)
        have hroom := bufGetWriter_room s.pool s.sendBuf maxRequestSize
        have hle : (memcacheHeaderSize : Int) ≤ maxRequestSize := by decide
        omega
  · simp only [] at hb
    split at hb
    · cases hb
    · cases hb

theorem processFailed_moves {pid : Nat} {w w' : World σ γ} {io io' : Io} {reqBuf : Bytes}
    (hs : processFailed pid w io reqBuf = some (w', io')) : IoMoves io io' := by
  unfold processFailed at hs
  split at hs
  · cases hs
  · next pr _ =>
      simp only [] at hs
      split at hs
      · cases hs
      · next io1 h1 =>
          cases hs
          have hrest := unknownCommands_moves h1
          split at hrest
          · exact ReflTransGen.head (.rollback io pr.sendSz) hrest
          · exact hrest

theorem processCommandsCallback_moves {pid : Nat} {w w' : World σ γ} {io io' : Io}
    {reqBuf : Bytes}
    (hs : processCommandsCallback api vx cfg w io reqBuf pid = some (w', io')) :
    IoMoves io io' := by
  unfold processCommandsCallback at hs
  split at hs
  · cases hs
  · split at hs
    · exact processFailed_moves hs
    · split at hs
      · cases hs
      · simp only [] at hs
        split at hs
        · cases hs
        · next w1 io1 r hr =>
            have h1 := processRun_moves api vx hr
            split at hs
            · exact h1.trans (processFailed_moves hs)
            · split at hs
              · cases hs
              · split at hs
                · exact h1.trans (processFailed_moves hs)
                · cases hs; exact h1

/-! A process that is being loaded has no connection to write to yet, so a
handler leaves the buffers alone. -/

/-- The process has not been given a connection to write to. -/
def Mute (w : World σ γ) (pid : Nat) : Prop :=
  ∀ pr, w.procs pid = some pr → pr.sendBuf = none

theorem dropLooser_self {w w' : World σ γ} {pid : Nat} {e : CmdEntry}
    (hd : dropLooser w pid e = some w') : w'.procs pid = w.procs pid := by
  rcases dropLooser_cases hd with ⟨rfl, -⟩ | ⟨q, pr, -, hne, -, hcase⟩
  · rfl
  · rcases hcase with ⟨-, rfl⟩ | ⟨-, rfl⟩
    · exact if_neg hne.symm
    · exact if_neg hne.symm

/-- `send_buf` and `send_sz` of a process. -/
def sending (w : World σ γ) (pid : Nat) : Option (Option Nat × Int) :=
  (w.procs pid).map fun pr => (pr.sendBuf, pr.sendSz)

theorem sending_eq {w w' : World σ γ} {pid : Nat} {pr pr' : Process γ}
    (hpr : w.procs pid = some pr) (hpr' : w'.procs pid = some pr')
    (hbuf : pr'.sendBuf = pr.sendBuf) (hsz : pr'.sendSz = pr.sendSz) :
    sending w' pid = sending w pid := by
  rw [sending, sending, hpr', hpr, Option.map_some, Option.map_some, hbuf, hsz]

theorem sending_congr {w w' : World σ γ} {pid : Nat} (h : w'.procs pid = w.procs pid) :
    sending w' pid = sending w pid := by
  rw [sending, sending, h]

/-- The call that writes to the connection is also the only one that counts
what the process has sent. -/
theorem syscalls_sending {pid num : Nat} {s s' : Sys σ γ} (hnum : num ≠ 0xFF03)
    (hs : syscalls api vx pid num s = some s') : sending s'.world pid = sending s.world pid := by
  have hsame : SameWorld s.world s'.world → sending s'.world pid = sending s.world pid :=
    fun hw => sending_congr (congrFun hw.2.1 pid)
  unfold syscalls at hs
  split at hs
  · unfold syscallExit withProc at hs
    split at hs
    · cases hs
    · next pr hpr => cases hs; exact sending_eq hpr (procs_setProc_self s.world pid _) rfl rfl
  · exact hsame (syscallBrk_same vx hs)
  · exact hsame (syscallWrite_same vx hs)
  · unfold syscallRegister at hs
    simp only [] at hs
    split at hs
    · cases hs; rfl
    · split at hs
      · cases hs
      · next w hw =>
          have hself := dropLooser_self hw
          split at hs
          · cases hs
          · next pr hpr =>
              split at hs
              · cases hs
                refine Eq.trans ?_ (sending_congr hself)
                exact sending_eq hpr (procs_setProc_self w pid _) rfl rfl
              · cases hs; exact sending_congr hself
  · unfold syscallUnregister withProc at hs
    simp only [] at hs
    split at hs
    · cases hs; rfl
    · split at hs
      · cases hs; rfl
      · split at hs
        · cases hs
        · next pr hpr => cases hs; exact sending_eq hpr (procs_setProc_self s.world pid _) rfl rfl
  · unfold syscallReadrequests withProc at hs
    split at hs
    · cases hs
    · next pr hpr =>
        simp only [] at hs
        split at hs
        · cases hs; rfl
        · split at hs
          · cases hs; rfl
          · split at hs
            · cases hs; rfl
            · cases hs; exact sending_eq hpr (procs_setProc_self s.world pid _) rfl rfl
  · exact absurd rfl hnum
  · exact hsame (syscallStGet_same api vx hs)
  · exact hsame (syscallStPrefetch_same api vx hs)
  · exact hsame (syscallStSet_same api vx hs)
  · exact hsame (syscallStDel_same api vx hs)
  · exact hsame (syscallStGetrandom_same vx hs)
  · cases hs; rfl

theorem Mute.of_sending {w w' : World σ γ} {pid : Nat} (h : Mute w pid)
    (hsend : sending w' pid = sending w pid) : Mute w' pid := by
  intro pr' hpr'
  rw [sending, sending, hpr'] at hsend
  obtain ⟨pr, hpr, heq⟩ := Option.map_eq_some_iff.mp hsend.symm
  exact (congrArg Prod.fst heq).symm.trans (h pr hpr)

theorem syscalls_mute {pid num : Nat} {s s' : Sys σ γ} (h : Mute s.world pid)
    (hs : syscalls api vx pid num s = some s') : Mute s'.world pid ∧ s'.io = s.io := by
  by_cases hnum : num = 0xFF03
  · subst hnum
    have hs : syscallWriteresponses vx pid s = some s' := hs
    unfold syscallWriteresponses withProc at hs
    split at hs
    · cases hs
    · next pr hpr =>
        have hnone := h pr hpr
        simp only [hnone] at hs
        split at hs
        · cases hs; exact ⟨h, rfl⟩
        · split at hs
          · cases hs; exact ⟨h, rfl⟩
          · split at hs
            · cases hs
            · next hne => exact absurd hne (by simp)
  · exact ⟨h.of_sending (syscalls_sending api vx hnum hs), syscalls_io api vx hnum hs⟩

theorem doSyscall_mute {pid : Nat} {s s' : Sys σ γ} (h : Mute s.world pid)
    (hs : doSyscall api vx pid s = some s') : Mute s'.world pid ∧ s'.io = s.io := by
  unfold doSyscall at hs
  split at hs
  · cases hs
  · next s1 hs1 =>
      cases hs
      have h1 := syscalls_mute api vx (by exact h) hs1
      exact h1

theorem processRun_mute {limit : Int} {pid : Nat} {w w' : World σ γ} {io io' : Io} {r : Int}
    (h : Mute w pid) (hs : processRun api vx limit pid w io = some (w', io', r)) : io' = io := by
  obtain ⟨pr, g, s, pr', -, -, hloop, -, -, rfl, -⟩ := processRun_loop api vx hs
  have h1 : Mute s.world pid ∧ s.io = io :=
    processRunLoop_invariant api vx (P := fun w io' => Mute w pid ∧ io' = io)
      (fun hmute hcall => by
        obtain ⟨h2, hio⟩ := doSyscall_mute api vx hmute.1 hcall
        exact ⟨h2, hio.trans hmute.2⟩) _ _ ⟨h, rfl⟩ hloop
  exact h1.2

theorem cmdCodeLoad_io {w w' : World σ γ} {io io' : Io} {req : StReq} {res res' : StRes}
    (hs : cmdCodeLoad api vx cfg w io req res = some (w', io', res')) : io' = io := by
  rcases cmdCodeLoad_cases api vx cfg hs with ⟨-, hio⟩ | ⟨-, -, hio⟩ | ⟨g, w1, r, -, hr, -⟩
  · exact hio
  · exact hio
  · refine processRun_mute api vx ?_ hr
    intro q hq
    rw [procs_setProc_self] at hq
    cases hq
    rfl

theorem callBuiltin_io {ptr : CmdPtr} {w w' : World σ γ} {io io' : Io} {req : StReq}
    {res res' : StRes} (hs : callBuiltin api vx cfg ptr w io req res = some (w', io', res')) :
    io' = io := by
  unfold callBuiltin at hs
  split at hs
  · exact (refuse_same hs).2
  · unfold cmdGet at hs
    simp only [] at hs
    repeat' split at hs
    all_goals first
      | exact (refuse_same hs).2
      | (cases hs; try rfl)
  · unfold cmdSet at hs
    simp only [] at hs
    repeat' split at hs
    all_goals first
      | exact (refuse_same hs).2
      | (cases hs; try rfl)
  · unfold cmdDelete at hs
    simp only [] at hs
    repeat' split at hs
    all_goals first
      | exact (refuse_same hs).2
      | (cases hs; try rfl)
  · unfold cmdNoop at hs
    repeat' split at hs
    all_goals first
      | exact (refuse_same hs).2
      | (cases hs; try rfl)
  · unfold cmdVersion at hs
    repeat' split at hs
    all_goals first
      | exact (refuse_same hs).2
      | (cases hs; try rfl)
  · unfold cmdGetKeys at hs
    repeat' split at hs
    all_goals first
      | exact (refuse_same hs).2
      | (cases hs; try rfl)
  · exact cmdCodeLoad_io api vx cfg hs
  · unfold cmdCodeUnload at hs
    repeat' split at hs
    all_goals first
      | exact (refuse_same hs).2
      | (cases hs; try rfl)
  · unfold cmdCodeCheck at hs
    repeat' split at hs
    all_goals first
      | exact (refuse_same hs).2
      | (cases hs; try rfl)
  · cases hs

theorem builtinCommand_moves {ptr : CmdPtr} {w w' : World σ γ} {io io' : Io} {request : Bytes}
    (hs : builtinCommand api vx cfg ptr w io request = some (w', io')) : IoMoves io io' := by
  have hroom := bufGetWriter_room io.pool io.sendBuf (maxRequestSize + sizeofMcMetadata)
  have hle : (memcacheHeaderSize : Int) ≤ maxRequestSize + sizeofMcMetadata := by decide
  unfold builtinCommand at hs
  simp only [] at hs
  split at hs
  · unfold processSingle at hs
    simp only [] at hs
    split at hs
    · cases hs
    · next w1 io1 out hout =>
        split at hout
        · cases hout
        · next w2 io2 res hcall =>
            split at hout
            · cases hout
            · next hpack =>
                cases hout
                cases hs
                rw [callBuiltin_io api vx cfg hcall]
                exact IoMoves.write .refl (length_packResponse_le (by omega) hpack)
  · split at hs
    · cases hs
    · next hpack =>
        cases hs
        exact IoMoves.write .refl (length_errorFromReqbuf_le (by omega) hpack)

theorem builtinCommandsCallback_moves {ptr : CmdPtr} {w w' : World σ γ} {io io' : Io}
    {reqBuf : Bytes}
    (hs : builtinCommandsCallback api vx cfg ptr w io reqBuf = some (w', io')) :
    IoMoves io io' := by
  refine walk_invariant (P := fun st : World σ γ × Io => IoMoves io st.2) ?_
    ReflTransGen.refl hs
  intro st f st' hst hb
  simp only [Option.map_eq_some_iff] at hb
  rcases hb with ⟨r, hr, hy⟩ | ⟨r, hr, hy⟩
  · cases hy
    exact hst.trans (builtinCommand_moves api vx cfg hr)
  · cases hy

theorem runGroup_moves {g : Group} {w w' : World σ γ} {io io' : Io}
    (hs : runGroup api vx cfg g w io = some (w', io')) : IoMoves io io' := by
  unfold runGroup at hs
  split at hs
  · cases hs; exact .refl
  · split at hs
    · cases hs
    · split at hs
      · split at hs
        · exact processCommandsCallback_moves api vx cfg hs
        · cases hs
      · exact builtinCommandsCallback_moves api vx cfg hs

/-- A batch, whatever its commands, reaches the buffers by moves only, the first of
which asks for room for the metadata, and all of it is consumed. -/
theorem processMulti_room {w w' : World σ γ} {io io' : Io} {reqBuf : Bytes} {n : Int}
    (hs : processMulti api vx cfg w io reqBuf = some (w', io', n)) :
    IoMoves { io with
      pool := (bufGetWriter io.pool io.recvBuf sizeofMcMetadata).1
      recvBuf := (bufGetWriter io.pool io.recvBuf sizeofMcMetadata).2.1 } io' ∧
      n = reqBuf.length := by
  unfold processMulti at hs
  simp only [] at hs
  split at hs
  · cases hs
  · split at hs
    · cases hs
    · next d hd =>
        have h1 : IoMoves { io with
            pool := (bufGetWriter io.pool io.recvBuf sizeofMcMetadata).1
            recvBuf := (bufGetWriter io.pool io.recvBuf sizeofMcMetadata).2.1 } d.io := by
          refine walk_invariant (P := fun d : Dispatch σ γ => IoMoves _ d.io) ?_ .refl hd
          intro d f d' hmoves hb
          simp only [Option.map_eq_some_iff] at hb
          rcases hb with ⟨r, hr, hy⟩ | ⟨r, hr, hy⟩
          · cases hy
            unfold dispatchStep at hr
            simp only [] at hr
            split at hr
            · cases hr; exact hmoves
            · split at hr
              · cases hr
              · next hrun =>
                  cases hr
                  exact hmoves.trans (runGroup_moves api vx cfg hrun)
          · cases hy
        split at hs
        · cases hs
        · next hrun =>
            cases hs
            exact ⟨h1.trans (runGroup_moves api vx cfg hrun), rfl⟩

theorem processMulti_moves {w w' : World σ γ} {io io' : Io} {reqBuf : Bytes} {n : Int}
    (hs : processMulti api vx cfg w io reqBuf = some (w', io', n)) :
    IoMoves io io' ∧ n = reqBuf.length := by
  obtain ⟨hmoves, hn⟩ := processMulti_room api vx cfg hs
  exact ⟨ReflTransGen.head (.recvRoom io sizeofMcMetadata) hmoves, hn⟩

end Moves

end Smalltable.Proofs
