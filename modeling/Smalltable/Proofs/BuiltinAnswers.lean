import Smalltable.Proofs.Batch
import Smalltable.Proofs.CodeLoad
import Smalltable.Proofs.KeyListing
import Smalltable.Proofs.ProxyAnswers
import Smalltable.Proofs.ResponseSize

/-!
# One answer for each builtin request

A handler fills in a response and `pack_response` ends the process when a part of
it is not where it has to be. Every handler leaves one that can be packed
(`Packable`), whichever way it takes: an error is a value at the start of the
buffer, and what an engine or a compiler has to say is bounded by the room it was
given.

One handler may not come back at all. CODE_LOAD runs the new program, and a
program that answers before it was asked writes through a `send_buf` that is not
set yet. That is the only way (`doSyscall_none_iff`), and it depends on nothing
but what the program does in its first run.
-/

namespace Smalltable.Proofs

open Smalltable.Ref

/-! ## A program that answers early

`send_buf` of a process is set when its first group is served, and a call that writes
responses goes through it. Every other call comes back, by the invariant of the table:
what it is given to look up is there. -/

section Early

variable {σ γ : Type} (api : StStorageApi σ) (vx : Vx γ) (cfg : Config γ)

/-- Some system call of the run is `st_write_responses`, with arguments that pass
its tests. -/
def WritesLoop (pid : Nat) : Nat → Bool → Sys σ γ → Prop
  | left, irqSeen, s =>
      match runToTrap vx irqSeen s.guest with
      | (.syscall, g, irqSeen) =>
          match left with
          | 0 => False
          | left + 1 =>
              Writes vx g ∨
                match doSyscall api vx pid { s with guest := g } with
                | none => False
                | some s =>
                    match s.next with
                    | .continue => WritesLoop pid left irqSeen s
                    | _ => False
      | _ => False

/-- The program `g` does so in the run that CODE_LOAD starts. -/
def WritesFirst (w : World σ γ) (io : Io) (key : Bytes) (g : γ) : Prop :=
  WritesLoop api vx w.nextProc (cfg.syscallLimit * io.requests + 128 + 1).toNat false
    { world := (w.processNew key).setProc w.nextProc (some { key := key, machine := some g })
      io := io
      guest := g }

theorem dropLooser_isSome {w : World σ γ} (h : World.Inv w) (pid : Nat) (cmd : UInt8) :
    ∃ w', dropLooser w pid (commandGet w.cmdPointers cmd) = some w' := by
  unfold dropLooser commandGet
  split
  · next looser hptr =>
      split
      · exact ⟨_, rfl⟩
      · split at hptr
        · cases hptr
        · obtain ⟨-, hlive⟩ := h.slot_process hptr
          obtain ⟨pr, hpr⟩ := Option.ne_none_iff_exists'.mp hlive
          simp only [hpr]
          split
          · exact ⟨_, rfl⟩
          · exact ⟨_, rfl⟩
  · exact ⟨_, rfl⟩

theorem withProc_isSome {w : World σ γ} {pid : Nat} (h : w.procs pid ≠ none) {s : Sys σ γ}
    (hw : s.world = w) {f : Process γ → Option (Sys σ γ)} (hf : ∀ pr, ∃ s', f pr = some s') :
    ∃ s', withProc s pid f = some s' := by
  obtain ⟨pr, hpr⟩ := Option.ne_none_iff_exists'.mp h
  simp only [withProc, hw, hpr]
  exact hf pr

/-- The calls that do not answer a request come back. -/
theorem syscalls_isSome {pid num : Nat} {s : Sys σ γ} (h : World.Running s.world pid)
    (hnum : num ≠ 0xFF03) : ∃ s', syscalls api vx pid num s = some s' := by
  unfold syscalls
  split
  · exact withProc_isSome h.alive rfl fun pr => ⟨_, rfl⟩
  · unfold syscallBrk
    simp only []
    repeat' split
    all_goals exact ⟨_, rfl⟩
  · unfold syscallWrite
    simp only []
    repeat' split
    all_goals exact ⟨_, rfl⟩
  · unfold syscallRegister
    simp only []
    split
    · exact ⟨_, rfl⟩
    · obtain ⟨w', hw'⟩ := dropLooser_isSome h.toInv pid
        (asInt (vx.reg s.guest .edx)).toNat.toUInt8
      obtain ⟨pr, hpr⟩ := Option.ne_none_iff_exists'.mp h.alive
      simp only [hw', dropLooser_self hw', hpr]
      split
      · exact ⟨_, rfl⟩
      · exact ⟨_, rfl⟩
  · unfold syscallUnregister
    simp only []
    split
    · exact ⟨_, rfl⟩
    · split
      · exact ⟨_, rfl⟩
      · exact withProc_isSome h.alive rfl fun pr => ⟨_, rfl⟩
  · refine withProc_isSome h.alive rfl fun pr => ?_
    simp only []
    repeat' split
    all_goals exact ⟨_, rfl⟩
  · exact absurd rfl hnum
  · unfold syscallStGet
    simp only []
    repeat' split
    all_goals exact ⟨_, rfl⟩
  · unfold syscallStPrefetch
    simp only []
    repeat' split
    all_goals exact ⟨_, rfl⟩
  · unfold syscallStSet
    simp only []
    repeat' split
    all_goals exact ⟨_, rfl⟩
  · unfold syscallStDel
    simp only []
    repeat' split
    all_goals exact ⟨_, rfl⟩
  · unfold syscallStGetrandom
    simp only []
    repeat' split
    all_goals exact ⟨_, rfl⟩
  · exact ⟨_, rfl⟩

/-- In a process without a `send_buf`, a call ends the server exactly when it
answers. -/
theorem doSyscall_none_iff {pid : Nat} {s : Sys σ γ} (h : World.Running s.world pid)
    (hmute : Mute s.world pid) : doSyscall api vx pid s = none ↔ Writes vx s.guest := by
  by_cases hnum : vx.reg s.guest .eax = 0xFF03
  · obtain ⟨pr, hpr⟩ := Option.ne_none_iff_exists'.mp h.alive
    have hnone := hmute pr hpr
    have hcall : syscalls api vx pid (vx.reg s.guest .eax) { s with next := .continue }
        = syscallWriteresponses vx pid { s with next := .continue } := by
      rw [hnum]
      rfl
    simp only [doSyscall, hcall, syscallWriteresponses, withProc, hpr]
    constructor
    · intro hs
      split at hs
      · next hcrash =>
          split at hcrash
          · cases hcrash
          · next hlen =>
              split at hcrash
              · cases hcrash
              · next hperm => exact ⟨hnum, hlen, by simpa using hperm⟩
      · cases hs
    · intro hw
      obtain ⟨-, hlen, hperm⟩ := hw
      rw [if_neg hlen, hperm, if_neg (by decide), if_pos (by rw [hnone]; simp)]
  · obtain ⟨s', hs'⟩ := syscalls_isSome api vx (s := { s with next := .continue }) h hnum
    simp only [doSyscall, hs']
    exact ⟨by simp, fun hw => absurd hw.1 hnum⟩

theorem processRunLoop_none_iff {pid : Nat} :
    ∀ (left : Nat) (irqSeen : Bool) {s : Sys σ γ}, World.Running s.world pid →
      Mute s.world pid →
      (processRunLoop api vx pid left irqSeen s = none ↔ WritesLoop api vx pid left irqSeen s) := by
  intro left
  induction left with
  | zero =>
      intro irqSeen s _ _
      rcases htrap : runToTrap vx irqSeen s.guest with ⟨t, g, irqSeen'⟩
      rw [processRunLoop, WritesLoop, htrap]
      cases t
      all_goals exact ⟨by simp, False.elim⟩
  | succ left ih =>
      intro irqSeen s h hmute
      rcases htrap : runToTrap vx irqSeen s.guest with ⟨t, g, irqSeen'⟩
      rw [processRunLoop, WritesLoop, htrap]
      cases t with
      | syscall =>
          have hnone := doSyscall_none_iff api vx (s := { s with guest := g }) h hmute
          simp only []
          cases hcall : doSyscall api vx pid { s with guest := g } with
          | none => exact ⟨fun _ => .inl (hnone.mp hcall), fun _ => rfl⟩
          | some s1 =>
              have hquiet : ¬ Writes vx g := fun hw => by
                rw [hnone.mpr hw] at hcall
                cases hcall
              have h1 := doSyscall_running api vx (s := { s with guest := g }) h hcall
              have hmute1 := (doSyscall_mute api vx (s := { s with guest := g }) hmute hcall).1
              simp only []
              rw [or_iff_right hquiet]
              cases s1.next with
              | «continue» => exact ih irqSeen' h1 hmute1
              | yield => exact ⟨by simp, False.elim⟩
              | kill => exact ⟨by simp, False.elim⟩
              | exit =>
                  obtain ⟨pr, hpr⟩ := Option.ne_none_iff_exists'.mp h1.alive
                  simp only [withProc, hpr]
                  exact ⟨by simp, False.elim⟩
      | irq => exact ⟨by simp, False.elim⟩
      | pagefault => exact ⟨by simp, False.elim⟩
      | other => exact ⟨by simp, False.elim⟩

/-- The first run of a program comes back unless the program answers in it. -/
theorem firstRun_none_iff {w : World σ γ} (h : World.Inv w) (io : Io) (key : Bytes) (g : γ) :
    processRun api vx (cfg.syscallLimit * io.requests + 128) w.nextProc
        ((w.processNew key).setProc w.nextProc (some { key := key, machine := some g })) io = none ↔
      WritesFirst api vx cfg w io key g := by
  have hrun := (untouched_new h key { key := key, machine := some g }).toRunning
  have hmute : Mute ((w.processNew key).setProc w.nextProc
      (some { key := key, machine := some g })) w.nextProc := by
    intro pr hpr
    rw [procs_setProc_self] at hpr
    cases hpr
    rfl
  have hloop := processRunLoop_none_iff api vx
    (cfg.syscallLimit * io.requests + 128 + 1).toNat false
    (s := { world := (w.processNew key).setProc w.nextProc (some { key := key, machine := some g })
            io := io
            guest := g }) hrun hmute
  rw [WritesFirst, ← hloop]
  unfold processRun
  rw [procs_setProc_self]
  simp only []
  cases hs : processRunLoop api vx w.nextProc (cfg.syscallLimit * io.requests + 128 + 1).toNat false
      { world := (w.processNew key).setProc w.nextProc (some { key := key, machine := some g })
        io := io
        guest := g } with
  | none => exact ⟨fun _ => rfl, fun _ => rfl⟩
  | some s =>
      have halive := (processRunLoop_running api vx _ _ (by exact hrun) hs).alive
      obtain ⟨pr, hpr⟩ := Option.ne_none_iff_exists'.mp halive
      simp only [hpr]
      exact ⟨nofun, nofun⟩

end Early

/-! ## Responses that can be packed

One lemma for each handler. Most answer with an error or with nothing; `cmd_get` and
`cmd_get_keys` let the engine write into the buffer, and the contract of the engine says
how much it may. -/

/-- Extras and value lie where `pack_response` looks for them, and fit. -/
structure Sendable (bufSz : Int) (res : StRes) : Prop where
  noKey : res.keySz = 0
  short : res.extrasSz ≤ 4
  extras : res.extrasSz ≠ 0 → res.extras = some 0
  value : res.valueSz ≠ 0 → res.value = some res.extrasSz
  fits : (memcacheHeaderSize + res.extrasSz + res.valueSz : Nat) ≤ bufSz

/-- One response frame, and the request it belongs to. -/
structure AnswerTo (request frame : Bytes) : Prop where
  magic : mcGetMagic frame = 0x81
  whole : frame.length = memcacheHeaderSize + mcGetBodyLength frame
  parts : mcGetExtrasLength frame + mcGetKeyLength frame ≤ mcGetBodyLength frame
  opcode : mcGetOpcode frame = mcGetOpcode request
  opaqueId : mcGetOpaque frame = mcGetOpaque request

theorem Sendable.pack {bufSz : Int} {res : StRes} {request : Bytes} (h : Sendable bufSz res)
    (hint : bufSz ≤ intMax) (hop : res.opcode = mcGetOpcode request)
    (hid : res.opaqueId = mcGetOpaque request) :
    ∃ frame, packResponse bufSz res = some frame ∧ (frame.length : Int) ≤ bufSz ∧
      AnswerTo request frame := by
  have hfits := h.fits
  have hshort := h.short
  have hheader := memcacheHeaderSize_eq
  have hlarge : bufSz ≤ 2147483647 := hint
  have hbody : asInt (res.extrasSz + res.keySz + res.valueSz)
      = (res.extrasSz + res.valueSz : Nat) := by
    rw [h.noKey, Nat.add_zero, asInt_of_lt (by omega)]
  have hmod : (((res.extrasSz + res.valueSz : Nat) : Int) % 2 ^ 32).toNat
      = res.extrasSz + res.valueSz := by omega
  have hpack : packResponse bufSz res = some (packHeader res (res.extrasSz + res.valueSz) ++
      peek res.mem (res.extrasSz + res.valueSz)) := by
    simp only [packResponse]
    rw [hbody, hmod, Int.toNat_natCast, if_neg (by omega),
      if_neg fun hbad => hbad.2 (h.extras hbad.1), if_neg fun hbad => hbad.1 h.noKey, if_neg]
    rintro ⟨hsz, hbad⟩
    rw [h.noKey] at hbad
    exact hbad (h.value hsz)
  refine ⟨_, hpack, ?_, ?_, ?_, ?_, ?_, ?_⟩
  · rw [List.length_append, length_packHeader, length_peek]
    omega
  · exact mcGetMagic_header _ _ _ _ _ _ _ _ _
  · rw [mcGetBodyLength_packHeader, List.length_append, length_packHeader, length_peek]
    omega
  · rw [mcGetBodyLength_packHeader, mcGetExtrasLength_packHeader, mcGetKeyLength_packHeader,
      h.noKey]
    omega
  · rw [← hop]
    exact mcGetOpcode_header _ _ _ _ _ _ _ _ _
  · rw [mcGetOpaque_packHeader, hid, Nat.mod_eq_of_lt (mcGetOpaque_lt request)]

/-- The response a handler is given. -/
structure Blank (bufSz : Int) (res : StRes) : Prop where
  room : res.bufSz = bufSz - memcacheHeaderSize
  noExtras : res.extrasSz = 0
  noKey : res.keySz = 0
  noValue : res.valueSz = 0

theorem prepareRes_blank (bufSz : Int) (request : Bytes) : Blank bufSz (prepareRes bufSz request) :=
  ⟨rfl, rfl, rfl, rfl⟩

section Handlers

variable {σ γ : Type} {api : StStorageApi σ} {vx : Vx γ} {cfg : Config γ} {w : World σ γ}
  {io : Io} {req : StReq} {res : StRes} {bufSz : Int}

/-- `set_error_code` makes a response of whatever there is. -/
theorem setErrorCode_sendable (status : Nat) (errStr : Option Bytes) (hroom : Roomy bufSz)
    (hbuf : res.bufSz = bufSz - memcacheHeaderSize)
    (hstr : errorStr (status % 256) errStr ≠ none) :
    ∃ res', setErrorCode res status errStr = some res' ∧ Sendable bufSz res' ∧
      res'.opcode = res.opcode ∧ res'.opaqueId = res.opaqueId := by
  have hlarge := hroom.lt
  have hheader := memcacheHeaderSize_eq
  obtain ⟨str, hstr⟩ := Option.ne_none_iff_exists'.mp hstr
  have hpos : ¬ res.bufSz < 0 := by omega
  have hset : setErrorCode res status errStr = some { res with
      extrasSz := 0
      keySz := 0
      cas := 0
      status := status % 256
      value := some 0
      valueSz := min str.length res.bufSz.toNat
      mem := poke res.mem 0 (str.take (min str.length res.bufSz.toNat)) } := by
    simp only [setErrorCode, hstr, if_neg hpos]
  refine ⟨_, hset, ⟨rfl, Nat.zero_le 4, fun h => absurd rfl h, fun _ => rfl, ?_⟩, rfl, rfl⟩
  show ((memcacheHeaderSize + 0 + min str.length res.bufSz.toNat : Nat) : Int) ≤ bufSz
  omega

/-- The handler has come back with a response that can be packed. -/
def Sends (bufSz : Int) (res : StRes) (r : Option (Reply σ γ)) : Prop :=
  ∃ w' io' res', r = some (w', io', res') ∧ Sendable bufSz res' ∧ res'.opcode = res.opcode ∧
    res'.opaqueId = res.opaqueId

theorem refuse_sends {status : Nat} {errStr : Option Bytes} (hroom : Roomy bufSz)
    (hbuf : res.bufSz = bufSz - memcacheHeaderSize)
    (hstr : errorStr (status % 256) errStr ≠ none) :
    Sends bufSz res (refuse w io res status errStr) := by
  obtain ⟨res', hset, hsend⟩ := setErrorCode_sendable status errStr hroom hbuf hstr
  exact ⟨w, io, res', by rw [refuse, hset], hsend⟩

/-- A response without extras and value. -/
theorem blank_sends (hroom : Roomy bufSz) (hnew : Blank bufSz res) {w' : World σ γ}
    {status cas : Nat} :
    Sends bufSz res (some (w', io, { res with cas := cas, status := status })) := by
  have hlarge := hroom.lt
  have hheader := memcacheHeaderSize_eq
  have hext := hnew.noExtras
  have hval := hnew.noValue
  refine ⟨w', io, _, rfl, ⟨hnew.noKey, ?_, fun h => absurd hext h, fun h => absurd hval h, ?_⟩,
    rfl, rfl⟩
  · show res.extrasSz ≤ 4
    omega
  · show ((memcacheHeaderSize + res.extrasSz + res.valueSz : Nat) : Int) ≤ bufSz
    omega

/-- A response with a value and nothing else. -/
theorem value_sends (hnew : Blank bufSz res) {w' : World σ γ} {text : Bytes} {status : Nat}
    (hfits : (text.length : Int) ≤ res.bufSz) :
    Sends bufSz res (some (w', io, codeLoadAnswer res text status)) := by
  have hext := hnew.noExtras
  have hbuf := hnew.room
  refine ⟨w', io, _, rfl, ⟨hnew.noKey, ?_, fun h => absurd hext h, ?_, ?_⟩, rfl, rfl⟩
  · show res.extrasSz ≤ 4
    omega
  · intro _
    show some 0 = some res.extrasSz
    rw [hext]
  · show ((memcacheHeaderSize + res.extrasSz + text.length : Nat) : Int) ≤ bufSz
    omega

/-- The engine's `get` writes no more than the room it was given. -/
def GetFits (api : StStorageApi σ) (store : σ) : Prop :=
  ∀ (size : Int) (key item : Bytes), 0 ≤ size → api.get store size key = some item →
    (item.length : Int) ≤ size

/-- The `assert` in `storage_get` holds. -/
theorem storageGet_ne_none (hget : GetFits api w.store) {size : Int} (hsize : 0 ≤ size)
    (key : Bytes) : storageGet api w.store size key ≠ none := by
  rw [storageGet]
  split
  · simp
  · next item hitem =>
      have hfits := hget size key item hsize hitem
      rw [if_pos hfits]
      split
      · simp
      · simp

theorem storageGet_length {size : Int} {key item : Bytes} {md : McMetadata}
    (h : storageGet api w.store size key = some (some (item, md))) :
    sizeofMcMetadata ≤ item.length ∧ (item.length : Int) ≤ size := by
  unfold storageGet at h
  split at h
  · cases h
  · split at h
    · cases h
    · next hlong =>
        split at h
        · next hfits =>
            cases h
            exact ⟨by omega, hfits⟩
        · cases h

theorem cmdGet_sends (hget : GetFits api w.store) (hroom : Roomy bufSz) (hnew : Blank bufSz res) :
    Sends bufSz res (cmdGet api w io req res) := by
  have hlarge := hroom.lt
  have hheader := memcacheHeaderSize_eq
  have hbuf := hnew.room
  rw [cmdGet]
  split
  · exact refuse_sends hroom hbuf (by decide)
  · simp only []
    split
    · next hassert => exact absurd hassert (storageGet_ne_none hget (by omega) _)
    · exact refuse_sends hroom hbuf (by decide)
    · next item md hitem =>
        obtain ⟨hlong, hfits⟩ := storageGet_length hitem
        refine ⟨w, io, _, rfl, ⟨hnew.noKey, Nat.le_refl 4, fun _ => rfl, fun _ => rfl, ?_⟩, rfl,
          rfl⟩
        show ((memcacheHeaderSize + 4 + (item.length - sizeofMcMetadata) : Nat) : Int) ≤ bufSz
        omega

theorem currentItem_isSome (hget : GetFits api w.store) (req : StReq) {res : StRes}
    (hpos : 0 ≤ res.bufSz) :
    ∃ current mem, currentItem api w req res = some (current, mem) := by
  rw [currentItem]
  split
  · have hassert := storageGet_ne_none hget hpos req.key
    split
    · next hbad => exact absurd hbad hassert
    · exact ⟨_, _, rfl⟩
    · exact ⟨_, _, rfl⟩
  · exact ⟨_, _, rfl⟩

theorem storeRefusal_message {current : Option McMetadata} {status : Nat}
    (h : storeRefusal req current = some status) : errorStr (status % 256) none ≠ none := by
  unfold storeRefusal at h
  repeat' split at h
  all_goals cases h
  all_goals decide

theorem cmdSet_sends (hget : GetFits api w.store) (hroom : Roomy bufSz) (hnew : Blank bufSz res) :
    Sends bufSz res (cmdSet api w io req res) := by
  have hlarge := hroom.lt
  have hheader := memcacheHeaderSize_eq
  have hbuf := hnew.room
  rw [cmdSet]
  split
  · exact refuse_sends hroom hbuf (by decide)
  · simp only []
    have hpos : 0 ≤ res.bufSz := by omega
    obtain ⟨current, mem, hcurrent⟩ := currentItem_isSome
      (w := { w with uniqueNumber := (nextCas w.uniqueNumber).1 }) hget req hpos
    simp only [hcurrent]
    split
    · next hrefused => exact refuse_sends hroom hbuf (storeRefusal_message hrefused)
    · split
      · exact refuse_sends hroom hbuf (by decide)
      · have hread : Blank bufSz { res with mem := mem } :=
          ⟨hnew.room, hnew.noExtras, hnew.noKey, hnew.noValue⟩
        exact blank_sends hroom hread

theorem cmdGetKeys_sends (hkeys : KeysFit api w.store) (hroom : Roomy bufSz)
    (hnew : Blank bufSz res) : Sends bufSz res (cmdGetKeys api w io req res) := by
  have hlarge := hroom.lt
  have hheader := memcacheHeaderSize_eq
  have hbuf := hnew.room
  rw [cmdGetKeys]
  split
  · exact refuse_sends hroom hbuf (by decide)
  · split
    · exact refuse_sends hroom hbuf nofun
    · next listing hlisting => exact value_sends hnew (hkeys _ _ _ (by omega) hlisting)

theorem cmdVersion_sends (hroom : Roomy bufSz) (hnew : Blank bufSz res) :
    Sends bufSz res (cmdVersion w io req res) := by
  have hlarge := hroom.lt
  have hheader := memcacheHeaderSize_eq
  have hbuf := hnew.room
  have hversion : versionString.length = 16 := by decide
  have hext := hnew.noExtras
  rw [cmdVersion]
  split
  · exact refuse_sends hroom hbuf (by decide)
  · refine ⟨w, io, _, rfl, ⟨hnew.noKey, ?_, fun h => absurd hext h, ?_, ?_⟩, rfl, rfl⟩
    · show res.extrasSz ≤ 4
      omega
    · intro _
      show some 0 = some res.extrasSz
      rw [hext]
    · show ((memcacheHeaderSize + res.extrasSz + versionString.length : Nat) : Int) ≤ bufSz
      omega

/-! ## The commands on processes

They look for a process by its key, and what they say of it is written into the buffer
of the response. CODE_LOAD is the only one that runs a process, and the only one that
does not come back where the program writes first. -/

/-- What `command_get` finds is nothing or a live process. -/
theorem commandGet_alive (h : World.Inv w) {cmd : UInt8} {pid : Nat}
    (hptr : (commandGet w.cmdPointers cmd).ptr = .process pid) : w.procs pid ≠ none := by
  unfold commandGet at hptr
  split at hptr
  · cases hptr
  · exact (h.slot_process hptr).2

theorem findProcess_ne_none (h : World.Inv w) (key : Bytes) : w.findProcess key ≠ none := by
  have hall : ∀ cmds : List UInt8, w.findProcessIn key cmds ≠ none := by
    intro cmds
    induction cmds with
    | nil => exact nofun
    | cons cmd rest ih =>
        rw [World.findProcessIn]
        split
        · next pid hptr =>
            obtain ⟨pr, hpr⟩ := Option.ne_none_iff_exists'.mp (commandGet_alive h hptr)
            simp only [hpr]
            split
            · exact nofun
            · exact ih
        · exact ih
  exact hall allCmds

theorem cmdCodeUnload_sends (h : World.Inv w) (hroom : Roomy bufSz) (hnew : Blank bufSz res) :
    Sends bufSz res (cmdCodeUnload cfg w io req res) := by
  have hbuf := hnew.room
  rw [cmdCodeUnload]
  split
  · exact refuse_sends hroom hbuf (by decide)
  · split
    · exact refuse_sends hroom hbuf nofun
    · split
      · next hbad => exact absurd hbad (findProcess_ne_none h _)
      · exact refuse_sends hroom hbuf (by decide)
      · exact blank_sends hroom hnew

theorem cmdCodeCheck_sends (h : World.Inv w) (hroom : Roomy bufSz) (hnew : Blank bufSz res) :
    Sends bufSz res (cmdCodeCheck cfg w io req res) := by
  have hbuf := hnew.room
  rw [cmdCodeCheck]
  split
  · exact refuse_sends hroom hbuf (by decide)
  · split
    · exact refuse_sends hroom hbuf nofun
    · split
      · next hbad => exact absurd hbad (findProcess_ne_none h _)
      · exact refuse_sends hroom hbuf (by decide)
      · exact refuse_sends hroom hbuf (by decide)

theorem length_processCompile {cFile elfFile source : Bytes} {room : Int} (hroom : 2048 ≤ room) :
    ((processCompile cfg cFile elfFile source room).2.length : Int) ≤ room := by
  simp only [processCompile, List.length_append, List.length_take, snprintf, List.length_cons,
    List.length_nil]
  omega

variable (api vx cfg) in
/-- The request loads a program that answers in its first run. -/
def LoadsEarlyWriter (w : World σ γ) (io : Io) (req : StReq) (res : StRes) : Prop :=
  ∃ g, Started cfg w req res g ∧ WritesFirst api vx cfg w io req.key g

theorem cmdCodeLoad_sends (h : World.Inv w) (hsave : ShortErrors cfg) (hroom : Roomy bufSz)
    (hnew : Blank bufSz res) (hquiet : ¬ LoadsEarlyWriter api vx cfg w io req res) :
    Sends bufSz res (cmdCodeLoad api vx cfg w io req res) := by
  have hlarge := hroom.lt
  have hheader := memcacheHeaderSize_eq
  have hbuf := hnew.room
  rw [cmdCodeLoad]
  split
  · exact refuse_sends hroom hbuf (by decide)
  · next haccepted =>
      split
      · exact refuse_sends hroom hbuf nofun
      · next hon =>
          split
          · next hbad => exact absurd hbad (findProcess_ne_none h _)
          · exact refuse_sends hroom hbuf (by decide)
          · next hunknown =>
              simp only []
              split
              · next err herr =>
                  have hlen := hsave _ _ _ herr
                  have htext : (ascii "Error while saving file: ").length = 25 := by decide
                  refine value_sends hnew ?_
                  rw [List.length_append, htext]
                  omega
              · next hsaved =>
                  split
                  · exact value_sends hnew (length_processCompile (by omega))
                  · next hcompiled =>
                      have hlog : ((processCompile cfg (pluginFile cfg req.key ".c")
                          (pluginFile cfg req.key ".elf") req.value res.bufSz).2.take 4096
                            ++ [0x0A, 0x0A] : Bytes).length ≤ 4098 := by
                        rw [List.length_append, List.length_take]
                        simp
                      have hload : (ascii "Error while loading the binary").length = 30 := by decide
                      have hrun : (ascii "Error while running the binary").length = 30 := by decide
                      split
                      · refine value_sends hnew ?_
                        rw [List.length_append, hload]
                        omega
                      · next g hloaded =>
                          have hstarted : Started cfg w req res g :=
                            ⟨haccepted, hon, hunknown, hsaved, hcompiled, hloaded⟩
                          split
                          · next hcrash =>
                              have hwrites :=
                                (firstRun_none_iff api vx cfg h io req.key g).mp hcrash
                              exact absurd ⟨g, hstarted, hwrites⟩ hquiet
                          · split
                            · refine value_sends hnew ?_
                              rw [List.length_append, hrun]
                              omega
                            · exact value_sends hnew (by omega)

theorem cmdCodeLoad_crash (h : World.Inv w) (hearly : LoadsEarlyWriter api vx cfg w io req res) :
    cmdCodeLoad api vx cfg w io req res = none := by
  obtain ⟨g, hstarted, hwrites⟩ := hearly
  have hcrash := (firstRun_none_iff api vx cfg h io req.key g).mpr hwrites
  simp only [cmdCodeLoad]
  rw [if_neg hstarted.accepted, if_neg hstarted.enabled]
  simp only [hstarted.unknown, hstarted.saved]
  rw [if_neg hstarted.compiled]
  simp only [hstarted.loaded]
  rw [hcrash]

/-! ## One request, and a group

What the handler has left is packed and produced into `send_buf`, so there is one answer
for each request. Above the limit the handler is not called, and the answer is an error.
A group is followed request by request, with the world as its predecessors left it. -/

/-- An engine writes no more than the room it is given. -/
structure KeepsRoom (api : StStorageApi σ) : Prop where
  get : ∀ store, GetFits api store
  keys : ∀ store, KeysFit api store

theorem callBuiltin_sends {ptr : CmdPtr} (hptr : pointsToProcess ptr = false) (h : World.Inv w)
    (heng : KeepsRoom api) (hsave : ShortErrors cfg) (hroom : Roomy bufSz) (hnew : Blank bufSz res)
    (hquiet : ptr = .builtin .codeLoad → ¬ LoadsEarlyWriter api vx cfg w io req res) :
    Sends bufSz res (callBuiltin api vx cfg ptr w io req res) := by
  have hbuf := hnew.room
  cases ptr with
  | null =>
      have hstr : errorStr (memcacheStatusUnknownCommand % 256) none ≠ none := by decide
      exact refuse_sends hroom hbuf hstr
  | process pid => cases hptr
  | builtin f =>
      cases f with
      | get => exact cmdGet_sends (heng.get _) hroom hnew
      | set => exact cmdSet_sends (heng.get _) hroom hnew
      | delete =>
          simp only [callBuiltin, cmdDelete]
          split
          · exact refuse_sends hroom hbuf (by decide)
          · split
            · exact refuse_sends hroom hbuf (by decide)
            · exact blank_sends hroom hnew
      | noop =>
          simp only [callBuiltin, cmdNoop]
          split
          · exact refuse_sends hroom hbuf (by decide)
          · exact blank_sends hroom hnew
      | version => exact cmdVersion_sends hroom hnew
      | codeLoad => exact cmdCodeLoad_sends h hsave hroom hnew (hquiet rfl)
      | codeUnload => exact cmdCodeUnload_sends h hroom hnew
      | codeCheck => exact cmdCodeCheck_sends h hroom hnew
      | getKeys => exact cmdGetKeys_sends (heng.keys _) hroom hnew

/-- What `buf_get_writer` gives for a response. -/
def responseWriter (io : Io) : Pool × Buffer × Int :=
  bufGetWriter io.pool io.sendBuf (maxRequestSize + sizeofMcMetadata)

/-- The connection once it was called. -/
def withWriter (io : Io) : Io :=
  { io with pool := (responseWriter io).1, sendBuf := (responseWriter io).2.1 }

/-- The connection with a response put at the writer. -/
def produceAt (io : Io) (frame : Bytes) : Io :=
  { io with sendBuf := bufProduce io.sendBuf frame }

variable (api vx cfg) in
theorem builtinCommand_served (ptr : CmdPtr) (w : World σ γ) (request : Bytes)
    (h : bufGetUsed io.sendBuf < maxRequestSize * 3) :
    builtinCommand api vx cfg ptr w io request
      = (processSingle api vx cfg ptr w (withWriter io) request (responseWriter io).2.2).map
          fun r => (r.1, produceAt r.2.1 r.2.2) := by
  have hused : bufGetUsed (withWriter io).sendBuf < maxRequestSize * 3 := by
    rw [withWriter, responseWriter, bufGetUsed_writer]
    exact h
  rw [builtinCommand]
  refine (if_pos hused).trans ?_
  split
  · next hnone =>
      have hserve : processSingle api vx cfg ptr w (withWriter io) request
          (responseWriter io).2.2 = none := hnone
      rw [hserve]
      rfl
  · next w' io' produced hsome =>
      have hserve : processSingle api vx cfg ptr w (withWriter io) request
          (responseWriter io).2.2 = some (w', io', produced) := hsome
      rw [hserve]
      rfl

variable (api vx cfg) in
theorem builtinCommand_refused (ptr : CmdPtr) (w : World σ γ) (request : Bytes)
    (h : ¬ bufGetUsed io.sendBuf < maxRequestSize * 3) :
    builtinCommand api vx cfg ptr w io request
      = (errorFromReqbuf request (responseWriter io).2.2 memcacheStatusInternalError none).map
          fun produced => (w, produceAt (withWriter io) produced) := by
  have hused : ¬ bufGetUsed (withWriter io).sendBuf < maxRequestSize * 3 := by
    rw [withWriter, responseWriter, bufGetUsed_writer]
    exact h
  rw [builtinCommand]
  refine (if_neg hused).trans ?_
  split
  · next hnone =>
      have herror : errorFromReqbuf request (responseWriter io).2.2
          memcacheStatusInternalError none = none := hnone
      rw [herror]
      rfl
  · next produced hsome =>
      have herror : errorFromReqbuf request (responseWriter io).2.2
          memcacheStatusInternalError none = some produced := hsome
      rw [herror]
      rfl

/-- With too much output waiting the answer is INTERNAL_ERROR. -/
theorem errorFromReqbuf_sends (request : Bytes) (hroom : Roomy bufSz) (hint : bufSz ≤ intMax) :
    ∃ frame, errorFromReqbuf request bufSz memcacheStatusInternalError none = some frame ∧
      (frame.length : Int) ≤ bufSz ∧ AnswerTo request frame := by
  obtain ⟨res', hset, hsend, hop, hid⟩ := setErrorCode_sendable memcacheStatusInternalError
    none hroom (prepareRes_blank bufSz request).room (by decide)
  obtain ⟨frame, hpack, hlen, hans⟩ := hsend.pack hint hop hid
  exact ⟨frame, by rw [errorFromReqbuf, hset]; exact hpack, hlen, hans⟩

variable (api vx cfg) in
/-- The request is answered: one frame is put at the writer, and fits in its
region. -/
def BuiltinAnswered (ptr : CmdPtr) (st : World σ γ × Io) (request : Bytes) : Prop :=
  ∃ w' frame, builtinCommand api vx cfg ptr st.1 st.2 request
      = some (w', produceAt (withWriter st.2) frame) ∧
    (frame.length : Int) ≤ (responseWriter st.2).2.2 ∧ AnswerTo request frame

variable (api vx cfg) in
/-- The handler of CODE_LOAD is called, and loads a program that answers in its
first run. -/
def EarlyWriter (ptr : CmdPtr) (st : World σ γ × Io) (request : Bytes) : Prop :=
  ptr = .builtin .codeLoad ∧ bufGetUsed st.2.sendBuf < maxRequestSize * 3 ∧
    LoadsEarlyWriter api vx cfg st.1 (withWriter st.2) (unpackRequest request)
      (prepareRes (responseWriter st.2).2.2 request)

/-- Between two requests of a group. -/
structure ServerOk (st : World σ γ × Io) : Prop where
  world : World.Inv st.1
  buffer : st.2.sendBuf.Ok
  room : RoomInt st.2.pool st.2.sendBuf

theorem ServerOk.writer {st : World σ γ × Io} (h : ServerOk st) :
    Roomy (responseWriter st.2).2.2 ∧
      RoomInt (withWriter st.2).pool (withWriter st.2).sendBuf :=
  ⟨writer_roomy _ _, h.room.writer h.buffer (by decide)⟩

/-- The server writes through a null pointer. -/
theorem EarlyWriter.crash {ptr : CmdPtr} {st : World σ γ × Io} {request : Bytes}
    (hearly : EarlyWriter api vx cfg ptr st request) (h : World.Inv st.1) :
    builtinCommand api vx cfg ptr st.1 st.2 request = none := by
  obtain ⟨rfl, hserved, hearly⟩ := hearly
  rw [builtinCommand_served api vx cfg _ _ _ hserved]
  simp only [processSingle, callBuiltin, cmdCodeLoad_crash h hearly]
  rfl

theorem builtinAnswered_iff {ptr : CmdPtr} (hptr : pointsToProcess ptr = false)
    (heng : KeepsRoom api) (hsave : ShortErrors cfg) {st : World σ γ × Io} (h : ServerOk st)
    (request : Bytes) :
    BuiltinAnswered api vx cfg ptr st request ↔ ¬ EarlyWriter api vx cfg ptr st request := by
  obtain ⟨hroom, hint⟩ := h.writer
  have hint : (responseWriter st.2).2.2 ≤ intMax := hint.room
  constructor
  · intro hans hearly
    obtain ⟨w', frame, hs, -⟩ := hans
    rw [hearly.crash h.world] at hs
    cases hs
  · intro hquiet
    by_cases hserved : bufGetUsed st.2.sendBuf < maxRequestSize * 3
    · have hcalled : Sends (responseWriter st.2).2.2 (prepareRes (responseWriter st.2).2.2 request)
          (callBuiltin api vx cfg ptr st.1 (withWriter st.2) (unpackRequest request)
            (prepareRes (responseWriter st.2).2.2 request)) :=
        callBuiltin_sends hptr h.world heng hsave hroom (prepareRes_blank _ request)
          fun hload hearly => hquiet ⟨hload, hserved, hearly⟩
      obtain ⟨w', io', res', hcall, hsend, hop, hid⟩ := hcalled
      obtain ⟨frame, hpack, hlen, hans⟩ := hsend.pack hint hop hid
      have hio := callBuiltin_io api vx cfg hcall
      refine ⟨w', frame, ?_, hlen, hans⟩
      rw [builtinCommand_served api vx cfg _ _ _ hserved, processSingle_of vx cfg hcall hpack, hio]
      rfl
    · obtain ⟨frame, hpack, hlen, hans⟩ := errorFromReqbuf_sends request hroom hint
      refine ⟨st.1, frame, ?_, hlen, hans⟩
      rw [builtinCommand_refused api vx cfg _ _ _ hserved, hpack]
      rfl

theorem BuiltinAnswered.serverOk {ptr : CmdPtr} {st st' : World σ γ × Io} {request : Bytes}
    (h : ServerOk st) (hans : BuiltinAnswered api vx cfg ptr st request)
    (hs : builtinCommand api vx cfg ptr st.1 st.2 request = some st') : ServerOk st' := by
  obtain ⟨w', frame, hframe, hlen, -⟩ := hans
  obtain ⟨-, hint⟩ := h.writer
  have hholds := bufProduce_holds (bufGetWriter_holds h.buffer.holds st.2.pool
    (maxRequestSize + sizeofMcMetadata)) frame
  rw [hframe] at hs
  cases hs
  refine ⟨builtinCommand_inv api vx cfg h.world hframe, hholds.toOk, hint.pool, ?_⟩
  have hroom := hint.room
  show (withWriter st.2).sendBuf.bufSz - ((withWriter st.2).sendBuf.stopOff + frame.length) ≤ intMax
  omega

variable (api vx cfg) in
/-- Every request of the group is answered, and the answers are all that the
callback has added to `send_buf`. -/
structure GroupAnswered (ptr : CmdPtr) (w : World σ γ) (io : Io) (reqs : List Bytes)
    (out : Bytes) : Prop where
  each : AllSteps (fun st f => builtinCommand api vx cfg ptr st.1 st.2 f)
    (BuiltinAnswered api vx cfg ptr) (w, io) reqs
  all : ∃ w' io' frames, builtinCommandsCallback api vx cfg ptr w io reqs.flatten = some (w', io') ∧
    io'.sendBuf.Holds (out ++ frames.flatten) ∧ List.Forall₂ AnswerTo reqs frames

/-- The loop over a group whose requests are all answered. -/
theorem answered_run {ptr : CmdPtr} : ∀ {reqs : List Bytes} {st : World σ γ × Io} {out : Bytes},
    AllSteps (fun st f => builtinCommand api vx cfg ptr st.1 st.2 f)
        (BuiltinAnswered api vx cfg ptr) st reqs → st.2.sendBuf.Holds out →
      ∃ st' frames, foldFrames (fun st f =>
          (builtinCommand api vx cfg ptr st.1 st.2 f).map .yield) st reqs = some st' ∧
        st'.2.sendBuf.Holds (out ++ frames.flatten) ∧ List.Forall₂ AnswerTo reqs frames := by
  intro reqs
  induction reqs with
  | nil =>
      intro st out _ hout
      exact ⟨st, [], rfl, by rwa [List.flatten_nil, List.append_nil], .nil⟩
  | cons f rest ih =>
      intro st out hall hout
      obtain ⟨⟨w', frame, hs, -, hans⟩, hrest⟩ := hall
      have hout' : (produceAt (withWriter st.2) frame).sendBuf.Holds (out ++ frame) :=
        bufProduce_holds (bufGetWriter_holds hout _ _) frame
      obtain ⟨st', frames, hrun, hholds, hmatch⟩ := ih (hrest _ hs) hout'
      refine ⟨st', frame :: frames, ?_, ?_, .cons hans hmatch⟩
      · rw [foldFrames, hs]
        exact hrun
      · rw [List.flatten_cons, ← List.append_assoc]
        exact hholds

end Handlers

section Group

variable {σ γ : Type} (api : StStorageApi σ) (vx : Vx γ) (cfg : Config γ)

/-- A group of requests that no process serves is answered, frame by frame, exactly
when none of them loads a program that answers in its first run. -/
theorem builtinAnswers_iff (heng : KeepsRoom api) (hsave : ShortErrors cfg) {ptr : CmdPtr}
    (hptr : pointsToProcess ptr = false) {w : World σ γ} {io : Io} {out : Bytes}
    (hw : World.Inv w) (hout : io.sendBuf.Holds out) (hint : RoomInt io.pool io.sendBuf)
    {reqs : List Bytes} (hwf : ∀ f ∈ reqs, WellFormed 0x80 f) :
    GroupAnswered api vx cfg ptr w io reqs out ↔
      AllSteps (fun st f => builtinCommand api vx cfg ptr st.1 st.2 f)
        (fun st f => ¬ EarlyWriter api vx cfg ptr st f) (w, io) reqs := by
  have hstep : ∀ (st : World σ γ × Io) (f : Bytes) (st' : World σ γ × Io), ServerOk st →
      builtinCommand api vx cfg ptr st.1 st.2 f = some st' → ServerOk st' := by
    intro st f st' hok hs
    have hquiet : ¬ EarlyWriter api vx cfg ptr st f := by
      intro hearly
      rw [hearly.crash hok.world] at hs
      cases hs
    exact ((builtinAnswered_iff hptr heng hsave hok f).mpr hquiet).serverOk hok hs
  have hcongr : AllSteps _ (BuiltinAnswered api vx cfg ptr) (w, io) reqs ↔ _ :=
    allSteps_congr hstep (fun _ f hok => builtinAnswered_iff hptr heng hsave hok f)
      ⟨hw, hout.toOk, hint⟩
  rw [← hcongr]
  refine ⟨GroupAnswered.each, fun heach => ⟨heach, ?_⟩⟩
  obtain ⟨st', frames, hrun, hholds, hmatch⟩ := answered_run heach hout
  refine ⟨st'.1, st'.2, frames, ?_, hholds, hmatch⟩
  rw [builtinCommandsCallback_flatten api vx cfg ptr w io hwf]
  exact hrun

end Group

/-! ### The engine of the file system -/

/-- The engine in the repository keeps to the room it is given. -/
theorem storageFs_keepsRoom (stat : Bytes → Nat) (dir : Bytes) :
    KeepsRoom (storageFs stat dir) := by
  refine ⟨fun t size key item hsize hget => ?_, fun t size key listing hsize hlist => ?_⟩
  · simp only [storageFs, fsGet] at hget
    split at hget
    · cases hget
    · cases hget
    · next data _ =>
        split at hget
        · cases hget
        · cases hget
          rw [asUint64] at *
          omega
  · simp only [storageGetKeys, storageFs, Option.some.injEq] at hlist
    rw [← hlist]
    exact length_fsGetKeys stat dir t hsize key

/-- Two NOOPs to a server that has just started. -/
theorem builtinAnswers_iff_noop : GroupAnswered (storageFs (fun _ => 0) (ascii "/data")) idleVx
    plainConfig (.builtin .noop) { store := bareTree (ascii "/data") } {} [noop, noop] [] := by
  have hroom : RoomInt ({} : Io).pool ({} : Io).sendBuf :=
    ⟨fun _ hsz => absurd hsz List.not_mem_nil, by decide⟩
  have hsave : ShortErrors plainConfig := fun _ _ _ h => nomatch h
  refine (builtinAnswers_iff _ idleVx plainConfig (storageFs_keepsRoom _ _) hsave rfl
    (World.inv_start _) Buffer.holds_empty hroom (by decide)).mpr ?_
  exact allSteps_of_forall (fun _ _ hearly => nomatch hearly.1) _ _

/-! ### A program that does not wait -/

/-- Whatever the source, the program answers with one byte. -/
def earlyConfig : Config (List (Reg → Nat)) where
  gccCommand := fun _ _ _ => []
  writeFile := fun _ _ => none
  system := fun _ _ => (0, none)
  loadElf := fun _ _ => some [fun _ => 0, callWith 0xFF03 0 1]

def earlyRequest : Bytes :=
  Request.frame { opcode := memcacheXcmdCodeLoad, key := ascii "p", value := ascii "x" }

/-- The server does not survive it. -/
theorem builtinAnswers_earlyWriter :
    WellFormed 0x80 earlyRequest ∧
      (cmdPointersInit (mcGetOpcode earlyRequest)).ptr = .builtin .codeLoad ∧
      ¬ GroupAnswered emptyEngine (scriptVx []) earlyConfig (.builtin .codeLoad) { store := () } {}
        [earlyRequest] [] := by
  refine ⟨by decide, by decide, fun h => ?_⟩
  obtain ⟨⟨w', frame, hs, -⟩, -⟩ := h.each
  have hnone : (builtinCommand emptyEngine (scriptVx []) earlyConfig (.builtin .codeLoad)
      { store := () } {} earlyRequest).isNone = true := by decide +kernel
  rw [hs] at hnone
  cases hnone

end Smalltable.Proofs
