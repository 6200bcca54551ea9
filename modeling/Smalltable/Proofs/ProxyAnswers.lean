import Smalltable.Proofs.ProxySpread
import Smalltable.Proofs.SetConfig

/-!
# One answer for each request of the proxy's own

`process_single` of the proxy looks the opcode up in a table and calls what it
finds there. A handler fills in a response, and `pack_response` ends the process
when a part of it is not where it has to be.

All handlers but one answer whatever they are given (`callHandler_answered`).
SET_CONFIG has two ways not to come back: a byte that takes the parser out of its
tables, and a text that passes the dry run and then fails to load, which it can
only by naming something twice. And six opcodes below NOOP have no entry in the
table, which is not the same as having none behind it: what is called then is a
null pointer.
-/

namespace Smalltable.Proofs

open Smalltable.Ref

section Answers

variable (env : ProxyEnv) (conn : Nat)

/-- `process_single` comes back with one more frame in `res_buf`, which answers the
request. -/
def OneAnswer (p : Pool) (w : ProxyWorld) (request out : Bytes) : Prop :=
  ∃ p' w' f, Proxy.processSingle env conn p w request = some (p', w') ∧
    w'.resBuf.Holds (out ++ f) ∧ AnswerFrame request intMax f ∧
    mcGetOpcode f = mcGetOpcode request ∧ mcGetOpaque f = mcGetOpaque request

/-- What SET_CONFIG needs to come back. -/
def Loadable (w : ProxyWorld) (req : StReq) : Prop :=
  SetConfigArgs req → InTable (configText req) ∧ (w.stopped → ¬ HasDuplicates (configText req))

theorem mcGetOpaque_lt (buf : Bytes) : mcGetOpaque buf < 2 ^ 32 := by
  have hlt := beVal_lt (slice buf 12 4)
  have hlen : (slice buf 12 4).length ≤ 4 := List.length_take_le _ _
  have hpow : 256 ^ (slice buf 12 4).length ≤ 256 ^ 4 := Nat.pow_le_pow_right (by decide) hlen
  rw [mcGetOpaque]
  omega

/-- A frame that answers a request carries its opcode and opaque. -/
theorem AnswerFrame.fields {request f : Bytes} {sz : Int} (h : AnswerFrame request sz f) :
    mcGetOpcode f = mcGetOpcode request ∧ mcGetOpaque f = mcGetOpaque request := by
  obtain ⟨status, value, rfl⟩ := h.frame
  rw [Response.frame, List.append_assoc]
  refine ⟨mcGetOpcode_header _ _ _ _ _ _ _ _ _, ?_⟩
  rw [mcGetOpaque_packHeader, Nat.mod_eq_of_lt (mcGetOpaque_lt request)]

/-! ## SET_CONFIG

It comes back when its text stays in the tables and can be loaded, and answers with an
error or with nothing. What it answers is packed in any case. -/

section SetConfig

variable {p : Pool} {w : ProxyWorld} {request : Bytes} {sz : Int}

/-- A handler has answered, into a buffer of `sz` bytes, and has left `res_buf` to
`process_single`. -/
def Replied (w : ProxyWorld) (request : Bytes) (sz : Int) (r : Option Proxy.Reply) : Prop :=
  ∃ p' w' res f, r = some (p', w', res) ∧ w'.resBuf = w.resBuf ∧ packResponse sz res = some f ∧
    AnswerFrame request sz f

theorem Answered.replied {r : Option Proxy.Reply} (h : Answered p w request sz r) :
    Replied w request sz r := by
  obtain ⟨w', res, f, hr, -, hres, hpack, hans⟩ := h
  exact ⟨p, w', res, f, hr, hres, hpack, hans⟩

/-- The error of the dry run is the value of the answer. -/
theorem loadError_replied (hroom : (maxRequestSize : Int) < sz) {err : Bytes}
    (hshort : err.length < 256) :
    Replied w request sz (some (p, w, { prepareRes sz request with
      value := some 0
      valueSz := err.length
      mem := poke (prepareRes sz request).mem 0 err
      status := memcacheStatusItemNotStored })) := by
  have hmax := maxRequestSize_eq
  have hhdr := memcacheHeaderSize_eq
  have hpack : packResponse sz { prepareRes sz request with
      value := some 0, valueSz := err.length, mem := poke [] 0 err
      status := memcacheStatusItemNotStored } = _ :=
    packResponse_frame [] err rfl rfl (fun h => absurd rfl h) rfl (fun _ => rfl) (by
      show peek (poke [] 0 err) ([].length + err.length) = [] ++ err
      rw [List.length_nil, Nat.zero_add, List.nil_append, peek_of_le, take_poke_zero]
      rw [poke_zero, List.length_append]
      omega) (by rw [List.length_nil]; omega) (by rw [List.length_nil]; omega)
  refine ⟨p, w, _, _, rfl, rfl, hpack, ⟨⟨memcacheStatusItemNotStored, err, rfl⟩, ?_⟩⟩
  rw [Response.length_frame]
  simp only [List.length_nil]
  omega

theorem cmdSetConfig_replied (hroom : (maxRequestSize : Int) < sz)
    (hload : Loadable w (unpackRequest request)) :
    Replied w request sz
      (Proxy.cmdSetConfig env p w (unpackRequest request) (prepareRes sz request)) := by
  have hmax := maxRequestSize_eq
  have hhdr := memcacheHeaderSize_eq
  rw [Proxy.cmdSetConfig]
  split
  · exact (invalid_answered hroom).replied
  · next hargs =>
      rw [not_or, not_or, not_not, not_not] at hargs
      obtain ⟨hin, hno⟩ := hload hargs
      obtain ⟨err, hdry, herr⟩ := loadConfigFromString_testing env w hin
      rw [configText] at hdry
      rw [hdry]
      cases err with
      | some err =>
          have hshort := loadConfigFromString_short env hdry
          have hfits : (err.length : Int) < (prepareRes sz request).bufSz := by
            show (err.length : Int) < sz - memcacheHeaderSize
            omega
          simp only []
          rw [if_pos hfits]
          exact loadError_replied hroom hshort
      | none =>
          obtain ⟨es, hes⟩ := Option.ne_none_iff_exists'.mp (herr.mp rfl)
          simp only []
          split
          · exact (refuse_answered memcacheStatusKeyNotFound (some Proxy.notStopped) rfl rfl rfl
              hroom (by decide) rfl (by decide)).replied
          · next hstopped =>
              have hdistinct : Distinct es := by
                by_contra hdup
                exact hno (by simpa using hstopped) ⟨es, hes, hdup⟩
              obtain ⟨w', hw'⟩ := (reload_iff env p w hes).mpr hdistinct
              have hres : w'.resBuf = w.resBuf := ((flushConfig_reloads p w).trans
                (loadConfigFromString_reloads env hw')).resBuf
              rw [configText] at hw'
              rw [hw']
              have hanswered : Answered p w request sz (some (p, w,
                  { prepareRes sz request with status := memcacheStatusOk })) :=
                ok_answered hroom ⟨rfl, rfl⟩ rfl
              obtain ⟨w1, res, f, hr, -, -, hpack, hans⟩ := hanswered
              cases hr
              exact ⟨_, w', _, f, rfl, hres, hpack, hans⟩

/-- Nothing else comes back. -/
theorem loadable_of_cmdSetConfig {req : StReq} {res : StRes} {r : Proxy.Reply}
    (hs : Proxy.cmdSetConfig env p w req res = some r) : Loadable w req := by
  intro hargs
  have hin : InTable (configText req) := by
    by_contra hout
    rw [cmdSetConfig_outOfTable env p w res hargs hout] at hs
    cases hs
  refine ⟨hin, fun hstopped hdup => ?_⟩
  obtain ⟨es, hes, hdistinct⟩ := hdup
  obtain ⟨hextras, hkey, hvalue⟩ := hargs
  obtain ⟨err, hdry, herr⟩ := loadConfigFromString_testing env w hin
  have hnone : err = none := herr.mpr (by rw [hes]; exact nofun)
  rw [configText] at hdry
  rw [Proxy.cmdSetConfig, if_neg (by simp [hextras, hkey, hvalue]), hdry, hnone] at hs
  simp only [hstopped, Bool.not_true, Bool.false_eq_true, if_false] at hs
  split at hs
  · cases hs
  · cases hs
  · next w' hload => exact hdistinct ((reload_iff env p w hes).mp ⟨w', hload⟩)

end SetConfig

/-! ## The table

An opcode has a handler, a hole or no entry. With a handler there is one answer, without
an entry there is one that says so. -/

theorem handlerOf_setConfig (cmd : UInt8) :
    Proxy.handlerOf cmd = some .setConfig ↔ cmd = proxyCmdSetConfig := by
  constructor
  · intro h
    rw [Proxy.handlerOf, Proxy.cmdPointers] at h
    split_ifs at h
    all_goals first
      | assumption
      | cases h
  · intro h
    rw [h]
    rfl

section Single

variable {p : Pool} {w : ProxyWorld} {request out : Bytes}

/-- A handler that replies gets its frame into `res_buf`. -/
theorem oneAnswer_of_replied {h : Proxy.Handler}
    (hh : Proxy.handlerOf (mcGetOpcode request) = some h) (hout : w.resBuf.Holds out)
    (hint : RoomInt p w.resBuf)
    (hreply : Replied { w with resBuf := (bufGetWriter p w.resBuf maxRequestSize).2.1 } request
      (bufGetWriter p w.resBuf maxRequestSize).2.2
      (Proxy.callHandler env conn h (bufGetWriter p w.resBuf maxRequestSize).1
        { w with resBuf := (bufGetWriter p w.resBuf maxRequestSize).2.1 } (unpackRequest request)
        (prepareRes (bufGetWriter p w.resBuf maxRequestSize).2.2 request))) :
    OneAnswer env conn p w request out := by
  have hint' := hint.writer hout.toOk (n := maxRequestSize) (by decide)
  have hholds := bufGetWriter_holds hout p maxRequestSize
  obtain ⟨p', w', res, f, hcall, hres, hpack, hans⟩ := hreply
  have hans' : AnswerFrame request intMax f := ⟨hans.frame, hans.length.trans hint'.room⟩
  refine ⟨p', { w' with resBuf := bufProduce w'.resBuf f }, f, ?_, ?_, hans', hans'.fields⟩
  · simp only [Proxy.processSingle, hh, hcall, hpack]
  · show (bufProduce w'.resBuf f).Holds _
    rw [hres]
    exact bufProduce_holds hholds f

/-- A request is answered once exactly when its opcode does not lead to a hole of the
table and, for SET_CONFIG, the text can be loaded. -/
theorem proxyAnswer_iff (hout : w.resBuf.Holds out) (hint : RoomInt p w.resBuf) :
    OneAnswer env conn p w request out ↔
      Proxy.handlerOf (mcGetOpcode request) ≠ none ∧
      (mcGetOpcode request = proxyCmdSetConfig → Loadable w (unpackRequest request)) := by
  have hroom := bufGetWriter_room p w.resBuf maxRequestSize
  have hint' := hint.writer hout.toOk (n := maxRequestSize) (by decide)
  constructor
  · intro h
    obtain ⟨p', w', f, hs, -⟩ := h
    simp only [Proxy.processSingle] at hs
    split at hs
    · cases hs
    · next hd hh =>
        refine ⟨by rw [hh]; exact Option.some_ne_none hd, fun hop => ?_⟩
        rw [(handlerOf_setConfig _).mpr hop] at hh
        cases hh
        split at hs
        · cases hs
        · next hcall =>
            exact loadable_of_cmdSetConfig env
              (w := { w with resBuf := (bufGetWriter p w.resBuf maxRequestSize).2.1 }) hcall
  · intro h
    obtain ⟨hd, hh⟩ := Option.ne_none_iff_exists'.mp h.1
    refine oneAnswer_of_replied env conn hh hout hint ?_
    by_cases hset : hd = .setConfig
    · rw [hset] at hh ⊢
      exact cmdSetConfig_replied env hroom (h.2 ((handlerOf_setConfig _).mp hh))
    · exact (callHandler_answered env conn hset hroom hint'.room).replied

end Single

end Answers

/-- A NOOP on a proxy that has done nothing yet. -/
theorem proxyAnswer_iff_noop : OneAnswer plainEnv 0 [] {} noop [] := by
  have hroom : RoomInt [] ({} : ProxyWorld).resBuf :=
    ⟨fun _ hsz => absurd hsz List.not_mem_nil, by decide⟩
  refine (proxyAnswer_iff plainEnv 0 Buffer.holds_empty hroom).mpr ⟨by decide, ?_⟩
  intro hop
  exact absurd hop (by decide)

/-- A request for the proxy with the opcode of GET. -/
def proxyHole : Bytes := Request.frame { opcode := memcacheCmdGet, reserved := 2 }

/-- It is called through a null pointer. -/
theorem proxyAnswer_hole :
    WellFormed 0x80 proxyHole ∧ Proxy.doInProxy proxyHole = true ∧
      ¬ OneAnswer plainEnv 0 [] {} proxyHole [] := by
  refine ⟨by decide, by decide, fun h => ?_⟩
  obtain ⟨p', w', f, hs, -⟩ := h
  have hnone : (Proxy.processSingle plainEnv 0 [] {} proxyHole).isNone = true := by decide
  rw [hs] at hnone
  cases hnone

end Smalltable.Proofs
