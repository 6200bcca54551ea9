import Smalltable.Proofs.ConfigLines

/-!
# SET_CONFIG by the lines of its text

What a text describes is what its lines say: a proxy for each line that asks for
one, and a server. `cmd_set_config` answers OK when the code has found no error,
and the code reads lines only as long as there is room for them. So there are two
ways to break the promise that it is all or nothing. A text that names something
twice takes the proxy down, since the dry run does not look for it. A text with
more lines than there is room for is loaded with an OK, and what was said behind
the last line that is read by itself is lost (`OnlyFirstLine`).

Apart from these, and from texts with bytes that the tables of the parser do not
have, an error leaves everything as it was and OK means that the trees are those
the lines describe. The condition on the lines is only about requests that load
(`WillLoad`), since all others are refused without looking at what the text asks
for.
-/

namespace Smalltable.Proofs

open Smalltable.Ref

section Command

variable (env : ProxyEnv)

/-- An error and nothing changed, or OK and the trees that the lines of the text
describe. -/
def AllOrNothing (p : Pool) (w : ProxyWorld) (req : StReq) (res : StRes) : Prop :=
  Refused w (Proxy.cmdSetConfig env p w req res) ∨
    ∃ p' w' res', Proxy.cmdSetConfig env p w req res = some (p', w', res') ∧
      res'.status = memcacheStatusOk ∧ TreesOk w' ∧ LinesKept (configText req) w'

theorem linesKept_of_described {text : Bytes} {es : List ConfigEntry} {w : ProxyWorld}
    (hes : configEntries text = some es) (hw : Described es w) :
    LinesKept text w ↔ OnlyFirstLine (fromLastLine text) := by
  unfold configEntries at hes
  split at hes
  · cases hes
  · next lines hlines =>
      split at hes
      · cases hes
      · next es' hentries =>
          split at hes
          · cases hes
          · cases hes
            exact linesKept_last hlines hentries hw

theorem not_refused_of_loads {p : Pool} {w : ProxyWorld} {req : StReq} {res : StRes}
    (hload : WillLoad w req) (hno : ¬ HasDuplicates (configText req)) :
    ¬ Refused w (Proxy.cmdSetConfig env p w req res) := by
  rintro ⟨p1, w1, res1, hrun1, hstatus1, -⟩
  obtain ⟨p2, w2, res2, -, hrun2, hstatus2, -, -⟩ := cmdSetConfig_loads env p w req res hload hno
  rw [hrun1] at hrun2
  cases hrun2
  exact hstatus1 hstatus2

/-- A text without duplicates that is going to be loaded. -/
theorem allOrNothing_of_loads_iff {p : Pool} {w : ProxyWorld} {req : StReq} {res : StRes}
    (hload : WillLoad w req) (hno : ¬ HasDuplicates (configText req)) :
    AllOrNothing env p w req res ↔ OnlyFirstLine (fromLastLine (configText req)) := by
  obtain ⟨p', w', res', es, hrun, hstatus, hes, hw⟩ :=
    cmdSetConfig_loads env p w req res hload hno
  rw [← linesKept_of_described hes hw]
  constructor
  · rintro (hrefused | ⟨p1, w1, res1, hrun1, -, -, hkept⟩)
    · exact absurd hrefused (not_refused_of_loads env hload hno)
    · rw [hrun] at hrun1
      cases hrun1
      exact hkept
  · exact fun hkept => .inr ⟨p', w', res', hrun, hstatus, hw.trees, hkept⟩

/-- SET_CONFIG is all or nothing, and the dry run right, exactly when the text
has no duplicates, stays inside the tables of the parser if the request is looked
at at all, and has an entry for each of its lines if it is loaded. -/
theorem setConfig_iff (p : Pool) (w : ProxyWorld) (request : Bytes) {resBufSz : Int}
    (hroom : (maxRequestSize : Int) < resBufSz) :
    (AllOrNothing env p w (unpackRequest request) (prepareRes resBufSz request) ∧
      DryRunAgrees env p w (configText (unpackRequest request))) ↔
    ((SetConfigArgs (unpackRequest request) → InTable (configText (unpackRequest request))) ∧
      ¬ HasDuplicates (configText (unpackRequest request)) ∧
      (WillLoad w (unpackRequest request) →
        OnlyFirstLine (fromLastLine (configText (unpackRequest request))))) := by
  have hbuf : 256 ≤ (prepareRes resBufSz request).bufSz := by
    have hmax := maxRequestSize_eq
    have hhdr := memcacheHeaderSize_eq
    show 256 ≤ resBufSz - memcacheHeaderSize
    omega
  constructor
  · rintro ⟨hall, hagree⟩
    have hno := (dryRunAgrees_iff env p w).mp hagree
    refine ⟨fun hargs => ?_, hno, fun hload =>
      (allOrNothing_of_loads_iff env hload hno).mp hall⟩
    by_contra hout
    have hgone := cmdSetConfig_outOfTable env p w (prepareRes resBufSz request) hargs hout
    rcases hall with ⟨p', w', res', hrun, -⟩ | ⟨p', w', res', hrun, -⟩
    · rw [hgone] at hrun
      cases hrun
    · rw [hgone] at hrun
      cases hrun
  · rintro ⟨hin, hno, honly⟩
    refine ⟨?_, (dryRunAgrees_iff env p w).mpr hno⟩
    by_cases hload : WillLoad w (unpackRequest request)
    · exact (allOrNothing_of_loads_iff env hload hno).mpr (honly hload)
    · exact .inl (cmdSetConfig_refuses env p w _ hbuf hin hload)

end Command

theorem setConfig_iff_goodText :
    WillLoad { stopped := true } (unpackRequest (setConfigRequest goodText)) ∧
    AllOrNothing plainEnv [] { stopped := true } (unpackRequest (setConfigRequest goodText))
      (prepareRes 5000000 (setConfigRequest goodText)) ∧
    DryRunAgrees plainEnv [] { stopped := true }
      (configText (unpackRequest (setConfigRequest goodText))) := by
  have htext : configEntries (configText (unpackRequest (setConfigRequest goodText)))
      = some [.proxy (ascii "a") 1, .server (ascii "b") 2 1 []] := by decide
  have hno : ¬ HasDuplicates (configText (unpackRequest (setConfigRequest goodText))) := by
    rintro ⟨es, hes, hdup⟩
    rw [htext] at hes
    cases hes
    exact hdup ⟨by decide, by decide⟩
  have hend : fromLastLine (configText (unpackRequest (setConfigRequest goodText))) = [] :=
    fromWord_eq_nil_iff.mpr (show (linesOf (configText (unpackRequest
      (setConfigRequest goodText)))).length ≤ _ by decide)
  refine ⟨⟨⟨by decide, by decide, by decide⟩, rfl, by rw [htext]; exact nofun⟩, ?_⟩
  exact (setConfig_iff plainEnv [] { stopped := true } (setConfigRequest goodText)
    (show (maxRequestSize : Int) < 5000000 by decide)).mpr
      ⟨fun _ => inTable_of_configEntries htext, hno, fun _ => hend ▸ onlyFirstLine_nil⟩

/-- The same proxy twice. -/
def duplicateText : String := "proxy a:1\nproxy a:1\nserver b:2 1\n"

/-- A request with the swallowed line. -/
def swallowedReq : StReq :=
  { opcode := proxyCmdSetConfig, status := 0, opaqueId := 0, cas := 0, extras := [], key := [],
    value := swallowedText }

theorem configText_swallowed : configText swallowedReq = swallowedText := by
  refine List.takeWhile_eq_self_iff.mpr fun c hc => decide_eq_true ?_
  show c ≠ 0
  rw [swallowedReq, swallowedText] at hc
  rcases List.mem_append.mp hc with hc | hc
  · obtain ⟨l, hl, hc⟩ := List.mem_flatMap.mp hc
    have hlines : ∀ l ∈ [ascii "#", ascii "server b:2 1"], ∀ c ∈ l ++ [0x0A], c ≠ 0 := by decide
    refine hlines l ?_ c hc
    rcases List.mem_append.mp hl with hl | hl
    · rw [List.eq_of_mem_replicate hl]
      exact List.mem_cons_self
    · exact List.mem_cons_of_mem _ hl
  · exact (by decide : ∀ c ∈ ascii "proxy a:1 # myself\nserver c:3 1 61\n", c ≠ 0) c hc

/-- On a stopped proxy, the old configuration is flushed and the new one fails to
load; and a text whose 1024th line swallows the next is answered with OK. -/
theorem setConfig_duplicateProxy :
    ¬ (AllOrNothing plainEnv [] { stopped := true }
        (unpackRequest (setConfigRequest duplicateText))
        (prepareRes 5000000 (setConfigRequest duplicateText)) ∧
      DryRunAgrees plainEnv [] { stopped := true }
        (configText (unpackRequest (setConfigRequest duplicateText)))) ∧
    ∀ res : StRes, ¬ AllOrNothing plainEnv [] { stopped := true } swallowedReq res := by
  constructor
  · rintro ⟨hall, -⟩
    have hfatal : (Proxy.cmdSetConfig plainEnv [] { stopped := true }
        (unpackRequest (setConfigRequest duplicateText))
        (prepareRes 5000000 (setConfigRequest duplicateText))).isNone = true := by decide
    rcases hall with ⟨p', w', res', hcmd, -⟩ | ⟨p', w', res', hcmd, -⟩
    · rw [hcmd] at hfatal
      cases hfatal
    · rw [hcmd] at hfatal
      cases hfatal
  · intro res hall
    have hne : swallowedText ≠ [] := by
      refine List.append_ne_nil_of_right_ne_nil _ ?_
      decide
    have hload : WillLoad { stopped := true } swallowedReq := by
      refine ⟨⟨rfl, rfl, hne⟩, rfl, ?_⟩
      rw [configText_swallowed, configEntries_swallowed]
      exact nofun
    have hno : ¬ HasDuplicates (configText swallowedReq) := by
      rintro ⟨es, hes, hdup⟩
      rw [configText_swallowed, configEntries_swallowed] at hes
      cases hes
      exact hdup ⟨by decide, by decide⟩
    have honly := (allOrNothing_of_loads_iff plainEnv hload hno).mp hall
    rw [configText_swallowed] at honly
    exact not_onlyFirstLine_swallowed honly

end Smalltable.Proofs
