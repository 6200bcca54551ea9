import Smalltable.Proofs.ProxyAnswers
import Smalltable.Proofs.ProxyBatch

/-!
# A configuration change inside a batch

SET_CONFIG frees all servers and makes new ones, and it may come in the middle of
a batch. `process_multi` has then put pointers to servers into `servers` and
`order`, and it follows them behind the loop.

What comes back from one SET_CONFIG is either the proxy as it was or one with
servers that were not there before (`Reconfigured`). So the change is safe as
long as no request has been given to a server; behind that, the servers that
were given requests are gone for good (`Gone`).
-/

namespace Smalltable.Proofs

open Smalltable.Ref

/-! ## New servers

Loading a text creates the servers of its entries under numbers that count on, in a
world without servers. What this depends on of the world before is its trees and the
number, not the blocks in its pool. -/

/-- The same configuration, whatever waits for the servers. -/
structure Alike (w v : ProxyWorld) : Prop where
  proxies : v.proxies = w.proxies
  servers : v.servers = w.servers
  next : v.nextServer = w.nextServer

theorem Alike.trans {w v u : ProxyWorld} (h1 : Alike w v) (h2 : Alike v u) : Alike w u :=
  ⟨h2.proxies.trans h1.proxies, h2.servers.trans h1.servers, h2.next.trans h1.next⟩

/-- Servers have come. -/
structure Comes (w w' : ProxyWorld) : Prop where
  resBuf : w'.resBuf = w.resBuf
  stopped : w'.stopped = w.stopped
  next : w.nextServer ≤ w'.nextServer
  old : ∀ ptr < w.nextServer, w'.backends ptr = w.backends ptr
  servers : ∀ s ∈ w'.servers.toList, s ∈ w.servers.toList ∨
    w.nextServer ≤ s.ptr ∧ s.ptr < w'.nextServer ∧
      ∃ now, w'.backends s.ptr = some { nextRetry := now }

theorem Comes.refl (w : ProxyWorld) : Comes w w :=
  ⟨rfl, rfl, Nat.le_refl _, fun _ _ => rfl, fun _ hs => .inl hs⟩

theorem Comes.trans {w w1 w2 : ProxyWorld} (h1 : Comes w w1) (h2 : Comes w1 w2) :
    Comes w w2 := by
  refine ⟨h2.resBuf.trans h1.resBuf, h2.stopped.trans h1.stopped, h1.next.trans h2.next,
    fun ptr hptr => (h2.old ptr (hptr.trans_le h1.next)).trans (h1.old ptr hptr),
    fun s hs => ?_⟩
  rcases h2.servers s hs with hs | ⟨hge, hlt, hnew⟩
  · rcases h1.servers s hs with hs | ⟨hge, hlt, now, hnew⟩
    · exact .inl hs
    · exact .inr ⟨hge, hlt.trans_le h2.next, now, (h2.old s.ptr hlt).trans hnew⟩
  · exact .inr ⟨h1.next.trans hge, hlt, hnew⟩

section Create

variable (env : ProxyEnv) {w v w' : ProxyWorld} {e : ConfigEntry} {es : List ConfigEntry}

theorem createEntry_comes (h : TreesOk w) (hs : createEntry env w e = some w') :
    TreesOk w' ∧ Comes w w' := by
  cases e with
  | proxy host port =>
      obtain ⟨htrees, -, hservers⟩ := newStProxy_some env h hs
      rw [createEntry, newStProxy, stProxyInsert] at hs
      split at hs
      · cases hs
      · cases hs
        exact ⟨htrees, rfl, rfl, Nat.le_refl _, fun _ _ => rfl, fun _ hs => .inl hs⟩
  | server host port weight key =>
      obtain ⟨htrees, -, hperm⟩ := newStServer_some env h hs
      refine ⟨htrees, ?_⟩
      rw [createEntry, newStServer] at hs
      simp only [stServerInsert] at hs
      split at hs
      · cases hs
      · next w1 hinsert =>
          split at hinsert
          · cases hinsert
          · cases hinsert
            cases hs
            refine ⟨rfl, rfl, Nat.le_succ _, fun ptr hptr => if_neg hptr.ne, fun s hs => ?_⟩
            rcases List.mem_cons.mp (hperm.mem_iff.mp hs) with rfl | hold
            · exact .inr ⟨Nat.le_refl _, Nat.lt_succ_self _, env.clockGettime, if_pos rfl⟩
            · exact .inl hold

theorem createAll_comes : ∀ {es : List ConfigEntry} {w w' : ProxyWorld}, TreesOk w →
    createAll env w es = some w' → TreesOk w' ∧ Comes w w' := by
  intro es
  induction es with
  | nil =>
      intro w w' h hs
      cases hs
      exact ⟨h, Comes.refl w⟩
  | cons e es ih =>
      intro w w' h hs
      rw [createAll] at hs
      split at hs
      · cases hs
      · next w1 hw1 =>
          obtain ⟨h1, hcomes⟩ := createEntry_comes env h hw1
          obtain ⟨h2, hmore⟩ := ih h1 hs
          exact ⟨h2, hcomes.trans hmore⟩

theorem createEntry_alike (h : Alike w v) (hs : createEntry env w e = some w') :
    ∃ v', createEntry env v e = some v' ∧ Alike w' v' := by
  obtain ⟨hp, hsv, hn⟩ := h
  cases e with
  | proxy host port =>
      simp only [createEntry, newStProxy, stProxyInsert] at hs ⊢
      rw [hp]
      split at hs
      · cases hs
      · cases hs
        exact ⟨_, rfl, rfl, hsv, hn⟩
  | server host port weight key =>
      simp only [createEntry, newStServer, stServerInsert] at hs ⊢
      rw [hn, hsv]
      split at hs
      · cases hs
      · next w1 hinsert =>
          split at hinsert
          · cases hinsert
          · cases hinsert
            cases hs
            exact ⟨_, rfl, hp, rfl, rfl⟩

theorem createAll_alike : ∀ {es : List ConfigEntry} {w v w' : ProxyWorld}, Alike w v →
    createAll env w es = some w' → ∃ v', createAll env v es = some v' ∧ Alike w' v' := by
  intro es
  induction es with
  | nil =>
      intro w v w' h hs
      cases hs
      exact ⟨v, rfl, h⟩
  | cons e es ih =>
      intro w v w' h hs
      rw [createAll] at hs ⊢
      split at hs
      · cases hs
      · next w1 hw1 =>
          obtain ⟨v1, hv1, h1⟩ := createEntry_alike env h hw1
          rw [hv1]
          exact ih h1 hs

end Create

/-! ## SET_CONFIG on a stopped proxy

The text of an accepted request is loaded twice, for a test and then for good, and it is
a condition that it can be (`Loads`). Then the stopped proxy has the servers of the
text, under new numbers and with nothing waiting. A request that is refused leaves it as
it was. -/

/-- The command gets as far as the new configuration: the arguments are right and
the dry run finds no error. -/
def Accepted (f : Bytes) : Prop :=
  SetConfigArgs (unpackRequest f) ∧ configEntries (configText (unpackRequest f)) ≠ none

instance (req : StReq) : Decidable (SetConfigArgs req) := inferInstanceAs (Decidable (_ ∧ _ ∧ _))

instance (f : Bytes) : Decidable (Accepted f) := inferInstanceAs (Decidable (_ ∧ _))

/-- The command comes back at all. -/
def Loads (f : Bytes) : Prop :=
  SetConfigArgs (unpackRequest f) →
    InTable (configText (unpackRequest f)) ∧ ¬ HasDuplicates (configText (unpackRequest f))

/-- The blocks of the servers' buffers are `int`s. -/
def BlocksFit (w : ProxyWorld) : Prop :=
  ∀ s ∈ w.servers.toList, ∀ b, w.backends s.ptr = some b →
    b.sendBuf.bufSz ≤ intMax ∧ b.recvBuf.bufSz ≤ intMax

/-- The servers of the configuration have numbers that were given out. -/
def Numbered (w : ProxyWorld) : Prop := ∀ s ∈ w.servers.toList, s.ptr < w.nextServer

section Load

variable (env : ProxyEnv)

/-- The configuration behind a SET_CONFIG. -/
def reloaded (w : ProxyWorld) (f : Bytes) : ProxyWorld :=
  if Accepted f then
    match loadConfigFromString env false (flushConfig [] w).2 (configText (unpackRequest f)) with
    | some (w', none) => w'
    | _ => w
  else w

/-- A proxy with servers that were not there before, and have nothing to do. -/
structure Reconfigured (w : ProxyWorld) (f : Bytes) (w' : ProxyWorld) : Prop where
  alike : ∀ u, Alike u w → Alike (reloaded env u f) w'
  stopped : w'.stopped = w.stopped
  next : w.nextServer ≤ w'.nextServer
  trees : TreesOk w'
  idle : AllIdle w'
  numbered : Numbered w'
  blocks : BlocksFit w'
  fresh : ∀ s ∈ w'.servers.toList, w.nextServer ≤ s.ptr

variable {p p' : Pool} {w v w' : ProxyWorld} {f : Bytes}

theorem loadConfigFromString_createAll {text : Bytes} {es : List ConfigEntry}
    (hes : configEntries text = some es) :
    loadConfigFromString env false w text = some (w', none) ↔ createAll env w es = some w' := by
  obtain ⟨hok, hbad⟩ := loadConfigFromString_loading env w hes
  constructor
  · intro hload
    cases hall : createAll env w es with
    | none =>
        obtain ⟨w1, err, herr⟩ := hbad hall
        rw [herr] at hload
        cases hload
    | some w1 =>
        rw [hok w1 hall] at hload
        cases hload
        rfl
  · exact hok w'

theorem idle_new (now : Int) : Idle { nextRetry := now } :=
  ⟨Buffer.holds_empty, Buffer.holds_empty, rfl, rfl, rfl, rfl⟩

/-- What is behind an accepted SET_CONFIG. The bytes that wait in `v` may differ from
those of `w`, which is of no account. -/
theorem reconfigured_of_load (hacc : Accepted f) (halike : Alike w v)
    (hstopped : v.stopped = w.stopped) {es : List ConfigEntry}
    (hes : configEntries (configText (unpackRequest f)) = some es)
    (hall : createAll env (flushConfig p v).2 es = some w') : Reconfigured env w f w' := by
  obtain ⟨htrees, hcomes⟩ := createAll_comes env (treesOk_flushed p v) hall
  have hnext : (flushConfig p v).2.nextServer = w.nextServer := halike.next
  have hnew : ∀ s ∈ w'.servers.toList, w.nextServer ≤ s.ptr ∧ s.ptr < w'.nextServer ∧
      ∃ now, w'.backends s.ptr = some { nextRetry := now } := by
    intro s hs
    rcases hcomes.servers s hs with hold | hnew
    · exact absurd hold List.not_mem_nil
    · rwa [hnext] at hnew
  refine ⟨fun u hu => ?_, hcomes.stopped.trans hstopped, ?_, htrees, fun s hs => ?_,
    fun s hs => ?_, fun s hs b hb => ?_, fun s hs => ?_⟩
  · have hflush : Alike (flushConfig p v).2 (flushConfig [] u).2 :=
      ⟨rfl, rfl, (hu.trans halike).next.symm⟩
    obtain ⟨w1, hw1, h1⟩ := createAll_alike env hflush hall
    rw [reloaded, if_pos hacc, (loadConfigFromString_createAll env hes).mpr hw1]
    exact ⟨h1.proxies.symm, h1.servers.symm, h1.next.symm⟩
  · rw [← hnext]
    exact hcomes.next
  · obtain ⟨-, -, now, hb⟩ := hnew s hs
    exact ⟨_, hb, idle_new now⟩
  · exact (hnew s hs).2.1
  · obtain ⟨-, -, now, hnow⟩ := hnew s hs
    rw [hnow] at hb
    cases hb
    have hzero : (0 : Int) ≤ intMax := by decide
    exact ⟨hzero, hzero⟩
  · exact (hnew s hs).1

theorem refuse_eq {res res' : StRes} {status : Nat} {errStr : Option Bytes}
    (h : Proxy.refuse p w res status errStr = some (p', w', res')) : p' = p ∧ w' = w := by
  rw [Proxy.refuse] at h
  split at h
  · cases h
  · cases h
    exact ⟨rfl, rfl⟩

/-- The two ways SET_CONFIG comes back. -/
theorem cmdSetConfig_world {res res' : StRes} (hstop : w.stopped = true)
    (hs : Proxy.cmdSetConfig env p w (unpackRequest f) res = some (p', w', res')) :
    (¬ Accepted f ∧ p' = p ∧ w' = w) ∨
    ∃ es, Accepted f ∧ configEntries (configText (unpackRequest f)) = some es ∧
      p' = (flushConfig p w).1 ∧ createAll env (flushConfig p w).2 es = some w' := by
  have hload := loadable_of_cmdSetConfig env hs
  rw [Proxy.cmdSetConfig] at hs
  split at hs
  · next hargs =>
      refine .inl ⟨fun hacc => ?_, refuse_eq hs⟩
      obtain ⟨⟨hextras, hkey, hvalue⟩, -⟩ := hacc
      simp [hextras, hkey, hvalue] at hargs
  · next hargs =>
      rw [not_or, not_or, not_not, not_not] at hargs
      obtain ⟨err, hdry, herr⟩ := loadConfigFromString_testing env w (hload hargs).1
      have hdry' := hdry
      rw [configText] at hdry'
      rw [hdry'] at hs
      cases err with
      | some err =>
          simp only [] at hs
          split at hs
          · cases hs
            exact .inl ⟨fun hacc => by simpa using herr.mpr hacc.2, rfl, rfl⟩
          · cases hs
      | none =>
          obtain ⟨es, hes⟩ := Option.ne_none_iff_exists'.mp (herr.mp rfl)
          simp only [hstop, Bool.not_true, Bool.false_eq_true, if_false] at hs
          split at hs
          · cases hs
          · cases hs
          · next w1 hreal =>
              cases hs
              exact .inr ⟨es, ⟨hargs, herr.mp rfl⟩, hes, rfl,
                (loadConfigFromString_createAll env hes).mp hreal⟩

theorem poolFits_free {b : Buffer} (hp : ∀ sz ∈ p, sz ≤ intMax) (hb : b.bufSz ≤ intMax) :
    ∀ sz ∈ (bufFree p b).1, sz ≤ intMax := by
  intro sz hsz
  rw [bufFree] at hsz
  split at hsz
  · rcases List.mem_cons.mp hsz with rfl | hsz
    · exact hb
    · exact hp sz hsz
  · exact hp sz hsz

/-- The blocks of the servers go back to the pool. -/
theorem poolFits_flush (hp : ∀ sz ∈ p, sz ≤ intMax) (hblocks : BlocksFit w) :
    ∀ sz ∈ (flushConfig p w).1, sz ≤ intMax := by
  refine List.foldlRecOn (motive := fun p : Pool => ∀ sz ∈ p, sz ≤ intMax) _ _ hp
    fun p hp ptr hptr => ?_
  obtain ⟨s, hs, rfl⟩ := List.mem_map.mp hptr
  split
  · exact hp
  · next b hb =>
      obtain ⟨hsend, hrecv⟩ := hblocks s hs b hb
      exact poolFits_free (poolFits_free hp hsend) hrecv

variable {conn : Nat} {out : Bytes}

/-- SET_CONFIG in `process_single` either does not come back, or is answered once
with the configuration as it was or with a new one. -/
theorem processSingle_setConfig (hh : Proxy.handlerOf (mcGetOpcode f) = some .setConfig)
    (hstop : w.stopped = true) (hout : w.resBuf.Holds out) (hint : RoomInt p w.resBuf)
    (hblocks : Accepted f → BlocksFit w) :
    (¬ Loads f ∧ Proxy.processSingle env conn p w f = none) ∨
    ∃ p' w' a, Loads f ∧ Proxy.processSingle env conn p w f = some (p', w') ∧
      w'.resBuf.Holds (out ++ a) ∧ AnswerFrame f intMax a ∧ RoomInt p' w'.resBuf ∧
      (¬ Accepted f ∧ w' = { w with resBuf := w'.resBuf } ∨
        Accepted f ∧ Reconfigured env w f w') := by
  have hroom := bufGetWriter_room p w.resBuf maxRequestSize
  have hint' := hint.writer hout.toOk (n := maxRequestSize) (by decide)
  have hholds := bufGetWriter_holds hout p maxRequestSize
  obtain ⟨v, hv⟩ : ∃ v, v = { w with resBuf := (bufGetWriter p w.resBuf maxRequestSize).2.1 } :=
    ⟨_, rfl⟩
  have hvstop : v.stopped = true := by rw [hv]; exact hstop
  by_cases hload : Loads f
  · have hloadable : Loadable v (unpackRequest f) := fun hargs =>
      ⟨(hload hargs).1, fun _ => (hload hargs).2⟩
    obtain ⟨p1, w1, res, a, hcmd, hres, hpack, hans⟩ :=
      cmdSetConfig_replied env (p := (bufGetWriter p w.resBuf maxRequestSize).1) hroom hloadable
    have hsingle : Proxy.processSingle env conn p w f
        = some (p1, { w1 with resBuf := bufProduce w1.resBuf a }) := by
      simp only [Proxy.processSingle, hh, Proxy.callHandler, ← hv, hcmd, hpack]
    rw [hv] at hres
    have hres : w1.resBuf = (bufGetWriter p w.resBuf maxRequestSize).2.1 := hres
    have hspace : (bufProduce w1.resBuf a).bufSz - (bufProduce w1.resBuf a).stopOff ≤ intMax := by
      have hroom' := hint'.room
      show w1.resBuf.bufSz - (w1.resBuf.stopOff + a.length) ≤ intMax
      rw [hres]
      omega
    have hproduced : (bufProduce w1.resBuf a).Holds (out ++ a) := by
      rw [hres]
      exact bufProduce_holds hholds a
    refine .inr ⟨p1, { w1 with resBuf := bufProduce w1.resBuf a }, a, hload, hsingle, hproduced,
      ⟨hans.frame, hans.length.trans hint'.room⟩, ?_, ?_⟩
    · refine ⟨?_, hspace⟩
      rcases cmdSetConfig_world env hvstop hcmd with ⟨-, rfl, -⟩ |
        ⟨es, hacc, -, rfl, -⟩
      · exact hint'.pool
      · rw [hv]
        exact poolFits_flush (w := { w with resBuf := _ }) hint'.pool (hblocks hacc)
    · rcases cmdSetConfig_world env hvstop hcmd with ⟨hno, -, rfl⟩ | ⟨es, hacc, hes, -, hall⟩
      · rw [hv]
        exact .inl ⟨hno, rfl⟩
      · have halike : Alike w v := by rw [hv]; exact ⟨rfl, rfl, rfl⟩
        have hnew := reconfigured_of_load env hacc halike (by rw [hv]) hes hall
        have hsame : Alike w1 { w1 with resBuf := bufProduce w1.resBuf a } := ⟨rfl, rfl, rfl⟩
        exact .inr ⟨hacc, fun u hu => (hnew.alike u hu).trans hsame, hnew.stopped, hnew.next,
          ⟨hnew.trees.proxies, hnew.trees.servers⟩, hnew.idle,
          hnew.numbered, hnew.blocks, hnew.fresh⟩
  · refine .inl ⟨hload, ?_⟩
    simp only [Proxy.processSingle, hh, Proxy.callHandler, ← hv]
    cases hcmd : Proxy.cmdSetConfig env (bufGetWriter p w.resBuf maxRequestSize).1 v
        (unpackRequest f) (prepareRes (bufGetWriter p w.resBuf maxRequestSize).2.2 f) with
    | none => rfl
    | some r =>
        have hloadable := loadable_of_cmdSetConfig env hcmd
        exact absurd (fun hargs => ⟨(hloadable hargs).1, (hloadable hargs).2 hvstop⟩) hload

/-- Seen from afterwards: the servers there are now were there before, or have new
numbers, and behind an accepted SET_CONFIG all have. -/
theorem processSingle_comes (hh : Proxy.handlerOf (mcGetOpcode f) = some .setConfig)
    (hstop : w.stopped = true) (hs : Proxy.processSingle env conn p w f = some (p', w')) :
    w'.stopped = true ∧ w.nextServer ≤ w'.nextServer ∧
      (∀ s ∈ w'.servers.toList, s ∈ w.servers.toList ∨ w.nextServer ≤ s.ptr) ∧
      (Accepted f → ∀ s ∈ w'.servers.toList, w.nextServer ≤ s.ptr) := by
  simp only [Proxy.processSingle, hh, Proxy.callHandler] at hs
  split at hs
  · cases hs
  · next p1 w1 res hcmd =>
      split at hs
      · cases hs
      · cases hs
        have hstop' : ({ w with resBuf := (bufGetWriter p w.resBuf maxRequestSize).2.1 } :
            ProxyWorld).stopped = true := hstop
        rcases cmdSetConfig_world env hstop' hcmd with
          ⟨hno, -, rfl⟩ | ⟨es, -, -, -, hall⟩
        · exact ⟨hstop, Nat.le_refl _, fun s hs => .inl hs, fun hacc => absurd hacc hno⟩
        · obtain ⟨-, hcomes⟩ := createAll_comes env (treesOk_flushed _ _) hall
          have hfresh : ∀ s ∈ w1.servers.toList, w.nextServer ≤ s.ptr := by
            intro s hs
            rcases hcomes.servers s hs with hold | ⟨hge, -⟩
            · exact absurd hold List.not_mem_nil
            · exact hge
          exact ⟨hcomes.stopped.trans hstop, hcomes.next, fun s hs => .inr (hfresh s hs),
            fun _ => hfresh⟩

end Load

/-! ## The loop over the requests

In front of the first request for a server the loop may change the configuration as
often as it likes (`Going`). From the first request for a server on, another SET_CONFIG
that loads puts one of the listed servers out of the tree, and nothing brings it back
(`Gone`). -/

/-- A request for a server, or SET_CONFIG for the proxy. -/
def DataOrSetConfig (f : Bytes) : Prop :=
  Proxy.doInProxy f = true → Proxy.handlerOf (mcGetOpcode f) = some .setConfig

instance (f : Bytes) : Decidable (DataOrSetConfig f) := inferInstanceAs (Decidable (_ → _))

section Batch

variable (env : ProxyEnv)

/-- A request behind `done` can be served, with the configuration `w` in force.
SET_CONFIG comes back, and does not change the configuration any more when a request
has been given to a server; any other request has a server, which is not the eighth. -/
def Servable (w : ProxyWorld) (done : List Bytes) (f : Bytes) : Prop :=
  if Proxy.doInProxy f then Loads f ∧ (Accepted f → ∀ g ∈ done, Proxy.doInProxy g = true)
  else route w f ≠ none ∧ (contacted w (done ++ [f])).length < Proxy.nelemServers

/-- The configuration behind a request. -/
def configBehind (w : ProxyWorld) (f : Bytes) : ProxyWorld :=
  if Proxy.doInProxy f then reloaded env w f else w

/-- Each request can be served when its turn comes. -/
def ChangesFirst : ProxyWorld → List Bytes → List Bytes → Prop
  | _, _, [] => True
  | w, done, f :: rest => Servable w done f ∧ ChangesFirst (configBehind env w f) (done ++ [f]) rest

/-- What the proxy has answered itself. -/
def OwnAnswer (request f : Bytes) : Prop := AnswerFrame request intMax f

/-- The loop is between two requests. `w` is the configuration in force; the servers
are those of `w1`, and have been given `done`. -/
structure Going (w w1 : ProxyWorld) (done pas : List Bytes) (c : Proxy.Collect) : Prop where
  collected : Collected w1 OwnAnswer done pas c
  alike : Alike w c.world
  trees : TreesOk w1
  idle : AllIdle w1
  numbered : Numbered w1
  next : c.world.nextServer = w1.nextServer
  stopped : c.world.stopped = true
  blocks : (∀ g ∈ done, Proxy.doInProxy g = true) → BlocksFit c.world

variable {env} {conn : Nat} {w w1 : ProxyWorld} {done pas : List Bytes} {c c' : Proxy.Collect}
  {f : Bytes}

theorem route_congr {v : ProxyWorld} (h : v.servers = w.servers) (f : Bytes) :
    route v f = route w f := by
  rw [route, route, h]

theorem contacted_congr {v : ProxyWorld} (h : v.servers = w.servers) (fs : List Bytes) :
    contacted v fs = contacted w fs := by
  rw [contacted, contacted, funext (route_congr h)]

theorem requestsFor_own {ptr : Nat} {fs : List Bytes} (h : ∀ g ∈ fs, Proxy.doInProxy g = true) :
    requestsFor w fs ptr = [] := by
  refine List.filter_eq_nil_iff.mpr fun g hg => ?_
  simp [route, h g hg]

theorem Going.servers (h : Going w w1 done pas c) : w1.servers = w.servers :=
  h.collected.servers.symm.trans h.alike.servers

/-- A server that was given a request is gone, and its number will not be used again. -/
structure Gone (ptr : Nat) (c : Proxy.Collect) : Prop where
  listed : ptr ∈ c.servers
  next : ptr < c.world.nextServer
  absent : ∀ s ∈ c.world.servers.toList, s.ptr ≠ ptr
  stopped : c.world.stopped = true

theorem Gone.step {ptr : Nat} (h : Gone ptr c) (hf : DataOrSetConfig f)
    (hs : Proxy.collectStep env conn c f = some (.yield c') ∨
      Proxy.collectStep env conn c f = some (.done c')) : Gone ptr c' := by
  have hadv : ∀ {d : Proxy.Collect} {src : Option Nat}, Gone ptr d →
      (Proxy.advance d f src = .yield c' ∨ Proxy.advance d f src = .done c') → Gone ptr c' := by
    intro d src hd hs
    rw [Proxy.advance] at hs
    split at hs
    · rcases hs with hs | hs
      · cases hs
      · cases hs
        exact ⟨hd.listed, hd.next, hd.absent, hd.stopped⟩
    · rcases hs with hs | hs
      · cases hs
        exact ⟨hd.listed, hd.next, hd.absent, hd.stopped⟩
      · cases hs
  rw [Proxy.collectStep] at hs
  by_cases hproxy : Proxy.doInProxy f = true
  · rw [if_pos hproxy] at hs
    cases hsingle : Proxy.processSingle env conn c.pool c.world f with
    | none => simp [hsingle] at hs
    | some r =>
        obtain ⟨p', w'⟩ := r
        simp only [hsingle, Option.some.injEq] at hs
        obtain ⟨hstop, hnext, hservers, -⟩ :=
          processSingle_comes env (hf hproxy) h.stopped hsingle
        have hgone : Gone ptr { c with pool := p', world := w' } := by
          refine ⟨h.listed, h.next.trans_le hnext, fun s hmem => ?_, hstop⟩
          rcases hservers s hmem with hold | hnew
          · exact h.absent s hold
          · exact (h.next.trans_le hnew).ne'
        exact hadv hgone hs
  · rw [if_neg hproxy] at hs
    cases hfind : findStServer c.world.servers (reqbufGetKey f) with
    | none => simp [hfind] at hs
    | some srv =>
        cases hb : c.world.backends srv.ptr with
        | none => simp [hfind, hb] at hs
        | some b =>
            simp only [hfind, hb] at hs
            obtain ⟨l, hl⟩ : ∃ l, (if 0 = b.requests then c.servers ++ [srv.ptr]
              else c.servers) = l := ⟨_, rfl⟩
            have hlisted : ptr ∈ l := by
              rw [← hl]
              split
              · exact List.mem_append_left _ h.listed
              · exact h.listed
            rw [hl] at hs
            have hgone : ∀ p b', Gone ptr { c with
                pool := p, world := c.world.setBackend srv.ptr (some b'), servers := l } :=
              fun _ _ => ⟨hlisted, h.next, h.absent, h.stopped⟩
            by_cases hfull : l.length = Proxy.nelemServers
            · simp only [if_pos hfull, Option.some.injEq] at hs
              rcases hs with hs | hs
              · cases hs
              · cases hs
                exact hgone _ _
            · simp only [if_neg hfull, Option.some.injEq] at hs
              exact hadv (hgone _ _) hs

theorem Gone.run {ptr : Nat} : ∀ {batch : List Bytes} {c c' : Proxy.Collect}, Gone ptr c →
    (∀ f ∈ batch, DataOrSetConfig f) →
    foldFrames (Proxy.collectStep env conn) c batch = some c' → Gone ptr c' := by
  intro batch
  induction batch with
  | nil =>
      intro c c' h _ hs
      cases hs
      exact h
  | cons f rest ih =>
      intro c c' h hbatch hs
      have hf := hbatch f List.mem_cons_self
      rw [foldFrames] at hs
      split at hs
      · cases hs
      · next hstep =>
          cases hs
          exact h.step hf (.inr hstep)
      · next hstep =>
          exact ih (h.step hf (.inl hstep)) (fun g hg => hbatch g (List.mem_cons_of_mem _ hg)) hs

/-! ### One request -/

/-- SET_CONFIG that leaves the configuration as it is. -/
theorem Going.refused (h : Going w w1 done pas c) (hproxy : Proxy.doInProxy f = true)
    (hno : ¬ Accepted f) {p' : Pool} {w' : ProxyWorld} {a : Bytes}
    (hw' : w' = { c.world with resBuf := w'.resBuf }) (hholds : w'.resBuf.Holds (pas.flatten ++ a))
    (hans : AnswerFrame f intMax a) (hroom : RoomInt p' w'.resBuf) :
    Going (configBehind env w f) w1 (done ++ [f]) (pas ++ [a]) { c with
      pool := p', world := w', order := c.order ++ [none], consumed := c.consumed + f.length } := by
  have hsame : SameServers c.world w' := by rw [hw']; exact ⟨rfl, rfl⟩
  have hforce : configBehind env w f = w := by
    rw [configBehind, if_pos hproxy, reloaded, if_neg hno]
  rw [hforce]
  refine ⟨h.collected.own hproxy hsame hholds hans hroom, h.alike.trans ?_, h.trees, h.idle,
    h.numbered, ?_, ?_, fun hall s hs b hb => ?_⟩
  · rw [hw']
    exact ⟨rfl, rfl, rfl⟩
  · show w'.nextServer = _
    rw [hw']
    exact h.next
  · show w'.stopped = _
    rw [hw']
    exact h.stopped
  · have hs : s ∈ w'.servers.toList := hs
    have hb : w'.backends s.ptr = some b := hb
    rw [hsame.servers] at hs
    rw [hsame.backends] at hb
    exact h.blocks (fun g hg => hall g (List.mem_append_left _ hg)) s hs b hb

/-- SET_CONFIG with a new configuration, when nothing has been given to a server. -/
theorem Going.changed (h : Going w w1 done pas c) (hproxy : Proxy.doInProxy f = true)
    (hfirst : ∀ g ∈ done, Proxy.doInProxy g = true) {p' : Pool} {w' : ProxyWorld} {a : Bytes}
    (hnew : Reconfigured env c.world f w') (hholds : w'.resBuf.Holds (pas.flatten ++ a))
    (hans : AnswerFrame f intMax a) (hroom : RoomInt p' w'.resBuf) :
    Going (configBehind env w f) w' (done ++ [f]) (pas ++ [a]) { c with
      pool := p', world := w', order := c.order ++ [none], consumed := c.consumed + f.length } := by
  have hall : ∀ g ∈ done ++ [f], Proxy.doInProxy g = true := by
    intro g hg
    rcases List.mem_append.mp hg with hg | hg
    · exact hfirst g hg
    · rw [List.mem_singleton.mp hg]
      exact hproxy
  have hroute : ∀ u, ∀ g ∈ done ++ [f], route u g = none := fun u g hg => by
    rw [route, if_pos (hall g hg)]
  have hnone : ∀ u, ∀ fs ⊆ done ++ [f], fs.filterMap (route u) = [] := fun u fs hfs =>
    List.filterMap_eq_nil_iff.mpr fun g hg => hroute u g (hfs hg)
  have hforce : configBehind env w f = reloaded env w f := if_pos hproxy
  rw [hforce]
  refine ⟨⟨rfl, ?_, ?_, fun s hs => ?_, h.collected.nodup, fun ptr => ?_, fun g hg hdata => ?_,
    h.collected.few, ?_, ?_, hroom⟩, hnew.alike w h.alike, hnew.trees, hnew.idle, hnew.numbered,
    rfl, hnew.stopped.trans h.stopped, fun _ => hnew.blocks⟩
  · show c.order ++ [none] = _
    rw [h.collected.order, List.map_append, List.map_singleton,
      hroute w' f (List.mem_append_right _ List.mem_cons_self)]
    refine congrArg (· ++ [none]) (List.map_congr_left fun g hg => ?_)
    have hg := List.mem_append_left [f] hg
    rw [hroute w1 g hg, hroute w' g hg]
  · show c.consumed + f.length = _
    rw [h.collected.consumed, List.flatten_append, List.length_append, List.flatten_singleton]
    omega
  · obtain ⟨b, hb, hidle⟩ := hnew.idle s hs
    rw [requestsFor_own hall]
    refine ⟨b, b.sendBuf, hb, ?_, hidle.send⟩
    show w'.backends s.ptr = _
    rw [hb, List.length_nil]
    have hreq := hidle.requests
    cases b
    cases hreq
    rfl
  · show ptr ∈ c.servers ↔ _
    rw [h.collected.contacts, hnone w1 done (List.subset_append_left _ _),
      hnone w' _ (List.Subset.refl _)]
  · rw [hall g hg] at hdata
    cases hdata
  · rw [List.filter_append, List.filter_singleton, hproxy]
    exact List.rel_append h.collected.answers (.cons hans .nil)
  · show w'.resBuf.Holds _
    rw [List.flatten_append, List.flatten_singleton]
    exact hholds

/-- SET_CONFIG with a new configuration, when it is too late. -/
theorem Going.tooLate (h : Going w w1 done pas c) (hf : DataOrSetConfig f)
    (hproxy : Proxy.doInProxy f = true) (hacc : Accepted f) {g : Bytes} (hg : g ∈ done)
    (hdata : Proxy.doInProxy g = false) {p' : Pool} {w' : ProxyWorld}
    (hs : Proxy.processSingle env conn c.pool c.world f = some (p', w')) (src : Option Nat) :
    ∃ ptr, Gone ptr { c with
      pool := p', world := w', order := c.order ++ [src], consumed := c.consumed + f.length } := by
  obtain ⟨hstop, hnext, -, hfresh⟩ := processSingle_comes env (hf hproxy) h.stopped hs
  obtain ⟨ptr, hptr⟩ := Option.ne_none_iff_exists'.mp (h.collected.found g hg hdata)
  obtain ⟨s, hmem, rfl⟩ := exists_server_of_route hptr
  have hlt : s.ptr < c.world.nextServer := by
    rw [h.next]
    exact h.numbered s hmem
  refine ⟨s.ptr, (h.collected.contacts s.ptr).mpr (List.mem_filterMap.mpr ⟨g, hg, hptr⟩),
    hlt.trans_le hnext, fun t ht => ?_, hstop⟩
  exact (hlt.trans_le (hfresh hacc t ht)).ne'

theorem Going.data (h : Going w w1 done pas c) (hdata : Proxy.doInProxy f = false)
    {s : StServer} (hfind : findStServer w1.servers (reqbufGetKey f) = some s) :
    (∃ c', Proxy.collectStep env conn c f = some (Proxy.advance c' f (some s.ptr)) ∧
      Going (configBehind env w f) w1 (done ++ [f]) pas
        { c' with order := c'.order ++ [some s.ptr], consumed := c'.consumed + f.length }) ∨
    ∃ c', Proxy.collectStep env conn c f = some (.done c') ∧ Overfull w1 done f c' := by
  have hforce : configBehind env w f = w := by simp [configBehind, hdata]
  rw [hforce]
  rcases h.collected.step_data env conn hdata hfind with ⟨c', hstep, ⟨b', hw'⟩, hcol⟩ | hfull
  · refine .inl ⟨c', hstep, hcol, h.alike.trans ?_, h.trees, h.idle, h.numbered, ?_, ?_,
      fun hall => ?_⟩
    · rw [hw']
      exact ⟨rfl, rfl, rfl⟩
    · show c'.world.nextServer = _
      rw [hw']
      exact h.next
    · show c'.world.stopped = _
      rw [hw']
      exact h.stopped
    · have hown := hall f (List.mem_append_right _ List.mem_cons_self)
      rw [hdata] at hown
      cases hown
  · exact .inr hfull

/-- How the loop goes on behind a request. -/
def goesOn (c : Proxy.Collect) : ForInStep Proxy.Collect :=
  if c.order.length = maxQuietRequests then .done c else .yield c

theorem Going.length (h : Going w w1 done pas c) : c.order.length = done.length := by
  rw [h.collected.order, List.length_map]

/-- A request for the proxy, as the loop sees it. -/
theorem collectStep_own (hproxy : Proxy.doInProxy f = true) {p' : Pool} {w' : ProxyWorld}
    (hs : Proxy.processSingle env conn c.pool c.world f = some (p', w')) :
    Proxy.collectStep env conn c f = some (goesOn { c with
      pool := p', world := w', order := c.order ++ [none]
      consumed := c.consumed + f.length }) := by
  rw [Proxy.collectStep, if_pos hproxy, hs]
  rfl

/-- SET_CONFIG in the loop. -/
theorem Going.step_own (h : Going w w1 done pas c) (hf : DataOrSetConfig f)
    (hproxy : Proxy.doInProxy f = true) :
    (Servable w done f ∧ ∃ w2 pas' c',
      Proxy.collectStep env conn c f = some (goesOn c') ∧
        Going (configBehind env w f) w2 (done ++ [f]) pas' c' ∧
        ((∃ g ∈ done, Proxy.doInProxy g = false) → w2 = w1)) ∨
    ¬ Servable w done f ∧ (Proxy.collectStep env conn c f = none ∨
      ∃ ptr c', Gone ptr c' ∧ Proxy.collectStep env conn c f = some (goesOn c')) := by
  have hserve : Servable w done f ↔
      Loads f ∧ (Accepted f → ∀ g ∈ done, Proxy.doInProxy g = true) := by
    rw [Servable, if_pos hproxy]
  by_cases hlate : Accepted f ∧ ∃ g ∈ done, Proxy.doInProxy g = false
  · obtain ⟨hacc, g, hg, hdata⟩ := hlate
    refine .inr ⟨fun hs => ?_, ?_⟩
    · have hown := (hserve.mp hs).2 hacc g hg
      rw [hdata] at hown
      cases hown
    · cases hsingle : Proxy.processSingle env conn c.pool c.world f with
      | none => exact .inl (by rw [Proxy.collectStep, if_pos hproxy, hsingle])
      | some r =>
          obtain ⟨ptr, hgone⟩ := h.tooLate hf hproxy hacc hg hdata hsingle none
          exact .inr ⟨ptr, _, hgone, collectStep_own hproxy hsingle⟩
  · have hfirst : Accepted f → ∀ g ∈ done, Proxy.doInProxy g = true := by
      intro hacc g hg
      by_contra hdata
      exact hlate ⟨hacc, g, hg, by simpa using hdata⟩
    rcases processSingle_setConfig env (hf hproxy) h.stopped h.collected.resBuf h.collected.room
        (fun hacc => h.blocks (hfirst hacc)) with ⟨hno, hnone⟩ |
      ⟨p', w', a, hload, hsingle, hholds, hans, hroom, hworld⟩
    · exact .inr ⟨fun hs => hno (hserve.mp hs).1,
        .inl (by rw [Proxy.collectStep, if_pos hproxy, hnone])⟩
    · refine .inl ⟨hserve.mpr ⟨hload, hfirst⟩, ?_⟩
      have hstep := collectStep_own hproxy hsingle
      rcases hworld with ⟨hno, hsame⟩ | ⟨hacc, hnew⟩
      · exact ⟨w1, _, _, hstep, h.refused hproxy hno hsame hholds hans hroom, fun _ => rfl⟩
      · refine ⟨w', _, _, hstep, h.changed hproxy (hfirst hacc) hnew hholds hans hroom, ?_⟩
        rintro ⟨g, hg, hdata⟩
        rw [hfirst hacc g hg] at hdata
        cases hdata

/-- A data request in the loop. -/
theorem Going.step_data (h : Going w w1 done pas c) (hdata : Proxy.doInProxy f = false) :
    (Servable w done f ∧ ∃ c', Proxy.collectStep env conn c f = some (goesOn c') ∧
      Going (configBehind env w f) w1 (done ++ [f]) pas c') ∨
    ¬ Servable w done f ∧ (Proxy.collectStep env conn c f = none ∨
      ∃ c', Overfull w1 done f c' ∧ Proxy.collectStep env conn c f = some (.done c')) := by
  have hserve : Servable w done f ↔
      route w f ≠ none ∧ (contacted w (done ++ [f])).length < Proxy.nelemServers := by
    rw [Servable, hdata, if_neg Bool.false_ne_true]
  cases hfind : findStServer w1.servers (reqbufGetKey f) with
  | none =>
      refine .inr ⟨fun hs => (hserve.mp hs).1 ?_, .inl ?_⟩
      · rw [← route_congr h.servers, route, hdata, hfind]
        rfl
      · rw [Proxy.collectStep, hdata, if_neg Bool.false_ne_true, h.collected.servers, hfind]
  | some s =>
      have hroute : route w f ≠ none := by
        rw [← route_congr h.servers, route, hdata, hfind]
        exact Option.some_ne_none _
      rcases h.data hdata hfind with ⟨c', hstep, hgoing⟩ | ⟨c', hstep, hfull⟩
      · refine .inl ⟨hserve.mpr ⟨hroute, ?_⟩, _, hstep, hgoing⟩
        rw [← contacted_congr h.servers,
          length_contacted hgoing.collected.nodup hgoing.collected.contacts]
        exact hgoing.collected.few
      · refine .inr ⟨fun hs => ?_, .inr ⟨c', hfull, hstep⟩⟩
        have hfew := (hserve.mp hs).2
        rw [← contacted_congr h.servers, hfull.many] at hfew
        exact absurd hfew (Nat.lt_irrefl _)

/-- One round of the loop. From the first request on that is given to a server, the
servers stay the same. -/
theorem Going.step (h : Going w w1 done pas c) (hf : DataOrSetConfig f) :
    (Servable w done f ∧ ∃ w2 pas' c',
      Proxy.collectStep env conn c f = some (goesOn c') ∧
        Going (configBehind env w f) w2 (done ++ [f]) pas' c' ∧
        ((∃ g ∈ done ++ [f], Proxy.doInProxy g = false) → w2 = w1)) ∨
    ¬ Servable w done f ∧ (Proxy.collectStep env conn c f = none ∨
      (∃ ptr c', Gone ptr c' ∧ Proxy.collectStep env conn c f = some (goesOn c')) ∨
      ∃ c', Overfull w1 done f c' ∧ Proxy.collectStep env conn c f = some (.done c')) := by
  cases hproxy : Proxy.doInProxy f with
  | true =>
      rcases h.step_own hf hproxy with ⟨hserve, w2, pas', c', hstep, hgoing, hsame⟩ |
        ⟨hno, hnone | hgone⟩
      · refine .inl ⟨hserve, w2, pas', c', hstep, hgoing, ?_⟩
        rintro ⟨g, hg, hdata⟩
        rcases List.mem_append.mp hg with hg | hg
        · exact hsame ⟨g, hg, hdata⟩
        · rw [List.mem_singleton.mp hg, hproxy] at hdata
          cases hdata
      · exact .inr ⟨hno, .inl hnone⟩
      · exact .inr ⟨hno, .inr (.inl hgone)⟩
  | false =>
      rcases h.step_data hproxy with ⟨hserve, c', hstep, hgoing⟩ | ⟨hno, hnone | hfull⟩
      · exact .inl ⟨hserve, w1, pas, c', hstep, hgoing, fun _ => rfl⟩
      · exact .inr ⟨hno, .inl hnone⟩
      · exact .inr ⟨hno, .inr (.inr hfull)⟩

/-- Where a request of the batch went: to the server that the configuration in force
when its turn came had for it. -/
def RoutedInForce (env : ProxyEnv) (conn : Nat) (c : Proxy.Collect) (n : Nat)
    (batch : List Bytes) (order : List (Option Nat)) : Prop :=
  ∀ front f back, batch = front ++ f :: back →
    ∃ c1, foldFrames (Proxy.collectStep env conn) c front = some c1 ∧
      order[n + front.length]? = some (route c1.world f) ∧
      (Proxy.doInProxy f = false → route c1.world f ≠ none)

variable (conn) in
/-- A batch that can be served. -/
theorem Going.run : ∀ {batch done pas : List Bytes} {c : Proxy.Collect} {w w1 : ProxyWorld},
    Going w w1 done pas c → done.length < maxQuietRequests → (∀ f ∈ batch, DataOrSetConfig f) →
    ChangesFirst env w done (batch.take (maxQuietRequests - done.length)) →
    ∃ w' w2 pas' c', foldFrames (Proxy.collectStep env conn) c batch = some c' ∧
      Going w' w2 (done ++ batch.take (maxQuietRequests - done.length)) pas' c' ∧
      ((∃ g ∈ done, Proxy.doInProxy g = false) → w2 = w1) ∧
      RoutedInForce env conn c done.length (batch.take (maxQuietRequests - done.length))
        c'.order := by
  intro batch
  induction batch with
  | nil =>
      intro done pas c w w1 h _ _ _
      rw [List.take_nil, List.append_nil]
      exact ⟨w, w1, pas, c, rfl, h, fun _ => rfl, fun front f back hcut => by simp at hcut⟩
  | cons f rest ih =>
      intro done pas c w w1 h hfew hbatch hfirst
      obtain ⟨k, hk⟩ : ∃ k, maxQuietRequests - done.length = k + 1 := ⟨_, (Nat.sub_one_add_one
        (Nat.sub_ne_zero_of_lt hfew)).symm⟩
      rw [hk, List.take_succ_cons] at hfirst
      obtain ⟨hserve, hmore⟩ := hfirst
      rw [hk, List.take_succ_cons, foldFrames]
      rcases h.step (hbatch f List.mem_cons_self) with
        ⟨-, w2, pas1, c1, hstep, hgoing, hsame⟩ | ⟨hno, -⟩
      swap
      · exact absurd hserve hno
      have hlen : (done ++ [f]).length = done.length + 1 := by
        rw [List.length_append, List.length_singleton]
      have horder := hgoing.length
      have hhere : ∀ {c' : Proxy.Collect} {w' w3 : ProxyWorld} {pas' back : List Bytes},
          Going w' w3 (done ++ f :: back) pas' c' →
          ((∃ g ∈ done ++ [f], Proxy.doInProxy g = false) → w3 = w2) →
          c'.order[done.length]? = some (route c.world f) ∧
            (Proxy.doInProxy f = false → route c.world f ≠ none) := by
        intro c' w' w3 pas' back hend hsame'
        rw [hend.collected.order, List.map_append, List.getElem?_append_right (by simp),
          List.length_map, Nat.sub_self]
        cases hproxy : Proxy.doInProxy f with
        | true =>
            refine ⟨congrArg some ?_, fun hdata => by cases hdata⟩
            show route w3 f = _
            rw [route, if_pos hproxy, route, if_pos hproxy]
        | false =>
            have hdata : ∃ g ∈ done ++ [f], Proxy.doInProxy g = false :=
              ⟨f, List.mem_append_right _ List.mem_cons_self, hproxy⟩
            have hw3 : w3 = w1 := (hsame' hdata).trans (hsame hdata)
            have hroute : route c.world f = route w3 f := by
              rw [hw3]
              exact route_congr h.collected.servers f
            rw [hroute]
            exact ⟨rfl, fun _ => hend.collected.found f (List.mem_append_right _
              List.mem_cons_self) hproxy⟩
      rw [hstep, goesOn]
      by_cases hmax : c1.order.length = maxQuietRequests
      · -- too many requests
        have hk0 : k = 0 := by omega
        rw [if_pos hmax, hk0, List.take_zero]
        refine ⟨_, w2, pas1, c1, rfl, hgoing, fun hasked => ?_, fun front g back hcut => ?_⟩
        · obtain ⟨g, hg, hdata⟩ := hasked
          exact hsame ⟨g, List.mem_append_left _ hg, hdata⟩
        cases front with
        | nil =>
            obtain ⟨hf, -⟩ := List.cons.inj hcut
            rw [← hf]
            exact ⟨c, rfl, hhere hgoing fun _ => rfl⟩
        | cons x more => simp at hcut
      · rw [if_neg hmax]
        have hk' : maxQuietRequests - (done ++ [f]).length = k := by omega
        have hrun := ih hgoing (by omega) (fun g hg => hbatch g (List.mem_cons_of_mem _ hg))
        rw [hk', List.append_assoc, List.singleton_append] at hrun
        obtain ⟨w', w3, pas', c', hfold, hend, hsame', hrouted⟩ := hrun hmore
        refine ⟨w', w3, pas', c', hfold, hend, fun hasked => ?_, fun front g back hcut => ?_⟩
        · obtain ⟨g, hg, hdata⟩ := hasked
          have hdata' : ∃ g ∈ done ++ [f], Proxy.doInProxy g = false :=
            ⟨g, List.mem_append_left _ hg, hdata⟩
          exact (hsame' hdata').trans (hsame hdata')
        · cases front with
          | nil =>
              obtain ⟨hf, -⟩ := List.cons.inj hcut
              rw [← hf]
              exact ⟨c, rfl, hhere hend hsame'⟩
          | cons x more =>
              obtain ⟨hf, htail⟩ := List.cons.inj hcut
              rw [← hf]
              obtain ⟨c2, hc2, hat⟩ := hrouted more g back htail
              refine ⟨c2, ?_, ?_⟩
              · rw [foldFrames, hstep, goesOn, if_neg hmax]
                exact hc2
              · rw [hlen] at hat
                rw [List.length_cons, Nat.add_comm more.length 1, ← Nat.add_assoc]
                exact hat

/-- A batch that cannot be served. -/
theorem Going.stuck : ∀ {batch done pas : List Bytes} {c c' : Proxy.Collect}
    {w w1 : ProxyWorld}, Going w w1 done pas c → done.length < maxQuietRequests →
    (∀ f ∈ batch, DataOrSetConfig f) →
    ¬ ChangesFirst env w done (batch.take (maxQuietRequests - done.length)) →
    foldFrames (Proxy.collectStep env conn) c batch = some c' →
    (∃ ptr, Gone ptr c') ∨ ∃ taken f w2, taken ++ [f] <+: batch ∧
      Overfull w2 (done ++ taken) f c' := by
  intro batch
  induction batch with
  | nil =>
      intro done pas c c' w w1 _ _ _ hnot _
      rw [List.take_nil] at hnot
      exact absurd trivial hnot
  | cons f rest ih =>
      intro done pas c c' w w1 h hfew hbatch hnot hfold
      obtain ⟨k, hk⟩ : ∃ k, maxQuietRequests - done.length = k + 1 := ⟨_, (Nat.sub_one_add_one
        (Nat.sub_ne_zero_of_lt hfew)).symm⟩
      rw [hk, List.take_succ_cons] at hnot
      have hrest : ∀ g ∈ rest, DataOrSetConfig g := fun g hg => hbatch g (List.mem_cons_of_mem _ hg)
      rw [foldFrames] at hfold
      rcases h.step (hbatch f List.mem_cons_self) with
        ⟨hserve, w2, pas1, c1, hstep, hgoing, -⟩ | ⟨-, hnone | ⟨ptr, c1, hgone, hstep⟩ |
          ⟨c1, hfull, hstep⟩⟩
      · have hlen : (done ++ [f]).length = done.length + 1 := by
          rw [List.length_append, List.length_singleton]
        have hk' : maxQuietRequests - (done ++ [f]).length = k := by omega
        have horder := hgoing.length
        have hmore : ¬ ChangesFirst env (configBehind env w f) (done ++ [f]) (rest.take k) :=
          fun hmore => hnot ⟨hserve, hmore⟩
        rw [hstep, goesOn] at hfold
        by_cases hmax : c1.order.length = maxQuietRequests
        · have hk0 : k = 0 := by omega
          rw [hk0, List.take_zero] at hmore
          exact absurd trivial hmore
        · rw [if_neg hmax] at hfold
          rw [← hk'] at hmore
          rcases ih hgoing (by omega) hrest hmore hfold with hgone | ⟨taken, g, w3, hpre, hfull⟩
          · exact .inl hgone
          · refine .inr ⟨f :: taken, g, w3, (List.prefix_cons_inj f).mpr hpre, ?_⟩
            rw [List.append_assoc] at hfull
            exact hfull
      · rw [hnone] at hfold
        cases hfold
      · rw [hstep, goesOn] at hfold
        split at hfold
        · next hdone =>
            split at hdone
            · cases hdone
            · cases hdone
        · next hdone =>
            cases hfold
            split at hdone
            · cases hdone
              exact .inl ⟨ptr, hgone⟩
            · cases hdone
        · next hdone =>
            split at hdone
            · cases hdone
            · cases hdone
              exact .inl ⟨ptr, hgone.run hrest hfold⟩
      · rw [hstep] at hfold
        cases hfold
        refine .inr ⟨[], f, w1, (List.prefix_cons_inj f).mpr List.nil_prefix, ?_⟩
        rw [List.append_nil]
        exact hfull

end Batch

/-! ## The rest of `process_multi`, whatever the network does

Behind the loop come the NOOPs, the network and the answers. A network is in order when
a server that is asked sends no more than its responses, the last of them a header.
Apart from that connections may fail at any point. -/

section Network

variable {w : ProxyWorld} {R : Bytes → Bytes → Prop} {done pas : List Bytes}
  {c : Proxy.Collect} {net : List Proxy.NetEvent}

end Network

/-! ## The whole of `process_multi`

Both directions end here. When the configuration changes first, each request gets one
answer, from the server it was routed to by the configuration that was in force when it
was looked at. When not, `process_multi` follows a pointer to a server that is not there
any more, or it has written behind the end of `servers`. -/

section Whole

variable (env : ProxyEnv) (w : ProxyWorld)

variable {env w} {io : Io} {out : Bytes} {batch : List Bytes}

end Whole

end Smalltable.Proofs
