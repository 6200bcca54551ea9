import Smalltable.Proofs.ProxyCollect
import Smalltable.Ref.ProxyServer

/-!
# STOP and START never wedge the proxy

While the proxy runs, all connections are registered. While it is stopped, one
is: the connection whose STOP is in force. So there is always one that can send
START, or be closed, and no other is served in the meantime. The invariant says
both at once, and a request keeps it whatever it is, because only the handlers
of STOP and START touch flag and connections.

Connections come and go in between. One that is accepted while the proxy is stopped
stays out until START, and one that is not registered cannot be closed either, as nobody
looks at it.
-/

namespace Smalltable.Proofs

open Smalltable.Ref Smalltable.Ref.Proxy

/-! ## The STOP in force

It is read off the history from its end: the last STOP that was accepted, unless a START
was accepted since or its connection has been closed. -/

/-- The proxy has this handler for the request, and the handler does not refuse
its arguments. -/
def Accepts (h : Proxy.Handler) (request : Bytes) : Prop :=
  doInProxy request = true ∧ handlerOf (mcGetOpcode request) = some h ∧
  (unpackRequest request).extras = [] ∧ (unpackRequest request).key = [] ∧
  (unpackRequest request).value = []

instance (h : Proxy.Handler) (request : Bytes) : Decidable (Accepts h request) :=
  inferInstanceAs (Decidable (_ ∧ _))

/-- The connection that has stopped the proxy, from what has happened. -/
def stopInForce : List Done → Option Nat
  | [] => none
  | .request conn request :: before =>
      if Accepts .stop request then some conn
      else if Accepts .start request then none
      else stopInForce before
  | .closed conn :: before =>
      if stopInForce before = some conn then none else stopInForce before

/-! ## What changes flag and connections

Every function in between is shown to leave both alone. Only a request that is STOP or
START does not, and only when it is accepted. -/

structure SameConns (w w' : ProxyWorld) : Prop where
  stopped : w'.stopped = w.stopped
  conns : w'.conns = w.conns

theorem SameConns.refl (w : ProxyWorld) : SameConns w w := ⟨rfl, rfl⟩

theorem SameConns.trans {w w1 w2 : ProxyWorld} (h1 : SameConns w w1) (h2 : SameConns w1 w2) :
    SameConns w w2 :=
  ⟨h2.stopped.trans h1.stopped, h2.conns.trans h1.conns⟩

section Loading

variable {env : ProxyEnv} {w w' : ProxyWorld}

theorem newStServer_sameConns {host key : Bytes} {port weight : Int}
    (h : newStServer env w host port weight key = some w') : SameConns w w' := by
  unfold newStServer at h
  simp only [] at h
  split at h
  · cases h
  · next w1 hinsert =>
      unfold stServerInsert at hinsert
      split at hinsert
      · cases hinsert
      · cases hinsert
        cases h
        exact ⟨rfl, rfl⟩

theorem newStProxy_sameConns {host : Bytes} {port : Int}
    (h : newStProxy env w host port = some w') : SameConns w w' := by
  unfold newStProxy stProxyInsert at h
  split at h
  · cases h
  · cases h
    exact ⟨rfl, rfl⟩

theorem loadEntry_sameConns {testing : Bool} {l l' : Loading} {e : ConfigEntry}
    (h : loadEntry env testing l e = .inr l') : SameConns l.world l'.world := by
  cases e with
  | proxy host port =>
      simp only [loadEntry] at h
      split at h
      · cases h; exact .refl _
      · split at h
        · cases h
        · next hw => cases h; exact newStProxy_sameConns hw
  | server host port weight key =>
      simp only [loadEntry] at h
      split at h
      · cases h; exact .refl _
      · split at h
        · cases h
        · next hw => cases h; exact newStServer_sameConns hw

theorem loadLines_sameConns {testing : Bool} : ∀ {lines : List Bytes} {n m : Nat} {l l' : Loading}
    {err : Option Bytes}, loadLines env testing lines n l = some (l', err, m) →
    SameConns l.world l'.world := by
  intro lines
  induction lines with
  | nil => intro n m l l' err h; cases h; exact .refl _
  | cons line rest ih =>
      intro n m l l' err h
      simp only [loadLines] at h
      split at h
      · cases h
      · exact ih h
      · cases h; exact .refl _
      · split at h
        · cases h; exact .refl _
        · next hentry => exact (loadEntry_sameConns hentry).trans (ih h)

theorem loadConfigFromString_sameConns {testing : Bool} {buf : Bytes} {err : Option Bytes}
    (h : loadConfigFromString env testing w buf = some (w', err)) : SameConns w w' := by
  unfold loadConfigFromString at h
  split at h
  · cases h
  · split at h
    · cases h
    · next hlines =>
        cases h
        exact loadLines_sameConns hlines

end Loading

section Requests

variable {env : ProxyEnv} {conn : Nat} {p p' : Pool} {w w' : ProxyWorld}

theorem refuse_world {res res' : StRes} {status : Nat} {errStr : Option Bytes}
    (h : Proxy.refuse p w res status errStr = some (p', w', res')) : w' = w := by
  unfold Proxy.refuse at h
  split at h
  · cases h
  · cases h; rfl

theorem cmdSetConfig_sameConns {req : StReq} {res res' : StRes}
    (h : cmdSetConfig env p w req res = some (p', w', res')) : SameConns w w' := by
  unfold cmdSetConfig at h
  split at h
  · rw [refuse_world h]; exact .refl w
  · split at h
    · cases h
    · split at h
      · cases h; exact .refl w
      · cases h
    · split at h
      · rw [refuse_world h]; exact .refl w
      · simp only [] at h
        split at h
        · cases h
        · cases h
        · next hload =>
            cases h
            have hflush : SameConns w (flushConfig p w).2 := ⟨rfl, rfl⟩
            exact hflush.trans (loadConfigFromString_sameConns hload)

/-- What a request does to flag and connections. -/
inductive Switches (conn : Nat) (request : Bytes) (w : ProxyWorld) : ProxyWorld → Prop
  | stop {w' : ProxyWorld} (hstop : Accepts .stop request) (h : SameConns (connStop conn w) w') :
      Switches conn request w w'
  | start {w' : ProxyWorld} (hstart : Accepts .start request) (hstopped : w.stopped = true)
      (h : SameConns (connStart w) w') : Switches conn request w w'
  | keep {w' : ProxyWorld} (hstop : ¬ Accepts .stop request)
      (hstart : Accepts .start request → w.stopped = false) (h : SameConns w w') :
      Switches conn request w w'

theorem callHandler_switches {h : Proxy.Handler} {request : Bytes} {res res' : StRes}
    (hproxy : doInProxy request = true) (hh : handlerOf (mcGetOpcode request) = some h)
    (hcall : callHandler env conn h p w (unpackRequest request) res = some (p', w', res')) :
    Switches conn request w w' := by
  have hother : ∀ h', h' ≠ h → ¬ Accepts h' request := by
    intro h' hne hacc
    rw [hacc.2.1] at hh
    exact hne (Option.some.inj hh)
  cases h with
  | stop =>
      unfold callHandler cmdStop at hcall
      simp only [] at hcall
      split at hcall
      · next hargs =>
          rw [refuse_world hcall]
          refine .keep (fun hacc => ?_) (fun hacc => absurd hacc (hother _ (by decide))) (.refl w)
          obtain ⟨-, -, h1, h2, h3⟩ := hacc
          simp [h1, h2, h3] at hargs
      · next hargs =>
          cases hcall
          simp only [not_or, not_not] at hargs
          exact .stop ⟨hproxy, hh, hargs⟩ (.refl _)
  | start =>
      unfold callHandler cmdStart at hcall
      simp only [] at hcall
      split at hcall
      · next hargs =>
          rw [refuse_world hcall]
          refine .keep (hother _ (by decide)) (fun hacc => ?_) (.refl w)
          obtain ⟨-, -, h1, h2, h3⟩ := hacc
          simp [h1, h2, h3] at hargs
      · next hargs =>
          simp only [not_or, not_not] at hargs
          split at hcall
          · next hstopped =>
              rw [refuse_world hcall]
              exact .keep (hother _ (by decide)) (fun _ => by simpa using hstopped) (.refl w)
          · next hstopped =>
              cases hcall
              exact .start ⟨hproxy, hh, hargs⟩ (by simpa using hstopped) (.refl _)
  | setConfig =>
      exact .keep (hother _ (by decide)) (fun hacc => absurd hacc (hother _ (by decide)))
        (cmdSetConfig_sameConns hcall)
  | unknown =>
      unfold callHandler Proxy.cmdUnknown at hcall
      rw [refuse_world hcall]
      exact .keep (hother _ (by decide)) (fun hacc => absurd hacc (hother _ (by decide))) (.refl w)
  | getConfig =>
      refine .keep (hother _ (by decide)) (fun hacc => absurd hacc (hother _ (by decide))) ?_
      unfold callHandler cmdGetConfig at hcall
      simp only [] at hcall
      split at hcall
      · rw [refuse_world hcall]; exact .refl w
      · split at hcall
        · rw [refuse_world hcall]; exact .refl w
        · split at hcall
          · rw [refuse_world hcall]; exact .refl w
          · cases hcall; exact .refl w
  | noop =>
      refine .keep (hother _ (by decide)) (fun hacc => absurd hacc (hother _ (by decide))) ?_
      unfold callHandler Proxy.cmdNoop at hcall
      simp only [] at hcall
      split at hcall
      · rw [refuse_world hcall]; exact .refl w
      · cases hcall; exact .refl w

theorem Switches.congr {request : Bytes} {w1 w1' : ProxyWorld} (h : Switches conn request w1 w1')
    (h1 : SameConns w w1) (h2 : SameConns w1' w') : Switches conn request w w' := by
  cases h with
  | stop hstop h =>
      have hsame : SameConns (connStop conn w) (connStop conn w1) := by
        refine ⟨rfl, ?_⟩
        rw [connStop, connStop, h1.conns]
      exact .stop hstop ((hsame.trans h).trans h2)
  | start hstart hstopped h =>
      have hsame : SameConns (connStart w) (connStart w1) := by
        refine ⟨rfl, ?_⟩
        rw [connStart, connStart, h1.conns]
      exact .start hstart (by rw [← h1.stopped]; exact hstopped) ((hsame.trans h).trans h2)
  | keep hstop hstart h =>
      exact .keep hstop (fun hacc => by rw [← h1.stopped]; exact hstart hacc)
        ((h1.trans h).trans h2)

theorem processSingle_switches {request : Bytes} (hproxy : doInProxy request = true)
    (h : Proxy.processSingle env conn p w request = some (p', w')) :
    Switches conn request w w' := by
  unfold Proxy.processSingle at h
  simp only [] at h
  split at h
  · cases h
  · next hh =>
      split at h
      · cases h
      · next hcall =>
          split at h
          · cases h
          · cases h
            exact (callHandler_switches hproxy hh hcall).congr ⟨rfl, rfl⟩ ⟨rfl, rfl⟩

theorem advance_world (c : Collect) (request : Bytes) (src : Option Nat) :
    (advance c request src).value.world = c.world := by
  unfold advance
  simp only []
  split <;> rfl

theorem collectStep_switches {request : Bytes} {c : Collect} {r : ForInStep Collect}
    (h : collectStep env conn c request = some r) :
    Switches conn request c.world r.value.world := by
  unfold collectStep at h
  split at h
  · next hproxy =>
      split at h
      · cases h
      · next hsingle =>
          cases h
          rw [advance_world]
          exact processSingle_switches hproxy hsingle
  · next hproxy =>
      have hkeep : ∀ {w' : ProxyWorld}, SameConns c.world w' → Switches conn request c.world w' :=
        .keep (fun hacc => hproxy hacc.1) (fun hacc => absurd hacc.1 hproxy)
      split at h
      · cases h
      · split at h
        · cases h
        · simp only [] at h
          split_ifs at h
          · cases h; exact hkeep ⟨rfl, rfl⟩
          · cases h; rw [advance_world]; exact hkeep ⟨rfl, rfl⟩
          · cases h; exact hkeep ⟨rfl, rfl⟩
          · cases h; rw [advance_world]; exact hkeep ⟨rfl, rfl⟩

end Requests

/-! ## What a batch leaves alone

Whatever is sent to the servers and comes back from them, flag and connections are as
the loop over the requests has left them. -/

section Serving

variable {p p' : Pool} {w w' : ProxyWorld}

theorem appendNoops_sameConns : ∀ {l : List Nat} {p : Pool} {w : ProxyWorld},
    appendNoops l p w = some (p', w') → SameConns w w' := by
  intro l
  induction l with
  | nil => intro p w h; cases h; exact .refl _
  | cons ptr rest ih =>
      intro p w h
      rw [appendNoops] at h
      split at h
      · cases h
      · have hrest := ih h
        exact ⟨hrest.stopped, hrest.conns⟩

theorem popNoops_sameConns : ∀ {l : List Nat} {w : ProxyWorld},
    popNoops l w = some w' → SameConns w w' := by
  intro l
  induction l with
  | nil => intro w h; cases h; exact .refl _
  | cons ptr rest ih =>
      intro w h
      rw [popNoops] at h
      split at h
      · cases h
      · have hrest := ih h
        exact ⟨hrest.stopped, hrest.conns⟩

theorem askServers_sameConns {net : List NetEvent} {c : Collect}
    (h : askServers net c = some (p', w')) : SameConns c.world w' := by
  unfold askServers at h
  split at h
  · cases h; exact .refl _
  · split at h
    · cases h
    · next p1 w1 hnoops =>
        split at h
        · cases h
        · next p2 w2 hserve =>
            obtain ⟨w3, hpop, heq⟩ := Option.map_eq_some_iff.mp h
            cases heq
            have hserved : SameConns w1 w2 := by
              unfold processMemcache at hserve
              split at hserve
              · cases hserve
              · split at hserve
                · cases hserve; exact ⟨rfl, rfl⟩
                · cases hserve
            exact ((appendNoops_sameConns hnoops).trans hserved).trans (popNoops_sameConns hpop)

theorem deliver_sameConns : ∀ {order : List (Option Nat)} {w : ProxyWorld} {io io' : Io},
    deliver order w io = some (w', io') → SameConns w w' := by
  intro order
  induction order with
  | nil => intro w io io' h; cases h; exact .refl _
  | cons src rest ih =>
      intro w io io' h
      rw [deliver] at h
      split at h
      · cases h
      · next b hb =>
          simp only [] at h
          split at h
          · have hset : ∀ b', SameConns w (setSrcBuf w b' src) := by
              intro b'
              cases src <;> exact ⟨rfl, rfl⟩
            exact (hset _).trans (ih h)
          · cases h

theorem processMulti_sameConns {env : ProxyEnv} {net : List NetEvent} {io io' : Io}
    {reqBuf : Bytes} {n : Int} (h : Proxy.processMulti env net w io reqBuf = some (w', io', n)) :
    ∃ c, collect env io.conn io.pool w reqBuf = some c ∧ SameConns c.world w' := by
  unfold Proxy.processMulti at h
  split at h
  · cases h
  · next c hcollect =>
      split at h
      · cases h
      · next hask =>
          split at h
          · cases h
          · next hdeliver =>
              cases h
              exact ⟨c, hcollect, (askServers_sameConns hask).trans (deliver_sameConns hdeliver)⟩

end Serving

/-! ## Who is registered

A case for each event. A connection that stops the proxy unregisters all the others, and
these come back with START, or when it is closed. -/

/-- The flags, while nobody and while somebody has stopped the proxy. -/
inductive Registered (w : ProxyWorld) : Option Nat → Prop
  | running (hrun : w.stopped = false) (hall : ∀ e ∈ w.conns, e.2 = true) : Registered w none
  | stopped {c : Nat} (hstop : w.stopped = true) (hmem : (c, true) ∈ w.conns)
      (honly : ∀ e ∈ w.conns, e.2 = true → e.1 = c) : Registered w (some c)

/-- A data request is only taken up from the connection whose STOP is in force,
if there is one. -/
def Orderly : List Done → Prop
  | [] => True
  | .request conn request :: before =>
      (doInProxy request = false →
        stopInForce before = none ∨ stopInForce before = some conn) ∧ Orderly before
  | .closed _ :: before => Orderly before

/-- The invariant. -/
structure ConnsInv (w : ProxyWorld) (history : List Done) : Prop where
  nodup : (w.conns.map Prod.fst).Nodup
  registered : Registered w (stopInForce history)
  orderly : Orderly history

theorem Registered.congr {w w' : ProxyWorld} {o : Option Nat} (h : Registered w o)
    (hsame : SameConns w w') : Registered w' o := by
  cases h with
  | running hrun hall =>
      exact .running (hsame.stopped.trans hrun) (by rw [hsame.conns]; exact hall)
  | stopped hstop hmem honly =>
      exact .stopped (hsame.stopped.trans hstop) (by rw [hsame.conns]; exact hmem)
        (by rw [hsame.conns]; exact honly)

theorem ConnsInv.congr {w w' : ProxyWorld} {history : List Done} (h : ConnsInv w history)
    (hsame : SameConns w w') : ConnsInv w' history :=
  ⟨by rw [hsame.conns]; exact h.nodup, h.registered.congr hsame, h.orderly⟩

theorem map_fst_connDoForAll (conns : List (Nat × Bool)) (exception : Option Nat)
    (registered : Bool) : (connDoForAll conns exception registered).map Prod.fst
      = conns.map Prod.fst := by
  rw [connDoForAll, List.map_map]
  refine List.map_congr_left fun c _ => ?_
  show (if some c.1 = exception then c else (c.1, registered)).1 = c.1
  split <;> rfl

theorem connStart_running (w : ProxyWorld) : Registered (connStart w) none := by
  refine .running rfl fun e he => ?_
  obtain ⟨c, -, rfl⟩ := List.mem_map.mp he
  simp

theorem connStop_stopped {conn : Nat} {w : ProxyWorld} (hreg : (conn, true) ∈ w.conns) :
    Registered (connStop conn w) (some conn) := by
  refine .stopped rfl ?_ fun e he htrue => ?_
  · exact List.mem_map.mpr ⟨(conn, true), hreg, if_pos rfl⟩
  · obtain ⟨c, -, rfl⟩ := List.mem_map.mp he
    by_cases hc : c.1 = conn
    · rw [if_pos (congrArg some hc)]
      exact hc
    · rw [if_neg fun h => hc (Option.some.inj h)] at htrue
      cases htrue

theorem mem_connStart {conn : Nat} {w : ProxyWorld} (hreg : (conn, true) ∈ w.conns) :
    (conn, true) ∈ (connStart w).conns :=
  List.mem_map.mpr ⟨(conn, true), hreg, by simp⟩

theorem not_accepts_stop {request : Bytes} (h : Accepts .start request) :
    ¬ Accepts .stop request := by
  intro hstop
  have heq := h.2.1.symm.trans hstop.2.1
  cases heq

section Steps

variable {w w' : ProxyWorld} {history : List Done} {conn : Nat}

/-- The step lemma: a request of a registered connection. -/
theorem ConnsInv.request {request : Bytes} (h : ConnsInv w history)
    (hreg : (conn, true) ∈ w.conns) (hsw : Switches conn request w w') :
    ConnsInv w' (.request conn request :: history) ∧ (conn, true) ∈ w'.conns := by
  have horderly : Orderly (.request conn request :: history) := by
    refine ⟨fun _ => ?_, h.orderly⟩
    cases hr : stopInForce history with
    | none => exact .inl rfl
    | some c =>
        have hflags := h.registered
        rw [hr] at hflags
        cases hflags with
        | stopped _ _ honly => exact .inr (congrArg some (honly _ hreg rfl).symm)
  cases hsw with
  | stop hstop hsame =>
      have hforce : stopInForce (.request conn request :: history) = some conn := if_pos hstop
      refine ⟨ConnsInv.congr ⟨?_, ?_, horderly⟩ hsame, ?_⟩
      · rw [connStop, map_fst_connDoForAll]
        exact h.nodup
      · rw [hforce]
        exact connStop_stopped hreg
      · rw [hsame.conns]
        cases connStop_stopped hreg with
        | stopped _ hmem _ => exact hmem
  | start hstart hstopped hsame =>
      have hforce : stopInForce (.request conn request :: history) = none := by
        rw [stopInForce, if_neg (not_accepts_stop hstart), if_pos hstart]
      refine ⟨ConnsInv.congr ⟨?_, ?_, horderly⟩ hsame, ?_⟩
      · rw [connStart, map_fst_connDoForAll]
        exact h.nodup
      · rw [hforce]
        exact connStart_running w
      · rw [hsame.conns]
        exact mem_connStart hreg
  | keep hstop hstart hsame =>
      have hforce : stopInForce (.request conn request :: history) = stopInForce history := by
        rw [stopInForce, if_neg hstop]
        split
        · next hacc =>
            have hrun := hstart hacc
            cases hr : stopInForce history with
            | none => rfl
            | some c =>
                have hflags := h.registered
                rw [hr] at hflags
                cases hflags with
                | stopped hs => rw [hrun] at hs; cases hs
        · rfl
      refine ⟨ConnsInv.congr ⟨h.nodup, ?_, horderly⟩ hsame, ?_⟩
      · rw [hforce]
        exact h.registered
      · rw [hsame.conns]
        exact hreg

theorem ConnsInv.accept (h : ConnsInv w history) (hnew : conn ∉ w.conns.map Prod.fst) :
    ConnsInv (Proxy.connNew conn w) history := by
  refine ⟨List.nodup_cons.mpr ⟨hnew, h.nodup⟩, ?_, h.orderly⟩
  have hflags := h.registered
  generalize stopInForce history = o at hflags
  cases hflags with
  | running hrun hall =>
      refine .running hrun fun e he => ?_
      rcases List.mem_cons.mp he with rfl | he
      · show (!w.stopped) = true
        rw [hrun]
        rfl
      · exact hall e he
  | stopped hstop hmem honly =>
      refine .stopped hstop (List.mem_cons_of_mem _ hmem) fun e he htrue => ?_
      rcases List.mem_cons.mp he with rfl | he
      · have htrue : (!w.stopped) = true := htrue
        rw [hstop] at htrue
        cases htrue
      · exact honly e he htrue

theorem connFree_running (h : Registered w none) : Registered (connFree conn w) none := by
  cases h with
  | running hrun hall => exact .running hrun fun e he => hall e (List.mem_of_mem_filter he)

theorem map_fst_connClose_sublist : ((Proxy.connClose conn w).conns.map Prod.fst).Sublist
    (w.conns.map Prod.fst) := by
  unfold Proxy.connClose
  split
  · have hsub : (connFree conn (connStart w)).conns.Sublist (connStart w).conns :=
      List.filter_sublist
    have hmap := hsub.map Prod.fst
    rwa [connStart, map_fst_connDoForAll] at hmap
  · have hsub : (connFree conn w).conns.Sublist w.conns := List.filter_sublist
    exact hsub.map Prod.fst

/-- Whoever is closed, the proxy runs afterwards. -/
theorem connClose_running {o : Option Nat} (h : Registered w o)
    (hreg : isRegistered conn w = true) :
    Registered (Proxy.connClose conn w) none ∧ (o = none ∨ o = some conn) := by
  cases h with
  | running hrun hall =>
      rw [Proxy.connClose, if_neg (by simp [hrun])]
      exact ⟨connFree_running (.running hrun hall), .inl rfl⟩
  | stopped hstop hmem honly =>
      rw [Proxy.connClose, if_pos ⟨hstop, hreg⟩]
      refine ⟨connFree_running (connStart_running w), .inr ?_⟩
      rw [isRegistered, List.contains_iff_mem] at hreg
      exact congrArg some (honly _ hreg rfl).symm

theorem ConnsInv.close (h : ConnsInv w history) (hreg : isRegistered conn w = true) :
    ConnsInv (Proxy.connClose conn w) (.closed conn :: history) := by
  obtain ⟨hrun, howner⟩ := connClose_running h.registered hreg
  have hforce : stopInForce (.closed conn :: history) = none := by
    rw [stopInForce]
    split
    · rfl
    · next hne => exact howner.resolve_right hne
  refine ⟨map_fst_connClose_sublist.nodup h.nodup, ?_, h.orderly⟩
  rw [hforce]
  exact hrun

/-! ## A batch

The requests of a batch are events of the history one by one, although nothing can come
between them. -/

variable {env : ProxyEnv}

theorem collectTraced_fst (env : ProxyEnv) (conn : Nat) (p : Pool) (w : ProxyWorld)
    (reqBuf : Bytes) :
    (collectTraced env conn p w reqBuf).map Prod.fst = collect env conn p w reqBuf := by
  refine walk_map Prod.fst (fun s request => ?_) _ _ _
  cases collectStep env conn s.1 request with
  | none => rfl
  | some r => cases r <;> rfl

theorem collectTraced_inv {p : Pool} {reqBuf : Bytes} {c : Collect} {taken : List Bytes}
    (h : ConnsInv w history) (hreg : (conn, true) ∈ w.conns)
    (hc : collectTraced env conn p w reqBuf = some (c, taken)) :
    ConnsInv c.world (taken.map (.request conn) ++ history) := by
  have hinv := walk_invariant
    (P := fun s : Collect × List Bytes =>
      ConnsInv s.1.world (s.2.map (.request conn) ++ history) ∧ (conn, true) ∈ s.1.world.conns)
    (fun s request s' hs hbody => ?_) ⟨h, hreg⟩ hc
  · exact hinv.1
  · have hstep : ∃ r, collectStep env conn s.1 request = some r ∧
        s' = (r.value, request :: s.2) := by
      rcases hbody with hbody | hbody <;>
        (obtain ⟨r, hr, heq⟩ := Option.map_eq_some_iff.mp hbody; cases r <;> cases heq)
      · exact ⟨_, hr, rfl⟩
      · exact ⟨_, hr, rfl⟩
    obtain ⟨r, hr, rfl⟩ := hstep
    exact hs.1.request hs.2 (collectStep_switches hr)

theorem ConnsInv.batch {s s' : Server} {net : List NetEvent} {io : Io} {reqBuf : Bytes}
    (h : ConnsInv s.world s.history) (hreg : isRegistered io.conn s.world = true)
    (hstep : batchStep env s net io reqBuf = some s') : ConnsInv s'.world s'.history := by
  rw [isRegistered, List.contains_iff_mem] at hreg
  unfold batchStep at hstep
  split at hstep
  · next c taken w' io' n htraced hmulti =>
      cases hstep
      obtain ⟨c', hc', hsame⟩ := processMulti_sameConns hmulti
      have heq := collectTraced_fst env io.conn io.pool s.world reqBuf
      rw [htraced, hc'] at heq
      cases heq
      exact (collectTraced_inv h hreg htraced).congr hsame
  · cases hstep

end Steps

/-! ## The run

From the invariant: as long as the proxy is stopped there is a connection that is
served, and a START from it is accepted. -/

section Run

variable {env : ProxyEnv}

theorem ConnsInv.step {s s' : Server} {e : ServerEvent} (h : ConnsInv s.world s.history)
    (hstep : serverStep env s e = some s') : ConnsInv s'.world s'.history := by
  cases e with
  | accept conn =>
      rw [serverStep] at hstep
      split at hstep
      · cases hstep
      · next hnew => cases hstep; exact h.accept hnew
  | batch net io reqBuf =>
      rw [serverStep] at hstep
      split at hstep
      · next hreg => exact h.batch hreg hstep
      · cases hstep
  | close conn =>
      rw [serverStep] at hstep
      split at hstep
      · next hreg => cases hstep; exact h.close hreg
      · cases hstep

theorem serverRun_inv {w : ProxyWorld} {es : List ServerEvent} {s : Server}
    (h : serverRun env (serverStart w) es = some s) : ConnsInv s.world s.history := by
  have hstart : ConnsInv (serverStart w).world (serverStart w).history :=
    ⟨List.nodup_nil, .running rfl nofun, trivial⟩
  have hall : AllSteps (serverStep env) (fun _ _ => True) (serverStart w) es :=
    allSteps_of_forall (fun _ _ => trivial) es _
  exact runSteps_invariant (P := fun s => ConnsInv s.world s.history)
    (fun _ _ _ hs _ hstep => hs.step hstep) hstart hall h

/-- `process_single` on a START: it answers, and everybody is back. -/
theorem processSingle_start {conn : Nat} {p : Pool} {w : ProxyWorld} {request : Bytes}
    (hacc : Accepts .start request) (hstop : w.stopped = true) :
    ∃ p' w', Proxy.processSingle env conn p w request = some (p', w') ∧ w'.stopped = false ∧
      ∀ e ∈ w'.conns, e.2 = true := by
  obtain ⟨-, hh, hext, hkey, hval⟩ := hacc
  have hans : Answered (bufGetWriter p w.resBuf maxRequestSize).1
      (connStart { w with resBuf := (bufGetWriter p w.resBuf maxRequestSize).2.1 }) request _ _ :=
    ok_answered (bufGetWriter_room p w.resBuf maxRequestSize) ⟨rfl, rfl⟩ rfl
  obtain ⟨w', res, f, heq, -, -, hpack, -⟩ := hans
  cases heq
  have hflags := connStart_running
    { w with resBuf := (bufGetWriter p w.resBuf maxRequestSize).2.1 }
  unfold Proxy.processSingle
  simp only [hh]
  unfold callHandler cmdStart
  simp only [hext, hkey, hval, hstop, ne_eq, not_true_eq_false, or_self, if_false,
    Bool.not_true, Bool.false_eq_true]
  rw [hpack]
  refine ⟨_, _, rfl, rfl, ?_⟩
  cases hflags with
  | running _ hall => exact hall

/-- While the proxy is stopped, one connection is registered, it is the one
whose STOP is in force, and both ways to resume are open to it. -/
structure Resumable (env : ProxyEnv) (s : Server) (c : Nat) : Prop where
  force : stopInForce s.history = some c
  only : s.world.conns.filter (·.2) = [(c, true)]
  byClose : ∃ s', serverStep env s (.close c) = some s' ∧ s'.world.stopped = false
  byStart : ∀ p request, Accepts .start request → ∃ p' w',
    Proxy.processSingle env c p s.world request = some (p', w') ∧ w'.stopped = false ∧
      ∀ e ∈ w'.conns, e.2 = true

/-- What is promised: a running proxy serves all connections, and a stopped one has a
connection that can make it run again. -/
structure NotWedged (env : ProxyEnv) (s : Server) : Prop where
  running : s.world.stopped = false →
    stopInForce s.history = none ∧ ∀ e ∈ s.world.conns, e.2 = true
  stopped : s.world.stopped = true → ∃ c, Resumable env s c
  orderly : Orderly s.history

theorem filter_eq_singleton {c : Nat} : ∀ {l : List (Nat × Bool)}, (l.map Prod.fst).Nodup →
    (c, true) ∈ l → (∀ e ∈ l, e.2 = true → e.1 = c) → l.filter (·.2) = [(c, true)] := by
  intro l
  induction l with
  | nil => intro _ hmem; cases hmem
  | cons e rest ih =>
      intro hnodup hmem honly
      obtain ⟨n, flag⟩ := e
      rw [List.map_cons, List.nodup_cons] at hnodup
      obtain ⟨hfresh, hnodup⟩ := hnodup
      cases flag with
      | false =>
          have hmem : (c, true) ∈ rest := by simpa using hmem
          rw [List.filter_cons_of_neg (by simp)]
          exact ih hnodup hmem fun e he => honly e (List.mem_cons_of_mem _ he)
      | true =>
          have hn : n = c := honly _ List.mem_cons_self rfl
          subst hn
          rw [List.filter_cons_of_pos rfl]
          refine congrArg _ (List.filter_eq_nil_iff.mpr fun e he htrue => hfresh ?_)
          have hin : e.1 ∈ rest.map Prod.fst := List.mem_map_of_mem he
          rwa [honly e (List.mem_cons_of_mem _ he) htrue] at hin

theorem ConnsInv.notWedged {s : Server} (h : ConnsInv s.world s.history) : NotWedged env s := by
  have hflags := h.registered
  refine ⟨fun hrun => ?_, fun hstop => ?_, h.orderly⟩
  · cases ho : stopInForce s.history with
    | none =>
        rw [ho] at hflags
        cases hflags with
        | running _ hall => exact ⟨rfl, hall⟩
    | some c =>
        rw [ho] at hflags
        cases hflags with
        | stopped hs => rw [hrun] at hs; cases hs
  · cases ho : stopInForce s.history with
    | none =>
        rw [ho] at hflags
        cases hflags with
        | running hr => rw [hstop] at hr; cases hr
    | some c =>
        rw [ho] at hflags
        cases hflags with
        | stopped hs hmem honly =>
            have hreg : isRegistered c s.world = true := List.contains_iff_mem.mpr hmem
            refine ⟨c, ho, filter_eq_singleton h.nodup hmem honly,
              ⟨_, if_pos hreg, ?_⟩, fun p request hacc => processSingle_start hacc hstop⟩
            cases (connClose_running (.stopped hs hmem honly) hreg).1 with
            | running hr => exact hr

/-- In every state a run of the proxy reaches. -/
theorem stop_start_never_wedges {w : ProxyWorld} {es : List ServerEvent} {s : Server}
    (h : serverRun env (serverStart w) es = some s) : NotWedged env s :=
  (serverRun_inv h).notWedged

end Run

def proxyCommand (opcode : UInt8) : Bytes := Request.frame { opcode := opcode, reserved := 2 }

/-- A STOP and its START, a STOP whose connection is closed, and a third that
stays, with connections that come in between. -/
def threeStops : List ServerEvent :=
  [.accept 1, .accept 2, .batch [] { conn := 1 } (proxyCommand proxyCmdStop), .accept 3,
    .batch [] { conn := 1 } (proxyCommand proxyCmdStart ++ proxyCommand proxyCmdStop), .close 1,
    .accept 1, .batch [] { conn := 3 } (proxyCommand proxyCmdStop)]

theorem stop_start_never_wedges_threeStops :
    ∃ s, serverRun plainEnv (serverStart {}) threeStops = some s ∧ s.world.stopped = true ∧
      NotWedged plainEnv s := by
  have hrun : ((serverRun plainEnv (serverStart {}) threeStops).any fun s => s.world.stopped) =
      true := by decide +kernel
  obtain ⟨s, hs, hstop⟩ := (Option.any_eq_true _ _).mp hrun
  exact ⟨s, hs, hstop, stop_start_never_wedges hs⟩

end Smalltable.Proofs
