import Smalltable.Lib.Transition
import Smalltable.Ref.SimpleBuffer

/-!
# The Python client's buffer is a queue

Between two calls the position of the `StringIO` is its end, and what is behind `offset` is
what has been written and not consumed, `size` bytes of it (`Queues`). Each call keeps that
and answers as a queue does (`fifoCall`), whether or not it takes a new `StringIO`.

A new `StringIO` is taken when everything has been consumed, so nothing is lost with the
old one. What is asked of the callers is that they consume no more than there is
(`WithinQueue`); the others of their calls are free, and what a socket takes or gives is
too.
-/

namespace Smalltable.Proofs

open Smalltable.Ref

/-- The buffer between two calls, as a queue. -/
structure Queues (b : SimpleBuffer) (q : Bytes) : Prop where
  pos : b.buf.pos = b.buf.data.length
  offset : 0 ≤ b.offset ∧ b.offset ≤ b.buf.data.length
  unread : b.buf.data.drop b.offset.toNat = q
  size : b.size = q.length

/-- How many bytes the call counts, if `recv` does not fail, having received `s`. -/
def recvCount (s : Nat) : List SocketRecv → Option (Option Nat)
  | [] => none
  | .again :: rest => if rest = [] then some none else none
  | .got data :: rest =>
      if data.length = recvSize then recvCount (s + data.length) rest
      else if rest = [] then some (some (s + data.length))
      else none

/-- The calls, as a queue would take them. -/
def fifoCall (q : Bytes) : BufferCall → Option (BufferAnswer × Bytes)
  | .write dataStrings => some (.nothing, q ++ dataStrings.flatMap (·.getD []))
  | .read none => some (.bytes q, q)
  | .read (some n) => some (.bytes (q.take n), q)
  | .consume n => some (.nothing, q.drop n)
  | .readAndConsume n => if n ≤ q.length then some (.bytes (q.take n), q.drop n) else none
  | .sendToSocket .error => none
  | .sendToSocket .again => some (.sent q none, q)
  | .sendToSocket (.sent n) => some (.sent q (some n), q.drop n)
  | .recvFromSocket rs => (recvCount 0 rs).map fun s => (.received s, q ++ socketBytes rs)
  | .flush => some (.nothing, [])

def fifoCalls (q : Bytes) : List BufferCall → Option (List BufferAnswer × Bytes)
  | [] => some ([], q)
  | c :: rest =>
      match fifoCall q c with
      | none => none
      | some (a, q) => (fifoCalls q rest).map fun r => (a :: r.1, r.2)

/-- Not more is consumed than there is; a socket takes no more than it is handed. -/
def WithinQueue (q : Bytes) : BufferCall → Prop
  | .consume n => n ≤ q.length
  | .sendToSocket (.sent n) => n ≤ q.length
  | _ => True

instance (q : Bytes) : ∀ c, Decidable (WithinQueue q c)
  | .consume _ => inferInstanceAs (Decidable (_ ≤ _))
  | .sendToSocket (.sent _) => inferInstanceAs (Decidable (_ ≤ _))
  | .sendToSocket .again => isTrue trivial
  | .sendToSocket .error => isTrue trivial
  | .write _ => isTrue trivial
  | .read _ => isTrue trivial
  | .readAndConsume _ => isTrue trivial
  | .recvFromSocket _ => isTrue trivial
  | .flush => isTrue trivial

variable {b : SimpleBuffer} {q : Bytes}

theorem write_atEnd {f : StringIo} (hpos : f.pos = f.data.length) (bs : Bytes) :
    f.write bs = ⟨f.data ++ bs, f.data.length + bs.length⟩ := by
  rw [StringIo.write, hpos, List.take_length, Nat.sub_self, List.replicate_zero,
    List.append_nil, List.drop_eq_nil_of_le (Nat.le_add_right _ _), List.append_nil]

theorem Queues.writeOne (h : Queues b q) (data : Option Bytes) :
    Queues (b.writeOne data) (q ++ data.getD []) := by
  obtain ⟨h0, hle⟩ := h.offset
  match data with
  | none =>
      rw [Option.getD_none, List.append_nil]
      exact h
  | some [] =>
      rw [Option.getD_some, List.append_nil]
      exact h
  | some (c :: cs) =>
      have hw : b.writeOne (some (c :: cs))
          = { b with buf := b.buf.write (c :: cs), size := b.size + (c :: cs).length } := rfl
      rw [hw, write_atEnd h.pos, Option.getD_some]
      refine ⟨?_, ⟨h0, ?_⟩, ?_, ?_⟩
      · rw [List.length_append]
      · show b.offset ≤ (b.buf.data ++ c :: cs).length
        rw [List.length_append]
        omega
      · show (b.buf.data ++ c :: cs).drop b.offset.toNat = q ++ c :: cs
        rw [List.drop_append_of_le_length (by omega), h.unread]
      · rw [List.length_append, h.size, Int.natCast_add]

theorem Queues.write (h : Queues b q) (dataStrings : List (Option Bytes)) :
    Queues (b.write dataStrings) (q ++ dataStrings.flatMap (·.getD [])) := by
  induction dataStrings generalizing b q with
  | nil =>
      rw [List.flatMap_nil, List.append_nil]
      exact h
  | cons data rest ih =>
      rw [List.flatMap_cons, ← List.append_assoc]
      exact ih (h.writeOne data)

theorem Queues.new (data : Option Bytes) : Queues (SimpleBuffer.new data) (data.getD []) := by
  have hempty : Queues {} [] := ⟨rfl, ⟨Int.le_refl 0, Int.le_refl 0⟩, rfl, rfl⟩
  cases data with
  | none => exact ⟨rfl, ⟨Int.le_refl 0, Int.le_refl 0⟩, rfl, rfl⟩
  | some bs =>
      have hw := hempty.write [some bs]
      rw [List.flatMap_cons, List.flatMap_nil, List.append_nil, List.nil_append] at hw
      exact ⟨rfl, hw.offset, hw.unread, hw.size⟩

/-- Reading leaves the position at the end. -/
theorem Queues.atEnd (h : Queues b q) {f : StringIo} (hdata : f.data = b.buf.data)
    (hpos : f.pos = f.data.length) : Queues { b with buf := f } q :=
  ⟨hpos, by rw [hdata]; exact h.offset, by rw [hdata]; exact h.unread, h.size⟩

theorem Queues.read (h : Queues b q) (size : Option Nat) :
    (b.read size).1 = (match size with | none => q | some n => q.take n) ∧
      Queues (b.read size).2 q := by
  rw [SimpleBuffer.read]
  by_cases hzero : size = some 0
  · rw [if_pos hzero, hzero]
    exact ⟨rfl, h⟩
  · rw [if_neg hzero]
    refine ⟨?_, h.atEnd rfl rfl⟩
    cases size with
    | none => exact h.unread
    | some n => exact congrArg (·.take n) h.unread

theorem Queues.consume (h : Queues b q) {n : Nat} (hn : n ≤ q.length) :
    Queues (b.consume n) (q.drop n) := by
  obtain ⟨h0, hle⟩ := h.offset
  have hsize := h.size
  have hlen := congrArg List.length h.unread
  rw [List.length_drop] at hlen
  rw [SimpleBuffer.consume]
  split
  · next hgone =>
      have hgone : b.size - n = 0 := hgone.1
      have hall : q.drop n = [] := List.drop_eq_nil_of_le (by omega)
      rw [hall]
      refine ⟨rfl, ⟨Int.le_refl 0, Int.le_refl 0⟩, rfl, ?_⟩
      show b.size - n = 0
      omega
  · refine ⟨h.pos, ?_, ?_, ?_⟩
    · show 0 ≤ b.offset + n ∧ b.offset + n ≤ b.buf.data.length
      omega
    · show b.buf.data.drop (b.offset + n).toNat = q.drop n
      rw [← h.unread, List.drop_drop]
      congr 1
      omega
    · show b.size - n = (q.drop n).length
      rw [List.length_drop]
      omega

theorem Queues.sendData (h : Queues b q) : b.sendData = q := h.unread

theorem Queues.sendToSocket (h : Queues b q) {n : Nat} (hn : n ≤ q.length) :
    ∃ b', b.sendToSocket (.sent n) = some (some n, b') ∧ Queues b' (q.drop n) := by
  obtain ⟨h0, hle⟩ := h.offset
  have hsize := h.size
  have hlen := congrArg List.length h.unread
  rw [List.length_drop] at hlen
  refine ⟨_, rfl, ?_⟩
  have hq : Queues { b with
      buf := (((b.buf.seek b.offset.toNat).read none).2).seekEnd
      offset := b.offset + n
      size := b.size - n } (q.drop n) := by
    refine ⟨rfl, ?_, ?_, ?_⟩
    · show 0 ≤ b.offset + n ∧ b.offset + n ≤ b.buf.data.length
      omega
    · show b.buf.data.drop (b.offset + n).toNat = q.drop n
      rw [← h.unread, List.drop_drop]
      congr 1
      omega
    · show b.size - n = (q.drop n).length
      rw [List.length_drop]
      omega
  split
  · have hc := hq.consume (Nat.zero_le _)
    rw [List.drop_zero] at hc
    exact hc
  · exact hq

/-- Nothing is sent, but the `StringIO` has been read to its end. -/
theorem Queues.sendAgain (h : Queues b q) :
    ∃ b', b.sendToSocket .again = some (none, b') ∧ Queues b' q := by
  obtain ⟨h0, hle⟩ := h.offset
  refine ⟨_, rfl, h.atEnd rfl ?_⟩
  show b.offset.toNat + (b.buf.data.drop b.offset.toNat).length = b.buf.data.length
  rw [List.length_drop]
  omega

theorem Queues.recvLoop : ∀ {b : SimpleBuffer} {q : Bytes}, Queues b q →
    ∀ (rs : List SocketRecv) (s : Nat),
    match recvCount s rs with
    | none => b.recvLoop s rs = none
    | some r => ∃ b', b.recvLoop s rs = some (r, b') ∧ Queues b' (q ++ socketBytes rs) := by
  intro b q h rs
  induction rs generalizing b q with
  | nil => intro s; rfl
  | cons r rest ih =>
      intro s
      cases r with
      | again =>
          rw [recvCount]
          by_cases hrest : rest = []
          · subst hrest
            simp only [if_pos]
            refine ⟨b, rfl, ?_⟩
            rw [socketBytes, List.flatMap_cons, List.flatMap_nil, List.append_nil, List.append_nil]
            exact h
          · simp only [if_neg hrest]
            rw [SimpleBuffer.recvLoop, if_neg hrest]
      | got data =>
          have hw := h.write [some data]
          rw [List.flatMap_cons, List.flatMap_nil, List.append_nil, Option.getD_some] at hw
          have hbytes : q ++ socketBytes (.got data :: rest) = (q ++ data) ++ socketBytes rest := by
            rw [socketBytes, List.flatMap_cons, ← List.append_assoc]
            rfl
          rw [recvCount, SimpleBuffer.recvLoop, hbytes]
          by_cases hfull : data.length = recvSize
          · simp only [if_pos hfull]
            exact ih hw _
          · simp only [if_neg hfull]
            by_cases hrest : rest = []
            · subst hrest
              simp only [if_pos]
              exact ⟨_, rfl, by rw [socketBytes, List.flatMap_nil, List.append_nil]; exact hw⟩
            · simp only [if_neg hrest]

theorem Queues.flush (h : Queues b q) : Queues b.flush [] := by
  have hc := h.consume (Nat.le_refl q.length)
  rw [List.drop_length] at hc
  rw [SimpleBuffer.flush, h.size]
  exact hc

/-- Every call answers as the queue does. -/
theorem Queues.call (h : Queues b q) {c : BufferCall} (hc : WithinQueue q c) :
    match fifoCall q c with
    | none => b.call c = none
    | some (a, q') => ∃ b', b.call c = some (a, b') ∧ Queues b' q' := by
  cases c with
  | write dataStrings => exact ⟨_, rfl, h.write dataStrings⟩
  | read size =>
      have hr := h.read size
      cases size with
      | none => exact ⟨_, by rw [SimpleBuffer.call, hr.1], hr.2⟩
      | some n => exact ⟨_, by rw [SimpleBuffer.call, hr.1], hr.2⟩
  | consume n => exact ⟨_, rfl, h.consume hc⟩
  | readAndConsume n =>
      have hr := h.read (some n)
      have hsize := h.size
      rw [fifoCall, SimpleBuffer.call, SimpleBuffer.readAndConsume]
      by_cases hn : n ≤ q.length
      · have hge : b.size ≥ n := by omega
        simp only [if_pos hn, if_pos hge, Option.map_some, hr.1]
        exact ⟨_, rfl, hr.2.consume hn⟩
      · have hlt : ¬ b.size ≥ n := by omega
        simp only [if_neg hn, if_neg hlt, Option.map_none]
  | sendToSocket r =>
      rw [SimpleBuffer.call, h.sendData]
      cases r with
      | sent n =>
          obtain ⟨b', hs, h'⟩ := h.sendToSocket hc
          exact ⟨b', by rw [hs]; rfl, h'⟩
      | again =>
          obtain ⟨b', hs, h'⟩ := h.sendAgain
          exact ⟨b', by rw [hs]; rfl, h'⟩
      | error => rfl
  | recvFromSocket rs =>
      have hr := h.recvLoop rs 0
      rw [fifoCall, SimpleBuffer.call, SimpleBuffer.recvFromSocket]
      cases hcount : recvCount 0 rs with
      | none =>
          rw [hcount] at hr
          rw [hr]
          rfl
      | some s =>
          rw [hcount] at hr
          obtain ⟨b', hs, h'⟩ := hr
          exact ⟨b', by rw [hs]; rfl, h'⟩
  | flush => exact ⟨_, rfl, h.flush⟩

/-- The calls that are made of it along the way. -/
def WithinQueues (q : Bytes) (cs : List BufferCall) : Prop :=
  AllSteps (fun q c => (fifoCall q c).map Prod.snd) WithinQueue q cs

/-- A run of calls answers as the queue does, and leaves what is left in the queue. -/
theorem Queues.calls : ∀ {cs : List BufferCall} {b : SimpleBuffer} {q : Bytes}, Queues b q →
    WithinQueues q cs →
    match fifoCalls q cs with
    | none => b.calls cs = none
    | some (as, q') => ∃ b', b.calls cs = some (as, b') ∧ Queues b' q' := by
  intro cs
  induction cs with
  | nil => intro b q h _; exact ⟨b, rfl, h⟩
  | cons c rest ih =>
      intro b q h hw
      have hc := h.call hw.1
      rw [fifoCalls, SimpleBuffer.calls]
      cases hcall : fifoCall q c with
      | none =>
          rw [hcall] at hc
          rw [hc]
      | some r =>
          obtain ⟨a, q1⟩ := r
          rw [hcall] at hc
          obtain ⟨b1, hs, h1⟩ := hc
          have hrest := ih h1 (hw.2 q1 (congrArg (Option.map Prod.snd) hcall))
          rw [hs]
          cases hcalls : fifoCalls q1 rest with
          | none =>
              rw [hcalls] at hrest
              simp [hcalls, hrest]
          | some r' =>
              rw [hcalls] at hrest
              obtain ⟨b', hs', h'⟩ := hrest
              simp only [hcalls, hs', Option.map_some]
              exact ⟨b', rfl, h'⟩

end Smalltable.Proofs
