import Smalltable.Proofs.ConfigText

/-!
# The room for a configuration

`config_to_string` either refuses its buffer or writes the text. It refuses one that is
shorter than the text, and that is all it refuses: in a buffer of just the length of the
text `vsnprintf` stores a zero in the place of the last line break, and the length is
returned as if it had been stored.

The room is tested line by line, each time against what is left. What is left behind
some lines is the room without their length, so a refusal in the middle is a refusal of
the whole text (`writeLines_none_iff`).
-/

namespace Smalltable.Proofs

open Smalltable.Ref

/-- The whole text of a configuration. -/
def fullText (env : ProxyEnv) (w : ProxyWorld) : Bytes := (configLines env w).flatten

/-- The result is -1, or the length of the text, and all of it is in the buffer. -/
def ExactOrFails (env : ProxyEnv) (w : ProxyWorld) (n : Nat) : Prop :=
  ∀ out r, configToString env w n = some (out, r) →
    r = (fullText env w).length ∧ r ≤ n ∧ out.take r.toNat = fullText env w

theorem writeLines_none_iff : ∀ {ls : List Bytes} {b : LineWriter}, 0 ≤ b.left →
    (writeLines b ls = none ↔ b.left < ls.flatten.length) := by
  intro ls
  induction ls with
  | nil =>
      intro b hleft
      rw [writeLines, List.flatten_nil, List.length_nil]
      exact ⟨by simp, fun h => by omega⟩
  | cons text rest ih =>
      intro b hleft
      rw [writeLines, writeLine, List.flatten_cons, List.length_append]
      by_cases hlong : (text.length : Int) > b.left
      · simp only [if_pos hlong, true_iff]
        omega
      · simp only [if_neg hlong]
        rw [ih (by simp only []; omega)]
        simp only []
        omega

theorem writeLines_left : ∀ {ls : List Bytes} {b b' : LineWriter}, writeLines b ls = some b' →
    b'.left = b.left - ls.flatten.length := by
  intro ls
  induction ls with
  | nil =>
      intro b b' h
      cases h
      rw [List.flatten_nil, List.length_nil]
      omega
  | cons text rest ih =>
      intro b b' h
      rw [writeLines, writeLine] at h
      by_cases hlong : (text.length : Int) > b.left
      · rw [if_pos hlong] at h
        cases h
      · rw [if_neg hlong] at h
        rw [ih h, List.flatten_cons, List.length_append]
        simp only []
        omega

variable {env : ProxyEnv} {w : ProxyWorld} {n : Nat}

theorem configToString_none_iff :
    configToString env w n = none ↔ n < (fullText env w).length := by
  have hnone : writeLines { left := n } (configLines env w) = none
      ↔ (n : Int) < (configLines env w).flatten.length := writeLines_none_iff (by simp)
  rw [configToString, fullText]
  cases hb : writeLines { left := n } (configLines env w) with
  | none => exact ⟨fun _ => Int.ofNat_lt.mp (hnone.mp hb), fun _ => rfl⟩
  | some b =>
      have hfit : ¬ (n : Int) < (configLines env w).flatten.length := fun h => by
        rw [hnone.mpr h] at hb
        cases hb
      exact ⟨nofun, fun h => absurd (Int.ofNat_lt.mpr h) hfit⟩

/-- What is written into a buffer that is not refused, and what is returned. -/
theorem configToString_some {out : Bytes} {r : Int}
    (h : configToString env w n = some (out, r)) :
    r = (fullText env w).length ∧
      (out = fullText env w ∧ (fullText env w).length < n ∨
        out = (fullText env w).dropLast ++ [0] ∧ (fullText env w).length = n) := by
  have hout := configToString_out h
  rw [← flatten_configLines] at hout
  have hlen : r = (fullText env w).length := by
    unfold configToString at h
    split at h
    · cases h
    · next b hb =>
        cases h
        have hleft := writeLines_left hb
        rw [fullText, hleft]
        simp only []
        omega
  refine ⟨hlen, ?_⟩
  rcases hout with ⟨hout, hroom⟩ | ⟨hout, hroom⟩
  · exact .inl ⟨hout, by rw [fullText]; omega⟩
  · exact .inr ⟨hout, by rw [fullText]; omega⟩

theorem fullText_ends (env : ProxyEnv) (w : ProxyWorld) :
    fullText env w = (fullText env w).dropLast ++ [0x0A] := by
  have hflat : fullText env w = (textLines env w).flatMap (· ++ [0x0A]) := flatten_configLines env w
  obtain ⟨ls, l, hls⟩ : ∃ ls l, textLines env w = ls ++ [l] := by
    refine ⟨_, _, (List.dropLast_append_getLast ?_).symm⟩
    simp [textLines, headLines]
  rw [hflat, hls, List.flatMap_append, List.flatMap_singleton, ← List.append_assoc,
    List.dropLast_concat]

theorem not_exact_of_fits (env : ProxyEnv) (w : ProxyWorld) :
    ¬ ExactOrFails env w (fullText env w).length := by
  intro h
  have hsome : configToString env w ((fullText env w).length : Nat) ≠ none := fun hnone =>
    absurd (configToString_none_iff.mp hnone) (Nat.lt_irrefl _)
  obtain ⟨⟨out, r⟩, hr⟩ := Option.ne_none_iff_exists'.mp hsome
  obtain ⟨hlen, -, htake⟩ := h out r hr
  obtain ⟨-, ⟨-, hlt⟩ | ⟨hout, -⟩⟩ := configToString_some hr
  · exact Nat.lt_irrefl _ hlt
  · have hends := fullText_ends env w
    have hsz : out.length = (fullText env w).length := by
      have hsum := congrArg List.length hends
      rw [List.length_append, List.length_singleton] at hsum
      rw [hout, List.length_append, List.length_singleton, ← hsum]
    rw [hlen, Int.toNat_natCast, ← hsz, List.take_length, hout] at htake
    have hlast := List.append_cancel_left (htake.trans hends)
    cases hlast

/-- The room is refused when it is less than the length of the text, and the answer is
right unless it is just that. -/
theorem configToString_exact_iff (env : ProxyEnv) (w : ProxyWorld) (n : Nat) :
    (configToString env w n = none ↔ n < (fullText env w).length) ∧
      (ExactOrFails env w n ↔ n ≠ (fullText env w).length) := by
  refine ⟨configToString_none_iff, fun h hn => ?_, fun hne out r hr => ?_⟩
  · rw [hn] at h
    exact not_exact_of_fits env w h
  · obtain ⟨hlen, ⟨hout, hlt⟩ | ⟨-, hfull⟩⟩ := configToString_some hr
    · refine ⟨hlen, by omega, ?_⟩
      rw [hlen, Int.toNat_natCast, hout, List.take_length]
    · exact absurd hfull.symm hne

/-- A configuration of one proxy and one server, in the room its text takes. -/
theorem configToString_cut : ∃ w,
    loadConfigFromString plainEnv false {} (ascii "proxy a:1\nserver b:2, 1\n") = some (w, none) ∧
    (fullText plainEnv w).length = 96 ∧ ¬ ExactOrFails plainEnv w 96 := by
  have hload : ((loadConfigFromString plainEnv false {} (ascii "proxy a:1\nserver b:2, 1\n")).map
      fun l => (l.2.isNone, (fullText plainEnv l.1).length)) = some (true, 96) := by
    decide +kernel
  obtain ⟨⟨w, err⟩, hw, heq⟩ := Option.map_eq_some_iff.mp hload
  obtain ⟨herr, hlen⟩ := Prod.mk.inj heq
  cases Option.isNone_iff_eq_none.mp herr
  have hcut := not_exact_of_fits plainEnv w
  rw [hlen] at hcut
  exact ⟨w, hw, hlen, hcut⟩

end Smalltable.Proofs
