import Mathlib.Data.List.Basic

/-!
# Streams of frames

A framing is a way to find out, from the first items of a buffer, how long
the frame at its head is: `size` answers the frame's length once all of it is
there, and zero while more has to arrive. Two laws say it all. Whatever
follows a frame does not change the answer (`size_append`), and a proper
prefix of a frame is not yet one (`size_part`).

From them, `headCases` is the only fact a reader of a stream needs. If what
the reader holds, followed by what has not arrived yet, is a concatenation of
frames, then the reader either holds the next frame whole, and then sees its
length, or holds a part of it, and then sees zero. Nothing depends on how the
stream was cut into reads.

The second half is about loops over a buffer of whole frames that step from
head to head. `walk` is such a loop, with an early exit; on a concatenation
of frames it is the plain fold over the list of frames (`walk_flatten`), and
a buffer on which the step does not fit is an error and not an answer.

`FrameReader` is the reader of a stream that comes in pieces: after each piece it
counts the frames it holds whole. It comes out even exactly when the pieces, put
together, are frames (`readPieces_iff`), cut into pieces anyhow.
-/

namespace Smalltable

/-- A way to measure the frame at the head of a buffer. -/
structure Framing (α : Type) where
  size : List α → Int
  Frame : List α → Prop
  ne_nil : ∀ {f : List α}, Frame f → f ≠ []
  size_nil : size [] = 0
  size_append : ∀ {f rest : List α}, Frame f → size (f ++ rest) = f.length
  size_part : ∀ {f p : List α}, Frame f → p <+: f → p.length < f.length → size p = 0

namespace Framing

variable {α : Type} (F : Framing α)

theorem length_pos {f : List α} (hf : F.Frame f) : 0 < f.length :=
  List.length_pos_iff.mpr (F.ne_nil hf)

theorem size_self {f : List α} (hf : F.Frame f) : F.size f = f.length := by
  have h : F.size (f ++ []) = f.length := F.size_append hf
  rwa [List.append_nil] at h

/-- What a reader sees of a stream of frames. `held` has arrived, `coming` has
not; together they are the frames `fs`. -/
theorem headCases {fs : List (List α)} (hfs : ∀ f ∈ fs, F.Frame f)
    {held coming : List α} (h : held ++ coming = fs.flatten) :
    (F.size held = 0 ∧
      ((fs = [] ∧ held = []) ∨ ∃ f rest, fs = f :: rest ∧ held.length < f.length)) ∨
    ∃ f rest more, fs = f :: rest ∧ held = f ++ more ∧
      more ++ coming = rest.flatten ∧ F.size held = f.length := by
  cases fs with
  | nil =>
      have hnil : held = [] := (List.append_eq_nil_iff.mp h).1
      exact .inl ⟨by rw [hnil, F.size_nil], .inl ⟨rfl, hnil⟩⟩
  | cons f rest =>
      have hf : F.Frame f := hfs f List.mem_cons_self
      rw [List.flatten_cons] at h
      rcases List.append_eq_append_iff.mp h with ⟨tail, rfl, hcoming⟩ | ⟨more, rfl, hrest⟩
      · -- the reader's part ends inside `f`, or exactly with it
        cases tail with
        | nil =>
            rw [List.append_nil] at hf
            refine .inr ⟨held ++ [], rest, [], rfl, ?_, ?_, ?_⟩
            · simp
            · simpa using hcoming
            · rw [List.append_nil]; exact F.size_self hf
        | cons x tail =>
            have hlt : held.length < (held ++ x :: tail).length := by simp
            exact .inl ⟨F.size_part hf (List.prefix_append _ _) hlt,
              .inr ⟨_, rest, rfl, hlt⟩⟩
      · exact .inr ⟨f, rest, more, rfl, rfl, hrest.symm, F.size_append hf⟩

/-- A stream can be cut into frames in one way only. -/
theorem prefix_of_flatten {fs : List (List α)} (hfs : ∀ f ∈ fs, F.Frame f) :
    ∀ {gs : List (List α)} {rest : List α}, (∀ g ∈ gs, F.Frame g) →
      fs.flatten ++ rest = gs.flatten → ∃ hs, gs = fs ++ hs ∧ rest = hs.flatten := by
  induction fs with
  | nil => intro gs rest _ h; exact ⟨gs, rfl, h⟩
  | cons f fs ih =>
      intro gs rest hgs h
      have hf : F.Frame f := hfs f List.mem_cons_self
      have hpos := F.length_pos hf
      have hsize : F.size (f ++ (fs.flatten ++ rest)) = f.length := F.size_append hf
      rw [List.flatten_cons, List.append_assoc] at h
      have h0 : (f ++ (fs.flatten ++ rest)) ++ [] = gs.flatten := by rwa [List.append_nil]
      rcases F.headCases hgs h0 with ⟨hzero, -⟩ | ⟨g, gs', more, rfl, hheld, hmore, hsz⟩
      · omega
      · obtain ⟨rfl, htail⟩ := List.append_inj hheld (by omega)
        rw [List.append_nil] at hmore
        obtain ⟨hs, rfl, hrest⟩ := ih (fun x hx => hfs x (List.mem_cons_of_mem _ hx))
          (fun x hx => hgs x (List.mem_cons_of_mem _ hx)) (htail.trans hmore)
        exact ⟨hs, rfl, hrest⟩

end Framing

/-! ## Reading in pieces -/

/-- A reader of a stream: how many frames it has seen, and the items behind them. -/
structure FrameReader (α : Type) where
  seen : Nat := 0
  held : List α := []
  deriving DecidableEq

section Pieces

variable {α : Type} (size : List α → Int)

/-- Whole frames are counted and dropped, until more has to arrive. `none` when
what is held does not begin like a frame. -/
def FrameReader.look : Nat → FrameReader α → Option (FrameReader α)
  | 0, r => some r
  | n + 1, r =>
      let sz := size r.held
      if sz = 0 then some r
      else if 0 < sz ∧ sz ≤ r.held.length then look n ⟨r.seen + 1, r.held.drop sz.toNat⟩
      else none

def FrameReader.feed (r : FrameReader α) (piece : List α) : Option (FrameReader α) :=
  look size (r.held ++ piece).length { r with held := r.held ++ piece }

def readPieces : FrameReader α → List (List α) → Option (FrameReader α)
  | r, [] => some r
  | r, p :: ps =>
      match r.feed size p with
      | none => none
      | some r' => readPieces r' ps

end Pieces

namespace Framing

variable {α : Type} (F : Framing α)

/-- All that has been counted were frames. -/
theorem look_sound (hwhole : ∀ b : List α, 0 < F.size b → F.Frame (b.take (F.size b).toNat)) :
    ∀ {n : Nat} {r r' : FrameReader α}, FrameReader.look F.size n r = some r' →
      ∃ fs : List (List α), (∀ f ∈ fs, F.Frame f) ∧ r'.seen = r.seen + fs.length ∧
        r.held = fs.flatten ++ r'.held := by
  intro n
  induction n with
  | zero => intro r r' h; cases h; exact ⟨[], nofun, rfl, rfl⟩
  | succ n ih =>
      intro r r' h
      rw [FrameReader.look] at h
      split at h
      · cases h; exact ⟨[], nofun, rfl, rfl⟩
      · split at h
        · next hfits =>
            obtain ⟨fs, hfs, hseen, hheld⟩ := ih h
            have hseen : r'.seen = r.seen + 1 + fs.length := hseen
            refine ⟨r.held.take (F.size r.held).toNat :: fs, ?_, ?_, ?_⟩
            · intro f hf
              rcases List.mem_cons.mp hf with rfl | hf
              · exact hwhole _ hfits.1
              · exact hfs f hf
            · rw [hseen, List.length_cons]
              omega
            · rw [List.flatten_cons, List.append_assoc, ← hheld, List.take_append_drop]
        · cases h

theorem readPieces_sound
    (hwhole : ∀ b : List α, 0 < F.size b → F.Frame (b.take (F.size b).toNat)) :
    ∀ {ps : List (List α)} {r r' : FrameReader α}, readPieces F.size r ps = some r' →
      ∃ fs : List (List α), (∀ f ∈ fs, F.Frame f) ∧ r'.seen = r.seen + fs.length ∧
        r.held ++ ps.flatten = fs.flatten ++ r'.held := by
  intro ps
  induction ps with
  | nil => intro r r' h; cases h; exact ⟨[], nofun, rfl, by simp⟩
  | cons p ps ih =>
      intro r r' h
      rw [readPieces] at h
      split at h
      · cases h
      · next r1 hfeed =>
          obtain ⟨fs, hfs, hseen, hheld⟩ := F.look_sound hwhole hfeed
          obtain ⟨gs, hgs, hseen', hheld'⟩ := ih h
          have hheld : r.held ++ p = fs.flatten ++ r1.held := hheld
          have hseen : r1.seen = r.seen + fs.length := hseen
          refine ⟨fs ++ gs, fun f hf => (List.mem_append.mp hf).elim (hfs f) (hgs f), ?_, ?_⟩
          · rw [hseen', hseen, List.length_append]
            omega
          · rw [List.flatten_cons, ← List.append_assoc, hheld, List.append_assoc, hheld',
              List.flatten_append, List.append_assoc]

/-- On a stream of frames the reader goes on to the one that has not all arrived. -/
theorem look_along {coming : List α} :
    ∀ {n : Nat} {r : FrameReader α} {fs : List (List α)}, (∀ f ∈ fs, F.Frame f) →
      r.held ++ coming = fs.flatten → r.held.length ≤ n →
      ∃ r' done rest, FrameReader.look F.size n r = some r' ∧ fs = done ++ rest ∧
        r'.seen = r.seen + done.length ∧ r'.held ++ coming = rest.flatten ∧
        F.size r'.held = 0 := by
  intro n
  induction n with
  | zero =>
      intro r fs _ hsplit hlen
      have hnil : r.held = [] := List.eq_nil_of_length_eq_zero (by omega)
      exact ⟨r, [], fs, rfl, rfl, rfl, hsplit, by rw [hnil, F.size_nil]⟩
  | succ n ih =>
      intro r fs hfs hsplit hlen
      rcases F.headCases hfs hsplit with ⟨hzero, -⟩ | ⟨f, rest, more, rfl, hheld, hmore, hsz⟩
      · refine ⟨r, [], fs, ?_, rfl, rfl, hsplit, hzero⟩
        rw [FrameReader.look]
        exact if_pos hzero
      · have hpos := F.length_pos (hfs f List.mem_cons_self)
        have hlen' : f.length + more.length ≤ n + 1 := by
          rw [← List.length_append, ← hheld]
          exact hlen
        obtain ⟨r', done, rest', hlook, rfl, hseen, hrest, hzero⟩ :=
          ih (r := ⟨r.seen + 1, more⟩) (fun g hg => hfs g (List.mem_cons_of_mem _ hg)) hmore
            (by show more.length ≤ n; omega)
        refine ⟨r', f :: done, rest', ?_, rfl, ?_, hrest, hzero⟩
        · rw [FrameReader.look]
          rw [if_neg (by omega), if_pos ⟨by omega, by rw [hsz, hheld, List.length_append]; omega⟩,
            hsz, hheld, Int.toNat_natCast, List.drop_left]
          exact hlook
        · rw [hseen, List.length_cons]
          show r.seen + 1 + done.length = r.seen + (done.length + 1)
          omega

theorem readPieces_along :
    ∀ {ps : List (List α)} {r : FrameReader α} {fs : List (List α)}, (∀ f ∈ fs, F.Frame f) →
      r.held ++ ps.flatten = fs.flatten → F.size r.held = 0 →
      ∃ r' done rest, readPieces F.size r ps = some r' ∧ fs = done ++ rest ∧
        r'.seen = r.seen + done.length ∧ r'.held = rest.flatten ∧ F.size r'.held = 0 := by
  intro ps
  induction ps with
  | nil =>
      intro r fs _ hsplit hzero
      rw [List.flatten_nil, List.append_nil] at hsplit
      exact ⟨r, [], fs, rfl, rfl, rfl, hsplit, hzero⟩
  | cons p ps ih =>
      intro r fs hfs hsplit _
      rw [List.flatten_cons, ← List.append_assoc] at hsplit
      obtain ⟨r1, done, rest, hlook, rfl, hseen, hheld, hzero⟩ :=
        F.look_along (r := { r with held := r.held ++ p }) hfs hsplit (Nat.le_refl _)
      obtain ⟨r', done', rest', hread, rfl, hseen', hheld', hzero'⟩ :=
        ih (fun f hf => hfs f (List.mem_append_right _ hf)) hheld hzero
      refine ⟨r', done ++ done', rest', ?_, (List.append_assoc _ _ _).symm, ?_, hheld', hzero'⟩
      · rw [readPieces, FrameReader.feed, hlook]
        exact hread
      · rw [hseen', hseen, List.length_append]
        show r.seen + done.length + done'.length = r.seen + (done.length + done'.length)
        omega

/-- A reader comes out even after `k` frames exactly when it was given `k` frames. -/
theorem readPieces_iff (hwhole : ∀ b : List α, 0 < F.size b → F.Frame (b.take (F.size b).toNat))
    (k : Nat) (ps : List (List α)) :
    readPieces F.size {} ps = some ⟨k, []⟩ ↔
      ∃ fs : List (List α), ps.flatten = fs.flatten ∧ fs.length = k ∧ ∀ f ∈ fs, F.Frame f := by
  constructor
  · intro h
    obtain ⟨fs, hfs, hseen, hheld⟩ := F.readPieces_sound hwhole h
    refine ⟨fs, ?_, ?_, hfs⟩
    · simpa using hheld
    · simpa using hseen.symm
  · rintro ⟨fs, hflat, rfl, hfs⟩
    obtain ⟨r', done, rest, hread, rfl, hseen, hheld, hzero⟩ :=
      F.readPieces_along (r := {}) hfs hflat F.size_nil
    -- a whole frame would have been counted
    cases rest with
    | nil =>
        rw [hread, List.append_nil]
        obtain ⟨seen, held⟩ := r'
        cases hheld
        rw [show seen = done.length from hseen.trans (Nat.zero_add _)]
    | cons f rest =>
        have hf : F.Frame f := hfs f (List.mem_append_right _ List.mem_cons_self)
        have hpos := F.length_pos hf
        rw [hheld, List.flatten_cons, F.size_append hf] at hzero
        omega

end Framing

section Walk

variable {α σ : Type}

/-- Step through a buffer from frame head to frame head, running `body` on
each frame until it says `done` or the buffer is used up. `none` when the
frame at the head does not fit in what is left. The fuel bounds the number of
frames; the length of the buffer always suffices. -/
def walk (size : List α → Int) (body : σ → List α → Option (ForInStep σ)) :
    Nat → σ → List α → Option σ
  | _, s, [] => some s
  | 0, _, _ :: _ => none
  | n + 1, s, b@(_ :: _) =>
      let sz := size b
      if 0 < sz ∧ sz ≤ b.length then
        match body s (b.take sz.toNat) with
        | none => none
        | some (.done s') => some s'
        | some (.yield s') => walk size body n s' (b.drop sz.toNat)
      else none

/-- The same loop over the frames themselves. -/
def foldFrames (body : σ → List α → Option (ForInStep σ)) :
    σ → List (List α) → Option σ
  | s, [] => some s
  | s, f :: fs =>
      match body s f with
      | none => none
      | some (.done s') => some s'
      | some (.yield s') => foldFrames body s' fs

theorem walk_flatten {size : List α → Int} {body : σ → List α → Option (ForInStep σ)}
    {fs : List (List α)} (hne : ∀ f ∈ fs, f ≠ [])
    (hsz : ∀ f ∈ fs, ∀ rest, size (f ++ rest) = f.length) :
    ∀ {n : Nat} {s : σ}, fs.length ≤ n →
      walk size body n s fs.flatten = foldFrames body s fs := by
  induction fs with
  | nil => intro n s _; cases n <;> rfl
  | cons f rest ih =>
      intro n s hn
      obtain ⟨m, rfl⟩ : ∃ m, n = m + 1 := ⟨n - 1, by simp only [List.length_cons] at hn; omega⟩
      have hf : f ≠ [] := hne f List.mem_cons_self
      have hsize : size (f ++ rest.flatten) = f.length := hsz f List.mem_cons_self _
      have hpos : 0 < f.length := List.length_pos_iff.mpr hf
      obtain ⟨x, tl, htl⟩ : ∃ x tl, f ++ rest.flatten = x :: tl := by
        cases f with
        | nil => exact absurd rfl hf
        | cons x tl => exact ⟨x, tl ++ rest.flatten, rfl⟩
      have hfit : 0 < size (f ++ rest.flatten) ∧
          size (f ++ rest.flatten) ≤ (f ++ rest.flatten).length := by
        rw [hsize, List.length_append]
        omega
      rw [List.flatten_cons, htl, walk, ← htl]
      simp only [if_pos hfit]
      rw [hsize, Int.toNat_natCast, List.take_left', List.drop_left', foldFrames]
      · cases hb : body s f with
        | none => rfl
        | some r =>
            cases r with
            | done s' => rfl
            | yield s' =>
                exact ih (fun g hg => hne g (List.mem_cons_of_mem _ hg))
                  (fun g hg => hsz g (List.mem_cons_of_mem _ hg))
                  (by simp only [List.length_cons] at hn; omega)
      · rfl
      · rfl

/-! A loop that never leaves early splits where its frames do. -/

/-- What every step keeps, the loop keeps. -/
theorem foldFrames_invariant {body : σ → List α → Option (ForInStep σ)} {P : σ → Prop}
    {fs : List (List α)} (hstep : ∀ s, ∀ f ∈ fs, ∀ s', P s →
      body s f = some (.yield s') ∨ body s f = some (.done s') → P s') :
    ∀ {s s' : σ}, P s → foldFrames body s fs = some s' → P s' := by
  induction fs with
  | nil => intro s s' hs h; cases h; exact hs
  | cons f rest ih =>
      intro s s' hs h
      rw [foldFrames] at h
      split at h
      · cases h
      · next hb => cases h; exact hstep _ f List.mem_cons_self _ hs (.inr hb)
      · next hb =>
          exact ih (fun s g hg => hstep s g (List.mem_cons_of_mem _ hg))
            (hstep _ f List.mem_cons_self _ hs (.inl hb)) h

theorem foldFrames_yield_append (g : σ → List α → Option σ) (s : σ) (fs gs : List (List α)) :
    foldFrames (fun s f => (g s f).map .yield) s (fs ++ gs)
      = (foldFrames (fun s f => (g s f).map .yield) s fs).bind fun s' =>
          foldFrames (fun s f => (g s f).map .yield) s' gs := by
  induction fs generalizing s with
  | nil => rfl
  | cons f rest ih =>
      rw [List.cons_append, foldFrames, foldFrames]
      cases g s f with
      | none => rfl
      | some s' => exact ih s'

/-- A body that neither fails nor leaves is a fold. -/
theorem foldFrames_total (g : σ → List α → σ) (s : σ) (fs : List (List α)) :
    foldFrames (fun s f => some (.yield (g s f))) s fs = some (fs.foldl g s) := by
  induction fs generalizing s with
  | nil => rfl
  | cons f rest ih => exact ih (g s f)

theorem foldFrames_yield_singleton (g : σ → List α → Option σ) (s : σ) (f : List α) :
    foldFrames (fun s f => (g s f).map .yield) s [f] = g s f := by
  rw [foldFrames]
  cases g s f with
  | none => rfl
  | some s' => rfl

/-- What every step keeps, the loop keeps, on any buffer. -/
theorem walk_invariant {size : List α → Int} {body : σ → List α → Option (ForInStep σ)}
    {P : σ → Prop} (hstep : ∀ s f s', P s →
      body s f = some (.yield s') ∨ body s f = some (.done s') → P s') :
    ∀ {n : Nat} {s s' : σ} {b : List α}, P s → walk size body n s b = some s' → P s' := by
  intro n
  induction n with
  | zero =>
      intro s s' b hs h
      cases b with
      | nil => cases h; exact hs
      | cons x rest => cases h
  | succ n ih =>
      intro s s' b hs h
      cases b with
      | nil => cases h; exact hs
      | cons x rest =>
          rw [walk] at h
          split at h
          · split at h
            · cases h
            · next hb => cases h; exact hstep _ _ _ hs (.inr hb)
            · next hb => exact ih (hstep _ _ _ hs (.inl hb)) h
          · cases h

def mapStep {τ : Type} (g : τ → σ) : ForInStep τ → ForInStep σ
  | .done t => .done (g t)
  | .yield t => .yield (g t)

/-- A loop that carries more is the loop with what it carries left out. -/
theorem walk_map {τ : Type} {size : List α → Int} {body : σ → List α → Option (ForInStep σ)}
    {body' : τ → List α → Option (ForInStep τ)} (g : τ → σ)
    (hbody : ∀ t f, (body' t f).map (mapStep g) = body (g t) f) (n : Nat) (t : τ) (b : List α) :
    (walk size body' n t b).map g = walk size body n (g t) b := by
  induction n generalizing t b with
  | zero => cases b <;> rfl
  | succ n ih =>
      cases b with
      | nil => rfl
      | cons x rest =>
          rw [walk, walk]
          split
          · rw [← hbody]
            cases body' t _ with
            | none => rfl
            | some r =>
                cases r with
                | done t' => rfl
                | yield t' => exact ih t' _
          · rfl

/-- A loop that comes to an end without leaving early has seen the whole buffer:
what it has passed, put together, is what was there. -/
theorem walk_log {size : List α → Int} {n : Nat} {seen seen' : List (List α)} {b : List α}
    (h : walk size (fun l f => some (.yield (l ++ [f]))) n seen b = some seen') :
    seen'.flatten = seen.flatten ++ b := by
  induction n generalizing seen b with
  | zero =>
      cases b with
      | nil => cases h; rw [List.append_nil]
      | cons x rest => cases h
  | succ n ih =>
      cases b with
      | nil => cases h; rw [List.append_nil]
      | cons x rest =>
          rw [walk] at h
          split at h
          · rw [ih h, List.flatten_append, List.flatten_singleton, List.append_assoc,
              List.take_append_drop]
          · cases h

/-- Nonempty frames are at most as many as the items they are made of. -/
theorem length_le_length_flatten {fs : List (List α)} (hne : ∀ f ∈ fs, f ≠ []) :
    fs.length ≤ fs.flatten.length := by
  induction fs with
  | nil => exact Nat.le_refl _
  | cons f rest ih =>
      have hf := List.length_pos_iff.mpr (hne f List.mem_cons_self)
      have hrest := ih fun g hg => hne g (List.mem_cons_of_mem _ hg)
      rw [List.length_cons, List.flatten_cons, List.length_append]
      omega

end Walk

end Smalltable
