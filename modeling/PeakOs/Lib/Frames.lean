import Mathlib.Data.List.Basic

/-!
# Inputs that are read frame by frame

Many formats are a row of frames that fill their input: the next frame says where it ends, and the
rest is read the same way until nothing is left. A parser of such a format is a loop that looks at
one frame, changes its state, and goes on.

`eachFrame` is that loop, and `frames` the list of what it looks at. The loop fails when a frame is
malformed, wherever that frame is, so it does not matter that it has changed its state before: the
loop is the same as first splitting the input and then going through the list (`eachFrame_eq`).

Both count down the frames they may still read. Where a frame takes at least one unit of its input,
the size of the input is a count that is never used up.
-/

namespace PeakOs.Frames

variable {ι α σ : Type*} (size : ι → ℕ) (next : ι → Option (α × ι))

/-- The frames that fill an input. -/
def frames : ℕ → ι → Option (List α)
  | 0, i => if size i = 0 then some [] else none
  | k + 1, i =>
    if size i = 0 then some []
    else
      match next i with
      | none => none
      | some (a, rest) => (frames k rest).map (a :: ·)

/-- A loop over the frames of an input. -/
def eachFrame (take : α → σ → Option σ) : ℕ → ι → σ → Option σ
  | 0, i, s => if size i = 0 then some s else none
  | k + 1, i, s =>
    if size i = 0 then some s
    else
      match next i with
      | none => none
      | some (a, rest) =>
        match take a s with
        | none => none
        | some s => eachFrame take k rest s

variable {size next}

/-- **The loop goes through the list of frames.** -/
theorem eachFrame_eq (take : α → σ → Option σ) (k : ℕ) (i : ι) (s : σ) :
    eachFrame size next take k i s =
      (frames size next k i).bind fun as => as.foldlM (fun s a => take a s) s := by
  induction k generalizing i s with
  | zero =>
    rw [eachFrame, frames]
    split
    · rfl
    · rfl
  | succ k ih =>
    rw [eachFrame, frames]
    split
    · rfl
    rcases next i with _ | ⟨a, rest⟩
    · rfl
    dsimp only
    rcases htake : take a s with _ | t
    · rcases frames size next k rest with _ | as
      · rfl
      · simp [List.foldlM_cons, htake]
    dsimp only
    rw [ih]
    rcases frames size next k rest with _ | as
    · rfl
    · simp [List.foldlM_cons, htake]

theorem foldlM_rule {f : σ → α → Option σ} {P : List α → σ → Prop}
    (hstep : ∀ done a s t, P done s → f s a = some t → P (done ++ [a]) t)
    (as : List α) {done : List α} {s t : σ} (hs : P done s) (h : as.foldlM f s = some t) :
    P (done ++ as) t := by
  induction as generalizing done s with
  | nil =>
    cases h
    rwa [List.append_nil]
  | cons a as ih =>
    obtain ⟨u, hu, h⟩ := Option.bind_eq_some_iff.1 h
    rw [List.append_cons]
    exact ih (hstep done a s u hs hu) h

/-- **The rule for a loop**: what holds of no frames, and of one more after each step, holds of all
of them. -/
theorem eachFrame_rule {take : α → σ → Option σ} {P : List α → σ → Prop}
    (hstep : ∀ done a s t, P done s → take a s = some t → P (done ++ [a]) t)
    {k : ℕ} {i : ι} {s t : σ} (hs : P [] s) (h : eachFrame size next take k i s = some t) :
    ∃ as, frames size next k i = some as ∧ P as t := by
  rw [eachFrame_eq] at h
  obtain ⟨as, has, h⟩ := Option.bind_eq_some_iff.1 h
  exact ⟨as, has, foldlM_rule (f := fun s a => take a s) hstep as hs h⟩

end PeakOs.Frames
