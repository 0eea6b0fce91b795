import Mathlib.Logic.Function.Basic

/-!
# Partial maps

A map to `Option` that is updated at one place, read backwards: where a value of the new map comes
from.

## Main results

* `of_update_ne`, `of_update_none`, `of_update_some` — what is there after an entry was changed,
  cleared or set
-/

namespace PeakOs

open Function

variable {α β : Type*} {f : α → Option β} {a b : α} {y z : β}

theorem ne_of_none_of_some (ha : f a = none) (hb : f b = some y) : b ≠ a := by
  rintro rfl
  rw [ha] at hb
  cases hb

variable [DecidableEq α]

theorem of_update_ne {g : α → β} (hz : z ≠ y) (h : update g a z b = y) : b ≠ a ∧ g b = y := by
  rw [update_apply] at h
  split at h
  · exact absurd h hz
  next hba => exact ⟨hba, h⟩

theorem of_update_none (h : update f a none b = some y) : b ≠ a ∧ f b = some y :=
  of_update_ne (by simp) h

theorem of_update_some (h : update f a (some z) b = some y) :
    b = a ∧ y = z ∨ b ≠ a ∧ f b = some y := by
  rw [update_apply] at h
  split at h
  next hba => exact .inl ⟨hba, (Option.some.inj h).symm⟩
  next hba => exact .inr ⟨hba, h⟩

end PeakOs
