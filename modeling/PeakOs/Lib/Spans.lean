import PeakOs.Lib.PartialMap
import Mathlib.Order.Nat

/-!
# Spans below a tip

An allocator that hands out spans of a line keeps them apart from each other and below a tip. Who
has a span is a family over some index type, so that handing a span over is a change of the family
at two indices. Each rule below is one such change.

## Main results

* `Packed.push`, `Packed.extend` — a span is taken at the tip
* `Packed.move`, `Packed.split` — a span, or its first part, changes hands
* `Packed.lower` — the last span is given up, and the tip goes down
* `Tiled.push` to `Tiled.lower` — the same changes leave no gap below the tip
-/

namespace PeakOs

open Function Option

/-- The numbers from `start` up to, and without, `stop`. -/
structure Span where
  start : ℕ
  stop : ℕ
  deriving DecidableEq, Repr

def Span.Apart (a b : Span) : Prop := a.stop ≤ b.start ∨ b.stop ≤ a.start

variable {a b : Span} {tip' : ℕ}

theorem Span.Apart.symm (h : a.Apart b) : b.Apart a := Or.symm h

def Span.Within (a b : Span) : Prop := b.start ≤ a.start ∧ a.stop ≤ b.stop

theorem Span.Apart.within {c : Span} (h : b.Apart c) (hab : a.Within b) : a.Apart c :=
  h.imp hab.2.trans hab.1.trans'

structure Packed {ι : Type*} (tip : ℕ) (f : ι → Option Span) : Prop where
  nonempty : ∀ {i a}, f i = some a → a.start < a.stop
  below : ∀ {i a}, f i = some a → a.stop ≤ tip
  apart : ∀ {i j a b}, i ≠ j → f i = some a → f j = some b → a.Apart b

variable {ι : Type*} {tip : ℕ} {f : ι → Option Span}

theorem Packed.raise (h : Packed tip f) (hle : tip ≤ tip') : Packed tip' f :=
  ⟨h.nonempty, fun ha => (h.below ha).trans hle, h.apart⟩

/-- Every number below the tip is in a span. -/
def Tiled {ι : Type*} (tip : ℕ) (f : ι → Option Span) : Prop :=
  ∀ p < tip, ∃ i a, f i = some a ∧ a.start ≤ p ∧ p < a.stop

/-- A change that moves what was covered to where it is still covered. -/
theorem Tiled.of_covers (h : Tiled tip f) {g : ι → Option Span}
    (hold : ∀ {i a p}, f i = some a → a.start ≤ p → p < a.stop → p < tip' →
      ∃ j b, g j = some b ∧ b.start ≤ p ∧ p < b.stop)
    (hnew : ∀ {p}, tip ≤ p → p < tip' → ∃ j b, g j = some b ∧ b.start ≤ p ∧ p < b.stop) :
    Tiled tip' g := by
  intro p hp
  rcases lt_or_ge p tip with hlt | hge
  · obtain ⟨i, a, ha, hstart, hstop⟩ := h p hlt
    exact hold ha hstart hstop hp
  · exact hnew hge hp

variable [DecidableEq ι]

variable {i j : ι}

section

variable (h : Packed tip f)
include h

theorem Packed.clear (i : ι) : Packed tip (update f i none) := by
  have hold : ∀ {j a}, update f i none j = some a → f j = some a := fun ha => (of_update_none ha).2
  exact ⟨fun ha => h.nonempty (hold ha), fun ha => h.below (hold ha),
    fun hij ha hb => h.apart hij (hold ha) (hold hb)⟩

/-- A new span, away from all the others. -/
theorem Packed.set (hne : a.start < a.stop)
    (hbelow : a.stop ≤ tip) (hapart : ∀ {j b}, j ≠ i → f j = some b → a.Apart b) :
    Packed tip (update f i (some a)) := by
  refine ⟨fun {j b} hb => ?_, fun {j b} hb => ?_, fun {j k b c} hjk hb hc => ?_⟩
  · rcases of_update_some hb with ⟨-, rfl⟩ | ⟨-, hb⟩
    · exact hne
    · exact h.nonempty hb
  · rcases of_update_some hb with ⟨-, rfl⟩ | ⟨-, hb⟩
    · exact hbelow
    · exact h.below hb
  rcases of_update_some hb with ⟨hj, rfl⟩ | ⟨hj, hb'⟩ <;>
    rcases of_update_some hc with ⟨hk, rfl⟩ | ⟨hk, hc'⟩
  · exact absurd (hj.trans hk.symm) hjk
  · exact hapart hk hc'
  · exact (hapart hj hb').symm
  · exact h.apart hjk hb' hc'

/-- A span gets smaller. -/
theorem Packed.shrink (hi : f i = some b)
    (hab : a.Within b) (hne : a.start < a.stop) : Packed tip (update f i (some a)) :=
  h.set hne (hab.2.trans (h.below hi)) fun hj hb => (h.apart hj.symm hi hb).within hab

/-- **A span is taken at the tip.** -/
theorem Packed.push (i : ι) {n : ℕ} (hn : 0 < n) :
    Packed (tip + n) (update f i (some ⟨tip, tip + n⟩)) :=
  (h.raise (Nat.le_add_right tip n)).set (Nat.lt_add_of_pos_right hn) (le_refl _)
    fun _ hb => .inr (h.below hb)

/-- **The last span grows.** -/
theorem Packed.extend (hi : f i = some a) (htop : a.stop = tip) (n : ℕ) :
    Packed (tip + n) (update f i (some ⟨a.start, tip + n⟩)) := by
  have hne := h.nonempty hi
  refine (h.raise (Nat.le_add_right tip n)).set ?_ le_rfl fun hj hb => ?_
  · show a.start < tip + n
    omega
  have hb' := h.below hb
  rcases h.apart hj.symm hi hb with hle | hle
  · exact absurd (h.nonempty hb) (by omega)
  · exact .inr hle

/-- **A span changes hands.** -/
theorem Packed.move (hi : f i = some a) : Packed tip (update (update f i none) j (some a)) := by
  refine (h.clear i).set (h.nonempty hi) (h.below hi) fun {k b} _ hb => ?_
  obtain ⟨hk, hb⟩ := of_update_none hb
  exact h.apart (Ne.symm hk) hi hb

/-- **The first part of a span changes hands.** -/
theorem Packed.split (hi : f i = some a) {mid : ℕ} (hstart : a.start < mid) (hstop : mid < a.stop) :
    Packed tip (update (update f i (some ⟨mid, a.stop⟩)) j
      (some ⟨a.start, mid⟩)) := by
  have hrest : Span.Within ⟨mid, a.stop⟩ a := ⟨hstart.le, le_rfl⟩
  have hfirst : Span.Within ⟨a.start, mid⟩ a := ⟨le_rfl, hstop.le⟩
  refine (h.shrink hi hrest hstop).set hstart (hstop.le.trans (h.below hi)) fun {k b} _ hb => ?_
  rcases of_update_some hb with ⟨-, rfl⟩ | ⟨hk, hb⟩
  · exact .inl le_rfl
  · exact (h.apart (Ne.symm hk) hi hb).within hfirst

/-- **The last span is given up.** What was below the tip and apart from it is below its start. -/
theorem Packed.lower (hi : f i = some a)
    (htop : a.stop = tip) : Packed a.start (update f i none) := by
  have hclear := h.clear i
  refine ⟨hclear.nonempty, fun {j b} hb => ?_, hclear.apart⟩
  obtain ⟨hj, hb⟩ := of_update_none hb
  have hb' := h.below hb
  rcases h.apart (Ne.symm hj) hi hb with hle | hle
  · exact absurd (h.nonempty hb) (by omega)
  · exact hle

end

/-! ### No gaps -/

section

variable (h : Tiled tip f)
include h

theorem Tiled.push (hi : f i = none) (n : ℕ) :
    Tiled (tip + n) (update f i (some ⟨tip, tip + n⟩)) := by
  refine h.of_covers (fun {j a p} ha hstart hstop _ => ⟨j, a, ?_, hstart, hstop⟩)
    fun {p} hge hlt => ⟨i, _, update_self .., hge, hlt⟩
  rwa [update_of_ne (ne_of_none_of_some hi ha)]

theorem Tiled.extend (hi : f i = some a) (htop : a.stop = tip) (hne : a.start < a.stop) (n : ℕ) :
    Tiled (tip + n) (update f i (some ⟨a.start, tip + n⟩)) := by
  refine h.of_covers (fun {j b p} hb hstart hstop hp => ?_)
    fun {p} hge hlt => ⟨i, _, update_self .., by dsimp only; omega, hlt⟩
  by_cases hj : j = i
  · subst hj
    obtain rfl := some.inj (hi.symm.trans hb)
    exact ⟨j, _, update_self .., hstart, hp⟩
  · exact ⟨j, b, by rwa [update_of_ne hj], hstart, hstop⟩

theorem Tiled.move (hi : f i = some a) (hj : f j = none) :
    Tiled tip (update (update f i none) j (some a)) := by
  refine h.of_covers (fun {k b p} hb hstart hstop _ => ?_) fun hge hlt => by omega
  by_cases hk : k = i
  · subst hk
    obtain rfl := some.inj (hi.symm.trans hb)
    exact ⟨j, _, update_self .., hstart, hstop⟩
  have hkj := ne_of_none_of_some hj hb
  exact ⟨k, b, by rwa [update_of_ne hkj, update_of_ne hk], hstart, hstop⟩

theorem Tiled.split (hi : f i = some a) (hj : f j = none)
    (mid : ℕ) : Tiled tip (update (update f i (some ⟨mid, a.stop⟩)) j
      (some ⟨a.start, mid⟩)) := by
  have hij := ne_of_none_of_some hj hi
  refine h.of_covers (fun {k b p} hb hstart hstop _ => ?_) fun hge hlt => by omega
  by_cases hk : k = i
  · subst hk
    obtain rfl := some.inj (hi.symm.trans hb)
    rcases lt_or_ge p mid with hlt | hge
    · exact ⟨j, _, update_self .., hstart, hlt⟩
    · exact ⟨k, ⟨mid, a.stop⟩, by rw [update_of_ne hij, update_self], hge, hstop⟩
  have hkj := ne_of_none_of_some hj hb
  exact ⟨k, b, by rwa [update_of_ne hkj, update_of_ne hk], hstart, hstop⟩

theorem Tiled.lower (hi : f i = some a)
    (hle : a.start ≤ tip) : Tiled a.start (update f i none) := by
  refine h.of_covers (fun {k b p} hb hstart hstop hp => ?_) fun hge hlt => by omega
  have hk : k ≠ i := by
    rintro rfl
    obtain rfl := some.inj (hi.symm.trans hb)
    omega
  exact ⟨k, b, by rwa [update_of_ne hk], hstart, hstop⟩

end

end PeakOs
