import Mathlib.Data.List.Basic
import Mathlib.Tactic.Ring

/-!
# Words as sets of small numbers

A word of `w` bits used as a set of numbers below `w`: a bit is set or cleared with a shifted one,
and the least member is the number of trailing zeros. `getLsbD` is membership, and every lemma here
says what an operation does to it.

## Main results

* `getLsbD_setBit`, `getLsbD_clearBit` — inserting and removing a number
* `getLsbD_trailingZeros` — the least member is a member
-/

namespace PeakOs.BitMask

variable {w : ℕ}

theorem getLsbD_one_shiftLeft {k : ℕ} (hk : k < w) (i : ℕ) :
    (1#w <<< k).getLsbD i = decide (i = k) := by
  rw [show 1#w <<< k = BitVec.twoPow w k from rfl, BitVec.getLsbD_twoPow]
  simp [hk, eq_comm]

def setBit (m : BitVec w) (k : ℕ) : BitVec w := m ||| (1#w <<< k)

def clearBit (m : BitVec w) (k : ℕ) : BitVec w := m &&& ~~~(1#w <<< k)

theorem getLsbD_setBit (m : BitVec w) {k : ℕ} (hk : k < w) (i : ℕ) :
    (setBit m k).getLsbD i = (m.getLsbD i || decide (i = k)) := by
  rw [setBit, BitVec.getLsbD_or, getLsbD_one_shiftLeft hk]

theorem getLsbD_clearBit (m : BitVec w) {k : ℕ} (hk : k < w) (i : ℕ) :
    (clearBit m k).getLsbD i = (m.getLsbD i && !decide (i = k)) := by
  rw [clearBit, BitVec.getLsbD_and, BitVec.getLsbD_not, getLsbD_one_shiftLeft hk]
  by_cases hi : i < w
  · simp [hi]
  · simp [BitVec.getLsbD_of_ge m i (Nat.le_of_not_lt hi)]

theorem ne_zero_iff {m : BitVec w} : m ≠ 0#w ↔ ∃ i, m.getLsbD i = true := by
  constructor
  · intro h
    by_contra hnone
    push Not at hnone
    refine h (BitVec.eq_of_getLsbD_eq fun i _ => ?_)
    simpa using hnone i
  rintro ⟨i, hi⟩ rfl
  rw [BitVec.getLsbD_zero] at hi
  cases hi

/-- The number of trailing zeros; `w` for the empty set. -/
def trailingZeros (m : BitVec w) : ℕ := ((List.range w).find? m.getLsbD).getD w

/-- **The least member is a member.** -/
theorem getLsbD_trailingZeros {m : BitVec w} (h : m ≠ 0#w) :
    m.getLsbD (trailingZeros m) = true := by
  obtain ⟨i, hi⟩ := ne_zero_iff.1 h
  have hsome : ((List.range w).find? m.getLsbD).isSome := by
    rw [List.find?_isSome]
    exact ⟨i, List.mem_range.2 (BitVec.lt_of_getLsbD hi), hi⟩
  obtain ⟨k, hk⟩ := Option.isSome_iff_exists.1 hsome
  rw [trailingZeros, hk]
  exact List.find?_some hk

end PeakOs.BitMask
