import Mathlib.Data.Nat.Digits.Lemmas

/-!
# Numbers as bytes

A number of `k` bytes, the least significant byte first (`leBytes`) or last (`beBytes`), and the
number that a byte string stands for.

## Main results

* `leBytes_add` — the bytes of a number, in two parts
* `leNum_take`, `leNum_drop` — the low bytes of a number, and the number without them
-/

namespace PeakOs

open List

/-- The number whose bytes these are, the least significant one first. -/
def leNum (bs : List UInt8) : ℕ := Nat.ofDigits 256 (bs.map UInt8.toNat)

/-- The low `k` bytes of a number, the least significant one first. -/
def leBytes (k v : ℕ) : List UInt8 := (List.range k).map fun i => UInt8.ofNat (v / 2 ^ (8 * i))

def beBytes (k v : ℕ) : List UInt8 := (leBytes k v).reverse

@[simp] theorem leNum_nil : leNum [] = 0 := rfl

theorem leNum_cons (b : UInt8) (bs : List UInt8) : leNum (b :: bs) = b.toNat + 256 * leNum bs := by
  rw [leNum, map_cons, Nat.ofDigits_cons, leNum]

theorem leNum_append (xs ys : List UInt8) :
    leNum (xs ++ ys) = leNum xs + 256 ^ xs.length * leNum ys := by
  rw [leNum, map_append, Nat.ofDigits_append, length_map, leNum, leNum]

theorem leNum_lt (bs : List UInt8) : leNum bs < 256 ^ bs.length := by
  have h := Nat.ofDigits_lt_base_pow_length (l := bs.map UInt8.toNat) (b := 256) (by decide)
    fun d hd => by
      obtain ⟨b, -, rfl⟩ := mem_map.1 hd
      exact b.toNat_lt
  rwa [length_map] at h

/-- The high bytes are the quotient. -/
theorem leNum_drop (k : ℕ) (bs : List UInt8) : leNum (bs.drop k) = leNum bs / 256 ^ k := by
  induction k generalizing bs with
  | zero => rw [drop_zero, pow_zero, Nat.div_one]
  | succ k ih =>
    cases bs with
    | nil => rw [drop_nil, leNum_nil, Nat.zero_div]
    | cons b bs =>
      have hb := b.toNat_lt
      have hdiv : (b.toNat + 256 * leNum bs) / 256 = leNum bs := by omega
      rw [drop_succ_cons, ih, leNum_cons, pow_succ', ← Nat.div_div_eq_div_mul, hdiv]

/-- The low bytes are the rest. -/
theorem leNum_take (k : ℕ) (bs : List UInt8) : leNum (bs.take k) = leNum bs % 256 ^ k := by
  rcases lt_or_ge bs.length k with hlt | hge
  · rw [take_of_length_le hlt.le, Nat.mod_eq_of_lt]
    exact (leNum_lt bs).trans_le (Nat.pow_le_pow_right (by decide) hlt.le)
  have htake := leNum_lt (bs.take k)
  have hsplit := leNum_append (bs.take k) (bs.drop k)
  rw [length_take_of_le hge] at htake hsplit
  rw [take_append_drop] at hsplit
  rw [hsplit, Nat.add_mul_mod_self_left, Nat.mod_eq_of_lt htake]

theorem length_leBytes (k v : ℕ) : (leBytes k v).length = k := by
  rw [leBytes, length_map, length_range]

theorem length_beBytes (k v : ℕ) : (beBytes k v).length = k := by
  rw [beBytes, length_reverse, length_leBytes]

/-- Bytes in two pieces. -/
theorem leBytes_add (j k v : ℕ) :
    leBytes (j + k) v = leBytes j v ++ leBytes k (v / 2 ^ (8 * j)) := by
  rw [leBytes, range_add, map_append, map_map]
  congr 1
  refine map_congr_left fun i _ => ?_
  rw [Function.comp_apply, Nat.div_div_eq_div_mul, ← pow_add, mul_add]

/-- Only the low bytes of a number are written. -/
theorem leBytes_mod {k w v : ℕ} (hk : 8 * k ≤ w) : leBytes k (v % 2 ^ w) = leBytes k v := by
  refine map_congr_left fun i hi => UInt8.toNat_inj.1 ?_
  rw [mem_range] at hi
  obtain ⟨d, rfl⟩ : ∃ d, w = 8 * i + (8 + d) := ⟨w - (8 * i + 8), by omega⟩
  rw [UInt8.toNat_ofNat', UInt8.toNat_ofNat', pow_add, Nat.mod_mul_right_div_self, pow_add,
    Nat.mod_mul_right_mod]

theorem beBytes_add (j k v : ℕ) :
    beBytes (j + k) v = beBytes j (v / 2 ^ (8 * k)) ++ beBytes k v := by
  rw [beBytes, beBytes, beBytes, add_comm, leBytes_add, reverse_append]

theorem beBytes_mod {k w v : ℕ} (hk : 8 * k ≤ w) : beBytes k (v % 2 ^ w) = beBytes k v := by
  rw [beBytes, beBytes, leBytes_mod hk]

end PeakOs
