import Mathlib.Data.List.GetD
import Mathlib.Data.List.OfFn
import Mathlib.Data.List.Range
import Mathlib.Tactic.Ring

/-!
# Byte streams on a block device

A block device is a function from block numbers to blocks of `n` bytes. A byte string is written to
it one block at a time, the last one padded with zeros, and read back the same way; in between, the
device may stop after any prefix of the writes.

## Main results

* `applyWrites_take_stream` — the device after a prefix of a stream
* `readLoop_eq` — the reading loop, byte by byte
* `readLe32_le32` — a 32-bit word as four bytes
-/

namespace PeakOs

open Function List

/-- A block of `n` bytes. -/
abbrev Block (n : ℕ) := Fin n → UInt8

variable {n : ℕ}

/-! ### Writes -/

/-- A list of block writes, first to last. -/
def applyWrites (ws : List (ℕ × Block n)) (d : ℕ → Block n) : ℕ → Block n :=
  ws.foldl (fun d w => Function.update d w.1 w.2) d

variable (d : ℕ → Block n)

@[simp] theorem applyWrites_nil : applyWrites [] d = d := rfl

@[simp] theorem applyWrites_singleton (w : ℕ × Block n) (d : ℕ → Block n) :
    applyWrites [w] d = update d w.1 w.2 := rfl

theorem applyWrites_append (ws vs : List (ℕ × Block n)) (d : ℕ → Block n) :
    applyWrites (ws ++ vs) d = applyWrites vs (applyWrites ws d) := foldl_append

variable {lba len k : ℕ}

/-- A block that is not written keeps its contents. -/
theorem applyWrites_of_notMem {ws : List (ℕ × Block n)} (h : ∀ w ∈ ws, w.1 ≠ lba)
    (d : ℕ → Block n) : applyWrites ws d lba = d lba := by
  induction ws generalizing d with
  | nil => rfl
  | cons w ws ih =>
    have hne : lba ≠ w.1 := (h w (mem_cons_self ..)).symm
    calc applyWrites (w :: ws) d lba
        = applyWrites ws (update d w.1 w.2) lba := rfl
      _ = update d w.1 w.2 lba := ih (fun v hv => h v (mem_cons_of_mem _ hv)) _
      _ = d lba := update_of_ne hne ..

/-! ### Streams -/

/-- Block `k` of a byte string, padded with zeros. -/
def blockOf (n : ℕ) (bytes : List UInt8) (k : ℕ) : Block n := fun j => bytes.getD (n * k + j) 0

/-- The number of blocks a string of `len` bytes takes. -/
def blockCount (n len : ℕ) : ℕ := (len + n - 1) / n

def streamWrites (n lba : ℕ) (bytes : List UInt8) : List (ℕ × Block n) :=
  (List.range (blockCount n bytes.length)).map fun k => (lba + k, blockOf n bytes k)

@[simp] theorem length_streamWrites (lba : ℕ) (bytes : List UInt8) :
    (streamWrites n lba bytes).length = blockCount n bytes.length := by simp [streamWrites]

theorem le_of_mem_streamWrites {bytes : List UInt8} {w : ℕ × Block n}
    (hw : w ∈ streamWrites n lba bytes) : lba ≤ w.1 ∧ w.1 < lba + blockCount n bytes.length := by
  obtain ⟨k, hk, rfl⟩ := mem_map.1 hw
  have := mem_range.1 hk
  omega

theorem lt_blockCount [NeZero n] {i : ℕ} : i / n < blockCount n len ↔ i < n * blockCount n len := by
  have hn : 0 < n := Nat.pos_of_neZero n
  rw [Nat.div_lt_iff_lt_mul hn, mul_comm]

/-- The blocks cover the string. -/
theorem le_mul_blockCount [NeZero n] (len : ℕ) : len ≤ n * blockCount n len := by
  have hn : 0 < n := Nat.pos_of_neZero n
  have hmod := Nat.mod_lt (len + n - 1) hn
  have hdiv := Nat.div_add_mod (len + n - 1) n
  rw [blockCount]
  omega

/-- **A prefix of a stream**: the first `k` blocks are written, the others are as before. -/
theorem applyWrites_take_stream (lba : ℕ) (bytes : List UInt8) (d : ℕ → Block n)
    (hk : k ≤ blockCount n bytes.length) (s : ℕ) :
    applyWrites ((streamWrites n lba bytes).take k) d (lba + s) =
      if s < k then blockOf n bytes s else d (lba + s) := by
  have htake : (streamWrites n lba bytes).take k =
      (range k).map fun j => (lba + j, blockOf n bytes j) := by
    rw [streamWrites, ← map_take, take_range, min_eq_left hk]
  rw [htake]
  clear htake hk
  induction k with
  | zero => rfl
  | succ k ih =>
    rw [range_succ, map_append, applyWrites_append]
    show update (applyWrites _ d) (lba + k) (blockOf n bytes k) (lba + s) = _
    by_cases hsk : s = k
    · subst hsk
      rw [update_self, if_pos (Nat.lt_succ_self s)]
    rw [update_of_ne (by omega), ih]
    by_cases hlt : s < k
    · rw [if_pos hlt, if_pos (by omega)]
    · rw [if_neg hlt, if_neg (by omega)]

/-! ### Fields of a block -/

/-- `len` bytes of a block from `off`. -/
def field (b : Block n) (off len : ℕ) : List UInt8 := ((List.ofFn b).drop off).take len

/-- A field of a block that was filled from a byte string. -/
theorem field_blockOf (pre bytes post : List UInt8) {all : List UInt8} {off : ℕ}
    (hall : all = pre ++ bytes ++ post) (hfit : all.length ≤ n) (hoff : pre.length = off)
    (hlen : bytes.length = len) : field (blockOf n all 0) off len = bytes := by
  subst hall hoff hlen
  rw [length_append, length_append] at hfit
  refine ext_getElem ?_ fun i hi hi' => ?_
  · simp only [field, length_take, length_drop, length_ofFn]
    omega
  simp only [field, getElem_take, getElem_drop, List.getElem_ofFn, blockOf, mul_zero, zero_add]
  rw [append_assoc, getD_append_right _ _ _ _ (Nat.le_add_right _ _),
    Nat.add_sub_cancel_left, getD_append _ _ _ _ hi']
  exact (getElem_eq_getD 0).symm

/-- A little-endian 32-bit word. -/
def le32 (x : ℕ) : List UInt8 :=
  [UInt8.ofNat x, UInt8.ofNat (x / 2 ^ 8), UInt8.ofNat (x / 2 ^ 16), UInt8.ofNat (x / 2 ^ 24)]

def readLe32 (bytes : List UInt8) : ℕ :=
  (bytes.getD 0 0).toNat + 2 ^ 8 * (bytes.getD 1 0).toNat + 2 ^ 16 * (bytes.getD 2 0).toNat +
    2 ^ 24 * (bytes.getD 3 0).toNat

@[simp] theorem length_le32 (x : ℕ) : (le32 x).length = 4 := rfl

theorem readLe32_le32 {x : ℕ} (h : x < 2 ^ 32) : readLe32 (le32 x) = x := by
  simp only [readLe32, le32, getD_cons_zero, getD_cons_succ, UInt8.toNat_ofNat']
  omega

/-! ### Reading -/

variable [NeZero n]

/-- Byte `i` counted from block `lba`. -/
def byteAt (d : ℕ → Block n) (lba i : ℕ) : UInt8 := d (lba + i / n) (Fin.ofNat n i)

def readBytes (d : ℕ → Block n) (lba len : ℕ) : List UInt8 := (List.range len).map (byteAt d lba)

@[simp] theorem length_readBytes (lba len : ℕ) :
    (readBytes d lba len).length = len := by simp [readBytes]

/-- Reading block by block, `len` bytes in all. -/
def readLoop (d : ℕ → Block n) : ℕ → ℕ → ℕ → List UInt8
  | _, 0, _ => []
  | lba, k + 1, len => (List.ofFn (d lba)).take (min n len) ++ readLoop d (lba + 1) k (len - n)

theorem readBytes_first (lba : ℕ) (h : len ≤ n) :
    readBytes d lba len = (ofFn (d lba)).take len := by
  refine ext_getElem (by simp [h]) fun i hi hi' => ?_
  have hin : i < n := by rw [length_readBytes] at hi; omega
  simp only [readBytes, getElem_map, getElem_range, byteAt, getElem_take,
    List.getElem_ofFn, Nat.div_eq_of_lt hin, add_zero]
  congr 1
  exact Fin.ext (Nat.mod_eq_of_lt hin)

theorem readBytes_add (lba len : ℕ) :
    readBytes d lba (n + len) = readBytes d lba n ++ readBytes d (lba + 1) len := by
  have hn : 0 < n := Nat.pos_of_neZero n
  rw [readBytes, range_add, map_append, map_map]
  congr 1
  refine map_congr_left fun i _ => ?_
  show byteAt d lba (n + i) = byteAt d (lba + 1) i
  have hlba : lba + (n + i) / n = lba + 1 + i / n := by
    rw [Nat.add_div_left _ hn]
    omega
  rw [byteAt]
  congr 1
  exact Fin.ext (Nat.add_mod_left n i)

/-- **The reading loop** reads the bytes of the stream. -/
theorem readLoop_eq (lba k : ℕ) (h : len ≤ n * k) :
    readLoop d lba k len = readBytes d lba len := by
  induction k generalizing lba len with
  | zero =>
    obtain rfl : len = 0 := by omega
    rfl
  | succ k ih =>
    rw [readLoop]
    by_cases hlen : len ≤ n
    · rw [min_eq_right hlen, Nat.sub_eq_zero_of_le hlen, ih _ (Nat.zero_le _),
        readBytes_first d lba hlen]
      exact append_nil _
    obtain ⟨m, rfl⟩ := Nat.exists_eq_add_of_le (Nat.le_of_not_le hlen)
    rw [min_eq_left (Nat.le_add_right n m), Nat.add_sub_cancel_left, readBytes_add,
      readBytes_first d lba le_rfl, ih]
    rw [Nat.mul_succ] at h
    omega

theorem blockOf_byte (bytes : List UInt8) (i : ℕ) :
    blockOf n bytes (i / n) (Fin.ofNat n i) = bytes.getD i 0 := by
  show bytes.getD (n * (i / n) + i % n) 0 = _
  rw [Nat.div_add_mod]

/-- The bytes read back after a prefix of a stream. -/
theorem byteAt_take_stream (lba : ℕ) (bytes : List UInt8) (d : ℕ → Block n)
    (hk : k ≤ blockCount n bytes.length) (i : ℕ) :
    byteAt (applyWrites ((streamWrites n lba bytes).take k) d) lba i =
      if i / n < k then bytes.getD i 0 else byteAt d lba i := by
  rw [byteAt, applyWrites_take_stream lba bytes d hk]
  by_cases h : i / n < k
  · rw [if_pos h, if_pos h, blockOf_byte]
  · rw [if_neg h, if_neg h, byteAt]

/-- Only the blocks from `lba` on matter. -/
theorem byteAt_congr {d d' : ℕ → Block n} (h : ∀ s, lba ≤ s → d' s = d s) (i : ℕ) :
    byteAt d' lba i = byteAt d lba i := by rw [byteAt, byteAt, h _ (Nat.le_add_right _ _)]

end PeakOs
