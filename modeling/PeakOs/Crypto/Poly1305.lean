import Mathlib.Algebra.BigOperators.Ring.Finset
import PeakOs.Crypto.Hash
import PeakOs.Lib.BlockStream

/-!
# Poly1305

The authenticator of `net/crypto_aead.c` keeps its accumulator and its key in five limbs of 26 bits,
with the products in 64 bits. The limbs of the accumulator are only partly reduced from one block to
the next; `poly1305_finish` reduces them completely.

Every sum and every product here goes through `cut`, which fails where the C type of the result does
not hold it. So a result that is there is the one of the C code, with no overflow on the way to it.
The subtraction of `2^26` that `poly1305_finish` compares with is meant to wrap, and does here too.

## Main results

* `step_spec` — one block: no overflow, and the accumulator modulo `2^130 - 5`
* `Sim.update` — the limbs follow the numbers, however the message is cut into pieces
* `subtract_spec`, `tagBytes_spec` — the final reduction, and the sum with `s` as bytes
* `poly1305_exact` — the tag is the one of RFC 8439
-/

namespace PeakOs.Crypto

namespace Poly1305

open Absorb List Option

/-! ### The code -/

/-- Five limbs of 26 bits, the least significant one first. -/
structure Limbs where
  l0 : ℕ
  l1 : ℕ
  l2 : ℕ
  l3 : ℕ
  l4 : ℕ

/-- A result of `w` bits. -/
def cut (w x : ℕ) : Option ℕ := if x < 2 ^ w then some x else none

/-- The sum of a block and the accumulator. -/
def add (h t : Limbs) : Option Limbs := do
  return ⟨← cut 32 (h.l0 + t.l0), ← cut 32 (h.l1 + t.l1), ← cut 32 (h.l2 + t.l2),
    ← cut 32 (h.l3 + t.l3), ← cut 32 (h.l4 + t.l4)⟩

/-- The product with `r`; what is above `2^130` comes back five times at the bottom. -/
def mul (r a : Limbs) : Option Limbs := do
  let s1 ← cut 32 (r.l1 * 5)
  let s2 ← cut 32 (r.l2 * 5)
  let s3 ← cut 32 (r.l3 * 5)
  let s4 ← cut 32 (r.l4 * 5)
  let x0 ← cut 64 (a.l0 * r.l0 + a.l1 * s4 + a.l2 * s3 + a.l3 * s2 + a.l4 * s1)
  let x1 ← cut 64 (a.l0 * r.l1 + a.l1 * r.l0 + a.l2 * s4 + a.l3 * s3 + a.l4 * s2)
  let x2 ← cut 64 (a.l0 * r.l2 + a.l1 * r.l1 + a.l2 * r.l0 + a.l3 * s4 + a.l4 * s3)
  let x3 ← cut 64 (a.l0 * r.l3 + a.l1 * r.l2 + a.l2 * r.l1 + a.l3 * r.l0 + a.l4 * s4)
  let x4 ← cut 64 (a.l0 * r.l4 + a.l1 * r.l3 + a.l2 * r.l2 + a.l3 * r.l1 + a.l4 * r.l0)
  return ⟨x0, x1, x2, x3, x4⟩

/-- The carries between the limbs, and from the last one to the first two. -/
def carry (x : Limbs) : Option Limbs := do
  let x1 ← cut 64 (x.l1 + x.l0 / 2 ^ 26)
  let x2 ← cut 64 (x.l2 + x1 / 2 ^ 26)
  let x3 ← cut 64 (x.l3 + x2 / 2 ^ 26)
  let x4 ← cut 64 (x.l4 + x3 / 2 ^ 26)
  let c ← cut 32 (x4 / 2 ^ 26 * 5)
  let h0 ← cut 32 (x.l0 % 2 ^ 26 + c)
  let h1 ← cut 32 (x1 % 2 ^ 26 + h0 / 2 ^ 26)
  return ⟨h0 % 2 ^ 26, h1, x2 % 2 ^ 26, x3 % 2 ^ 26, x4 % 2 ^ 26⟩

/-- The limbs of a block of sixteen bytes. -/
def limbsOf (m : Bytes) (hibit : ℕ) : Limbs :=
  ⟨readLe32 m &&& 0x3ffffff, readLe32 (m.drop 3) >>> 2 &&& 0x3ffffff,
    readLe32 (m.drop 6) >>> 4 &&& 0x3ffffff, readLe32 (m.drop 9) >>> 6 &&& 0x3ffffff,
    readLe32 (m.drop 12) >>> 8 ||| hibit⟩

/-- The body of the loop over the blocks. -/
def step (r h : Limbs) (m : Bytes) (hibit : ℕ) : Option Limbs :=
  (add h (limbsOf m hibit)).bind fun a => (mul r a).bind carry

def poly1305Blocks (r : Limbs) (final : Bool) : ℕ → Limbs → Bytes → Option Limbs
  | 0, h, _ => some h
  | k + 1, h, m =>
    (step r h (m.take 16) (if final then 0 else 2 ^ 24)).bind fun h =>
      poly1305Blocks r final k h (m.drop 16)

structure State where
  r : Limbs
  h : Limbs
  buf : Bytes
  s : Bytes

def poly1305Init (key : Bytes) : State where
  r := ⟨readLe32 key &&& 0x3ffffff, readLe32 (key.drop 3) >>> 2 &&& 0x3ffff03,
    readLe32 (key.drop 6) >>> 4 &&& 0x3ffc0ff, readLe32 (key.drop 9) >>> 6 &&& 0x3f03fff,
    readLe32 (key.drop 12) >>> 8 &&& 0x00fffff⟩
  h := ⟨0, 0, 0, 0, 0⟩
  buf := []
  s := (key.drop 16).take 16

/-- The whole blocks of a piece, and what is left of it. -/
def State.whole (p : State) (data : Bytes) : Option State := do
  let nblocks := data.length / 16
  let h ← poly1305Blocks p.r false nblocks p.h data
  let data := data.drop (nblocks * 16)
  return { p with h := h, buf := if data ≠ [] then data else p.buf }

def poly1305Update (p : State) (data : Bytes) : Option State :=
  if p.buf ≠ [] then
    let n := min (16 - p.buf.length) data.length
    let buf := p.buf ++ data.take n
    if buf.length = 16 then do
      let h ← poly1305Blocks p.r false 1 p.h buf
      { p with h := h, buf := [] }.whole (data.drop n)
    else { p with buf := buf }.whole (data.drop n)
  else p.whole data

/-- The last block, if bytes wait for one. -/
def lastBlock (p : State) : Option Limbs :=
  if p.buf ≠ [] then poly1305Blocks p.r true 1 p.h (p.buf ++ 1 :: zeros (15 - p.buf.length))
  else some p.h

/-- The carries of `poly1305_finish`: every limb gets its 26 bits. -/
def settle (h : Limbs) : Option Limbs := do
  let h2 ← cut 32 (h.l2 + h.l1 / 2 ^ 26)
  let h3 ← cut 32 (h.l3 + h2 / 2 ^ 26)
  let h4 ← cut 32 (h.l4 + h3 / 2 ^ 26)
  let h0 ← cut 32 (h.l0 + h4 / 2 ^ 26 * 5)
  let h1 ← cut 32 (h.l1 % 2 ^ 26 + h0 / 2 ^ 26)
  return ⟨h0 % 2 ^ 26, h1, h2 % 2 ^ 26, h3 % 2 ^ 26, h4 % 2 ^ 26⟩

/-- `2^130 - 5` is taken away if that is possible. -/
def subtract (h : Limbs) : Option Limbs := do
  let g0 ← cut 32 (h.l0 + 5)
  let g1 ← cut 32 (h.l1 + g0 / 2 ^ 26)
  let g2 ← cut 32 (h.l2 + g1 / 2 ^ 26)
  let g3 ← cut 32 (h.l3 + g2 / 2 ^ 26)
  let g4 := (h.l4 + g3 / 2 ^ 26 + (2 ^ 32 - 2 ^ 26)) % 2 ^ 32
  let mask := (g4 / 2 ^ 31 + (2 ^ 32 - 1)) % 2 ^ 32
  let select := fun h g => h &&& (2 ^ 32 - 1 - mask) ||| g &&& mask
  return ⟨select h.l0 (g0 % 2 ^ 26), select h.l1 (g1 % 2 ^ 26), select h.l2 (g2 % 2 ^ 26),
    select h.l3 (g3 % 2 ^ 26), select h.l4 g4⟩

/-- The limbs in words of 32 bits, the sum with `s` and its bytes. -/
def tagBytes (h : Limbs) (s : Bytes) : Option Bytes := do
  let h0 := (h.l0 ||| h.l1 <<< 26) % 2 ^ 32
  let h1 := (h.l1 >>> 6 ||| h.l2 <<< 20) % 2 ^ 32
  let h2 := (h.l2 >>> 12 ||| h.l3 <<< 14) % 2 ^ 32
  let h3 := (h.l3 >>> 18 ||| h.l4 <<< 8) % 2 ^ 32
  let f0 ← cut 64 (h0 + readLe32 s)
  let f1 ← cut 64 (h1 + readLe32 (s.drop 4) + f0 / 2 ^ 32)
  let f2 ← cut 64 (h2 + readLe32 (s.drop 8) + f1 / 2 ^ 32)
  let f3 ← cut 64 (h3 + readLe32 (s.drop 12) + f2 / 2 ^ 32)
  return leBytes 4 f0 ++ leBytes 4 f1 ++ leBytes 4 f2 ++ leBytes 4 f3

def poly1305Finish (p : State) : Option Bytes := do
  tagBytes (← subtract (← settle (← lastBlock p))) p.s

/-- A message in pieces, one `poly1305_update` for each. -/
def poly1305 (key : Bytes) (chunks : List Bytes) : Option Bytes := do
  poly1305Finish (← chunks.foldlM poly1305Update (poly1305Init key))

/-! ### RFC 8439 -/

/-- The prime. -/
def prime : ℕ := 2 ^ 130 - 5

def clamp (r : ℕ) : ℕ := r &&& 0x0ffffffc0ffffffc0ffffffc0fffffff

/-- The number of a block: one more byte of value 1 is behind it. -/
def blockNum (b : Bytes) : ℕ := leNum (b ++ [1])

/-- The sum of the `c i * r ^ (q - i)`, for `i` from 0. -/
def polySum (r : ℕ) (cs : List ℕ) : ℕ :=
  ∑ i ∈ Finset.range cs.length, cs.getD i 0 * r ^ (cs.length - i)

def rfcTag (key msg : Bytes) : Bytes :=
  let acc := polySum (clamp (leNum (key.take 16))) ((split 16 msg).map blockNum) % prime
  leBytes 16 ((acc + leNum ((key.drop 16).take 16)) % 2 ^ 128)

/-! ### Limbs as numbers -/

def Limbs.value (x : Limbs) : ℕ :=
  x.l0 + 2 ^ 26 * x.l1 + 2 ^ 52 * x.l2 + 2 ^ 78 * x.l3 + 2 ^ 104 * x.l4

/-- Every limb is below `b`. -/
structure Limbs.Below (b : ℕ) (x : Limbs) : Prop where
  l0 : x.l0 < b
  l1 : x.l1 < b
  l2 : x.l2 < b
  l3 : x.l3 < b
  l4 : x.l4 < b

/-- Reduced, but for a few units in the second limb. -/
structure Limbs.Reduced (x : Limbs) : Prop where
  l0 : x.l0 < 2 ^ 26
  l1 : x.l1 < 2 ^ 26 + 64
  l2 : x.l2 < 2 ^ 26
  l3 : x.l3 < 2 ^ 26
  l4 : x.l4 < 2 ^ 26

variable {x y k a b hibit m : ℕ} {p : State} {key msg : Bytes}

theorem cut_of_lt {w : ℕ} (h : x < 2 ^ w) : cut w x = some x := if_pos h

/-- What is above `2^130` comes back five times. -/
theorem modEq_of_add (h : x + 2 ^ 130 * k = y + 5 * k) : x ≡ y [MOD prime] := by
  have hprime : prime * k + 5 * k = 2 ^ 130 * k := by
    rw [← add_mul]
    rfl
  have hy : y = x + prime * k := by omega
  rw [hy]
  exact (Nat.add_mul_mod_self_left ..).symm

section
variable {r h t a x : Limbs}

theorem add_spec (hh : h.Reduced) (ht : t.Below (2 ^ 26)) :
    ∃ a, add h t = some a ∧ a.Below (2 ^ 27 + 64) ∧ a.value = h.value + t.value := by
  obtain ⟨h0, h1, h2, h3, h4⟩ := hh
  obtain ⟨t0, t1, t2, t3, t4⟩ := ht
  rw [add, cut_of_lt (by omega), cut_of_lt (by omega), cut_of_lt (by omega), cut_of_lt (by omega),
    cut_of_lt (by omega)]
  refine ⟨_, rfl, ⟨?_, ?_, ?_, ?_, ?_⟩, ?_⟩ <;> simp only [Limbs.value] <;> omega

/-- A sum of five products. -/
theorem sum_lt (ha : a.Below (2 ^ 27 + 64)) {b c0 c1 c2 c3 c4 : ℕ} (h0 : c0 < b) (h1 : c1 < b)
    (h2 : c2 < b) (h3 : c3 < b) (h4 : c4 < b) :
    a.l0 * c0 + a.l1 * c1 + a.l2 * c2 + a.l3 * c3 + a.l4 * c4 < 5 * ((2 ^ 27 + 64) * b) := by
  have := mul_lt_mul'' ha.l0 h0
  have := mul_lt_mul'' ha.l1 h1
  have := mul_lt_mul'' ha.l2 h2
  have := mul_lt_mul'' ha.l3 h3
  have := mul_lt_mul'' ha.l4 h4
  omega

theorem mul_spec (hr : r.Below (2 ^ 26)) (ha : a.Below (2 ^ 27 + 64)) :
    ∃ x, mul r a = some x ∧ x.Below (2 ^ 58) ∧ x.l4 < 5 * ((2 ^ 27 + 64) * 2 ^ 26) ∧
      x.value ≡ a.value * r.value [MOD prime] := by
  obtain ⟨r0, r1, r2, r3, r4⟩ := hr
  have hs1 : r.l1 * 5 < 5 * 2 ^ 26 := by omega
  have hs2 : r.l2 * 5 < 5 * 2 ^ 26 := by omega
  have hs3 : r.l3 * 5 < 5 * 2 ^ 26 := by omega
  have hs4 : r.l4 * 5 < 5 * 2 ^ 26 := by omega
  have hlt : ∀ {c : ℕ}, c < 2 ^ 26 → c < 5 * 2 ^ 26 := fun h => by omega
  have x0 := sum_lt ha (hlt r0) hs4 hs3 hs2 hs1
  have x1 := sum_lt ha (hlt r1) (hlt r0) hs4 hs3 hs2
  have x2 := sum_lt ha (hlt r2) (hlt r1) (hlt r0) hs4 hs3
  have x3 := sum_lt ha (hlt r3) (hlt r2) (hlt r1) (hlt r0) hs4
  have x4 := sum_lt ha r4 r3 r2 r1 r0
  have hfit : 5 * ((2 ^ 27 + 64) * (5 * 2 ^ 26)) ≤ 2 ^ 58 := by decide
  rw [mul, cut_of_lt (by omega), cut_of_lt (by omega), cut_of_lt (by omega), cut_of_lt (by omega)]
  simp only [bind_eq_bind, bind_some]
  rw [cut_of_lt (by omega), cut_of_lt (by omega), cut_of_lt (by omega), cut_of_lt (by omega),
    cut_of_lt (by omega)]
  refine ⟨_, rfl, ⟨?_, ?_, ?_, ?_, ?_⟩, x4, ?_⟩
  · exact x0.trans_le hfit
  · exact x1.trans_le hfit
  · exact x2.trans_le hfit
  · exact x3.trans_le hfit
  · exact x4.trans (by decide)
  -- the products from `2^130` on
  · let k := a.l1 * r.l4 + a.l2 * (r.l3 + 2 ^ 26 * r.l4) +
      a.l3 * (r.l2 + 2 ^ 26 * r.l3 + 2 ^ 52 * r.l4) +
      a.l4 * (r.l1 + 2 ^ 26 * r.l2 + 2 ^ 52 * r.l3 + 2 ^ 78 * r.l4)
    refine modEq_of_add (k := k) ?_
    simp only [Limbs.value]
    ring

theorem carry_spec (hx : x.Below (2 ^ 58)) (h4 : x.l4 < 5 * ((2 ^ 27 + 64) * 2 ^ 26)) :
    ∃ h, carry x = some h ∧ h.Reduced ∧ h.value ≡ x.value [MOD prime] := by
  obtain ⟨x0, x1, x2, x3, -⟩ := hx
  simp only [carry, bind_eq_bind]
  rw [cut_of_lt (by omega), bind_some]
  generalize hx1 : x.l1 + x.l0 / 2 ^ 26 = x1'
  rw [cut_of_lt (by omega), bind_some]
  generalize hx2 : x.l2 + x1' / 2 ^ 26 = x2'
  rw [cut_of_lt (by omega), bind_some]
  generalize hx3 : x.l3 + x2' / 2 ^ 26 = x3'
  rw [cut_of_lt (by omega), bind_some]
  generalize hx4 : x.l4 + x3' / 2 ^ 26 = x4'
  rw [cut_of_lt (by omega), bind_some, cut_of_lt (by omega), bind_some]
  rw [cut_of_lt (by omega)]
  refine ⟨_, rfl, ⟨?_, ?_, ?_, ?_, ?_⟩, modEq_of_add (k := x4' / 2 ^ 26) ?_⟩
  all_goals
    simp only [Limbs.value]
    omega

end

/-! ### Bytes as limbs -/

theorem readLe32_eq (bs : Bytes) : readLe32 bs = leNum bs % 2 ^ 32 := by
  have hlt := UInt8.toNat_lt
  rcases bs with _ | ⟨b0, _ | ⟨b1, _ | ⟨b2, _ | ⟨b3, rest⟩⟩⟩⟩
  · rfl
  all_goals
    simp only [readLe32, leNum_cons, leNum_nil, getD_cons_zero, getD_cons_succ,
      getD_nil, UInt8.toNat_zero]
    have := hlt b0
    try have := hlt b1
    try have := hlt b2
    try have := hlt b3
    omega

theorem readLe32_drop (bs : Bytes) (i : ℕ) :
    readLe32 (bs.drop i) = leNum bs / 256 ^ i % 2 ^ 32 := by rw [readLe32_eq, leNum_drop]

theorem and_limb (x : ℕ) : x &&& 0x3ffffff = x % 2 ^ 26 := Nat.and_two_pow_sub_one_eq_mod x 26

theorem or_shiftLeft {i : ℕ} (hb : b < 2 ^ i) : b ||| a <<< i = b + a * 2 ^ i := by
  rw [Nat.or_comm, ← Nat.shiftLeft_add_eq_or_of_lt hb, Nat.shiftLeft_eq, add_comm]

theorem limbsOf_spec {m : Bytes} (hm : m.length = 16) (hbit : hibit = 0 ∨ hibit = 2 ^ 24) :
    (limbsOf m hibit).Below (2 ^ 26) ∧ (limbsOf m hibit).value = leNum m + 2 ^ 104 * hibit := by
  have hlt := leNum_lt m
  rw [hm] at hlt
  have hdrop : readLe32 (m.drop 12) >>> 8 = leNum m / 2 ^ 104 := by
    rw [readLe32_drop]
    omega
  have htop : leNum m / 2 ^ 104 ||| hibit = leNum m / 2 ^ 104 + hibit := by
    rcases hbit with rfl | rfl
    · exact Nat.or_zero _
    · exact or_shiftLeft (a := 1) (i := 24) (by omega)
  rw [limbsOf, hdrop]
  simp only [and_limb, readLe32_drop, readLe32_eq m]
  refine ⟨⟨?_, ?_, ?_, ?_, ?_⟩, ?_⟩ <;> simp only [Limbs.value] <;> omega

variable {r h : Limbs}

/-- **One block**: nothing overflows, and the number is the accumulator of RFC 8439. -/
theorem step_spec (hr : r.Below (2 ^ 26)) (hh : h.Reduced) {m : Bytes}
    (hm : m.length = 16) (hbit : hibit = 0 ∨ hibit = 2 ^ 24) :
    ∃ h', step r h m hibit = some h' ∧ h'.Reduced ∧
      h'.value ≡ (h.value + (leNum m + 2 ^ 104 * hibit)) * r.value [MOD prime] := by
  obtain ⟨hlimbs, hvalue⟩ := limbsOf_spec hm hbit
  obtain ⟨a, hadd, ha, hasum⟩ := add_spec hh hlimbs
  obtain ⟨x, hmul, hx, hx4, hprod⟩ := mul_spec hr ha
  obtain ⟨h', hcarry, hh', hmod⟩ := carry_spec hx hx4
  refine ⟨h', ?_, hh', ?_⟩
  · rw [step, hadd, bind_some, hmul, bind_some, hcarry]
  · rw [← hvalue, ← hasum]
    exact hmod.trans hprod

/-! ### The key -/

theorem and_of_lt (hm : m < 2 ^ k) (x : ℕ) : x &&& m = x % 2 ^ k &&& m := by
  rw [← Nat.mod_eq_of_lt (Nat.and_lt_two_pow x hm), Nat.and_mod_two_pow, Nat.mod_eq_of_lt hm]

/-- A limb of the clamped number. -/
theorem clamp_limb (i : ℕ) (hx : x % 2 ^ 26 = y / 2 ^ (26 * i) % 2 ^ 26)
    (hm : 0x0ffffffc0ffffffc0ffffffc0fffffff / 2 ^ (26 * i) % 2 ^ 26 = m) :
    x &&& m = clamp y / 2 ^ (26 * i) % 2 ^ 26 := by
  have hlt : m < 2 ^ 26 := hm ▸ Nat.mod_lt _ (by decide)
  rw [clamp, Nat.and_div_two_pow, Nat.and_mod_two_pow, hm, and_of_lt hlt, hx]

theorem init_r (key : Bytes) : (poly1305Init key).r.Below (2 ^ 26) ∧
    (poly1305Init key).r.value = clamp (leNum (key.take 16)) := by
  have hlt : clamp (leNum (key.take 16)) < 2 ^ 128 := Nat.and_lt_two_pow _ (by decide)
  simp only [poly1305Init, readLe32_drop, readLe32_eq key]
  have htake := leNum_take 16 key
  generalize leNum (key.take 16) = y at *
  rw [clamp_limb (y := y) 0 (by omega) (by decide), clamp_limb (y := y) 1 (by omega) (by decide),
    clamp_limb (y := y) 2 (by omega) (by decide), clamp_limb (y := y) 3 (by omega) (by decide),
    clamp_limb (y := y) 4 (by omega) (by decide)]
  refine ⟨⟨?_, ?_, ?_, ?_, ?_⟩, ?_⟩
  all_goals
    simp only [Limbs.value]
    omega

/-! ### The message -/

/-- A block goes into the accumulator. -/
def horner (r acc : ℕ) (b : Bytes) : ℕ := (acc + blockNum b) * r

theorem polySum_concat (r : ℕ) (cs : List ℕ) (c : ℕ) :
    polySum r (cs ++ [c]) = (polySum r cs + c) * r := by
  rw [polySum, length_append, length_singleton, Finset.sum_range_succ, add_mul]
  congr 1
  · rw [polySum, Finset.sum_mul]
    refine Finset.sum_congr rfl fun i hi => ?_
    have hlt := Finset.mem_range.1 hi
    rw [getD_append _ _ _ _ hlt, Nat.succ_sub hlt.le, pow_succ, mul_assoc]
  · rw [getD_append_right _ _ _ _ le_rfl, Nat.sub_self, Nat.add_sub_cancel_left, pow_one]
    rfl

theorem polySum_map (r : ℕ) (bs : List Bytes) :
    polySum r (bs.map blockNum) = bs.foldl (horner r) 0 := by
  induction bs using reverseRecOn with
  | nil => rfl
  | append_singleton bs b ih =>
    rw [map_append, map_singleton, polySum_concat, ih, foldl_append]
    rfl

theorem horner_modEq {r : ℕ} (h : a ≡ b [MOD prime]) (m : Bytes) :
    horner r a m ≡ horner r b m [MOD prime] := (h.add_right _).mul_right _

theorem blockNum_of_length {b : Bytes} (hb : b.length = 16) :
    blockNum b = leNum b + 2 ^ 104 * 2 ^ 24 := by
  rw [blockNum, leNum_append, hb]
  rfl

/-- The loop over the blocks. -/
theorem blocks_spec (hr : r.Below (2 ^ 26)) (k : ℕ) :
    ∀ {h : Limbs} {v : ℕ} {m : Bytes}, h.Reduced → h.value ≡ v [MOD prime] → 16 * k ≤ m.length →
      ∃ h', poly1305Blocks r false k h m = some h' ∧ h'.Reduced ∧
        h'.value ≡ blocks (horner r.value) 16 k v m [MOD prime] := by
  induction k with
  | zero => exact fun hh hv _ => ⟨_, rfl, hh, hv⟩
  | succ k ih =>
    intro h v m hh hv hm
    have hb : (m.take 16).length = 16 := length_take_of_le (by omega)
    obtain ⟨h₁, hstep, hh₁, hv₁⟩ := step_spec hr hh hb (.inr rfl)
    rw [← blockNum_of_length hb] at hv₁
    obtain ⟨h₂, hloop, hh₂, hv₂⟩ := ih hh₁ (hv₁.trans (horner_modEq hv _))
      (show 16 * k ≤ (m.drop 16).length by rw [length_drop]; omega)
    refine ⟨h₂, ?_, hh₂, hv₂⟩
    rw [poly1305Blocks, if_neg Bool.false_ne_true, hstep, bind_some, hloop]

/-- The state behind the message `msg`. -/
structure Sim (key msg : Bytes) (p : State) : Prop where
  r : p.r = (poly1305Init key).r
  s : p.s = (key.drop 16).take 16
  reduced : p.h.Reduced
  value : p.h.value ≡ whole (horner p.r.value) 16 0 msg [MOD prime]
  buf : p.buf = rest 16 msg

theorem sim_init (key : Bytes) : Sim key [] (poly1305Init key) where
  r := rfl
  s := rfl
  reduced := ⟨Nat.two_pow_pos _, Nat.succ_pos _, Nat.two_pow_pos _, Nat.two_pow_pos _,
    Nat.two_pow_pos _⟩
  value := rfl
  buf := rfl

/-- The whole blocks of a piece that comes to an empty buffer. -/
theorem whole_spec (hr : p.r.Below (2 ^ 26)) (hh : p.h.Reduced) {v : ℕ}
    (hv : p.h.value ≡ v [MOD prime]) (data : Bytes) : ∃ h, p.whole data =
        some { p with h := h, buf := if rest 16 data = [] then p.buf else rest 16 data } ∧
      h.Reduced ∧ h.value ≡ whole (horner p.r.value) 16 v data [MOD prime] := by
  obtain ⟨h, hblocks, hh', hv'⟩ := blocks_spec hr (data.length / 16) hh hv
    (show 16 * (data.length / 16) ≤ data.length by omega)
  refine ⟨h, ?_, hh', hv'⟩
  rw [State.whole, hblocks, mul_comm]
  simp only [ite_not]
  rfl

/-- **The limbs follow the numbers**, however the message is cut into pieces. -/
theorem Sim.update (h : Sim key msg p) (data : Bytes) :
    ∃ p', poly1305Update p data = some p' ∧ Sim key (msg ++ data) p' := by
  have h16 : 0 < 16 := by decide
  have hr : p.r.Below (2 ^ 26) := h.r ▸ (init_r key).1
  have hwhole := whole_append (f := horner p.r.value) h16 0 msg data
  have hrest := rest_append h16 msg data
  have hbuf : p.buf.length < 16 := by
    rw [h.buf, length_rest]
    exact Nat.mod_lt _ h16
  rw [← h.buf] at hwhole hrest
  simp only [poly1305Update]
  generalize hn : min (16 - p.buf.length) data.length = n
  have hlen : (p.buf ++ data.take n).length = p.buf.length + n := by
    rw [length_append, length_take]
    omega
  have hjoin : p.buf ++ data = p.buf ++ data.take n ++ data.drop n := by
    rw [append_assoc, take_append_drop]
  generalize hheld : p.buf ++ data.take n = held at *
  split_ifs with hne hfull
  -- the buffer is full
  · obtain ⟨h₁, hblock, hh₁, hv₁⟩ := blocks_spec hr 1 h.reduced h.value (le_of_eq hfull.symm)
    rw [blocks, take_of_length_le (le_of_eq hfull)] at hv₁
    obtain ⟨h₂, hloop, hh₂, hv₂⟩ := whole_spec (p := { p with h := h₁, buf := [] }) hr hh₁ hv₁
      (data.drop n)
    rw [hjoin, whole_block h16 hfull] at hwhole
    rw [hjoin, rest_block h16 hfull] at hrest
    rw [hblock]
    refine ⟨_, hloop, h.r, h.s, hh₂, hwhole ▸ hv₂, ?_⟩
    rw [hrest]
    exact ite_eq_right_iff.2 Eq.symm
  -- all of the piece went into the buffer
  · have hall : data.drop n = [] := drop_eq_nil_of_le (by omega)
    rw [hjoin, hall, append_nil] at hwhole hrest
    have hshort : held.length < 16 := by omega
    rw [whole_of_lt hshort] at hwhole
    rw [rest_of_lt hshort] at hrest
    obtain ⟨h₁, hloop, hh₁, hv₁⟩ := whole_spec (p := { p with buf := held }) hr h.reduced h.value
      (data.drop n)
    rw [hall] at hloop hv₁ ⊢
    exact ⟨_, hloop, h.r, h.s, hh₁, hwhole ▸ hv₁, hrest.symm⟩
  · rw [not_not] at hne
    obtain ⟨h₁, hloop, hh₁, hv₁⟩ := whole_spec hr h.reduced h.value data
    rw [hne] at hwhole hrest
    refine ⟨_, hloop, h.r, h.s, hh₁, hwhole ▸ hv₁, ?_⟩
    rw [hrest, hne]
    exact ite_eq_right_iff.2 Eq.symm

theorem Sim.updates (h : Sim key msg p) (chunks : List Bytes) :
    ∃ p', chunks.foldlM poly1305Update p = some p' ∧ Sim key (msg ++ chunks.flatten) p' := by
  induction chunks generalizing msg p with
  | nil => exact ⟨p, rfl, by rwa [flatten_nil, append_nil]⟩
  | cons data chunks ih =>
    obtain ⟨p₁, hupdate, h₁⟩ := h.update data
    obtain ⟨p₂, hrest, h₂⟩ := ih h₁
    refine ⟨p₂, ?_, by rwa [flatten_cons, ← append_assoc]⟩
    rwa [foldlM_cons, hupdate]

/-! ### The tag -/

theorem lastBlock_spec (h : Sim key msg p) : ∃ h', lastBlock p = some h' ∧ h'.Reduced ∧
      h'.value ≡ (split 16 msg).foldl (horner p.r.value) 0 [MOD prime] := by
  have hr : p.r.Below (2 ^ 26) := h.r ▸ (init_r key).1
  have hbuf : p.buf.length < 16 := by
    rw [h.buf, length_rest]
    exact Nat.mod_lt _ (by decide)
  rw [foldl_split (by decide), ← h.buf, lastBlock]
  by_cases hnil : p.buf = []
  · rw [if_neg (not_not.2 hnil), if_pos hnil]
    exact ⟨p.h, rfl, h.reduced, h.value⟩
  rw [if_pos hnil, if_neg hnil]
  have hlen : (p.buf ++ 1 :: zeros (15 - p.buf.length)).length = 16 := by
    rw [length_append, length_cons, length_zeros]
    omega
  have hnum : leNum (p.buf ++ 1 :: zeros (15 - p.buf.length)) = blockNum p.buf := by
    rw [append_cons, leNum_append, leNum_zeros, mul_zero, add_zero, blockNum]
  obtain ⟨h', hstep, hh', hv'⟩ := step_spec hr h.reduced hlen (.inl rfl)
  refine ⟨h', ?_, hh', ?_⟩
  · rw [poly1305Blocks, take_of_length_le (le_of_eq hlen), if_pos rfl, hstep]
    rfl
  · rw [hnum] at hv'
    exact hv'.trans (horner_modEq h.value _)

theorem settle_spec (hh : h.Reduced) :
    ∃ h', settle h = some h' ∧ h'.Below (2 ^ 26) ∧ h'.value ≡ h.value [MOD prime] := by
  obtain ⟨h0, h1, h2, h3, h4⟩ := hh
  simp only [settle, bind_eq_bind]
  rw [cut_of_lt (by omega), bind_some]
  generalize e2 : h.l2 + h.l1 / 2 ^ 26 = h2'
  rw [cut_of_lt (by omega), bind_some]
  generalize e3 : h.l3 + h2' / 2 ^ 26 = h3'
  rw [cut_of_lt (by omega), bind_some]
  generalize e4 : h.l4 + h3' / 2 ^ 26 = h4'
  rw [cut_of_lt (by omega), bind_some]
  rw [cut_of_lt (by omega)]
  refine ⟨_, rfl, ⟨?_, ?_, ?_, ?_, ?_⟩, modEq_of_add (k := h4' / 2 ^ 26) ?_⟩
  all_goals
    simp only [Limbs.value]
    omega

/-- The mask chooses one of the two numbers. -/
theorem select_eq (hm : m = 0 ∨ m = 2 ^ 32 - 1) (ha : a < 2 ^ 32) (hb : b < 2 ^ 32) :
    a &&& (2 ^ 32 - 1 - m) ||| b &&& m = if m = 0 then a else b := by
  rcases hm with rfl | rfl
  · rw [if_pos rfl, Nat.and_zero, Nat.or_zero, Nat.sub_zero, Nat.and_two_pow_sub_one_eq_mod,
      Nat.mod_eq_of_lt ha]
  · rw [if_neg (by decide), Nat.sub_self, Nat.and_zero, Nat.zero_or,
      Nat.and_two_pow_sub_one_eq_mod, Nat.mod_eq_of_lt hb]

theorem subtract_spec (hh : h.Below (2 ^ 26)) :
    ∃ h', subtract h = some h' ∧ h'.Below (2 ^ 26) ∧ h'.value = h.value % prime := by
  obtain ⟨h0, h1, h2, h3, h4⟩ := hh
  simp only [subtract, bind_eq_bind]
  rw [cut_of_lt (by omega), bind_some]
  generalize e0 : h.l0 + 5 = g0
  rw [cut_of_lt (by omega), bind_some]
  generalize e1 : h.l1 + g0 / 2 ^ 26 = g1
  rw [cut_of_lt (by omega), bind_some]
  generalize e2 : h.l2 + g1 / 2 ^ 26 = g2
  rw [cut_of_lt (by omega), bind_some]
  generalize e3 : h.l3 + g2 / 2 ^ 26 = g3
  generalize e4 : (h.l4 + g3 / 2 ^ 26 + (2 ^ 32 - 2 ^ 26)) % 2 ^ 32 = g4
  generalize em : (g4 / 2 ^ 31 + (2 ^ 32 - 1)) % 2 ^ 32 = mask
  have hmask : mask = 0 ∨ mask = 2 ^ 32 - 1 := by omega
  rw [select_eq hmask (by omega) (by omega), select_eq hmask (by omega) (by omega),
    select_eq hmask (by omega) (by omega), select_eq hmask (by omega) (by omega),
    select_eq hmask (by omega) (by omega)]
  rcases hmask with rfl | rfl
  · refine ⟨h, rfl, ⟨h0, h1, h2, h3, h4⟩, (Nat.mod_eq_of_lt ?_).symm⟩
    rw [Limbs.value, prime]
    omega
  simp only [if_neg (show ¬2 ^ 32 - 1 = 0 by decide)]
  refine ⟨_, rfl, ⟨?_, ?_, ?_, ?_, ?_⟩, ?_⟩
  rotate_right
  · have hsub : h.value % prime = h.value - prime := by
      rw [Nat.mod_eq_sub_mod]
      all_goals
        rw [Limbs.value, prime] at *
        omega
    rw [hsub]
    simp only [Limbs.value, prime]
    omega
  all_goals
    simp only
    omega

/-- A sum, four bytes at a time. -/
theorem leBytes_carry (k a b c : ℕ) :
    leBytes (4 + k) (a + b + c) = leBytes 4 (a % 2 ^ 32 + b % 2 ^ 32 + c) ++
      leBytes k (a / 2 ^ 32 + b / 2 ^ 32 + (a % 2 ^ 32 + b % 2 ^ 32 + c) / 2 ^ 32) := by
  have hlow : (a + b + c) % 2 ^ 32 = (a % 2 ^ 32 + b % 2 ^ 32 + c) % 2 ^ 32 := by omega
  have hhigh : (a + b + c) / 2 ^ (8 * 4) =
      a / 2 ^ 32 + b / 2 ^ 32 + (a % 2 ^ 32 + b % 2 ^ 32 + c) / 2 ^ 32 := by omega
  rw [leBytes_add, hhigh, ← leBytes_mod (le_refl 32), hlow, leBytes_mod (le_refl 32)]

/-- The words of 32 bits. -/
theorem words_eq (hh : h.Below (2 ^ 26)) : (h.l0 ||| h.l1 <<< 26) % 2 ^ 32 = h.value % 2 ^ 32 ∧
    (h.l1 >>> 6 ||| h.l2 <<< 20) % 2 ^ 32 = h.value / 2 ^ 32 % 2 ^ 32 ∧
    (h.l2 >>> 12 ||| h.l3 <<< 14) % 2 ^ 32 = h.value / 2 ^ 32 / 2 ^ 32 % 2 ^ 32 ∧
    (h.l3 >>> 18 ||| h.l4 <<< 8) % 2 ^ 32 = h.value / 2 ^ 32 / 2 ^ 32 / 2 ^ 32 % 2 ^ 32 := by
  obtain ⟨h0, h1, h2, h3, h4⟩ := hh
  simp only [Nat.shiftRight_eq_div_pow]
  rw [or_shiftLeft h0, or_shiftLeft (show h.l1 / 2 ^ 6 < 2 ^ 20 by omega),
    or_shiftLeft (show h.l2 / 2 ^ 12 < 2 ^ 14 by omega),
    or_shiftLeft (show h.l3 / 2 ^ 18 < 2 ^ 8 by omega)]
  simp only [Limbs.value]
  refine ⟨?_, ?_, ?_, ?_⟩ <;> omega

theorem tagBytes_spec (hh : h.Below (2 ^ 26)) (s : Bytes) :
    tagBytes h s = some (leBytes 16 ((h.value + leNum s) % 2 ^ 128)) := by
  obtain ⟨e0, e1, e2, e3⟩ := words_eq hh
  have hs : ∀ k, readLe32 (s.drop k) = leNum s / 256 ^ k % 2 ^ 32 := readLe32_drop s
  have s8 : leNum s / 256 ^ 8 = leNum s / 2 ^ 32 / 2 ^ 32 := by omega
  have s12 : leNum s / 256 ^ 12 = leNum s / 2 ^ 32 / 2 ^ 32 / 2 ^ 32 := by omega
  simp only [tagBytes, bind_eq_bind, e0, e1, e2, e3, hs, readLe32_eq s, s8, s12]
  rw [leBytes_mod (by decide), show 16 = 4 + (4 + (4 + (4 + 0))) from rfl,
    ← add_zero (h.value + leNum s), leBytes_carry, leBytes_carry, leBytes_carry, leBytes_carry]
  iterate 3 rw [cut_of_lt (by omega), bind_some]
  rw [cut_of_lt (by omega)]
  rfl

/-- **Poly1305 is exact**: for every key and every message in any pieces nothing overflows, and the
tag is the one of RFC 8439. -/
theorem poly1305_exact (key : Bytes) (chunks : List Bytes) :
    poly1305 key chunks = some (rfcTag key chunks.flatten) := by
  obtain ⟨p, hupdates, hp⟩ := (sim_init key).updates chunks
  obtain ⟨h₁, hlast, hh₁, hv₁⟩ := lastBlock_spec hp
  obtain ⟨h₂, hsettle, hh₂, hv₂⟩ := settle_spec hh₁
  obtain ⟨h₃, hsub, hh₃, hv₃⟩ := subtract_spec hh₂
  have hvalue : h₃.value = polySum (clamp (leNum (key.take 16)))
      ((split 16 chunks.flatten).map blockNum) % prime := by
    rw [hv₃, hv₂.trans hv₁, polySum_map, hp.r, (init_r key).2, nil_append]
  simp only [poly1305, poly1305Finish, bind_eq_bind, hupdates, bind_some, hlast, hsettle, hsub]
  rw [tagBytes_spec hh₃, hvalue, hp.s, rfcTag]

end Poly1305

end PeakOs.Crypto
