import PeakOs.Lib.Endian
import Mathlib.Tactic.Ring

/-!
# Base-64 and base-32

The encoders and decoders of `utils_crypto.c`, with the buffers of `base64` and `basenc`. The
decoders and `b32_encode` keep the bits they have not used yet in the low end of a 32-bit word.

## Main results

* `Holds.feed`, `Holds.emit`, `Holds.flush` — a byte is encoded, a character is written
* `base_round_trip` — what was encoded is decoded again, with blanks in between
-/

namespace PeakOs.BaseCodes

open List

abbrev Bytes := List UInt8

def ascii (s : String) : Bytes := s.toList.map fun c => UInt8.ofNat c.toNat

def b64 : Bytes := ascii "ABCDEFGHIJKLMNOPQRSTUVWXYZabcdefghijklmnopqrstuvwxyz0123456789+/"

/-- The four characters for a group of `n` bytes. -/
def b64Group (n : ℕ) (x y z : UInt8) : Bytes :=
  let v := x.toNat <<< 16 ||| y.toNat <<< 8 ||| z.toNat
  [b64.getD (v >>> 18 &&& 63) 0, b64.getD (v >>> 12 &&& 63) 0,
    if 1 < n then b64.getD (v >>> 6 &&& 63) 0 else 61, if 2 < n then b64.getD (v &&& 63) 0 else 61]

/-- The loop of `b64_encode`; `o` characters have been written. -/
def b64Encode (cap : ℕ) : Bytes → ℕ → Bytes
  | [], _ => []
  | [x], o => if cap ≤ o + 4 then [] else b64Group 1 x 0 0
  | [x, y], o => if cap ≤ o + 4 then [] else b64Group 2 x y 0
  | x :: y :: z :: rest, o =>
    if cap ≤ o + 4 then [] else b64Group 3 x y z ++ b64Encode cap rest (o + 4)

def b64Val (c : UInt8) : Option ℕ :=
  if 65 ≤ c ∧ c ≤ 90 then some (c.toNat - 65)
  else if 97 ≤ c ∧ c ≤ 122 then some (c.toNat - 97 + 26)
  else if 48 ≤ c ∧ c ≤ 57 then some (c.toNat - 48 + 52)
  else if c = 43 then some 62
  else if c = 47 then some 63
  else none

/-- The characters that a decoder does not pass over. -/
def digit (val : UInt8 → Option ℕ) (c : UInt8) : Option ℕ :=
  if c = 61 ∨ c = 10 ∨ c = 13 ∨ c = 32 then none else val c

/-- The loop of the decoders, with digits of `k` bits. -/
def decodeLoop (k : ℕ) (val : UInt8 → Option ℕ) (cap : ℕ) : Bytes → ℕ → ℕ → ℕ → Bytes
  | [], _, _, _ => []
  | c :: cs, o, acc, bits =>
    match digit val c with
    | none => decodeLoop k val cap cs o acc bits
    | some v =>
      let acc := acc <<< k % 2 ^ 32 ||| v
      if 8 ≤ bits + k then
        if cap ≤ o then []
        else UInt8.ofNat (acc >>> (bits + k - 8)) ::
          decodeLoop k val cap cs (o + 1) acc (bits + k - 8)
      else decodeLoop k val cap cs o acc (bits + k)

def b64Decode (cap : ℕ) (text : Bytes) : Bytes := decodeLoop 6 b64Val cap text 0 0 0

def b32 : Bytes := ascii "ABCDEFGHIJKLMNOPQRSTUVWXYZ234567"

/-- The loops of `b32_encode`: as long as there are five bits, a character is written. -/
def b32Loop (cap : ℕ) (bytes : Bytes) (o buf bits : ℕ) : Bytes :=
  if 5 ≤ bits then
    if cap ≤ o + 1 then []
    else b32.getD (buf >>> (bits - 5) &&& 31) 0 :: b32Loop cap bytes (o + 1) buf (bits - 5)
  else
    match bytes with
    | [] =>
      if 0 < bits ∧ o + 1 < cap then [b32.getD (buf <<< (5 - bits) % 2 ^ 32 &&& 31) 0]
      else []
    | x :: bytes => b32Loop cap bytes o (buf <<< 8 % 2 ^ 32 ||| x.toNat) (bits + 8)
  termination_by (bytes.length, bits)

def b32Encode (cap : ℕ) (bytes : Bytes) : Bytes := b32Loop cap bytes 0 0 0

def b32Val (c : UInt8) : Option ℕ :=
  if 65 ≤ c ∧ c ≤ 90 then some (c.toNat - 65)
  else if 50 ≤ c ∧ c ≤ 55 then some (c.toNat - 50 + 26)
  else none

def b32Decode (cap : ℕ) (text : Bytes) : Bytes := decodeLoop 5 b32Val cap text 0 0 0

def hashMax : ℕ := 64 * 1024

/-! ### One character -/

/-- What the decoder has read, the low `b` bits of `w` and `text` together are some whole bytes and
then the bytes `rest`. -/
def Holds (k : ℕ) (val : UInt8 → Option ℕ) (cap w b : ℕ) (text rest : Bytes) : Prop :=
  ∀ acc d o n, d < 8 → d + b = 8 * n → o + n + rest.length ≤ cap →
    decodeLoop k val cap text o acc d = beBytes n (acc * 2 ^ b + w % 2 ^ b) ++ rest

theorem beBytes_one (v : ℕ) : beBytes 1 v = [UInt8.ofNat v] := by simp [beBytes, leBytes]

theorem shift_in {k v : ℕ} (hv : v < 2 ^ k) (hk : k ≤ 8) (acc : ℕ) :
    acc <<< k % 2 ^ 32 ||| v = (acc * 2 ^ k + v) % 2 ^ 32 := by
  obtain ⟨e, he⟩ : ∃ e, 32 = e + k := ⟨32 - k, by omega⟩
  have hlow : acc <<< k % 2 ^ 32 = (acc % 2 ^ e) <<< k := by
    rw [Nat.shiftLeft_eq, Nat.shiftLeft_eq, he, pow_add, Nat.mul_mod_mul_right]
  have hlt : (acc % 2 ^ e) <<< k + v < 2 ^ 32 := by
    have hacc := Nat.mul_le_mul_right (2 ^ k) (Nat.mod_lt acc (Nat.two_pow_pos e))
    rw [Nat.succ_mul] at hacc
    rw [Nat.shiftLeft_eq, he, pow_add]
    omega
  rw [hlow, ← Nat.shiftLeft_add_eq_or_of_lt hv, ← Nat.mod_eq_of_lt hlt, ← hlow, Nat.mod_add_mod,
    Nat.shiftLeft_eq]

variable {k cap v w b : ℕ} {val : UInt8 → Option ℕ} {text rest : Bytes} {c : UInt8}

/-- Characters that stand for no digit make no difference. -/
theorem decodeLoop_filter {p : UInt8 → Bool} (hp : ∀ c ∈ text, p c = false → digit val c = none)
    (o acc d : ℕ) :
    decodeLoop k val cap (text.filter p) o acc d = decodeLoop k val cap text o acc d := by
  induction text generalizing o acc d with
  | nil => rfl
  | cons c text ih =>
    have hrest := ih fun x hx => hp x (mem_cons_of_mem c hx)
    cases hc : p c with
    | true => simp only [filter_cons_of_pos hc, decodeLoop, hrest]
    | false =>
      rw [filter_cons_of_neg (by simp [hc]), hrest, decodeLoop, hp c mem_cons_self hc]

theorem Holds.congr (hw : v % 2 ^ b = w % 2 ^ b) (h : Holds k val cap v b text rest) :
    Holds k val cap w b text rest := by
  rw [Holds, ← hw]
  exact h

theorem Holds.nil : Holds k val cap w 0 [] [] := by
  intro acc d o n hd hn _
  obtain rfl : n = 0 := by omega
  rfl

theorem Holds.emit (hk : k ≤ 8) (hc : digit val c = some (w / 2 ^ b % 2 ^ k))
    (h : Holds k val cap w b text rest) : Holds k val cap w (b + k) (c :: text) rest := by
  intro acc d o n hd hn hcap
  have hacc : acc * 2 ^ (b + k) + w % 2 ^ (b + k)
      = (acc * 2 ^ k + w / 2 ^ b % 2 ^ k) * 2 ^ b + w % 2 ^ b := by
    rw [pow_add, Nat.mod_mul]
    ring
  -- bits that fall out of the word were used before
  have hword (x r : ℕ) : beBytes n (x * 2 ^ b + r) = beBytes n (x % 2 ^ 32 * 2 ^ b + r) := by
    have hn : 8 * n ≤ 32 + b := by omega
    rw [← beBytes_mod hn, pow_add, ← Nat.mod_add_mod, Nat.mul_mod_mul_right, ← pow_add,
      beBytes_mod hn]
  rw [hacc, hword, decodeLoop, hc]
  dsimp only
  rw [shift_in (Nat.mod_lt _ (Nat.two_pow_pos k)) hk]
  generalize (acc * 2 ^ k + w / 2 ^ b % 2 ^ k) % 2 ^ 32 = acc'
  split
  next hfull =>
    obtain ⟨m, rfl⟩ : ∃ m, n = 1 + m := ⟨n - 1, by omega⟩
    obtain ⟨e, he⟩ : ∃ e, d + k = e + 8 := ⟨d + k - 8, by omega⟩
    have hbyte : (acc' * 2 ^ b + w % 2 ^ b) / 2 ^ (8 * m) = acc' / 2 ^ e := by
      rw [show 8 * m = b + e by omega, pow_add, ← Nat.div_div_eq_div_mul, mul_comm,
        Nat.mul_add_div (Nat.two_pow_pos b), Nat.div_eq_of_lt (Nat.mod_lt _ (Nat.two_pow_pos b)),
        add_zero]
    rw [if_neg (by omega), he, Nat.add_sub_cancel, beBytes_add, hbyte, beBytes_one,
      h acc' e (o + 1) m (by omega) (by omega) (by omega), Nat.shiftRight_eq_div_pow]
    rfl
  next => exact h acc' (d + k) o n (by omega) (by omega) hcap

/-- The last character of an encoding is filled up with zeros. -/
theorem Holds.flush (hk : k ≤ 8) (hb : 0 < b) (hbk : b ≤ k)
    (hc : digit val c = some (w % 2 ^ b * 2 ^ (k - b))) (htext : ∀ x ∈ text, digit val x = none) :
    Holds k val cap w b (c :: text) [] := by
  intro acc d o n hd hn hcap
  obtain rfl : n = 1 := by omega
  obtain ⟨e, rfl⟩ := Nat.exists_eq_add_of_le hbk
  rw [Nat.add_sub_cancel_left] at hc
  have hv : w % 2 ^ b * 2 ^ e < 2 ^ (b + e) := by
    rw [pow_add]
    exact Nat.mul_lt_mul_of_pos_right (Nat.mod_lt _ (Nat.two_pow_pos b)) (Nat.two_pow_pos e)
  have hacc : acc * 2 ^ (b + e) + w % 2 ^ b * 2 ^ e = 2 ^ e * (acc * 2 ^ b + w % 2 ^ b) := by ring
  rw [decodeLoop, hc]
  dsimp only
  rw [← decodeLoop_filter (p := fun _ => false) fun c hc _ => htext c hc, filter_false,
    shift_in hv hk, hacc, if_pos (by omega), if_neg (by omega), show d + (b + e) - 8 = e by omega,
    Nat.shiftRight_eq_div_pow, show 32 = e + (32 - e) by omega, pow_add, Nat.mul_mod_mul_left,
    Nat.mul_div_cancel_left _ (Nat.two_pow_pos e), decodeLoop, ← beBytes_one,
    beBytes_mod (by omega), append_nil]

theorem Holds.feed {x : UInt8} (h : Holds k val cap (w * 2 ^ 8 + x.toNat) (b + 8) text rest) :
    Holds k val cap w b text (x :: rest) := by
  intro acc d o n hd hn hcap
  have hx := x.toNat_lt
  have hbyte (y : ℕ) :
      (y * 2 ^ 8 + x.toNat) % 2 ^ 8 = x.toNat ∧ (y * 2 ^ 8 + x.toNat) / 2 ^ 8 = y := by omega
  have hlow : acc * 2 ^ (b + 8) + (w * 2 ^ 8 + x.toNat) % 2 ^ (b + 8)
      = (acc * 2 ^ b + w % 2 ^ b) * 2 ^ 8 + x.toNat := by
    rw [add_comm b, pow_add, Nat.mod_mul, (hbyte w).1, (hbyte w).2]
    ring
  rw [length_cons] at hcap
  rw [h acc d o (n + 1) hd (by omega) (by omega), hlow, beBytes_add, beBytes_one, (hbyte _).2]
  simp

/-! ### The encoders -/

theorem digit_b64 (v : ℕ) : digit b64Val (b64.getD (v &&& 63) 0) = some (v % 2 ^ 6) := by
  have h : ∀ d < 2 ^ 6, digit b64Val (b64.getD d 0) = some d := by decide +kernel
  rw [Nat.and_two_pow_sub_one_eq_mod v 6, h _ (Nat.mod_lt _ (by decide))]

theorem digit_b32 (v : ℕ) : digit b32Val (b32.getD (v &&& 31) 0) = some (v % 2 ^ 5) := by
  have h : ∀ d < 2 ^ 5, digit b32Val (b32.getD d 0) = some d := by decide +kernel
  rw [Nat.and_two_pow_sub_one_eq_mod v 5, h _ (Nat.mod_lt _ (by decide))]

theorem b32Loop_holds (enc : ℕ) (bytes : Bytes) (o buf bits : ℕ) (hbits : bits ≤ 12)
    (henc : o + (bits + 8 * bytes.length + 4) / 5 < enc) :
    (b32Loop enc bytes o buf bits).length = (bits + 8 * bytes.length + 4) / 5 ∧
      Holds 5 b32Val cap buf bits (b32Loop enc bytes o buf bits) bytes := by
  fun_induction b32Loop enc bytes o buf bits with
  | case1 => omega
  | case2 bytes o buf bits h5 hroom ih =>
    obtain ⟨e, rfl⟩ : ∃ e, bits = e + 5 := ⟨bits - 5, by omega⟩
    rw [Nat.add_sub_cancel] at ih ⊢
    obtain ⟨hlen, h⟩ := ih (by omega) (by omega)
    refine ⟨by rw [length_cons, hlen]; omega, .emit (by decide) ?_ h⟩
    rw [digit_b32, Nat.shiftRight_eq_div_pow]
  | case3 o buf bits h5 hlast =>
    refine ⟨by simp; omega, .flush (by decide) hlast.1 (by omega) ?_ (by simp)⟩
    rw [digit_b32, Nat.mod_mod_of_dvd _ (pow_dvd_pow 2 (by decide)), Nat.shiftLeft_eq,
      ← Nat.mul_mod_mul_right, ← pow_add,
      Nat.add_sub_cancel' (by omega)]
  | case4 o buf bits h5 hlast =>
    rw [length_nil] at henc ⊢
    obtain rfl : bits = 0 := by omega
    exact ⟨rfl, .nil⟩
  | case5 o buf bits h5 x bytes ih =>
    rw [length_cons] at henc ⊢
    obtain ⟨hlen, h⟩ := ih (by omega) (by omega)
    refine ⟨by omega, .feed (.congr ?_ h)⟩
    rw [shift_in x.toNat_lt (by decide), Nat.mod_mod_of_dvd _ (pow_dvd_pow 2 (by omega))]

theorem word_eq (x y z : UInt8) : x.toNat <<< 16 ||| y.toNat <<< 8 ||| z.toNat
    = ((0 * 2 ^ 8 + x.toNat) * 2 ^ 8 + y.toNat) * 2 ^ 8 + z.toNat := by
  rw [show x.toNat <<< 16 = x.toNat <<< 8 <<< 8 from Nat.shiftLeft_add _ 8 8,
    ← Nat.shiftLeft_or_distrib, ← Nat.shiftLeft_add_eq_or_of_lt y.toNat_lt,
    ← Nat.shiftLeft_add_eq_or_of_lt z.toNat_lt, Nat.shiftLeft_eq, Nat.shiftLeft_eq, zero_mul,
    zero_add]

theorem b64Encode_holds (enc : ℕ) (bytes : Bytes) (o : ℕ)
    (henc : o + (bytes.length + 2) / 3 * 4 < enc) :
    (b64Encode enc bytes o).length = (bytes.length + 2) / 3 * 4 ∧
      Holds 6 b64Val cap 0 0 (b64Encode enc bytes o) bytes := by
  have hpad : ∀ c ∈ ([61, 61] : Bytes), digit b64Val c = none := by simp [digit]
  have hchar (v e : ℕ) : digit b64Val (b64.getD (v >>> e &&& 63) 0) = some (v / 2 ^ e % 2 ^ 6) := by
    rw [digit_b64, Nat.shiftRight_eq_div_pow]
  fun_induction b64Encode enc bytes o with
  | case1 => exact ⟨rfl, .nil⟩
  | case2 | case4 | case6 =>
    rw [length_cons] at henc
    omega
  | case3 x =>
    refine ⟨by simp [b64Group], .feed (.emit (b := 2) (by decide) ((hchar _ 18).trans ?_)
      (.flush (by decide) (by decide) (by decide) ((hchar _ 12).trans ?_) hpad))⟩
    all_goals
      rw [word_eq, UInt8.toNat_zero]
      exact congrArg some (by omega)
  | case5 x y =>
    refine ⟨by simp [b64Group], .feed (.feed (.emit (b := 10) (by decide) ((hchar _ 18).trans ?_)
      (.emit (b := 4) (by decide) ((hchar _ 12).trans ?_) (.flush (by decide) (by decide)
        (by decide) ((hchar _ 6).trans ?_) fun c hc => hpad c (mem_cons_of_mem _ hc)))))⟩
    all_goals
      rw [word_eq, UInt8.toNat_zero]
      exact congrArg some (by omega)
  | case7 x y z rest o hroom ih =>
    simp only [length_cons] at henc ⊢
    obtain ⟨hlen, h⟩ := ih (by omega)
    refine ⟨by rw [length_append, hlen]; simp [b64Group]; omega, .feed (.feed (.feed ?_))⟩
    rw [← word_eq]
    have hlast := h.congr (w := x.toNat <<< 16 ||| y.toNat <<< 8 ||| z.toNat) (by omega)
    exact .emit (by decide) (hchar _ 18) (.emit (by decide) (hchar _ 12) (.emit (by decide)
      (hchar _ 6) (.emit (by decide) (hchar _ 0) hlast)))

/-! ### Round trips -/

theorem Holds.decode (h : Holds k val cap 0 0 (text.filter (· ∉ [10, 13, 32])) rest)
    (hcap : rest.length ≤ cap) : decodeLoop k val cap text 0 0 0 = rest := by
  rw [← decodeLoop_filter (p := (· ∉ [10, 13, 32])) (by grind [digit])]
  exact h 0 0 0 0 (by decide) rfl (by omega)

/-- **The round trip.** The buffers of the commands hold the whole encoding, and the decoders give
the bytes back, whatever line breaks and spaces were added to it. -/
theorem base_round_trip (s : Bytes) (hs : s.length ≤ hashMax) :
    let e64 := b64Encode ((hashMax / 3 + 1) * 4 + 4) s 0
    let e32 := b32Encode ((hashMax / 5 + 1) * 8 + 4) s
    (e64.length = (s.length + 2) / 3 * 4 ∧
      ∀ text, text.filter (· ∉ [10, 13, 32]) = e64 → b64Decode hashMax text = s) ∧
    e32.length = (8 * s.length + 4) / 5 ∧
      ∀ text, text.filter (· ∉ [10, 13, 32]) = e32 → b32Decode hashMax text = s := by
  obtain ⟨hlen, h⟩ := b64Encode_holds ((hashMax / 3 + 1) * 4 + 4) s 0 (by omega)
  obtain ⟨hlen', h'⟩ := b32Loop_holds ((hashMax / 5 + 1) * 8 + 4) s 0 0 0 (by decide) (by omega)
  refine ⟨⟨hlen, fun text ht => ?_⟩, hlen'.trans (by rw [zero_add]), fun text ht => ?_⟩
  · exact Holds.decode (ht ▸ h) hs
  · exact Holds.decode (ht ▸ h') hs

theorem base_round_trip_man : b64Decode hashMax (ascii "TW\nF u") = [77, 97, 110] :=
  (base_round_trip [77, 97, 110] (by decide)).1.2 _ (by decide)

end PeakOs.BaseCodes
