import PeakOs.Lib.Absorb
import PeakOs.Lib.Endian

/-!
# SHA-256 and SHA-384

`net/crypto_hash.c` has a one-shot `sha256` and an incremental context, `boot/common/sha256.c` an
incremental context of its own, and `net/crypto_sha384.c` a context with a length of two words. Each
of them has its own loop over the blocks and its own padding.

A context is the buffer of `PeakOs.Lib.Absorb`: the bytes that wait are the first `partial_len` (in
the boot loader: `count`) bytes of its array. The bytes behind them are written before any read.

## Main results

* `whole_fipsPad` — the padding, seen from the last bytes that wait
* `sha256CtxFinal_absorbed`, `sha384CtxFinal_absorbed` — the digest of a context
* `sha256_eq` — the digest of the one-shot function
* `hashes_agree` — all of them compute the padding and the fold over the blocks
-/

namespace PeakOs.Crypto

open Absorb List

abbrev Bytes := List UInt8

/-! ### The compression function -/

/-- Eight words of `w` bits: the state, and the variables of the rounds. -/
structure Words (w : ℕ) where
  a : BitVec w
  b : BitVec w
  c : BitVec w
  d : BitVec w
  e : BitVec w
  f : BitVec w
  g : BitVec w
  h : BitVec w
  deriving DecidableEq

/-- What the two compression functions differ in. -/
structure Rounds (w : ℕ) where
  schedule0 : BitVec w → BitVec w
  schedule1 : BitVec w → BitVec w
  sum0 : BitVec w → BitVec w
  sum1 : BitVec w → BitVec w
  k : List ℕ

/-- The number in big-endian bytes. -/
def beWord (w : ℕ) (bytes : Bytes) : BitVec w :=
  bytes.foldl (fun v b => v <<< 8 ||| b.toBitVec.setWidth w) 0

/-- The words of the schedule, the newest first: `w[i - 2]` is at index 1. -/
def Rounds.expand {w : ℕ} (r : Rounds w) : ℕ → List (BitVec w) → List (BitVec w)
  | 0, ws => ws
  | k + 1, ws => r.expand k <|
      (ws.getD 15 0 + r.schedule0 (ws.getD 14 0) + ws.getD 6 0 + r.schedule1 (ws.getD 1 0)) :: ws

def Rounds.turn {w : ℕ} (r : Rounds w) (x : Words w) (kw : ℕ × BitVec w) : Words w :=
  let ch := (x.e &&& x.f) ^^^ (~~~x.e &&& x.g)
  let t1 := x.h + r.sum1 x.e + ch + BitVec.ofNat w kw.1 + kw.2
  let maj := (x.a &&& x.b) ^^^ (x.a &&& x.c) ^^^ (x.b &&& x.c)
  let t2 := r.sum0 x.a + maj
  ⟨t1 + t2, x.a, x.b, x.c, x.d + t1, x.e, x.f, x.g⟩

/-- A block of sixteen words goes into the state. -/
def Rounds.transform {w : ℕ} (r : Rounds w) (h : Words w) (block : Bytes) : Words w :=
  let first := (List.range 16).map fun i => beWord w ((block.drop (i * (w / 8))).take (w / 8))
  let ws := (r.expand (r.k.length - 16) first.reverse).reverse
  let x := (r.k.zip ws).foldl r.turn h
  ⟨h.a + x.a, h.b + x.b, h.c + x.c, h.d + x.d, h.e + x.e, h.f + x.f, h.g + x.g, h.h + x.h⟩

def Words.toBytes {w : ℕ} (h : Words w) : Bytes :=
  [h.a, h.b, h.c, h.d, h.e, h.f, h.g, h.h].flatMap fun x => beBytes (w / 8) x.toNat

def k256 : List ℕ :=
  [0x428a2f98, 0x71374491, 0xb5c0fbcf, 0xe9b5dba5, 0x3956c25b, 0x59f111f1, 0x923f82a4, 0xab1c5ed5,
    0xd807aa98, 0x12835b01, 0x243185be, 0x550c7dc3, 0x72be5d74, 0x80deb1fe, 0x9bdc06a7, 0xc19bf174,
    0xe49b69c1, 0xefbe4786, 0x0fc19dc6, 0x240ca1cc, 0x2de92c6f, 0x4a7484aa, 0x5cb0a9dc, 0x76f988da,
    0x983e5152, 0xa831c66d, 0xb00327c8, 0xbf597fc7, 0xc6e00bf3, 0xd5a79147, 0x06ca6351, 0x14292967,
    0x27b70a85, 0x2e1b2138, 0x4d2c6dfc, 0x53380d13, 0x650a7354, 0x766a0abb, 0x81c2c92e, 0x92722c85,
    0xa2bfe8a1, 0xa81a664b, 0xc24b8b70, 0xc76c51a3, 0xd192e819, 0xd6990624, 0xf40e3585, 0x106aa070,
    0x19a4c116, 0x1e376c08, 0x2748774c, 0x34b0bcb5, 0x391c0cb3, 0x4ed8aa4a, 0x5b9cca4f, 0x682e6ff3,
    0x748f82ee, 0x78a5636f, 0x84c87814, 0x8cc70208, 0x90befffa, 0xa4506ceb, 0xbef9a3f7, 0xc67178f2]

def sha256Rounds : Rounds 32 where
  schedule0 x := x.rotateRight 7 ^^^ x.rotateRight 18 ^^^ x >>> 3
  schedule1 x := x.rotateRight 17 ^^^ x.rotateRight 19 ^^^ x >>> 10
  sum0 x := x.rotateRight 2 ^^^ x.rotateRight 13 ^^^ x.rotateRight 22
  sum1 x := x.rotateRight 6 ^^^ x.rotateRight 11 ^^^ x.rotateRight 25
  k := k256

def k512 : List ℕ :=
  [0x428a2f98d728ae22, 0x7137449123ef65cd, 0xb5c0fbcfec4d3b2f, 0xe9b5dba58189dbbc,
    0x3956c25bf348b538, 0x59f111f1b605d019, 0x923f82a4af194f9b, 0xab1c5ed5da6d8118,
    0xd807aa98a3030242, 0x12835b0145706fbe, 0x243185be4ee4b28c, 0x550c7dc3d5ffb4e2,
    0x72be5d74f27b896f, 0x80deb1fe3b1696b1, 0x9bdc06a725c71235, 0xc19bf174cf692694,
    0xe49b69c19ef14ad2, 0xefbe4786384f25e3, 0x0fc19dc68b8cd5b5, 0x240ca1cc77ac9c65,
    0x2de92c6f592b0275, 0x4a7484aa6ea6e483, 0x5cb0a9dcbd41fbd4, 0x76f988da831153b5,
    0x983e5152ee66dfab, 0xa831c66d2db43210, 0xb00327c898fb213f, 0xbf597fc7beef0ee4,
    0xc6e00bf33da88fc2, 0xd5a79147930aa725, 0x06ca6351e003826f, 0x142929670a0e6e70,
    0x27b70a8546d22ffc, 0x2e1b21385c26c926, 0x4d2c6dfc5ac42aed, 0x53380d139d95b3df,
    0x650a73548baf63de, 0x766a0abb3c77b2a8, 0x81c2c92e47edaee6, 0x92722c851482353b,
    0xa2bfe8a14cf10364, 0xa81a664bbc423001, 0xc24b8b70d0f89791, 0xc76c51a30654be30,
    0xd192e819d6ef5218, 0xd69906245565a910, 0xf40e35855771202a, 0x106aa07032bbd1b8,
    0x19a4c116b8d2d0c8, 0x1e376c085141ab53, 0x2748774cdf8eeb99, 0x34b0bcb5e19b48a8,
    0x391c0cb3c5c95a63, 0x4ed8aa4ae3418acb, 0x5b9cca4f7763e373, 0x682e6ff3d6b2b8a3,
    0x748f82ee5defb2fc, 0x78a5636f43172f60, 0x84c87814a1f0ab72, 0x8cc702081a6439ec,
    0x90befffa23631e28, 0xa4506cebde82bde9, 0xbef9a3f7b2c67915, 0xc67178f2e372532b,
    0xca273eceea26619c, 0xd186b8c721c0c207, 0xeada7dd6cde0eb1e, 0xf57d4f7fee6ed178,
    0x06f067aa72176fba, 0x0a637dc5a2c898a6, 0x113f9804bef90dae, 0x1b710b35131c471b,
    0x28db77f523047d84, 0x32caab7b40c72493, 0x3c9ebe0a15c9bebc, 0x431d67c49c100d4c,
    0x4cc5d4becb3e42b6, 0x597f299cfc657e2a, 0x5fcb6fab3ad6faec, 0x6c44198c4a475817]

def sha512Rounds : Rounds 64 where
  schedule0 x := x.rotateRight 1 ^^^ x.rotateRight 8 ^^^ x >>> 7
  schedule1 x := x.rotateRight 19 ^^^ x.rotateRight 61 ^^^ x >>> 6
  sum0 x := x.rotateRight 28 ^^^ x.rotateRight 34 ^^^ x.rotateRight 39
  sum1 x := x.rotateRight 14 ^^^ x.rotateRight 18 ^^^ x.rotateRight 41
  k := k512

/-- The function of the kernel, and the copy of it in the boot loader. -/
def sha256Transform : Words 32 → Bytes → Words 32 := sha256Rounds.transform

def sha512Transform : Words 64 → Bytes → Words 64 := sha512Rounds.transform

def sha256Init : Words 32 :=
  ⟨0x6a09e667, 0xbb67ae85, 0x3c6ef372, 0xa54ff53a, 0x510e527f, 0x9b05688c, 0x1f83d9ab, 0x5be0cd19⟩

def sha384InitState : Words 64 :=
  ⟨0xcbbb9d5dc1059ed8, 0x629a292a367cd507, 0x9159015a3070dd17, 0x152fecd8f70e5939,
    0x67332667ffc00b31, 0x8eb44a8768581511, 0xdb0c2e0d64f98fa7, 0x47b5481dbefa4fa4⟩

/-! ### The entry points -/

def zeros (k : ℕ) : Bytes := List.replicate k 0

/-- The end of a message: a one bit behind the bytes that wait, zeros, and the field with the length
at the end of a block. -/
def finish {σ : Type*} (f : σ → Bytes → σ) (n : ℕ) (field : Bytes) (h : σ) (held : Bytes) : σ :=
  let p := held ++ [0x80]
  if n - field.length < p.length then
    f (f h (p ++ zeros (n - p.length))) (zeros (n - field.length) ++ field)
  else f h (p ++ zeros (n - field.length - p.length) ++ field)

structure Sha256State where
  h : Words 32
  bitlen : ℕ

/-- A block of a context is full. -/
def sha256Full (s : Sha256State) (block : Bytes) : Sha256State :=
  ⟨sha256Transform s.h block, (s.bitlen + 512) % 2 ^ 64⟩

def sha256CtxInit : Buffer Sha256State UInt8 := ⟨⟨sha256Init, 0⟩, []⟩

def sha256CtxUpdate (c : Buffer Sha256State UInt8) (data : Bytes) : Buffer Sha256State UInt8 :=
  c.feed sha256Full 64 data.length data

def sha256CtxFinal (c : Buffer Sha256State UInt8) : Bytes :=
  let totalBits := (c.state.bitlen + c.held.length * 8) % 2 ^ 64
  (finish sha256Transform 64 (beBytes 8 totalBits) c.state.h c.held).toBytes

def bootSha256Init : Buffer Sha256State UInt8 := ⟨⟨sha256Init, 0⟩, []⟩

def bootSha256Update (c : Buffer Sha256State UInt8) (data : Bytes) : Buffer Sha256State UInt8 :=
  c.feed sha256Full 64 data.length data

def bootSha256Final (c : Buffer Sha256State UInt8) : Bytes :=
  let totalBits := (c.state.bitlen + c.held.length * 8) % 2 ^ 64
  (finish sha256Transform 64 (beBytes 8 totalBits) c.state.h c.held).toBytes

/-- The one-shot function. -/
def sha256 (data : Bytes) : Bytes :=
  let (h, rem) := drain sha256Transform 64 data.length sha256Init data
  let block := rem ++ 0x80 :: zeros (63 - rem.length)
  let field := beBytes 8 (data.length * 8 % 2 ^ 64)
  if 56 ≤ rem.length then
    (sha256Transform (sha256Transform h block) ((zeros 64).take 56 ++ field)).toBytes
  else (sha256Transform h (block.take 56 ++ field)).toBytes

/-- `hmac_sha256`. -/
def hmacSha256 (key data : Bytes) : Bytes :=
  let short := if 64 < key.length then sha256 key else key
  let k := short ++ zeros (64 - short.length)
  let inner := sha256CtxFinal (sha256CtxUpdate (sha256CtxUpdate sha256CtxInit
    (k.map (· ^^^ 0x36))) data)
  sha256CtxFinal (sha256CtxUpdate (sha256CtxUpdate sha256CtxInit (k.map (· ^^^ 0x5c))) inner)

structure Sha384State where
  h : Words 64
  bitlenHi : ℕ
  bitlenLo : ℕ

def sha384Full (s : Sha384State) (block : Bytes) : Sha384State :=
  let lo := (s.bitlenLo + 1024) % 2 ^ 64
  ⟨sha512Transform s.h block, if lo < 1024 then (s.bitlenHi + 1) % 2 ^ 64 else s.bitlenHi, lo⟩

def sha384CtxInit : Buffer Sha384State UInt8 := ⟨⟨sha384InitState, 0, 0⟩, []⟩

def sha384CtxUpdate (c : Buffer Sha384State UInt8) (data : Bytes) : Buffer Sha384State UInt8 :=
  c.feed sha384Full 128 data.length data

def sha384CtxFinal (c : Buffer Sha384State UInt8) : Bytes :=
  let lo := (c.state.bitlenLo + c.held.length * 8) % 2 ^ 64
  let hi := if lo < c.held.length * 8 then (c.state.bitlenHi + 1) % 2 ^ 64 else c.state.bitlenHi
  (finish sha512Transform 128 (beBytes 8 hi ++ beBytes 8 lo) c.state.h c.held).toBytes.take 48

def sha384 (data : Bytes) : Bytes := sha384CtxFinal (sha384CtxUpdate sha384CtxInit data)

/-! ### The standard -/

/-- The zeros of the padding: as few as fill a block. -/
def zeroCount (n len field : ℕ) : ℕ := (n - (len + 1 + field) % n) % n

/-- The padded message, with the length in the last bytes. -/
def fipsPad (n : ℕ) (field msg : Bytes) : Bytes :=
  msg ++ 0x80 :: (zeros (zeroCount n msg.length field.length) ++ field)

/-- The 64 bits of the length hold every message that SHA-256 is defined for. -/
def fipsSha256 (msg : Bytes) : Bytes :=
  (whole sha256Transform 64 sha256Init (fipsPad 64 (beBytes 8 (8 * msg.length)) msg)).toBytes

def fipsSha384 (msg : Bytes) : Bytes :=
  (whole sha512Transform 128 sha384InitState
    (fipsPad 128 (beBytes 16 (8 * msg.length)) msg)).toBytes.take 48

/-! ### Padding -/

section
variable {σ : Type*} {f : σ → Bytes → σ} {n : ℕ} {field msg : Bytes}

theorem mod_zeroCount (n len fl : ℕ) : (len + 1 + fl) % n = (len % n + (1 + fl)) % n := by
  rw [Nat.mod_add_mod, add_assoc]

/-- The padding ends with the block. -/
theorem zeroCount_of_le {len fl : ℕ} (h : len % n + 1 + fl ≤ n) :
    zeroCount n len fl = n - fl - (len % n + 1) := by
  rw [zeroCount, mod_zeroCount]
  rcases lt_or_eq_of_le h with hlt | heq
  · rw [Nat.mod_eq_of_lt (by omega : len % n + (1 + fl) < n), Nat.mod_eq_of_lt (by omega)]
    omega
  · rw [← add_assoc, heq, Nat.mod_self, Nat.sub_zero, Nat.mod_self]
    omega

/-- The padding ends with the next block. -/
theorem zeroCount_of_lt {len fl : ℕ} (hfl : fl < n) (h : n < len % n + 1 + fl) :
    zeroCount n len fl = n - (len % n + 1) + (n - fl) := by
  have hlt : len % n < n := Nat.mod_lt _ (by omega)
  have hmod : (len % n + (1 + fl)) % n = len % n + (1 + fl) - n := by
    rw [Nat.mod_eq_sub_mod (by omega), Nat.mod_eq_of_lt (by omega)]
  rw [zeroCount, mod_zeroCount, Nat.mod_eq_of_lt (by omega)]
  omega

theorem length_zeros (k : ℕ) : (zeros k).length = k := length_replicate

theorem zeros_add (j k : ℕ) : zeros (j + k) = zeros j ++ zeros k :=
  replicate_add ..

theorem take_zeros (j k : ℕ) : (zeros k).take j = zeros (min j k) := take_replicate

theorem leNum_zeros (k : ℕ) : leNum (zeros k) = 0 := by
  induction k with
  | zero => rfl
  | succ k ih => rw [zeros, replicate_succ, leNum_cons, ← zeros, ih]; rfl

/-- **The padding**, seen from the bytes that wait behind the whole blocks. -/
theorem whole_fipsPad (hfl : field.length < n) (s : σ) (msg : Bytes) :
    whole f n s (fipsPad n field msg) = finish f n field (whole f n s msg) (rest n msg) := by
  have hn : 0 < n := by omega
  have hone : ∀ (s : σ) (b : Bytes), b.length = n → whole f n s b = f s b := by
    intro s b hb
    rw [← append_nil b, whole_block hn hb, whole_of_lt hn, append_nil]
  have hrest := length_rest n msg
  have hlt : msg.length % n < n := Nat.mod_lt _ hn
  have hheld : (rest n msg ++ [0x80]).length = msg.length % n + 1 := by
    rw [length_append, hrest, length_singleton]
  rw [fipsPad, whole_append hn, finish, append_cons]
  simp only [hheld]
  split_ifs with hspill
  · have hjoin : rest n msg ++ [0x80] ++
        (zeros (n - (msg.length % n + 1)) ++ zeros (n - field.length) ++ field) =
        (rest n msg ++ [0x80] ++ zeros (n - (msg.length % n + 1))) ++
          (zeros (n - field.length) ++ field) := by simp
    rw [zeroCount_of_lt hfl (by omega), zeros_add, hjoin, whole_block hn ?_, hone _ _ ?_]
    all_goals
      rw [length_append, length_zeros]
      omega
  · rw [zeroCount_of_le (by omega), ← append_assoc, hone _ _ ?_]
    rw [length_append, length_append, length_zeros]
    omega

end

/-! ### SHA-256 -/

theorem sha256_bitlen (s : Sha256State) (xs : Bytes) :
    (whole sha256Full 64 s xs).bitlen % 2 ^ 64 = (s.bitlen + 512 * (xs.length / 64)) % 2 ^ 64 := by
  have h64 : 0 < 64 := by decide
  induction xs using blockInduction h64 generalizing s with
  | short xs hlt => rw [whole_of_lt hlt, Nat.div_eq_of_lt hlt, mul_zero, add_zero]
  | block b xs hb ih =>
    rw [whole_block h64 hb, ih, length_div_append h64 hb]
    simp only [sha256Full]
    omega

/-- **The digest of a context.** -/
theorem sha256CtxFinal_absorbed (msg : Bytes) :
    sha256CtxFinal (absorbed sha256Full 64 ⟨sha256Init, 0⟩ msg) = fipsSha256 msg := by
  have hh : (whole sha256Full 64 ⟨sha256Init, 0⟩ msg).h = whole sha256Transform 64 sha256Init msg :=
    whole_map (by decide) Sha256State.h (fun _ _ => rfl) _ msg
  have hbits := sha256_bitlen ⟨sha256Init, 0⟩ msg
  have hlen : ((whole sha256Full 64 ⟨sha256Init, 0⟩ msg).bitlen + (rest 64 msg).length * 8) %
      2 ^ 64 = 8 * msg.length % 2 ^ 64 := by
    rw [length_rest]
    simp only at hbits
    omega
  rw [fipsSha256, whole_fipsPad (by rw [length_beBytes]; decide), sha256CtxFinal, absorbed]
  rw [hh, hlen, beBytes_mod (by decide)]

/-- **The digest of the one-shot function.** -/
theorem sha256_eq (msg : Bytes) : sha256 msg = fipsSha256 msg := by
  have hfield := length_beBytes 8 (8 * msg.length)
  rw [fipsSha256, whole_fipsPad (by rw [hfield]; decide), sha256, drain_eq (by decide) _ _ _ le_rfl,
    beBytes_mod (by decide), mul_comm]
  have hblock : rest 64 msg ++ 0x80 :: zeros (63 - (rest 64 msg).length) =
      rest 64 msg ++ [0x80] ++ zeros (64 - ((rest 64 msg).length + 1)) := by
    rw [append_cons, Nat.sub_add_eq, Nat.sub_right_comm]
  simp only [finish, hfield, length_append, length_singleton, hblock]
  by_cases h56 : 56 ≤ (rest 64 msg).length
  · rw [if_pos h56, if_pos (by omega)]
    rfl
  have hheld : (rest 64 msg ++ [0x80]).length = (rest 64 msg).length + 1 := length_append
  rw [if_neg h56, if_neg (by omega), take_append, take_of_length_le (by omega), hheld,
    take_zeros, min_eq_left (by omega)]

theorem length_sha256 (msg : Bytes) : (sha256 msg).length = 32 := by
  simp only [sha256]
  split <;> simp [Words.toBytes, length_beBytes]

/-! ### SHA-384 -/

theorem sha384_bitlen (s : Sha384State) (xs : Bytes) (hlo : s.bitlenLo < 2 ^ 64)
    (hhi : s.bitlenHi < 2 ^ 64) :
    let s' := whole sha384Full 128 s xs
    s'.bitlenLo < 2 ^ 64 ∧ s'.bitlenHi * 2 ^ 64 + s'.bitlenLo =
      (s.bitlenHi * 2 ^ 64 + s.bitlenLo + 1024 * (xs.length / 128)) % 2 ^ 128 := by
  have h128 : 0 < 128 := by decide
  induction xs using blockInduction h128 generalizing s with
  | short xs hlt =>
    rw [whole_of_lt hlt]
    omega
  | block b xs hb ih =>
    rw [whole_block h128 hb, length_div_append h128 hb]
    have hstep := ih (sha384Full s b) (Nat.mod_lt _ (by decide)) (by
      rw [sha384Full]
      split_ifs
      · exact Nat.mod_lt _ (by decide)
      · exact hhi)
    refine ⟨hstep.1, hstep.2.trans ?_⟩
    rw [sha384Full]
    simp only
    split_ifs <;> omega

theorem sha384CtxFinal_absorbed (msg : Bytes) :
    sha384CtxFinal (absorbed sha384Full 128 ⟨sha384InitState, 0, 0⟩ msg) = fipsSha384 msg := by
  have hh : (whole sha384Full 128 ⟨sha384InitState, 0, 0⟩ msg).h =
      whole sha512Transform 128 sha384InitState msg :=
    whole_map (by decide) Sha384State.h (fun _ _ => rfl) _ msg
  obtain ⟨hlo, hbits⟩ := sha384_bitlen ⟨sha384InitState, 0, 0⟩ msg (by decide) (by decide)
  rw [fipsSha384, whole_fipsPad (by rw [length_beBytes]; decide), sha384CtxFinal, absorbed,
    beBytes_add 8 8]
  simp only at hlo hbits ⊢
  generalize whole sha384Full 128 ⟨sha384InitState, 0, 0⟩ msg = s at *
  have hlow : (s.bitlenLo + (rest 128 msg).length * 8) % 2 ^ 64 = 8 * msg.length % 2 ^ 64 := by
    rw [length_rest]
    omega
  have hhigh : (if 8 * msg.length % 2 ^ 64 < (rest 128 msg).length * 8 then
      (s.bitlenHi + 1) % 2 ^ 64 else s.bitlenHi) = 8 * msg.length / 2 ^ (8 * 8) % 2 ^ 64 := by
    rw [length_rest] at *
    split_ifs <;> omega
  rw [hh, hlow, hhigh, beBytes_mod (by decide), beBytes_mod (by decide)]

/-! ### All of them -/

/-- The digest of a message that comes in pieces. -/
def sha256Stream (chunks : List Bytes) : Bytes :=
  sha256CtxFinal (chunks.foldl sha256CtxUpdate sha256CtxInit)

def bootSha256 (chunks : List Bytes) : Bytes :=
  bootSha256Final (chunks.foldl bootSha256Update bootSha256Init)

def sha384Stream (chunks : List Bytes) : Bytes :=
  sha384CtxFinal (chunks.foldl sha384CtxUpdate sha384CtxInit)

/-- **The pieces do not matter.** -/
theorem sha256Stream_eq (chunks : List Bytes) :
    sha256Stream chunks = fipsSha256 chunks.flatten := by
  have hstart : sha256CtxInit = absorbed sha256Full 64 ⟨sha256Init, 0⟩ [] := rfl
  rw [sha256Stream, hstart, foldl_feed (by decide) sha256CtxUpdate fun _ _ => rfl,
    sha256CtxFinal_absorbed]
  rfl

/-- **All entry points agree**: whatever the pieces are, each of them computes the padding and the
fold of the compression function over the blocks. -/
theorem hashes_agree (chunks : List Bytes) :
    sha256Stream chunks = fipsSha256 chunks.flatten ∧
    sha256 chunks.flatten = fipsSha256 chunks.flatten ∧
    bootSha256 chunks = fipsSha256 chunks.flatten ∧
    sha384Stream chunks = fipsSha384 chunks.flatten ∧
    sha384 chunks.flatten = fipsSha384 chunks.flatten := by
  have hstart : sha384CtxInit = absorbed sha384Full 128 ⟨sha384InitState, 0, 0⟩ [] := rfl
  refine ⟨sha256Stream_eq chunks, sha256_eq _, sha256Stream_eq chunks, ?_, ?_⟩
  · rw [sha384Stream, hstart, foldl_feed (by decide) sha384CtxUpdate fun _ _ => rfl,
      sha384CtxFinal_absorbed]
    rfl
  · rw [sha384, hstart, sha384CtxUpdate, feed_absorbed (by decide), sha384CtxFinal_absorbed]
    rfl

example : sha256 [0x61, 0x62, 0x63] = beBytes 32
    0xba7816bf8f01cfea414140de5dae2223b00361a396177a9cb410ff61f20015ad := by decide +kernel

end PeakOs.Crypto
