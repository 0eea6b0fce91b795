import PeakOs.Tls.Messages

/-!
# Key derivation

HKDF-Expand (RFC 5869), HKDF-Expand-Label (RFC 8446, section 7.1) and the function of TLS 1.2
(RFC 5246, section 5) as `crypto_hkdf.c` and the hash modules compute them, over an HMAC that is an
arbitrary function with results of the hash length. All of them hand out the blocks of a chain until
the caller has enough; the documents define the whole chain and take the front of it.

A function that returns without touching its output gives `none`.

## Main results

* `fill_eq` — the loop hands out the front of the chain
* `derivations_agree` — the functions are those of the documents
* `label_refuses_long` — `tls13_hkdf_expand_label` gives no more than 255 bytes
-/

namespace PeakOs.Tls

variable (hmac : (h : HashAlg) → Bytes → Bytes → Vector UInt8 h.size) (h : HashAlg)

theorem HashAlg.size_pos : 0 < h.size := by cases h <;> decide

/-! ### The functions -/

/-- The loop of them all: make a block, copy what is still wanted of it, and go on. -/
def fill {σ : Type} (next : σ → Bytes × σ) (left : ℕ) (s : σ) : Bytes :=
  if left = 0 then []
  else (next s).1.take (min left h.size) ++ fill next (left - min left h.size) (next s).2
termination_by left
decreasing_by
  have := h.size_pos
  omega

/-- The last block and the counter are carried along; `info` is cut to its part of `msg`. -/
def hkdfExpand (prk : Vector UInt8 h.size) (info : Bytes) (outLen : ℕ) : Bytes :=
  let next (s : Bytes × UInt8) :=
    let t := (hmac h prk.toList (s.1 ++ info.take 256 ++ [s.2])).toList
    (t, t, s.2 + 1)
  fill h next outLen ([], 1)

/-- `"tls13 "`. -/
def labelPre : Bytes := [116, 108, 115, 49, 51, 32]

def tls13ExpandLabel (secret : Vector UInt8 h.size) (label context : Bytes) (outLen : ℕ) :
    Option Bytes :=
  if 58 < label.length ∨ 64 < context.length ∨ 255 < outLen then none
  else
    some (hkdfExpand hmac h secret ([UInt8.ofNat (outLen >>> 8), UInt8.ofNat outLen,
      UInt8.ofNat (6 + label.length)] ++ labelPre ++ label ++ [UInt8.ofNat context.length] ++
      context) outLen)

def tlsPrf (secret label seed : Bytes) (outLen : ℕ) : Option Bytes :=
  if 256 < label.length + seed.length then none
  else
    let ls := label ++ seed
    let next (a : Bytes) := ((hmac h secret (a ++ ls)).toList, (hmac h secret a).toList)
    some (fill h next outLen (hmac h secret ls).toList)

/-! ### The documents -/

/-- The first `len` bytes of `block 0`, `block 1` and so on, as many as it takes. -/
def firstBytes (block : ℕ → Bytes) (len : ℕ) : Bytes :=
  ((List.range ((len + h.size - 1) / h.size)).flatMap block).take len

/-- T(0), T(1), ... -/
def Rfc5869.t (prk info : Bytes) : ℕ → Bytes
  | 0 => []
  | i + 1 => (hmac h prk (t prk info i ++ info ++ [UInt8.ofNat (i + 1)])).toList

def Rfc5869.expand (prk info : Bytes) (len : ℕ) : Bytes :=
  firstBytes h (fun i => t hmac h prk info (i + 1)) len

/-- `opaque<0..255>`. -/
def opaque8 (bytes : Bytes) : Bytes := UInt8.ofNat bytes.length :: bytes

def Rfc8446.hkdfLabel (len : ℕ) (label context : Bytes) : Bytes :=
  [UInt8.ofNat (len / 256), UInt8.ofNat (len % 256)] ++ opaque8 (labelPre ++ label) ++
    opaque8 context

/-- A(0), A(1), ... -/
def Rfc5246.a (secret seed : Bytes) : ℕ → Bytes
  | 0 => seed
  | i + 1 => (hmac h secret (a secret seed i)).toList

def Rfc5246.pHash (secret seed : Bytes) (len : ℕ) : Bytes :=
  firstBytes h (fun i => (hmac h secret (a hmac h secret seed (i + 1) ++ seed)).toList) len

/-! ### Agreement -/

variable {hmac h}

theorem firstBytes_of_ne_zero {block : ℕ → Bytes} (hb : (block 0).length = h.size) {len : ℕ}
    (hlen : len ≠ 0) : firstBytes h block len = (block 0).take (min len h.size) ++
      firstBytes h (fun i => block (i + 1)) (len - min len h.size) := by
  have hpos := h.size_pos
  have hcount : (len + h.size - 1) / h.size =
      (len - min len h.size + h.size - 1) / h.size + 1 := by
    rcases le_total len h.size with hle | hle
    · have hlast : h.size - 1 < h.size := by omega
      rw [min_eq_left hle, Nat.sub_self, zero_add, Nat.div_eq_of_lt hlast]
      exact Nat.div_eq_of_lt_le (by omega) (by omega)
    rw [min_eq_right hle, ← Nat.add_div_right _ hpos]
    congr 1
    omega
  rw [firstBytes, hcount, List.range_succ_eq_map, List.flatMap_cons, List.flatMap_map,
    List.take_append, hb, List.take_eq_take_min, hb,
    show len - h.size = len - min len h.size by omega]
  rfl

variable {σ : Type} {next : σ → Bytes × σ} {s : ℕ → σ} {b : ℕ → Bytes}

/-- **The loop** gives the front of a chain whose blocks have the length of a hash. -/
theorem fill_eq
    (hnext : ∀ i, next (s i) = (b i, s (i + 1))) (hb : ∀ i, (b i).length = h.size) (left i : ℕ) :
    fill h next left (s i) = firstBytes h (fun j => b (i + j)) left := by
  induction left using Nat.strongRecOn generalizing i with
  | ind left ih =>
    rw [fill, hnext]
    split
    next hzero => rw [hzero, firstBytes, List.take_zero]
    next hne =>
    have hpos := h.size_pos
    rw [firstBytes_of_ne_zero (hb (i + 0)) hne, ih _ (by omega)]
    simp [add_assoc, add_right_comm i]

theorem fill_front
    (hnext : ∀ i, next (s i) = (b i, s (i + 1))) (hb : ∀ i, (b i).length = h.size) (left : ℕ) :
    fill h next left (s 0) = firstBytes h b left := by
  rw [fill_eq hnext hb]
  simp

theorem hkdfExpand_eq {info : Bytes} (hinfo : info.length ≤ 256) (prk : Vector UInt8 h.size)
    (outLen : ℕ) : hkdfExpand hmac h prk info outLen =
      Rfc5869.expand hmac h prk.toList info outLen := by
  rw [hkdfExpand, List.take_of_length_le hinfo]
  refine fill_front (s := fun i => (Rfc5869.t hmac h prk.toList info i, UInt8.ofNat (i + 1)))
    (fun i => ?_) (fun i => Vector.length_toList) outLen
  dsimp only
  rw [UInt8.ofNat_add (i + 1) 1]
  rfl

theorem tls13ExpandLabel_eq {label context : Bytes} {outLen : ℕ} (hl : label.length ≤ 58)
    (hc : context.length ≤ 64) (hlen : outLen ≤ 255) (secret : Vector UInt8 h.size) :
    tls13ExpandLabel hmac h secret label context outLen = some (Rfc5869.expand hmac h
      secret.toList (Rfc8446.hkdfLabel outLen label context) outLen) := by
  have hpre : labelPre.length = 6 := rfl
  have hbyte : outLen % 256 = outLen := Nat.mod_eq_of_lt (by omega)
  rw [tls13ExpandLabel, if_neg (by omega), ← hkdfExpand_eq]
  · simp only [Rfc8446.hkdfLabel, opaque8, List.length_append, hpre, hbyte, List.append_assoc,
      Nat.shiftRight_eq_div_pow, List.cons_append, List.nil_append, Nat.reducePow]
  simp only [Rfc8446.hkdfLabel, opaque8, List.length_append, hpre, List.length_cons,
    List.length_nil]
  omega

/-- **Key derivation is that of the documents**, for the arguments the functions accept. -/
theorem derivations_agree (hmac : (h : HashAlg) → Bytes → Bytes → Vector UInt8 h.size)
    (h : HashAlg) :
    (∀ prk info outLen, info.length ≤ 256 → outLen ≤ 255 * h.size →
      hkdfExpand hmac h prk info outLen = Rfc5869.expand hmac h prk.toList info outLen) ∧
    (∀ secret label context outLen, label.length ≤ 58 → context.length ≤ 64 →
      tls13ExpandLabel hmac h secret label context outLen =
        if outLen ≤ 255 then some (Rfc5869.expand hmac h secret.toList
          (Rfc8446.hkdfLabel outLen label context) outLen) else none) ∧
    ∀ secret label seed outLen, label.length + seed.length ≤ 256 →
      tlsPrf hmac h secret label seed outLen =
        some (Rfc5246.pHash hmac h secret (label ++ seed) outLen) := by
  refine ⟨fun prk info outLen hinfo _ => hkdfExpand_eq hinfo prk outLen,
    fun secret label context outLen hl hc => ?_, fun secret label seed outLen hls => ?_⟩
  · split
    next hlen => exact tls13ExpandLabel_eq hl hc hlen secret
    · rw [tls13ExpandLabel, if_pos (by omega)]
  rw [tlsPrf, if_neg (by omega)]
  exact congrArg some (fill_front (s := fun i => Rfc5246.a hmac h secret (label ++ seed) (i + 1))
    (fun i => rfl) (fun i => Vector.length_toList) outLen)

/-- Two blocks of the constant function. -/
theorem prf_zeros : tlsPrf (fun _ _ _ => Vector.replicate _ 0) .sha256 [] [97] [] 40 =
    some (Rfc5246.pHash (fun _ _ _ => Vector.replicate _ 0) .sha256 [] [97] 40) :=
  (derivations_agree (fun _ _ _ => Vector.replicate _ 0) .sha256).2.2 [] [97] [] 40 (by decide)

/-- **An output of 256 bytes or more is refused**, though HKDF gives up to 255 blocks. -/
theorem label_refuses_long : ¬ ∀ (hmac : (h : HashAlg) → Bytes → Bytes → Vector UInt8 h.size)
    (h : HashAlg) (secret : Vector UInt8 h.size) (label context : Bytes) (outLen : ℕ),
    label.length ≤ 58 → context.length ≤ 64 → outLen ≤ 255 * h.size →
      tls13ExpandLabel hmac h secret label context outLen = some (Rfc5869.expand hmac h
        secret.toList (Rfc8446.hkdfLabel outLen label context) outLen) := by
  intro hall
  cases hall (fun _ _ _ => Vector.replicate _ 0) .sha256 (Vector.replicate _ 0) [] [] 256
    (by decide) (by decide) (by decide)

end PeakOs.Tls
