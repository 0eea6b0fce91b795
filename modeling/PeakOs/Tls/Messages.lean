import Mathlib.Data.List.Basic
import Mathlib.Tactic.Ring

/-!
# The messages of a TLS handshake

What `net/tls_handshake.c` and `net/tls13.c` read out of the handshake messages a server sends:
the ServerHello with its extensions, the leaf of a Certificate, the parameters and the signature of
a ServerKeyExchange or a CertificateVerify, and the public key the signature is checked against.

A message is the whole handshake message, header included. Every parser compares the length it
finds in the message with the bytes there are before it reads them, so that reading past the end
(where `rd8` gives `0`) never decides anything.

The cryptographic functions are the fields of `Crypto`, with no law assumed of them.
-/

namespace PeakOs.Tls

abbrev Bytes := List UInt8

def zeros (n : ℕ) : Bytes := List.replicate n 0

def rd8 (m : Bytes) (i : ℕ) : ℕ := (m.getD i 0).toNat

def rd16 (m : Bytes) (i : ℕ) : ℕ := rd8 m i * 256 + rd8 m (i + 1)

def rd24 (m : Bytes) (i : ℕ) : ℕ := rd8 m i * 65536 + rd8 m (i + 1) * 256 + rd8 m (i + 2)

def wr16 (v : ℕ) : Bytes := [UInt8.ofNat (v / 256), UInt8.ofNat v]

def wr24 (v : ℕ) : Bytes := [UInt8.ofNat (v / 65536), UInt8.ofNat (v / 256), UInt8.ofNat v]

/-- `n` bytes from position `i` on. -/
def slice (m : Bytes) (i n : ℕ) : Bytes := (m.drop i).take n

/-! ### Constants of `tls_internal.h` -/

def contentCcs : ℕ := 20
def contentAlert : ℕ := 21
def contentHs : ℕ := 22

def hsServerHello : ℕ := 2
def hsNewSessionTicket : ℕ := 4
def hsEncryptedExt : ℕ := 8
def hsCertificate : ℕ := 11
def hsServerKeyEx : ℕ := 12
def hsServerHelloDone : ℕ := 14
def hsCertVerify : ℕ := 15
def hsClientKeyEx : ℕ := 16
def hsFinished : ℕ := 20

def isChacha (cs : ℕ) : Bool := cs = 0xCCA8 || cs = 0xCCA9
def isAes128Gcm (cs : ℕ) : Bool := cs = 0xC02F || cs = 0xC02B
def isAes256Gcm (cs : ℕ) : Bool := cs = 0xC030 || cs = 0xC02C

/-- The suites of TLS 1.3: AES-128-GCM, AES-256-GCM and ChaCha20. -/
def isTls13Suite (cs : ℕ) : Bool := cs = 0x1301 || cs = 0x1302 || cs = 0x1303

inductive Cipher
  | aes128Gcm
  | chacha20
  | aes256Gcm
  deriving DecidableEq

inductive HashAlg
  | sha256
  | sha384
  deriving DecidableEq

def HashAlg.size : HashAlg → ℕ
  | .sha256 => 32
  | .sha384 => 48

/-- The primitives of `crypto.h`, as arbitrary functions. -/
structure Crypto where
  hash : HashAlg → Bytes → Bytes
  /-- Key, then message. -/
  hmac : HashAlg → Bytes → Bytes → Bytes
  /-- HKDF-Extract: salt, then input keying material. -/
  extract : HashAlg → Bytes → Bytes → Bytes
  /-- HKDF-Expand-Label: secret, label, context and length. -/
  expandLabel : HashAlg → Bytes → String → Bytes → ℕ → Bytes
  /-- The function of TLS 1.2: secret, label, seed and length. -/
  prf : HashAlg → Bytes → String → Bytes → ℕ → Bytes
  x25519Base : Bytes → Bytes
  x25519 : Bytes → Bytes → Bytes
  p256Ecdh : Bytes → Bytes → Option Bytes
  /-- Signature, public key, digest. -/
  p256EcdsaVerify : Bytes → Bytes → Bytes → Bool
  p384EcdsaVerify : Bytes → Bytes → Bytes → Bool
  /-- Modulus, exponent, digest, signature, and whether the padding is PSS. -/
  rsaVerify : Bytes → ℕ → Bytes → Bytes → Bool → Bool

/-! ### ServerHello -/

structure ServerHello where
  random : Bytes
  suite : ℕ
  useEms : Bool
  tls13 : Bool
  /-- The last X25519 key share, 32 bytes. -/
  share : Option Bytes

/-- One extension of the ServerHello. (The one that selects an application protocol is not
modelled: nothing in the handshake depends on it.) -/
def ServerHello.extension (h : ServerHello) (et : ℕ) (data : Bytes) : ServerHello :=
  if et = 0x0017 then { h with useEms := true }
  else if et = 0x002b ∧ 2 ≤ data.length ∧ rd16 data 0 = 0x0304 then { h with tls13 := true }
  else if et = 0x0033 ∧ 36 ≤ data.length ∧ rd16 data 0 = 0x001d ∧ rd16 data 2 = 32 then
    { h with share := some (slice data 4 32) }
  else h

/-- The extensions one after the other, up to one that does not fit. -/
def ServerHello.extensions : ℕ → Bytes → ServerHello → ServerHello
  | 0, _, h => h
  | fuel + 1, exts, h =>
    if exts.length < 4 then h
    else if exts.length < 4 + rd16 exts 2 then h
    else extensions fuel (exts.drop (4 + rd16 exts 2))
      (h.extension (rd16 exts 0) (slice exts 4 (rd16 exts 2)))

/-- The extension block at position `p` of a message that ends at `stop`; a block that claims to be
longer than the message is cut off. -/
def extensionBlock (m : Bytes) (p stop : ℕ) : Bytes :=
  if p + 2 ≤ stop then slice m (p + 2) (min (rd16 m p) (stop - (p + 2))) else []

def parseServerHello (m : Bytes) : Option ServerHello :=
  let stop := 4 + rd24 m 1
  if m.length < 40 ∨ rd8 m 0 ≠ hsServerHello ∨ m.length < stop then none
  else if stop < 6 ∨ rd8 m 4 ≠ 3 ∨ rd8 m 5 ≠ 3 ∨ stop < 38 ∨ stop ≤ 38 then none
  else
    let p := 39 + rd8 m 38
    if stop < p + 3 then none
    else
      let cs := rd16 m p
      if !isTls13Suite cs && !isAes128Gcm cs && !isAes256Gcm cs && !isChacha cs then none
      else
        let exts := extensionBlock m (p + 3) stop
        let h := ServerHello.extensions exts.length exts
          { random := slice m 6 32, suite := cs, useEms := false, tls13 := false, share := none }
        if h.tls13 && !(h.share.isSome && isTls13Suite cs) then none
        else if !h.tls13 && isTls13Suite cs then none
        else some h

/-! ### Certificate -/

def leafCap : ℕ := 3072

/-- The leaf of a TLS 1.2 Certificate message. -/
def saveLeafFromCert (m : Bytes) : Option Bytes :=
  if m.length < 10 ∨ rd8 m 0 ≠ hsCertificate ∨ m.length < 7 + rd24 m 4 then none
  else if m.length < 10 + rd24 m 7 ∨ leafCap < rd24 m 7 then none
  else some (slice m 10 (rd24 m 7))

/-- The entries of a TLS 1.3 certificate list, rewritten without their extensions; at most eight of
them, and the first is the leaf. -/
def legacyEntries : ℕ → Bytes → Bytes → Option Bytes → Option (Bytes × Option Bytes)
  | 0, _, out, leaf => some (out, leaf)
  | n + 1, list, out, leaf =>
    if list.length < 3 then some (out, leaf)
    else
      let certLen := rd24 list 0
      let extAt := 3 + certLen
      if list.length < extAt + 2 ∨ 12288 < 7 + out.length + 3 + certLen then none
      else if leaf.isNone && leafCap < certLen then none
      else if list.length < extAt + 2 + rd16 list extAt then none
      else
        let cert := slice list 3 certLen
        legacyEntries n (list.drop (extAt + 2 + rd16 list extAt)) (out ++ wr24 certLen ++ cert)
          (some (leaf.getD cert))

/-- A TLS 1.3 Certificate message in the shape of a TLS 1.2 one, and its leaf. -/
def tls13CertToLegacy (m : Bytes) : Option (Bytes × Bytes) :=
  let stop := 4 + rd24 m 1
  if m.length < 8 ∨ rd8 m 0 ≠ hsCertificate ∨ m.length < stop ∨ stop ≤ 4 then none
  else
    let p := 5 + rd8 m 4
    if stop < p + 3 then none
    else if stop < p + 3 + rd24 m p ∨ rd24 m p < 3 then none
    else
      match legacyEntries 8 (slice m (p + 3) (rd24 m p)) [] none with
      | some (out, some leaf) =>
        if leaf = [] then none
        else some (UInt8.ofNat hsCertificate :: (wr24 (3 + out.length) ++ wr24 out.length ++ out),
          leaf)
      | _ => none

/-! ### Public keys -/

/-- The first position with a property, and the `n` bytes behind it. -/
def bytesBehind (leaf : Bytes) (n : ℕ) (at_ : ℕ → Bool) : Option Bytes :=
  ((List.range (leaf.length - n)).find? at_).map fun i => slice leaf (i + 1) n

/-- A point in a BIT STRING of the given length: the length, no unused bits, and `04` in front of
the coordinates. -/
def bitStringPoint (leaf : Bytes) (len i : ℕ) : Bool :=
  2 ≤ i && rd8 leaf i = 0x04 && rd8 leaf (i - 1) = 0x00 && rd8 leaf (i - 2) = len

/-- The P-256 key of a leaf. Without a BIT STRING of the right length any `04` is taken that has
non-zero bytes behind it; `skipP384` leaves out one that looks like a P-384 key. -/
def leafP256PubWith (skipP384 : Bool) (leaf : Bytes) : Option Bytes :=
  (bytesBehind leaf 64 (bitStringPoint leaf 0x42)).or
    (bytesBehind leaf 64 fun i => rd8 leaf i = 0x04 &&
      !(skipP384 && 2 ≤ i && rd8 leaf (i - 2) = 0x61) && (slice leaf (i + 1) 64).any (· ≠ 0))

/-- The one of `tls_handshake.c`. -/
def leafP256Pub : Bytes → Option Bytes := leafP256PubWith true

/-- The one of `tls13.c`. -/
def leafP256Pub13 : Bytes → Option Bytes := leafP256PubWith false

def leafP384Pub (leaf : Bytes) : Option Bytes :=
  if leaf.length < 100 then none else bytesBehind leaf 96 (bitStringPoint leaf 0x61)

def leafIsP384 (leaf : Bytes) : Bool := (leafP384Pub leaf).isSome

/-! ### RSA keys -/

def rsaMaxBytes : ℕ := 512

/-- The identifier of RSA keys, with its header. -/
def rsaEncryption : Bytes :=
  [0x06, 0x09, 0x2a, 0x86, 0x48, 0x86, 0xf7, 0x0d, 0x01, 0x01, 0x01]

/-- A length at position `i`, and the position behind it. -/
def boundedLength (m : Bytes) (i : ℕ) : Option (ℕ × ℕ) :=
  let lb := rd8 m i
  if lb < 0x80 then some (lb, i + 1)
  else if lb = 0x81 then if m.length ≤ i + 1 then none else some (rd8 m (i + 1), i + 2)
  else if lb = 0x82 then if m.length ≤ i + 2 then none else some (rd16 m (i + 1), i + 3)
  else none

/-- A number without the zeros in front of it; one byte stays. -/
def stripZeros : Bytes → Bytes
  | 0 :: b :: rest => stripZeros (b :: rest)
  | v => v

/-- An INTEGER of at most `cap` bytes at position `off`, and the position behind it. -/
def derGetInt (der : Bytes) (cap off : ℕ) : Option (Bytes × ℕ) :=
  if der.length ≤ off ∨ rd8 der off ≠ 0x02 ∨ der.length ≤ off + 1 then none
  else
    (boundedLength der (off + 1)).bind fun (len, p) =>
      if der.length < p + len ∨ len = 0 then none
      else
        let v := stripZeros (slice der p len)
        if cap < v.length then none else some (v, p + len)

/-- The exponent, in 32 bits. -/
def exponent32 (v : Bytes) : ℕ := v.foldl (fun e b => (e * 256 + b.toNat) % 2 ^ 32) 0

/-- Where the modulus begins: behind the header of the SEQUENCE at position `i`. -/
def modulusAt (leaf : Bytes) (i : ℕ) : Option ℕ :=
  let lb := rd8 leaf (i + 1)
  if rd8 leaf i ≠ 0x30 then none
  else if lb < 0x80 then some (i + 2)
  else if 2 < lb - 0x80 ∨ leaf.length < i + 2 + (lb - 0x80) then none
  else some (i + 2 + (lb - 0x80))

/-- The modulus and the exponent from position `off` on. -/
def rsaNumbers (leaf : Bytes) (off : ℕ) : Option (Bytes × ℕ) :=
  (derGetInt leaf rsaMaxBytes off).bind fun (n, off) =>
    (derGetInt leaf 8 off).bind fun (ebuf, _) =>
      let e := exponent32 ebuf
      if e ≠ 3 ∧ e ≠ 65537 then none else some (n, e)

/-- The key in the BIT STRING behind the identifier at position `o`. -/
def rsaKeyAt (leaf : Bytes) (o : ℕ) : Option (Bytes × ℕ) :=
  let i := o + 11
  let i := if i + 2 ≤ leaf.length ∧ rd8 leaf i = 0x05 ∧ rd8 leaf (i + 1) = 0x00 then i + 2 else i
  if leaf.length ≤ i ∨ rd8 leaf i ≠ 0x03 then none
  else
    (boundedLength leaf (i + 1)).bind fun (len, i) =>
      if leaf.length < i + len ∨ len < 3 ∨ rd8 leaf i ≠ 0x00 then none
      else (modulusAt leaf (i + 1)).bind (rsaNumbers leaf)

/-- The identifier is at position `i`. -/
def rsaOidAt (leaf : Bytes) (i : ℕ) : Bool := slice leaf i 11 = rsaEncryption

def leafRsaPub (leaf : Bytes) : Option (Bytes × ℕ) :=
  if leaf.length < 11 + 16 then none
  else ((List.range (leaf.length + 1 - 11)).find? (rsaOidAt leaf)).bind (rsaKeyAt leaf)

/-- `rsa_verify_sha256`. -/
def rsaVerifySha256 (C : Crypto) (leaf digest sig : Bytes) (pss : Bool) : Bool :=
  match leafRsaPub leaf with
  | none => false
  | some (n, e) => 64 ≤ n.length && sig.length = n.length && C.rsaVerify n e digest sig pss

/-! ### Signatures -/

/-- A DER integer at position `off`, in `width` bytes, and the position behind it. -/
def derInteger (width : ℕ) (der : Bytes) (off : ℕ) : Option (Bytes × ℕ) :=
  if der.length ≤ off + 1 ∨ rd8 der off ≠ 0x02 then none
  else
    let ilen := rd8 der (off + 1)
    if der.length < off + 2 + ilen ∨ ilen = 0 ∨ width + 1 < ilen then none
    else
      let v := (slice der (off + 2) ilen).dropWhile (· = 0)
      if width < v.length then none else some (zeros (width - v.length) ++ v, off + 2 + ilen)

def derIntegers (width : ℕ) (der : Bytes) (off : ℕ) : Option Bytes :=
  (derInteger width der off).bind fun (r, off) =>
    (derInteger width der off).map fun (s, _) => r ++ s

/-- A DER signature in raw form; `tls_handshake.c` has one for 32 and one for 48 bytes. -/
def derEcdsaSigToRaw (width : ℕ) (der : Bytes) : Option Bytes :=
  if der.length < 8 ∨ rd8 der 0 ≠ 0x30 then none
  else if rd8 der 1 < 0x80 then derIntegers width der 2
  else
    let nbytes := rd8 der 1 - 0x80
    if nbytes = 0 ∨ 2 < nbytes ∨ der.length < 2 + nbytes then none
    else derIntegers width der (2 + nbytes)

/-- The one of `tls13.c`, which has no long form of the length. -/
def derEcdsaSigToRaw13 (der : Bytes) : Option Bytes :=
  if der.length < 8 ∨ rd8 der 0 ≠ 0x30 ∨ 0x80 ≤ rd8 der 1 then none else derIntegers 32 der 2

/-! ### ServerKeyExchange -/

structure Ske where
  curve : ℕ
  peerPub : Bytes
  /-- The bytes under the signature, behind the two randoms. -/
  params : Bytes
  hashAlg : ℕ
  sigAlg : ℕ
  sig : Bytes

/-- The public value at position 8: an X25519 key or an uncompressed P-256 point. -/
def skePoint (m : Bytes) (stop : ℕ) : Option (ℕ × Bytes) :=
  if rd16 m 5 = 0x001d then
    if rd8 m 7 ≠ 32 ∨ stop < 8 + 32 then none else some (0x001d, slice m 8 32)
  else if rd16 m 5 = 0x0017 then
    if rd8 m 7 ≠ 65 ∨ stop < 8 + 65 ∨ rd8 m 8 ≠ 0x04 then none else some (0x0017, slice m 8 65)
  else none

/-- The part of `parse_server_key_exchange` in front of the check of the signature. -/
def skeFields (m : Bytes) : Option Ske :=
  let stop := 4 + rd24 m 1
  if m.length < 4 ∨ rd8 m 0 ≠ hsServerKeyEx ∨ m.length < stop ∨ stop < 8 ∨ rd8 m 4 ≠ 3 then none
  else
    match skePoint m stop with
    | none => none
    | some (curve, pub) =>
      let p := 8 + pub.length
      if stop < p + 4 ∨ stop < p + 4 + rd16 m (p + 2) ∨ rd16 m (p + 2) = 0 then none
      else some { curve, peerPub := pub, params := slice m 4 (4 + pub.length),
                  hashAlg := rd8 m p, sigAlg := rd8 m (p + 1),
                  sig := slice m (p + 4) (rd16 m (p + 2)) }

/-- The ECDSA check of a ServerKeyExchange over the signed bytes. -/
def verifySkeEcdsa (C : Crypto) (leaf signed sigDer : Bytes) (h : HashAlg) : Bool :=
  if leafIsP384 leaf then
    match leafP384Pub leaf, derEcdsaSigToRaw 48 sigDer with
    | some pub, some raw => C.p384EcdsaVerify raw pub (C.hash h signed)
    | _, _ => false
  else
    match leafP256Pub leaf, derEcdsaSigToRaw 32 sigDer with
    | some pub, some raw => C.p256EcdsaVerify raw pub (C.hash h signed)
    | _, _ => false

/-- The check of the signature: ECDSA with either hash, RSA-PSS or RSA with SHA-256. -/
def verifySke (C : Crypto) (leaf clientRandom serverRandom : Bytes) (k : Ske) : Bool :=
  let signed := clientRandom ++ serverRandom ++ k.params
  if 256 < k.params.length then false
  else if (k.hashAlg = 4 ∨ k.hashAlg = 5) ∧ k.sigAlg = 3 then
    verifySkeEcdsa C leaf signed k.sig (if k.hashAlg = 5 then .sha384 else .sha256)
  else if (k.hashAlg = 8 ∧ k.sigAlg = 4) ∨ (k.hashAlg = 4 ∧ k.sigAlg = 1) then
    leaf ≠ [] && rsaVerifySha256 C leaf (C.hash .sha256 signed) k.sig (k.hashAlg = 8)
  else false

def parseServerKeyExchange (C : Crypto) (leaf clientRandom serverRandom m : Bytes) : Option Ske :=
  match skeFields m with
  | some k => if verifySke C leaf clientRandom serverRandom k then some k else none
  | none => none

/-- The parameters of a named curve as a ServerKeyExchange carries them. -/
def curveParams (curve : ℕ) (pub : Bytes) : Bytes :=
  3 :: (wr16 curve ++ UInt8.ofNat pub.length :: pub)

end PeakOs.Tls
