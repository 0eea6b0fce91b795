import PeakOs.X509.Extensions

/-!
# Certificate chains

A model of `net/webpki.c`: the walk from a server's certificate to an embedded root.

Signatures are looked up without much care. `cert_tbs_and_sig` bounds the certificate but not the
fields in it, so that a field may reach over the end of the certificate; a certificate is therefore
presented with the bytes that are behind it in memory. `size_t` wraps when more is taken off than is
left.

The signature check proper is a parameter of the walk, an arbitrary relation of a key, the bytes
that are signed, the signature and the algorithm.

The structure that a root is parsed into is not cleared before; what `match_sni` is there has no
bearing on the key, and it is none here.
-/

namespace PeakOs.Webpki

open Tls (Bytes rd8 rd16 slice)
open X509 (CString X509Cert X509Time x509ParseDer x509CertHostnameMatch x509CertTimeValid)

/-- A certificate, and what is behind it in memory. -/
structure Presented where
  der : Bytes
  behind : Bytes

def Presented.memory (c : Presented) : Bytes := c.der ++ c.behind

/-! ### Signatures -/

/-- The length at position `i`, and the position behind it. -/
def lengthAt (m : Bytes) (i : ℕ) : Option (ℕ × ℕ) :=
  let b := rd8 m i
  if b < 0x80 then some (b, i + 1)
  else if b = 0x82 then some (rd16 m (i + 1), i + 3)
  else if b = 0x81 then some (rd8 m (i + 1), i + 2)
  else none

/-- What is left of `rem` bytes after `n`. -/
def left (rem n : ℕ) : ℕ := (rem + 2 ^ 64 - n) % 2 ^ 64

/-- Bytes of sha256WithRSAEncryption; the ones in the middle are not compared. -/
def rsaOid (m : Bytes) (i : ℕ) : Bool :=
  rd8 m i = 0x2a && rd8 m (i + 1) = 0x86 && rd8 m (i + 8) = 0x01 && rd8 m (i + 9) = 0x01 &&
    rd8 m (i + 10) = 0x0b

/-- The bytes of ecdsa-with-SHA256 or, with another last one, ecdsa-with-SHA384. -/
def ecdsaOid (m : Bytes) (last i : ℕ) : Bool :=
  rd8 m i = 0x2a && rd8 m (i + 1) = 0x86 && rd8 m (i + 2) = 0x48 && rd8 m (i + 3) = 0xce &&
    rd8 m (i + 4) = 0x3d && rd8 m (i + 5) = 0x04 && rd8 m (i + 6) = 0x03 && rd8 m (i + 7) = last

/-- `sig_alg_hint`: 1 for RSA with SHA-256, 2 and 3 for ECDSA with SHA-256 and SHA-384. The last
identifier that is found counts. -/
def sigAlgHint (m : Bytes) (i len : ℕ) : ℕ :=
  (List.range (len + 1 - 8)).foldl
    (fun hint k =>
      if ecdsaOid m 0x02 (i + k) then 2 else if ecdsaOid m 0x03 (i + k) then 3 else hint)
    (if (List.range (len + 1 - 11)).any fun k => rsaOid m (i + k) then 1 else 0)

/-- What `cert_tbs_and_sig` finds. -/
structure Signature where
  tbs : Bytes
  sig : Bytes
  hint : ℕ
  deriving DecidableEq

/-- The signature in a BIT STRING at position `p`. -/
def sigBits (m : Bytes) (rem p : ℕ) : Option Bytes :=
  if rem < 2 ∨ rd8 m p ≠ 0x03 then none
  else
    (lengthAt m (p + 1)).bind fun (len, s) =>
      if len < 1 then none else some (slice m (s + 1) (len - 1))

/-- The algorithm and the signature, from position `p` on. -/
def algAndSig (m : Bytes) (rem p : ℕ) : Option (Bytes × ℕ) :=
  if rem < 2 ∨ rd8 m p ≠ 0x30 then none
  else
    (lengthAt m (p + 1)).bind fun (len, a) =>
      (sigBits m (left rem (a - p + len)) (a + len)).map fun sig => (sig, sigAlgHint m a len)

def certTbsAndSig (c : Presented) : Option Signature :=
  let m := c.memory
  if c.der.length < 10 ∨ rd8 m 0 ≠ 0x30 then none
  else
    (lengthAt m 1).bind fun (len, i) =>
      if c.der.length < i + len ∨ rd8 m i ≠ 0x30 then none
      else
        (lengthAt m (i + 1)).bind fun (tl, t) =>
          (algAndSig m (left len (t - i + tl)) (t + tl)).map fun (sig, hint) =>
            ⟨slice m i (t - i + tl), sig, hint⟩

/-! ### The walk -/

/-- `struct rtc_time`. -/
structure RtcTime where
  year : ℕ
  month : ℕ
  day : ℕ
  hour : ℕ
  min : ℕ
  sec : ℕ

def RtcTime.now (t : RtcTime) : X509Time :=
  ⟨if t.year < 100 then 2000 + t.year else t.year, t.month, t.day, t.hour, t.min, t.sec⟩

/-- Why a chain is refused. -/
inductive ChainError
  | count
  | malformed
  | expired
  | hostname
  | signature
  | untrusted
  deriving DecidableEq

/-- A certificate with what the parser found in it. -/
abbrev Parsed := Presented × X509Cert

def Parsed.key (c : Parsed) : Bytes := c.2.spki.bytes c.1.der

/-- The key of a root, if the root can be parsed. -/
def rootKey (r : Bytes) : Option Bytes := (x509ParseDer r none).map fun root => root.spki.bytes r

section Chain

/- The roots, SHA-256, the clock and the signature check. -/
variable (roots : List Bytes) (sha256 : Bytes → Bytes) (clock : Option RtcTime)
  (sigOk : Bytes → Bytes → Bytes → ℕ → Bool)

def timeOk (c : X509Cert) : Bool :=
  match clock with
  | none => false
  | some t => x509CertTimeValid c t.now = some true

def rootMatch (der : Bytes) : Bool := roots.any fun r => r = der || sha256 der = sha256 r

def rootSpkiMatch (key : Bytes) : Bool := key ≠ [] && roots.any fun r => rootKey r = some key

def verifyCertSig (subject : Presented) (key : Bytes) : Bool :=
  match certTbsAndSig subject with
  | none => false
  | some s => sigOk key s.tbs s.sig s.hint

/-- One certificate; only the first is parsed with a host name to look for. -/
def parseCert (sni : Option CString) (c : Presented) : Except ChainError Parsed :=
  match x509ParseDer c.der sni with
  | none => .error .malformed
  | some x => if timeOk clock x then .ok (c, x) else .error .expired

def parseCerts : Option CString → List Presented → Except ChainError (List Parsed)
  | _, [] => .ok []
  | sni, c :: cs =>
    match parseCert clock sni c with
    | .error e => .error e
    | .ok x =>
      match parseCerts none cs with
      | .error e => .error e
      | .ok xs => .ok (x :: xs)

/-- A certificate the walk ends at. -/
def isAnchor (c : Parsed) : Bool := rootMatch roots sha256 c.1.der || rootSpkiMatch roots c.key

/-- The walk from `c` on, with the certificates behind it. -/
def walk (c : Parsed) : List Parsed → Except ChainError Unit
  | [] =>
    if isAnchor roots sha256 c then .ok ()
    else if roots.any fun r => (rootKey r).any (verifyCertSig sigOk c.1) then .ok ()
    else .error .untrusted
  | next :: rest =>
    if isAnchor roots sha256 c then .ok ()
    else if !verifyCertSig sigOk c.1 next.key then .error .signature
    else if next.2.hasBasicConstraints && !next.2.isCa then .error .signature
    else walk next rest

/-- The host name to look for. -/
def sniOf (host : Option CString) : Option CString := host.filter fun h => h.bytes ≠ []

def webpkiVerifyChain (certs : List Presented) (host : Option CString) : Except ChainError Unit :=
  if certs = [] ∨ 8 < certs.length then .error .count
  else
    match parseCerts clock (sniOf host) certs with
    | .error e => .error e
    | .ok [] => .error .count
    | .ok (leaf :: rest) =>
      if x509CertHostnameMatch leaf.2 host ≠ some true then .error .hostname
      else walk roots sha256 sigOk leaf rest

end Chain

end PeakOs.Webpki
