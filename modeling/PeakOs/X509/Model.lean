import Mathlib.Data.List.TakeWhile
import PeakOs.Lib.Frames
import PeakOs.Tls.Messages

/-!
# The certificate parser

A model of `net/x509.c`, and of the comparison of host names in `net/tls_util.c`.

A pointer into the certificate with the bytes left behind it is a `Piece`, a position and a length;
the certificate itself is the list of its bytes. `der_len` compares every length it finds with the
bytes that are left, so what `expect_tag` cuts out of a piece lies inside it. The one byte
that is read without a look at the length, the first of a validity that is empty, decides nothing:
the tag is then asked for again, and refused.

The parser copies what it keeps of the names into arrays of `char`. They are used as C strings
later, and end at their first NUL.
-/

namespace PeakOs.X509

open Tls (Bytes rd8 rd16 slice)

def x509SanMax : ℕ := 8
def x509NameMax : ℕ := 128

/-! ### Strings -/

/-- A C string: no byte of it is the NUL that ends it. -/
structure CString where
  bytes : Bytes
  noNul : (0 : UInt8) ∉ bytes
  deriving DecidableEq

/-- An array of `char` as a string: what stands in front of its first NUL. -/
def cString (bytes : Bytes) : CString where
  bytes := bytes.takeWhile (· ≠ 0)
  noNul h := by simpa using List.mem_takeWhile_imp h

/-- The lower case of a letter of ASCII. -/
def lower (c : UInt8) : UInt8 := if 65 ≤ c ∧ c ≤ 90 then c + 32 else c

def ciEq : Bytes → Bytes → Bool
  | [], [] => true
  | a :: as, b :: bs => lower a = lower b && ciEq as bs
  | _, _ => false

def star : UInt8 := 42
def dot : UInt8 := 46

/-- `strchr(host, '.')`. -/
def fromDot (host : Bytes) : Bytes := host.dropWhile (· ≠ dot)

def tlsHostnameMatchesSni (pattern host : CString) : Bool :=
  if host.bytes = [] then false
  else if pattern.bytes.take 2 = [star, dot] then
    if fromDot host.bytes = [] then false else ciEq (pattern.bytes.drop 1) (fromDot host.bytes)
  else ciEq pattern.bytes host.bytes

/-! ### Elements -/

/-- A pointer, and the number of bytes that are left behind it. -/
structure Piece where
  off : ℕ
  len : ℕ
  deriving DecidableEq

def Piece.bytes (der : Bytes) (s : Piece) : Bytes := slice der s.off s.len

/-- The lengths of the header and of the contents of the element at the front. -/
def derLen (der : Bytes) (s : Piece) : Option (ℕ × ℕ) :=
  let fits (hdr len : ℕ) := if s.len < hdr + len then none else some (hdr, len)
  let b := rd8 der (s.off + 1)
  if s.len < 2 then none
  else if b < 0x80 then fits 2 b
  else if b = 0x81 then if s.len ≤ 2 then none else fits 3 (rd8 der (s.off + 2))
  else if b = 0x82 then if s.len ≤ 3 then none else fits 4 (rd16 der (s.off + 2))
  else none

/-- The contents of the element at the front and what is behind it. -/
def element (der : Bytes) (s : Piece) : Option (Piece × Piece) :=
  (derLen der s).map fun (hdr, len) =>
    (⟨s.off + hdr, len⟩, ⟨s.off + (hdr + len), s.len - (hdr + len)⟩)

def expectTag (der : Bytes) (tag : ℕ) (s : Piece) : Option (Piece × Piece) :=
  if s.len < 2 ∨ rd8 der s.off ≠ tag then none else element der s

def skipTag (der : Bytes) (tag : ℕ) (s : Piece) : Option Piece := (expectTag der tag s).map Prod.snd

/-- The element at the front is `tag`, if there is one. -/
def atTag (der : Bytes) (tag : ℕ) (s : Piece) : Bool := 0 < s.len && rd8 der s.off = tag

/-! ### Times -/

structure X509Time where
  year : ℕ
  month : ℕ
  day : ℕ
  hour : ℕ
  minute : ℕ
  second : ℕ
  deriving DecidableEq

/-- `cmp_time`. -/
def cmpTime (a b : X509Time) : Ordering :=
  (compare a.year b.year).then <| (compare a.month b.month).then <| (compare a.day b.day).then <|
    (compare a.hour b.hour).then <| (compare a.minute b.minute).then <| compare a.second b.second

/-- The value of the two digits at position `i`. -/
def twoDigits (t : Bytes) (i : ℕ) : ℕ := (rd8 t i - 48) * 10 + (rd8 t (i + 1) - 48)

/-- The first `n` characters are digits and a `Z` follows. -/
def digitsZ (t : Bytes) (n : ℕ) : Bool :=
  (t.take n).all (fun c => 48 ≤ c && c ≤ 57) && rd8 t n = 90

/-- The fields behind the year, from position `i` on. -/
def timeFrom (t : Bytes) (year i : ℕ) : Option X509Time :=
  let mon := twoDigits t i
  let day := twoDigits t (i + 2)
  if mon < 1 ∨ 12 < mon ∨ day < 1 ∨ 31 < day then none
  else some ⟨year, mon, day, twoDigits t (i + 4), twoDigits t (i + 6), twoDigits t (i + 8)⟩

def parseTime (t : Bytes) : Option X509Time :=
  if t.length < 13 ∨ 15 < t.length then none
  else if t.length = 13 then
    if !digitsZ t 12 then none
    else timeFrom t (twoDigits t 0 + if 50 ≤ twoDigits t 0 then 1900 else 2000) 2
  else if !digitsZ t 14 then none
  else timeFrom t (twoDigits t 0 * 100 + twoDigits t 2) 4

/-! ### Extensions -/

/-- `struct x509_cert`. -/
structure X509Cert where
  hasValidity : Bool
  notBefore : X509Time
  notAfter : X509Time
  spki : Piece
  /-- The names that are kept. -/
  sans : List Bytes
  sanTotal : ℕ
  matchSni : Option CString
  matchSniHit : Bool
  hasBasicConstraints : Bool
  isCa : Bool
  hasKeyUsage : Bool
  keyUsage : ℕ
  ski : Bytes
  aki : Bytes

/-- The structure before the extensions: cleared, but for the host name to look for, the validity
and the public key. -/
def X509Cert.start (sni : Option CString) (validity : X509Time × X509Time) (spki : Piece) :
    X509Cert where
  hasValidity := true
  notBefore := validity.1
  notAfter := validity.2
  spki := spki
  sans := []
  sanTotal := 0
  matchSni := sni
  matchSniHit := false
  hasBasicConstraints := false
  isCa := false
  hasKeyUsage := false
  keyUsage := 0
  ski := []
  aki := []

/-- There is a host name to look for, and it is this name's. -/
def wanted (sni : Option CString) (name : Bytes) : Bool :=
  match sni with
  | none => false
  | some host => host.bytes ≠ [] && tlsHostnameMatchesSni (cString name) host

def addSan (name : Bytes) (c : X509Cert) : X509Cert :=
  if name = [] ∨ x509NameMax ≤ name.length then c
  else
    { c with
      sanTotal := c.sanTotal + 1
      matchSniHit := c.matchSniHit || wanted c.matchSni name
      sans := if x509SanMax ≤ c.sans.length then c.sans else c.sans ++ [name] }

/-- The name at the front, with its tag, and the ones behind it. -/
def nextName (der : Bytes) (g : Piece) : Option ((ℕ × Piece) × Piece) :=
  (element der g).map fun (v, rest) => ((rd8 der g.off, v), rest)

/-- The loop over the names of a subjectAltName. -/
def addSans (der : Bytes) (gn : Piece) : X509Cert → Option X509Cert :=
  Frames.eachFrame Piece.len (nextName der)
    (fun (tag, v) c => some (if tag = 0x82 then addSan (v.bytes der) c else c)) gn.len gn

/-- The last byte of the identifiers below 2.5.29. -/
def oidBasicConstraints : ℕ := 0x13
def oidKeyUsage : ℕ := 0x0f
def oidSubjectAltName : ℕ := 0x11
def oidSubjectKeyId : ℕ := 0x0e
def oidAuthorityKeyId : ℕ := 0x23

def isOid (der : Bytes) (last : ℕ) (oid : Piece) : Bool :=
  oid.len = 3 && rd8 der oid.off = 0x55 && rd8 der (oid.off + 1) = 0x1d &&
    rd8 der (oid.off + 2) = last

/-- The contents start with a BOOLEAN that is true. -/
def saysCa (der : Bytes) (bc : Piece) : Bool :=
  3 ≤ bc.len && rd8 der bc.off = 0x01 && rd8 der (bc.off + 1) = 0x01 && rd8 der (bc.off + 2) = 0xff

def takeKeyUsage (der : Bytes) (bits : Piece) (c : X509Cert) : X509Cert :=
  if bits.len < 2 then c
  else
    { c with
      hasKeyUsage := true
      keyUsage := if 3 ≤ bits.len then rd16 der (bits.off + 1) else rd8 der (bits.off + 1) }

def takeAuthorityKeyId (der : Bytes) (seq : Piece) (c : X509Cert) : X509Cert :=
  if seq.len < 2 ∨ rd8 der seq.off ≠ 0x80 then c
  else
    match element der seq with
    | none => c
    | some (v, _) => if v.len ≤ 32 then { c with aki := v.bytes der } else c

/-- What `parse_extensions` does with an extension: its identifier and its value. -/
def takeExtension (der : Bytes) : Piece × Piece → X509Cert → Option X509Cert
  | (oid, oct), c =>
    if isOid der oidSubjectAltName oid then
      (expectTag der 0x30 oct).bind fun (gn, _) => addSans der gn c
    else if isOid der oidBasicConstraints oid then
      (expectTag der 0x30 oct).map fun (bc, _) =>
        { c with hasBasicConstraints := true, isCa := saysCa der bc }
    else if isOid der oidKeyUsage oid then
      (expectTag der 0x03 oct).map fun (bits, _) => takeKeyUsage der bits c
    else if isOid der oidSubjectKeyId oid then
      (expectTag der 0x04 oct).map fun (ki, _) =>
        if ki.len ≤ 32 then { c with ski := ki.bytes der } else c
    else if isOid der oidAuthorityKeyId oid then
      (expectTag der 0x30 oct).map fun (seq, _) => takeAuthorityKeyId der seq c
    else some c

/-- The identifier and the value of an extension; between them there may be a BOOLEAN. -/
def extension (der : Bytes) (seq : Piece) : Option (Piece × Piece) :=
  (expectTag der 0x06 seq).bind fun (oid, q) =>
    (if atTag der 0x01 q then skipTag der 0x01 q else some q).bind fun q =>
      (expectTag der 0x04 q).map fun (oct, _) => (oid, oct)

/-- The extension at the front, and the ones behind it. -/
def nextExtension (der : Bytes) (p : Piece) : Option ((Piece × Piece) × Piece) :=
  (expectTag der 0x30 p).bind fun (seq, p) => (extension der seq).map fun x => (x, p)

def parseExtensions (der : Bytes) (exts : Piece) (c : X509Cert) : Option X509Cert :=
  Frames.eachFrame Piece.len (nextExtension der) (takeExtension der) exts.len exts c

/-! ### Certificates -/

/-- The certificate's TBSCertificate, with its header and without. -/
def tbsOf (der : Bytes) : Option (Piece × Piece) :=
  (expectTag der 0x30 ⟨0, der.length⟩).bind fun (cert, _) =>
    (expectTag der 0x30 cert).map fun (tbs, rest) => (⟨cert.off, rest.off - cert.off⟩, tbs)

/-- One of the two times of a validity. -/
def timeElement (der : Bytes) (v : Piece) : Option (Piece × Piece) :=
  if rd8 der v.off = 0x17 then expectTag der 0x17 v else expectTag der 0x18 v

def parseValidity (der : Bytes) (val : Piece) : Option (X509Time × X509Time) :=
  (timeElement der val).bind fun (t₀, v) =>
    (timeElement der v).bind fun (t₁, _) =>
      (parseTime (t₀.bytes der)).bind fun notBefore =>
        (parseTime (t₁.bytes der)).map fun notAfter => (notBefore, notAfter)

/-- The fields in front of the public key: the validity, and what is behind the subject. -/
def fieldsBefore (der : Bytes) (tbs : Piece) : Option ((X509Time × X509Time) × Piece) :=
  (if atTag der 0xa0 tbs then skipTag der 0xa0 tbs else some tbs).bind fun q =>
    (skipTag der 0x02 q).bind fun q =>
      (skipTag der 0x30 q).bind fun q =>
        (skipTag der 0x30 q).bind fun q =>
          (expectTag der 0x30 q).bind fun (val, q) =>
            (parseValidity der val).bind fun times =>
              (skipTag der 0x30 q).map fun q => (times, q)

/-- The loop over the unique identifiers. -/
def skipIds (der : Bytes) : ℕ → Piece → Option Piece
  | 0, q => some q
  | k + 1, q =>
    if atTag der 0xa1 q || atTag der 0xa2 q then
      (skipTag der (rd8 der q.off) q).bind (skipIds der k)
    else some q

/-- The extensions behind the public key. -/
def extensionsOf (der : Bytes) (q : Piece) : Option (Option Piece) :=
  (skipIds der q.len q).bind fun q =>
    if atTag der 0xa3 q then
      (expectTag der 0xa3 q).bind fun (ex, _) =>
        (expectTag der 0x30 ex).map fun (seq, _) => some seq
    else some none

/-- The public key with its header, and what is behind it. -/
def spkiOf (der : Bytes) (q : Piece) : Option (Piece × Piece) :=
  (skipTag der 0x30 q).map fun rest => (⟨q.off, rest.off - q.off⟩, rest)

def x509ParseDer (der : Bytes) (sni : Option CString) : Option X509Cert :=
  if der.length < 64 then none
  else
    (tbsOf der).bind fun (_, tbs) =>
      (fieldsBefore der tbs).bind fun (validity, q) =>
        (spkiOf der q).bind fun (spki, q) =>
          (extensionsOf der q).bind fun
            | none => some (X509Cert.start sni validity spki)
            | some exts => parseExtensions der exts (X509Cert.start sni validity spki)

/-- `x509_cert_hostname_match`: a match, a mismatch, or no name to compare with. -/
def x509CertHostnameMatch (c : X509Cert) (sni : Option CString) : Option Bool :=
  match sni with
  | none => none
  | some sni =>
    if sni.bytes = [] then none
    else if c.matchSni = some sni && c.matchSniHit then some true
    else if c.sans = [] then if 0 < c.sanTotal then some false else none
    else if c.sans.any fun name => tlsHostnameMatchesSni (cString name) sni then some true
    else if c.sans.length < c.sanTotal && (c.matchSni.map CString.bytes).getD [] = [] then none
    else some false

def x509CertTimeValid (c : X509Cert) (now : X509Time) : Option Bool :=
  if !c.hasValidity then none
  else some (cmpTime now c.notBefore ≠ .lt && cmpTime now c.notAfter ≠ .gt)

end PeakOs.X509
