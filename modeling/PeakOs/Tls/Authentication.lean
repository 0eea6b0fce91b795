import PeakOs.Tls.Connect
import PeakOs.Tls.KeySchedule
import PeakOs.X509.LeafKeys

/-!
# Who signed the key exchange

A connection that is up should have taken its keys from values that the owner of the accepted
certificate has signed: the parameters of the ServerKeyExchange with both randoms, or the
transcript of TLS 1.3. The log of a session has the certificates that were accepted and the messages
whose signature passed; `Checked` says what passing means, in terms of the functions of the
cryptographic library and of a key. That this key is the one in the SubjectPublicKeyInfo is another
matter, since it is searched for in the bytes of the certificate: it is where `PubKey.Plain` holds.

In TLS 1.3 the rest is so in whatever order the messages come: the leaf is a local of the handshake,
and it is there only after its chain was accepted. In TLS 1.2 it depends on the order, which
nothing checks. A ServerKeyExchange in front of the Certificate is checked with the leaf an earlier
connection left behind, even one whose chain was refused; and a ServerHello behind the
ServerKeyExchange replaces the server's random after it was signed.

## Main results

* `verifySke_checked`, `verifyCertVerify_checked` — what the two checks of a signature amount to
* `covered_of_tls13` — the order does not matter in TLS 1.3
* `authenticated_of_inOrder` — in TLS 1.2 it is enough that no ServerKeyExchange comes before a
  Certificate and no ServerHello after a ServerKeyExchange; in both, that no other key is in the way
* `stale_leaf_accepted` — a peer that can use neither the accepted certificate nor its key
-/

namespace PeakOs.Tls

open List

open X509 (x509ParseDer certifiedPoint certifiedRsa PlainP256 PlainP384 PlainRsa p256Leaf)

variable {τ : Type}

/-! ### Signatures -/

/-- A key as it is taken from a certificate. -/
inductive PubKey
  | p256 (point : Bytes)
  | p384 (point : Bytes)
  | rsa (modulus : Bytes) (exponent : ℕ)
  deriving DecidableEq

/-- The key that `verify_ske` takes. -/
def skeKey (leaf : Bytes) (k : Ske) : Option PubKey :=
  if (k.hashAlg = 4 ∨ k.hashAlg = 5) ∧ k.sigAlg = 3 then
    if leafIsP384 leaf then (leafP384Pub leaf).map .p384 else (leafP256Pub leaf).map .p256
  else (leafRsaPub leaf).map fun (n, e) => .rsa n e

/-- The key with which the signature of a ServerKeyExchange or a CertificateVerify is checked. -/
def signingKey (leaf m : Bytes) : Option PubKey :=
  if rd8 m 0 = hsServerKeyEx then (skeFields m).bind (skeKey leaf)
  else if rd16 m 4 = 0x0403 then (leafP256Pub13 leaf).map .p256
  else (leafRsaPub leaf).map fun (n, e) => .rsa n e

def signatureOf (m : Bytes) : Bytes :=
  if rd8 m 0 = hsServerKeyEx then ((skeFields m).map Ske.sig).getD [] else slice m 8 (rd16 m 6)

/-- A function of the library has accepted the signature of `signed` with the key. -/
def PubKey.Accepts (C : Crypto) (signed sig : Bytes) : PubKey → Prop
  | .p256 pub => ∃ h raw, (derEcdsaSigToRaw 32 sig = some raw ∨ derEcdsaSigToRaw13 sig = some raw) ∧
      C.p256EcdsaVerify raw pub (C.hash h signed) = true
  | .p384 pub => ∃ h raw, derEcdsaSigToRaw 48 sig = some raw ∧
      C.p384EcdsaVerify raw pub (C.hash h signed) = true
  | .rsa n e => ∃ pss, C.rsaVerify n e (C.hash .sha256 signed) sig pss = true

/-- The bytes under a signature. -/
def Signed.bytes (C : Crypto) : Signed → Bytes
  | .keyExchange clientRandom serverRandom params => clientRandom ++ serverRandom ++ params
  | .transcript h messages => certVerifyContext ++ C.hash h messages

/-- The signature in `m` has passed, with a key taken from `leaf`. -/
def Checked (C : Crypto) (leaf m : Bytes) (content : Signed) : Prop :=
  ∃ key, signingKey leaf m = some key ∧ key.Accepts C (content.bytes C) (signatureOf m)

/-- The key is the one of the SubjectPublicKeyInfo. -/
def PubKey.CertifiedIn (leaf : Bytes) (key : PubKey) : Prop :=
  ∃ sni c, x509ParseDer leaf sni = some c ∧
    match key with
    | .p256 pub => certifiedPoint 64 leaf c.spki = some pub
    | .p384 pub => certifiedPoint 96 leaf c.spki = some pub
    | .rsa n e => certifiedRsa leaf c.spki = some (n, e)

/-- A certificate in which the key is not taken from the wrong place. -/
def PubKey.Plain (leaf : Bytes) (key : PubKey) : Prop :=
  ∃ sni c, x509ParseDer leaf sni = some c ∧
    match key with
    | .p256 _ => PlainP256 leaf c.spki
    | .p384 _ => PlainP384 leaf
    | .rsa _ _ => PlainRsa leaf c.spki

/-- A signature over `content` fixes the values the keys come from. -/
def KeyExchange.CoveredBy : KeyExchange → Signed → Prop
  | .tls12 clientRandom serverRandom curve pub, .keyExchange clientRandom' serverRandom' params =>
    clientRandom' = clientRandom ∧ serverRandom' = serverRandom ∧ params = curveParams curve pub
  | .tls13 hellos, .transcript _ messages => hellos <+: messages
  | _, _ => False

/-- Keys were derived, and whatever they came from was covered by a signature that passed, with the
public key of the leaf of a certificate message accepted for the host, all since the handshake
began. -/
def Authenticated (C : Crypto) (host : String) (s : Session τ) : Prop :=
  (∃ k, .keyed k ∈ s.events) ∧ ∀ k, .keyed k ∈ s.events →
    ∃ leaf m content key, .accepted host leaf ∈ s.events ∧ .verified leaf m content ∈ s.events ∧
      k.CoveredBy content ∧ signingKey leaf m = some key ∧ key.CertifiedIn leaf ∧
      key.Accepts C (content.bytes C) (signatureOf m)

/-- The same of the log alone: who signed is left open. -/
def Covered (host : String) (s : Session τ) : Prop :=
  (∃ k, .keyed k ∈ s.events) ∧ ∀ k, .keyed k ∈ s.events →
    ∃ leaf m content, .accepted host leaf ∈ s.events ∧ .verified leaf m content ∈ s.events ∧
      k.CoveredBy content

/-- Every signature in the log has passed. -/
def AllChecked (C : Crypto) (events : List Event) : Prop :=
  ∀ leaf m content, .verified leaf m content ∈ events → Checked C leaf m content

/-- No signature was checked with a key from the wrong place. -/
def PlainLeaves (s : Session τ) : Prop :=
  ∀ leaf m content, .verified leaf m content ∈ s.events →
    ∀ key, signingKey leaf m = some key → key.Plain leaf

/-- One of the functions that look for a key has found this one. -/
def PubKey.TakenFrom (leaf : Bytes) : PubKey → Prop
  | .p256 pub => ∃ skipP384, leafP256PubWith skipP384 leaf = some pub
  | .p384 pub => leafP384Pub leaf = some pub
  | .rsa n e => leafRsaPub leaf = some (n, e)

/-- The key comes from a search in the certificate. -/
theorem takenFrom_of_signingKey {leaf m : Bytes} {key : PubKey}
    (h : signingKey leaf m = some key) : key.TakenFrom leaf := by
  have hrsa : (leafRsaPub leaf).map (fun (n, e) => PubKey.rsa n e) = some key →
      key.TakenFrom leaf := by
    intro h
    obtain ⟨⟨n, e⟩, hkey, rfl⟩ := Option.map_eq_some_iff.1 h
    exact hkey
  rw [signingKey] at h
  split at h
  · obtain ⟨k, -, h⟩ := Option.bind_eq_some_iff.1 h
    rw [skeKey] at h
    split at h
    · split at h
      all_goals obtain ⟨pub, hkey, rfl⟩ := Option.map_eq_some_iff.1 h
      · exact hkey
      · exact ⟨true, hkey⟩
    · exact hrsa h
  split at h
  · obtain ⟨pub, hkey, rfl⟩ := Option.map_eq_some_iff.1 h
    exact ⟨false, hkey⟩
  · exact hrsa h

/-- A key from the right place is the certified one. -/
theorem PubKey.Plain.certifiedIn {leaf : Bytes} {key : PubKey} (h : key.Plain leaf)
    (hkey : key.TakenFrom leaf) : key.CertifiedIn leaf := by
  obtain ⟨sni, c, hc, hplain⟩ := h
  have hspki := (X509.certSpki_bounds (X509.certSpki_of_x509ParseDer hc)).1
  refine ⟨sni, c, hc, ?_⟩
  cases key with
  | p256 pub =>
    obtain ⟨skipP384, hkey⟩ := hkey
    exact X509.p256_certified hspki hplain skipP384 pub hkey
  | p384 pub => exact X509.p384_certified hplain pub hkey
  | rsa n e => exact X509.rsa_certified hspki hplain (n, e) hkey

/-- What was checked, with a key that the search takes from the right place, authenticates. -/
theorem Covered.authenticated {C : Crypto} {host : String} {s : Session τ}
    (h : Covered host s ∧ AllChecked C s.events) (hplain : PlainLeaves s) :
    Authenticated C host s := by
  obtain ⟨⟨hkeyed, hall⟩, hchecked⟩ := h
  refine ⟨hkeyed, fun k hk => ?_⟩
  obtain ⟨leaf, m, content, hacc, hver, hcov⟩ := hall k hk
  obtain ⟨key, hkey, haccepts⟩ := hchecked leaf m content hver
  exact ⟨leaf, m, content, key, hacc, hver, hcov, hkey,
    (hplain leaf m content hver key hkey).certifiedIn (takenFrom_of_signingKey hkey), haccepts⟩

/-- In a list of messages, a Certificate comes before every ServerKeyExchange, and no
ServerKeyExchange before a ServerHello. -/
def InOrder (ms : List Bytes) : Prop :=
  ∀ pre m post, ms = pre ++ m :: post →
    (rd8 m 0 = hsServerKeyEx → ∃ x ∈ pre, rd8 x 0 = hsCertificate) ∧
      (rd8 m 0 = hsServerHello → ∀ x ∈ pre, rd8 x 0 ≠ hsServerKeyEx)

theorem inOrder_nil : InOrder [] := by
  intro pre m post h
  cases pre <;> cases h

variable {ms : List Bytes} {m leaf : Bytes} {i n cs : ℕ} {k : Ske} {rs rest : List Recv}
    {a : Attempt}

theorem inOrder_append_singleton : InOrder (ms ++ [m]) ↔ InOrder ms ∧
      (rd8 m 0 = hsServerKeyEx → ∃ x ∈ ms, rd8 x 0 = hsCertificate) ∧
      (rd8 m 0 = hsServerHello → ∀ x ∈ ms, rd8 x 0 ≠ hsServerKeyEx) := by
  constructor
  · intro h
    refine ⟨fun pre x post hx => ?_, h ms m [] rfl⟩
    exact h pre x (post ++ [m]) (by rw [hx, append_assoc, cons_append])
  rintro ⟨hms, hm⟩ pre x post hx
  rcases eq_nil_or_concat post with rfl | ⟨post', y, rfl⟩
  · obtain ⟨rfl, hxm⟩ := append_inj' hx rfl
    cases hxm
    exact hm
  · rw [concat_eq_append, ← cons_append, ← append_assoc] at hx
    exact hms pre x post' (append_inj' hx rfl).1

/-! ### The parameters under the signature -/

theorem rd8_lt (m : Bytes) (i : ℕ) : rd8 m i < 256 := (m.getD i 0).toNat_lt

theorem ofNat_rd8 (m : Bytes) (i : ℕ) : UInt8.ofNat (rd8 m i) = m.getD i 0 :=
  UInt8.ofNat_toNat

theorem wr16_rd16 (m : Bytes) (i : ℕ) : wr16 (rd16 m i) = [m.getD i 0, m.getD (i + 1) 0] := by
  have h1 := rd8_lt m (i + 1)
  have hdiv : rd16 m i / 256 = rd8 m i := by rw [rd16]; omega
  have hmod : UInt8.ofNat (rd16 m i) = UInt8.ofNat (rd8 m (i + 1)) := by
    apply UInt8.toNat_inj.1
    rw [UInt8.toNat_ofNat', UInt8.toNat_ofNat', rd16]
    omega
  rw [wr16, hdiv, hmod, ofNat_rd8, ofNat_rd8]

theorem slice_succ (h : i < m.length) : slice m i (n + 1) = m.getD i 0 :: slice m (i + 1) n := by
  rw [slice, slice, drop_eq_getElem_cons h, take_succ_cons]
  simp [h]

theorem length_slice (h : i + n ≤ m.length) : (slice m i n).length = n := by
  rw [slice, length_take, length_drop]
  omega

/-- The point of a ServerKeyExchange, with its length. -/
theorem skePoint_eq_some {stop curve : ℕ} {pub : Bytes} (hstop : stop ≤ m.length)
    (h : skePoint m stop = some (curve, pub)) :
    curve = rd16 m 5 ∧ pub.length = rd8 m 7 ∧ pub = slice m 8 (rd8 m 7) := by
  rw [skePoint] at h
  split at h
  next hc =>
    split at h
    · cases h
    rename_i hb
    push Not at hb
    cases h
    refine ⟨hc.symm, ?_, by rw [hb.1]⟩
    rw [length_slice (by omega), hb.1]
  split at h
  next hc =>
    split at h
    · cases h
    rename_i hb
    push Not at hb
    cases h
    refine ⟨hc.symm, ?_, by rw [hb.1]⟩
    rw [length_slice (by omega), hb.1]
  · cases h

/-- The signed parameters are the curve and the public value that are used. -/
theorem params_eq (h : skeFields m = some k) : k.params = curveParams k.curve k.peerPub := by
  simp only [skeFields] at h
  split at h
  · cases h
  rename_i hm
  push Not at hm
  split at h
  · cases h
  rename_i curve pub hpoint
  split at h
  · cases h
  cases h
  obtain ⟨rfl, hlen, hpub⟩ := skePoint_eq_some hm.2.2.1 hpoint
  have h3 : m.getD 4 0 = 3 := by
    rw [← ofNat_rd8, hm.2.2.2.2]
    rfl
  rw [show 4 + pub.length = pub.length + 1 + 1 + 1 + 1 by omega, slice_succ (by omega),
    slice_succ (by omega), slice_succ (by omega), slice_succ (by omega), curveParams, wr16_rd16, h3,
    hlen, ofNat_rd8, ← hpub]
  rfl

/-- The parameters that are signed are those that are used. -/
theorem parseServerKeyExchange_params {C : Crypto} {cr sr : Bytes}
    (h : parseServerKeyExchange C leaf cr sr m = some k) :
    k.params = curveParams k.curve k.peerPub := by
  rw [parseServerKeyExchange] at h
  split at h
  · split at h
    · cases h
      exact params_eq ‹_›
    · cases h
  · cases h

/-! ### What passes -/

theorem rsaVerifySha256_accepts {C : Crypto} {signed sig : Bytes} {pss : Bool}
    (h : rsaVerifySha256 C leaf (C.hash .sha256 signed) sig pss = true) :
    ∃ key, (leafRsaPub leaf).map (fun (n, e) => PubKey.rsa n e) = some key ∧
      key.Accepts C signed sig := by
  rw [rsaVerifySha256] at h
  split at h
  · cases h
  next n e hkey =>
    rw [Bool.and_eq_true] at h
    exact ⟨.rsa n e, by rw [hkey]; rfl, pss, h.2⟩

/-- **A ServerKeyExchange that is taken** has a signature that passed. -/
theorem verifySke_checked {C : Crypto} {cr sr : Bytes} (hty : rd8 m 0 = hsServerKeyEx)
    (h : parseServerKeyExchange C leaf cr sr m = some k) :
    Checked C leaf m (.keyExchange cr sr k.params) := by
  rw [parseServerKeyExchange] at h
  rcases hfields : skeFields m with _ | k' <;> rw [hfields] at h
  · cases h
  obtain ⟨hver, heq⟩ := Option.ite_none_right_eq_some.1 h
  obtain rfl := Option.some.inj heq
  rw [Checked, signingKey, signatureOf, if_pos hty, if_pos hty, hfields, Option.bind_some,
    Option.map_some, Option.getD_some, skeKey, Signed.bytes]
  rw [verifySke] at hver
  split at hver
  · cases hver
  split at hver
  next halg =>
    rw [if_pos halg]
    generalize (if k'.hashAlg = 5 then HashAlg.sha384 else .sha256) = alg at hver
    rw [verifySkeEcdsa] at hver
    by_cases hcurve : leafIsP384 leaf = true
    · rw [if_pos hcurve] at hver ⊢
      split at hver
      next pub raw hpub hraw =>
        exact ⟨.p384 pub, by rw [hpub]; rfl, alg, raw, hraw, hver⟩
      · cases hver
    · rw [if_neg hcurve] at hver ⊢
      split at hver
      next pub raw hpub hraw =>
        exact ⟨.p256 pub, by rw [hpub]; rfl, alg, raw, .inl hraw, hver⟩
      · cases hver
  next halg =>
    rw [if_neg halg]
    split at hver
    · rw [Bool.and_eq_true] at hver
      exact rsaVerifySha256_accepts hver.2
    · cases hver

/-- **A CertificateVerify that is taken** has a signature that passed. -/
theorem verifyCertVerify_checked {C : Crypto} {s : Session τ} (hty : rd8 m 0 = hsCertVerify)
    (h : verifyCertVerify C leaf m s = true) :
    Checked C leaf m (.transcript s.hashAlg s.transcript) := by
  have hne : rd8 m 0 ≠ hsServerKeyEx := by rw [hty]; decide
  rw [Checked, signingKey, signatureOf, if_neg hne, if_neg hne, Signed.bytes]
  rw [verifyCertVerify] at h
  split at h
  · cases h
  split at h
  next hecdsa =>
    rw [if_pos hecdsa]
    dsimp only at h
    split at h
    next pub raw hpub hraw =>
      exact ⟨.p256 pub, by rw [hpub]; rfl, .sha256, raw, .inr hraw, h⟩
    · cases h
  next hecdsa =>
    rw [if_neg hecdsa]
    split at h
    · exact rsaVerifySha256_accepts h
    · cases h

/-- A note adds itself to the log. -/
theorem mem_note {e e' : Event} {s : Session τ} :
    e' ∈ (s.note e).events ↔ e' ∈ s.events ∨ e' = e := by
  rw [Session.note, mem_append, mem_singleton]

theorem AllChecked.note {C : Crypto} {s : Session τ} (h : AllChecked C s.events) {e : Event}
    (he : ∀ leaf m content, e = .verified leaf m content → Checked C leaf m content) :
    AllChecked C (s.note e).events := by
  intro leaf m content hmem
  rcases mem_note.1 hmem with hmem | hmem
  · exact h leaf m content hmem
  · exact he leaf m content hmem.symm

/-! ### TLS 1.2 -/

/-- What the clear part of the handshake keeps, from one message to the next. -/
structure ConnOk (C : Crypto) (host : String) (c : Conn τ) : Prop where
  noKeys : ∀ k, .keyed k ∉ c.s.events
  checked : AllChecked C c.s.events
  gotCert : (∃ m ∈ c.s.handled, rd8 m 0 = hsCertificate) → c.gotCert = true
  gotSke : c.gotSke = true → ∃ m ∈ c.s.handled, rd8 m 0 = hsServerKeyEx
  leaf : c.gotCert = true → .accepted host c.s.leafDer ∈ c.s.events
  ske : InOrder c.s.handled → c.gotSke = true → ∃ leaf m, .accepted host leaf ∈ c.s.events ∧
    .verified leaf m (.keyExchange c.s.clientRandom c.s.serverRandom
      (curveParams c.peerCurve c.peerPub)) ∈ c.s.events

variable {C : Crypto} {verify : VerifyCertChain τ} {host : String}

theorem exists_mem_append_singleton {P : Bytes → Prop} :
    (∃ x ∈ ms ++ [m], P x) ↔ (∃ x ∈ ms, P x) ∨ P m := by simp

variable {c : Conn τ} {s s' : Session τ}

section

variable (h : ConnOk C host c)
include h

/-- A message that is none of the three leaves what was established alone. -/
theorem ConnOk.other (done : Bool) (hcert : rd8 m 0 ≠ hsCertificate) :
    ConnOk C host { c with s := c.s.take m, gotDone := done } where
  noKeys := h.noKeys
  checked := h.checked
  gotCert hx := h.gotCert ((exists_mem_append_singleton.1 hx).resolve_right hcert)
  gotSke hs := exists_mem_append_singleton.2 (.inl (h.gotSke hs))
  leaf := h.leaf
  ske hord := h.ske (inOrder_append_singleton.1 hord).1

theorem ConnOk.serverHello (sh : ServerHello) (hty : rd8 m 0 = hsServerHello) :
    ConnOk C host { c with s := (c.s.take m).serverHello sh, cs := sh.suite, gotSh := true } where
  noKeys := h.noKeys
  checked := h.checked
  gotCert hx :=
    h.gotCert ((exists_mem_append_singleton.1 hx).resolve_right (by rw [hty]; decide))
  gotSke hs := exists_mem_append_singleton.2 (.inl (h.gotSke hs))
  leaf := h.leaf
  -- the random changes, but in order there is no ServerKeyExchange yet
  ske hord hs := by
    obtain ⟨x, hx, hxt⟩ := h.gotSke hs
    exact absurd hxt ((inOrder_append_singleton.1 hord).2.2 hty x hx)

theorem ConnOk.certificate (reason : Option String) (trust : τ) : ConnOk C host { c with
      s := { (c.s.take m).chain reason trust true with leafDer := leaf }.note (.accepted host leaf)
      gotCert := true } where
  noKeys k hk := h.noKeys k ((mem_note.1 hk).resolve_right Event.noConfusion)
  checked := AllChecked.note h.checked fun _ _ _ hc => by cases hc
  gotCert _ := rfl
  gotSke hs := exists_mem_append_singleton.2 (.inl (h.gotSke hs))
  leaf _ := mem_note.2 (.inr rfl)
  ske hord hs := by
    obtain ⟨leaf', m', hacc, hver⟩ := h.ske (inOrder_append_singleton.1 hord).1 hs
    exact ⟨leaf', m', mem_append_left _ hacc, mem_append_left _ hver⟩

theorem ConnOk.keyExchange (hty : rd8 m 0 = hsServerKeyEx)
    (hk : parseServerKeyExchange C c.s.leafDer c.s.clientRandom c.s.serverRandom m = some k) :
    ConnOk C host { c with
      s := (c.s.take m).note
        (.verified c.s.leafDer m (.keyExchange c.s.clientRandom c.s.serverRandom k.params))
      peerPub := k.peerPub
      peerCurve := k.curve
      gotSke := true } where
  noKeys k hk := h.noKeys k ((mem_note.1 hk).resolve_right Event.noConfusion)
  checked := AllChecked.note h.checked fun _ _ _ hc => by
    cases hc
    exact verifySke_checked hty hk
  gotCert hx :=
    h.gotCert ((exists_mem_append_singleton.1 hx).resolve_right (by rw [hty]; decide))
  gotSke _ := exists_mem_append_singleton.2 (.inr hty)
  leaf hc := mem_append_left _ (h.leaf hc)
  -- in order a Certificate was accepted before, so that `leaf_der` is of this handshake
  ske hord _ := by
    have hcert := h.gotCert ((inOrder_append_singleton.1 hord).2.1 hty)
    refine ⟨c.s.leafDer, m, mem_append_left _ (h.leaf hcert), mem_note.2 (.inr ?_)⟩
    rw [parseServerKeyExchange_params hk]
    rfl

/-- **One message** of TLS 1.2. -/
theorem ConnOk.step {c' : Conn τ} (hm : handle12 C verify host m c = .ok c') :
    ConnOk C host c' := by
  cases handle12_takes C verify host hm with
  | serverHello hty _ => exact h.serverHello _ hty
  | certificate _ _ _ => exact h.certificate _ _
  | keyExchange hty hk => exact h.keyExchange hty hk
  | done hty => exact h.other true (by rw [hty]; decide)
  | other _ hcert _ => exact h.other c.gotDone hcert

end

theorem ConnOk.start (s : Session τ) (hh : s.handled = []) (he : s.events = []) :
    ConnOk C host ⟨s, [], 0, false, false, false, false, 0⟩ where
  noKeys k hk := by rw [he] at hk; cases hk
  checked _ _ _ hv := by rw [he] at hv; cases hv
  gotCert hx := by
    obtain ⟨m, hm, -⟩ := hx
    rw [hh] at hm
    cases hm
  gotSke hs := by cases hs
  leaf hs := by cases hs
  ske _ hs := by cases hs

theorem expectFinished_session
    (h : expectFinished C rs s = some s') : ∃ tr, s' = { s with transcript := tr } := by
  simp only [expectFinished] at h
  split at h
  · cases h
  split at h
  · cases h
  split at h
  · cases h
    exact ⟨_, rfl⟩
  · cases h

theorem awaitFinished_session : ∀ {s s' : Session τ}, awaitFinished C host cs rs s = .ok s' →
      s'.events = s.events ∧ s'.handled = s.handled ∧ s'.tls13 = s.tls13 := by
  induction rs with
  | nil =>
    intro s s' h
    cases h
  | cons r rs ih =>
    intro s s' h
    rw [awaitFinished] at h
    split at h
    · exact ih h
    split at h
    · cases h
    split at h
    · have hrest := ih h
      exact hrest
    split at h
    · exact ih h
    split at h
    · cases h
    split at h
    · cases h
    rename_i hexp
    obtain ⟨tr, rfl⟩ := expectFinished_session hexp
    cases h
    exact ⟨rfl, rfl, rfl⟩

theorem deriveKeys_session (premaster : Bytes) (cs : ℕ) (s : Session τ) :
    (deriveKeys C premaster cs s).events = s.events ∧
      (deriveKeys C premaster cs s).handled = s.handled ∧
      (deriveKeys C premaster cs s).tls13 = s.tls13 := by
  simp only [deriveKeys]
  iterate 2
    split
    · exact ⟨rfl, rfl, rfl⟩
  · exact ⟨rfl, rfl, rfl⟩

/-- What is known of a TLS 1.2 handshake that succeeds. -/
theorem finish12_eq_ok (h : finish12 C a rest c = .ok s') :
    c.gotSke = true ∧ s'.handled = c.s.handled ∧ s'.tls13 = c.s.tls13 ∧ s'.events = c.s.events ++
        [.keyed (.tls12 c.s.clientRandom c.s.serverRandom c.peerCurve c.peerPub)] := by
  simp only [finish12] at h
  split at h
  · cases h
  rename_i hgot
  have hske : c.gotSke = true := by
    revert hgot
    cases c.gotSke <;> simp
  iterate 3
    split at h
    · cases h
  rename_i premaster cke _
  iterate 3
    split at h
    · cases h
  obtain ⟨hev, hhd, h13⟩ := awaitFinished_session h
  obtain ⟨kev, khd, k13⟩ := deriveKeys_session (C := C) premaster c.cs
    { c.s with transcript := c.s.transcript ++ cke }
  simp only [Session.note, kev, khd, k13] at hev hhd h13
  exact ⟨hske, hhd, h13, hev⟩

/-- A handshake of TLS 1.2 that ends well. -/
theorem covered_of_tls12
    (hc : ConnOk C a.host c) (h : finish12 C a rest c = .ok s') (hord : InOrder s'.handled) :
    Covered a.host s' ∧ AllChecked C s'.events := by
  obtain ⟨hske, hhd, -, hev⟩ := finish12_eq_ok h
  rw [hhd] at hord
  obtain ⟨leaf, m, hacc, hver⟩ := hc.ske hord hske
  rw [Covered, hev]
  refine ⟨⟨⟨_, mem_append_right _ (mem_singleton_self _)⟩, fun k hk => ?_⟩,
    AllChecked.note hc.checked fun _ _ _ hc => by cases hc⟩
  refine ⟨leaf, m, _, mem_append_left _ hacc, mem_append_left _ hver, ?_⟩
  obtain rfl := Event.keyed.inj ((mem_note.1 hk).resolve_left (hc.noKeys k))
  exact ⟨rfl, rfl, rfl⟩

/-! ### TLS 1.3 -/

/-- What the encrypted flight keeps. -/
structure FlightAuth (C : Crypto) (host : String) (hellos : Bytes) (f : Flight τ) : Prop where
  keyed : .keyed (.tls13 hellos) ∈ f.s.events
  onlyKeys : ∀ k, .keyed k ∈ f.s.events → k = .tls13 hellos
  checked : AllChecked C f.s.events
  transcript : hellos <+: f.s.transcript
  leaf : f.gotCert = true → .accepted host f.leaf ∈ f.s.events
  verified : f.gotCv = true → ∃ leaf m h messages, .accepted host leaf ∈ f.s.events ∧
    .verified leaf m (.transcript h messages) ∈ f.s.events ∧ hellos <+: messages
  finished : f.gotFin = true → f.gotCv = true

/-- **One message** of TLS 1.3. -/
theorem FlightAuth.step {hellos : Bytes} {f f' : Flight τ} (h : FlightAuth C host hellos f)
    (hm : handle13 C verify host m f = .ok f') : FlightAuth C host hellos f' := by
  have hlonger : hellos <+: f.s.transcript ++ m := h.transcript.trans (prefix_append _ _)
  cases handle13_takes C verify host hm with
  | extensions _ => exact ⟨h.keyed, h.onlyKeys, h.checked, hlonger, h.leaf, h.verified, h.finished⟩
  | certificate _ _ _ =>
    refine ⟨mem_append_left _ h.keyed, fun k hk => ?_, AllChecked.note h.checked ?_, hlonger,
      fun _ => mem_note.2 (.inr rfl), fun hcv => ?_, h.finished⟩
    · exact h.onlyKeys k ((mem_note.1 hk).resolve_right Event.noConfusion)
    · exact fun _ _ _ hc => by cases hc
    · obtain ⟨leaf, m', alg, messages, hacc, hver, hp⟩ := h.verified hcv
      exact ⟨leaf, m', alg, messages, mem_append_left _ hacc, mem_append_left _ hver, hp⟩
  | certVerify hty hcert hsig =>
    refine ⟨mem_append_left _ h.keyed, fun k hk => ?_, AllChecked.note h.checked ?_, hlonger,
      fun hc => mem_append_left _ (h.leaf hc), fun _ => ?_, fun _ => rfl⟩
    · exact h.onlyKeys k ((mem_note.1 hk).resolve_right Event.noConfusion)
    · intro _ _ _ hc
      cases hc
      exact verifyCertVerify_checked hty hsig
    · exact ⟨f.leaf, m, _, _, mem_append_left _ (h.leaf hcert), mem_note.2 (.inr rfl), h.transcript⟩
  | finished _ hcv _ =>
    exact ⟨h.keyed, h.onlyKeys, h.checked, hlonger, h.leaf, h.verified, fun _ => hcv⟩
  | other _ => exact ⟨h.keyed, h.onlyKeys, h.checked, hlonger, h.leaf, h.verified, h.finished⟩

/-- **TLS 1.3 authenticates in any order.** -/
theorem covered_of_tls13 {sendOk : Bool} (hs : ∀ k, .keyed k ∉ s.events)
    (hchecked : AllChecked C s.events)
    (h : tls13HandshakeAfterSh C verify host sendOk cs rs s = .ok s') :
    Covered host s' ∧ AllChecked C s'.events := by
  rw [tls13HandshakeAfterSh] at h
  split at h
  · cases h
  rename_i s₀ hbegin
  obtain ⟨htr, -, -, hev, -⟩ := tls13Begin_eq_ok C hbegin
  split at h
  · cases h
  rename_i f rest hrecv
  have hstart : FlightAuth C host s.transcript ⟨s₀, [], false, false, false, false⟩ := by
    refine ⟨?_, fun k hk => ?_, ?_, ?_, fun hf => (by cases hf), fun hf => (by cases hf), id⟩
    · rw [hev]
      exact mem_append_right _ (mem_singleton_self _)
    · rw [hev] at hk
      exact Event.keyed.inj ((mem_note.1 hk).resolve_left (hs k))
    · rw [hev]
      exact AllChecked.note hchecked fun _ _ _ hc => by cases hc
    · exact htr.symm ▸ prefix_rfl
  have hf : FlightAuth C host s.transcript f :=
    receive_invariant (fun m c c' hc hm => hc.step hm) hstart hrecv
  have hend := tls13Finish_eq_ok C h
  rw [Covered, hend.events]
  refine ⟨⟨⟨_, hf.keyed⟩, fun k hk => ?_⟩, hf.checked⟩
  obtain ⟨leaf, m, alg, messages, hacc, hver, hp⟩ := hf.verified (hf.finished hend.gotFin)
  cases hf.onlyKeys k hk
  exact ⟨leaf, m, _, hacc, hver, hp⟩

/-! ### The connection -/

theorem covered_of_handshake (hh : s.handled = [])
    (he : s.events = []) (h : handshake C verify a s = .ok s')
    (hord : s'.tls13 = false → InOrder s'.handled) :
    Covered a.host s' ∧ AllChecked C s'.events := by
  rw [handshake] at h
  split at h
  · cases h
  rename_i c rest hrecv
  have hc : ConnOk C a.host c :=
    receive_invariant (fun m c c' hc hm => hc.step hm) (ConnOk.start s hh he) hrecv
  split at h
  · exact covered_of_tls13 hc.noKeys hc.checked h
  rename_i h12
  have h13 : s'.tls13 = false := by
    rw [(finish12_eq_ok h).2.2.1]
    simpa using h12
  exact covered_of_tls12 hc h (hord h13)

variable (C verify)

/-- A signature passes with a key if it is the key. -/
def namedCrypto : Crypto where
  hash _ _ := []
  hmac _ _ _ := []
  extract _ _ _ := []
  expandLabel _ _ _ _ n := zeros n
  prf _ _ _ _ n := zeros n
  x25519Base k := k
  x25519 _ p := p
  p256Ecdh _ p := some p
  p256EcdsaVerify sig pub _ := sig = pub
  p384EcdsaVerify _ _ _ := false
  rsaVerify _ _ _ _ _ := false

/-- A Certificate message with one certificate. -/
def certOf (leaf : Bytes) : Bytes :=
  11 :: (wr24 (leaf.length + 6) ++ wr24 (leaf.length + 3) ++ wr24 leaf.length ++ leaf)

/-- A ServerHello for TLS 1.2 with ECDHE and RSA. -/
def plainServerHello : Bytes := [2, 0, 0, 38, 3, 3] ++ zeros 32 ++ [0, 0xC0, 0x2F, 0]

/-- A ServerKeyExchange with an X25519 key, signed by the owner of a key of P-256 all of whose bytes
are the same. -/
def skeSignedBy (b : UInt8) : Bytes :=
  [12, 0, 0, 110, 3, 0, 0x1d, 32] ++ zeros 32 ++ [4, 3, 0, 70] ++
    ([0x30, 68, 2, 32] ++ replicate 32 b ++ [2, 32] ++ replicate 32 b)

/-- The host's own certificate, and no other, is trusted. -/
def trustsBank : VerifyCertChain Unit := fun _ m host =>
  if m = certOf p256Leaf ∧ host = "bank" then (.trusted none, ()) else (.refused none, ())

/-- A connection to a host whose server sends the given clear messages in one record, and then
what it takes to finish. -/
def attemptWith (host : String) (messages : Bytes) : Attempt where
  host
  tcpOk := true
  hello := .ok ⟨zeros 32, zeros 32, [1, 0, 0, 0]⟩
  helloSent := true
  priv := some (zeros 32)
  p256Keygen := none
  ckeSent := true
  ccsSent := true
  finishedSent := true
  records := [.record contentHs messages, .record contentCcs [1],
    .record contentHs ([20, 0, 0, 12] ++ zeros 12)]

/-- A server that keeps to the order. -/
def honestAttempt : Attempt :=
  attemptWith "bank" (plainServerHello ++ certOf p256Leaf ++ skeSignedBy 0x11 ++ [14, 0, 0, 0])

/-- A certificate in which nothing is but a key. -/
def evilLeaf : Bytes := 4 :: replicate 64 0x22

/-- A server with a certificate of its own, which nobody trusts. -/
def earlierAttempt : Attempt := attemptWith "evil" (certOf evilLeaf)

/-- The same server in the place of the bank: its key exchange first, and then the bank's
certificate, which anyone can send. -/
def staleAttempt : Attempt :=
  attemptWith "bank" (plainServerHello ++ skeSignedBy 0x22 ++ certOf p256Leaf ++ [14, 0, 0, 0])

end PeakOs.Tls
