import PeakOs.X509.Model

/-!
# What a parsed certificate says

`x509_parse_der` goes through the extensions once and keeps what it finds in a structure. Here the
structure is put next to the certificate: `certExtensions` is the list of its extensions, `certSpki`
the place of its public key, and a property of the structure that each extension keeps up is one of
the whole list (`x509ParseDer_rule`).

## Main results

* `certSpki_bounds` — the public key lies in the certificate
* `x509ParseDer_rule` — the rule for a property of the extensions
* `takeExtension_cases` — what an extension can do
* `hasBasicConstraints_iff`, `carriesCa_of_isCa` — BasicConstraints
-/

namespace PeakOs.X509

open Option

open Tls (Bytes rd8 rd16)

/-! ### Where elements are -/

/-- The end of a piece. -/
def Piece.stop (s : Piece) : ℕ := s.off + s.len

variable {der : Bytes} {s v rest : Piece} {hdr len tag : ℕ} {sni : Option CString}
    {c c' : X509Cert}

/-- The three forms of a length. -/
theorem derLen_cases (h : derLen der s = some (hdr, len)) : hdr + len ≤ s.len ∧
      (rd8 der (s.off + 1) < 0x80 ∧ hdr = 2 ∧ len = rd8 der (s.off + 1) ∨
        rd8 der (s.off + 1) = 0x81 ∧ hdr = 3 ∧ len = rd8 der (s.off + 2) ∨
        rd8 der (s.off + 1) = 0x82 ∧ hdr = 4 ∧ len = rd16 der (s.off + 2)) := by
  simp only [derLen, ite_none_left_eq_some] at h
  obtain ⟨-, h⟩ := h
  iterate 2
    split at h
    · simp only [ite_none_left_eq_some, some.injEq, Prod.mk.injEq] at h
      omega
  · simp only [ite_none_left_eq_some, ite_none_right_eq_some, some.injEq, Prod.mk.injEq] at h
    omega

theorem derLen_bounds (h : derLen der s = some (hdr, len)) : 2 ≤ hdr ∧ hdr + len ≤ s.len := by
  have := derLen_cases h
  omega

/-- An element is cut off the front. -/
structure Cut (s v rest : Piece) (hdr : ℕ) : Prop where
  two_le : 2 ≤ hdr
  fits : hdr + v.len ≤ s.len
  value : v.off = s.off + hdr
  rest_off : rest.off = s.off + (hdr + v.len)
  rest_stop : rest.stop = s.stop

theorem cut_of_element (h : element der s = some (v, rest)) :
    ∃ hdr, derLen der s = some (hdr, v.len) ∧ Cut s v rest hdr := by
  obtain ⟨⟨hdr, len⟩, hlen, heq⟩ := map_eq_some_iff.1 h
  cases heq
  obtain ⟨htwo, hfits⟩ := derLen_bounds hlen
  refine ⟨hdr, hlen, htwo, hfits, rfl, rfl, ?_⟩
  rw [Piece.stop, Piece.stop]
  dsimp only at hfits ⊢
  omega

theorem cut_of_expectTag (h : expectTag der tag s = some (v, rest)) :
    rd8 der s.off = tag ∧ ∃ hdr, derLen der s = some (hdr, v.len) ∧ Cut s v rest hdr := by
  rw [expectTag] at h
  split at h
  · cases h
  next hok => exact ⟨not_not.1 (not_or.1 hok).2, cut_of_element h⟩

theorem skipTag_stop (h : skipTag der tag s = some rest) :
    rest.stop = s.stop ∧ s.off + 2 ≤ rest.off ∧ rest.off ≤ s.stop := by
  obtain ⟨⟨v, rest'⟩, hv, rfl⟩ := map_eq_some_iff.1 h
  obtain ⟨-, hdr, -, hcut⟩ := cut_of_expectTag hv
  have := hcut.two_le
  have := hcut.fits
  have := hcut.rest_off
  exact ⟨hcut.rest_stop, by dsimp only; omega, by rw [Piece.stop]; dsimp only; omega⟩

/-- The public key of a certificate and what is behind it. -/
def keyAndRest (der : Bytes) : Option (Piece × Piece) :=
  (tbsOf der).bind fun (_, tbs) => (fieldsBefore der tbs).bind fun (_, q) => spkiOf der q

def certSpki (der : Bytes) : Option Piece := (keyAndRest der).map Prod.fst

theorem fieldsBefore_stop {tbs q : Piece} {validity : X509Time × X509Time}
    (h : fieldsBefore der tbs = some (validity, q)) : q.stop = tbs.stop := by
  obtain ⟨q₀, h₀, h⟩ := bind_eq_some_iff.1 h
  obtain ⟨q₁, h₁, h⟩ := bind_eq_some_iff.1 h
  obtain ⟨q₂, h₂, h⟩ := bind_eq_some_iff.1 h
  obtain ⟨q₃, h₃, h⟩ := bind_eq_some_iff.1 h
  obtain ⟨⟨val, q₄⟩, h₄, h⟩ := bind_eq_some_iff.1 h
  obtain ⟨times, -, h⟩ := bind_eq_some_iff.1 h
  obtain ⟨q₅, h₅, heq⟩ := map_eq_some_iff.1 h
  cases heq
  obtain ⟨-, hdr, -, hcut⟩ := cut_of_expectTag h₄
  have hversion : q₀.stop = tbs.stop := by
    split at h₀
    · exact (skipTag_stop h₀).1
    · cases h₀
      rfl
  calc q.stop = q₄.stop := (skipTag_stop h₅).1
    _ = q₃.stop := hcut.rest_stop
    _ = q₂.stop := (skipTag_stop h₃).1
    _ = q₁.stop := (skipTag_stop h₂).1
    _ = q₀.stop := (skipTag_stop h₁).1
    _ = tbs.stop := hversion

/-- The public key lies in the certificate, and is not empty. -/
theorem certSpki_bounds {spki : Piece} (h : certSpki der = some spki) :
    spki.stop ≤ der.length ∧ 2 ≤ spki.len := by
  obtain ⟨⟨spki', rest⟩, hkey, rfl⟩ := map_eq_some_iff.1 h
  obtain ⟨⟨head, tbs⟩, htbs, h⟩ := bind_eq_some_iff.1 hkey
  obtain ⟨⟨validity, q⟩, hq, h⟩ := bind_eq_some_iff.1 h
  obtain ⟨rest', hskip, heq⟩ := map_eq_some_iff.1 h
  cases heq
  obtain ⟨⟨cert, after⟩, hcert, h⟩ := bind_eq_some_iff.1 htbs
  obtain ⟨⟨tbs', rest''⟩, htbs', heq⟩ := map_eq_some_iff.1 h
  cases heq
  obtain ⟨-, hdr, -, hcut⟩ := cut_of_expectTag hcert
  obtain ⟨-, hdr', -, hcut'⟩ := cut_of_expectTag htbs'
  obtain ⟨-, hge, hle⟩ := skipTag_stop hskip
  have hstop := fieldsBefore_stop hq
  have := hcut.fits
  have := hcut.value
  have := hcut'.fits
  have := hcut'.value
  rw [Piece.stop] at hstop hle ⊢
  rw [Piece.stop] at hstop
  dsimp only at *
  omega

/-- The extensions of a certificate: identifiers and values. -/
def certExtensions (der : Bytes) : List (Piece × Piece) :=
  ((keyAndRest der).bind fun (_, q) => (extensionsOf der q).bind fun
    | none => some []
    | some exts => Frames.frames Piece.len (nextExtension der) exts.len exts).getD []

/-- What the parser has when it comes to the extensions. -/
theorem exists_of_x509ParseDer (h : x509ParseDer der sni = some c) :
    ∃ validity spki q exts, keyAndRest der = some (spki, q) ∧ extensionsOf der q = some exts ∧
      (match exts with
        | none => some (X509Cert.start sni validity spki)
        | some exts => parseExtensions der exts (X509Cert.start sni validity spki)) = some c := by
  rw [x509ParseDer] at h
  split at h
  · cases h
  obtain ⟨⟨head, tbs⟩, htbs, h⟩ := bind_eq_some_iff.1 h
  obtain ⟨⟨validity, q⟩, hq, h⟩ := bind_eq_some_iff.1 h
  obtain ⟨⟨spki, rest⟩, hspki, h⟩ := bind_eq_some_iff.1 h
  obtain ⟨exts, hexts, h⟩ := bind_eq_some_iff.1 h
  refine ⟨validity, spki, rest, exts, ?_, hexts, h⟩
  rw [keyAndRest, htbs]
  dsimp only [bind_some]
  rwa [hq]

/-- **The rule for the extensions.** -/
theorem x509ParseDer_rule
    {P : List (Piece × Piece) → X509Cert → Prop} (h : x509ParseDer der sni = some c)
    (hstart : ∀ validity spki, certSpki der = some spki → P [] (X509Cert.start sni validity spki))
    (hstep : ∀ done x c c', P done c → takeExtension der x c = some c' → P (done ++ [x]) c') :
    P (certExtensions der) c := by
  obtain ⟨validity, spki, q, exts, hkey, hexts, h⟩ := exists_of_x509ParseDer h
  have hspki : certSpki der = some spki := by rw [certSpki, hkey]; rfl
  rw [certExtensions, hkey, bind_some]
  dsimp only
  rw [hexts]
  rcases exts with _ | exts
  · cases h
    exact hstart validity spki hspki
  obtain ⟨as, has, hP⟩ := Frames.eachFrame_rule hstep (hstart validity spki hspki) h
  rw [bind_some]
  dsimp only
  rwa [has]

/-! ### One extension -/

/-- The fields that the checks of a chain read are the same. -/
structure SameChecked (c c' : X509Cert) : Prop where
  spki : c'.spki = c.spki
  sans : c'.sans = c.sans
  sanTotal : c'.sanTotal = c.sanTotal
  matchSni : c'.matchSni = c.matchSni
  matchSniHit : c'.matchSniHit = c.matchSniHit
  hasBasicConstraints : c'.hasBasicConstraints = c.hasBasicConstraints
  isCa : c'.isCa = c.isCa

theorem SameChecked.refl (c : X509Cert) : SameChecked c c := ⟨rfl, rfl, rfl, rfl, rfl, rfl, rfl⟩

/-- An identifier is one thing only. -/
theorem isOid_ne {oid : Piece} {a b : ℕ} (ha : isOid der a oid = true) (hab : a ≠ b) :
    isOid der b oid = false := by
  simp only [isOid, Bool.and_eq_true, decide_eq_true_iff] at ha
  simp only [isOid, Bool.and_eq_false_iff, decide_eq_false_iff_not]
  exact .inr fun h => hab (ha.2.symm.trans h)

theorem sameChecked_takeKeyUsage (der : Bytes) (bits : Piece) (c : X509Cert) :
    SameChecked c (takeKeyUsage der bits c) := by
  rw [takeKeyUsage]
  split
  · exact .refl c
  · exact ⟨rfl, rfl, rfl, rfl, rfl, rfl, rfl⟩

theorem sameChecked_takeAuthorityKeyId (der : Bytes) (seq : Piece) (c : X509Cert) :
    SameChecked c (takeAuthorityKeyId der seq c) := by
  rw [takeAuthorityKeyId]
  iterate 2
    split
    · exact .refl c
  split
  · exact ⟨rfl, rfl, rfl, rfl, rfl, rfl, rfl⟩
  · exact .refl c

/-- **What an extension can do.** -/
theorem takeExtension_cases {x : Piece × Piece} (h : takeExtension der x c = some c') :
    (isOid der oidSubjectAltName x.1 = true ∧
      ∃ gn rest, expectTag der 0x30 x.2 = some (gn, rest) ∧ addSans der gn c = some c') ∨
    (isOid der oidBasicConstraints x.1 = true ∧
      ∃ bc rest, expectTag der 0x30 x.2 = some (bc, rest) ∧
        c' = { c with hasBasicConstraints := true, isCa := saysCa der bc }) ∨
    (isOid der oidSubjectAltName x.1 = false ∧ isOid der oidBasicConstraints x.1 = false ∧
      SameChecked c c') := by
  obtain ⟨oid, oct⟩ := x
  rw [takeExtension] at h
  split at h
  next hsan =>
    obtain ⟨⟨gn, rest⟩, hgn, h⟩ := bind_eq_some_iff.1 h
    exact .inl ⟨hsan, gn, rest, hgn, h⟩
  next hsan =>
  split at h
  next hbc =>
    obtain ⟨⟨bc, rest⟩, hseq, h⟩ := map_eq_some_iff.1 h
    exact .inr (.inl ⟨hbc, bc, rest, hseq, h.symm⟩)
  next hbc =>
  refine .inr (.inr ⟨Bool.not_eq_true _ ▸ hsan, Bool.not_eq_true _ ▸ hbc, ?_⟩)
  split at h
  · obtain ⟨⟨bits, rest⟩, -, rfl⟩ := map_eq_some_iff.1 h
    exact sameChecked_takeKeyUsage der bits c
  split at h
  · obtain ⟨⟨ki, rest⟩, -, rfl⟩ := map_eq_some_iff.1 h
    dsimp only
    split
    · exact ⟨rfl, rfl, rfl, rfl, rfl, rfl, rfl⟩
    · exact .refl c
  split at h
  · obtain ⟨⟨seq, rest⟩, -, rfl⟩ := map_eq_some_iff.1 h
    exact sameChecked_takeAuthorityKeyId der seq c
  · cases h
    exact .refl c

/-- A name changes no field but those of the names. -/
theorem addSan_fields (name : Bytes) (c : X509Cert) :
    (addSan name c).spki = c.spki ∧ (addSan name c).matchSni = c.matchSni ∧
      (addSan name c).hasBasicConstraints = c.hasBasicConstraints ∧
        (addSan name c).isCa = c.isCa := by
  rw [addSan]
  split <;> exact ⟨rfl, rfl, rfl, rfl⟩

theorem addSans_fields {gn : Piece} (h : addSans der gn c = some c') :
    c'.spki = c.spki ∧ c'.matchSni = c.matchSni ∧
      c'.hasBasicConstraints = c.hasBasicConstraints ∧ c'.isCa = c.isCa := by
  have hrule := Frames.eachFrame_rule (P := fun _ t => t.spki = c.spki ∧ t.matchSni = c.matchSni ∧
    t.hasBasicConstraints = c.hasBasicConstraints ∧ t.isCa = c.isCa) ?_ ⟨rfl, rfl, rfl, rfl⟩ h
  · exact hrule.choose_spec.2
  rintro - ⟨tag, v⟩ s t ⟨hspki, hsni, hbc, hca⟩ ht
  cases ht
  split
  · obtain ⟨h₁, h₂, h₃, h₄⟩ := addSan_fields (v.bytes der) s
    exact ⟨h₁.trans hspki, h₂.trans hsni, h₃.trans hbc, h₄.trans hca⟩
  · exact ⟨hspki, hsni, hbc, hca⟩

/-! ### The public key -/

theorem certSpki_of_x509ParseDer
    (h : x509ParseDer der sni = some c) : certSpki der = some c.spki := by
  refine x509ParseDer_rule (P := fun _ c => certSpki der = some c.spki) h
    (fun _ _ hspki => hspki) ?_
  intro _ x s t hs ht
  rcases takeExtension_cases ht with ⟨-, gn, rest, -, hadd⟩ | ⟨-, bc, rest, -, rfl⟩ | ⟨-, -, hsame⟩
  · rwa [(addSans_fields hadd).1]
  · exact hs
  · rwa [hsame.spki]

/-! ### BasicConstraints -/

/-- The certificate has a BasicConstraints extension. -/
def CarriesBasicConstraints (der : Bytes) : Prop :=
  ∃ x ∈ certExtensions der, isOid der oidBasicConstraints x.1 = true

/-- It has one with `cA` true. -/
def CarriesCa (der : Bytes) : Prop :=
  ∃ x ∈ certExtensions der, isOid der oidBasicConstraints x.1 = true ∧
    ∃ bc rest, expectTag der 0x30 x.2 = some (bc, rest) ∧ saysCa der bc = true

theorem CarriesCa.carriesBasicConstraints (h : CarriesCa der) : CarriesBasicConstraints der := by
  obtain ⟨x, hx, hoid, -⟩ := h
  exact ⟨x, hx, hoid⟩

theorem exists_mem_concat {α : Type*} {p : α → Prop} {as : List α} {a : α} :
    (∃ b ∈ as ++ [a], p b) ↔ (∃ b ∈ as, p b) ∨ p a := by simp

theorem hasBasicConstraints_iff (h : x509ParseDer der sni = some c) :
    c.hasBasicConstraints = true ↔ CarriesBasicConstraints der := by
  refine x509ParseDer_rule (P := fun done c => c.hasBasicConstraints = true ↔
    ∃ x ∈ done, isOid der oidBasicConstraints x.1 = true) h ?_ ?_
  · intro _ _ _
    simp [X509Cert.start]
  intro done x s t hs ht
  rw [exists_mem_concat]
  rcases takeExtension_cases ht with ⟨hsan, gn, rest, -, hadd⟩ | ⟨hbc, bc, rest, -, rfl⟩ |
    ⟨-, hbc, hsame⟩
  · rw [(addSans_fields hadd).2.2.1, hs, isOid_ne hsan (by decide)]
    simp
  · simp [hbc]
  · rw [hsame.hasBasicConstraints, hs, hbc]
    simp

theorem carriesCa_of_isCa
    (h : x509ParseDer der sni = some c) (hca : c.isCa = true) : CarriesCa der := by
  refine x509ParseDer_rule (P := fun done c => c.isCa = true → ∃ x ∈ done,
    isOid der oidBasicConstraints x.1 = true ∧
      ∃ bc rest, expectTag der 0x30 x.2 = some (bc, rest) ∧ saysCa der bc = true) h ?_ ?_ hca
  · intro _ _ _ hfalse
    cases hfalse
  intro done x s t hs ht hca
  rw [exists_mem_concat]
  rcases takeExtension_cases ht with ⟨-, gn, rest, -, hadd⟩ | ⟨hbc, bc, rest, hseq, rfl⟩ |
    ⟨-, -, hsame⟩
  · exact .inl (hs ((addSans_fields hadd).2.2.2 ▸ hca))
  · exact .inr ⟨hbc, bc, rest, hseq, hca⟩
  · exact .inl (hs (hsame.isCa ▸ hca))

/-- What the certificates below have after the serial number: no algorithm and no names, and ten
years from 2025 on. -/
def tenYears : Bytes :=
  [0x30, 0x00, 0x30, 0x00, 0x30, 0x1e, 0x17, 0x0d, 0x32, 0x35, 0x30, 0x31, 0x30, 0x31, 0x30, 0x30,
    0x30, 0x30, 0x30, 0x30, 0x5a, 0x17, 0x0d, 0x33, 0x35, 0x30, 0x31, 0x30, 0x31, 0x30, 0x30, 0x30,
    0x30, 0x30, 0x30, 0x5a, 0x30, 0x00]

end PeakOs.X509
