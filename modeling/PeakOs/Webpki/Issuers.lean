import PeakOs.Webpki.Chain

/-!
# Who issues certificates

A certificate may issue others if its BasicConstraints say that it is a CA. The walk refuses an
issuer that has BasicConstraints which do not say so; it does not ask that there are any.

## Main results

* `isCa_of_walk` — a CA that says what it is says that it is one
* `only_cas_issue_iff` — when all issuers of an accepted chain are CAs
* `leaf_issues` — a chain in which an ordinary certificate issues another
-/

namespace PeakOs.Webpki

open List

open Tls (Bytes)
open X509 (CString CarriesCa CarriesBasicConstraints)

/-- The certificates whose keys are used in a walk from `c`. -/
def issuers (roots : List Bytes) (sha256 : Bytes → Bytes) (c : Parsed) : List Parsed → List Parsed
  | [] => []
  | next :: rest =>
    if isAnchor roots sha256 c then [] else next :: issuers roots sha256 next rest

/-- The certificates of a list whose keys are used to verify others of it. -/
def issuersOf (roots : List Bytes) (sha256 : Bytes → Bytes) (clock : Option RtcTime)
    (certs : List Presented) (host : Option CString) : List Bytes :=
  match parseCerts clock (sniOf host) certs with
  | .ok (leaf :: rest) => (issuers roots sha256 leaf rest).map fun c => c.1.der
  | _ => []

section Issuers

variable {roots : List Bytes} {sha256 : Bytes → Bytes} {clock : Option RtcTime}
  {sigOk : Bytes → Bytes → Bytes → ℕ → Bool}

theorem issuers_subset (c : Parsed) (rest : List Parsed) : issuers roots sha256 c rest ⊆ rest := by
  induction rest generalizing c with
  | nil => exact List.Subset.refl _
  | cons next rest ih =>
    rw [issuers]
    split
    · exact nil_subset _
    · exact cons_subset_cons next (ih next)

/-- **An issuer that has BasicConstraints is a CA.** -/
theorem isCa_of_walk {c : Parsed} {rest : List Parsed} (h : walk roots sha256 sigOk c rest = .ok ())
    {d : Parsed} (hd : d ∈ issuers roots sha256 c rest) (hbc : d.2.hasBasicConstraints = true) :
    d.2.isCa = true := by
  induction rest generalizing c with
  | nil => exact absurd hd not_mem_nil
  | cons next rest ih =>
    rw [walk] at h
    rw [issuers] at hd
    split at h
    next hanchor =>
      rw [if_pos hanchor] at hd
      exact absurd hd not_mem_nil
    next hanchor =>
    rw [if_neg hanchor] at hd
    split at h
    · cases h
    split at h
    · cases h
    next hca =>
    rcases mem_cons.1 hd with rfl | hd
    · rwa [hbc, Bool.true_and, Bool.not_eq_true', Bool.not_eq_false] at hca
    · exact ih h hd

/-- **When all issuers are CAs**: when all of them have BasicConstraints. -/
theorem only_cas_issue_iff {certs : List Presented} {host : Option CString}
    (h : webpkiVerifyChain roots sha256 clock sigOk certs host = .ok ()) :
    (∀ d ∈ issuersOf roots sha256 clock certs host, CarriesCa d) ↔
      ∀ d ∈ issuersOf roots sha256 clock certs host, CarriesBasicConstraints d := by
  refine ⟨fun hca d hd => (hca d hd).carriesBasicConstraints, fun hbc d hd => ?_⟩
  obtain ⟨leaf, rest, hadm, hwalk⟩ := webpkiVerifyChain_ok_iff.1 h
  have hcarries := hbc d hd
  rw [issuersOf, hadm.parsed] at hd
  obtain ⟨x, hx, rfl⟩ := mem_map.1 hd
  have hmem : x ∈ leaf :: rest := mem_cons_of_mem _ (issuers_subset leaf rest hx)
  obtain ⟨⟨sni, hparse⟩, -⟩ := ok_of_parseCerts hadm.parsed hmem
  have hhas := (X509.hasBasicConstraints_iff hparse).2 hcarries
  exact X509.carriesCa_of_isCa hparse (isCa_of_walk hwalk hx hhas)

end Issuers

/-- A certificate for `a.b`. -/
def certAB : Bytes :=
  [0x30, 0x47, 0x30, 0x40, 0x02, 0x01, 0x01] ++ X509.tenYears ++
    [0x30, 0x01, 0x01, 0xa3, 0x12, 0x30, 0x10, 0x30, 0x0e, 0x06, 0x03, 0x55, 0x1d, 0x11, 0x04, 0x07,
    0x30, 0x05, 0x82, 0x03, 0x61, 0x2e, 0x62, 0x30, 0x00, 0x03, 0x01, 0x00]

/-- A certificate for `x.y` that says it is a CA. -/
def caXY : Bytes :=
  [0x30, 0x55, 0x30, 0x4e, 0x02, 0x01, 0x01] ++ X509.tenYears ++
    [0x30, 0x01, 0x02, 0xa3, 0x20, 0x30, 0x1e, 0x30, 0x0e, 0x06, 0x03, 0x55, 0x1d, 0x11, 0x04, 0x07,
    0x30, 0x05, 0x82, 0x03, 0x78, 0x2e, 0x79, 0x30, 0x0c, 0x06, 0x03, 0x55, 0x1d, 0x13, 0x04, 0x05,
    0x30, 0x03, 0x01, 0x01, 0xff, 0x30, 0x00, 0x03, 0x01, 0x00]

/-- A certificate for `x.y` without BasicConstraints. -/
def certXY : Bytes :=
  [0x30, 0x47, 0x30, 0x40, 0x02, 0x01, 0x01] ++ X509.tenYears ++
    [0x30, 0x01, 0x02, 0xa3, 0x12, 0x30, 0x10, 0x30, 0x0e, 0x06, 0x03, 0x55, 0x1d, 0x11, 0x04, 0x07,
    0x30, 0x05, 0x82, 0x03, 0x78, 0x2e, 0x79, 0x30, 0x00, 0x03, 0x01, 0x00]

/-- The signatures of a root under `issuer`, and of `issuer` under `subject`. -/
def twoSignatures (subject issuer : Bytes) (key tbs _sig : Bytes) (_hint : ℕ) : Bool :=
  (certKey issuer = some key && certTbs subject = some tbs) ||
    (certKey amazonRootCa3 = some key && certTbs issuer = some tbs)

theorem only_cas_issue_ca :
    (∀ d ∈ issuersOf [amazonRootCa3] id (some newYear2030) [⟨certAB, []⟩, ⟨caXY, []⟩]
      (some X509.hostAB),
        CarriesCa d) ↔
      ∀ d ∈ issuersOf [amazonRootCa3] id (some newYear2030) [⟨certAB, []⟩, ⟨caXY, []⟩]
        (some X509.hostAB),
        CarriesBasicConstraints d :=
  @only_cas_issue_iff _ _ _ (twoSignatures certAB caXY) _ _ (by decide +kernel)

theorem leaf_issues :
    ¬ ∀ (roots : List Bytes) (sha256 : Bytes → Bytes) (clock : Option RtcTime)
      (sigOk : Bytes → Bytes → Bytes → ℕ → Bool) (certs : List Presented) (host : Option CString),
      webpkiVerifyChain roots sha256 clock sigOk certs host = .ok () →
        ∀ d ∈ issuersOf roots sha256 clock certs host, CarriesCa d := by
  intro h
  obtain ⟨x, hx, hoid, -⟩ := h [amazonRootCa3] id (some newYear2030) (twoSignatures certAB certXY)
    [⟨certAB, []⟩, ⟨certXY, []⟩] (some X509.hostAB) (by decide +kernel) certXY (by decide +kernel)
  have hall : ∀ x ∈ X509.certExtensions certXY,
      X509.isOid certXY X509.oidBasicConstraints x.1 = false := by decide +kernel
  rw [hall x hx] at hoid
  cases hoid

end PeakOs.Webpki
