import Mathlib.Data.List.Chain
import Mathlib.Data.List.GetD
import PeakOs.Webpki.Model
import PeakOs.X509.HostNames

/-!
# Whom a chain is trusted by

A chain is to be accepted for a reason: the server's certificate is a root, or it is signed under a
key that is a root's, or under that of a certificate for which there is such a reason in turn.

The walk ends at the first certificate that is taken for a root, and it is taken for one if it has
the key of a root, or the digest. At the server's own certificate this is too early: nothing has
been signed yet. Anyone can put the key of a root into a certificate.

Later in the walk a certificate with the key of a root is as good as the root; one with the digest
of a root is one, unless SHA-256 has a collision.

## Main results

* `certTbs_of_certTbsAndSig` — what is signed is the TBSCertificate that was parsed
* `walk_cases` — where a walk ends
* `chain_sound_iff` — the lists of certificates for which acceptance has a reason, whatever the
  signatures
* `unsigned_leaf` — a certificate with the key of a root, and no signature
-/

namespace PeakOs.Webpki

open List Option

open Tls (Bytes rd8 rd16 slice)
open X509 (CString X509Cert Piece certSpki tbsOf derLen x509ParseDer x509CertHostnameMatch)

/-! ### Keys and signed bytes -/

/-- The key of a certificate. -/
def certKey (der : Bytes) : Option Bytes := (certSpki der).map (Piece.bytes der)

/-- The bytes of a certificate that are signed. -/
def certTbs (der : Bytes) : Option Bytes := (tbsOf der).map fun (head, _) => head.bytes der

theorem rd8_append {m : Bytes} (m' : Bytes) {i : ℕ} (h : i < m.length) :
    rd8 (m ++ m') i = rd8 m i := by
  rw [rd8, rd8, getD_append _ _ _ _ h]

theorem slice_append {m : Bytes} (m' : Bytes) {i n : ℕ} (h : i + n ≤ m.length) :
    slice (m ++ m') i n = slice m i n := by
  rw [slice, slice, drop_append_of_le_length (by omega), take_append_of_le_length]
  rw [length_drop]
  omega

/-- The two ways to read a length agree. -/
theorem lengthAt_of_derLen {der : Bytes} (behind : Bytes) {s : Piece} {hdr len : ℕ}
    (hs : s.stop ≤ der.length) (h : derLen der s = some (hdr, len)) :
    lengthAt (der ++ behind) (s.off + 1) = some (len, s.off + hdr) := by
  obtain ⟨hfits, hform⟩ := X509.derLen_cases h
  rw [Piece.stop] at hs
  rw [lengthAt, rd8_append _ (by omega)]
  obtain ⟨hshort, rfl, rfl⟩ | ⟨h81, rfl, rfl⟩ | ⟨h82, rfl, rfl⟩ := hform
  · rw [if_pos hshort]
  · rw [h81, if_neg (by decide), if_neg (by decide), if_pos rfl, rd8_append _ (by omega)]
  · rw [h82, if_neg (by decide), if_pos rfl, rd16, rd16, rd8_append _ (by omega),
      rd8_append _ (by omega)]

/-- **What is signed is what was parsed.** -/
theorem certTbs_of_certTbsAndSig {c : Presented} {sni : Option CString} {x : X509Cert}
    {s : Signature} (hx : x509ParseDer c.der sni = some x) (hs : certTbsAndSig c = some s) :
    certTbs c.der = some s.tbs := by
  obtain ⟨_, _, _, _, hkey, -⟩ := X509.exists_of_x509ParseDer hx
  obtain ⟨⟨head, tbs⟩, htbs, -⟩ := bind_eq_some_iff.1 hkey
  rw [certTbs, htbs]
  obtain ⟨⟨cert, after⟩, hcert, h⟩ := bind_eq_some_iff.1 htbs
  obtain ⟨⟨tbs', rest⟩, htbs', heq⟩ := map_eq_some_iff.1 h
  cases heq
  obtain ⟨-, hdr, hlen, hcut⟩ := X509.cut_of_expectTag hcert
  obtain ⟨-, hdr', hlen', hcut'⟩ := X509.cut_of_expectTag htbs'
  have hfits := hcut.fits
  have hvalue := hcut.value
  have hfits' := hcut'.fits
  have hvalue' := hcut'.value
  have hoff' := hcut'.rest_off
  dsimp only at hfits hvalue hfits' hvalue' hoff'
  have hat := lengthAt_of_derLen c.behind (s := ⟨0, c.der.length⟩) (by rw [Piece.stop]; simp) hlen
  have hat' := lengthAt_of_derLen c.behind (s := cert) (by rw [Piece.stop]; omega) hlen'
  rw [certTbsAndSig] at hs
  dsimp only [Presented.memory] at hs hat
  rw [zero_add, ← hvalue] at hat
  obtain ⟨-, hs⟩ := ite_none_left_eq_some.1 hs
  rw [hat, bind_some] at hs
  obtain ⟨-, hs⟩ := ite_none_left_eq_some.1 hs
  rw [hat', bind_some] at hs
  obtain ⟨⟨sig, hint⟩, -, heq⟩ := map_eq_some_iff.1 hs
  rw [← heq]
  dsimp only [map_some]
  rw [slice_append _ (by omega), Piece.bytes,
    show cert.off + hdr' - cert.off + tbs.len = rest.off - cert.off by omega]

/-! ### Reasons -/

section Reasons

variable (roots : List Bytes) (sigOk : Bytes → Bytes → Bytes → ℕ → Bool)

/-- The certificate is signed under the key. -/
def Signed (key der : Bytes) : Prop :=
  ∃ tbs sig hint, certTbs der = some tbs ∧ sigOk key tbs sig hint = true

/-- The key is that of an embedded root. -/
def IsRootKey (key : Bytes) : Prop := ∃ r ∈ roots, rootKey r = some key

/-- There is a chain of signatures from a certificate, through others of the list, to a key of a
root. -/
inductive Trusted (certs : List Bytes) : Bytes → Prop
  /-- Signed under the key of a root. -/
  | byRoot {c key : Bytes} : IsRootKey roots key → Signed sigOk key c → Trusted certs c
  /-- Signed under the key of a certificate that carries the key of a root. -/
  | byCarrier {c d key : Bytes} : d ∈ certs → certKey d = some key → Signed sigOk key c →
    IsRootKey roots key → Trusted certs c
  /-- Signed under the key of a certificate that is signed in turn. -/
  | byIssuer {c d key : Bytes} : d ∈ certs → certKey d = some key → Signed sigOk key c →
    Trusted certs d → Trusted certs c

/-- The server's certificate is a root, or there is a chain of signatures to one. -/
def HasReason (certs : List Presented) : Prop :=
  ∃ leaf, certs.head? = some leaf ∧
    (leaf.der ∈ roots ∨ Trusted roots sigOk (certs.map Presented.der) leaf.der)

end Reasons

/-- Nothing is signed without a signature that holds. -/
theorem Trusted.exists_signed {roots : List Bytes} {sigOk : Bytes → Bytes → Bytes → ℕ → Bool}
    {certs : List Bytes} {c : Bytes} (h : Trusted roots sigOk certs c) :
    ∃ key d, Signed sigOk key d ∧ IsRootKey roots key := by
  induction h with
  | byRoot hroot hsigned | byCarrier _ _ hsigned hroot => exact ⟨_, _, hsigned, hroot⟩
  | byIssuer _ _ _ _ ih => exact ih

/-! ### Where a walk ends -/

section Walk

variable {roots : List Bytes} {sha256 : Bytes → Bytes} {clock : Option RtcTime}
  {sigOk : Bytes → Bytes → Bytes → ℕ → Bool}

/-- Each certificate is signed under the key of the next, and the next may issue one. -/
def Linked (sigOk : Bytes → Bytes → Bytes → ℕ → Bool) (xs : List Parsed) : Prop :=
  xs.IsChain fun a b => verifyCertSig sigOk a.1 b.key = true ∧
    (b.2.hasBasicConstraints = true → b.2.isCa = true)

/-- The walk goes to `d` and ends there. -/
def EndsAt (roots : List Bytes) (sha256 : Bytes → Bytes) (before : List Parsed) (d : Parsed) :
    Prop :=
  (∀ b ∈ before, isAnchor roots sha256 b = false) ∧ isAnchor roots sha256 d = true

/-- **Where a walk ends**: at the first certificate that is taken for a root, or at the end of the
list, with a signature under the key of a root. -/
theorem walk_cases {c : Parsed} {rest : List Parsed} (h : walk roots sha256 sigOk c rest = .ok ()) :
    (∃ before d after, c :: rest = before ++ d :: after ∧ EndsAt roots sha256 before d ∧
      Linked sigOk (before ++ [d])) ∨
    (Linked sigOk (c :: rest) ∧ ∃ last key, (c :: rest).getLast? = some last ∧
      IsRootKey roots key ∧ verifyCertSig sigOk last.1 key = true) := by
  induction rest generalizing c with
  | nil =>
    rw [walk] at h
    split at h
    next hanchor =>
      exact .inl ⟨[], c, [], rfl, ⟨fun b hb => absurd hb not_mem_nil, hanchor⟩, isChain_singleton c⟩
    split at h
    next hroot =>
      obtain ⟨r, hr, hsig⟩ := List.any_eq_true.1 hroot
      obtain ⟨key, hkey, hsig⟩ := (Option.any_eq_true ..).1 hsig
      exact .inr ⟨isChain_singleton c, c, key, rfl, ⟨r, hr, hkey⟩, hsig⟩
    · cases h
  | cons next rest ih =>
    rw [walk] at h
    split at h
    next hanchor =>
      exact .inl ⟨[], c, next :: rest, rfl, ⟨fun b hb => absurd hb not_mem_nil, hanchor⟩,
        isChain_singleton c⟩
    next hanchor =>
    split at h
    · cases h
    next hsig =>
    split at h
    · cases h
    next hca =>
    have hlink : verifyCertSig sigOk c.1 next.key = true ∧
        (next.2.hasBasicConstraints = true → next.2.isCa = true) := by
      rw [Bool.not_eq_true', Bool.not_eq_false] at hsig
      refine ⟨hsig, fun hbc => ?_⟩
      rwa [hbc, Bool.true_and, Bool.not_eq_true', Bool.not_eq_false] at hca
    rcases ih h with ⟨before, d, after, hsplit, ⟨hbefore, hd⟩, hlinked⟩ |
      ⟨hlinked, last, key, hlast, hkey⟩
    · refine .inl ⟨c :: before, d, after, by rw [hsplit]; rfl, ⟨fun b hb => ?_, hd⟩, ?_⟩
      · rcases mem_cons.1 hb with rfl | hb
        · exact Bool.not_eq_true _ ▸ hanchor
        · exact hbefore b hb
      -- the certificate behind `c` is `next`, whether it is `d` or comes before it
      rcases before with _ | ⟨b, before⟩
      all_goals
        cases hsplit
        exact isChain_cons_cons.2 ⟨hlink, hlinked⟩
    · refine .inr ⟨isChain_cons_cons.2 ⟨hlink, hlinked⟩, last, key, ?_, hkey⟩
      rwa [getLast?_cons_cons]

end Walk

/-! ### From the walk to the reason -/

section Sound

variable {roots : List Bytes} {sha256 : Bytes → Bytes} {clock : Option RtcTime}
  {sigOk : Bytes → Bytes → Bytes → ℕ → Bool} {certs : List Bytes}

/-- The parser has been there. -/
def Parsed.Ok (c : Parsed) : Prop := ∃ sni, x509ParseDer c.1.der sni = some c.2

variable {c : Parsed} {key : Bytes}

theorem Parsed.Ok.certKey (h : c.Ok) : certKey c.1.der = some c.key := by
  obtain ⟨sni, h⟩ := h
  rw [Webpki.certKey, X509.certSpki_of_x509ParseDer h]
  rfl

theorem Parsed.Ok.key_ne_nil (h : c.Ok) : c.key ≠ [] := by
  obtain ⟨sni, h⟩ := h
  obtain ⟨hstop, htwo⟩ := X509.certSpki_bounds (X509.certSpki_of_x509ParseDer h)
  rw [Piece.stop] at hstop
  intro hnil
  have hlen := congrArg length hnil
  rw [Parsed.key, Piece.bytes, slice, length_take, length_drop, length_nil] at hlen
  omega

theorem Parsed.Ok.signed (h : c.Ok)
    (hsig : verifyCertSig sigOk c.1 key = true) : Signed sigOk key c.1.der := by
  obtain ⟨sni, h⟩ := h
  rw [verifyCertSig] at hsig
  split at hsig
  · cases hsig
  next s hs => exact ⟨s.tbs, s.sig, s.hint, certTbs_of_certTbsAndSig h hs, hsig⟩

/-- A walk to a certificate with the key of a root. -/
theorem trusted_of_carrier {before : List Parsed} {d : Parsed}
    (hok : ∀ x ∈ c :: before ++ [d], x.Ok ∧ x.1.der ∈ certs)
    (hlinked : Linked sigOk (c :: before ++ [d])) (hroot : IsRootKey roots d.key) :
    Trusted roots sigOk certs c.1.der := by
  induction before generalizing c with
  | nil =>
    obtain ⟨hlink, -⟩ := isChain_cons_cons.1 hlinked
    obtain ⟨hd, hmem⟩ := hok d (by simp)
    exact .byCarrier hmem hd.certKey ((hok c (by simp)).1.signed hlink.1) hroot
  | cons b before ih =>
    obtain ⟨hlink, hlinked⟩ := isChain_cons_cons.1 hlinked
    obtain ⟨hb, hmem⟩ := hok b (by simp)
    exact .byIssuer hmem hb.certKey ((hok c (by simp)).1.signed hlink.1)
      (ih (fun x hx => hok x (mem_cons_of_mem _ hx)) hlinked)

/-- A walk to a signature under the key of a root. -/
theorem trusted_of_signed {rest : List Parsed}
    (hok : ∀ x ∈ c :: rest, x.Ok ∧ x.1.der ∈ certs) (hlinked : Linked sigOk (c :: rest))
    {last : Parsed} (hlast : (c :: rest).getLast? = some last)
    (hroot : IsRootKey roots key) (hsig : verifyCertSig sigOk last.1 key = true) :
    Trusted roots sigOk certs c.1.der := by
  induction rest generalizing c with
  | nil =>
    cases hlast
    exact .byRoot hroot ((hok c (by simp)).1.signed hsig)
  | cons b rest ih =>
    obtain ⟨hlink, hlinked⟩ := isChain_cons_cons.1 hlinked
    obtain ⟨hb, hmem⟩ := hok b (by simp)
    rw [getLast?_cons_cons] at hlast
    exact .byIssuer hmem hb.certKey ((hok c (by simp)).1.signed hlink.1)
      (ih (fun x hx => hok x (mem_cons_of_mem _ hx)) hlinked hlast)

end Sound

/-! ### The certificates before the walk -/

section Checks

variable {clock : Option RtcTime}

variable {sni : Option CString} {x : Parsed} {certs : List Presented} {xs : List Parsed}

theorem parseCert_ok {c : Presented}
    (h : parseCert clock sni c = .ok x) : x.1 = c ∧ x509ParseDer c.der sni = some x.2 := by
  rw [parseCert] at h
  split at h
  · cases h
  split at h
  next y hy _ =>
    cases h
    exact ⟨rfl, hy⟩
  · cases h

/-- All certificates are parsed, and those behind the first without a host name. -/
theorem parseCerts_ok (h : parseCerts clock sni certs = .ok xs) :
    xs.map Prod.fst = certs ∧ (∀ x ∈ xs.head?, x509ParseDer x.1.der sni = some x.2) ∧
      ∀ x ∈ xs.tail, x509ParseDer x.1.der none = some x.2 := by
  induction certs generalizing sni xs with
  | nil =>
    rw [parseCerts] at h
    cases h
    exact ⟨rfl, fun x hx => absurd hx (not_mem_none x), fun x hx => absurd hx not_mem_nil⟩
  | cons c certs ih =>
    rw [parseCerts] at h
    rcases hc : parseCert clock sni c with e | x
    · rw [hc] at h
      cases h
    rw [hc] at h
    dsimp only at h
    rcases hcs : parseCerts clock none certs with e | ys
    · rw [hcs] at h
      cases h
    rw [hcs] at h
    cases h
    obtain ⟨rfl, hx⟩ := parseCert_ok hc
    obtain ⟨hmap, hhead, htail⟩ := ih hcs
    refine ⟨by rw [map_cons, hmap], fun y hy => ?_, fun y hy => ?_⟩
    · cases hy
      exact hx
    rcases ys with _ | ⟨z, ys⟩
    · cases hy
    rcases mem_cons.1 hy with rfl | hy
    · exact hhead y rfl
    · exact htail y hy

theorem ok_of_parseCerts (h : parseCerts clock sni certs = .ok xs) (hx : x ∈ xs) :
    x.Ok ∧ x.1.der ∈ certs.map Presented.der := by
  obtain ⟨hmap, hhead, htail⟩ := parseCerts_ok h
  refine ⟨?_, ?_⟩
  · rcases xs with _ | ⟨y, xs⟩
    · cases hx
    rcases mem_cons.1 hx with rfl | hx
    · exact ⟨sni, hhead x rfl⟩
    · exact ⟨none, htail x hx⟩
  · rw [← hmap, List.map_map]
    exact List.mem_map_of_mem hx

/-- What is asked of the certificates before the walk: that they can be read, are valid, and that
the first is for the host. -/
structure Admitted (clock : Option RtcTime) (certs : List Presented) (host : Option CString)
    (leaf : Parsed) (rest : List Parsed) : Prop where
  count : certs.length ≤ 8
  parsed : parseCerts clock (sniOf host) certs = .ok (leaf :: rest)
  hostname : x509CertHostnameMatch leaf.2 host = some true

theorem webpkiVerifyChain_ok_iff {roots : List Bytes} {sha256 : Bytes → Bytes}
    {sigOk : Bytes → Bytes → Bytes → ℕ → Bool} {host : Option CString} :
    webpkiVerifyChain roots sha256 clock sigOk certs host = .ok () ↔
      ∃ leaf rest, Admitted clock certs host leaf rest ∧
        walk roots sha256 sigOk leaf rest = .ok () := by
  rw [webpkiVerifyChain]
  constructor
  · intro h
    split at h
    · cases h
    next hcount =>
    rw [not_or, not_lt] at hcount
    split at h
    · cases h
    · cases h
    next leaf rest hparsed =>
    split at h
    · cases h
    next hhost => exact ⟨leaf, rest, ⟨hcount.2, hparsed, not_not.1 hhost⟩, h⟩
  rintro ⟨leaf, rest, hadm, hwalk⟩
  have hne : certs ≠ [] := by
    rintro rfl
    exact absurd (parseCerts_ok hadm.parsed).1 (by simp)
  rw [if_neg (by simpa [hne] using hadm.count), hadm.parsed]
  dsimp only
  rwa [if_neg (not_not.2 hadm.hostname)]

end Checks

/-! ### When acceptance has a reason -/

section Iff

variable {roots : List Bytes} {sha256 : Bytes → Bytes}

/-- Each certificate has a signature that can be found, and the next may issue one. -/
def Walkable (xs : List Parsed) : Prop :=
  xs.IsChain fun a b => certTbsAndSig a.1 ≠ none ∧
    (b.2.hasBasicConstraints = true → b.2.isCa = true)

/-- The certificate is a root, or has the key of one. -/
def Genuine (roots : List Bytes) (d : Parsed) : Prop :=
  d.1.der ∈ roots ∨ rootSpkiMatch roots d.key = true

/-- The walk ends well: at the server's certificate if it is a root, and later at a certificate that
is genuine, if it can come that far at all. -/
def EndsWell (roots : List Bytes) (sha256 : Bytes → Bytes) (xs : List Parsed) : Prop :=
  ∀ before d after, xs = before ++ d :: after → EndsAt roots sha256 before d →
    (before = [] → d.1.der ∈ roots) ∧
      (before ≠ [] → Genuine roots d ∨ ¬ Walkable (before ++ [d]))

variable {sigOk : Bytes → Bytes → Bytes → ℕ → Bool} {xs : List Parsed} {α : Type*} {c : Parsed}
    {key : Bytes}

theorem Linked.walkable (h : Linked sigOk xs) : Walkable xs := by
  refine h.imp fun a b hab => ⟨fun hnone => ?_, hab.2⟩
  have hsig := hab.1
  rw [verifyCertSig, hnone] at hsig
  cases hsig

theorem mem_of_mem_walked {before after : List α} {d x : α} (h : x ∈ before ++ [d]) :
    x ∈ before ++ d :: after := by
  rw [append_cons]
  exact mem_append_left after h

theorem walk_of_endsAt {before after : List Parsed}
    {d : Parsed} {rest : List Parsed} (hsplit : c :: rest = before ++ d :: after)
    (hends : EndsAt roots sha256 before d) (hlinked : Linked sigOk (before ++ [d])) :
    walk roots sha256 sigOk c rest = .ok () := by
  induction before generalizing c rest with
  | nil =>
    cases hsplit
    cases after with
    | nil | cons _ _ => rw [walk, if_pos hends.2]
  | cons b before ih =>
    obtain ⟨rfl, rfl⟩ : c = b ∧ rest = before ++ d :: after := List.cons.inj hsplit
    have hb := hends.1 c mem_cons_self
    have hends' : EndsAt roots sha256 before d :=
      ⟨fun x hx => hends.1 x (mem_cons_of_mem _ hx), hends.2⟩
    obtain ⟨next, rest, hnext⟩ : ∃ next rest, before ++ d :: after = next :: rest := by
      cases before with
      | nil => exact ⟨d, after, rfl⟩
      | cons x xs => exact ⟨x, xs ++ d :: after, rfl⟩
    have hlink : (verifyCertSig sigOk c.1 next.key = true ∧
        (next.2.hasBasicConstraints = true → next.2.isCa = true)) ∧
        Linked sigOk (before ++ [d]) := by
      cases before with
      | nil | cons x xs =>
        cases hnext
        exact isChain_cons_cons.1 hlinked
    rw [hnext, walk, hb, if_neg Bool.false_ne_true, hlink.1.1, Bool.not_true,
      if_neg Bool.false_ne_true, if_neg]
    · exact ih hnext.symm hends' hlink.2
    rw [Bool.and_eq_true, Bool.not_eq_true']
    rintro ⟨hbc, hca⟩
    rw [hlink.1.2 hbc] at hca
    cases hca

/-- Signatures that hold for the links of a list, and no others. -/
def onlyLinks (xs : List Parsed) (key tbs sig : Bytes) (hint : ℕ) : Bool :=
  (xs.zip xs.tail).any fun (a, b) => b.key = key && certTbsAndSig a.1 = some ⟨tbs, sig, hint⟩

theorem mem_zip_tail (l₁ l₂ : List α) (a b : α) :
    (a, b) ∈ (l₁ ++ a :: b :: l₂).zip (l₁ ++ a :: b :: l₂).tail := by
  induction l₁ with
  | nil => exact mem_cons_self
  | cons x l₁ ih =>
    cases l₁ with
    | nil | cons y l₁ => exact mem_cons_of_mem _ ih

theorem Walkable.linked_onlyLinks (h : Walkable xs) : Linked (onlyLinks xs) xs := by
  rw [Linked, isChain_iff_forall_rel_of_append_cons_cons]
  intro a b l₁ l₂ hxs
  obtain ⟨hsig, hca⟩ := isChain_iff_forall_rel_of_append_cons_cons.1 h hxs
  refine ⟨?_, hca⟩
  rw [verifyCertSig]
  rcases hs : certTbsAndSig a.1 with _ | s
  · exact absurd hs hsig
  · refine List.any_eq_true.2 ⟨(a, b), hxs ▸ mem_zip_tail l₁ l₂ a b, ?_⟩
    simp [hs]

theorem Signed.exists_issuer {der : Bytes}
    (h : Signed (onlyLinks xs) key der) : ∃ b ∈ xs.tail, b.key = key := by
  obtain ⟨tbs, sig, hint, -, hsig⟩ := h
  obtain ⟨⟨a, b⟩, hab, hsig⟩ := List.any_eq_true.1 hsig
  rw [Bool.and_eq_true, decide_eq_true_iff] at hsig
  exact ⟨b, (of_mem_zip hab).2, hsig.1⟩

theorem isRootKey_of_rootSpkiMatch (h : rootSpkiMatch roots key = true) : IsRootKey roots key := by
  rw [rootSpkiMatch, Bool.and_eq_true] at h
  obtain ⟨r, hr, hkey⟩ := List.any_eq_true.1 h.2
  exact ⟨r, hr, of_decide_eq_true hkey⟩

theorem IsRootKey.rootSpkiMatch (h : IsRootKey roots key) (hne : key ≠ []) :
    rootSpkiMatch roots key = true := by
  obtain ⟨r, hr, hkey⟩ := h
  rw [Webpki.rootSpkiMatch, Bool.and_eq_true]
  exact ⟨decide_eq_true hne, List.any_eq_true.2 ⟨r, hr, decide_eq_true hkey⟩⟩

/-- With the signatures of the links alone, no certificate is trusted if none that issues has the
key of a root. -/
theorem not_trusted_onlyLinks (hok : ∀ x ∈ xs, x.Ok)
    (hkeys : ∀ b ∈ xs.tail, rootSpkiMatch roots b.key = false) (certs : List Bytes) (c : Bytes) :
    ¬ Trusted roots (onlyLinks xs) certs c := by
  intro h
  obtain ⟨key, d, hsigned, hroot⟩ := h.exists_signed
  obtain ⟨b, hb, rfl⟩ := hsigned.exists_issuer
  have hmatch := hroot.rootSpkiMatch (hok b (mem_of_mem_tail hb)).key_ne_nil
  rw [hkeys b hb] at hmatch
  cases hmatch

theorem isAnchor_eq_false (h : isAnchor roots sha256 c = false) :
    c.1.der ∉ roots ∧ rootSpkiMatch roots c.key = false := by
  rw [isAnchor, Bool.or_eq_false_iff] at h
  refine ⟨fun hmem => ?_, h.2⟩
  have : rootMatch roots sha256 c.1.der = true :=
    List.any_eq_true.2 ⟨_, hmem, by simp⟩
  rw [h.1] at this
  cases this

/-- **When acceptance has a reason**, whatever the signatures. -/
theorem chain_sound_iff (roots : List Bytes) (sha256 : Bytes → Bytes) (clock : Option RtcTime)
    (certs : List Presented) (host : Option CString) :
    (∀ sigOk, webpkiVerifyChain roots sha256 clock sigOk certs host = .ok () →
        HasReason roots sigOk certs) ↔
      ∀ leaf rest, Admitted clock certs host leaf rest → EndsWell roots sha256 (leaf :: rest) := by
  constructor
  · intro h leaf rest hadm before d after hsplit hends
    have hok := fun x hx => (ok_of_parseCerts hadm.parsed (x := x) hx).1
    have hhead : ∀ leaf', certs.head? = some leaf' → leaf' = leaf.1 := fun leaf' hleaf' => by
      rw [← (parseCerts_ok hadm.parsed).1] at hleaf'
      exact (some.inj hleaf').symm
    constructor
    · rintro rfl
      cases hsplit
      obtain ⟨leaf', hleaf', hreason⟩ := h (fun _ _ _ _ => false)
        (webpkiVerifyChain_ok_iff.2 ⟨leaf, rest, hadm,
          walk_of_endsAt (nil_append _).symm hends (isChain_singleton _)⟩)
      rw [hhead leaf' hleaf'] at hreason
      refine hreason.resolve_right fun htrusted => ?_
      obtain ⟨_, _, ⟨_, _, _, _, hfalse⟩, _⟩ := htrusted.exists_signed
      cases hfalse
    intro hne
    by_contra hnot
    rw [not_or, not_not] at hnot
    obtain ⟨hgen, hwalkable⟩ := hnot
    obtain ⟨leaf', hleaf', hreason⟩ := h (onlyLinks (before ++ [d]))
      (webpkiVerifyChain_ok_iff.2 ⟨leaf, rest, hadm,
        walk_of_endsAt hsplit hends hwalkable.linked_onlyLinks⟩)
    rw [hhead leaf' hleaf'] at hreason
    obtain ⟨b, before, rfl⟩ := exists_cons_of_ne_nil hne
    have hleaf : leaf = b := (List.cons.inj hsplit).1
    rcases hreason with hmem | htrusted
    · exact (isAnchor_eq_false (hends.1 leaf (hleaf ▸ mem_cons_self))).1 hmem
    refine not_trusted_onlyLinks (fun x hx => hok x (hsplit ▸ mem_of_mem_walked hx))
      (fun x hx => ?_) _ _ htrusted
    · rw [cons_append, tail_cons, mem_append, mem_singleton] at hx
      rcases hx with hx | rfl
      · exact (isAnchor_eq_false (hends.1 x (mem_cons_of_mem _ hx))).2
      · exact Bool.not_eq_true _ ▸ fun hmatch => hgen (.inr hmatch)
  intro h sigOk haccept
  obtain ⟨leaf, rest, hadm, hwalk⟩ := webpkiVerifyChain_ok_iff.1 haccept
  have hok := fun x hx => ok_of_parseCerts hadm.parsed (x := x) hx
  obtain ⟨hmap, -, htail⟩ := parseCerts_ok hadm.parsed
  refine ⟨leaf.1, by rw [← hmap]; rfl, ?_⟩
  rcases walk_cases hwalk with ⟨before, d, after, hsplit, hends, hlinked⟩ |
    ⟨hlinked, last, key, hlast, hroot, hsig⟩
  · obtain ⟨hfirst, hlater⟩ := h leaf rest hadm before d after hsplit hends
    rcases before with _ | ⟨b, before⟩
    · cases hsplit
      exact .inl (hfirst rfl)
    cases hsplit
    have hgen := (hlater (cons_ne_nil _ _)).resolve_right (not_not.2 hlinked.walkable)
    have hroot : IsRootKey roots d.key := by
      rcases hgen with hmem | hmatch
      · refine ⟨d.1.der, hmem, ?_⟩
        rw [rootKey, htail d (by simp)]
        rfl
      · exact isRootKey_of_rootSpkiMatch hmatch
    exact .inr (trusted_of_carrier (fun x hx => hok x (mem_of_mem_walked hx)) hlinked hroot)
  · exact .inr (trusted_of_signed hok hlinked hlast hroot hsig)

end Iff

/-- `root_amazon_root_ca_3`, one of the embedded roots. -/
def amazonRootCa3 : Bytes :=
  [
    0x30, 0x82, 0x01, 0xb6, 0x30, 0x82, 0x01, 0x5b, 0xa0, 0x03, 0x02, 0x01, 0x02, 0x02, 0x13,
    0x06, 0x6c, 0x9f, 0xd5, 0x74, 0x97, 0x36, 0x66, 0x3f, 0x3b, 0x0b, 0x9a, 0xd9, 0xe8, 0x9e,
    0x76, 0x03, 0xf2, 0x4a, 0x30, 0x0a, 0x06, 0x08, 0x2a, 0x86, 0x48, 0xce, 0x3d, 0x04, 0x03,
    0x02, 0x30, 0x39, 0x31, 0x0b, 0x30, 0x09, 0x06, 0x03, 0x55, 0x04, 0x06, 0x13, 0x02, 0x55,
    0x53, 0x31, 0x0f, 0x30, 0x0d, 0x06, 0x03, 0x55, 0x04, 0x0a, 0x13, 0x06, 0x41, 0x6d, 0x61,
    0x7a, 0x6f, 0x6e, 0x31, 0x19, 0x30, 0x17, 0x06, 0x03, 0x55, 0x04, 0x03, 0x13, 0x10, 0x41,
    0x6d, 0x61, 0x7a, 0x6f, 0x6e, 0x20, 0x52, 0x6f, 0x6f, 0x74, 0x20, 0x43, 0x41, 0x20, 0x33,
    0x30, 0x1e, 0x17, 0x0d, 0x31, 0x35, 0x30, 0x35, 0x32, 0x36, 0x30, 0x30, 0x30, 0x30, 0x30,
    0x30, 0x5a, 0x17, 0x0d, 0x34, 0x30, 0x30, 0x35, 0x32, 0x36, 0x30, 0x30, 0x30, 0x30, 0x30,
    0x30, 0x5a, 0x30, 0x39, 0x31, 0x0b, 0x30, 0x09, 0x06, 0x03, 0x55, 0x04, 0x06, 0x13, 0x02,
    0x55, 0x53, 0x31, 0x0f, 0x30, 0x0d, 0x06, 0x03, 0x55, 0x04, 0x0a, 0x13, 0x06, 0x41, 0x6d,
    0x61, 0x7a, 0x6f, 0x6e, 0x31, 0x19, 0x30, 0x17, 0x06, 0x03, 0x55, 0x04, 0x03, 0x13, 0x10,
    0x41, 0x6d, 0x61, 0x7a, 0x6f, 0x6e, 0x20, 0x52, 0x6f, 0x6f, 0x74, 0x20, 0x43, 0x41, 0x20,
    0x33, 0x30, 0x59, 0x30, 0x13, 0x06, 0x07, 0x2a, 0x86, 0x48, 0xce, 0x3d, 0x02, 0x01, 0x06,
    0x08, 0x2a, 0x86, 0x48, 0xce, 0x3d, 0x03, 0x01, 0x07, 0x03, 0x42, 0x00, 0x04, 0x29, 0x97,
    0xa7, 0xc6, 0x41, 0x7f, 0xc0, 0x0d, 0x9b, 0xe8, 0x01, 0x1b, 0x56, 0xc6, 0xf2, 0x52, 0xa5,
    0xba, 0x2d, 0xb2, 0x12, 0xe8, 0xd2, 0x2e, 0xd7, 0xfa, 0xc9, 0xc5, 0xd8, 0xaa, 0x6d, 0x1f,
    0x73, 0x81, 0x3b, 0x3b, 0x98, 0x6b, 0x39, 0x7c, 0x33, 0xa5, 0xc5, 0x4e, 0x86, 0x8e, 0x80,
    0x17, 0x68, 0x62, 0x45, 0x57, 0x7d, 0x44, 0x58, 0x1d, 0xb3, 0x37, 0xe5, 0x67, 0x08, 0xeb,
    0x66, 0xde, 0xa3, 0x42, 0x30, 0x40, 0x30, 0x0f, 0x06, 0x03, 0x55, 0x1d, 0x13, 0x01, 0x01,
    0xff, 0x04, 0x05, 0x30, 0x03, 0x01, 0x01, 0xff, 0x30, 0x0e, 0x06, 0x03, 0x55, 0x1d, 0x0f,
    0x01, 0x01, 0xff, 0x04, 0x04, 0x03, 0x02, 0x01, 0x86, 0x30, 0x1d, 0x06, 0x03, 0x55, 0x1d,
    0x0e, 0x04, 0x16, 0x04, 0x14, 0xab, 0xb6, 0xdb, 0xd7, 0x06, 0x9e, 0x37, 0xac, 0x30, 0x86,
    0x07, 0x91, 0x70, 0xc7, 0x9c, 0xc4, 0x19, 0xb1, 0x78, 0xc0, 0x30, 0x0a, 0x06, 0x08, 0x2a,
    0x86, 0x48, 0xce, 0x3d, 0x04, 0x03, 0x02, 0x03, 0x49, 0x00, 0x30, 0x46, 0x02, 0x21, 0x00,
    0xe0, 0x85, 0x92, 0xa3, 0x17, 0xb7, 0x8d, 0xf9, 0x2b, 0x06, 0xa5, 0x93, 0xac, 0x1a, 0x98,
    0x68, 0x61, 0x72, 0xfa, 0xe1, 0xa1, 0xd0, 0xfb, 0x1c, 0x78, 0x60, 0xa6, 0x43, 0x99, 0xc5,
    0xb8, 0xc4, 0x02, 0x21, 0x00, 0x9c, 0x02, 0xef, 0xf1, 0x94, 0x9c, 0xb3, 0x96, 0xf9, 0xeb,
    0xc6, 0x2a, 0xf8, 0xb6, 0x2c, 0xfe, 0x3a, 0x90, 0x14, 0x16, 0xd7, 0x8c, 0x63, 0x24, 0x48,
    0x1c, 0xdf, 0x30, 0x7d, 0xd5, 0x68, 0x3b]

/-- A certificate for `a.b` that has the key of that root, and an empty signature. -/
def leafWithRootKey : Bytes :=
  [0x30, 0x81, 0xa0, 0x30, 0x81, 0x98, 0x02, 0x01, 0x01] ++ X509.tenYears ++
    (amazonRootCa3.drop 196).take 91 ++
    [0xa3, 0x12, 0x30, 0x10, 0x30, 0x0e, 0x06, 0x03, 0x55, 0x1d, 0x11, 0x04, 0x07, 0x30, 0x05, 0x82,
    0x03, 0x61, 0x2e, 0x62, 0x30, 0x00, 0x03, 0x01, 0x00]

def newYear2030 : RtcTime := ⟨2030, 1, 1, 0, 0, 0⟩

theorem unsigned_leaf :
    ¬ ∀ (roots : List Bytes) (sha256 : Bytes → Bytes) (clock : Option RtcTime)
      (sigOk : Bytes → Bytes → Bytes → ℕ → Bool) (certs : List Presented) (host : Option CString),
      webpkiVerifyChain roots sha256 clock sigOk certs host = .ok () →
        HasReason roots sigOk certs := by
  intro h
  obtain ⟨leaf, hleaf, hreason⟩ := h [amazonRootCa3] id (some newYear2030) (fun _ _ _ _ => false)
    [⟨leafWithRootKey, []⟩] (some X509.hostAB) (by decide +kernel)
  cases hleaf
  rcases hreason with hroot | htrusted
  · exact absurd hroot (by decide +kernel)
  · obtain ⟨_, _, ⟨_, _, _, _, hfalse⟩, _⟩ := htrusted.exists_signed
    cases hfalse

end PeakOs.Webpki
