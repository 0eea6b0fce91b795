import PeakOs.X509.Extensions

/-!
# Host names

A certificate is for the host names that its subjectAltName lists, as RFC 6125 reads them: a name is
for itself, whatever the case of its letters, and `*.` with the rest of a name for every host that
has one more label in front.

The entries of the list are byte strings with a length. The parser copies them into arrays of 128
`char` and compares them as C strings. So an entry ends at its first NUL for it; entries of 128
bytes or more are dropped; it keeps the first eight, and tests the others only against the host name
it was given in advance. And the label that `*` stands for may be empty.

## Main results

* `keepsNames_of_x509ParseDer` — what the parser keeps of the names
* `rfc6125_of_matches`, `matches_of_rfc6125` — where the comparison is that of RFC 6125
* `hostnameMatch_correct_iff` — when the answer is right
* `nul_in_name` — a name with a NUL in it
-/

namespace PeakOs.X509

open List

open Tls (Bytes rd8 slice)

/-! ### The comparison -/

/-- Lower case changes letters, and into letters. -/
theorem lower_eq_iff {c d : UInt8} (hd : d < 65) : lower c = d ↔ c = d := by
  rw [lower]
  split
  next h =>
    have hsum : (c + 32).toNat = c.toNat + 32 := by
      have := UInt8.le_iff_toNat_le.1 h.2
      exact Nat.mod_eq_of_lt (by simp at this ⊢; omega)
    have hc := UInt8.le_iff_toNat_le.1 h.1
    have hd' := UInt8.lt_iff_toNat_lt.1 hd
    constructor
    · rintro rfl
      exact absurd (hd'.trans_le hc) (by omega)
    · rintro rfl
      exact absurd hd (UInt8.not_lt.2 h.1)
  · exact Iff.rfl

theorem ciEq_iff (a b : Bytes) : ciEq a b = true ↔ a.map lower = b.map lower := by
  induction a generalizing b with
  | nil => cases b <;> simp [ciEq]
  | cons x a ih =>
    cases b with
    | nil => simp [ciEq]
    | cons y b => simp [ciEq, ih]

/-- The host is one that the entry is for. -/
def Rfc6125 (entry host : Bytes) : Prop :=
  entry.map lower = host.map lower ∨
    ∃ label rest hostRest, entry = star :: dot :: rest ∧ host = label ++ dot :: hostRest ∧
      label ≠ [] ∧ dot ∉ label ∧ rest.map lower = hostRest.map lower

/-- A pattern with a `*` for the first label. -/
def IsWildcard (entry : Bytes) : Prop := entry.take 2 = [star, dot]

variable {entry der : Bytes} {pattern host : CString}

theorem isWildcard_iff : IsWildcard entry ↔ ∃ rest, entry = star :: dot :: rest := by
  constructor
  · intro h
    match entry, h with
    | a :: b :: rest, h =>
      cases h
      exact ⟨rest, rfl⟩
  · rintro ⟨rest, rfl⟩
    rfl

/-- A host is a label and the rest from its first dot on. -/
theorem fromDot_eq_cons_iff {host tail : Bytes} :
    fromDot host = dot :: tail ↔ ∃ label, host = label ++ dot :: tail ∧ dot ∉ label := by
  induction host with
  | nil => simp [fromDot]
  | cons c host ih =>
    by_cases hc : c = dot
    · subst hc
      constructor
      · intro h
        exact ⟨[], h, not_mem_nil⟩
      rintro ⟨_ | ⟨a, label⟩, h, hlabel⟩
      · exact h
      · cases h
        exact absurd mem_cons_self hlabel
    rw [fromDot, dropWhile_cons_of_pos (by simpa using hc)]
    refine ih.trans ⟨?_, ?_⟩
    · rintro ⟨label, rfl, hlabel⟩
      exact ⟨c :: label, rfl, by simpa using ⟨Ne.symm hc, hlabel⟩⟩
    rintro ⟨_ | ⟨a, label⟩, h, hlabel⟩
    · cases h
      exact absurd rfl hc
    · cases h
      exact ⟨label, rfl, fun h => hlabel (mem_cons_of_mem _ h)⟩

theorem cString_bytes_of_noNul {name : Bytes} (h : (0 : UInt8) ∉ name) :
    (cString name).bytes = name := by
  rw [cString, takeWhile_eq_self_iff]
  intro c hc
  exact decide_eq_true fun h0 => h (h0 ▸ hc)

theorem fromDot_ne_nil {host : Bytes} (h : fromDot host ≠ []) :
    ∃ tail, fromDot host = dot :: tail := by
  induction host with
  | nil => exact absurd rfl h
  | cons c host ih =>
    by_cases hc : c = dot
    · subst hc
      exact ⟨host, by rw [fromDot, dropWhile_cons_of_neg (by simp)]⟩
    · rw [fromDot, dropWhile_cons_of_pos (by simpa using hc)] at h ⊢
      exact ih h

/-- The comparison, for a pattern without a `*`. -/
theorem matches_plain_iff (hw : ¬ IsWildcard pattern.bytes) :
    tlsHostnameMatchesSni pattern host = true ↔
      host.bytes ≠ [] ∧ pattern.bytes.map lower = host.bytes.map lower := by
  rw [tlsHostnameMatchesSni]
  split
  next hnil => simp [hnil]
  next hne =>
  rw [if_neg (show ¬ pattern.bytes.take 2 = [star, dot] from hw), ciEq_iff]
  exact (and_iff_right hne).symm

/-- The comparison, for a pattern with one: the first label of the host does not matter. -/
theorem matches_wildcard_iff {rest : Bytes} (hw : pattern.bytes = star :: dot :: rest) :
    tlsHostnameMatchesSni pattern host = true ↔
      ∃ label hostRest, host.bytes = label ++ dot :: hostRest ∧ dot ∉ label ∧
        rest.map lower = hostRest.map lower := by
  rw [tlsHostnameMatchesSni, hw]
  constructor
  · intro h
    split at h
    · cases h
    rw [if_pos (show (star :: dot :: rest).take 2 = [star, dot] from rfl)] at h
    split at h
    · cases h
    next hne =>
    obtain ⟨tail, htail⟩ := fromDot_ne_nil hne
    obtain ⟨label, hlabel, hdot⟩ := fromDot_eq_cons_iff.1 htail
    rw [htail, ciEq_iff] at h
    exact ⟨label, tail, hlabel, hdot, (List.cons.inj h).2⟩
  rintro ⟨label, hostRest, hhost, hdot, hrest⟩
  have htail := fromDot_eq_cons_iff.2 ⟨label, hhost, hdot⟩
  rw [if_neg (by rw [hhost]; simp),
    if_pos (show (star :: dot :: rest).take 2 = [star, dot] from rfl), htail,
    if_neg (cons_ne_nil _ _), ciEq_iff]
  simp [hrest]

/-- The entry is for the host if it is compared as a string, but it has a NUL in it, or the label
that the `*` stands for is empty. -/
def Misread (entry : Bytes) (host : CString) : Prop :=
  tlsHostnameMatchesSni (cString entry) host = true ∧
    ((0 : UInt8) ∈ entry ∨ IsWildcard entry ∧ host.bytes.head? = some dot)

theorem rfc6125_of_matches
    (h : tlsHostnameMatchesSni (cString entry) host = true) (hread : ¬ Misread entry host) :
    Rfc6125 entry host.bytes := by
  have hnul : (0 : UInt8) ∉ entry := fun h0 => hread ⟨h, .inl h0⟩
  have hbytes := cString_bytes_of_noNul hnul
  by_cases hw : IsWildcard entry
  · obtain ⟨rest, hrest⟩ := isWildcard_iff.1 hw
    obtain ⟨label, hostRest, hhost, hdot, heq⟩ :=
      (matches_wildcard_iff (hbytes.trans hrest)).1 h
    refine .inr ⟨label, rest, hostRest, hrest, hhost, ?_, hdot, heq⟩
    rintro rfl
    exact hread ⟨h, .inr ⟨hw, by rw [hhost]; rfl⟩⟩
  · rw [matches_plain_iff (by rwa [hbytes]), hbytes] at h
    exact .inl h.2

theorem noNul_of_map_lower {a b : Bytes} (h : a.map lower = b.map lower) (hb : (0 : UInt8) ∉ b) :
    (0 : UInt8) ∉ a := by
  intro ha
  have hmem : (0 : UInt8) ∈ b.map lower := by
    rw [← h]
    exact mem_map.2 ⟨0, ha, rfl⟩
  obtain ⟨c, hc, hzero⟩ := mem_map.1 hmem
  rw [(lower_eq_iff (by decide)).1 hzero] at hc
  exact hb hc

theorem Rfc6125.noNul (h : Rfc6125 entry host.bytes) : (0 : UInt8) ∉ entry := by
  rcases h with heq | ⟨label, rest, hostRest, rfl, hhost, -, -, heq⟩
  · exact noNul_of_map_lower heq host.noNul
  have hrest : (0 : UInt8) ∉ hostRest := fun h0 => host.noNul (by rw [hhost]; simp [h0])
  have := noNul_of_map_lower heq hrest
  simpa [star, dot] using this

/-- **The comparison finds what RFC 6125 does.** -/
theorem matches_of_rfc6125 (h : Rfc6125 entry host.bytes)
    (hne : entry ≠ []) : tlsHostnameMatchesSni (cString entry) host = true := by
  have hbytes := cString_bytes_of_noNul h.noNul
  by_cases hw : IsWildcard entry
  · obtain ⟨rest, hrest⟩ := isWildcard_iff.1 hw
    rw [matches_wildcard_iff (hbytes.trans hrest)]
    rcases h with heq | ⟨label, rest', hostRest, hentry, hhost, -, hdot, heq⟩
    · -- the host is the pattern itself
      rw [hrest] at heq
      obtain ⟨a, tail, hhost, ha, heq⟩ := map_eq_cons_iff.1 heq.symm
      obtain ⟨b, tail, rfl, hb, heq⟩ := map_eq_cons_iff.1 heq
      replace ha : a = star := (lower_eq_iff (by decide)).1 ha
      replace hb : b = dot := (lower_eq_iff (by decide)).1 hb
      exact ⟨[star], tail, by rw [hhost, ha, hb]; rfl, by decide, heq.symm⟩
    rw [hrest] at hentry
    cases hentry
    exact ⟨label, hostRest, hhost, hdot, heq⟩
  rw [matches_plain_iff (by rwa [hbytes]), hbytes]
  rcases h with heq | ⟨label, rest, hostRest, hentry, -⟩
  · refine ⟨fun hnil => hne ?_, heq⟩
    rw [hnil] at heq
    exact map_eq_nil_iff.1 heq
  · exact absurd (isWildcard_iff.2 ⟨rest, hentry⟩) hw

/-! ### What the parser keeps -/

/-- A name that fits its array. -/
def usable (name : Bytes) : Bool := name ≠ [] && name.length < x509NameMax

/-- The dNSName entries of an extension, if it is a subjectAltName. -/
def sanNames (der : Bytes) (x : Piece × Piece) : List Bytes :=
  if isOid der oidSubjectAltName x.1 then
    (((expectTag der 0x30 x.2).bind fun (gn, _) =>
      Frames.frames Piece.len (nextName der) gn.len gn).getD []).filterMap fun (tag, v) =>
        if tag = 0x82 then some (v.bytes der) else none
  else []

/-- The dNSName entries of a certificate. -/
def dnsNames (der : Bytes) : List Bytes := (certExtensions der).flatMap (sanNames der)

/-- What is kept of the names, for a host name to look for. -/
structure KeepsNames (sni : Option CString) (names : List Bytes) (c : X509Cert) : Prop where
  sans : c.sans = (names.filter usable).take x509SanMax
  sanTotal : c.sanTotal = (names.filter usable).length
  matchSni : c.matchSni = sni
  hit : c.matchSniHit = (names.filter usable).any (wanted sni)

section Names

variable {sni : Option CString} {names : List Bytes} {c : X509Cert} (h : KeepsNames sni names c)

include h

theorem KeepsNames.addSan (name : Bytes) : KeepsNames sni (names ++ [name]) (addSan name c) := by
  rw [X509.addSan]
  split
  next hlong =>
    have hfilter : (names ++ [name]).filter usable = names.filter usable := by
      rw [filter_append, filter_cons_of_neg, filter_nil, append_nil]
      rw [usable, Bool.and_eq_true, decide_eq_true_iff, decide_eq_true_iff]
      rintro ⟨hne, hlen⟩
      exact hlong.elim hne fun hle => absurd hlen (not_lt.2 hle)
    exact ⟨hfilter ▸ h.sans, hfilter ▸ h.sanTotal, h.matchSni, hfilter ▸ h.hit⟩
  next hshort =>
    rw [not_or, not_le] at hshort
    have hfilter : (names ++ [name]).filter usable = names.filter usable ++ [name] := by
      rw [filter_append, filter_cons_of_pos, filter_nil]
      rw [usable, Bool.and_eq_true, decide_eq_true_iff, decide_eq_true_iff]
      exact hshort
    refine ⟨?_, ?_, h.matchSni, ?_⟩
    · dsimp only
      rw [hfilter, h.sans, length_take, take_append]
      split
      next hfull =>
        rw [Nat.sub_eq_zero_of_le (hfull.trans (min_le_right _ _)), take_zero, append_nil]
      next hfree =>
      rw [take_of_length_le (show [name].length ≤ _ - _ from ?_)]
      rw [length_singleton]
      omega
    · dsimp only
      rw [hfilter, h.sanTotal, length_append, length_singleton]
    · dsimp only
      rw [hfilter, h.hit, h.matchSni, any_append, any_cons, any_nil, Bool.or_false]

theorem KeepsNames.takeExtension {der : Bytes} {x : Piece × Piece} {c' : X509Cert}
    (hx : takeExtension der x c = some c') : KeepsNames sni (names ++ sanNames der x) c' := by
  rcases takeExtension_cases hx with ⟨hsan, gn, rest, hgn, hadd⟩ | ⟨hbc, bc, rest, -, rfl⟩ |
    ⟨hsan, -, hsame⟩
  · rw [sanNames, if_pos hsan, hgn, Option.bind_some]
    have hrule := Frames.eachFrame_rule
      (P := fun done t => KeepsNames sni (names ++ done.filterMap fun (tag, v) =>
        if tag = 0x82 then some (Piece.bytes der v) else none) t) ?_ (by simpa using h) hadd
    · obtain ⟨as, has, hkeep⟩ := hrule
      dsimp only
      rw [has]
      exact hkeep
    rintro done ⟨tag, v⟩ s t hs ht
    cases ht
    rw [filterMap_append, ← append_assoc]
    by_cases htag : tag = 0x82
    · rw [if_pos htag]
      simpa [htag] using hs.addSan (v.bytes der)
    · rw [if_neg htag]
      simpa [htag] using hs
  · rw [sanNames, isOid_ne hbc (by decide), if_neg Bool.false_ne_true, append_nil]
    exact ⟨h.sans, h.sanTotal, h.matchSni, h.hit⟩
  rw [sanNames, hsan, if_neg Bool.false_ne_true, append_nil]
  exact ⟨hsame.sans.trans h.sans, hsame.sanTotal.trans h.sanTotal,
    hsame.matchSni.trans h.matchSni, hsame.matchSniHit.trans h.hit⟩

end Names

variable {sni : Option CString} {c : X509Cert}

/-- **What the parser keeps of the names.** -/
theorem keepsNames_of_x509ParseDer
    (h : x509ParseDer der sni = some c) : KeepsNames sni (dnsNames der) c := by
  refine x509ParseDer_rule
    (P := fun done c => KeepsNames sni (done.flatMap (sanNames der)) c) h ?_ ?_
  · intro _ _ _
    exact ⟨rfl, rfl, rfl, rfl⟩
  intro done x s t hs ht
  rw [flatMap_append, flatMap_singleton]
  exact hs.takeExtension ht

/-! ### The answer -/

/-- The entries that a host name is compared with: all that fit, or the first eight of them if it is
not the one that was given in advance. -/
def compared (sni : Option CString) (host : CString) (names : List Bytes) : List Bytes :=
  if sni = some host then names.filter usable else (names.filter usable).take x509SanMax

theorem compared_subset {names : List Bytes} : compared sni host names ⊆ names.filter usable := by
  rw [compared]
  split
  · exact List.Subset.refl _
  · exact take_subset _ _

theorem hostnameMatch_iff (host : CString) (h : x509ParseDer der sni = some c) :
    x509CertHostnameMatch c (some host) = some true ↔
      ∃ e ∈ compared sni host (dnsNames der), tlsHostnameMatchesSni (cString e) host = true := by
  have hk := keepsNames_of_x509ParseDer h
  have hany : c.sans.any (fun name => tlsHostnameMatchesSni (cString name) host) = true ↔
      ∃ e ∈ ((dnsNames der).filter usable).take x509SanMax,
        tlsHostnameMatchesSni (cString e) host = true := by rw [hk.sans, any_eq_true]
  rw [x509CertHostnameMatch]
  split
  · -- no entry is for the empty name
    next hnil =>
    have hempty : ∀ e : CString, tlsHostnameMatchesSni e host = false := fun e => by
      rw [tlsHostnameMatchesSni, if_pos hnil]
    simp [hempty]
  next hne =>
  rw [compared]
  split
  next hhit =>
    rw [Bool.and_eq_true, decide_eq_true_iff, hk.matchSni, hk.hit] at hhit
    obtain ⟨rfl, hhit⟩ := hhit
    obtain ⟨e, he, hw⟩ := any_eq_true.1 hhit
    rw [wanted, Bool.and_eq_true] at hw
    rw [if_pos rfl]
    exact ⟨fun _ => ⟨e, he, hw.2⟩, fun _ => rfl⟩
  next hmiss =>
  -- the names that are kept are all there is to compare with
  have hrest : (∃ e ∈ if sni = some host then (dnsNames der).filter usable
      else ((dnsNames der).filter usable).take x509SanMax,
        tlsHostnameMatchesSni (cString e) host = true) ↔
      c.sans.any (fun name => tlsHostnameMatchesSni (cString name) host) = true := by
    rw [hany]
    split
    next hsni =>
      rw [hk.matchSni, hsni, decide_eq_true rfl, hk.hit, hsni] at hmiss
      have hnone : ∀ e ∈ (dnsNames der).filter usable,
          ¬ tlsHostnameMatchesSni (cString e) host = true := fun e he hmatch =>
        hmiss (any_eq_true.2 ⟨e, he, by
          rw [wanted, Bool.and_eq_true, decide_eq_true_iff]
          exact ⟨hne, hmatch⟩⟩)
      exact ⟨fun ⟨e, he, hmatch⟩ => absurd hmatch (hnone e he), fun ⟨e, he, hmatch⟩ =>
        absurd hmatch (hnone e (mem_of_mem_take he))⟩
    · exact Iff.rfl
  rw [hrest]
  split
  next hnil =>
    rw [hnil]
    split <;> simp
  split
  next hfound => simp [hfound]
  next hfound =>
    split <;> simp [hfound]

/-- The answer for the host is the one that RFC 6125 gives. -/
def AnswersRight (der : Bytes) (c : X509Cert) (host : CString) : Prop :=
  x509CertHostnameMatch c (some host) = some true ↔ ∃ e ∈ dnsNames der, Rfc6125 e host.bytes

/-- **When the answer is right**: if the host is taken for that of an entry that is misread, it is
the host of some entry; and if it is the host of an entry that it is not compared with, it is found
with another. -/
theorem hostnameMatch_correct_iff {der : Bytes} {sni : Option CString} {c : X509Cert}
    (host : CString) (h : x509ParseDer der sni = some c) :
    AnswersRight der c host ↔
      (∀ e ∈ compared sni host (dnsNames der), Misread e host →
        ∃ e' ∈ dnsNames der, Rfc6125 e' host.bytes) ∧
      (∀ e ∈ dnsNames der, Rfc6125 e host.bytes → e ∉ compared sni host (dnsNames der) →
        ∃ e' ∈ compared sni host (dnsNames der),
          tlsHostnameMatchesSni (cString e') host = true) := by
  rw [AnswersRight, hostnameMatch_iff host h]
  constructor
  · intro hiff
    refine ⟨fun e he hmis => hiff.1 ⟨e, he, hmis.1⟩, fun e he hrfc _ => hiff.2 ⟨e, he, hrfc⟩⟩
  rintro ⟨hmis, hmiss⟩
  constructor
  · rintro ⟨e, he, hmatch⟩
    by_cases hm : Misread e host
    · exact hmis e he hm
    · exact ⟨e, mem_of_mem_filter (compared_subset he), rfc6125_of_matches hmatch hm⟩
  rintro ⟨e, he, hrfc⟩
  by_cases hc : e ∈ compared sni host (dnsNames der)
  · have hne : e ≠ [] := by
      have := of_mem_filter (compared_subset hc)
      rw [usable, Bool.and_eq_true, decide_eq_true_iff] at this
      exact this.1
    exact ⟨e, hc, matches_of_rfc6125 hrfc hne⟩
  · exact hmiss e he hrfc hc

/-- A certificate with two names, `a.b` and `*.c`. -/
def twoNames : Bytes :=
  [0x30, 0x46, 0x30, 0x44, 0x02, 0x01, 0x01] ++ tenYears ++
    [0x30, 0x00, 0xa3, 0x17, 0x30, 0x15, 0x30, 0x13, 0x06, 0x03, 0x55, 0x1d, 0x11, 0x04, 0x0c, 0x30,
    0x0a, 0x82, 0x03, 0x61, 0x2e, 0x62, 0x82, 0x03, 0x2a, 0x2e, 0x63]

/-- The host `x.c`. -/
def hostXC : CString := ⟨[120, 46, 99], by decide⟩

theorem hostnameMatch_wildcard :
    (x509ParseDer twoNames none).map (fun c => x509CertHostnameMatch c (some hostXC)) =
        some (some true) ∧
      ∃ c, x509ParseDer twoNames none = some c ∧
        (AnswersRight twoNames c hostXC ↔
          (∀ e ∈ compared none hostXC (dnsNames twoNames), Misread e hostXC →
            ∃ e' ∈ dnsNames twoNames, Rfc6125 e' hostXC.bytes) ∧
          (∀ e ∈ dnsNames twoNames, Rfc6125 e hostXC.bytes →
            e ∉ compared none hostXC (dnsNames twoNames) →
              ∃ e' ∈ compared none hostXC (dnsNames twoNames),
                tlsHostnameMatchesSni (cString e') hostXC = true)) := by
  have hsome : (x509ParseDer twoNames none).isSome = true := by decide +kernel
  refine ⟨by decide +kernel, _, (Option.some_get hsome).symm, ?_⟩
  exact hostnameMatch_correct_iff hostXC (Option.some_get hsome).symm

/-- A certificate with the one name `a.b`, NUL, `.c`. -/
def nulName : Bytes :=
  [0x30, 0x44, 0x30, 0x42, 0x02, 0x01, 0x01] ++ tenYears ++
    [0x30, 0x00, 0xa3, 0x15, 0x30, 0x13, 0x30, 0x11, 0x06, 0x03, 0x55, 0x1d, 0x11, 0x04, 0x0a, 0x30,
    0x08, 0x82, 0x06, 0x61, 0x2e, 0x62, 0x00, 0x2e, 0x63]

/-- The host `a.b`. -/
def hostAB : CString := ⟨[97, 46, 98], by decide⟩

theorem nul_in_name :
    ¬ ∀ (der : Bytes) (sni : Option CString) (c : X509Cert) (host : CString),
      x509ParseDer der sni = some c → AnswersRight der c host := by
  intro h
  have hsome : (x509ParseDer nulName (some hostAB)).isSome = true := by decide +kernel
  have hmatch : (x509ParseDer nulName (some hostAB)).map
      (fun c => x509CertHostnameMatch c (some hostAB)) = some (some true) := by decide +kernel
  obtain ⟨c, hc⟩ := Option.isSome_iff_exists.1 hsome
  rw [hc] at hmatch
  obtain ⟨e, he, hrfc⟩ := (h nulName (some hostAB) c hostAB hc).1 (Option.some.inj hmatch)
  have hnames : dnsNames nulName = [[97, 46, 98, 0, 46, 99]] := by decide +kernel
  rw [hnames, mem_singleton] at he
  exact hrfc.noNul (he ▸ by decide)

end PeakOs.X509
