import PeakOs.Tls.Handshake13

/-!
# The secrets a TLS 1.3 handshake ends with

RFC 8446, section 7.1, takes the application traffic secrets from the Master Secret and the
messages up to the *server's* Finished, and the resumption master secret from the same Master
Secret and the messages up to the client's. `tls13_handshake_after_sh` sends its Finished first:
`send_client_finished` puts the message into the running transcript and notes the resumption
secret, and only then does `derive_app_secrets` compute the Master Secret and the application
secrets. So the application secrets see one message too many, and the resumption secret is derived
from what the previous use left in `tls13_master_secret`.

## Main results

* `installed_of_ok` — the secrets of an accepted handshake, in closed form
* `keysAsSpecified_iff` — when they are those of section 7.1
* `keys_off_by_one_message` — a handshake for which they are not
-/

namespace PeakOs.Tls

open List Option

variable {τ : Type}

/-! ### Section 7.1 -/

namespace Rfc8446

variable (C : Crypto) (h : HashAlg)

/-- Derive-Secret over a list of messages, concatenated. -/
def deriveSecret (secret : Bytes) (label : String) (messages : Bytes) : Bytes :=
  C.expandLabel h secret label (C.hash h messages) h.size

def earlySecret : Bytes := C.extract h (zeros h.size) (zeros h.size)

def handshakeSecret (shared : Bytes) : Bytes :=
  C.extract h (deriveSecret C h (earlySecret C h) "derived" []) shared

def masterSecret (shared : Bytes) : Bytes :=
  C.extract h (deriveSecret C h (handshakeSecret C h shared) "derived" []) (zeros h.size)

end Rfc8446

/-- The messages up to the first Finished. -/
def throughFinished : List Bytes → List Bytes
  | [] => []
  | m :: ms => if rd8 m 0 = hsFinished then [m] else m :: throughFinished ms

/-- The messages behind the first Finished. -/
def afterFinished : List Bytes → List Bytes
  | [] => []
  | m :: ms => if rd8 m 0 = hsFinished then ms else afterFinished ms

theorem throughFinished_append_afterFinished (ms : List Bytes) :
    throughFinished ms ++ afterFinished ms = ms := by
  induction ms with
  | nil => rfl
  | cons m ms ih =>
    rw [throughFinished, afterFinished]
    split
    · rfl
    · rw [cons_append, ih]

variable (C : Crypto)

/-- ClientHello to server Finished, of a handshake from `s` to `s'`. -/
def toServerFinished (s s' : Session τ) : Bytes :=
  s.transcript ++ (throughFinished s'.handled).flatten

/-- ClientHello to client Finished. -/
def toClientFinished (s s' : Session τ) : Bytes := toServerFinished s s' ++ s'.finishedSent

/-- The Master Secret that section 7.1 gives for the handshake. -/
def specMaster (s s' : Session τ) : Bytes :=
  Rfc8446.masterSecret C s'.hashAlg (C.x25519 s.tls13Priv s.tls13ServerPub)

/-- The application traffic secrets and the resumption master secret of section 7.1. -/
def KeysAsSpecified (s s' : Session τ) : Prop :=
  let derive := Rfc8446.deriveSecret C s'.hashAlg (specMaster C s s')
  s'.clientAppTraffic = derive "c ap traffic" (toServerFinished s s') ∧
    s'.serverAppTraffic = derive "s ap traffic" (toServerFinished s s') ∧
    s'.pendingRes = some (derive "res master" (toClientFinished s s'))

/-! ### What the handshake computes -/

@[simp] theorem HashAlg.size_le (h : HashAlg) : h.size ≤ 48 := by cases h <;> decide

variable {label host : String} {s s' s₀ : Session τ} {f f' : Flight τ} {m : Bytes}
    {verify : VerifyCertChain τ} {cs : ℕ} {sendOk : Bool}

theorem expandLabel_eq (h : HashAlg) (secret : Bytes) (context : Bytes)
    {contextLen outLen : ℕ} (hl : label.length ≤ 58) (hc : contextLen ≤ 64) (ho : outLen ≤ 255) :
    expandLabel C h secret label context contextLen outLen =
      some (C.expandLabel h secret label context outLen) := by rw [expandLabel, if_neg (by omega)]

theorem deriveSecret_eq (h : HashAlg) (secret : Bytes) (th : Bytes) (hl : label.length ≤ 58) :
    deriveSecret C h secret label th = some (C.expandLabel h secret label th h.size) := by
  have := h.size_le
  exact expandLabel_eq C h secret th hl (by omega) (by omega)

/-- The keys are installed, and nothing else of the session changes. -/
theorem installKeys_eq_some {client server : Bytes} (h : installKeys C client server s = some s') :
    ∃ ck ci sk si,
      s' = { s with clientKey := ck, clientIv := ci, serverKey := sk, serverIv := si } := by
  rw [installKeys, bind_eq_some_iff] at h
  obtain ⟨⟨ck, ci⟩, -, h⟩ := h
  rw [map_eq_some_iff] at h
  obtain ⟨⟨sk, si⟩, -, rfl⟩ := h
  exact ⟨ck, ci, sk, si, rfl⟩

theorem deriveHandshakeSecrets_eq (shared : Bytes) (s : Session τ) :
    deriveHandshakeSecrets C shared s =
      let hs := Rfc8446.handshakeSecret C s.hashAlg shared
      some { s with
        earlySecret := Rfc8446.earlySecret C s.hashAlg
        handshakeSecret := hs
        clientHsTraffic := Rfc8446.deriveSecret C s.hashAlg hs "c hs traffic" s.transcript
        serverHsTraffic := Rfc8446.deriveSecret C s.hashAlg hs "s hs traffic" s.transcript } := by
  rw [deriveHandshakeSecrets]
  simp only [deriveSecret_eq C _ _ _ (show "derived".length ≤ 58 by decide),
    deriveSecret_eq C _ _ _ (show "c hs traffic".length ≤ 58 by decide),
    deriveSecret_eq C _ _ _ (show "s hs traffic".length ≤ 58 by decide), bind_some,
    map_some]
  rfl

/-- The Master Secret that belongs to the handshake secret of a session. -/
def appMaster (s : Session τ) : Bytes :=
  C.extract s.hashAlg (Rfc8446.deriveSecret C s.hashAlg s.handshakeSecret "derived" [])
    (zeros s.hashAlg.size)

theorem deriveAppSecrets_eq (s : Session τ) :
    deriveAppSecrets C s =
      let derive := Rfc8446.deriveSecret C s.hashAlg (appMaster C s)
      some { s with
        tls13MasterSecret := appMaster C s
        clientAppTraffic := derive "c ap traffic" s.transcript
        serverAppTraffic := derive "s ap traffic" s.transcript } := by
  rw [deriveAppSecrets]
  simp only [deriveSecret_eq C _ _ _ (show "derived".length ≤ 58 by decide),
    deriveSecret_eq C _ _ _ (show "c ap traffic".length ≤ 58 by decide),
    deriveSecret_eq C _ _ _ (show "s ap traffic".length ≤ 58 by decide), bind_some,
    map_some]
  rfl

/-- The secret noted on the way is derived from the old contents of `tls13_master_secret`. -/
theorem sendClientFinished_eq_some (h : sendClientFinished C s = some s') :
    ∃ fin, fin ≠ [] ∧ s' = { s with
      transcript := s.transcript ++ fin
      finishedSent := fin
      pendingRes := some (Rfc8446.deriveSecret C s.hashAlg
        (s.tls13MasterSecret.take s.hashAlg.size) "res master" (s.transcript ++ fin)) } := by
  rw [sendClientFinished, map_eq_some_iff] at h
  obtain ⟨fin, hfin, rfl⟩ := h
  refine ⟨fin, ?_, ?_⟩
  · rw [clientFinished, map_eq_some_iff] at hfin
    obtain ⟨v, -, rfl⟩ := hfin
    exact cons_ne_nil _ _
  rw [tls13NoteResumptionMaster]
  simp only [deriveSecret_eq C _ _ _ (show "res master".length ≤ 58 by decide)]
  rfl

theorem awaitTickets_session (host : String) (cs : ℕ) (rs : List Recv) :
    ∀ (n : ℕ) (s : Session τ), ∃ ts, awaitTickets host cs n rs s = { s with tickets := ts } := by
  induction rs with
  | nil =>
    intro n s
    exact ⟨s.tickets, by cases n <;> rfl⟩
  | cons r rs ih =>
    rintro (_ | n) s
    · exact ⟨s.tickets, rfl⟩
    rw [awaitTickets]
    iterate 2
      split
      · exact ⟨s.tickets, rfl⟩
    iterate 2
      split
      · exact ih _ _
    · exact ih n _

/-- Waiting for tickets changes nothing but the tickets. -/
theorem awaitedSession_eq (host : String) (cs : ℕ) (rs : List Recv) (s : Session τ) :
    ∃ ts, (if host = "" then s else awaitTickets host cs 2 rs s) = { s with tickets := ts } := by
  split
  · exact ⟨s.tickets, rfl⟩
  · exact awaitTickets_session host cs rs 2 s

/-- What stays the same while the flight of the server is taken from a session `s₀`. -/
structure FlightOk (s₀ : Session τ) (f : Flight τ) : Prop where
  transcript : f.s.transcript = s₀.transcript ++ f.s.handled.flatten
  hashAlg : f.s.hashAlg = s₀.hashAlg
  handshakeSecret : f.s.handshakeSecret = s₀.handshakeSecret
  master : f.s.tls13MasterSecret = s₀.tls13MasterSecret

theorem FlightOk.take (h : FlightOk s₀ f)
    (ht : f'.s.transcript = f.s.transcript ++ m) (hh : f'.s.handled = f.s.handled ++ [m])
    (ha : f'.s.hashAlg = f.s.hashAlg) (hs : f'.s.handshakeSecret = f.s.handshakeSecret)
    (hm : f'.s.tls13MasterSecret = f.s.tls13MasterSecret) : FlightOk s₀ f' :=
  ⟨by rw [ht, hh, h.transcript]; simp, ha.trans h.hashAlg, hs.trans h.handshakeSecret,
    hm.trans h.master⟩

theorem FlightOk.step (h : FlightOk s₀ f) (hm : handle13 C verify host m f = .ok f') :
    FlightOk s₀ f' := by
  cases handle13_takes C verify host hm <;> exact h.take rfl rfl rfl rfl rfl

/-- The result of an accepted handshake from `s` to `s'`. -/
structure Installed (s s' : Session τ) : Prop where
  transcript : s'.transcript = s.transcript ++ s'.handled.flatten ++ s'.finishedSent
  finished : s'.finishedSent ≠ []
  client : s'.clientAppTraffic =
    Rfc8446.deriveSecret C s'.hashAlg (specMaster C s s') "c ap traffic" s'.transcript
  server : s'.serverAppTraffic =
    Rfc8446.deriveSecret C s'.hashAlg (specMaster C s s') "s ap traffic" s'.transcript
  resumption : s'.pendingRes = some (Rfc8446.deriveSecret C s'.hashAlg
    (s.tls13MasterSecret.take s'.hashAlg.size) "res master" s'.transcript)

theorem tls13Begin_eq_ok (h : tls13Begin C cs s = .ok s₀) :
    s₀.transcript = s.transcript ∧ s₀.handled = [] ∧ s₀.tls13MasterSecret = s.tls13MasterSecret ∧
      s₀.events = s.events ++ [.keyed (.tls13 s.transcript)] ∧
      s₀.handshakeSecret = Rfc8446.handshakeSecret C s₀.hashAlg
        (C.x25519 s.tls13Priv s.tls13ServerPub) := by
  rw [tls13Begin] at h
  split at h
  · cases h
  dsimp only at h
  rw [deriveHandshakeSecrets_eq] at h
  dsimp only at h
  split at h
  · cases h
  rename_i hk
  cases h
  obtain ⟨ck, ci, sk, si, rfl⟩ := installKeys_eq_some C hk
  exact ⟨rfl, rfl, rfl, rfl, rfl⟩

/-- What the part behind the receive loop does. -/
structure Finished13 (f : Flight τ) (s' : Session τ) : Prop where
  gotFin : f.gotFin = true
  hashAlg : s'.hashAlg = f.s.hashAlg
  handled : s'.handled = f.s.handled
  events : s'.events = f.s.events
  transcript : s'.transcript = f.s.transcript ++ s'.finishedSent
  finished : s'.finishedSent ≠ []
  client : s'.clientAppTraffic =
    Rfc8446.deriveSecret C f.s.hashAlg (appMaster C f.s) "c ap traffic" s'.transcript
  server : s'.serverAppTraffic =
    Rfc8446.deriveSecret C f.s.hashAlg (appMaster C f.s) "s ap traffic" s'.transcript
  resumption : s'.pendingRes = some (Rfc8446.deriveSecret C f.s.hashAlg
    (f.s.tls13MasterSecret.take f.s.hashAlg.size) "res master" s'.transcript)

theorem tls13Finish_eq_ok {rest : List Recv} (h : tls13Finish C host sendOk cs rest f = .ok s') :
    Finished13 C f s' := by
  rw [tls13Finish] at h
  split at h
  · cases h
  rename_i hfin
  split at h
  · cases h
  rename_i s₁ hsend
  split at h
  · cases h
  split at h
  · cases h
  rename_i s₂ hkeys
  obtain ⟨fin, hne, rfl⟩ := sendClientFinished_eq_some C hsend
  rw [deriveAppSecrets_eq] at hkeys
  obtain ⟨ts, hts⟩ := awaitedSession_eq host cs rest s₂
  rw [hts] at h
  cases h
  obtain ⟨ck, ci, sk, si, rfl⟩ := installKeys_eq_some C hkeys
  exact ⟨by simpa using hfin, rfl, rfl, rfl, rfl, hne, rfl, rfl, rfl⟩

/-- **The secrets of an accepted handshake.** -/
theorem installed_of_ok {rs : List Recv}
    (h : tls13HandshakeAfterSh C verify host sendOk cs rs s = .ok s') : Installed C s s' := by
  rw [tls13HandshakeAfterSh] at h
  split at h
  · cases h
  rename_i s₀ hbegin
  obtain ⟨htr, hhd, hms, -, hhs⟩ := tls13Begin_eq_ok C hbegin
  split at h
  · cases h
  rename_i f rest hrecv
  -- the flight leaves the schedule alone and only lengthens the transcript
  have hf : FlightOk s₀ f :=
    receive_invariant (fun m c c' hc hm => hc.step C hm)
      (⟨by simp [hhd], rfl, rfl, rfl⟩ : FlightOk s₀ ⟨s₀, [], false, false, false, false⟩) hrecv
  have hend := tls13Finish_eq_ok C h
  have hmaster : appMaster C f.s = specMaster C s s' := by
    rw [appMaster, specMaster, Rfc8446.masterSecret, hf.handshakeSecret, hhs, hend.hashAlg,
      hf.hashAlg]
  constructor
  · rw [hend.transcript, hf.transcript, htr, hend.handled]
  · exact hend.finished
  · rw [hend.client, hmaster, hend.hashAlg]
  · rw [hend.server, hmaster, hend.hashAlg]
  · rw [hend.resumption, hf.master, hms, hend.hashAlg]

/-! ### Compared with the specification -/

/-- The secrets come out right only if HKDF and the hash cannot tell the difference: between the
transcript with and without what follows the server's Finished, and between the Master Secret and
the bytes `tls13_master_secret` held before. -/
def KeysCoincide (s s' : Session τ) : Prop :=
  let derive := Rfc8446.deriveSecret C s'.hashAlg
  let late := toServerFinished s s' ++ (afterFinished s'.handled).flatten ++ s'.finishedSent
  derive (specMaster C s s') "c ap traffic" late =
      derive (specMaster C s s') "c ap traffic" (toServerFinished s s') ∧
    derive (specMaster C s s') "s ap traffic" late =
      derive (specMaster C s s') "s ap traffic" (toServerFinished s s') ∧
    derive (s.tls13MasterSecret.take s'.hashAlg.size) "res master" late =
      derive (specMaster C s s') "res master" (toClientFinished s s')

/-- The transcript hash has no collisions, and neither has HKDF-Expand-Label in its context. -/
def CollisionFree : Prop :=
  ∀ h, Function.Injective (C.hash h) ∧
    ∀ secret label n, Function.Injective fun context => C.expandLabel h secret label context n

theorem Installed.transcript_eq (h : Installed C s s') : s'.transcript =
      toServerFinished s s' ++ (afterFinished s'.handled).flatten ++ s'.finishedSent := by
  rw [h.transcript, toServerFinished]
  conv_lhs => rw [← throughFinished_append_afterFinished s'.handled]
  simp

theorem Installed.specified_iff_coincide (h : Installed C s s') :
    KeysAsSpecified C s s' ↔ KeysCoincide C s s' := by
  have hlate := h.transcript_eq
  rw [KeysAsSpecified, KeysCoincide, h.client, h.server, h.resumption, some_inj, hlate]

theorem Installed.not_keysAsSpecified (h : Installed C s s')
    (hC : CollisionFree C) : ¬ KeysAsSpecified C s s' := by
  rw [h.specified_iff_coincide]
  rintro ⟨hclient, -, -⟩
  have hlong := (hC s'.hashAlg).1 ((hC s'.hashAlg).2 _ _ _ hclient)
  rw [append_assoc, append_right_eq_self] at hlong
  exact h.finished (append_eq_nil_iff.1 hlong).2

/-- **The key schedule of an accepted handshake.** -/
theorem keysAsSpecified_iff {verify : VerifyCertChain τ} {host : String} {sendOk : Bool} {cs : ℕ}
    {rs : List Recv} {s s' : Session τ}
    (h : tls13HandshakeAfterSh C verify host sendOk cs rs s = .ok s') :
    (KeysAsSpecified C s s' ↔ KeysCoincide C s s') ∧
      (CollisionFree C → ¬ KeysAsSpecified C s s') :=
  ⟨(installed_of_ok C h).specified_iff_coincide, (installed_of_ok C h).not_keysAsSpecified⟩

/-! ### A handshake -/

/-- Functions without collisions, with which every signature passes. -/
def plainCrypto : Crypto where
  hash _ m := m
  hmac _ _ _ := zeros 32
  extract _ salt ikm := salt ++ ikm
  expandLabel _ _ _ context _ := context
  prf _ _ _ _ n := zeros n
  x25519Base k := k
  x25519 _ p := p
  p256Ecdh _ p := some p
  p256EcdsaVerify _ _ _ := true
  p384EcdsaVerify _ _ _ := true
  rsaVerify _ _ _ _ _ := true

theorem collisionFree_plainCrypto : CollisionFree plainCrypto :=
  fun _ => ⟨fun _ _ h => h, fun _ _ _ _ _ h => h⟩

/-- EncryptedExtensions, a Certificate whose leaf is a point, a CertificateVerify with a signature
of two small numbers, and Finished, all in one record. -/
def plainFlight : Bytes :=
  [8, 0, 0, 0] ++
    ([11, 0, 0, 74, 0, 0, 0, 70, 0, 0, 65, 4] ++ List.replicate 64 0x55 ++ [0, 0]) ++
    [15, 0, 0, 12, 4, 3, 0, 8, 0x30, 6, 2, 1, 1, 2, 1, 1] ++ ([20, 0, 0, 32] ++ zeros 32)

/-- The handshake with this flight, from the first ServerHello after boot. -/
def plainHandshake : Except (Failure Unit) (Session Unit) :=
  tls13HandshakeAfterSh plainCrypto (fun _ _ _ => (.trusted none, ())) "peak" true 0x1301
    [.record contentHs plainFlight] (Session.boot ())

theorem plainHandshake_ok : ∃ s', plainHandshake = .ok s' := by
  have h : plainHandshake.toBool = true := by decide +kernel
  revert h
  cases plainHandshake with
  | error e => intro h; cases h
  | ok s' => exact fun _ => ⟨s', rfl⟩

theorem keysAsSpecified_plain :
    ∃ s', plainHandshake = .ok s' ∧ CollisionFree plainCrypto ∧
      ¬ KeysAsSpecified plainCrypto (Session.boot ()) s' := by
  obtain ⟨s', h⟩ := plainHandshake_ok
  exact ⟨s', h, collisionFree_plainCrypto,
    (keysAsSpecified_iff plainCrypto h).2 collisionFree_plainCrypto⟩

/-- **One message too many.** Not every accepted handshake ends with the secrets of section 7.1. -/
theorem keys_off_by_one_message :
    ¬ ∀ (C : Crypto) (verify : VerifyCertChain Unit) (host : String) (sendOk : Bool) (cs : ℕ)
      (rs : List Recv) (s s' : Session Unit),
      tls13HandshakeAfterSh C verify host sendOk cs rs s = .ok s' → KeysAsSpecified C s s' := by
  intro hall
  obtain ⟨s', h⟩ := plainHandshake_ok
  exact (installed_of_ok plainCrypto h).not_keysAsSpecified plainCrypto collisionFree_plainCrypto
    (hall _ _ _ _ _ _ _ _ h)

end PeakOs.Tls
