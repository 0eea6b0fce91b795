import PeakOs.Tls.Messages

/-!
# The TLS 1.3 handshake

`net/tls13.c` from the ServerHello on, over the session state that `net/tls.c` keeps in globals, and
the loop both versions use to cut the records of a connection into handshake messages.

What a peer sends is the list of records that arrive before the deadline, each already decrypted
or failed. Chain verification is a parameter, with whatever it remembers between calls.

The last fields of a session are a history that nothing reads: which messages the handshake
under way has taken, which chains it accepted, which signatures it checked with which
certificate, and what keys were derived from.

## Main results

* `receive_invariant` — what a handler keeps, the loop keeps
* `handle13_takes` — what each message of the encrypted flight does
-/

namespace PeakOs.Tls

/-- What `tls_recv_record` may find before the deadline. -/
inductive Recv
  | failed
  | record (type : ℕ) (payload : Bytes)
  deriving DecidableEq

/-- A record as seen by a caller with room for `cap` bytes. -/
def tlsRecvRecord (cap : ℕ) : Recv → Option (ℕ × Bytes)
  | .failed => none
  | .record type payload =>
    if 16384 + 512 < payload.length ∨ cap < payload.length then none else some (type, payload)

inductive ErrCode
  | tcp | rng | buffer | alert | handshake | cert | verify | timeout | dos
  deriving DecidableEq

/-- The error a connection ends with; an alert of the server is kept as it came. -/
inductive TlsErr
  | err (code : ErrCode) (text : String)
  | serverAlert (level desc : ℕ)
  deriving DecidableEq

def tlsSetAlertErr (alert : Bytes) : TlsErr := .serverAlert (rd8 alert 0) (rd8 alert 1)

/-- The answer of `tls_verify_cert_chain`, with what it leaves in `cert_fail_reason`. -/
inductive Verdict
  | trusted (reason : Option String)
  | refused (reason : Option String)
  deriving DecidableEq

/-- Chain verification of a Certificate message for a host, over what the trust store holds. -/
abbrev VerifyCertChain (τ : Type) := τ → Bytes → String → Verdict × τ

/-- What a handshake takes its keys from. -/
inductive KeyExchange
  | tls12 (clientRandom serverRandom : Bytes) (curve : ℕ) (peerPub : Bytes)
  /-- The transcript up to the ServerHello. -/
  | tls13 (hellos : Bytes)
  deriving DecidableEq

/-- What a signature was checked over. -/
inductive Signed
  | keyExchange (clientRandom serverRandom params : Bytes)
  /-- With the hash of the handshake. -/
  | transcript (h : HashAlg) (messages : Bytes)
  deriving DecidableEq

inductive Event
  | accepted (host : String) (leaf : Bytes)
  /-- The signature in a message passed. -/
  | verified (leaf message : Bytes) (content : Signed)
  | keyed (k : KeyExchange)
  deriving DecidableEq

/-- A call of `tls_session_put`. -/
structure Ticket where
  host : String
  ticket : Bytes
  cipher : ℕ
  /-- With the hash of the handshake, and the resumption master secret where there is one. -/
  tls13 : Option (HashAlg × Bytes)
  nonce : Bytes
  deriving DecidableEq

structure Session (τ : Type) where
  trust : τ
  up : Bool
  tls13 : Bool
  cipher : Cipher
  useEms : Bool
  certVerified : Bool
  certFailReason : Option String
  clientRandom : Bytes
  serverRandom : Bytes
  masterSecret : Bytes
  clientKey : Bytes
  serverKey : Bytes
  clientIv : Bytes
  serverIv : Bytes
  transcript : Bytes
  /-- `leaf_der`, of `leaf_der_len` bytes. -/
  leafDer : Bytes
  tls13Priv : Bytes
  tls13ServerPub : Bytes
  /-- `tls13_sha384` and `tls13_hash_len`. -/
  hashAlg : HashAlg
  earlySecret : Bytes
  handshakeSecret : Bytes
  tls13MasterSecret : Bytes
  clientHsTraffic : Bytes
  serverHsTraffic : Bytes
  clientAppTraffic : Bytes
  serverAppTraffic : Bytes
  /-- `tls13_pending_res_master` while it is valid. -/
  pendingRes : Option Bytes
  tickets : List Ticket
  /-- History: the messages taken by the loop under way. -/
  handled : List Bytes
  /-- History: the Finished message sent. -/
  finishedSent : Bytes
  /-- History: what was accepted, verified and keyed since the handshake began. -/
  events : List Event

variable {τ : Type}

namespace Session

/-- The globals before the first connection. -/
def boot (trust : τ) : Session τ where
  trust
  up := false
  tls13 := false
  cipher := .aes128Gcm
  useEms := false
  certVerified := false
  certFailReason := none
  clientRandom := zeros 32
  serverRandom := zeros 32
  masterSecret := zeros 48
  clientKey := zeros 32
  serverKey := zeros 32
  clientIv := zeros 12
  serverIv := zeros 12
  transcript := []
  leafDer := []
  tls13Priv := zeros 32
  tls13ServerPub := zeros 32
  hashAlg := .sha256
  earlySecret := zeros 48
  handshakeSecret := zeros 48
  tls13MasterSecret := zeros 48
  clientHsTraffic := zeros 48
  serverHsTraffic := zeros 48
  clientAppTraffic := zeros 48
  serverAppTraffic := zeros 48
  pendingRes := none
  tickets := []
  handled := []
  finishedSent := []
  events := []

/-- `transcript_add` of a message of the server. -/
def take (s : Session τ) (m : Bytes) : Session τ :=
  { s with transcript := s.transcript ++ m, handled := s.handled ++ [m] }

def note (s : Session τ) (e : Event) : Session τ := { s with events := s.events ++ [e] }

/-- After `tls_verify_cert_chain`. -/
def chain (s : Session τ) (reason : Option String) (trust : τ) (ok : Bool) : Session τ :=
  { s with trust, certVerified := ok, certFailReason := reason }

def transcriptHash (C : Crypto) (s : Session τ) : Bytes := C.hash s.hashAlg s.transcript

/-- `tls_scrub_secrets`. The leaf of the last certificate is not among them. -/
def scrubSecrets (s : Session τ) : Session τ :=
  { s with
    clientRandom := zeros 32, serverRandom := zeros 32, masterSecret := zeros 48
    clientKey := zeros 32, serverKey := zeros 32, clientIv := zeros 12, serverIv := zeros 12
    tls13Priv := zeros 32, tls13ServerPub := zeros 32
    earlySecret := zeros 48, handshakeSecret := zeros 48, tls13MasterSecret := zeros 48
    clientHsTraffic := zeros 48, serverHsTraffic := zeros 48
    clientAppTraffic := zeros 48, serverAppTraffic := zeros 48 }

end Session

/-- A failed handshake: the session as it was, and the error. -/
structure Failure (τ : Type) where
  session : Session τ
  error : TlsErr

def Session.fail {α : Type} (s : Session τ) (code : ErrCode) (text : String) :
    Except (Failure τ) α :=
  .error ⟨s, .err code text⟩

/-! ### Records into messages -/

/-- The texts of the loop's own errors. -/
structure LoopTexts where
  overflow : String
  budget : String
  tooLarge : String

section Loop

variable {σ : Type} (texts : LoopTexts) (handle : Bytes → σ → Except (Failure τ) σ)
  (session : σ → Session τ) (done stop : σ → Bool)

def hsMsgMax : ℕ := 16384
def hsRecordMax : ℕ := 48
def hsReasmMax : ℕ := 24576

/-- Hand the complete messages of the buffer to `handle`, one after the other, up to an incomplete
one or until `stop`. -/
def drain : ℕ → Bytes → σ → Except (Failure τ) (Bytes × σ)
  | 0, buf, c => .ok (buf, c)
  | fuel + 1, buf, c =>
    if buf.length < 4 then .ok (buf, c)
    else if hsMsgMax < rd24 buf 1 then (session c).fail .dos texts.tooLarge
    else if buf.length < 4 + rd24 buf 1 then .ok (buf, c)
    else
      match handle (buf.take (4 + rd24 buf 1)) c with
      | .error e => .error e
      | .ok c' =>
        if stop c' then .ok (buf.drop (4 + rd24 buf 1), c')
        else drain fuel (buf.drop (4 + rd24 buf 1)) c'

/-- The receive loop: records until `done`. The answer is the state and the records not yet
looked at; none are left when the deadline has passed. -/
def receive : List Recv → ℕ → Bytes → σ → Except (Failure τ) (σ × List Recv)
  | [], _, _, c => .ok (c, [])
  | r :: rs, records, buf, c =>
    if done c then .ok (c, r :: rs)
    else if hsReasmMax ≤ buf.length then (session c).fail .dos texts.overflow
    else
      match tlsRecvRecord (hsReasmMax - buf.length) r with
      | none => receive rs records buf c
      | some (type, payload) =>
        if type = contentAlert then .error ⟨session c, tlsSetAlertErr payload⟩
        else if type ≠ contentHs then receive rs records buf c
        else if hsRecordMax < records + 1 then (session c).fail .dos texts.budget
        else
          match drain texts handle session stop (buf ++ payload).length (buf ++ payload) c with
          | .error e => .error e
          | .ok (buf', c') => receive rs (records + 1) buf' c'

variable {texts handle session done stop} {Inv : σ → Prop}

theorem drain_invariant (hstep : ∀ m c c', Inv c → handle m c = .ok c' → Inv c') :
    ∀ {fuel : ℕ} {buf : Bytes} {c : σ} {r : Bytes × σ}, Inv c →
      drain texts handle session stop fuel buf c = .ok r → Inv r.2 := by
  intro fuel
  induction fuel with
  | zero =>
    intro buf c r hc h
    cases h
    exact hc
  | succ fuel ih =>
    intro buf c r hc h
    rw [drain] at h
    iterate 2
      split at h
      · cases h; exact hc
      split at h
      · cases h
    rename_i c' hc'
    split at h
    · cases h; exact hstep _ _ _ hc hc'
    · exact ih (hstep _ _ _ hc hc') h

/-- **What a handler keeps, the loop keeps.** -/
theorem receive_invariant (hstep : ∀ m c c', Inv c → handle m c = .ok c' → Inv c') :
    ∀ {rs : List Recv} {records : ℕ} {buf : Bytes} {c : σ} {r : σ × List Recv}, Inv c →
      receive texts handle session done stop rs records buf c = .ok r → Inv r.1 := by
  intro rs
  induction rs with
  | nil =>
    intro records buf c r hc h
    cases h
    exact hc
  | cons e rs ih =>
    intro records buf c r hc h
    rw [receive] at h
    split at h
    · cases h; exact hc
    iterate 2
      split at h
      · cases h
      split at h
      · exact ih hc h
    split at h
    · cases h
    split at h
    · cases h
    next hd => exact ih (drain_invariant hstep hc hd) h

end Loop

/-! ### The key schedule -/

section Schedule

variable (C : Crypto)

/-- `tls13_expand_label`, with its limits. -/
def expandLabel (h : HashAlg) (secret : Bytes) (label : String) (context : Bytes)
    (contextLen outLen : ℕ) : Option Bytes :=
  if 58 < label.length ∨ 64 < contextLen ∨ 255 < outLen then none
  else some (C.expandLabel h secret label context outLen)

def deriveSecret (h : HashAlg) (secret : Bytes) (label : String) (transcriptHash : Bytes) :
    Option Bytes :=
  expandLabel C h secret label transcriptHash h.size h.size

/-- A key and an initialisation vector of twelve bytes. -/
def trafficKeysFromSecret (h : HashAlg) (secret : Bytes) (keyLen : ℕ) : Option (Bytes × Bytes) :=
  (expandLabel C h secret "key" [] 0 keyLen).bind fun key =>
    (expandLabel C h secret "iv" [] 0 12).map fun iv => (key, iv)

/-- `install_hs_keys` and `install_app_keys`, which differ in the secrets alone. -/
def installKeys (client server : Bytes) (s : Session τ) : Option (Session τ) :=
  let keyLen := if s.cipher = .aes128Gcm then 16 else 32
  (trafficKeysFromSecret C s.hashAlg client keyLen).bind fun (clientKey, clientIv) =>
    (trafficKeysFromSecret C s.hashAlg server keyLen).map fun (serverKey, serverIv) =>
      { s with clientKey, clientIv, serverKey, serverIv }

def installHsKeys (s : Session τ) : Option (Session τ) :=
  installKeys C s.clientHsTraffic s.serverHsTraffic s

def installAppKeys (s : Session τ) : Option (Session τ) :=
  installKeys C s.clientAppTraffic s.serverAppTraffic s

def deriveHandshakeSecrets (shared : Bytes) (s : Session τ) : Option (Session τ) :=
  let h := s.hashAlg
  let early := C.extract h (zeros h.size) (zeros h.size)
  (deriveSecret C h early "derived" (C.hash h [])).bind fun derived =>
    let hs := C.extract h derived shared
    (deriveSecret C h hs "c hs traffic" (s.transcriptHash C)).bind fun client =>
      (deriveSecret C h hs "s hs traffic" (s.transcriptHash C)).map fun server =>
        { s with earlySecret := early, handshakeSecret := hs, clientHsTraffic := client,
                 serverHsTraffic := server }

def deriveAppSecrets (s : Session τ) : Option (Session τ) :=
  let h := s.hashAlg
  (deriveSecret C h s.handshakeSecret "derived" (C.hash h [])).bind fun derived =>
    let master := C.extract h derived (zeros h.size)
    (deriveSecret C h master "c ap traffic" (s.transcriptHash C)).bind fun client =>
      (deriveSecret C h master "s ap traffic" (s.transcriptHash C)).map fun server =>
        { s with tls13MasterSecret := master, clientAppTraffic := client,
                 serverAppTraffic := server }

/-- The secret is read from the array as it stands, `tls13_hash_len` bytes of it. -/
def tls13NoteResumptionMaster (s : Session τ) : Session τ :=
  let secret := s.tls13MasterSecret.take s.hashAlg.size
  { s with pendingRes := deriveSecret C s.hashAlg secret "res master" (s.transcriptHash C) }

/-! ### CertificateVerify and Finished -/

def certVerifyContext : Bytes :=
  List.replicate 64 0x20 ++
    "TLS 1.3, server CertificateVerify".toList.map (fun c => UInt8.ofNat c.toNat) ++ [0]

def verifyCertVerify (leaf m : Bytes) (s : Session τ) : Bool :=
  if m.length < 8 ∨ rd8 m 0 ≠ hsCertVerify ∨ m.length < 4 + rd24 m 1 ∨ rd24 m 1 < 4 ∨
      4 + rd16 m 6 ≠ rd24 m 1 then false
  else
    let sig := slice m 8 (rd16 m 6)
    let digest := C.hash .sha256 (certVerifyContext ++ s.transcriptHash C)
    if rd16 m 4 = 0x0403 then
      match leafP256Pub13 leaf, derEcdsaSigToRaw13 sig with
      | some pub, some raw => C.p256EcdsaVerify raw pub digest
      | _, _ => false
    else if rd16 m 4 = 0x0804 then rsaVerifySha256 C leaf digest sig true
    -- RSA-PSS with SHA-384 (0x0805) is refused, like every other scheme
    else false

/-- The verify data of a Finished message under a base key. -/
def finishedData (base : Bytes) (s : Session τ) : Option Bytes :=
  (expandLabel C s.hashAlg base "finished" [] 0 s.hashAlg.size).map fun key =>
    C.hmac s.hashAlg key (s.transcriptHash C)

def verifyFinished (m base : Bytes) (s : Session τ) : Bool :=
  if m.length < 4 ∨ rd8 m 0 ≠ hsFinished ∨ m.length < 4 + rd24 m 1 ∨
      rd24 m 1 ≠ s.hashAlg.size then false
  else
    match finishedData C base s with
    | some expect => expect.take s.hashAlg.size = slice m 4 s.hashAlg.size
    | none => false

/-- The message of `send_client_finished`. -/
def clientFinished (s : Session τ) : Option Bytes :=
  (finishedData C s.clientHsTraffic s).map fun verify =>
    UInt8.ofNat hsFinished :: (wr24 s.hashAlg.size ++ verify.take s.hashAlg.size)

/-- `send_client_finished` up to the send: the message enters the transcript and the resumption
secret is noted, in this order. -/
def sendClientFinished (s : Session τ) : Option (Session τ) :=
  (clientFinished C s).map fun m =>
    tls13NoteResumptionMaster C { s with transcript := s.transcript ++ m, finishedSent := m }

end Schedule

/-! ### The handshake -/

/-- The locals of `tls13_handshake_after_sh`, with the session. -/
structure Flight (τ : Type) where
  s : Session τ
  leaf : Bytes
  gotEe : Bool
  gotCert : Bool
  gotCv : Bool
  gotFin : Bool

section Handshake

variable (C : Crypto) (verify : VerifyCertChain τ) (host : String)

/-- One message of the encrypted flight. -/
def handle13 (m : Bytes) (f : Flight τ) : Except (Failure τ) (Flight τ) :=
  if rd8 m 0 = hsEncryptedExt then .ok { f with s := f.s.take m, gotEe := true }
  else if rd8 m 0 = hsCertificate then
    match tls13CertToLegacy m with
    | none => f.s.fail .cert "TLS 1.3 Certificate parse failed"
    | some (legacy, leaf) =>
      match verify f.s.trust legacy host with
      | (.refused reason, trust) =>
        (f.s.chain reason trust false).fail .cert (reason.getD "TLS 1.3 cert unverified")
      | (.trusted reason, trust) =>
        .ok { f with
          s := ((f.s.chain reason trust true).note (.accepted host leaf)).take m
          leaf := leaf
          gotCert := true }
  else if rd8 m 0 = hsCertVerify then
    if !f.gotCert then f.s.fail .handshake "TLS 1.3 CertificateVerify before Certificate"
    else if !verifyCertVerify C f.leaf m f.s then
      f.s.fail .verify "TLS 1.3 CertificateVerify failed"
    else .ok { f with
      s := (f.s.note (.verified f.leaf m (.transcript f.s.hashAlg f.s.transcript))).take m
      gotCv := true }
  else if rd8 m 0 = hsFinished then
    if !(f.gotEe && f.gotCert && f.gotCv) then
      f.s.fail .handshake "TLS 1.3 Finished before required messages"
    else if !verifyFinished C m f.s.serverHsTraffic f.s then
      f.s.fail .verify "TLS 1.3 server Finished verify failed"
    else .ok { f with s := f.s.take m, gotFin := true }
  else .ok { f with s := f.s.take m }

/-- What a message does when it is taken: one case for each branch of `handle13` that does not
fail. -/
inductive Takes13 (m : Bytes) (f : Flight τ) : Flight τ → Prop
  | extensions : rd8 m 0 = hsEncryptedExt →
      Takes13 m f { f with s := f.s.take m, gotEe := true }
  | certificate {legacy leaf : Bytes} {reason : Option String} {trust : τ} :
      rd8 m 0 = hsCertificate → tls13CertToLegacy m = some (legacy, leaf) →
      verify f.s.trust legacy host = (.trusted reason, trust) →
      Takes13 m f { f with
        s := ((f.s.chain reason trust true).note (.accepted host leaf)).take m
        leaf := leaf
        gotCert := true }
  | certVerify : rd8 m 0 = hsCertVerify → f.gotCert = true →
      verifyCertVerify C f.leaf m f.s = true →
      Takes13 m f { f with
        s := (f.s.note (.verified f.leaf m (.transcript f.s.hashAlg f.s.transcript))).take m
        gotCv := true }
  | finished : rd8 m 0 = hsFinished → f.gotCv = true →
      verifyFinished C m f.s.serverHsTraffic f.s = true →
      Takes13 m f { f with s := f.s.take m, gotFin := true }
  | other : rd8 m 0 ≠ hsFinished → Takes13 m f { f with s := f.s.take m }

theorem handle13_takes {m : Bytes} {f f' : Flight τ} (h : handle13 C verify host m f = .ok f') :
    Takes13 C verify host m f f' := by
  rw [handle13] at h
  split at h
  · cases h; exact .extensions ‹_›
  split at h
  · split at h
    · cases h
    rename_i hleg
    split at h
    · cases h
    next hver =>
      cases h
      exact .certificate ‹_› hleg hver
  split at h
  · split at h
    · cases h
    split at h
    · cases h
    · cases h
      exact .certVerify ‹_› (by simp_all) (by simp_all)
  split at h
  · split at h
    · cases h
    split at h
    · cases h
    · cases h
      exact .finished ‹_› (by simp_all) (by simp_all)
  · cases h
    exact .other ‹_›

def sessionTicketMax : ℕ := 256
def sessionNonceMax : ℕ := 32

/-- A NewSessionTicket of TLS 1.3 in a record, as it is put into the session cache. -/
def ticket13 (cs : ℕ) (s : Session τ) (p : Bytes) : Option Ticket :=
  let stop := 4 + rd24 p 1
  if p.length < 15 ∨ rd8 p 0 ≠ hsNewSessionTicket ∨ p.length < stop ∨ rd24 p 1 < 7 then none
  else
    let at_ := 13 + rd8 p 12
    if stop < at_ + 2 then none
    else
      let tlen := rd16 p at_
      if stop < at_ + 2 + tlen ∨ tlen = 0 ∨ sessionTicketMax < tlen then none
      else some {
        host, ticket := slice p (at_ + 2) tlen, cipher := cs
        tls13 := some (s.hashAlg, s.pendingRes.getD [])
        nonce := if rd8 p 12 ≤ sessionNonceMax then slice p 13 (rd8 p 12) else [] }

/-- At most two tickets are taken before the handshake returns. -/
def awaitTickets (cs : ℕ) : ℕ → List Recv → Session τ → Session τ
  | 0, _, s => s
  | _, [], s => s
  | n + 1, r :: rs, s =>
    match tlsRecvRecord hsReasmMax r with
    | none => s
    | some (type, p) =>
      if type = contentAlert then s
      else if type ≠ contentHs then awaitTickets cs (n + 1) rs s
      else
        match ticket13 host cs s p with
        | none => awaitTickets cs (n + 1) rs s
        | some t => awaitTickets cs n rs { s with tickets := s.tickets ++ [t] }

def tls13Cipher (cs : ℕ) : Option (Cipher × HashAlg) :=
  if cs = 0x1301 then some (.aes128Gcm, .sha256)
  else if cs = 0x1302 then some (.aes256Gcm, .sha384)
  else if cs = 0x1303 then some (.chacha20, .sha256)
  else none

/-- The suite of the ServerHello is taken over, and the keys come from the transcript so far. -/
def Session.enter13 (s : Session τ) (cipher : Cipher) (hashAlg : HashAlg) : Session τ :=
  { s with cipher, hashAlg, handled := [] }.note (.keyed (.tls13 s.transcript))

/-- The part of `tls13_handshake_after_sh` in front of the receive loop. -/
def tls13Begin (cs : ℕ) (s : Session τ) : Except (Failure τ) (Session τ) :=
  match tls13Cipher cs with
  | none => s.fail .handshake "TLS 1.3 cipher rejected"
  | some (cipher, hashAlg) =>
    let shared := C.x25519 s.tls13Priv s.tls13ServerPub
    match deriveHandshakeSecrets C shared (s.enter13 cipher hashAlg) with
    | none =>
      (s.enter13 cipher hashAlg).fail .handshake "TLS 1.3 handshake secret derive failed"
    | some s =>
      match installHsKeys C s with
      | none => s.fail .handshake "TLS 1.3 handshake key install failed"
      | some s => .ok s

/-- The part behind the receive loop. -/
def tls13Finish (sendOk : Bool) (cs : ℕ) (rest : List Recv) (f : Flight τ) :
    Except (Failure τ) (Session τ) :=
  if !f.gotFin then f.s.fail .timeout "TLS 1.3 timeout waiting for Finished"
  else
    match sendClientFinished C f.s with
    | none => f.s.fail .handshake "TLS 1.3 client Finished send failed"
    | some s =>
      if !sendOk then s.fail .handshake "TLS 1.3 client Finished send failed"
      else
        match (deriveAppSecrets C s).bind (installAppKeys C) with
        | none => s.fail .handshake "TLS 1.3 app key derive failed"
        | some s =>
          .ok { (if host = "" then s else awaitTickets host cs 2 rest s) with up := true }

def texts13 : LoopTexts where
  overflow := "TLS 1.3 handshake buffer overflow"
  budget := "TLS 1.3 handshake record budget exceeded"
  tooLarge := "TLS 1.3 handshake message too large"

def tls13HandshakeAfterSh (sendOk : Bool) (cs : ℕ) (rs : List Recv) (s : Session τ) :
    Except (Failure τ) (Session τ) :=
  match tls13Begin C cs s with
  | .error e => .error e
  | .ok s =>
    match receive texts13 (handle13 C verify host) Flight.s Flight.gotFin (fun _ => false) rs 0 []
        ⟨s, [], false, false, false, false⟩ with
    | .error e => .error e
    | .ok (f, rest) => tls13Finish C host sendOk cs rest f

end Handshake

end PeakOs.Tls
