import PeakOs.Tls.Handshake13

/-!
# Connecting

`tls_connect` of `net/tls_handshake.c`: the clear part of a handshake, the TLS 1.2 key exchange and
Finished, and the switch to `net/tls13.c` when a ServerHello selects TLS 1.3.

Messages are taken in whatever order the peer sends them. A ServerKeyExchange is checked against
`leaf_der`, which the last Certificate message wrote, in this connection or in an earlier one: the
buffer is a static of the file and is not cleared between connections.

## Main results

* `handle12_takes` — what each message of the clear part does
-/

namespace PeakOs.Tls

variable {τ : Type}

/-- The random, the private key and the bytes of a ClientHello (`tls_build_client_hello`, which
draws the first two at random). -/
structure ClientHello where
  random : Bytes
  priv : Bytes
  bytes : Bytes

/-- The ways in which building a ClientHello fails. -/
inductive HelloError
  | rng
  | ech
  | tooLarge

/-- What the network, the random source and the peer decide in one call of `tls_connect`. -/
structure Attempt where
  host : String
  tcpOk : Bool
  hello : Except HelloError ClientHello
  helloSent : Bool
  /-- `crypto_random` for the private key of the key exchange. -/
  priv : Option Bytes
  /-- The key pair of `p256_keygen`. -/
  p256Keygen : Option (Bytes × Bytes)
  ckeSent : Bool
  ccsSent : Bool
  finishedSent : Bool
  records : List Recv

/-- The locals of `tls_connect`, with the session. -/
structure Conn (τ : Type) where
  s : Session τ
  peerPub : Bytes
  peerCurve : ℕ
  gotSh : Bool
  gotSke : Bool
  gotDone : Bool
  gotCert : Bool
  cs : ℕ

section Messages12

variable (C : Crypto) (verify : VerifyCertChain τ) (host : String)

/-- The effect of a parsed ServerHello. -/
def Session.serverHello (s : Session τ) (h : ServerHello) : Session τ :=
  { s with
    serverRandom := h.random
    useEms := h.useEms
    tls13 := h.tls13
    tls13ServerPub := h.share.getD s.tls13ServerPub }

/-- One message of the clear part of the handshake. Here the transcript comes first. -/
def handle12 (m : Bytes) (c : Conn τ) : Except (Failure τ) (Conn τ) :=
  let s := c.s.take m
  if rd8 m 0 = hsServerHello then
    match parseServerHello m with
    | none => s.fail .handshake "ServerHello parse/cipher rejected"
    | some h => .ok { c with s := s.serverHello h, cs := h.suite, gotSh := true }
  else if rd8 m 0 = hsCertificate then
    match saveLeafFromCert m with
    | none =>
      ({ s with leafDer := [] }).fail .handshake "Certificate leaf extract failed"
    | some leaf =>
      match verify s.trust m host with
      | (.refused reason, trust) =>
        ({ s.chain reason trust false with leafDer := leaf }).fail .cert
          (reason.getD "TLS certificate unverified")
      | (.trusted reason, trust) =>
        .ok { c with
          s := { s.chain reason trust true with leafDer := leaf }.note (.accepted host leaf)
          gotCert := true }
  else if rd8 m 0 = hsServerKeyEx then
    match parseServerKeyExchange C s.leafDer s.clientRandom s.serverRandom m with
    | none => s.fail .verify "ServerKeyExchange signature/parse failed"
    | some k =>
      .ok { c with
        s := s.note (.verified s.leafDer m (.keyExchange s.clientRandom s.serverRandom k.params))
        peerPub := k.peerPub
        peerCurve := k.curve
        gotSke := true }
  else if rd8 m 0 = hsServerHelloDone then .ok { c with s, gotDone := true }
  else .ok { c with s }

/-- What a message does when it is taken. -/
inductive Takes12 (m : Bytes) (c : Conn τ) : Conn τ → Prop
  | serverHello {h : ServerHello} : rd8 m 0 = hsServerHello → parseServerHello m = some h →
      Takes12 m c { c with s := (c.s.take m).serverHello h, cs := h.suite, gotSh := true }
  | certificate {leaf : Bytes} {reason : Option String} {trust : τ} : rd8 m 0 = hsCertificate →
      saveLeafFromCert m = some leaf → verify c.s.trust m host = (.trusted reason, trust) →
      Takes12 m c { c with
        s := { (c.s.take m).chain reason trust true with leafDer := leaf }.note
          (.accepted host leaf)
        gotCert := true }
  | keyExchange {k : Ske} : rd8 m 0 = hsServerKeyEx →
      parseServerKeyExchange C c.s.leafDer c.s.clientRandom c.s.serverRandom m = some k →
      Takes12 m c { c with
        s := (c.s.take m).note
          (.verified c.s.leafDer m (.keyExchange c.s.clientRandom c.s.serverRandom k.params))
        peerPub := k.peerPub
        peerCurve := k.curve
        gotSke := true }
  | done : rd8 m 0 = hsServerHelloDone → Takes12 m c { c with s := c.s.take m, gotDone := true }
  | other : rd8 m 0 ≠ hsServerHello → rd8 m 0 ≠ hsCertificate → rd8 m 0 ≠ hsServerKeyEx →
      Takes12 m c { c with s := c.s.take m }

theorem handle12_takes {m : Bytes} {c c' : Conn τ} (h : handle12 C verify host m c = .ok c') :
    Takes12 C verify host m c c' := by
  simp only [handle12] at h
  split at h
  · split at h
    · cases h
    next hsh =>
      cases h
      exact .serverHello ‹_› hsh
  split at h
  · split at h
    · cases h
    rename_i hleaf
    split at h
    · cases h
    next hver =>
      cases h
      exact .certificate ‹_› hleaf hver
  split at h
  · split at h
    · cases h
    next hske =>
      cases h
      exact .keyExchange ‹_› hske
  split at h
  · cases h
    exact .done ‹_›
  · cases h
    exact .other ‹_› ‹_› ‹_›

end Messages12

/-! ### The key exchange of TLS 1.2 -/

section Keys12

variable (C : Crypto)

/-- The suites with AES-256 use SHA-384. -/
def suiteHash (cs : ℕ) : HashAlg := if isAes256Gcm cs then .sha384 else .sha256

def deriveMaster (premaster : Bytes) (cs : ℕ) (s : Session τ) : Bytes :=
  let h := suiteHash cs
  if s.useEms then C.prf h premaster "extended master secret" (C.hash h s.transcript) 48
  else C.prf h premaster "master secret" (s.clientRandom ++ s.serverRandom) 48

def deriveKeys (premaster : Bytes) (cs : ℕ) (s : Session τ) : Session τ :=
  let master := deriveMaster C premaster cs s
  let block := C.prf (suiteHash cs) master "key expansion" (s.serverRandom ++ s.clientRandom)
  if isChacha cs then
    let b := block 88
    { s with masterSecret := master, cipher := .chacha20, clientKey := slice b 0 32
             serverKey := slice b 32 32, clientIv := slice b 64 12, serverIv := slice b 76 12 }
  else if isAes256Gcm cs then
    let b := block 72
    { s with masterSecret := master, cipher := .aes256Gcm, clientKey := slice b 0 32
             serverKey := slice b 32 32, clientIv := slice b 64 4, serverIv := slice b 68 4 }
  else
    let b := block 40
    { s with masterSecret := master, cipher := .aes128Gcm, clientKey := slice b 0 16
             serverKey := slice b 16 16, clientIv := slice b 32 4, serverIv := slice b 36 4 }

/-- The hash of the Finished messages goes by the cipher. -/
def finishedData12 (label : String) (s : Session τ) : Bytes :=
  let h : HashAlg := if s.cipher = .aes256Gcm then .sha384 else .sha256
  C.prf h s.masterSecret label (C.hash h s.transcript) 12

/-- `send_finished` up to the send. -/
def sendFinished (s : Session τ) : Session τ :=
  let m := UInt8.ofNat hsFinished :: (wr24 12 ++ finishedData12 C "client finished" s)
  { s with transcript := s.transcript ++ m, finishedSent := m }

/-- The key pair, the premaster secret and the ClientKeyExchange message. -/
def keyExchange12 (a : Attempt) (priv : Bytes) (c : Conn τ) : Except String (Bytes × Bytes) :=
  if c.peerCurve = 0x0017 then
    match a.p256Keygen with
    | none => .error "P-256 keygen failed"
    | some (priv, pub) =>
      match C.p256Ecdh priv c.peerPub with
      | none => .error "P-256 ECDH failed"
      | some premaster => .ok (premaster, UInt8.ofNat hsClientKeyEx :: (wr24 66 ++ 65 :: pub))
  else .ok (C.x25519 priv c.peerPub,
    UInt8.ofNat hsClientKeyEx :: (wr24 33 ++ 32 :: C.x25519Base priv))

/-- `expect_finished` over the records still to come. -/
def expectFinished (rs : List Recv) (s : Session τ) : Option (Session τ) :=
  let next : List Recv → Option (ℕ × Bytes) := fun rs => rs.head?.bind (tlsRecvRecord 64)
  match (next rs).bind fun (type, buf) =>
      if type = contentCcs then next rs.tail else some (type, buf) with
  | none => none
  | some (type, buf) =>
    if type ≠ contentHs ∨ buf.length < 16 ∨ rd8 buf 0 ≠ hsFinished then none
    else if (finishedData12 C "server finished" s).take 12 = slice buf 4 12 then
      some { s with transcript := s.transcript ++ buf }
    else none

/-- A NewSessionTicket of TLS 1.2. -/
def ticket12 (host : String) (cs : ℕ) (p : Bytes) : Option Ticket :=
  if p.length < 10 ∨ rd8 p 0 ≠ hsNewSessionTicket ∨ p.length < 4 + rd24 p 1 ∨ rd24 p 1 < 6 ∨
      4 + rd24 p 1 < 10 + rd16 p 8 ∨ rd16 p 8 = 0 ∨ sessionTicketMax < rd16 p 8 then none
  else some { host, ticket := slice p 10 (rd16 p 8), cipher := cs, tls13 := none, nonce := [] }

/-- The loop that waits for the ChangeCipherSpec and the Finished of the server. -/
def awaitFinished (host : String) (cs : ℕ) : List Recv → Session τ →
    Except (Failure τ) (Session τ)
  | [], s => s.fail .timeout "Timeout waiting for server CCS/Finished"
  | r :: rs, s =>
    match tlsRecvRecord hsReasmMax r with
    | none => awaitFinished host cs rs s
    | some (type, p) =>
      if type = contentAlert then s.fail .alert "Server alert after Finished (bad keys?)"
      else if type = contentHs then
        awaitFinished host cs rs
          { s with tickets := s.tickets ++ (ticket12 host cs p).toList }
      else if type ≠ contentCcs then awaitFinished host cs rs s
      else if rs = [] then s.fail .timeout "Timeout waiting for server CCS/Finished"
      else
        match expectFinished C rs s with
        | none => s.fail .verify "Server Finished verify failed"
        | some s => .ok { s with up := true }

end Keys12

/-! ### The connection -/

section Connect

variable (C : Crypto) (verify : VerifyCertChain τ)

def texts12 : LoopTexts where
  overflow := "Handshake buffer overflow"
  budget := "Handshake record budget exceeded"
  tooLarge := "Handshake message too large"

/-- `tls_close`, without the alert it sends. -/
def tlsClose (s : Session τ) : Session τ :=
  { s.scrubSecrets with up := false, tls13 := false, certVerified := false }

/-- The state in which the ClientHello is added to an empty transcript. The history starts anew. -/
def beginConnect (hello : ClientHello) (s : Session τ) : Session τ :=
  { tlsClose s with
    useEms := false, cipher := .aes128Gcm
    clientRandom := hello.random, tls13Priv := hello.priv
    transcript := hello.bytes
    handled := [], finishedSent := [], events := [] }

/-- From the ServerHelloDone on. -/
def finish12 (a : Attempt) (rest : List Recv) (c : Conn τ) : Except (Failure τ) (Session τ) :=
  if !(c.gotSh && c.gotSke && c.gotDone) then
    c.s.fail .timeout "Timeout waiting for ServerHelloDone"
  else if !(c.gotCert && c.s.certVerified) then
    c.s.fail .cert (c.s.certFailReason.getD "TLS certificate unverified")
  else
    match a.priv with
    | none => c.s.fail .rng "RNG not ready for key generation"
    | some priv =>
      match keyExchange12 C a priv c with
      | .error text => c.s.fail .handshake text
      | .ok (premaster, cke) =>
        let s := { c.s with transcript := c.s.transcript ++ cke }
        if !a.ckeSent then s.fail .handshake "ClientKeyExchange send failed"
        else
          let s := (deriveKeys C premaster c.cs s).note
            (.keyed (.tls12 s.clientRandom s.serverRandom c.peerCurve c.peerPub))
          if !a.ccsSent then s.fail .handshake "CCS send failed"
          else if !a.finishedSent then
            (sendFinished C s).fail .handshake "Finished send failed"
          else awaitFinished C a.host c.cs rest (sendFinished C s)

/-- The handshake behind the ClientHello. -/
def handshake (a : Attempt) (s : Session τ) : Except (Failure τ) (Session τ) :=
  match receive texts12 (handle12 C verify a.host) Conn.s (fun c => c.gotDone || c.s.tls13)
      (fun c => c.s.tls13) a.records 0 [] ⟨s, [], 0, false, false, false, false, 0⟩ with
  | .error e => .error e
  | .ok (c, rest) =>
    if c.s.tls13 then tls13HandshakeAfterSh C verify a.host a.finishedSent c.cs rest c.s
    else finish12 C a rest c

def helloFailure : HelloError → TlsErr
  | .rng => .err .rng "RNG not ready (crypto domain)"
  | .ech => .err .handshake "ECH required but keys/config missing"
  | .tooLarge => .err .buffer "ClientHello too large"

/-- The body of `tls_connect`; an error is what reaches the `fail` label. -/
def connectBody (a : Attempt) (s : Session τ) : Except (Failure τ) (Session τ) :=
  match a.hello with
  | .error e => .error ⟨tlsClose s, helloFailure e⟩
  | .ok hello =>
    if !a.helloSent then
      (beginConnect hello s).fail .handshake "ClientHello send failed"
    else handshake C verify a (beginConnect hello s)

/-- `tls_connect`: whether it returns 0, and the session it leaves. -/
def tlsConnect (a : Attempt) (s : Session τ) : Option TlsErr × Session τ :=
  if !a.tcpOk then (some (.err .tcp "TCP connect failed"), tlsClose s)
  else
    match connectBody C verify a s with
    | .ok s' => (none, s')
    | .error e => (some e.error, { e.session.scrubSecrets with up := false })

end Connect

end PeakOs.Tls
