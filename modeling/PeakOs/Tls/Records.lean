import Mathlib.Data.List.Nodup
import Mathlib.Data.List.Range
import PeakOs.Lib.Transition
import PeakOs.Tls.Messages

/-!
# The record layer

`tls_send_record` and `tls_recv_record` of `net/tls_record.c`: the headers, the associated data and
the nonces of the three protected record formats (TLS 1.3, TLS 1.2 with ChaCha20-Poly1305, TLS 1.2
with AES-GCM), the two sequence counters, and the static buffers the records are put together in.

Besides what a call returns, the model keeps which part of which buffer it writes and the nonce it
hands to the cipher. A write is noted and not refused: the code copies without looking, after a
length test made against a buffer that may be another one.

`Link` is a sender and the peer that reads each of its records as soon as it is sent, with the same
keys. TCP between them is a reliable stream of bytes.

## Main results

* `readBack_tls13`, `readBack_chacha12`, `readBack_gcm12` — one record of each format is read back
  as it was sent
* `recordNonce_injOn` — a nonce determines the counter it was made from
* `records_faithful` — what is received is what was sent, nonces are fresh and writes stay inside
  the buffers, as long as a TLS 1.3 record has at most 16000 bytes of content and a type
* `long_record_overflows` — the test of TLS 1.3 admits 16001 bytes, one more than there is room for
-/

namespace PeakOs.Tls

namespace Records

open List

/-! ### Buffers -/

/-- The static buffers of `tls_record.c`, and the buffer the caller receives into. -/
inductive Buffer
  | sendRec
  | sendPlain
  | sendCipher
  | payload
  | recvPlain
  | out (cap : ℕ)

def Buffer.size : Buffer → ℕ
  | .sendRec => 16600
  | .sendPlain => 16001
  | .sendCipher => 16016
  | .payload => 16384 + 512
  | .recvPlain => 16384 + 1
  | .out cap => cap

/-- `len` bytes written from position `off` on. -/
structure Write where
  buffer : Buffer
  off : ℕ
  len : ℕ

def Write.Inside (w : Write) : Prop := w.off + w.len ≤ w.buffer.size

/-! ### Keys, counters and nonces -/

/-- The authenticated ciphers of `crypto_aead.c`. The arguments are the key, the nonce, the
associated data and the text; encryption gives the ciphertext and the tag. -/
structure Aead where
  encrypt : Cipher → Bytes → Bytes → Bytes → Bytes → Option (Bytes × Bytes)
  decrypt : Cipher → Bytes → Bytes → Bytes → Bytes → Bytes → Option Bytes
  length_encrypt : ∀ {c key nonce aad plain cipher tag},
    encrypt c key nonce aad plain = some (cipher, tag) →
      cipher.length = plain.length ∧ tag.length = 16
  decrypt_encrypt : ∀ {c key nonce aad plain cipher tag},
    encrypt c key nonce aad plain = some (cipher, tag) →
      decrypt c key nonce aad cipher tag = some plain

/-- What the handshake leaves for one direction of the connection. -/
structure Keys where
  tls13 : Bool
  cipherKind : Cipher
  key : Bytes
  iv : Bytes
  iv_length : iv.length = 12

def contentApp : UInt8 := 23

/-- The eight bytes of a sequence number, the highest first. -/
def seqBytes (seq : ℕ) : Bytes := (List.range 8).map fun i => UInt8.ofNat (seq / 2 ^ (56 - 8 * i))

def tls13Nonce (iv : Bytes) (seq : ℕ) : Bytes :=
  iv.take 4 ++ List.zipWith (· ^^^ ·) (iv.drop 4) (seqBytes seq)

/-- The nonce of AES-GCM in TLS 1.2: the counter is sent along in the record. -/
def explicitNonce (iv explicit : Bytes) : Bytes := iv.take 4 ++ explicit

/-- `client_seq++` and `server_seq++`. -/
def nextSeq (seq : ℕ) : ℕ := (seq + 1) % 2 ^ 64

/-- The five bytes in front of a record; in TLS 1.3 they are also its associated data. -/
def header (type : UInt8) (len : ℕ) : Bytes := [type, 3, 3] ++ wr16 len

/-- The associated data of TLS 1.2. -/
def aad12 (seq : ℕ) (type : UInt8) (len : ℕ) : Bytes := seqBytes seq ++ header type len

/-! ### Sending -/

structure Sender where
  busy : Bool
  clientSeq : ℕ

/-- What a call of `tls_send_record` does. With a record, the call returns what `net_tcp_send`
returns for it; without one, it fails. -/
structure Sent where
  sender : Sender
  record : Option Bytes
  nonce : Option Bytes
  writes : List Write

def refused (seq : ℕ) (writes : List Write) : Sent where
  sender := { busy := false, clientSeq := seq }
  record := none
  nonce := none
  writes := writes

/-- The header and the pieces after it, copied into `tls_send_rec` one behind the other. -/
def recWrites : ℕ → List Bytes → List Write
  | _, [] => []
  | off, p :: ps => ⟨.sendRec, off, p.length⟩ :: recWrites (off + p.length) ps

def putRecord (seq : ℕ) (nonce : Bytes) (writes : List Write) (pieces : List Bytes) : Sent where
  sender := { busy := false, clientSeq := nextSeq seq }
  record := some pieces.flatten
  nonce := some nonce
  writes := writes ++ recWrites 0 pieces

def sendUnencrypted (seq : ℕ) (type : UInt8) (data : Bytes) : Sent :=
  if Buffer.sendRec.size < 5 + data.length then refused seq []
  else
    { sender := { busy := false, clientSeq := seq }
      record := some (header type data.length ++ data)
      nonce := none
      writes := recWrites 0 [header type data.length, data] }

variable (A : Aead) (k : Keys)

def sendTls13 (seq : ℕ) (type : UInt8) (data : Bytes) : Sent :=
  if Buffer.sendRec.size - 5 - 16 < data.length + 1 then refused seq []
  else
    let plain := data ++ [type]
    let hdr := header contentApp (plain.length + 16)
    let nonce := tls13Nonce k.iv seq
    let copied := [⟨.sendPlain, 0, data.length⟩, ⟨.sendPlain, data.length, 1⟩]
    match A.encrypt k.cipherKind k.key nonce hdr plain with
    | none => refused seq copied
    | some (cipher, tag) =>
      putRecord seq nonce (copied ++ [⟨.sendCipher, 0, cipher.length⟩]) [hdr, cipher, tag]

def sendChacha12 (seq : ℕ) (type : UInt8) (data : Bytes) : Sent :=
  let nonce := tls13Nonce k.iv seq
  match A.encrypt .chacha20 k.key nonce (aad12 seq type data.length) data with
  | none => refused seq []
  | some (cipher, tag) =>
    putRecord seq nonce [⟨.sendCipher, 0, cipher.length⟩]
      [header type (data.length + 16), cipher, tag]

def sendGcm12 (seq : ℕ) (type : UInt8) (data : Bytes) : Sent :=
  let explicit := seqBytes seq
  let nonce := explicitNonce k.iv explicit
  match A.encrypt k.cipherKind k.key nonce (aad12 seq type data.length) data with
  | none => refused seq []
  | some (cipher, tag) =>
    putRecord seq nonce [⟨.sendCipher, 0, cipher.length⟩]
      [header type (8 + data.length + 16), explicit, cipher, tag]

def sendEncrypted (seq : ℕ) (type : UInt8) (data : Bytes) : Sent :=
  if k.tls13 then sendTls13 A k seq type data
  else if 16000 < data.length then refused seq []
  else if k.cipherKind = .chacha20 then sendChacha12 A k seq type data
  else sendGcm12 A k seq type data

def tlsSendRecord (s : Sender) (type : UInt8) (data : Bytes) (encrypted : Bool) : Sent :=
  if s.busy then { sender := s, record := none, nonce := none, writes := [] }
  else if encrypted then sendEncrypted A k s.clientSeq type data
  else sendUnencrypted s.clientSeq type data

/-! ### Receiving -/

/-- What a call of `tls_recv_record` does, and the bytes of the stream it leaves. -/
structure Received where
  result : Option (UInt8 × Bytes)
  serverSeq : ℕ
  rest : Bytes
  writes : List Write

/-- The content type is the last byte that is not zero, the content what stands in front of it. -/
def innerPlaintext (plain : Bytes) : Option (UInt8 × Bytes) :=
  match plain.reverse.dropWhile (· == 0) with
  | [] => none
  | inner :: content => some (inner, content.reverse)

/-- A record whose body was read, by what its decryption gives. -/
structure Opened where
  result : Option (UInt8 × Bytes)
  serverSeq : ℕ
  writes : List Write

def notOpened (seq : ℕ) : Opened where
  result := none
  serverSeq := seq
  writes := []

def openTls13 (seq cap : ℕ) (type major minor : UInt8) (payload : Bytes) : Opened :=
  if type.toNat = contentCcs then { result := some (type, []), serverSeq := seq, writes := [] }
  else if payload.length < 16 then notOpened seq
  else
    let clen := payload.length - 16
    let aad := [type, major, minor] ++ wr16 payload.length
    if Buffer.recvPlain.size < clen then notOpened seq
    else
      match A.decrypt k.cipherKind k.key (tls13Nonce k.iv seq) aad (payload.take clen)
          (payload.drop clen) with
      | none => notOpened seq
      | some plain =>
        match innerPlaintext plain with
        | none =>
          { result := none, serverSeq := nextSeq seq, writes := [⟨.recvPlain, 0, plain.length⟩] }
        | some (inner, content) =>
          if cap < content.length then
            { result := none, serverSeq := nextSeq seq, writes := [⟨.recvPlain, 0, plain.length⟩] }
          else
            { result := some (inner, content), serverSeq := nextSeq seq,
              writes := [⟨.recvPlain, 0, plain.length⟩, ⟨.out cap, 0, content.length⟩] }

def openChacha12 (seq cap : ℕ) (type : UInt8) (payload : Bytes) : Opened :=
  if payload.length < 16 then notOpened seq
  else
    let clen := payload.length - 16
    if cap < clen then notOpened seq
    else
      match A.decrypt .chacha20 k.key (tls13Nonce k.iv seq) (aad12 seq type clen)
          (payload.take clen) (payload.drop clen) with
      | none => notOpened seq
      | some plain =>
        { result := some (type, plain), serverSeq := nextSeq seq,
          writes := [⟨.out cap, 0, plain.length⟩] }

def openGcm12 (seq cap : ℕ) (type : UInt8) (payload : Bytes) : Opened :=
  if payload.length < 8 + 16 then notOpened seq
  else
    let nonce := explicitNonce k.iv (payload.take 8)
    let clen := payload.length - 8 - 16
    if cap < clen then notOpened seq
    else
      match A.decrypt k.cipherKind k.key nonce (aad12 seq type clen)
          ((payload.drop 8).take clen) ((payload.drop 8).drop clen) with
      | none => notOpened seq
      | some plain =>
        { result := some (type, plain), serverSeq := nextSeq seq,
          writes := [⟨.out cap, 0, plain.length⟩] }

def openEncrypted (seq cap : ℕ) (type major minor : UInt8) (payload : Bytes) : Opened :=
  if k.tls13 then openTls13 A k seq cap type major minor payload
  else if k.cipherKind = .chacha20 then openChacha12 A k seq cap type payload
  else openGcm12 A k seq cap type payload

def openUnencrypted (seq cap : ℕ) (type : UInt8) (payload : Bytes) : Opened :=
  if cap < payload.length then notOpened seq
  else
    { result := some (type, payload), serverSeq := seq,
      writes := [⟨.out cap, 0, payload.length⟩] }

/-- `stream` is what TCP delivers until the timeouts have run out: a read of more than that fails,
after it has taken what there was. -/
def tlsRecvRecord (seq cap : ℕ) (encrypted : Bool) (stream : Bytes) : Received :=
  match stream with
  | type :: major :: minor :: hi :: lo :: body =>
    let len := rd16 [hi, lo] 0
    if Buffer.payload.size < len then
      { result := none, serverSeq := seq, rest := body, writes := [] }
    else if body.length < len then
      { result := none, serverSeq := seq, rest := [], writes := [⟨.payload, 0, body.length⟩] }
    else
      let payload := body.take len
      let o := if encrypted then openEncrypted A k seq cap type major minor payload
        else openUnencrypted seq cap type payload
      { result := o.result, serverSeq := o.serverSeq, rest := body.drop len,
        writes := ⟨.payload, 0, len⟩ :: o.writes }
  | _ => { result := none, serverSeq := seq, rest := [], writes := [] }

/-! ### The two ends of a connection -/

/-- A sender, a peer that receives with the same keys, and what has happened between them. -/
structure Link where
  sender : Sender
  serverSeq : ℕ
  wire : Bytes
  /-- The nonces the sender has used, in order. -/
  nonces : List Bytes
  /-- The contents that were sent, with their types. -/
  sent : List (UInt8 × Bytes)
  /-- The contents the peer has obtained. -/
  got : List (UInt8 × Bytes)
  writes : List Write

def Link.start : Link where
  sender := { busy := false, clientSeq := 0 }
  serverSeq := 0
  wire := []
  nonces := []
  sent := []
  got := []
  writes := []

/-- One send, with the room the peer has when it receives the record. -/
structure Send where
  type : UInt8
  data : Bytes
  cap : ℕ

/-- The peer receives, after a record has gone out. -/
def Link.deliver (l : Link) (cap : ℕ) (record : Bytes) : Link :=
  let r := tlsRecvRecord A k l.serverSeq cap true (l.wire ++ record)
  { l with
    serverSeq := r.serverSeq
    wire := r.rest
    got := l.got ++ r.result.toList
    writes := l.writes ++ r.writes }

def Link.step (l : Link) (e : Send) : Link :=
  let o := tlsSendRecord A k l.sender e.type e.data true
  let l' := { l with
    sender := o.sender, nonces := l.nonces ++ o.nonce.toList, writes := l.writes ++ o.writes }
  match o.record with
  | none => l'
  | some record => Link.deliver A k { l' with sent := l.sent ++ [(e.type, e.data)] } e.cap record

/-- What the record layer is for. -/
structure Faithful (l : Link) : Prop where
  got : l.got = l.sent
  nonces : l.nonces.Nodup
  writes : ∀ w ∈ l.writes, w.Inside

/-! ### Nonces -/

@[simp] theorem length_seqBytes (seq : ℕ) : (seqBytes seq).length = 8 := by
  simp [seqBytes]

variable {m n : ℕ} {ws : List Write} {l : Link} {e : Send} {w : Write}

theorem seqBytes_injOn (hm : m < 2 ^ 64) (hn : n < 2 ^ 64)
    (h : seqBytes m = seqBytes n) : m = n := by
  have hdigit : ∀ i < 8, m / 2 ^ (56 - 8 * i) % 256 = n / 2 ^ (56 - 8 * i) % 256 := by
    intro i hi
    have hi' : (seqBytes m)[i]? = (seqBytes n)[i]? := by rw [h]
    simpa [seqBytes, hi, ← UInt8.toNat_inj] using hi'
  have h0 := hdigit 0 (by decide)
  have h1 := hdigit 1 (by decide)
  have h2 := hdigit 2 (by decide)
  have h3 := hdigit 3 (by decide)
  have h4 := hdigit 4 (by decide)
  have h5 := hdigit 5 (by decide)
  have h6 := hdigit 6 (by decide)
  have h7 := hdigit 7 (by decide)
  omega

theorem zipWith_xor_cancel {as bs cs : Bytes} (hb : bs.length = as.length)
    (hc : cs.length = as.length)
    (h : zipWith (· ^^^ ·) as bs = zipWith (· ^^^ ·) as cs) : bs = cs := by
  induction as generalizing bs cs with
  | nil =>
    rw [eq_nil_of_length_eq_zero hb, eq_nil_of_length_eq_zero hc]
  | cons a as ih =>
    obtain ⟨b, bs, rfl⟩ := exists_cons_of_length_eq_add_one hb
    obtain ⟨c, cs, rfl⟩ := exists_cons_of_length_eq_add_one hc
    simp only [zipWith_cons_cons, List.cons.injEq, UInt8.xor_right_inj] at h
    rw [h.1, ih (by simpa using hb) (by simpa using hc) h.2]

/-- The nonce of the record with a given number. -/
def recordNonce (seq : ℕ) : Bytes :=
  if k.tls13 ∨ k.cipherKind = .chacha20 then tls13Nonce k.iv seq
  else explicitNonce k.iv (seqBytes seq)

/-- **A nonce determines the counter it was made from.** -/
theorem recordNonce_injOn (hm : m < 2 ^ 64) (hn : n < 2 ^ 64)
    (h : recordNonce k m = recordNonce k n) : m = n := by
  refine seqBytes_injOn hm hn ?_
  have hiv := k.iv_length
  unfold recordNonce at h
  split at h
  · exact zipWith_xor_cancel (by simp [hiv]) (by simp [hiv]) (append_cancel_left h)
  · exact append_cancel_left h

/-! ### One record, sent and received -/

variable {A k} {seq : ℕ} {type : UInt8} {data : Bytes}

variable {payload cipher tag : Bytes}

theorem recv_header (cap : ℕ) (hlen : payload.length ≤ Buffer.payload.size) :
    tlsRecvRecord A k seq cap true (header type payload.length ++ payload)
      = { result := (openEncrypted A k seq cap type 3 3 payload).result
          serverSeq := (openEncrypted A k seq cap type 3 3 payload).serverSeq
          rest := []
          writes := ⟨.payload, 0, payload.length⟩
            :: (openEncrypted A k seq cap type 3 3 payload).writes } := by
  have hsize : Buffer.payload.size = 16896 := rfl
  have hrd : rd16 [UInt8.ofNat (payload.length / 256), UInt8.ofNat payload.length] 0
      = payload.length := by
    simp only [rd16, rd8, getD_cons_zero, getD_cons_succ, UInt8.toNat_ofNat']
    omega
  simp only [header, wr16, cons_append, nil_append, tlsRecvRecord, hrd]
  rw [if_neg (by omega)]
  simp

/-- A record that the peer reads back as it was sent, whatever room it has beyond the content. -/
def ReadBack (A : Aead) (k : Keys) (seq : ℕ) (type : UInt8) (data record : Bytes) : Prop :=
  ∀ cap, data.length ≤ cap → ∃ ws : List Write,
    tlsRecvRecord A k seq cap true record
      = { result := some (type, data), serverSeq := nextSeq seq, rest := [], writes := ws } ∧
    ∀ w ∈ ws, w.Inside

theorem readBack_of_open {outer : UInt8} (hlen : payload.length ≤ Buffer.payload.size)
    (h : ∀ cap, data.length ≤ cap → ∃ ws : List Write, openEncrypted A k seq cap outer 3 3 payload
        = { result := some (type, data), serverSeq := nextSeq seq, writes := ws } ∧
      ∀ w ∈ ws, w.Inside) :
    ReadBack A k seq type data (header outer payload.length ++ payload) := by
  intro cap hcap
  obtain ⟨ws, ho, hws⟩ := h cap hcap
  refine ⟨⟨.payload, 0, payload.length⟩ :: ws, ?_, ?_⟩
  · rw [recv_header cap hlen, ho]
  · refine forall_mem_cons.2 ⟨?_, hws⟩
    simpa [Write.Inside] using hlen

/-- Zero bytes of the content are not taken for padding, since the type comes after them. -/
theorem innerPlaintext_append (h : type ≠ 0) :
    innerPlaintext (data ++ [type]) = some (type, data) := by simp [innerPlaintext, h]

theorem readBack_tls13 (h13 : k.tls13 = true) (hlen : data.length ≤ 16000) (htype : type ≠ 0)
    (henc : A.encrypt k.cipherKind k.key (tls13Nonce k.iv seq)
      (header contentApp ((data ++ [type]).length + 16)) (data ++ [type]) = some (cipher, tag)) :
    ReadBack A k seq type data
      (header contentApp ((data ++ [type]).length + 16) ++ (cipher ++ tag)) := by
  obtain ⟨hc, ht⟩ := A.length_encrypt henc
  have hdec := A.decrypt_encrypt henc
  have hp : (cipher ++ tag).length = (data ++ [type]).length + 16 := by simp [hc, ht]
  have hplain : (data ++ [type]).length = data.length + 1 := by simp
  rw [← hp]
  refine readBack_of_open (by rw [hp, hplain]; simp only [Buffer.size]; omega) fun cap hcap => ?_
  refine ⟨[⟨.recvPlain, 0, (data ++ [type]).length⟩, ⟨.out cap, 0, data.length⟩], ?_, ?_⟩
  · have hclen : (cipher ++ tag).length - 16 = cipher.length := by rw [hp, hc]; omega
    have happ : contentApp.toNat ≠ contentCcs := by decide
    rw [openEncrypted, if_pos h13, openTls13, if_neg happ, if_neg (by omega)]
    rw [hclen, if_neg (by rw [hc, hplain]; simp only [Buffer.size]; omega),
      take_left, drop_left, hp]
    rw [header] at hdec
    rw [hdec]
    dsimp only
    rw [innerPlaintext_append htype]
    dsimp only
    rw [if_neg (by omega)]
  · simp only [forall_mem_cons, Write.Inside, Buffer.size]
    refine ⟨by omega, by omega, by simp⟩

theorem readBack_chacha12 (h13 : k.tls13 = false)
    (hkind : k.cipherKind = .chacha20) (hlen : data.length ≤ 16000)
    (henc : A.encrypt .chacha20 k.key (tls13Nonce k.iv seq) (aad12 seq type data.length) data
      = some (cipher, tag)) :
    ReadBack A k seq type data (header type (data.length + 16) ++ (cipher ++ tag)) := by
  obtain ⟨hc, ht⟩ := A.length_encrypt henc
  have hdec := A.decrypt_encrypt henc
  have hp : (cipher ++ tag).length = data.length + 16 := by simp [hc, ht]
  rw [← hp]
  refine readBack_of_open (by rw [hp]; simp only [Buffer.size]; omega) fun cap hcap => ?_
  refine ⟨[⟨.out cap, 0, data.length⟩], ?_, ?_⟩
  · have hclen : (cipher ++ tag).length - 16 = cipher.length := by rw [hp, hc]; omega
    rw [openEncrypted, if_neg (by simp [h13]), if_pos hkind, openChacha12, if_neg (by omega)]
    rw [hclen, if_neg (by omega), take_left, drop_left, hc, hdec]
  · simpa [Write.Inside, Buffer.size] using hcap

theorem readBack_gcm12 (h13 : k.tls13 = false)
    (hkind : k.cipherKind ≠ .chacha20) (hlen : data.length ≤ 16000)
    (henc : A.encrypt k.cipherKind k.key (explicitNonce k.iv (seqBytes seq))
      (aad12 seq type data.length) data = some (cipher, tag)) : ReadBack A k seq type data
      (header type (8 + data.length + 16) ++ (seqBytes seq ++ (cipher ++ tag))) := by
  obtain ⟨hc, ht⟩ := A.length_encrypt henc
  have hdec := A.decrypt_encrypt henc
  have hp : (seqBytes seq ++ (cipher ++ tag)).length = 8 + data.length + 16 := by
    simp only [length_append, length_seqBytes]
    omega
  rw [← hp]
  refine readBack_of_open (by rw [hp]; simp only [Buffer.size]; omega) fun cap hcap => ?_
  refine ⟨[⟨.out cap, 0, data.length⟩], ?_, ?_⟩
  · have hclen : (seqBytes seq ++ (cipher ++ tag)).length - 8 - 16 = cipher.length := by
      rw [hc]; omega
    have htake : (seqBytes seq ++ (cipher ++ tag)).take 8 = seqBytes seq :=
      take_left' (length_seqBytes seq)
    have hdrop : (seqBytes seq ++ (cipher ++ tag)).drop 8 = cipher ++ tag :=
      drop_left' (length_seqBytes seq)
    rw [openEncrypted, if_neg (by simp [h13]), if_neg hkind, openGcm12, if_neg (by omega)]
    rw [hclen, if_neg (by omega), htake, hdrop, take_left, drop_left, hc, hdec]
  · simpa [Write.Inside, Buffer.size] using hcap

theorem recWrites_inside {off : ℕ} {ps : List Bytes}
    (h : off + ps.flatten.length ≤ Buffer.sendRec.size) :
    ∀ w ∈ recWrites off ps, w.Inside := by
  induction ps generalizing off with
  | nil => simp [recWrites]
  | cons p ps ih =>
    rw [flatten_cons, length_append] at h
    refine forall_mem_cons.2 ⟨?_, ih (by omega)⟩
    simp only [Write.Inside]
    omega

/-- The lengths the send function takes: the room of `tls_send_rec` in TLS 1.3, a constant in
TLS 1.2. -/
def Admits (k : Keys) (len : ℕ) : Prop :=
  if k.tls13 then len + 1 ≤ Buffer.sendRec.size - 5 - 16 else len ≤ 16000

/-- A call of `tls_send_record` that behaves: it fails with the counter as it was, or puts a record
on the wire that the peer reads back, with the nonce of its number. -/
structure Behaves (A : Aead) (k : Keys) (seq : ℕ) (type : UInt8) (data : Bytes) (o : Sent) :
    Prop where
  writes : ∀ w ∈ o.writes, w.Inside
  outcome : (o.sender = ⟨false, seq⟩ ∧ o.record = none ∧ o.nonce = none) ∨
    (Admits k data.length ∧ o.sender = ⟨false, nextSeq seq⟩ ∧ o.nonce = some (recordNonce k seq) ∧
      ∃ record, o.record = some record ∧ ReadBack A k seq type data record)

theorem behaves_refused (h : ∀ w ∈ ws, w.Inside) : Behaves A k seq type data (refused seq ws) :=
  ⟨h, .inl ⟨rfl, rfl, rfl⟩⟩

theorem behaves_putRecord {nonce : Bytes} {pieces : List Bytes}
    (hadm : Admits k data.length) (hws : ∀ w ∈ ws, w.Inside)
    (hlen : pieces.flatten.length ≤ Buffer.sendRec.size) (hnonce : nonce = recordNonce k seq)
    (hread : ReadBack A k seq type data pieces.flatten) :
    Behaves A k seq type data (putRecord seq nonce ws pieces) where
  writes w hw := by
    rcases mem_append.1 hw with h | h
    · exact hws w h
    · exact recWrites_inside (by simpa using hlen) w h
  outcome := .inr ⟨hadm, rfl, by rw [← hnonce]; rfl, _, rfl, hread⟩

@[simp] theorem length_header (len : ℕ) : (header type len).length = 5 := rfl

theorem behaves_sendTls13 (h13 : k.tls13 = true)
    (hfit : Admits k data.length → data.length ≤ 16000 ∧ type ≠ 0) :
    Behaves A k seq type data (sendTls13 A k seq type data) := by
  unfold sendTls13
  split
  case isTrue => exact behaves_refused (by simp)
  case isFalse hlen =>
    have hadm : Admits k data.length := by
      rw [Admits, if_pos h13]
      omega
    obtain ⟨hshort, htype⟩ := hfit hadm
    have hcopied : ∀ w ∈ ([⟨.sendPlain, 0, data.length⟩, ⟨.sendPlain, data.length, 1⟩] :
        List Write), w.Inside := by
      simp only [forall_mem_cons, Write.Inside, Buffer.size]
      exact ⟨by omega, by omega, by simp⟩
    dsimp only
    split
    · exact behaves_refused hcopied
    rename_i cipher tag henc
    obtain ⟨hc, ht⟩ := A.length_encrypt henc
    rw [length_append, length_singleton] at hc
    refine behaves_putRecord hadm (fun w hw => ?_) ?_ ?_ ?_
    · rcases mem_append.1 hw with h | h
      · exact hcopied w h
      rw [mem_singleton.1 h, Write.Inside]
      simp only [Buffer.size]
      omega
    · simp only [flatten_cons, flatten_nil, length_append, length_header, length_nil]
      omega
    · rw [recordNonce, if_pos (.inl h13)]
    · simpa using readBack_tls13 h13 hshort htype henc

theorem behaves_tls12 (h13 : k.tls13 = false) (hlen : data.length ≤ 16000) :
    Behaves A k seq type data
      (if k.cipherKind = .chacha20 then sendChacha12 A k seq type data
        else sendGcm12 A k seq type data) := by
  have hadm : Admits k data.length := by rwa [Admits, if_neg (by simp [h13])]
  have hcipher : ∀ {cipher : Bytes}, cipher.length = data.length →
      ∀ w ∈ ([⟨.sendCipher, 0, cipher.length⟩] : List Write), w.Inside := by
    intro cipher hc w hw
    rw [mem_singleton.1 hw, Write.Inside]
    simp only [Buffer.size]
    omega
  split
  case isTrue hkind =>
    unfold sendChacha12
    dsimp only
    split
    · exact behaves_refused (by simp)
    rename_i cipher tag henc
    obtain ⟨hc, ht⟩ := A.length_encrypt henc
    refine behaves_putRecord hadm (hcipher hc) ?_ ?_ ?_
    · simp only [flatten_cons, flatten_nil, length_append, length_header, Buffer.size, length_nil]
      omega
    · rw [recordNonce, if_pos (.inr hkind)]
    · simpa using readBack_chacha12 h13 hkind hlen henc
  case isFalse hkind =>
    unfold sendGcm12
    dsimp only
    split
    · exact behaves_refused (by simp)
    rename_i cipher tag henc
    obtain ⟨hc, ht⟩ := A.length_encrypt henc
    refine behaves_putRecord hadm (hcipher hc) ?_ ?_ ?_
    · simp only [flatten_cons, flatten_nil, length_append, length_header, length_seqBytes,
        Buffer.size, length_nil]
      omega
    · rw [recordNonce, if_neg (by simp [h13, hkind])]
    · simpa using readBack_gcm12 h13 hkind hlen henc

/-- **One send.** -/
theorem behaves_sendEncrypted
    (hfit : Admits k data.length → k.tls13 = true → data.length ≤ 16000 ∧ type ≠ 0) :
    Behaves A k seq type data (sendEncrypted A k seq type data) := by
  unfold sendEncrypted
  split
  case isTrue h13 => exact behaves_sendTls13 h13 fun hadm => hfit hadm h13
  case isFalse h13 =>
    split
    · exact behaves_refused (by simp)
    · exact behaves_tls12 (by simpa using h13) (by omega)

/-! ### Runs -/

/-- The sends the code carries out as it should. Those it refuses are not restricted. -/
def Fits (k : Keys) (l : Link) (e : Send) : Prop :=
  Admits k e.data.length →
    e.data.length ≤ e.cap ∧ (k.tls13 = true → e.data.length ≤ 16000 ∧ e.type ≠ 0) ∧
      l.nonces.length < 2 ^ 64

/-- Both ends count the same records, and the nonces used are those of the numbers counted. -/
structure Lockstep (k : Keys) (l : Link) : Prop where
  busy : l.sender.busy = false
  seqs : l.serverSeq = l.sender.clientSeq
  wire : l.wire = []
  counted : l.sender.clientSeq = l.nonces.length % 2 ^ 64
  nonces : l.nonces = (List.range l.nonces.length).map (recordNonce k)
  few : l.nonces.length ≤ 2 ^ 64
  got : l.got = l.sent
  writes : ∀ w ∈ l.writes, w.Inside

theorem Lockstep.start : Lockstep k Link.start where
  busy := rfl
  seqs := rfl
  wire := rfl
  counted := rfl
  nonces := rfl
  few := Nat.zero_le _
  got := rfl
  writes := by simp [Link.start]

theorem Lockstep.step (h : Lockstep k l) (he : Fits k l e) : Lockstep k (Link.step A k l e) := by
  have hb : Behaves A k l.sender.clientSeq e.type e.data
      (tlsSendRecord A k l.sender e.type e.data true) := by
    rw [tlsSendRecord, if_neg (by simp [h.busy])]
    exact behaves_sendEncrypted fun hadm => (he hadm).2.1
  have hwrites : ∀ w ∈ l.writes ++ (tlsSendRecord A k l.sender e.type e.data true).writes,
      w.Inside := by
    intro w hw
    exact (mem_append.1 hw).elim (h.writes w) (hb.writes w)
  unfold Link.step
  rcases hb.outcome with ⟨hs, hr, hn⟩ | ⟨hadm, hs, hn, record, hr, hread⟩
  · simp only [hr, hn, hs, Option.toList_none, append_nil]
    exact { h with busy := rfl, writes := hwrites }
  obtain ⟨hcap, -, hlt⟩ := he hadm
  obtain ⟨ws, hrecv, hws⟩ := hread e.cap hcap
  have hnum : l.sender.clientSeq = l.nonces.length := by rw [h.counted, Nat.mod_eq_of_lt hlt]
  simp only [hr, hn, hs, Option.toList_some, Link.deliver, h.wire, nil_append, h.seqs, hrecv]
  exact {
    busy := rfl
    seqs := rfl
    wire := rfl
    counted := by rw [length_append, length_singleton, ← hnum]; rfl
    nonces := by
      rw [length_append, length_singleton, range_succ, map_append, ← h.nonces, hnum]
      rfl
    few := by rw [length_append, length_singleton]; omega
    got := by rw [h.got]
    writes := fun w hw => (mem_append.1 hw).elim (hwrites w) (hws w) }

theorem Lockstep.faithful (h : Lockstep k l) : Faithful l where
  got := h.got
  nonces := by
    rw [h.nonces]
    refine List.Nodup.map_on (fun m hm n hn => ?_) nodup_range
    have hfew := h.few
    have hm' := mem_range.1 hm
    have hn' := mem_range.1 hn
    exact recordNonce_injOn k (by omega) (by omega)
  writes := h.writes

/-- **The record layer is faithful**, whatever the cipher and the version, in every run in which a
record of TLS 1.3 has a type and at most 16000 bytes of content, the peer has room for the content,
and the counter has not come round. -/
theorem records_faithful {l : Link}
    (h : Reach (· = Link.start) (Fits k) (Link.step A k) l) : Faithful l := by
  refine Lockstep.faithful (k := k) ?_
  refine h.invariant (Lockstep k) ?_ ?_
  · rintro s rfl
    exact Lockstep.start
  · exact fun s a hs ha => hs.step ha

/-- A cipher that hides nothing. -/
def clearAead : Aead where
  encrypt _ _ _ _ plain := some (plain, zeros 16)
  decrypt _ _ _ _ cipher _ := some cipher
  length_encrypt h := by
    obtain ⟨rfl, rfl⟩ := Prod.mk.inj (Option.some.inj h)
    exact ⟨rfl, by simp [zeros]⟩
  decrypt_encrypt h := by
    obtain ⟨rfl, rfl⟩ := Prod.mk.inj (Option.some.inj h)
    rfl

def keys13 : Keys where
  tls13 := true
  cipherKind := .aes128Gcm
  key := zeros 16
  iv := zeros 12
  iv_length := by simp [zeros]

theorem records_faithful_two :
    Faithful (Link.step clearAead keys13
      (Link.step clearAead keys13 Link.start ⟨22, [1, 0], 16384⟩) ⟨23, [], 16384⟩) :=
  records_faithful (A := clearAead) (k := keys13)
    (.call _ (.call _ (.start rfl) fun _ => ⟨by decide, fun _ => ⟨by decide, by decide⟩, by decide⟩)
      fun _ => ⟨by decide, fun _ => ⟨by decide, by decide⟩, by decide⟩)

/-- Writes are noted once and for all. -/
theorem mem_writes_deliver {cap : ℕ} {record : Bytes} (h : w ∈ l.writes) :
    w ∈ (Link.deliver A k l cap record).writes :=
  mem_append_left _ h

theorem mem_writes_step (h : w ∈ (tlsSendRecord A k l.sender e.type e.data true).writes) :
    w ∈ (Link.step A k l e).writes := by
  unfold Link.step
  dsimp only
  split
  · exact mem_append_right _ h
  · exact mem_writes_deliver (mem_append_right _ h)

/-- The type of a TLS 1.3 record is written behind the content, however long that is. -/
theorem type_mem_writes {s : Sender} (hbusy : s.busy = false) (h13 : k.tls13 = true)
    (hadm : Admits k data.length) :
    ⟨.sendPlain, data.length, 1⟩ ∈ (tlsSendRecord A k s type data true).writes := by
  rw [Admits, if_pos h13] at hadm
  rw [tlsSendRecord, if_neg (by simp [hbusy]), if_pos rfl, sendEncrypted, if_pos h13, sendTls13,
    if_neg (by omega)]
  dsimp only
  split
  · simp [refused]
  · simp [putRecord]

/-- 16001 bytes pass the length test of TLS 1.3, and their type is written behind the end of
`tls_send_plain`. -/
theorem long_record_overflows :
    ¬ ∀ (A : Aead) (k : Keys) (l : Link),
      Reach (· = Link.start) (fun _ _ => True) (Link.step A k) l → Faithful l := by
  intro h
  obtain ⟨data, hlen⟩ : ∃ data : Bytes, data.length = 16001 :=
    ⟨zeros 16001, length_replicate⟩
  have hrun := h clearAead keys13 _ (.call ⟨23, data, 16384⟩ (.start rfl) trivial)
  have hadm : Admits keys13 data.length := by
    rw [hlen, Admits]
    decide
  have hin := hrun.writes _ (mem_writes_step (type_mem_writes rfl rfl hadm))
  rw [Write.Inside, hlen] at hin
  exact absurd hin (by decide)

end Records

end PeakOs.Tls
