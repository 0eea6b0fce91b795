import Mathlib.Data.List.Infix
import Mathlib.Tactic.Ring
import PeakOs.Lib.Transition
import PeakOs.Net.Tcp

/-!
# What a connection delivers

One connection of `net/tcp.c`, a peer that sends a stream of bytes and then closes, and a network
between them that loses, repeats, reorders and cuts up the peer's packets: an arriving segment is
any part of the stream, at any time. In between the application receives with buffers of any size,
and the handler goes on after the acknowledgements it sent.

## Main results

* `Delivering.step` — an orderly event keeps what was received at the front of the stream
* `delivers_prefix` — in every orderly run the bytes returned are a prefix of the stream, the end is
  reported only after all of them, and the SYN-ACK acknowledged the number that was sent
* `early_fin` — a FIN that overtakes the data before it ends the stream
-/

namespace PeakOs.Net

namespace Stream

open List

variable {β : Type}

/-- The other end: its initial sequence number and all it has to send before its FIN. -/
structure Peer (β : Type) where
  isn : UInt32
  stream : List β

/-- A packet of an established connection that holds the bytes of the stream from position `p` on;
a FIN comes after the last of them. -/
structure FromPeer (q : Peer β) (p : ℕ) (h : TcpHdrInfo β) : Prop where
  seq : h.seq = q.isn + 1 + UInt32.ofNat p
  data : h.data = (q.stream.drop p).take h.data.length
  inside : p + h.data.length ≤ q.stream.length
  fin : hasFlag h.flags tcpFin = true → p + h.data.length = q.stream.length
  syn : hasFlag h.flags tcpSyn = false
  rst : hasFlag h.flags tcpRst = false

/-- The second packet of a handshake, whoever sent it. -/
structure IsSynAck (h : TcpHdrInfo β) : Prop where
  syn : hasFlag h.flags tcpSyn = true
  ack : hasFlag h.flags tcpAck = true
  fin : hasFlag h.flags tcpFin = false
  rst : hasFlag h.flags tcpRst = false
  data : h.data = []

/-- The connection, the handlers that wait, and what the application has seen of it. -/
structure Session (β : Type) where
  conn : TcpConn β
  pending : List Pending
  returned : List β
  ended : Bool
  /-- What the SYN-ACK acknowledged that opened the connection. -/
  synAck : Option UInt32

inductive Event (β : Type)
  /-- A packet; `p` is its position in the stream. -/
  | arrive (p : ℕ) (h : TcpHdrInfo β)
  | goOn
  | recv (cap : ℕ)

def Session.took (s : Session β) (r : TcpConn β × Option Pending) : Session β :=
  { s with conn := r.1, pending := r.2.toList ++ s.pending }

def Session.step (s : Session β) : Event β → Session β
  | .arrive _ h =>
    { s.took (s.conn.onSegment h) with
      synAck := if s.conn.state = .synSent ∧ (s.conn.onSegment h).1.state = .established
        then some h.ack else s.synAck }
  | .goOn =>
    match s.pending with
    | [] => s
    | k :: rest => { s with pending := rest }.took (s.conn.resume k)
  | .recv cap =>
    match s.conn.recv cap with
    | (c, .bytes data) => { s with conn := c, returned := s.returned ++ data }
    | (c, .notConn) => { s with conn := c, ended := true }
    | (c, .timeout) => { s with conn := c }

/-- A connection that has just been asked for, or has just been opened by the peer. -/
structure Start (q : Peer β) (s : Session β) : Prop where
  state : s.conn.state = .synSent ∨
    s.conn.state = .established ∧ s.conn.rcvNxt = q.isn + 1
  rx : s.conn.rx = []
  gotFin : s.conn.gotFin = false
  pending : s.pending = []
  returned : s.returned = []
  ended : s.ended = false
  synAck : s.synAck = none

/-- The packets the network may bring; nothing is asked of the calls. -/
def Brings (q : Peer β) (_ : Session β) : Event β → Prop
  | .arrive p h => FromPeer q p h ∨ IsSynAck h
  | _ => True

/-- What TCP promises; `iss` is the sequence number the connection was opened with. -/
structure Delivers (q : Peer β) (iss : UInt32) (s : Session β) : Prop where
  isPrefix : s.returned <+: q.stream
  ended : s.ended = true → s.returned = q.stream
  synAck : ∀ a, s.synAck = some a → a = iss + 1

/-! ### Orderly runs -/

/-- The number of bytes accepted so far. -/
def Session.accepted (s : Session β) : ℕ := s.returned.length + s.conn.rx.length

/-- A FIN is acted on once, and when every byte before it has been accepted. -/
def FinReady (q : Peer β) (s : Session β) (flags : UInt8) : Prop :=
  hasFlag flags tcpFin = true → s.conn.state ≠ .closeWait →
    s.conn.gotFin = false ∧ s.accepted = q.stream.length

/-- Packets of the stream are less than half the sequence space away from what is expected, a
SYN-ACK answers the SYN that was sent, and the handler comes to a FIN only when it is ready for
it: right away if the segment is not acknowledged first, else when it goes on. -/
def Orderly (q : Peer β) (iss : UInt32) (s : Session β) : Event β → Prop
  | .arrive p h =>
    FromPeer q p h ∧ s.accepted < p + 2 ^ 31 ∧ p < s.accepted + 2 ^ 31 ∧
        ((s.conn.onData h).2 = false → FinReady q s h.flags) ∨
      IsSynAck h ∧ (s.conn.state = .synSent → h.seq = q.isn ∧ h.ack = iss + 1)
  | .goOn => ∀ flags rest, s.pending = .finTest flags :: rest → FinReady q s flags
  | .recv _ => True

/-- An open connection has accepted the front of the stream, and the FIN after all of it. -/
structure Open (q : Peer β) (s : Session β) : Prop where
  state : s.conn.state = .established ∨ s.conn.state = .closeWait
  accepted : s.returned ++ s.conn.rx = q.stream.take s.accepted
  le : s.accepted ≤ q.stream.length
  rcvNxt : s.conn.rcvNxt = q.isn + 1 + UInt32.ofNat (s.accepted + s.conn.gotFin.toNat)
  fin : s.conn.gotFin = true → s.accepted = q.stream.length
  closeWait : s.conn.state = .closeWait ∨ .closeWait ∈ s.pending → s.conn.gotFin = true

/-- A connection that waits for the SYN-ACK has seen nothing yet. -/
structure Fresh (s : Session β) : Prop where
  state : s.conn.state = .synSent
  rx : s.conn.rx = []
  gotFin : s.conn.gotFin = false
  pending : s.pending = []
  returned : s.returned = []

structure Delivering (q : Peer β) (iss : UInt32) (s : Session β) : Prop where
  phase : Fresh s ∨ Open q s
  ended : s.ended = true → s.returned = q.stream
  synAck : ∀ a, s.synAck = some a → a = iss + 1

variable {q : Peer β} {iss : UInt32} {s : Session β}

theorem Delivering.delivers (h : Delivering q iss s) : Delivers q iss s where
  isPrefix := by
    rcases h.phase with hf | ho
    · rw [hf.returned]
      exact nil_prefix
    calc s.returned <+: s.returned ++ s.conn.rx := prefix_append _ _
      _ = q.stream.take s.accepted := ho.accepted
      _ <+: q.stream := take_prefix _ _
  ended := h.ended
  synAck := h.synAck

theorem Delivering.of_start (h : Start q s) : Delivering q iss s where
  phase := by
    rcases h.state with hs | ⟨hs, hr⟩
    · exact .inl ⟨hs, h.rx, h.gotFin, h.pending, h.returned⟩
    have hacc : s.accepted = 0 := by simp [Session.accepted, h.rx, h.returned]
    refine .inr ⟨.inl hs, ?_, by omega, ?_, ?_, ?_⟩
    · simp [hacc, h.rx, h.returned]
    · simp [hacc, h.gotFin, hr]
    · simp [h.gotFin]
    · simp [h.pending, hs]
  ended := by simp [h.ended]
  synAck := by simp [h.synAck]

/-! ### The steps -/

theorem seq_eq_iff {isn : UInt32} {m n : ℕ} (h : m < n + 2 ^ 32) (h' : n < m + 2 ^ 32) :
    isn + 1 + UInt32.ofNat m = isn + 1 + UInt32.ofNat n ↔ m = n := by
  refine ⟨fun heq => ?_, fun heq => by rw [heq]⟩
  have hmod := congrArg UInt32.toNat ((UInt32.add_right_inj _).1 heq)
  simp only [UInt32.toNat_ofNat'] at hmod
  omega

variable {p : ℕ} {h : TcpHdrInfo β}

section

variable (ho : Open q s)
include ho

/-- Data are stored only when they are the next ones of the stream. -/
theorem Open.onData (hp : FromPeer q p h)
    (hfar : s.accepted < p + 2 ^ 31) (hnear : p < s.accepted + 2 ^ 31) :
    Open q { s with conn := (s.conn.onData h).1 } := by
  unfold TcpConn.onData
  dsimp only
  split
  case isFalse => exact ho
  case isTrue hnext =>
    split
    · exact ho
    obtain ⟨hpos, hseq⟩ := hnext
    have hinside := hp.inside
    have hbool := s.conn.gotFin.toNat_le
    have hpeq : p = s.accepted + s.conn.gotFin.toNat := by
      rwa [hp.seq, ho.rcvNxt, seq_eq_iff (by omega) (by omega)] at hseq
    -- after the FIN there is nothing left that could be the next
    have hnofin : s.conn.gotFin = false := by
      by_contra hfin
      have hlen := ho.fin (by simpa using hfin)
      omega
    have hp0 : p = s.accepted := by simpa [hnofin] using hpeq
    have hacc : ({ s with conn := { s.conn with
          rx := s.conn.rx ++ h.data
          rcvNxt := s.conn.rcvNxt + UInt32.ofNat h.data.length } } : Session β).accepted
        = s.accepted + h.data.length := by
      simp only [Session.accepted, length_append]
      omega
    refine ⟨ho.state, ?_, ?_, ?_, ?_, ho.closeWait⟩
    · rw [hacc]
      calc s.returned ++ (s.conn.rx ++ h.data)
          = q.stream.take s.accepted ++ (q.stream.drop s.accepted).take h.data.length := by
            rw [← append_assoc, ho.accepted, ← hp0, ← hp.data]
        _ = q.stream.take (s.accepted + h.data.length) := (take_add).symm
    · rw [hacc]
      omega
    · rw [hacc]
      simp only [hnofin, Bool.toNat_false, add_zero, UInt32.ofNat_add]
      rw [ho.rcvNxt, hnofin, Bool.toNat_false, add_zero, UInt32.add_assoc]
    · simp [hnofin]

/-- The test for a FIN, when the connection is ready for it. -/
theorem Open.finTest {flags : UInt8} (hready : FinReady q s flags) :
    Open q (s.took (s.conn.finTest flags)) := by
  unfold TcpConn.finTest
  split
  case isFalse => exact ho
  case isTrue hfin =>
    obtain ⟨hgot, hall⟩ := hready hfin.1 hfin.2
    refine ⟨ho.state, ho.accepted, ho.le, ?_, fun _ => hall, fun _ => rfl⟩
    rw [ho.rcvNxt, hgot, Bool.toNat_false, add_zero, UInt32.ofNat_add, ← UInt32.add_assoc]
    rfl

theorem Open.push {p : Pending} (hp : p ≠ .closeWait) :
    Open q { s with pending := p :: s.pending } := by
  refine { ho with closeWait := ?_ }
  rintro (hs | hmem)
  · exact ho.closeWait (.inl hs)
  · exact ho.closeWait (.inr ((mem_cons.1 hmem).resolve_left fun h => hp h.symm))

theorem Open.pop {p : Pending} {rest : List Pending} (hp : s.pending = p :: rest) :
    Open q { s with pending := rest } := by
  refine { ho with closeWait := ?_ }
  rintro (hs | hmem)
  · exact ho.closeWait (.inl hs)
  · exact ho.closeWait (.inr (by rw [hp]; exact mem_cons_of_mem _ hmem))

/-- A packet of the stream on an open connection. -/
theorem Open.arrive (hp : FromPeer q p h)
    (hfar : s.accepted < p + 2 ^ 31) (hnear : p < s.accepted + 2 ^ 31)
    (hready : (s.conn.onData h).2 = false → FinReady q s h.flags) :
    Open q (s.took (s.conn.onSegment h)) := by
  have hdata := ho.onData hp hfar hnear
  have hopen : s.conn.state = .established ∨ s.conn.state = .finWait ∨
      s.conn.state = .closeWait := ho.state.imp_right .inr
  unfold TcpConn.onSegment
  rw [if_neg (by simp [hp.rst]), if_neg (by simp [hp.syn]), if_pos hopen]
  split
  · exact hdata.push (p := .finTest h.flags) (by simp)
  rename_i hquiet
  have hsame : (s.conn.onData h).1 = s.conn := by
    unfold TcpConn.onData at hquiet ⊢
    dsimp only at hquiet ⊢
    split
    · split
      · rfl
      · simp_all
    · rfl
  rw [hsame]
  exact ho.finTest (hready (by simpa using hquiet))

/-- A SYN-ACK on an open connection changes nothing. -/
theorem Open.synAck (hs : IsSynAck h) : s.conn.onSegment h = (s.conn, none) := by
  have hstate : s.conn.state ≠ .synSent := by rcases ho.state with h | h <;> rw [h] <;> decide
  have hdata : s.conn.onData h = (s.conn, false) := by simp [TcpConn.onData, hs.data]
  have hopen : s.conn.state = .established ∨ s.conn.state = .finWait ∨
      s.conn.state = .closeWait := ho.state.imp_right .inr
  rw [TcpConn.onSegment, if_neg (by simp [hs.rst]), if_neg (fun hc => hstate hc.1), hdata]
  simp [TcpConn.finTest, hs.fin]

end

/-- While it waits for the SYN-ACK, a connection ignores everything else. -/
theorem Fresh.other (hf : Fresh s) (hp : FromPeer q p h) : s.conn.onSegment h = (s.conn, none) := by
  rw [TcpConn.onSegment, if_neg (by simp [hp.rst]), if_neg (by simp [hp.syn]),
    if_neg (by simp [hf.state])]

theorem Fresh.synAck (hf : Fresh s) (hs : IsSynAck h) (hseq : h.seq = q.isn) :
    s.conn.onSegment h = (s.conn.onSynAck h, some .done) ∧
      Open q (s.took (s.conn.onSynAck h, some .done)) := by
  refine ⟨?_, .inl rfl, ?_, ?_, ?_, ?_, ?_⟩
  · rw [TcpConn.onSegment, if_neg (by simp [hs.rst]), if_pos ⟨hf.state, hs.syn, hs.ack⟩]
  all_goals
    simp [Session.took, Session.accepted, TcpConn.onSynAck, hf.returned, hf.rx, hf.gotFin,
      hf.pending, hseq]

/-- A connection that takes nothing leaves the session as it is. -/
theorem took_self : s.took (s.conn, none) = s := rfl

section

variable (hd : Delivering q iss s)
include hd

theorem Delivering.arrive
    (he : Orderly q iss s (.arrive p h)) : Delivering q iss (s.step (.arrive p h)) := by
  rcases hd.phase with hf | ho
  · -- the handshake is not over
    rcases he with ⟨hp, -⟩ | ⟨hs, hgood⟩
    · have hseg := hf.other hp
      have hstep : s.step (.arrive p h) = s := by simp [Session.step, hseg, took_self, hf.state]
      rwa [hstep]
    obtain ⟨hseq, hack⟩ := hgood hf.state
    obtain ⟨hseg, hopen⟩ := hf.synAck hs hseq
    have hstep : s.step (.arrive p h)
        = { s.took (s.conn.onSynAck h, some .done) with synAck := some h.ack } := by
      simp [Session.step, hseg, hf.state, TcpConn.onSynAck]
    rw [hstep]
    refine ⟨.inr { hopen with }, hd.ended, ?_⟩
    rintro a ⟨⟩
    exact hack
  have hstate : s.conn.state ≠ .synSent := by rcases ho.state with h | h <;> rw [h] <;> decide
  have hstep : s.step (.arrive p h) = s.took (s.conn.onSegment h) := by
    simp only [Session.step, hstate]
    rfl
  rw [hstep]
  refine ⟨.inr ?_, hd.ended, hd.synAck⟩
  rcases he with ⟨hp, hfar, hnear, hready⟩ | ⟨hs, -⟩
  · exact ho.arrive hp hfar hnear hready
  · rwa [ho.synAck hs]

theorem Delivering.goOn (he : Orderly q iss s .goOn) : Delivering q iss (s.step .goOn) := by
  cases hpend : s.pending with
  | nil =>
    simp only [Session.step, hpend]
    exact hd
  | cons k rest =>
    simp only [Session.step, hpend]
    refine ⟨.inr ?_, hd.ended, hd.synAck⟩
    have ho : Open q s := hd.phase.resolve_left fun hf => by simp [hf.pending] at hpend
    have hpop := ho.pop hpend
    cases k with
    | done => exact hpop
    | finTest flags => exact hpop.finTest (he flags rest hpend)
    | closeWait =>
      have hfin : s.conn.gotFin = true := ho.closeWait (.inr (by simp [hpend]))
      exact { hpop with state := .inr rfl, closeWait := fun _ => hfin }

theorem Delivering.recv (cap : ℕ) : Delivering q iss (s.step (.recv cap)) := by
  by_cases hempty : s.conn.rx.length = 0
  · have hrx : s.conn.rx = [] := eq_nil_of_length_eq_zero hempty
    by_cases hend : s.conn.gotFin = true ∨ s.conn.state = .closed
    · have hstep : s.step (.recv cap) = { s with ended := true } := by
        simp [Session.step, TcpConn.recv, hempty, hend]
      rw [hstep]
      have ho : Open q s := by
        refine hd.phase.resolve_left fun hf => ?_
        rcases hend with h | h
        · simp [hf.gotFin] at h
        · simp [hf.state] at h
      have hfin : s.conn.gotFin = true := by
        refine hend.resolve_right fun hc => ?_
        rcases ho.state with h | h <;> simp [h] at hc
      refine ⟨.inr { ho with }, fun _ => ?_, hd.synAck⟩
      have hall := ho.accepted
      rwa [hrx, append_nil, ho.fin hfin, take_length] at hall
    have hstep : s.step (.recv cap) = s := by simp [Session.step, TcpConn.recv, hempty, hend]
    rwa [hstep]
  have ho : Open q s := hd.phase.resolve_left fun hf => hempty (by simp [hf.rx])
  have hstep : s.step (.recv cap)
      = { s with
          conn := { s.conn with rx := s.conn.rx.drop (min s.conn.rx.length cap) }
          returned := s.returned ++ s.conn.rx.take (min s.conn.rx.length cap) } := by
    simp [Session.step, TcpConn.recv, hempty]
  rw [hstep]
  have hacc : ∀ n, (s.returned ++ s.conn.rx.take n).length + (s.conn.rx.drop n).length
      = s.accepted := by
    intro n
    simp only [Session.accepted, length_append, length_take, length_drop]
    omega
  refine ⟨.inr ⟨ho.state, ?_, ?_, ?_, ?_, ho.closeWait⟩, fun hend => ?_, hd.synAck⟩
  · simp only [Session.accepted, hacc, append_assoc, take_append_drop]
    exact ho.accepted
  · simp only [Session.accepted, hacc]
    exact ho.le
  · simp only [Session.accepted, hacc]
    exact ho.rcvNxt
  · simp only [Session.accepted, hacc]
    exact ho.fin
  -- the end was reported before, so that nothing can be left in the buffer
  have hall := hd.ended hend
  have hle := ho.le
  simp only [Session.accepted, hall] at hle
  omega

/-- **The step lemma.** -/
theorem Delivering.step {e : Event β} (he : Orderly q iss s e) : Delivering q iss (s.step e) := by
  cases e with
  | arrive p h => exact hd.arrive he
  | goOn => exact hd.goOn he
  | recv cap => exact hd.recv cap

end

/-- **A connection delivers a prefix of the stream**, and its end after all of it, in every orderly
run. -/
theorem delivers_prefix (h : Reach (Start q) (Orderly q iss) Session.step s) : Delivers q iss s :=
  (h.invariant (Delivering q iss) (fun _ hs => .of_start hs) fun _ _ hd he => hd.step he).delivers

/-- A peer that sends two bytes. -/
def twoBytes : Peer UInt8 where
  isn := 100
  stream := [7, 8]

/-- The connection right after the peer opened it. -/
def opened : Session UInt8 where
  conn := Stack.serverConn 0 0x0A000202 ⟨4000, 80, 100, 0, tcpSyn, []⟩
  pending := []
  returned := []
  ended := false
  synAck := none

theorem opened_start : Start twoBytes opened :=
  ⟨.inr ⟨rfl, rfl⟩, rfl, rfl, rfl, rfl, rfl, rfl⟩

/-- Both bytes and the FIN in one packet. -/
def lastPacket : TcpHdrInfo UInt8 := ⟨4000, 80, 101, 0x2001, tcpFin ||| tcpAck, [7, 8]⟩

theorem delivers_prefix_lastPacket :
    Delivers twoBytes 0 ([.arrive 0 lastPacket, .goOn, .recv 1].foldl Session.step opened) := by
  refine delivers_prefix (Reach.calls (.start opened_start) _ ⟨?_, ?_, trivial, trivial⟩)
  · refine .inl ⟨⟨rfl, rfl, by decide, fun _ => rfl, rfl, rfl⟩, by decide, by decide, ?_⟩
    exact fun h => absurd h (by decide)
  · rintro flags rest ⟨⟩ - -
    exact ⟨rfl, rfl⟩

/-- The FIN arrives before the two bytes, and the application is told that the stream is over. -/
theorem early_fin :
    ¬ ∀ (q : Peer UInt8) (iss : UInt32) (s : Session UInt8),
      Reach (Start q) (Brings q) Session.step s → Delivers q iss s := by
  intro h
  have hfin : FromPeer twoBytes 2 ⟨4000, 80, 103, 0x2001, tcpFin, []⟩ :=
    ⟨rfl, rfl, by decide, fun _ => rfl, rfl, rfl⟩
  have hall : AllowedFrom (Brings twoBytes) Session.step opened
      [.arrive 2 ⟨4000, 80, 103, 0x2001, tcpFin, []⟩, .recv 1] :=
    ⟨.inl hfin, trivial, trivial⟩
  have hend := (h twoBytes 0 _ (Reach.calls (.start opened_start) _ hall)).ended rfl
  exact absurd hend (by decide)

end Stream

end PeakOs.Net
