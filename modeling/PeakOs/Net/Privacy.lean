import Mathlib.Tactic.Ring
import PeakOs.Lib.Transition
import PeakOs.Net.Tcp

/-!
# The network switches of `privacy.c`

The kill switch and the localhost-only setting are asked for when a connection or a listener is
opened, and nowhere else. A `Node` is the connection table with the two other protocols that send
packets, so that one run has the settings, the calls and the packets in any order.

What waits for the hardware address of a next hop goes on at any time here, whatever began to wait
after it; the code has fewer runs.

## Main results

* `Stack.step_quiet` — a call that is refused and a packet that is not answered send nothing
* `Stack.step_opened` — only a SYN for a listener opens a closed slot
* `Node.switches_respected` — in every run of such calls and packets both switches hold at every
  step
* `Node.echo_reply` — a ping is answered with the kill switch on
-/

namespace PeakOs.Net

open List

/-! ### Settings -/

namespace Privacy

/-- `privacy_init`; it leaves the capabilities. -/
def init (p : Privacy) : Privacy :=
  { p with
    netKill := false
    netClientGrant := false
    netListenGrant := false
    netLanGrant := false
    listenersLocalhost := true }

def clearSession (p : Privacy) : Privacy :=
  { p with
    netClientGrant := false
    netListenGrant := false
    netLanGrant := false
    listenersLocalhost := true
    capNetClient := false
    capNetListen := false
    capNetLan := false }

def setNetKillSwitch (p : Privacy) (on : Bool) : Privacy := { p with netKill := on }

def grantNetClient (p : Privacy) : Privacy :=
  { p with netClientGrant := true, capNetClient := true }

def grantNetListen (p : Privacy) (lan : Bool) : Privacy :=
  let p := { p with netListenGrant := true, capNetListen := true }
  if lan then { p with netLanGrant := true, capNetLan := true, listenersLocalhost := false } else p

def setListenersLocalhostOnly (p : Privacy) (on : Bool) : Privacy :=
  { p with listenersLocalhost := on }

def revokeGrant (p : Privacy) (idx : ℤ) : Privacy :=
  if idx = 0 then { p with netClientGrant := false, capNetClient := false }
  else if idx = 1 then { p with netListenGrant := false, capNetListen := false }
  else if idx = 2 then
    { p with netLanGrant := false, listenersLocalhost := true, capNetLan := false }
  else p

inductive Change
  | init
  | clearSession
  | setNetKillSwitch (on : Bool)
  | grantNetClient
  | grantNetListen (lan : Bool)
  | setListenersLocalhostOnly (on : Bool)
  | revokeGrant (idx : ℤ)

def change (p : Privacy) : Change → Privacy
  | .init => p.init
  | .clearSession => p.clearSession
  | .setNetKillSwitch on => p.setNetKillSwitch on
  | .grantNetClient => p.grantNetClient
  | .grantNetListen lan => p.grantNetListen lan
  | .setListenersLocalhostOnly on => p.setListenersLocalhostOnly on
  | .revokeGrant idx => p.revokeGrant idx

end Privacy

/-! ### Ping and UDP -/

inductive Proto
  | icmp
  | udp
  deriving DecidableEq

/-- What `net_ip_send` gets of a packet that is not a segment. -/
structure Datagram where
  dst : UInt32
  proto : Proto
  payload : List UInt8

structure Node where
  stack : Stack UInt8
  localDns : UInt32
  /-- Those that wait for their next hop. -/
  datagrams : List Datagram
  /-- Those that went out, the last one first. -/
  datagramsSent : List Datagram

/-- The words of a packet, the last one filled up with zero. -/
def wordSum : List UInt8 → ℕ
  | [] => 0
  | [a] => a.toNat * 256
  | a :: b :: rest => a.toNat * 256 + b.toNat + wordSum rest

def foldCarry (sum : ℕ) : ℕ :=
  if h : sum < 65536 then sum else foldCarry (sum % 65536 + sum / 65536)
  termination_by sum
  decreasing_by omega

def netChecksum (data : List UInt8) : UInt16 := ~~~ UInt16.ofNat (foldCarry (wordSum data))

def be16 (v : UInt16) : List UInt8 := [(v >>> 8).toUInt8, v.toUInt8]

namespace Node

/-- `net_ip_send` up to the point where it looks for the next hop. -/
def netIpSend (n : Node) (d : Datagram) : Node := { n with datagrams := d :: n.datagrams }

/-- The rest of `net_ip_send`, once the next hop was found or not. -/
def datagramGoOn (n : Node) (found : Bool) : Node :=
  match n.datagrams with
  | [] => n
  | d :: rest =>
    if found ∧ 20 + d.payload.length ≤ 1500 then
      { n with datagrams := rest, datagramsSent := d :: n.datagramsSent }
    else { n with datagrams := rest }

/-- The callers send at most 300 bytes, so that the 16-bit length does not wrap. -/
def netUdpSend (n : Node) (dst : UInt32) (sport dport : UInt16) (data : List UInt8) : Node :=
  let total := 8 + data.length
  if 512 < total then n
  else n.netIpSend ⟨dst, .udp, be16 sport ++ be16 dport ++ be16 (.ofNat total) ++ [0, 0] ++ data⟩

/-- An echo request is sent back with its type changed. -/
def handleIcmp (n : Node) (src : UInt32) (pkt : List UInt8) : Node :=
  if pkt.length < 8 ∨ pkt.head? ≠ some 8 then n
  else if 1500 < pkt.length then n
  else
    let reply (csum : UInt16) := 0 :: (pkt.drop 1).take 1 ++ be16 csum ++ pkt.drop 4
    n.netIpSend ⟨src, .icmp, reply (netChecksum (reply 0))⟩

/-- `net_dns_resolve` and `dns_query_once` where they send the query they have built. -/
def dnsQuery (n : Node) (q : List UInt8) : Node :=
  if ¬ n.stack.netReady ∨ n.localDns = 0 then n
  else
    let sport := n.stack.ephemPort
    let n := { n with stack := { n.stack with ephemPort := Stack.nextEphemPort sport } }
    n.netUdpSend n.localDns sport 53 q

def dhcpSendMsg (n : Node) (msg : List UInt8) : Node := n.netUdpSend 0xFFFFFFFF 68 67 msg

def settings (n : Node) (c : Privacy.Change) : Node :=
  { n with stack := { n.stack with privacy := n.stack.privacy.change c } }

/-- A lease, or the static address. -/
def setAddress (n : Node) (ip : UInt32) : Node := { n with stack := { n.stack with localIp := ip } }

inductive Event
  | tcp (e : Stack.Event UInt8)
  | icmp (src : UInt32) (pkt : List UInt8)
  | dnsQuery (q : List UInt8)
  | dhcpSendMsg (msg : List UInt8)
  | datagramGoOn (found : Bool)
  | setAddress (ip : UInt32)
  | settings (c : Privacy.Change)

def step (n : Node) : Event → Node × Outcome UInt8
  | .tcp e => ({ n with stack := (n.stack.step e).1 }, (n.stack.step e).2)
  | .icmp src pkt => (n.handleIcmp src pkt, .none)
  | .dnsQuery q => (n.dnsQuery q, .none)
  | .dhcpSendMsg msg => (n.dhcpSendMsg msg, .none)
  | .datagramGoOn found => (n.datagramGoOn found, .none)
  | .setAddress ip => (n.setAddress ip, .none)
  | .settings c => (n.settings c, .none)

/-- The state after an event. -/
def next (n : Node) (e : Event) : Node := (n.step e).1

/-- The network and the settings as they are at boot. -/
structure Start (n : Node) : Prop where
  tcps : ∀ i, n.stack.tcps i = TcpConn.zero
  waiting : n.stack.waiting = []
  sent : n.stack.sent = []
  datagrams : n.datagrams = []
  datagramsSent : n.datagramsSent = []
  privacy : n.stack.privacy = n.stack.privacy.init

/-! ### What the switches promise -/

/-- The loopback network, or the address of the machine. -/
def IsLocal (n : Node) (ip : UInt32) : Prop := ip >>> 24 = 127 ∨ ip = n.stack.localIp

def LocalhostOnly (n : Node) : Prop :=
  n.stack.privacy.listenersLocalhost = true ∧ n.stack.privacy.netLanGrant = false

/-- No segment and no datagram goes out with the kill switch on. With listeners restricted to
localhost no slot is opened for a remote address, and none is handed out by `net_tcp_accept`. -/
structure Respects (n : Node) (e : Event) : Prop where
  segments : n.stack.privacy.netKill = true → (n.next e).stack.sent = n.stack.sent
  datagrams : n.stack.privacy.netKill = true → (n.next e).datagramsSent = n.datagramsSent
  opened : n.LocalhostOnly → ∀ i, (n.stack.tcps i).state = .closed →
    ((n.next e).stack.tcps i).state = .established →
      n.IsLocal ((n.next e).stack.tcps i).remoteIp
  accepted : n.LocalhostOnly → ∀ i, (n.step e).2 = .accepted i →
    n.IsLocal (n.stack.tcps i).remoteIp

end Node

/-! ### Packets and calls that send nothing -/

variable {β : Type}

/-- The handler sends no acknowledgement for the segment. -/
def Unanswered (c : TcpConn β) (h : TcpHdrInfo β) : Prop :=
  hasFlag h.flags tcpRst = true ∨
    ¬ (c.state = .synSent ∧ hasFlag h.flags tcpSyn ∧ hasFlag h.flags tcpAck) ∧
      (c.state = .established ∨ c.state = .finWait ∨ c.state = .closeWait →
        (h.data = [] ∨
          h.seq ≠ c.rcvNxt ∧ ¬ h.seq + UInt32.ofNat h.data.length > c.rcvNxt) ∧
        (hasFlag h.flags tcpFin = true → c.state = .closeWait))

theorem Unanswered.onSegment {c : TcpConn β} {h : TcpHdrInfo β} (hu : Unanswered c h) :
    (c.onSegment h).2 = none := by
  rw [TcpConn.onSegment]
  by_cases hrst : hasFlag h.flags tcpRst = true
  · rw [if_pos hrst]
  obtain ⟨hsyn, hopen⟩ := hu.resolve_left hrst
  rw [if_neg hrst, if_neg hsyn]
  split
  case isFalse => rfl
  case isTrue hstate =>
    obtain ⟨hold, hfin⟩ := hopen hstate
    have hdata : c.onData h = (c, false) := by
      rcases hold with hnil | ⟨hne, hle⟩
      · simp [TcpConn.onData, hnil]
      · simp only [TcpConn.onData, hne, and_false, if_false, hle, decide_false]
    rw [hdata, if_neg (by simp), TcpConn.finTest, if_neg fun hf => hf.2 (hfin hf.1)]

namespace Stack

/-- A SYN that a listener has a slot for. -/
structure OpensPassively (s : Stack β) (src : UInt32) (h : TcpHdrInfo β) : Prop where
  slot : s.netTcpFindSlot src h.sport h.dport = none
  syn : hasFlag h.flags tcpSyn = true
  ack : hasFlag h.flags tcpAck = false
  listener : (s.netTcpFindListener h.dport).isSome = true
  free : s.netTcpAllocSlot.isSome = true

def IsOpen (s : Stack β) (i : Slot) : Prop :=
  (s.tcps i).state = .established ∨ (s.tcps i).state = .closeWait

/-- No packet that is answered arrives, and the calls are none of those that send on an open
connection. -/
def Quiet (s : Stack β) : Event β → Prop
  | .arrive _ src h => ¬ s.OpensPassively src h ∧
      ∀ i, s.netTcpFindSlot src h.sport h.dport = some i → Unanswered (s.tcps i) h
  | .fdSend fd data => (s.tcps fd).state = .established → data = []
  | .send data => (s.tcps s.tcpCur).state = .established → data = []
  | .fdClose fd => ¬ s.IsOpen fd
  | .close => ¬ s.IsOpen s.tcpCur
  | .fdShutdown fd how => how ≠ .read → ¬ s.IsOpen fd
  | _ => True

/-- Nothing was sent, and nothing waits to be. -/
def Silent (s s' : Stack β) : Prop := s'.waiting = s.waiting ∧ s'.sent = s.sent

variable {s t u : Stack β} {i fd : Slot} {c : TcpConn β} {src : UInt32} {hdr : TcpHdrInfo β}
  {e : Event β}

theorem netHandleTcp_of_not_opensPassively
    (hslot : s.netTcpFindSlot src hdr.sport hdr.dport = none) (hno : ¬ s.OpensPassively src hdr)
    (ticks : UInt16) : s.netHandleTcp ticks src hdr = s := by
  simp only [netHandleTcp, hslot]
  split
  case isFalse => rfl
  case isTrue hsyn =>
    have hfull : s.netTcpAllocSlot = none := by
      by_contra hfree
      have hack : hasFlag hdr.flags tcpAck = false := by simpa using hsyn.2.1
      exact hno ⟨hslot, hsyn.1, hack, hsyn.2.2, Option.isSome_iff_ne_none.2 hfree⟩
    rw [hfull]

theorem silent_netTcpFdSend {data : List β}
    (h : (s.tcps fd).state = .established → data = []) : Silent s (s.netTcpFdSend fd data).1 := by
  rw [netTcpFdSend]
  split
  · exact ⟨rfl, rfl⟩
  next hopen =>
    rw [h (not_not.1 hopen)]
    exact ⟨rfl, rfl⟩

theorem silent_netTcpFdClose (h : ¬ s.IsOpen fd) (viaFd : Bool) :
    Silent s (s.netTcpFdClose fd viaFd).1 := by
  have hclosed : ¬ ((s.tcps fd).state = .established ∨ (s.tcps fd).state = .closeWait) := h
  rw [netTcpFdClose, if_neg hclosed]
  exact ⟨rfl, rfl⟩

theorem silent_netTcpFdShutdown {how : How}
    (h : how ≠ .read → ¬ s.IsOpen fd) : Silent s (s.netTcpFdShutdown fd how).1 := by
  by_cases hread : how = .read
  · simp only [hread]
    exact ⟨rfl, rfl⟩
  have hclosed : ¬ ((s.tcps fd).state = .established ∨ (s.tcps fd).state = .closeWait) := h hread
  simp only [netTcpFdShutdown, hread, hclosed]
  exact ⟨rfl, rfl⟩

theorem silent_netTcpFdRecv (s : Stack β) (fd : Slot) (cap : ℕ) :
    Silent s (s.netTcpFdRecv fd cap).1 := by
  obtain ⟨n, hn, -⟩ := s.netTcpFdRecv_cases fd cap
  rw [hn]
  exact ⟨rfl, rfl⟩

theorem silent_netTcpListen (s : Stack β) (port : UInt16) : Silent s (s.netTcpListen port).1 := by
  unfold netTcpListen
  iterate 3
    split
    · exact ⟨rfl, rfl⟩
  split <;> exact ⟨rfl, rfl⟩

theorem silent_netTcpAccept (s : Stack β) (id : Fin 8) : Silent s (s.netTcpAccept id).1 := by
  unfold netTcpAccept
  split
  · exact ⟨rfl, rfl⟩
  split <;> exact ⟨rfl, rfl⟩

theorem netTcpConnect_of_netKill (h : s.privacy.netKill = true) (ticks : UInt16)
    (ip : UInt32) (port : UInt16) : (s.netTcpConnect ticks ip port).1 = s := by
  rw [netTcpConnect]
  split
  · rfl
  · rw [if_pos (by simp [Privacy.netClientAllowed, h])]

/-- With the kill switch on and nothing waiting, a quiet event sends nothing. -/
theorem step_quiet (hkill : s.privacy.netKill = true)
    (hwait : s.waiting = []) (hq : s.Quiet e) : Silent s (s.step e).1 := by
  cases e with
  | arrive ticks src h =>
    change Silent s (s.netHandleTcp ticks src h)
    cases hslot : s.netTcpFindSlot src h.sport h.dport with
    | none =>
      rw [netHandleTcp_of_not_opensPassively hslot hq.1]
      exact ⟨rfl, rfl⟩
    | some i =>
      simp only [netHandleTcp, hslot, answer, (hq.2 i hslot).onSegment]
      exact ⟨rfl, rfl⟩
  | goOn found retry timedOut =>
    simp only [step, goOn, hwait]
    exact ⟨rfl, rfl⟩
  | connect ticks ip port =>
    simp only [step, netTcpConnect_of_netKill hkill]
    exact ⟨rfl, rfl⟩
  | listen port => exact silent_netTcpListen s port
  | unlisten port => exact ⟨rfl, rfl⟩
  | accept id => exact silent_netTcpAccept s id
  | fdSend fd data | send data => exact silent_netTcpFdSend hq
  | fdRecv fd cap => exact silent_netTcpFdRecv s fd cap
  | recv cap => exact silent_netTcpFdRecv s s.tcpCur cap
  | fdClose fd => exact silent_netTcpFdClose hq true
  | close => exact silent_netTcpFdClose hq false
  | fdShutdown fd how => exact silent_netTcpFdShutdown hq

/-! ### Connections that wait to be accepted -/

/-- The slot was opened by a peer and not accepted yet. A closed one still counts while a handler
waits for it, since the handler may leave it in another state. -/
structure Offered (s : Stack β) (i : Slot) : Prop where
  isServer : (s.tcps i).isServer = true
  accepted : (s.tcps i).accepted = false
  alive : (s.tcps i).state ≠ .closed ∨ ∃ seg p, Wait.send i seg (.handler p) ∈ s.waiting

/-- No connection is offered that was not before, no closed slot is opened, and the settings are
left alone. -/
structure Keeps (s t : Stack β) : Prop where
  settings : t.privacy = s.privacy ∧ t.localIp = s.localIp
  offered : ∀ i, t.Offered i → s.Offered i ∧ (t.tcps i).remoteIp = (s.tcps i).remoteIp
  closed : ∀ i, (s.tcps i).state = .closed → (t.tcps i).state ≠ .established

/-- The fields of a connection that say whose it is. -/
def origin (c : TcpConn β) : UInt32 × Bool × Bool := (c.remoteIp, c.isServer, c.accepted)

theorem of_origin {d : TcpConn β} (h : origin c = origin d) :
    c.remoteIp = d.remoteIp ∧ c.isServer = d.isServer ∧ c.accepted = d.accepted := by
  simpa [origin] using h

theorem Keeps.refl (s : Stack β) : Keeps s s where
  settings := ⟨rfl, rfl⟩
  offered _ hi := ⟨hi, rfl⟩
  closed _ hi := by simp [hi]

theorem Offered.congr (h : u.Offered i) (horigin : origin (u.tcps i) = origin (t.tcps i))
    (hstate : (u.tcps i).state = (t.tcps i).state)
    (hwait : ∀ seg p, Wait.send i seg (.handler p) ∈ u.waiting →
      Wait.send i seg (.handler p) ∈ t.waiting) : t.Offered i := by
  obtain ⟨-, hserver, hacc⟩ := of_origin horigin
  refine ⟨hserver ▸ h.isServer, hacc ▸ h.accepted, ?_⟩
  rw [← hstate]
  exact h.alive.imp_right fun ⟨seg, p, hmem⟩ => ⟨seg, p, hwait seg p hmem⟩

section

variable (h : Keeps s t)
include h

theorem Keeps.congr (hset : u.privacy = t.privacy ∧ u.localIp = t.localIp)
    (horigin : ∀ i, origin (u.tcps i) = origin (t.tcps i))
    (hstate : ∀ i, (u.tcps i).state = (t.tcps i).state)
    (hwait : ∀ i seg p, Wait.send i seg (.handler p) ∈ u.waiting →
      Wait.send i seg (.handler p) ∈ t.waiting) : Keeps s u where
  settings := ⟨hset.1.trans h.settings.1, hset.2.trans h.settings.2⟩
  offered i hi := by
    obtain ⟨hs, hip⟩ := h.offered i (hi.congr (horigin i) (hstate i) (hwait i))
    exact ⟨hs, (congrArg Prod.fst (horigin i)).trans hip⟩
  closed i hi := by
    rw [hstate i]
    exact h.closed i hi

theorem Keeps.setConn
    (hoff : (t.setConn i c).Offered i → s.Offered i ∧ c.remoteIp = (s.tcps i).remoteIp)
    (hclosed : (s.tcps i).state = .closed → c.state ≠ .established) : Keeps s (t.setConn i c) where
  settings := h.settings
  offered j hj := by
    by_cases hij : j = i
    · subst hij
      rw [setConn_self]
      exact hoff hj
    have hsame := setConn_of_ne t c hij
    rw [hsame]
    exact h.offered j (hj.congr (by rw [hsame]) (by rw [hsame]) fun _ _ hmem => hmem)
  closed j hj := by
    by_cases hij : j = i
    · subst hij
      rw [setConn_self]
      exact hclosed hj
    · rw [setConn_of_ne t c hij]
      exact h.closed j hj

/-- A change that leaves the origin and the state of the slot. -/
theorem Keeps.touch (horigin : origin c = origin (t.tcps i))
    (hstate : c.state = (t.tcps i).state) : Keeps s (t.setConn i c) := by
  refine h.congr ⟨rfl, rfl⟩ (fun j => ?_) (fun j => ?_) fun _ _ _ hmem => hmem
  all_goals
    by_cases hij : j = i
    · subst hij
      rwa [setConn_self]
    · rw [setConn_of_ne t c hij]

/-- A slot that is closed is not offered by that. -/
theorem Keeps.shut (hstate : c.state = .closed)
    (horigin : origin c = origin (t.tcps i) ∨ c.isServer = false) : Keeps s (t.setConn i c) := by
  refine h.setConn (fun hi => ?_) fun _ => by simp [hstate]
  have hself := setConn_self t i c
  have horig : origin c = origin (t.tcps i) :=
    horigin.resolve_right fun hno => by simpa [hself, hno] using hi.isServer
  obtain ⟨hip, hserver, hacc⟩ := of_origin horig
  have halive : ∃ seg p, Wait.send i seg (.handler p) ∈ t.waiting :=
    hi.alive.resolve_left fun hne => hne (by rw [hself, hstate])
  have ht : t.Offered i :=
    ⟨by rw [← hserver, ← hself]; exact hi.isServer, by rw [← hacc, ← hself]; exact hi.accepted,
      .inr halive⟩
  obtain ⟨hs, hsame⟩ := h.offered i ht
  exact ⟨hs, hip.trans hsame⟩

theorem Keeps.push {w : Wait β} (hw : ∀ i seg p, w ≠ .send i seg (.handler p)) :
    Keeps s { t with waiting := w :: t.waiting } := by
  refine h.congr ⟨rfl, rfl⟩ (fun _ => rfl) (fun _ => rfl) fun j seg p hmem => ?_
  exact (mem_cons.1 hmem).resolve_left fun heq => hw j seg p heq.symm

variable {k : Cont β}

theorem Keeps.send (i : Slot) (flags : UInt8) (data : List β)
    (hk : ∀ p, k ≠ .handler p) : Keeps s (t.netTcpSendSegSlot i flags data k) :=
  h.push fun _ _ p heq => hk p (by injection heq)

theorem Keeps.transmitted (i : Slot) (seg : Segment β) : Keeps s (t.transmitted i seg) := by
  have htouch : ∀ n, Keeps s (t.setConn i { t.tcps i with sndNxt := n }) :=
    fun n => h.touch rfl rfl
  exact (htouch _).congr ⟨rfl, rfl⟩ (fun _ => rfl) (fun _ => rfl) fun _ _ _ hmem => hmem

/-- The handler goes on with a slot that was offered, or is not a server's. -/
theorem Keeps.answer {r : TcpConn β × Option Pending}
    (hoff : (t.tcps i).isServer = true → (t.tcps i).accepted = false →
      s.Offered i ∧ (t.tcps i).remoteIp = (s.tcps i).remoteIp)
    (horigin : origin r.1 = origin (t.tcps i))
    (hclosed : (s.tcps i).state = .closed → r.1.state ≠ .established) :
    Keeps s (t.answer i r) := by
  obtain ⟨hip, hserver, hacc⟩ := of_origin horigin
  have hself := setConn_self t i r.1
  have hoff' : ((t.setConn i r.1).tcps i).isServer = true →
      ((t.setConn i r.1).tcps i).accepted = false →
        s.Offered i ∧ r.1.remoteIp = (s.tcps i).remoteIp := by
    rw [hself, hserver, hacc, hip]
    exact hoff
  have hset : Keeps s (t.setConn i r.1) :=
    h.setConn (fun hi => hoff' hi.isServer hi.accepted) hclosed
  obtain ⟨c, p⟩ := r
  cases p with
  | none => exact hset
  | some p =>
    -- the new handler waits for this slot only
    refine ⟨hset.settings, fun j hj => ?_, hset.closed⟩
    by_cases hij : j = i
    · subst hij
      obtain ⟨hs, hsame⟩ := hoff' hj.isServer hj.accepted
      exact ⟨hs, (congrArg TcpConn.remoteIp hself).trans hsame⟩
    refine hset.offered j (hj.congr rfl rfl fun seg q hmem => ?_)
    refine (mem_cons.1 hmem).resolve_left fun heq => hij ?_
    injection heq

omit h in
theorem onSegment_origin (c : TcpConn β) (h : TcpHdrInfo β) :
    origin (c.onSegment h).1 = origin c := by
  have hdata : origin (c.onData h).1 = origin c := by
    rcases c.onData_cases h with hc | hc <;> simp [hc, origin]
  have hfin : ∀ (d : TcpConn β) flags, origin (d.finTest flags).1 = origin d := by
    intro d flags
    rw [TcpConn.finTest]
    split <;> rfl
  rw [TcpConn.onSegment]
  split
  · rfl
  split
  · rfl
  split
  · split
    · exact hdata
    · rw [hfin, hdata]
  · rfl

omit h in
theorem resume_origin (c : TcpConn β) (p : Pending) :
    origin (c.resume p).1 = origin c ∧
      ((c.resume p).1.state = c.state ∨ (c.resume p).1.state = .closeWait) := by
  cases p with
  | done => exact ⟨rfl, .inl rfl⟩
  | closeWait => exact ⟨rfl, .inr rfl⟩
  | finTest flags =>
    refine ⟨?_, .inl (c.finTest_state flags)⟩
    rw [TcpConn.resume, TcpConn.finTest]
    split <;> rfl

/-! ### What every call keeps -/

theorem keeps_sendChunks (fd : Slot) (data : List β) : Keeps s (t.sendChunks fd data).1 := by
  rw [sendChunks]
  split
  · exact h
  · exact h.send _ _ _ (by simp)

theorem keeps_closed (fd : Slot) (viaFd : Bool) : Keeps s (t.closed fd viaFd).1 := by
  cases viaFd with
  | false => exact h.shut rfl (.inl rfl)
  | true => exact h.shut rfl (.inr rfl)

theorem keeps_connectTurn (synSeq : UInt32) (key : Key) (retry timedOut : Bool) :
    Keeps s (t.connectTurn synSeq key retry timedOut).1 := by
  simp only [connectTurn]
  split
  · exact h.shut rfl (.inl rfl)
  split
  · exact h
  split
  · exact h
  split
  · have htouch : Keeps s (t.setConn t.tcpCur { t.tcps t.tcpCur with sndNxt := synSeq }) :=
      h.touch rfl rfl
    exact htouch.send _ _ _ (k := .connecting synSeq key) (by simp)
  · exact h.push (by simp)

theorem keeps_afterSend (i : Slot) (ok : Bool)
    (hk : ∀ p, k ≠ .handler p) : Keeps s (t.afterSend i ok k).1 := by
  cases k with
  | handler p => exact absurd rfl (hk p)
  | connecting synSeq key =>
    simp only [afterSend]
    split
    · exact h.push (by simp)
    · exact h
  | sending rest =>
    simp only [afterSend]
    split
    · exact keeps_sendChunks h i rest
    · exact h
  | closing viaFd => exact keeps_closed h i viaFd
  | shutdown both =>
    simp only [afterSend]
    split
    · refine h.touch ?_ ?_ <;> split <;> rfl
    · exact h

end

theorem keeps_goOn (s : Stack β) (found retry timedOut : Bool) :
    Keeps s (s.goOn found retry timedOut).1 := by
  rw [goOn]
  split
  case h_1 => exact .refl s
  case h_2 i seg k rest hwait =>
    have hpop : Keeps s { s with waiting := rest } :=
      (Keeps.refl s).congr ⟨rfl, rfl⟩ (fun _ => rfl) (fun _ => rfl) fun _ _ _ hmem => by
        rw [hwait]
        exact mem_cons_of_mem _ hmem
    -- whether or not the segment went out, the slot is the same
    obtain ⟨t, ht, horigin, hstate, hres⟩ : ∃ t : Stack β, Keeps s t ∧
        origin (t.tcps i) = origin (s.tcps i) ∧ (t.tcps i).state = (s.tcps i).state ∧
          (s.goOn found retry timedOut).1 = (t.afterSend i found k).1 := by
      cases found with
      | false => exact ⟨_, hpop, rfl, rfl, by simp [goOn, hwait]⟩
      | true =>
        refine ⟨_, hpop.transmitted i seg, ?_, ?_, by simp [goOn, hwait]⟩ <;>
          simp [Stack.transmitted, Stack.setConn, origin]
    simp only [goOn, hwait] at hres
    rw [hres]
    by_cases hk : ∃ p, k = .handler p
    · obtain ⟨p, rfl⟩ := hk
      obtain ⟨hip, hserver, hacc⟩ := of_origin horigin
      have hres := resume_origin (t.tcps i) p
      refine ht.answer (fun h₁ h₂ => ⟨⟨hserver ▸ h₁, hacc ▸ h₂, .inr ⟨seg, p, ?_⟩⟩, hip⟩) hres.1
        fun hclosed => ?_
      · rw [hwait]
        exact mem_cons_self
      rcases hres.2 with h | h <;> rw [h]
      · rw [hstate, hclosed]
        decide
      · decide
    · exact keeps_afterSend ht i found fun p hp => hk ⟨p, hp⟩
  case h_3 synSeq key rest hwait =>
    refine keeps_connectTurn ?_ synSeq key retry timedOut
    refine (Keeps.refl s).congr ⟨rfl, rfl⟩ (fun _ => rfl) (fun _ => rfl) fun _ _ _ hmem => ?_
    rw [hwait]
    exact mem_cons_of_mem _ hmem

/-- A packet that opens no slot. -/
theorem keeps_netHandleTcp (hno : ¬ s.OpensPassively src hdr)
    (ticks : UInt16) : Keeps s (s.netHandleTcp ticks src hdr) := by
  cases hslot : s.netTcpFindSlot src hdr.sport hdr.dport with
  | none =>
    rw [netHandleTcp_of_not_opensPassively hslot hno]
    exact .refl s
  | some i =>
    have hstate := (find_slot hslot).2
    simp only [netHandleTcp, hslot]
    exact (Keeps.refl s).answer (fun h₁ h₂ => ⟨⟨h₁, h₂, .inl hstate⟩, rfl⟩) (onSegment_origin _ _)
      fun hc => absurd hc hstate

theorem keeps_netTcpConnect (s : Stack β) (ticks : UInt16) (ip : UInt32) (port : UInt16) :
    Keeps s (s.netTcpConnect ticks ip port).1 := by
  rw [netTcpConnect]
  iterate 3
    split
    · exact .refl s
  rename_i i _
  have hset : Keeps s (s.setConn i (clientConn ticks ip port s.ephemPort)) := by
    refine (Keeps.refl s).setConn (fun hi => ?_) fun _ => by simp [clientConn]
    simpa [Stack.setConn, clientConn, TcpConn.zero] using hi.isServer
  have hcur : Keeps s { s.setConn i (clientConn ticks ip port s.ephemPort) with
      tcpCur := i, ephemPort := nextEphemPort s.ephemPort } :=
    hset.congr ⟨rfl, rfl⟩ (fun _ => rfl) (fun _ => rfl) fun _ _ _ hmem => hmem
  exact hcur.push (w := .send i _ (.connecting _ _)) (by simp)

theorem keeps_netTcpListen (s : Stack β) (port : UInt16) : Keeps s (s.netTcpListen port).1 := by
  have hrefl := Keeps.refl s
  rw [netTcpListen]
  iterate 4
    split
    · exact hrefl
  · exact hrefl.congr ⟨rfl, rfl⟩ (fun _ => rfl) (fun _ => rfl) fun _ _ _ hmem => hmem

theorem keeps_netTcpUnlisten (s : Stack β) (port : UInt16) : Keeps s (s.netTcpUnlisten port) := by
  have hsame : ∀ i, origin ((s.netTcpUnlisten port).tcps i) = origin (s.tcps i) ∧
      (((s.netTcpUnlisten port).tcps i).state = (s.tcps i).state ∨
        ((s.netTcpUnlisten port).tcps i).state = .closed) := by
    intro i
    simp only [netTcpUnlisten]
    split
    · exact ⟨rfl, .inr rfl⟩
    · exact ⟨rfl, .inl rfl⟩
  refine ⟨⟨rfl, rfl⟩, fun i hi => ?_, fun i hi => ?_⟩
  · obtain ⟨horigin, hstate⟩ := hsame i
    obtain ⟨hip, hserver, hacc⟩ := of_origin horigin
    refine ⟨⟨hserver ▸ hi.isServer, hacc ▸ hi.accepted, ?_⟩, hip⟩
    refine hi.alive.imp (fun hne hc => ?_) id
    rcases hstate with h | h
    · exact hne (h.trans hc)
    · exact hne h
  rcases (hsame i).2 with h | h <;> rw [h]
  · rw [hi]
    decide
  · decide

theorem keeps_netTcpAccept (s : Stack β) (id : Fin 8) : Keeps s (s.netTcpAccept id).1 := by
  rw [netTcpAccept]
  iterate 2
    split
    · exact .refl s
  · refine (Keeps.refl s).setConn (fun hi => ?_) fun hc => by simp [hc]
    simpa [Stack.setConn] using hi.accepted

theorem keeps_netTcpFdSend (s : Stack β) (fd : Slot) (data : List β) :
    Keeps s (s.netTcpFdSend fd data).1 := by
  rw [netTcpFdSend]
  split
  · exact .refl s
  · exact keeps_sendChunks (.refl s) fd data

theorem keeps_netTcpFdRecv (s : Stack β) (fd : Slot) (cap : ℕ) :
    Keeps s (s.netTcpFdRecv fd cap).1 := by
  obtain ⟨n, hn, -⟩ := s.netTcpFdRecv_cases fd cap
  rw [hn]
  exact (Keeps.refl s).touch rfl rfl

theorem keeps_netTcpFdClose (s : Stack β) (fd : Slot) (viaFd : Bool) :
    Keeps s (s.netTcpFdClose fd viaFd).1 := by
  rw [netTcpFdClose]
  split
  · exact (Keeps.refl s).send _ _ _ (by simp)
  · exact keeps_closed (.refl s) fd viaFd

theorem keeps_netTcpFdShutdown (s : Stack β) (fd : Slot) (how : How) :
    Keeps s (s.netTcpFdShutdown fd how).1 := by
  simp only [netTcpFdShutdown]
  split
  · exact (Keeps.refl s).touch rfl rfl
  split
  · exact (Keeps.refl s).send _ _ _ (by simp)
  · refine (Keeps.refl s).touch ?_ ?_ <;> split <;> rfl

/-- **The only event that opens a slot for a peer is a SYN for a listener.** -/
theorem step_keeps (s : Stack β)
    (h : ∀ ticks src hdr, e = .arrive ticks src hdr → ¬ s.OpensPassively src hdr) :
    Keeps s (s.step e).1 := by
  cases e with
  | arrive ticks src hdr => exact keeps_netHandleTcp (h ticks src hdr rfl) ticks
  | goOn found retry timedOut => exact keeps_goOn s found retry timedOut
  | connect ticks ip port => exact keeps_netTcpConnect s ticks ip port
  | listen port => exact keeps_netTcpListen s port
  | unlisten port => exact keeps_netTcpUnlisten s port
  | accept id => exact keeps_netTcpAccept s id
  | fdSend fd data => exact keeps_netTcpFdSend s fd data
  | send data => exact keeps_netTcpFdSend s s.tcpCur data
  | fdRecv fd cap => exact keeps_netTcpFdRecv s fd cap
  | recv cap => exact keeps_netTcpFdRecv s s.tcpCur cap
  | fdClose fd => exact keeps_netTcpFdClose s fd true
  | close => exact keeps_netTcpFdClose s s.tcpCur false
  | fdShutdown fd how => exact keeps_netTcpFdShutdown s fd how

/-- A SYN for a listener changes one slot, and gives it to its source. -/
theorem netHandleTcp_of_opensPassively (ho : s.OpensPassively src hdr) (ticks : UInt16) :
    let t := s.netHandleTcp ticks src hdr
    t.privacy = s.privacy ∧ t.localIp = s.localIp ∧
      ∃ i, (t.tcps i).remoteIp = src ∧
        ∀ j ≠ i, t.tcps j = s.tcps j ∧ (t.Offered j → s.Offered j) := by
  obtain ⟨i, hi⟩ := Option.isSome_iff_exists.1 ho.free
  have hres : s.netHandleTcp ticks src hdr
      = (s.setConn i (serverConn ticks src hdr)).netTcpSendSegSlot i (tcpSyn ||| tcpAck) []
        (.handler .done) := by simp [netHandleTcp, ho.slot, ho.syn, ho.ack, ho.listener, hi]
  rw [hres]
  refine ⟨rfl, rfl, i, by simp [netTcpSendSegSlot, Stack.setConn, serverConn], fun j hj => ?_⟩
  have hsame := setConn_of_ne s (serverConn ticks src hdr) hj
  refine ⟨hsame, fun hoff => ?_⟩
  have hset : (s.setConn i (serverConn ticks src hdr)).Offered j := by
    refine hoff.congr rfl rfl fun seg p hmem => ?_
    refine (mem_cons.1 hmem).resolve_left fun heq => hj ?_
    injection heq
  exact hset.congr (by rw [hsame]) (by rw [hsame]) fun _ _ hmem => hmem

/-- Whatever happens, the settings stay, and an address behind a slot that is newly offered or
opened is that of a SYN for a listener. -/
theorem step_opened (s : Stack β) (e : Event β) :
    let t := (s.step e).1
    (t.privacy = s.privacy ∧ t.localIp = s.localIp) ∧
      ∀ i, t.Offered i ∨ (s.tcps i).state = .closed ∧ (t.tcps i).state = .established →
        s.Offered i ∧ (t.tcps i).remoteIp = (s.tcps i).remoteIp ∨
          ∃ ticks src h, e = .arrive ticks src h ∧ s.OpensPassively src h ∧
            (t.tcps i).remoteIp = src := by
  by_cases hno : ∀ ticks src h, e = .arrive ticks src h → ¬ s.OpensPassively src h
  · have hkeeps := s.step_keeps hno
    refine ⟨hkeeps.settings, fun i hi => .inl ?_⟩
    rcases hi with hoff | ⟨hclosed, hopen⟩
    · exact hkeeps.offered i hoff
    · exact absurd hopen (hkeeps.closed i hclosed)
  push Not at hno
  obtain ⟨ticks, src, h, rfl, ho⟩ := hno
  obtain ⟨hp, hip, j, hj, hrest⟩ := netHandleTcp_of_opensPassively ho ticks
  refine ⟨⟨hp, hip⟩, fun i hi => ?_⟩
  by_cases hij : i = j
  · subst hij
    exact .inr ⟨ticks, src, h, rfl, ho, hj⟩
  obtain ⟨hsame, hoff⟩ := hrest i hij
  rcases hi with hi | ⟨hclosed, hopen⟩
  · exact .inl ⟨hoff hi, congrArg TcpConn.remoteIp hsame⟩
  have heq : ((s.step (.arrive ticks src h)).1.tcps i).state = (s.tcps i).state :=
    congrArg TcpConn.state hsame
  rw [heq, hclosed] at hopen
  cases hopen

theorem afterSend_ne_accepted (s : Stack β) (i j : Slot) (ok : Bool) (k : Cont β) :
    (s.afterSend i ok k).2 ≠ .accepted j := by
  cases k <;> grind [afterSend, sendChunks, Stack.closed]

theorem goOn_ne_accepted (s : Stack β) (j : Slot) (found retry timedOut : Bool) :
    (s.goOn found retry timedOut).2 ≠ .accepted j := by
  rw [goOn]
  split
  · simp
  · split <;> apply afterSend_ne_accepted
  · grind [connectTurn]

/-- `net_tcp_accept` hands out what was offered. -/
theorem offered_of_accepted (h : (s.step e).2 = .accepted i) : s.Offered i := by
  cases e with
  | accept id =>
    simp only [step, netTcpAccept] at h
    split at h
    · simp at h
    split at h
    · simp at h
    rename_i j hj
    obtain rfl : j = i := by simpa using h
    have hfound := find?_some hj
    simp only [decide_eq_true_eq] at hfound
    refine ⟨hfound.1, by simpa using hfound.2.1, .inl ?_⟩
    rcases hfound.2.2.2 with hs | hs <;> rw [hs] <;> decide
  | goOn found retry timedOut => exact absurd h (s.goOn_ne_accepted i found retry timedOut)
  | connect ticks ip port => grind [step, netTcpConnect]
  | listen port => grind [step, netTcpListen]
  | fdSend fd data | send data => grind [step, netTcpFdSend, sendChunks]
  | fdRecv fd cap | recv cap => grind [step, netTcpFdRecv]
  | fdClose fd | close => grind [step, netTcpFdClose, Stack.closed]
  | fdShutdown fd how => grind [step, netTcpFdShutdown]
  | arrive ticks src hdr | unlisten port => cases h

end Stack

/-! ### Runs -/

namespace Node

variable {n : Node}

def IsEchoRequest (pkt : List UInt8) : Prop :=
  8 ≤ pkt.length ∧ pkt.length ≤ 1500 ∧ pkt.head? = some 8

/-- With the kill switch on, no packet arrives that would be answered and nobody sends on what was
opened before; it is turned on while nothing waits to be sent. With listeners restricted to
localhost no SYN from elsewhere reaches a listener; they are restricted while no connection from
elsewhere waits to be accepted. -/
def Compliant (n : Node) : Event → Prop
  | .tcp e => (n.stack.privacy.netKill = true → n.stack.Quiet e) ∧
      ∀ ticks src h, e = .arrive ticks src h → n.LocalhostOnly → n.stack.OpensPassively src h →
        n.IsLocal src
  | .icmp _ pkt => n.stack.privacy.netKill = true → ¬ IsEchoRequest pkt
  | .dnsQuery _ => n.stack.privacy.netKill = true → n.stack.netReady = false ∨ n.localDns = 0
  | .dhcpSendMsg _ => n.stack.privacy.netKill = false
  | .datagramGoOn _ => True
  | .setAddress ip => n.LocalhostOnly → ∀ i, n.stack.Offered i →
      (n.setAddress ip).IsLocal (n.stack.tcps i).remoteIp
  | .settings c =>
    (n.stack.privacy.netKill = false → (n.settings c).stack.privacy.netKill = true →
      n.stack.waiting = [] ∧ n.datagrams = []) ∧
    (¬ n.LocalhostOnly → (n.settings c).LocalhostOnly → ∀ i, n.stack.Offered i →
      n.IsLocal (n.stack.tcps i).remoteIp)

structure Clean (n : Node) : Prop where
  silent : n.stack.privacy.netKill = true → n.stack.waiting = [] ∧ n.datagrams = []
  offered : n.LocalhostOnly → ∀ i, n.stack.Offered i → n.IsLocal (n.stack.tcps i).remoteIp

theorem Clean.of_start (h : Start n) : Clean n where
  silent hkill := by
    rw [h.privacy] at hkill
    cases hkill
  offered _ i hi := by
    have hserver := hi.isServer
    rw [h.tcps i] at hserver
    cases hserver

theorem Clean.tcp {e : Stack.Event UInt8} (h : Clean n) (he : n.Compliant (.tcp e)) :
    Clean (n.next (.tcp e)) := by
  obtain ⟨⟨hp, hip⟩, hopened⟩ := n.stack.step_opened e
  refine ⟨fun hkill => ?_, fun hlo i hi => ?_⟩
  · have hkill : n.stack.privacy.netKill = true := by rwa [← hp]
    obtain ⟨hwait, hdata⟩ := h.silent hkill
    exact ⟨(Stack.step_quiet hkill hwait (he.1 hkill)).1.trans hwait, hdata⟩
  have hbefore : n.LocalhostOnly := by rwa [LocalhostOnly, ← hp]
  have hlocal : n.IsLocal ((n.stack.step e).1.tcps i).remoteIp := by
    rcases hopened i (.inl hi) with ⟨hoff, hsame⟩ | ⟨ticks, src, hdr, harr, ho, hsrc⟩
    · rw [hsame]
      exact h.offered hbefore i hoff
    · rw [hsrc]
      exact he.2 ticks src hdr harr hbefore ho
  rwa [IsLocal, ← hip] at hlocal

/-- At most the queue of datagrams is changed, and ports that nothing here reads. -/
structure Queues (n m : Node) : Prop where
  privacy : m.stack.privacy = n.stack.privacy
  localIp : m.stack.localIp = n.stack.localIp
  tcps : m.stack.tcps = n.stack.tcps
  waiting : m.stack.waiting = n.stack.waiting
  sent : m.stack.sent = n.stack.sent
  datagramsSent : m.datagramsSent = n.datagramsSent

theorem Queues.refl (n : Node) : Queues n n := ⟨rfl, rfl, rfl, rfl, rfl, rfl⟩

theorem queues_handleIcmp (n : Node) (src : UInt32) (pkt : List UInt8) :
    Queues n (n.handleIcmp src pkt) := by
  rw [handleIcmp]
  iterate 2
    split
    · exact .refl n
  · exact ⟨rfl, rfl, rfl, rfl, rfl, rfl⟩

theorem handleIcmp_of_not_isEchoRequest {pkt : List UInt8} (h : ¬ IsEchoRequest pkt)
    (src : UInt32) : n.handleIcmp src pkt = n := by
  rw [handleIcmp]
  split
  · rfl
  rename_i hecho
  push Not at hecho
  rw [if_pos]
  by_contra hlen
  exact h ⟨by omega, by omega, hecho.2⟩

theorem queues_netUdpSend (n : Node) (dst : UInt32) (sport dport : UInt16) (data : List UInt8) :
    Queues n (n.netUdpSend dst sport dport data) := by
  simp only [netUdpSend]
  split
  · exact .refl n
  · exact ⟨rfl, rfl, rfl, rfl, rfl, rfl⟩

theorem queues_dnsQuery (n : Node) (q : List UInt8) : Queues n (n.dnsQuery q) := by
  simp only [dnsQuery]
  split
  · exact .refl n
  · exact { queues_netUdpSend _ _ _ _ _ with }

theorem dnsQuery_of_down (h : n.stack.netReady = false ∨ n.localDns = 0) (q : List UInt8) :
    n.dnsQuery q = n := by
  rw [dnsQuery, if_pos]
  simpa using h

theorem Clean.queues {m : Node} (h : Clean n) (hq : Queues n m)
    (hdata : n.stack.privacy.netKill = true → m.datagrams = n.datagrams) : Clean m where
  silent hk := by
    rw [hq.privacy] at hk
    rw [hq.waiting, hdata hk]
    exact h.silent hk
  offered hlo i hi := by
    rw [LocalhostOnly, hq.privacy] at hlo
    rw [IsLocal, hq.localIp, hq.tcps]
    refine h.offered hlo i (hi.congr ?_ ?_ fun _ _ hmem => hq.waiting ▸ hmem) <;> rw [hq.tcps]

theorem Clean.datagramGoOn (h : Clean n) (found : Bool) : Clean (n.datagramGoOn found) := by
  rw [Node.datagramGoOn]
  split
  · exact h
  rename_i d rest hdata
  have hoff : n.stack.privacy.netKill = false := by
    by_contra hkill
    simp [(h.silent (by simpa using hkill)).2] at hdata
  split
  all_goals exact ⟨fun hk => by simp [hoff] at hk, h.offered⟩

theorem Clean.settings {c : Privacy.Change} (h : Clean n) (he : n.Compliant (.settings c)) :
    Clean (n.settings c) where
  silent hk := by
    cases hbefore : n.stack.privacy.netKill with
    | false => exact he.1 hbefore hk
    | true => exact h.silent hbefore
  offered hlo i hi := by
    have hi : n.stack.Offered i := hi.congr rfl rfl fun _ _ hmem => hmem
    by_cases hbefore : n.LocalhostOnly
    · exact h.offered hbefore i hi
    · exact he.2 hbefore hlo i hi

/-- **The step lemma.** -/
theorem Clean.next {e : Event} (h : Clean n) (he : n.Compliant e) : Clean (n.next e) := by
  cases e with
  | tcp e => exact h.tcp he
  | icmp src pkt =>
    refine h.queues (queues_handleIcmp n src pkt) fun hkill => ?_
    change (n.handleIcmp src pkt).datagrams = _
    rw [handleIcmp_of_not_isEchoRequest (he hkill)]
  | dnsQuery q =>
    refine h.queues (queues_dnsQuery n q) fun hkill => ?_
    change (n.dnsQuery q).datagrams = _
    rw [dnsQuery_of_down (he hkill)]
  | dhcpSendMsg msg =>
    have hoff : n.stack.privacy.netKill = false := he
    exact h.queues (queues_netUdpSend n _ _ _ msg) fun hkill => by simp [hoff] at hkill
  | datagramGoOn found => exact h.datagramGoOn found
  | setAddress ip =>
    exact ⟨h.silent, fun hlo i hi => he hlo i (hi.congr rfl rfl fun _ _ hmem => hmem)⟩
  | settings c => exact h.settings he

/-- An event that only queues a datagram. -/
theorem Queues.respects {e : Event} (hq : Queues n (n.next e)) (hout : (n.step e).2 = .none) :
    Respects n e where
  segments _ := hq.sent
  datagrams _ := hq.datagramsSent
  opened _ i hclosed hopen := by
    rw [hq.tcps, hclosed] at hopen
    cases hopen
  accepted _ i hacc := by
    rw [hout] at hacc
    cases hacc

theorem Clean.respects_tcp {e : Stack.Event UInt8} (h : Clean n) (he : n.Compliant (.tcp e)) :
    Respects n (.tcp e) := by
  obtain ⟨-, hopened⟩ := n.stack.step_opened e
  refine ⟨fun hkill => ?_, fun _ => rfl, fun hlo i hclosed hopen => ?_, fun hlo i hacc => ?_⟩
  · exact (Stack.step_quiet hkill (h.silent hkill).1 (he.1 hkill)).2
  · change n.IsLocal ((n.stack.step e).1.tcps i).remoteIp
    rcases hopened i (.inr ⟨hclosed, hopen⟩) with ⟨hoff, hsame⟩ | ⟨ticks, src, hdr, harr, ho, hsrc⟩
    · rw [hsame]
      exact h.offered hlo i hoff
    · rw [hsrc]
      exact he.2 ticks src hdr harr hlo ho
  · exact h.offered hlo i (Stack.offered_of_accepted hacc)

theorem Clean.respects {e : Event} (h : Clean n) (he : n.Compliant e) : Respects n e := by
  cases e with
  | tcp e => exact h.respects_tcp he
  | icmp src pkt => exact (queues_handleIcmp n src pkt).respects rfl
  | dnsQuery q => exact (queues_dnsQuery n q).respects rfl
  | dhcpSendMsg msg => exact (queues_netUdpSend n _ _ _ msg).respects rfl
  | setAddress ip | settings c =>
    refine ⟨fun _ => rfl, fun _ => rfl, fun _ i hclosed hopen => ?_, fun _ _ hacc => by cases hacc⟩
    cases hclosed.symm.trans hopen
  | datagramGoOn found =>
    have hstack : (n.datagramGoOn found).stack = n.stack := by
      rw [Node.datagramGoOn]
      split
      · rfl
      · split <;> rfl
    refine ⟨fun _ => congrArg Stack.sent hstack, fun hkill => ?_, fun _ i hclosed hopen => ?_,
      fun _ _ hacc => by cases hacc⟩
    · change (n.datagramGoOn found).datagramsSent = _
      rw [Node.datagramGoOn, (h.silent hkill).2]
    have hopen : ((n.datagramGoOn found).stack.tcps i).state = .established := hopen
    rw [hstack, hclosed] at hopen
    cases hopen

/-- **The switches are respected** at every step of a run whose events comply. -/
theorem switches_respected {e : Event} (h : Reach Start Compliant next n) (he : n.Compliant e) :
    Respects n e :=
  (h.invariant Clean (fun _ hs => .of_start hs) fun _ _ hc hok => hc.next hok).respects he

/-- The network after `net_init`. -/
def booted : Node where
  stack :=
    { tcps := fun _ => TcpConn.zero
      listens := fun _ => ⟨false, 0⟩
      tcpCur := ⟨0, Nat.zero_lt_succ 15⟩
      ephemPort := 40000
      localIp := 0x0A00020F
      netReady := true
      privacy := ⟨false, false, false, false, true, false, false, false⟩
      waiting := []
      sent := [] }
  localDns := 0x0A000203
  datagrams := []
  datagramsSent := []

theorem booted_start : Start booted := ⟨fun _ => rfl, rfl, rfl, rfl, rfl, rfl⟩

/-- The kill switch is turned on, and the next call asks for a connection. -/
theorem switches_respected_connect :
    Respects (booted.next (.settings (.setNetKillSwitch true)))
      (.tcp (.connect 0 0x0A000202 80)) := by
  have hkill : booted.Compliant (.settings (.setNetKillSwitch true)) :=
    ⟨fun _ _ => ⟨rfl, rfl⟩, fun h => absurd ⟨rfl, rfl⟩ h⟩
  refine switches_respected (.call _ (.start booted_start) hkill) ⟨fun _ => trivial, ?_⟩
  rintro _ _ _ ⟨⟩

/-- A ping arrives with the kill switch on, and the reply goes out. -/
theorem echo_reply :
    ¬ ∀ (n : Node) (e : Event), Reach Start (fun _ _ => True) next n → Respects n e := by
  intro h
  have hrun := Reach.calls (.start booted_start) [.settings (.setNetKillSwitch true),
    .icmp 0x0A000202 [8, 0, 0, 0, 0, 1, 0, 1]] (allowedFrom_true next booted _)
  have hsame := (h _ (.datagramGoOn true) hrun).datagrams rfl
  exact absurd (congrArg length hsame) (by decide)

end Node

end PeakOs.Net
