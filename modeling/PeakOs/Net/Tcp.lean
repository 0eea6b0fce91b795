import Mathlib.Data.List.FinRange

/-!
# TCP

The connection table of `net/tcp.c`: sixteen slots, eight listeners, the handler that the packets
run through and the calls of the applications.

A handler or a call that sends a segment waits in `net_ip_send` until the hardware address of the
next hop is known, and polls the network card meanwhile, so that other packets are handled in the
middle of it. The same holds for `net_tcp_connect` while it waits for an answer. `Stack.waiting` is
the stack of those that wait, each with the rest of its work (`Cont`); the one that began last goes
on first.

A connection only moves the bytes it carries, so their type is a parameter.

## Main definitions

* `TcpConn.onSegment`, `TcpConn.resume` — what the handler does to a connection, up to the next
  segment it sends
* `Stack.netHandleTcp` — the handler of a packet
* `Stack.step` — one packet, one call, or the next part of a handler or a call that waited
-/

namespace PeakOs.Net

/-! ### Segments and connections -/

def tcpFin : UInt8 := 0x01
def tcpSyn : UInt8 := 0x02
def tcpRst : UInt8 := 0x04
def tcpPsh : UInt8 := 0x08
def tcpAck : UInt8 := 0x10

def tcpMss : ℕ := 1400

/-- The size of the receive buffer of a connection. -/
def rxSize : ℕ := 16384

/-- What `tcp_parse_header` finds in a packet. (The window is not read by the handler.) -/
structure TcpHdrInfo (β : Type) where
  sport : UInt16
  dport : UInt16
  seq : UInt32
  ack : UInt32
  flags : UInt8
  data : List β

def hasFlag (flags flag : UInt8) : Bool := flags &&& flag != 0

inductive TcpState
  | closed
  | listen
  | synSent
  | established
  | closeWait
  | finWait
  deriving DecidableEq

structure TcpConn (β : Type) where
  state : TcpState
  remoteIp : UInt32
  remotePort : UInt16
  localPort : UInt16
  sndNxt : UInt32
  rcvNxt : UInt32
  /-- The first `rx_len` bytes of the receive buffer. -/
  rx : List β
  gotFin : Bool
  isServer : Bool
  accepted : Bool

variable {β : Type}

/-- A slot after `memset`. -/
def TcpConn.zero : TcpConn β where
  state := .closed
  remoteIp := 0
  remotePort := 0
  localPort := 0
  sndNxt := 0
  rcvNxt := 0
  rx := []
  gotFin := false
  isServer := false
  accepted := false

/-! ### What a segment does to a connection -/

/-- The rest of the handler after it has sent a segment. -/
inductive Pending
  | done
  | finTest (flags : UInt8)
  | closeWait
  deriving DecidableEq

/-- The FIN is taken when it is seen, wherever it stands in the stream. -/
def TcpConn.finTest (c : TcpConn β) (flags : UInt8) : TcpConn β × Option Pending :=
  if hasFlag flags tcpFin ∧ c.state ≠ .closeWait then
    ({ c with rcvNxt := c.rcvNxt + 1, gotFin := true }, some .closeWait)
  else (c, none)

/-- The data of a segment are stored when they are the next ones and all of them fit. The second
component tells whether the segment is answered. -/
def TcpConn.onData (c : TcpConn β) (h : TcpHdrInfo β) : TcpConn β × Bool :=
  let dlen := h.data.length
  if 0 < dlen ∧ h.seq = c.rcvNxt then
    if rxSize - c.rx.length < dlen then (c, true)
    else ({ c with rx := c.rx ++ h.data, rcvNxt := c.rcvNxt + UInt32.ofNat dlen }, true)
  else (c, decide (0 < dlen ∧ h.seq + UInt32.ofNat dlen > c.rcvNxt))

def TcpConn.onSynAck (c : TcpConn β) (h : TcpHdrInfo β) : TcpConn β :=
  { c with rcvNxt := h.seq + 1, sndNxt := h.ack, state := .established }

/-- The handler on the connection the segment is for. With a `Pending`, an acknowledgement is sent
and the handler goes on with it afterwards. -/
def TcpConn.onSegment (c : TcpConn β) (h : TcpHdrInfo β) : TcpConn β × Option Pending :=
  if hasFlag h.flags tcpRst then ({ c with state := .closed }, none)
  else if c.state = .synSent ∧ hasFlag h.flags tcpSyn ∧ hasFlag h.flags tcpAck then
    (c.onSynAck h, some .done)
  else if c.state = .established ∨ c.state = .finWait ∨ c.state = .closeWait then
    if (c.onData h).2 then ((c.onData h).1, some (.finTest h.flags))
    else (c.onData h).1.finTest h.flags
  else (c, none)

def TcpConn.resume (c : TcpConn β) : Pending → TcpConn β × Option Pending
  | .done => (c, none)
  | .finTest flags => c.finTest flags
  | .closeWait => ({ c with state := .closeWait }, none)

/-! ### Whom a connection is with

A segment never changes it, and only a reset closes the connection. -/

/-- Who a connection is with, and on which local port. -/
structure Key where
  remoteIp : UInt32
  remotePort : UInt16
  localPort : UInt16
  deriving DecidableEq

def TcpConn.key (c : TcpConn β) : Key := ⟨c.remoteIp, c.remotePort, c.localPort⟩

variable (c : TcpConn β)

variable (flags : UInt8)

@[simp] theorem TcpConn.finTest_key :
    (c.finTest flags).1.key = c.key := by
  unfold TcpConn.finTest
  split <;> rfl

@[simp] theorem TcpConn.finTest_rx :
    (c.finTest flags).1.rx = c.rx := by
  unfold TcpConn.finTest
  split <;> rfl

@[simp] theorem TcpConn.finTest_state :
    (c.finTest flags).1.state = c.state := by
  unfold TcpConn.finTest
  split <;> rfl

theorem TcpConn.onData_cases (h : TcpHdrInfo β) :
    (c.onData h).1 = c ∨ (c.onData h).1 = { c with
      rx := c.rx ++ h.data, rcvNxt := c.rcvNxt + UInt32.ofNat h.data.length } := by
  unfold TcpConn.onData
  dsimp only
  split
  · split
    · exact .inl rfl
    · exact .inr rfl
  · exact .inl rfl

/-- All a segment can do to a connection. -/
theorem TcpConn.onSegment_cases (h : TcpHdrInfo β) :
    (c.onSegment h).1.key = c.key ∧
      ((c.onSegment h).1.rx = c.rx ∨ (c.onSegment h).1.rx = c.rx ++ h.data) ∧
      (hasFlag h.flags tcpRst = false → c.state ≠ .closed → (c.onSegment h).1.state ≠ .closed) := by
  have hkey : (c.onData h).1.key = c.key ∧ (c.onData h).1.state = c.state ∧
      ((c.onData h).1.rx = c.rx ∨ (c.onData h).1.rx = c.rx ++ h.data) := by
    rcases c.onData_cases h with hc | hc <;> rw [hc]
    · exact ⟨rfl, rfl, .inl rfl⟩
    · exact ⟨rfl, rfl, .inr rfl⟩
  obtain ⟨hk, hs, hr⟩ := hkey
  unfold TcpConn.onSegment
  split
  next hrst => exact ⟨rfl, .inl rfl, fun h => by simp [h] at hrst⟩
  split
  · exact ⟨rfl, .inl rfl, fun _ _ => by simp [TcpConn.onSynAck]⟩
  split
  · split
    · exact ⟨hk, hr, fun _ hc => by rwa [hs]⟩
    · simp only [finTest_key, finTest_rx, finTest_state]
      exact ⟨hk, hr, fun _ hc => by rwa [hs]⟩
  · exact ⟨rfl, .inl rfl, fun _ hc => hc⟩

theorem TcpConn.resume_cases (p : Pending) :
    (c.resume p).1.key = c.key ∧ (c.resume p).1.rx = c.rx ∧
      (c.state ≠ .closed → (c.resume p).1.state ≠ .closed) := by
  cases p with
  | done => exact ⟨rfl, rfl, id⟩
  | finTest flags => simp [TcpConn.resume]
  | closeWait => exact ⟨rfl, rfl, fun _ => by simp [TcpConn.resume]⟩

/-- What `net_tcp_recv` finds once it has polled: bytes, the end, or nothing yet. -/
inductive RecvResult (β : Type)
  | bytes (data : List β)
  | notConn
  | timeout

def TcpConn.recv (c : TcpConn β) (cap : ℕ) : TcpConn β × RecvResult β :=
  if c.rx.length = 0 then
    if c.gotFin ∨ c.state = .closed then (c, .notConn) else (c, .timeout)
  else
    let n := min c.rx.length cap
    ({ c with rx := c.rx.drop n }, .bytes (c.rx.take n))

/-! ### The table -/

abbrev Slot := Fin 16

/-- A segment as it goes out. -/
structure Segment (β : Type) where
  dst : UInt32
  sport : UInt16
  dport : UInt16
  seq : UInt32
  ack : UInt32
  flags : UInt8
  window : ℕ
  data : List β

/-- What goes on after a segment was sent. -/
inductive Cont (β : Type)
  | handler (p : Pending)
  | connecting (synSeq : UInt32) (key : Key)
  | sending (rest : List β)
  | closing (viaFd : Bool)
  | shutdown (both : Bool)

/-- What waits: for the next hop of a segment, or in the loop of `net_tcp_connect`. -/
inductive Wait (β : Type)
  | send (slot : Slot) (seg : Segment β) (k : Cont β)
  | poll (synSeq : UInt32) (key : Key)

structure Listener where
  used : Bool
  port : UInt16

/-- The settings of `privacy.c` and the three network capabilities of `cap.c`. -/
structure Privacy where
  netKill : Bool
  netClientGrant : Bool
  netListenGrant : Bool
  netLanGrant : Bool
  listenersLocalhost : Bool
  capNetClient : Bool
  capNetListen : Bool
  capNetLan : Bool

def Privacy.netClientAllowed (p : Privacy) : Bool :=
  !p.netKill && p.capNetClient && p.netClientGrant

def Privacy.netListenAllowed (p : Privacy) (lan : Bool) : Bool :=
  !p.netKill && p.capNetListen && p.netListenGrant && !(lan && (!p.netLanGrant || !p.capNetLan))

structure Stack (β : Type) where
  tcps : Slot → TcpConn β
  listens : Fin 8 → Listener
  tcpCur : Slot
  ephemPort : UInt16
  localIp : UInt32
  netReady : Bool
  privacy : Privacy
  waiting : List (Wait β)
  /-- The segments that went out, the last one first. -/
  sent : List (Segment β)

/-- Error codes of `peak_errno.h`. -/
inductive NetErr
  | einval
  | enetdown
  | eacces
  | ebusy
  | enetunreach
  | enotconn
  | etimeout
  | eio
  | eagain
  deriving DecidableEq

/-- What a step returns to the application. -/
inductive Outcome (β : Type)
  | none
  | ok
  | connected (slot : Slot) (key : Key)
  | accepted (slot : Slot)
  | listener (i : Fin 8)
  | bytes (data : List β)
  | error (e : NetErr)

namespace Stack

def setConn (s : Stack β) (slot : Slot) (c : TcpConn β) : Stack β :=
  { s with tcps := Function.update s.tcps slot c }

variable (s : Stack β)

@[simp] theorem setConn_self (i : Slot) (c : TcpConn β) : (s.setConn i c).tcps i = c :=
  Function.update_self ..

theorem setConn_of_ne (c : TcpConn β) {i j : Slot} (h : j ≠ i) :
    (s.setConn i c).tcps j = s.tcps j := Function.update_of_ne h ..

def netTcpFindSlot (s : Stack β) (src : UInt32) (sport dport : UInt16) : Option Slot :=
  (List.finRange 16).find? fun i =>
    let c := s.tcps i
    decide (c.state ≠ .closed ∧ c.state ≠ .listen ∧ c.remoteIp = src ∧ c.remotePort = sport ∧
      c.localPort = dport)

theorem find_slot {s : Stack β} {i : Slot} {src : UInt32} {sport dport : UInt16}
    (h : s.netTcpFindSlot src sport dport = some i) :
    (s.tcps i).key = ⟨src, sport, dport⟩ ∧ (s.tcps i).state ≠ .closed := by
  have hfound := List.find?_some h
  simp only [decide_eq_true_eq] at hfound
  obtain ⟨hstate, -, rfl, rfl, rfl⟩ := hfound
  exact ⟨rfl, hstate⟩

def netTcpFindListener (s : Stack β) (port : UInt16) : Option (Fin 8) :=
  (List.finRange 8).find? fun i => (s.listens i).used && (s.listens i).port == port

def netTcpAllocSlot (s : Stack β) : Option Slot :=
  (List.finRange 16).find? fun i => decide ((s.tcps i).state = .closed)

/-- `net_tcp_send_seg_slot` up to the point where `net_ip_send` looks for the next hop. No caller
sends more than `tcpMss` bytes at once, which the buffer has room for. -/
def netTcpSendSegSlot (s : Stack β) (slot : Slot) (flags : UInt8) (data : List β) (k : Cont β) :
    Stack β :=
  let c := s.tcps slot
  let seg : Segment β :=
    { dst := c.remoteIp, sport := c.localPort, dport := c.remotePort, seq := c.sndNxt,
      ack := c.rcvNxt, flags := flags, window := min 0xFFFF (rxSize - c.rx.length), data := data }
  { s with waiting := .send slot seg k :: s.waiting }

/-- The end of `net_tcp_send_seg_slot`: the segment has gone out. -/
def transmitted (s : Stack β) (slot : Slot) (seg : Segment β) : Stack β :=
  let c := s.tcps slot
  let syn : UInt32 := if hasFlag seg.flags tcpSyn then 1 else 0
  let fin : UInt32 := if hasFlag seg.flags tcpFin then 1 else 0
  { s.setConn slot { c with sndNxt := c.sndNxt + syn + fin + UInt32.ofNat seg.data.length } with
    sent := seg :: s.sent }

/-- The handler has changed a connection; if there is more to do, it sends an acknowledgement
first. -/
def answer (s : Stack β) (slot : Slot) (r : TcpConn β × Option Pending) : Stack β :=
  match r.2 with
  | none => s.setConn slot r.1
  | some p => (s.setConn slot r.1).netTcpSendSegSlot slot tcpAck [] (.handler p)

/-- The slot of a passive open. -/
def serverConn (ticks : UInt16) (src : UInt32) (h : TcpHdrInfo β) : TcpConn β :=
  { TcpConn.zero with
    remoteIp := src
    remotePort := h.sport
    localPort := h.dport
    rcvNxt := h.seq + 1
    sndNxt := 0x2000 + ticks.toUInt32
    isServer := true
    state := .established }

/-- `ticks` are the low bits of the timer. -/
def netHandleTcp (s : Stack β) (ticks : UInt16) (src : UInt32) (h : TcpHdrInfo β) : Stack β :=
  match s.netTcpFindSlot src h.sport h.dport with
  | some slot => s.answer slot ((s.tcps slot).onSegment h)
  | none =>
    if hasFlag h.flags tcpSyn ∧ ¬ hasFlag h.flags tcpAck ∧
        (s.netTcpFindListener h.dport).isSome then
      match s.netTcpAllocSlot with
      | none => s
      | some slot =>
        (s.setConn slot (serverConn ticks src h)).netTcpSendSegSlot slot (tcpSyn ||| tcpAck) []
          (.handler .done)
    else s

/-! ### Calls -/

/-- The slot of an active open, with the port taken from `ephem_port`. -/
def clientConn (ticks : UInt16) (ip : UInt32) (port ephem : UInt16) : TcpConn β :=
  { TcpConn.zero with
    remoteIp := ip
    remotePort := port
    localPort := ephem
    sndNxt := 0x1000 + ticks.toUInt32
    state := .synSent }

def nextEphemPort (p : UInt16) : UInt16 := if p + 1 < 40000 then 40000 else p + 1

def netTcpConnect (s : Stack β) (ticks : UInt16) (ip : UInt32) (port : UInt16) :
    Stack β × Outcome β :=
  if ¬ s.netReady then (s, .error .enetdown)
  else if ¬ s.privacy.netClientAllowed then (s, .error .eacces)
  else
    match s.netTcpAllocSlot with
    | none => (s, .error .ebusy)
    | some slot =>
      let c : TcpConn β := clientConn ticks ip port s.ephemPort
      let s := { s.setConn slot c with tcpCur := slot, ephemPort := nextEphemPort s.ephemPort }
      (s.netTcpSendSegSlot slot tcpSyn [] (.connecting c.sndNxt c.key), .none)

/-- One turn of the loop of `net_tcp_connect`, after it has polled. -/
def connectTurn (s : Stack β) (synSeq : UInt32) (key : Key) (retry timedOut : Bool) :
    Stack β × Outcome β :=
  let c := s.tcps s.tcpCur
  if timedOut then (s.setConn s.tcpCur { c with state := .closed }, .error .etimeout)
  else if c.state = .established then (s, .connected s.tcpCur key)
  else if c.state = .closed then (s, .error .enotconn)
  else if c.state = .synSent ∧ retry then
    ((s.setConn s.tcpCur { c with sndNxt := synSeq }).netTcpSendSegSlot s.tcpCur tcpSyn []
      (.connecting synSeq key), .none)
  else ({ s with waiting := .poll synSeq key :: s.waiting }, .none)

def netTcpListen (s : Stack β) (port : UInt16) : Stack β × Outcome β :=
  if port = 0 then (s, .error .einval)
  else if ¬ s.privacy.netListenAllowed (!s.privacy.listenersLocalhost) then (s, .error .eacces)
  else
    match s.netTcpFindListener port with
    | some i => (s, .listener i)
    | none =>
      match (List.finRange 8).find? fun i => !(s.listens i).used with
      | none => (s, .error .ebusy)
      | some i =>
        ({ s with listens := Function.update s.listens i { used := true, port := port } },
          .listener i)

def netTcpUnlisten (s : Stack β) (port : UInt16) : Stack β :=
  { s with
    listens := fun i =>
      if (s.listens i).used ∧ (s.listens i).port = port then { s.listens i with used := false }
      else s.listens i
    tcps := fun i =>
      let c := s.tcps i
      if c.isServer ∧ c.localPort = port ∧ c.state ≠ .closed then
        { c with state := .closed, rx := [] }
      else c }

def netTcpAccept (s : Stack β) (id : Fin 8) : Stack β × Outcome β :=
  if ¬ (s.listens id).used then (s, .error .einval)
  else
    match (List.finRange 16).find? fun i =>
        let c := s.tcps i
        decide (c.isServer ∧ ¬ c.accepted ∧ c.localPort = (s.listens id).port ∧
          (c.state = .established ∨ c.state = .closeWait)) with
    | none => (s, .error .eagain)
    | some i => (s.setConn i { s.tcps i with accepted := true }, .accepted i)

/-- The loop of `net_tcp_fd_send`, one chunk at a time. -/
def sendChunks (s : Stack β) (fd : Slot) (data : List β) : Stack β × Outcome β :=
  if data.length = 0 then (s, .ok)
  else
    (s.netTcpSendSegSlot fd (tcpPsh ||| tcpAck) (data.take tcpMss) (.sending (data.drop tcpMss)),
      .none)

def netTcpFdSend (s : Stack β) (fd : Slot) (data : List β) : Stack β × Outcome β :=
  if (s.tcps fd).state ≠ .established then (s, .error .enotconn) else s.sendChunks fd data

def netTcpFdRecv (s : Stack β) (fd : Slot) (cap : ℕ) : Stack β × Outcome β :=
  match (s.tcps fd).recv cap with
  | (c, .bytes data) => (s.setConn fd c, .bytes data)
  | (c, .notConn) => (s.setConn fd c, .error .enotconn)
  | (c, .timeout) => (s.setConn fd c, .error .etimeout)

/-- Some bytes are taken from the front of the buffer, or none. -/
theorem netTcpFdRecv_cases (fd : Slot) (cap : ℕ) : ∃ n,
    (s.netTcpFdRecv fd cap).1 = s.setConn fd { s.tcps fd with rx := (s.tcps fd).rx.drop n } ∧
      ((s.netTcpFdRecv fd cap).2 = .bytes ((s.tcps fd).rx.take n) ∨
        ∃ e, (s.netTcpFdRecv fd cap).2 = .error e) := by
  by_cases hempty : (s.tcps fd).rx.length = 0
  · refine ⟨0, ?_⟩
    by_cases hend : (s.tcps fd).gotFin = true ∨ (s.tcps fd).state = .closed
    all_goals simp [netTcpFdRecv, TcpConn.recv, hempty, hend]
  · exact ⟨min (s.tcps fd).rx.length cap, by simp [netTcpFdRecv, TcpConn.recv, hempty]⟩

/-- The end of `net_tcp_fd_close`, and of `net_tcp_close`, which leaves the server flags. -/
def closed (s : Stack β) (fd : Slot) (viaFd : Bool) : Stack β × Outcome β :=
  let c := { s.tcps fd with state := .closed, rx := [] }
  (s.setConn fd (if viaFd then { c with isServer := false, accepted := false } else c), .ok)

def netTcpFdClose (s : Stack β) (fd : Slot) (viaFd : Bool) : Stack β × Outcome β :=
  if (s.tcps fd).state = .established ∨ (s.tcps fd).state = .closeWait then
    (s.netTcpSendSegSlot fd (tcpFin ||| tcpAck) [] (.closing viaFd), .none)
  else s.closed fd viaFd

/-- What to shut down. -/
inductive How
  | read
  | write
  | both
  deriving DecidableEq

def netTcpFdShutdown (s : Stack β) (fd : Slot) (how : How) : Stack β × Outcome β :=
  let c := s.tcps fd
  if how = .read then (s.setConn fd { c with rx := [] }, .ok)
  else if c.state = .established ∨ c.state = .closeWait then
    (s.netTcpSendSegSlot fd (tcpFin ||| tcpAck) [] (.shutdown (how = .both)), .none)
  else (s.setConn fd (if how = .both then { c with rx := [] } else c), .ok)

/-! ### Steps -/

/-- What goes on after a segment has gone out, or has not. -/
def afterSend (s : Stack β) (slot : Slot) (ok : Bool) : Cont β → Stack β × Outcome β
  | .handler p => (s.answer slot ((s.tcps slot).resume p), .none)
  | .connecting synSeq key =>
    if ok then ({ s with waiting := .poll synSeq key :: s.waiting }, .none)
    else (s, .error .enetunreach)
  | .sending rest => if ok then s.sendChunks slot rest else (s, .error .eio)
  | .closing viaFd => s.closed slot viaFd
  | .shutdown both =>
    if ok then
      (s.setConn slot (if both then { s.tcps slot with rx := [] } else s.tcps slot), .ok)
    else (s, .error .eio)

inductive Event (β : Type)
  | arrive (ticks : UInt16) (src : UInt32) (h : TcpHdrInfo β)
  /-- The one that began to wait last goes on: its next hop was found or not, a timeout passed. -/
  | goOn (found retry timedOut : Bool)
  | connect (ticks : UInt16) (ip : UInt32) (port : UInt16)
  | listen (port : UInt16)
  | unlisten (port : UInt16)
  | accept (id : Fin 8)
  | fdSend (fd : Slot) (data : List β)
  | fdRecv (fd : Slot) (cap : ℕ)
  | fdClose (fd : Slot)
  | fdShutdown (fd : Slot) (how : How)
  | send (data : List β)
  | recv (cap : ℕ)
  | close

def goOn (s : Stack β) (found retry timedOut : Bool) : Stack β × Outcome β :=
  match s.waiting with
  | [] => (s, .none)
  | .send slot seg k :: rest =>
    let s := { s with waiting := rest }
    if found then (s.transmitted slot seg).afterSend slot true k else s.afterSend slot false k
  | .poll synSeq key :: rest => connectTurn { s with waiting := rest } synSeq key retry timedOut

def step (s : Stack β) : Event β → Stack β × Outcome β
  | .arrive ticks src h => (s.netHandleTcp ticks src h, .none)
  | .goOn found retry timedOut => s.goOn found retry timedOut
  | .connect ticks ip port => s.netTcpConnect ticks ip port
  | .listen port => s.netTcpListen port
  | .unlisten port => (s.netTcpUnlisten port, .ok)
  | .accept id => s.netTcpAccept id
  | .fdSend fd data => s.netTcpFdSend fd data
  | .fdRecv fd cap => s.netTcpFdRecv fd cap
  | .fdClose fd => s.netTcpFdClose fd true
  | .fdShutdown fd how => s.netTcpFdShutdown fd how
  | .send data => s.netTcpFdSend s.tcpCur data
  | .recv cap => s.netTcpFdRecv s.tcpCur cap
  | .close => s.netTcpFdClose s.tcpCur false

end Stack

end PeakOs.Net
