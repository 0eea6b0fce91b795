import PeakOs.Net.Privacy

/-!
# The receive path

What `net_poll` does with a frame: `net/net.c` takes the Ethernet and IP headers off and hands the
rest to ARP, ICMP, UDP (with DHCP and DNS) or TCP, each with a pointer and a length.

A pointer is a function from indices to bytes that has no value where the frame has no byte, and
the handlers are written in the option monad: a handler returns `none` exactly when it reads a byte
that was not received. The lengths are passed on as the code computes them, in particular modulo
`2 ^ 16` where they are kept in 16 bits.

## Main definitions

* `Ptr` — a pointer into the frame
* `Receiver.receive` — the handling of one frame
-/

namespace PeakOs.Net

/-! ### Pointers -/

/-- A pointer into the frame; `none` where no byte was received. -/
def Ptr := ℕ → Option UInt8

namespace Ptr

def ofFrame (frame : List UInt8) : Ptr := fun i => frame[i]?

def add (p : Ptr) (k : ℕ) : Ptr := fun i => p (k + i)

def u16 (p : Ptr) (i : ℕ) : Option UInt16 := do
  let hi ← p i
  let lo ← p (i + 1)
  return (hi.toUInt16 <<< 8) ||| lo.toUInt16

def u32 (p : Ptr) (i : ℕ) : Option UInt32 := do
  let hi ← p.u16 i
  let lo ← p.u16 (i + 2)
  return (hi.toUInt32 <<< 16) ||| lo.toUInt32

/-- `len` bytes, as `memcpy` reads them. -/
def slice (p : Ptr) : ℕ → Option (List UInt8)
  | 0 => some []
  | len + 1 => do
    let b ← p 0
    let rest ← (p.add 1).slice len
    return b :: rest

/-- Compares byte after byte, up to the first difference. -/
def startsWith (p : Ptr) : List UInt8 → Option Bool
  | [] => some true
  | b :: bs => do
    let a ← p 0
    if a = b then (p.add 1).startsWith bs else return false

end Ptr

/-! ### State -/

structure ArpEntry where
  valid : Bool
  ip : UInt32
  mac : List UInt8

structure DhcpLease where
  yiaddr : UInt32
  mask : UInt32
  gw : UInt32
  dns : UInt32
  serverId : UInt32
  msgType : UInt8

/-- The query that is answered, and what was found so far. -/
structure Dns where
  txid : UInt16
  sport : UInt16
  wantQtype : UInt16
  answerIp : UInt32
  answerAaaa : List UInt8
  answerPtr : List UInt8
  answerCname : List UInt8
  gotAaaa : Bool
  gotPtr : Bool
  gotCname : Bool
  done : Bool

/-- What the handler of DHCP packets and `net_dhcp_try` share. -/
structure Dhcp where
  pending : DhcpLease
  haveOffer : Bool
  haveAck : Bool
  haveNak : Bool

/-- The end of `net_handle_dhcp_udp`. -/
def Dhcp.hear (d : Dhcp) (l : DhcpLease) : Dhcp :=
  if l.msgType = 2 then { d with pending := l, haveOffer := true }
  else if l.msgType = 5 then { d with pending := l, haveAck := true }
  else if l.msgType = 6 then { d with haveNak := true }
  else d

structure Receiver where
  node : Node
  localMac : List UInt8
  arpCache : Fin 32 → ArpEntry
  arpWaitIp : UInt32
  arpResolved : Bool
  arpWaitMac : List UInt8
  /-- ARP replies with the address they went to. -/
  arpSent : List (List UInt8 × List UInt8)
  dhcpActive : Bool
  dhcpXid : UInt32
  dhcp : Dhcp
  dns : Dns

/-! ### ARP -/

def arpCacheHome (ip : UInt32) : Fin 32 :=
  ⟨(ip * 2654435761).toNat % 32, Nat.mod_lt _ (Nat.zero_lt_succ 31)⟩

/-- The slots in the order they are probed. -/
def arpProbes (ip : UInt32) : List (Fin 32) := (List.finRange 32).map (arpCacheHome ip + ·)

def arpCacheStore (cache : Fin 32 → ArpEntry) (ip : UInt32) (mac : List UInt8) :
    Fin 32 → ArpEntry :=
  match (arpProbes ip).find? fun i => (cache i).valid && (cache i).ip == ip with
  | some i => Function.update cache i { cache i with mac := mac }
  | none =>
    let slot := ((arpProbes ip).find? fun i => !(cache i).valid).getD (arpCacheHome ip)
    Function.update cache slot ⟨true, ip, mac⟩

def be32 (v : UInt32) : List UInt8 := be16 (v >>> 16).toUInt16 ++ be16 v.toUInt16

namespace Receiver

def netHandleArp (r : Receiver) (pkt : Ptr) (len : ℕ) : Option Receiver := do
  if len < 28 then return r
  let op ← pkt.u16 6
  let tip ← pkt.u32 24
  let sip ← pkt.u32 14
  let localIp := r.node.stack.localIp
  if op = 1 ∧ tip = localIp then
    let sha ← (pkt.add 8).slice 6
    let spa ← (pkt.add 14).slice 4
    let reply := [0, 1, 8, 0, 6, 4, 0, 2] ++ r.localMac ++ be32 localIp ++ sha ++ spa
    return { r with
      arpSent := (sha, reply) :: r.arpSent
      arpCache := arpCacheStore r.arpCache sip sha }
  else if op = 2 then
    let sha ← (pkt.add 8).slice 6
    let r := { r with arpCache := arpCacheStore r.arpCache sip sha }
    return if sip = r.arpWaitIp then { r with arpWaitMac := sha, arpResolved := true } else r
  else return r

/-! ### ICMP -/

def handleIcmp (r : Receiver) (src : UInt32) (pkt : Ptr) (len : ℕ) : Option Receiver := do
  if len < 8 then return r
  let type ← pkt 0
  if type ≠ 8 then return r
  if 1500 < len then return r
  let request ← pkt.slice len
  return { r with node := r.node.handleIcmp src request }

end Receiver

/-! ### DHCP -/

/-- What an option with `len` bytes at `v` says about the lease. -/
def dhcpOption (out : DhcpLease) (code : UInt8) (len : ℕ) (v : Ptr) : Option DhcpLease :=
  if code = 53 ∧ len = 1 then return { out with msgType := ← v 0 }
  else if code = 1 ∧ len = 4 then return { out with mask := ← v.u32 0 }
  else if code = 3 ∧ 4 ≤ len then return { out with gw := ← v.u32 0 }
  else if code = 6 ∧ 4 ≤ len then return { out with dns := ← v.u32 0 }
  else if code = 54 ∧ len = 4 then return { out with serverId := ← v.u32 0 }
  else return out

/-- The loop of `dhcp_parse_options`; the inner option is its return code. -/
def dhcpOptions (opts : Ptr) (optLen i : ℕ) (out : DhcpLease) : Option (Option DhcpLease) :=
  if _h : i < optLen then do
    let code ← opts i
    if code = 0 then dhcpOptions opts optLen (i + 1) out
    else if code = 255 then return some out
    else if optLen ≤ i + 1 then return none
    else do
      let len ← opts (i + 1)
      if optLen < i + 2 + len.toNat then return none
      else do
        let out ← dhcpOption out code len.toNat (opts.add (i + 2))
        dhcpOptions opts optLen (i + 2 + len.toNat) out
  else return some out
  termination_by optLen - i

def dhcpParseOptions (opts : Ptr) (optLen : ℕ) : Option (Option DhcpLease) := do
  if optLen < 4 then return none
  let magic ← opts.startsWith [99, 130, 83, 99]
  let out ← dhcpOptions opts optLen (if magic then 4 else 0) ⟨0, 0, 0, 0, 0, 0⟩
  return out.filter (·.msgType ≠ 0)

def Receiver.netHandleDhcpUdp (r : Receiver) (udp : Ptr) (ulen : ℕ) : Option Receiver := do
  if ulen < 8 + 240 then return r
  let dhcp := udp.add 8
  let dlen := ulen - 8
  let op ← dhcp 0
  if op ≠ 2 then return r
  let xid ← dhcp.u32 4
  if xid ≠ r.dhcpXid then return r
  let yi ← dhcp.u32 16
  match ← dhcpParseOptions (dhcp.add 236) (dlen - 236) with
  | none => return r
  | some lease =>
    return { r with dhcp := r.dhcp.hear { lease with yiaddr := yi } }

/-! ### DNS -/

/-- `while (i < payload && dns[i]) i += dns[i] + 1` -/
def skipName (dns : Ptr) (payload i : ℕ) : Option ℕ :=
  if _h : i < payload then do
    let b ← dns i
    if b = 0 then return i else skipName dns payload (i + b.toNat + 1)
  else return i
  termination_by payload - i

/-- The loop of `dns_decode_name`. The code writes a name of more than 255 bytes past the end of its
buffer; here all of it is kept. -/
def dnsDecodeName (dns : Ptr) (stop off : ℕ) (out : List UInt8) : Option (List UInt8) :=
  if _h : off < stop ∧ out.length + 1 < 256 then do
    let len ← dns off
    if len = 0 ∨ len &&& 0xC0 = 0xC0 then return out
    else if 63 < len ∨ stop < off + 1 + len.toNat then return out
    else do
      let label ← (dns.add (off + 1)).slice len.toNat
      dnsDecodeName dns stop (off + len.toNat + 1)
        ((if out = [] then [] else out ++ [0x2E]) ++ label)
  else return out
  termination_by stop - off

/-- The name is not empty as a C string. -/
def nonEmpty (name : List UInt8) : Bool := name.head?.any (· ≠ 0)

/-- One resource record, whose data are at `i`. -/
def dnsRecord (d : Dns) (dns : Ptr) (payload i : ℕ) (typ : UInt16) (rdlen : ℕ) : Option Dns :=
  if typ = 1 ∧ rdlen = 4 ∧ i + 4 ≤ payload then do
    let ip ← dns.u32 i
    return { d with answerIp := ip, done := d.done || d.wantQtype == 1 }
  else if typ = 28 ∧ rdlen = 16 ∧ i + 16 ≤ payload then do
    let addr ← (dns.add i).slice 16
    return { d with answerAaaa := addr, gotAaaa := true, done := d.done || d.wantQtype == 28 }
  else if typ = 5 ∧ 0 < rdlen ∧ i + rdlen ≤ payload then do
    let name ← dnsDecodeName dns (i + rdlen) i []
    return { d with answerCname := name, gotCname := d.gotCname || nonEmpty name }
  else if typ = 12 ∧ 0 < rdlen ∧ i + rdlen ≤ payload then do
    let name ← dnsDecodeName dns (i + rdlen) i []
    return { d with
      answerPtr := name
      gotPtr := d.gotPtr || nonEmpty name
      done := d.done || d.wantQtype == 12 }
  else return d

/-- The position after the name of a record, which may be a reference. -/
def skipRecordName (dns : Ptr) (payload i : ℕ) : Option ℕ := do
  let b ← dns i
  if b &&& 0xC0 = 0xC0 then return i + 2 else (skipName dns payload i).map (· + 1)

/-- The loop over the answers, with the number of those that are left. -/
def dnsAnswers (dns : Ptr) (payload : ℕ) : ℕ → ℕ → Dns → Option Dns
  | 0, _, d => some d
  | left + 1, i, d =>
    if i + 12 ≤ payload then do
      let i ← skipRecordName dns payload i
      if payload < i + 10 then return d
      else do
        let typ ← dns.u16 i
        let rdlen ← dns.u16 (i + 8)
        let d ← dnsRecord d dns payload (i + 10) typ rdlen.toNat
        if d.done then return d else dnsAnswers dns payload left (i + 10 + rdlen.toNat) d
    else some d

def netHandleDnsUdp (d : Dns) (pkt : Ptr) (ulen : ℕ) : Option Dns := do
  if ulen < 12 + 8 then return d
  let dns := pkt.add 8
  let payload := ulen - 8
  let id ← dns.u16 0
  if id ≠ d.txid then return d
  let ancount ← dns.u16 6
  let i ← skipName dns payload 12
  let d ← dnsAnswers dns payload ancount.toNat (i + 5) d
  return if d.wantQtype = 1 ∧ d.answerIp ≠ 0 then { d with done := true } else d

/-! ### UDP, TCP and IP -/

namespace Receiver

def handleUdp (r : Receiver) (pkt : Ptr) (len : ℕ) : Option Receiver := do
  if len < 8 then return r
  let dport ← pkt.u16 2
  let ulen ← pkt.u16 4
  let ulen := min ulen.toNat len
  if dport = 68 ∧ r.dhcpActive then r.netHandleDhcpUdp pkt ulen
  else if dport ≠ r.dns.sport then return r
  else do
    let d ← netHandleDnsUdp r.dns pkt ulen
    return { r with dns := d }

end Receiver

/-- The header that `tcp_parse_header` has read, and the number of the bytes after it. -/
structure TcpHeader where
  sport : UInt16
  dport : UInt16
  seq : UInt32
  ack : UInt32
  dataOff : ℕ
  flags : UInt8
  window : UInt16
  dlen : ℕ

def tcpParseHeader (pkt : Ptr) (len : ℕ) : Option (Option TcpHeader) := do
  if len < 20 then return none
  let b ← pkt 12
  let dataOff := (b >>> 4).toNat * 4
  if dataOff < 20 ∨ len < dataOff then return none
  return some
    { sport := ← pkt.u16 0
      dport := ← pkt.u16 2
      seq := ← pkt.u32 4
      ack := ← pkt.u32 8
      dataOff := dataOff
      flags := ← pkt 13
      window := ← pkt.u16 14
      dlen := len - dataOff }

/-- The branch of the handler that copies the data of a segment into the receive buffer. -/
def Stack.copiesData (s : Stack UInt8) (src : UInt32) (h : TcpHeader) : Bool :=
  match s.netTcpFindSlot src h.sport h.dport with
  | none => false
  | some slot =>
    let c := s.tcps slot
    !hasFlag h.flags tcpRst &&
      decide (c.state = .established ∨ c.state = .finWait ∨ c.state = .closeWait) &&
      decide (0 < h.dlen ∧ h.seq = c.rcvNxt ∧ h.dlen ≤ rxSize - c.rx.length)

def TcpHeader.withData (h : TcpHeader) (data : List UInt8) : TcpHdrInfo UInt8 :=
  ⟨h.sport, h.dport, h.seq, h.ack, h.flags, data⟩

namespace Receiver

/-- Data that are not copied are not read. -/
def segmentData (r : Receiver) (src : UInt32) (pkt : Ptr) (h : TcpHeader) : Option (List UInt8) :=
  if r.node.stack.copiesData src h then (pkt.add h.dataOff).slice h.dlen
  else some (List.replicate h.dlen 0)

def netHandleTcp (r : Receiver) (ticks : UInt16) (src : UInt32) (pkt : Ptr) (len : ℕ) :
    Option Receiver := do
  match ← tcpParseHeader pkt len with
  | none => return r
  | some h =>
    let data ← r.segmentData src pkt h
    let stack := r.node.stack.netHandleTcp ticks src (h.withData data)
    return { r with node := { r.node with stack := stack } }

/-- The end of `handle_ip`, where the protocol is looked at. -/
def deliver (r : Receiver) (ticks : UInt16) (src : UInt32) (proto : UInt8) (payload : Ptr)
    (plen : ℕ) : Option Receiver :=
  if proto = 1 then r.handleIcmp src payload plen
  else if proto = 17 then r.handleUdp payload plen
  else if proto = 6 then r.netHandleTcp ticks src payload plen
  else some r

/-- The packet is for somebody else. -/
def ignores (r : Receiver) (dst : UInt32) : Prop :=
  dst ≠ r.node.stack.localIp ∧ dst ≠ 0xFFFFFFFF ∧ ¬ r.dhcpActive

instance (r : Receiver) (dst : UInt32) : Decidable (r.ignores dst) :=
  inferInstanceAs (Decidable (_ ∧ _ ∧ _))

/-- The length of the payload is `total - ihl` in 16 bits. -/
def handleIp (r : Receiver) (ticks : UInt16) (pkt : Ptr) (len : ℕ) : Option Receiver := do
  if len < 20 then return r
  let b ← pkt 0
  let ihl := (b &&& 0x0F).toNat * 4
  if ihl < 20 ∨ len < ihl then return r
  let total ← pkt.u16 2
  let total := min total.toNat len
  let proto ← pkt 9
  let src ← pkt.u32 12
  let dst ← pkt.u32 16
  if r.ignores dst then return r
  r.deliver ticks src proto (pkt.add ihl) ((total + 65536 - ihl) % 65536)

/-- `net_poll` on one frame. -/
def receive (r : Receiver) (ticks : UInt16) (frame : List UInt8) : Option Receiver := do
  let buf := Ptr.ofFrame frame
  let n := frame.length
  if n < 14 then return r
  let et ← buf.u16 12
  if et = 0x0806 then r.netHandleArp (buf.add 14) (n - 14)
  else if et = 0x0800 then r.handleIp ticks (buf.add 14) (n - 14)
  else return r

end Receiver

end PeakOs.Net
