import PeakOs.Net.Receive

/-!
# Reads of the receive path

Which frames are read only where they have bytes. Every layer takes its length from the one below,
and the lengths fit into one another, except that `handle_ip` computes `total - ihl` in 16 bits
without asking which is larger: with `total < ihl` the payload gets a length of almost 64 KiB.

Then ICMP looks at the first byte and gives up, because the packet is too long to be answered; TCP
reads its header and never copies the data, which do not fit in a receive buffer; and UDP goes on
with the length of its own header, which nothing bounds any more.

## Main results

* `Receiver.deliver_isSome` — with a length that fits, every handler stays inside
* `inside_iff` — the combinations of lengths for which every frame is read inside, in every state
* `ping_without_payload` — a frame that ends with the IP header, read one byte further
-/

namespace PeakOs.Net

open Option

/-! ### Pointers with a number of bytes behind them -/

/-- The first `n` bytes were received. -/
def Ptr.Has (p : Ptr) (n : ℕ) : Prop := ∀ i < n, (p i).isSome

variable {α γ : Type} {p : Ptr} {n : ℕ}

theorem isSome_bind {o : Option α} {f : α → Option γ} (h : o.isSome)
    (hf : ∀ a, o = some a → (f a).isSome) : (o >>= f).isSome := by
  obtain ⟨a, rfl⟩ := isSome_iff_exists.1 h
  exact hf a rfl

namespace Ptr

theorem has_ofFrame (frame : List UInt8) : (ofFrame frame).Has frame.length := by
  intro i hi
  simp [ofFrame, hi]

section

variable (h : p.Has n)
include h

theorem Has.mono {m : ℕ} (hm : m ≤ n) : p.Has m := fun i hi => h i (by omega)

theorem Has.add (k : ℕ) : (p.add k).Has (n - k) := fun i hi => h (k + i) (by omega)

theorem Has.u16 {i : ℕ} (hi : i + 2 ≤ n) : (p.u16 i).isSome :=
  isSome_bind (h i (by omega)) fun _ _ => isSome_bind (h (i + 1) (by omega)) fun _ _ => rfl

theorem Has.u32 {i : ℕ} (hi : i + 4 ≤ n) : (p.u32 i).isSome :=
  isSome_bind (h.u16 (by omega)) fun _ _ => isSome_bind (h.u16 (by omega)) fun _ _ => rfl

theorem Has.slice {len : ℕ} (hlen : len ≤ n) : (p.slice len).isSome := by
  induction len generalizing p n with
  | zero => rfl
  | succ len ih =>
    exact isSome_bind (h 0 (by omega)) fun _ _ =>
      isSome_bind (ih (h.add 1) (by omega)) fun _ _ => rfl

theorem Has.startsWith {bs : List UInt8} (hlen : bs.length ≤ n) : (p.startsWith bs).isSome := by
  induction bs generalizing p n with
  | nil => rfl
  | cons b bs ih =>
    simp only [List.length_cons] at hlen
    refine isSome_bind (h 0 (by omega)) fun a _ => ?_
    split
    · exact ih (h.add 1) (by omega)
    · rfl

end

end Ptr

/-! ### Handlers with a length that fits -/

variable {len optLen i plen : ℕ} {h : TcpHeader} {src : UInt32} {proto b : UInt8}

variable (r : Receiver)

theorem Receiver.netHandleArp_isSome (h : p.Has len) :
    (r.netHandleArp p len).isSome := by
  rw [Receiver.netHandleArp]
  split
  · rfl
  have hsha : ((p.add 8).slice 6).isSome := (h.add 8).slice (by omega)
  refine isSome_bind (h.u16 (by omega)) fun op _ => isSome_bind (h.u32 (by omega)) fun tip _ =>
    isSome_bind (h.u32 (by omega)) fun sip _ => ?_
  dsimp only
  split
  · exact isSome_bind hsha fun _ _ => isSome_bind ((h.add 14).slice (by omega)) fun _ _ => rfl
  split
  · exact isSome_bind hsha fun _ _ => rfl
  · rfl

theorem Receiver.handleIcmp_isSome (src : UInt32) (h : p.Has len) :
    (r.handleIcmp src p len).isSome := by
  rw [Receiver.handleIcmp]
  split
  · rfl
  refine isSome_bind (h 0 (by omega)) fun type _ => ?_
  split
  · rfl
  split
  · rfl
  · exact isSome_bind (h.slice le_rfl) fun _ _ => rfl

/-! ### DHCP -/

theorem dhcpOption_isSome (out : DhcpLease) (code : UInt8) (h : p.Has len) :
    (dhcpOption out code len p).isSome := by
  rw [dhcpOption]
  split
  · exact isSome_bind (h 0 (by omega)) fun _ _ => rfl
  iterate 4
    split
    · exact isSome_bind (h.u32 (by omega)) fun _ _ => rfl
  · rfl

theorem dhcpOptions_isSome (h : p.Has optLen) (i : ℕ) (out : DhcpLease) :
    (dhcpOptions p optLen i out).isSome := by
  fun_induction dhcpOptions p optLen i out with
  | case1 i out hi ih₀ ih =>
    refine isSome_bind (h i hi) fun code _ => ?_
    split
    · exact ih₀
    split
    · rfl
    split
    · rfl
    rename_i hlast
    refine isSome_bind (h (i + 1) (by omega)) fun len _ => ?_
    split
    · rfl
    next hfits =>
      exact isSome_bind (dhcpOption_isSome out code ((h.add (i + 2)).mono (by omega)))
        fun out _ => ih hlast len hfits out
  | case2 => rfl

theorem dhcpParseOptions_isSome (h : p.Has optLen) : (dhcpParseOptions p optLen).isSome := by
  rw [dhcpParseOptions]
  split
  · rfl
  · exact isSome_bind (h.startsWith (by simp; omega)) fun _ _ =>
      isSome_bind (dhcpOptions_isSome h _ _) fun _ _ => rfl

theorem Receiver.netHandleDhcpUdp_isSome {ulen : ℕ} (h : p.Has ulen) :
    (r.netHandleDhcpUdp p ulen).isSome := by
  rw [Receiver.netHandleDhcpUdp]
  split
  · rfl
  have hdhcp := h.add 8
  refine isSome_bind (hdhcp 0 (by omega)) fun op _ => ?_
  split
  · rfl
  refine isSome_bind (hdhcp.u32 (by omega)) fun xid _ => ?_
  split
  · rfl
  refine isSome_bind (hdhcp.u32 (by omega)) fun yi _ =>
    isSome_bind (dhcpParseOptions_isSome (hdhcp.add 236)) fun lease _ => ?_
  cases lease <;> rfl

/-! ### DNS -/

theorem skipName_isSome {payload : ℕ} (h : p.Has payload) (i : ℕ) :
    (skipName p payload i).isSome := by
  fun_induction skipName p payload i with
  | case1 i hi ih =>
    refine isSome_bind (h i hi) fun b _ => ?_
    split
    · rfl
    · exact ih b
  | case2 => rfl

theorem dnsDecodeName_isSome {stop : ℕ} (h : p.Has stop) (off : ℕ) (out : List UInt8) :
    (dnsDecodeName p stop off out).isSome := by
  fun_induction dnsDecodeName p stop off out with
  | case1 off out hi ih =>
    refine isSome_bind (h off hi.1) fun len _ => ?_
    split
    · rfl
    split
    · rfl
    next hfits =>
      exact isSome_bind ((h.add (off + 1)).slice (by omega)) fun label _ => ih len hfits label
  | case2 => rfl

theorem dnsRecord_isSome {payload : ℕ} (h : p.Has payload) (d : Dns) (i : ℕ) (typ : UInt16)
    (rdlen : ℕ) : (dnsRecord d p payload i typ rdlen).isSome := by
  rw [dnsRecord]
  split
  · exact isSome_bind (h.u32 (by omega)) fun _ _ => rfl
  split
  · exact isSome_bind ((h.add i).slice (by omega)) fun _ _ => rfl
  iterate 2
    split
    · exact isSome_bind (dnsDecodeName_isSome (h.mono (by omega)) i []) fun _ _ => rfl
  · rfl

theorem skipRecordName_isSome {payload : ℕ} (h : p.Has payload) (hi : i < payload) :
    (skipRecordName p payload i).isSome := by
  refine isSome_bind (h i hi) fun b _ => ?_
  split
  · rfl
  · simpa using skipName_isSome h i

theorem dnsAnswers_isSome {payload : ℕ} (h : p.Has payload) (left i : ℕ) (d : Dns) :
    (dnsAnswers p payload left i d).isSome := by
  induction left generalizing i d with
  | zero => rfl
  | succ left ih =>
    rw [dnsAnswers]
    split
    case isFalse => rfl
    refine isSome_bind (skipRecordName_isSome h (by omega)) fun j _ => ?_
    split
    · rfl
    refine isSome_bind (h.u16 (by omega)) fun typ _ => isSome_bind (h.u16 (by omega)) fun rdlen _ =>
      isSome_bind (dnsRecord_isSome h d _ typ _) fun d _ => ?_
    split
    · rfl
    · exact ih _ d

variable (d : Dns)

theorem netHandleDnsUdp_isSome {ulen : ℕ} (h : p.Has ulen) :
    (netHandleDnsUdp d p ulen).isSome := by
  rw [netHandleDnsUdp]
  split
  · rfl
  have hdns := h.add 8
  refine isSome_bind (hdns.u16 (by omega)) fun id _ => ?_
  split
  · rfl
  exact isSome_bind (hdns.u16 (by omega)) fun ancount _ =>
    isSome_bind (skipName_isSome hdns 12) fun i _ =>
      isSome_bind (dnsAnswers_isSome hdns _ _ d) fun _ _ => rfl

/-! ### UDP, TCP and IP -/

theorem Receiver.handleUdp_isSome (h : p.Has 6) (hmsg : ∀ ulen, p.u16 4 = some ulen →
      (r.netHandleDhcpUdp p (min ulen.toNat len)).isSome ∧
        (netHandleDnsUdp r.dns p (min ulen.toNat len)).isSome) : (r.handleUdp p len).isSome := by
  rw [Receiver.handleUdp]
  split
  · rfl
  refine isSome_bind (h.u16 (by omega)) fun dport _ => isSome_bind (h.u16 (by omega))
    fun ulen hulen => ?_
  obtain ⟨hdhcp, hdns⟩ := hmsg ulen hulen
  split
  · exact hdhcp
  split
  · rfl
  · exact isSome_bind hdns fun _ _ => rfl

theorem tcpParseHeader_isSome (h12 : 20 ≤ len → p.Has 13)
    (h16 : 20 ≤ len → ∀ b, p 12 = some b → 5 ≤ (b >>> 4).toNat → p.Has 16) :
    (tcpParseHeader p len).isSome := by
  rw [tcpParseHeader]
  split
  · rfl
  refine isSome_bind (h12 (by omega) 12 (by omega)) fun b hb => ?_
  dsimp only
  split
  · rfl
  have h := h16 (by omega) b hb (by omega)
  exact isSome_bind (h.u16 (by omega)) fun _ _ => isSome_bind (h.u16 (by omega)) fun _ _ =>
    isSome_bind (h.u32 (by omega)) fun _ _ => isSome_bind (h.u32 (by omega)) fun _ _ =>
    isSome_bind (h 13 (by omega)) fun _ _ => isSome_bind (h.u16 (by omega)) fun _ _ => rfl

variable (ticks : UInt16)

theorem Receiver.netHandleTcp_isSome (src : UInt32)
    (hparse : (tcpParseHeader p len).isSome)
    (hdata : ∀ h, tcpParseHeader p len = some (some h) → (r.segmentData src p h).isSome) :
    (r.netHandleTcp ticks src p len).isSome := by
  refine isSome_bind hparse fun h hh => ?_
  cases h with
  | none => rfl
  | some h => exact isSome_bind (hdata h hh) fun _ _ => rfl

theorem tcpParseHeader_eq_some (hparse : tcpParseHeader p len = some (some h)) :
    20 ≤ h.dataOff ∧ h.dataOff ≤ 60 ∧ h.dataOff + h.dlen = len := by
  rw [tcpParseHeader] at hparse
  split at hparse
  · simp at hparse
  obtain ⟨b, -, hparse⟩ := bind_eq_some_iff.1 hparse
  dsimp only at hparse
  split at hparse
  · simp at hparse
  have hnibble : (b >>> 4).toNat ≤ 15 := by
    have hb := b.toNat_lt
    have hshift : (b >>> 4).toNat = b.toNat / 16 := by simp [Nat.shiftRight_eq_div_pow]
    omega
  have hfields : h.dataOff = (b >>> 4).toNat * 4 ∧ h.dlen = len - (b >>> 4).toNat * 4 := by
    iterate 6 obtain ⟨_, -, hparse⟩ := bind_eq_some_iff.1 hparse
    obtain rfl : _ = h := by simpa using hparse
    exact ⟨rfl, rfl⟩
  omega

/-- Data that are copied fit in the receive buffer. -/
theorem Stack.copiesData_le {s : Stack UInt8}
    (hc : s.copiesData src h = true) : h.dlen ≤ rxSize := by
  rw [Stack.copiesData] at hc
  split at hc
  · cases hc
  · simp only [Bool.and_eq_true, decide_eq_true_eq] at hc
    omega

/-- **With a length that fits, every handler stays inside.** -/
theorem Receiver.deliver_isSome (src : UInt32) (proto : UInt8)
    (h : p.Has plen) : (r.deliver ticks src proto p plen).isSome := by
  rw [Receiver.deliver]
  split
  · exact r.handleIcmp_isSome src h
  split
  · by_cases hlen : plen < 8
    · rw [Receiver.handleUdp, if_pos hlen]
      rfl
    refine r.handleUdp_isSome (h.mono (by omega)) fun ulen _ => ?_
    have hulen := h.mono (min_le_right ulen.toNat plen)
    exact ⟨r.netHandleDhcpUdp_isSome hulen, netHandleDnsUdp_isSome r.dns hulen⟩
  split
  · refine r.netHandleTcp_isSome ticks src (tcpParseHeader_isSome (fun _ => h.mono (by omega))
      fun _ _ _ _ => h.mono (by omega)) fun hdr hparse => ?_
    have hlens := tcpParseHeader_eq_some hparse
    rw [Receiver.segmentData]
    split
    · exact (h.add _).slice (by omega)
    · rfl
  · rfl

/-! ### The length that wrapped -/

/-- The first byte is all that is read of a packet too long to be answered. -/
theorem Receiver.handleIcmp_isSome_of_long (src : UInt32)
    (hlen : 1500 < len) (h : p.Has 1) : (r.handleIcmp src p len).isSome := by
  rw [Receiver.handleIcmp, if_neg (by omega)]
  refine isSome_bind (h 0 (by omega)) fun type _ => ?_
  split <;> rfl

theorem Receiver.netHandleTcp_isSome_of_long (src : UInt32)
    (hlen : 65476 ≤ len) (h12 : p.Has 13)
    (h16 : ∀ b, p 12 = some b → 5 ≤ (b >>> 4).toNat → p.Has 16) :
    (r.netHandleTcp ticks src p len).isSome := by
  refine r.netHandleTcp_isSome ticks src (tcpParseHeader_isSome (fun _ => h12) fun _ => h16)
    fun hdr hparse => ?_
  have hlens := tcpParseHeader_eq_some hparse
  rw [Receiver.segmentData, if_neg]
  · rfl
  intro hc
  have hle := Stack.copiesData_le hc
  simp only [rxSize] at hle
  omega

/-- A DNS message without room for an answer: only the question is walked over. -/
theorem netHandleDnsUdp_isSome_of_short {ulen : ℕ} (hlen : ulen < 37) (h : p.Has 16)
    (hskip : 20 ≤ ulen → ∃ i, 12 ≤ i ∧ skipName (p.add 8) (ulen - 8) 12 = some i) :
    (netHandleDnsUdp d p ulen).isSome := by
  rw [netHandleDnsUdp]
  split
  · rfl
  have hdns := h.add 8
  refine isSome_bind (hdns.u16 (by omega)) fun id _ => ?_
  split
  · rfl
  obtain ⟨i, hi, hskip⟩ := hskip (by omega)
  refine isSome_bind (hdns.u16 (by omega)) fun ancount _ => isSome_bind (by simp [hskip])
    fun j hj => isSome_bind ?_ fun _ _ => rfl
  obtain rfl : i = j := by simpa [hskip] using hj
  cases ancount.toNat with
  | zero => rfl
  | succ left =>
    rw [dnsAnswers, if_neg (by omega)]
    rfl

theorem netHandleDnsUdp_isSome_of_20 (h : p.Has 16) :
    (netHandleDnsUdp d p 20).isSome := by
  refine netHandleDnsUdp_isSome_of_short d (by omega) h fun _ => ⟨12, le_rfl, ?_⟩
  rw [skipName]
  rfl

/-- The question has room for a name of one byte; a longer one leaves the message. -/
theorem netHandleDnsUdp_isSome_of_22 (h : p.Has 21) :
    (netHandleDnsUdp d p 22).isSome := by
  refine netHandleDnsUdp_isSome_of_short d (by omega) (h.mono (by omega)) fun _ => ?_
  obtain ⟨b, hb⟩ := isSome_iff_exists.1 (h.add 8 12 (by omega))
  by_cases hzero : b = 0
  · refine ⟨12, le_rfl, ?_⟩
    rw [skipName]
    simp [hb, hzero]
  have hpos : 0 < b.toNat := by
    rw [pos_iff_ne_zero]
    exact fun h => hzero (UInt8.toNat_inj.1 h)
  refine ⟨12 + b.toNat + 1, by omega, ?_⟩
  rw [skipName, dif_pos (by omega)]
  simp only [hb, hzero, bind_eq_bind, bind_some]
  rw [skipName, dif_neg (by omega)]
  rfl

/-- A UDP message of `ulen` bytes is read inside the first `avail` ones, whatever it holds: there is
no message, or it was received; and a question with no room for a second byte is left when it asks
for one. -/
def UdpFits (ulen avail : ℕ) : Prop :=
  ulen < 20 ∨ ulen ≤ avail ∨ ulen = 20 ∧ 16 ≤ avail ∨ ulen = 22 ∧ avail = 21

theorem UdpFits.isSome {ulen avail : ℕ} (hfits : UdpFits ulen avail) (h : p.Has avail)
    (r : Receiver) :
    (r.netHandleDhcpUdp p ulen).isSome ∧ (netHandleDnsUdp r.dns p ulen).isSome := by
  have hdhcp : ulen < 248 → (r.netHandleDhcpUdp p ulen).isSome := fun hlt => by
    rw [Receiver.netHandleDhcpUdp, if_pos (by omega)]
    rfl
  rcases hfits with hlt | hle | ⟨rfl, havail⟩ | ⟨rfl, havail⟩
  · refine ⟨hdhcp (by omega), ?_⟩
    rw [netHandleDnsUdp, if_pos (by omega)]
    rfl
  · exact ⟨r.netHandleDhcpUdp_isSome (h.mono hle), netHandleDnsUdp_isSome r.dns (h.mono hle)⟩
  · exact ⟨hdhcp (by omega), netHandleDnsUdp_isSome_of_20 r.dns (h.mono havail)⟩
  · exact ⟨hdhcp (by omega), netHandleDnsUdp_isSome_of_22 r.dns (h.mono (by omega))⟩

/-- A packet with a wrapped length, of which the first `avail` bytes were received. -/
theorem Receiver.deliver_isSome_of_wrapped (src : UInt32)
    {avail : ℕ} (h : p.Has avail) (hlen : 65476 ≤ plen) (hicmp : proto = 1 → 1 ≤ avail)
    (htcp : proto = 6 → 13 ≤ avail ∧ ∀ b, p 12 = some b → 5 ≤ (b >>> 4).toNat → 16 ≤ avail)
    (hudp : proto = 17 → 6 ≤ avail ∧
      ∀ ulen, p.u16 4 = some ulen → UdpFits (min ulen.toNat plen) avail) :
    (r.deliver ticks src proto p plen).isSome := by
  rw [Receiver.deliver]
  split
  next hp => exact r.handleIcmp_isSome_of_long src (by omega) (h.mono (hicmp hp))
  split
  next hp =>
    obtain ⟨h6, hfits⟩ := hudp hp
    exact r.handleUdp_isSome (h.mono h6) fun ulen hulen => (hfits ulen hulen).isSome h r
  split
  next hp =>
    obtain ⟨h13, h16⟩ := htcp hp
    exact r.netHandleTcp_isSome_of_long ticks src hlen (h.mono h13)
      fun b hb hoff => h.mono (h16 b hb hoff)
  · rfl

/-! ### Layouts -/

/-- The fields that say how long a frame and its parts are, and which handlers it is for. -/
structure Layout where
  /-- The buffer has 2048 bytes. -/
  frame : Fin 2049
  ethertype : UInt16
  /-- In words of four bytes. -/
  ihl : Fin 16
  total : UInt16
  proto : UInt8
  udpLen : UInt16
  /-- In words of four bytes. -/
  dataOff : Fin 16

namespace Layout

/-- Where the payload of the IP packet begins. -/
def payload (L : Layout) : ℕ := 14 + 4 * L.ihl

/-- The frame has this layout, as far as it reaches. -/
structure Fits (L : Layout) (frame : List UInt8) : Prop where
  length : frame.length = L.frame
  ethertype : ∀ v ∈ (Ptr.ofFrame frame).u16 12, v = L.ethertype
  ihl : ∀ b ∈ Ptr.ofFrame frame 14, (b &&& 0x0F).toNat = L.ihl
  total : ∀ v ∈ (Ptr.ofFrame frame).u16 16, v = L.total
  proto : ∀ b ∈ Ptr.ofFrame frame 23, b = L.proto
  udpLen : L.proto = 17 → ∀ v ∈ (Ptr.ofFrame frame).u16 (L.payload + 4), v = L.udpLen
  dataOff : L.proto = 6 → ∀ b ∈ Ptr.ofFrame frame (L.payload + 12), (b >>> 4).toNat = L.dataOff

/-- The number of bytes that were received after the IP header. -/
def avail (L : Layout) : ℕ := L.frame - L.payload

/-- The length of a UDP message in a packet whose total length is less than that of its header. -/
def ulen (L : Layout) : ℕ := min L.udpLen.toNat (65536 + L.total.toNat - 4 * L.ihl)

/-- The total length covers the IP header, or all that a handler reads of a packet with a wrapped
length was received. -/
def Safe (L : Layout) : Prop :=
  L.ethertype = 0x0800 → 34 ≤ L.frame.val → 5 ≤ L.ihl.val → L.payload ≤ L.frame →
    L.total.toNat < 4 * L.ihl →
    (L.proto = 1 → 1 ≤ L.avail) ∧
    (L.proto = 6 → 13 ≤ L.avail ∧ (5 ≤ L.dataOff.val → 16 ≤ L.avail)) ∧
    (L.proto = 17 → 6 ≤ L.avail ∧ UdpFits L.ulen L.avail)

end Layout

/-! ### Safe layouts -/

/-- What `handle_ip` has read when it comes to the payload. -/
theorem Receiver.handleIp_eq
    {total : UInt16} {dst : UInt32} (hb : p 0 = some b) (htotal : p.u16 2 = some total)
    (hproto : p 9 = some proto) (hsrc : p.u32 12 = some src) (hdst : p.u32 16 = some dst)
    (hlen : 20 ≤ len) (hihl : 20 ≤ (b &&& 0x0F).toNat * 4) (hle : (b &&& 0x0F).toNat * 4 ≤ len) :
    r.handleIp ticks p len = if r.ignores dst then some r
      else r.deliver ticks src proto (p.add ((b &&& 0x0F).toNat * 4))
        ((min total.toNat len + 65536 - (b &&& 0x0F).toNat * 4) % 65536) := by
  have hno : ¬ ((b &&& 0x0F).toNat * 4 < 20 ∨ len < (b &&& 0x0F).toNat * 4) := by omega
  rw [Receiver.handleIp, if_neg (by omega)]
  simp only [hb, htotal, hproto, hsrc, hdst, bind_eq_bind, bind_some, if_neg hno]
  rfl

theorem Ptr.add_add (p : Ptr) (k m : ℕ) : (p.add k).add m = p.add (k + m) := by
  funext i
  simp [Ptr.add, add_assoc]

theorem Ptr.add_u16 (p : Ptr) (k i : ℕ) : (p.add k).u16 i = p.u16 (k + i) := by
  simp [Ptr.add, Ptr.u16, add_assoc]

namespace Layout

variable {L : Layout} {frame : List UInt8}

theorem Fits.handleIp_isSome (hf : L.Fits frame) (hs : L.Safe) (heth : L.ethertype = 0x0800)
    (r : Receiver) (ticks : UInt16) :
    (r.handleIp ticks ((Ptr.ofFrame frame).add 14) (frame.length - 14)).isSome := by
  have hhas := (Ptr.has_ofFrame frame).add 14
  by_cases hlen : frame.length - 14 < 20
  · rw [Receiver.handleIp, if_pos hlen]
    rfl
  obtain ⟨b, hb⟩ := isSome_iff_exists.1 (hhas 0 (by omega))
  obtain ⟨total, ht⟩ := isSome_iff_exists.1 (hhas.u16 (show 2 + 2 ≤ _ by omega))
  obtain ⟨proto, hp⟩ := isSome_iff_exists.1 (hhas 9 (by omega))
  obtain ⟨src, hsrc⟩ := isSome_iff_exists.1 (hhas.u32 (show 12 + 4 ≤ _ by omega))
  obtain ⟨dst, hdst⟩ := isSome_iff_exists.1 (hhas.u32 (show 16 + 4 ≤ _ by omega))
  have hihl : (b &&& 0x0F).toNat = L.ihl := hf.ihl b hb
  obtain rfl : total = L.total := hf.total total (by rwa [Ptr.add_u16] at ht)
  obtain rfl : proto = L.proto := hf.proto proto hp
  have hlength := hf.length
  by_cases hbad : (b &&& 0x0F).toNat * 4 < 20 ∨ frame.length - 14 < (b &&& 0x0F).toNat * 4
  · rw [Receiver.handleIp, if_neg hlen]
    refine isSome_bind (by simp [hb]) fun b' hb' => ?_
    obtain rfl : b = b' := by simpa [hb] using hb'
    simp only [if_pos hbad]
    rfl
  rw [r.handleIp_eq ticks hb ht hp hsrc hdst (by omega) (by omega) (by omega)]
  split
  · rfl
  have hpay := hhas.add ((b &&& 0x0F).toNat * 4)
  have hplus : ((Ptr.ofFrame frame).add 14).add ((b &&& 0x0F).toNat * 4)
      = (Ptr.ofFrame frame).add L.payload := by rw [Ptr.add_add, hihl, payload, mul_comm]
  rw [hplus] at hpay ⊢
  by_cases hwrap : L.total.toNat < 4 * L.ihl
  · -- the difference wraps
    have hsafe := hs heth (by omega) (by omega) (by rw [payload]; omega) hwrap
    have havail : frame.length - 14 - (b &&& 0x0F).toNat * 4 = L.avail := by
      rw [avail, payload]
      omega
    have hplen : (min L.total.toNat (frame.length - 14) + 65536 - (b &&& 0x0F).toNat * 4) % 65536
        = 65536 + L.total.toNat - 4 * L.ihl := by omega
    rw [havail] at hpay
    rw [hplen]
    refine r.deliver_isSome_of_wrapped ticks src hpay (by omega) hsafe.1 (fun hp => ?_) fun hp => ?_
    · refine ⟨(hsafe.2.1 hp).1, fun c hc hoff => (hsafe.2.1 hp).2 ?_⟩
      rwa [← hf.dataOff hp c hc]
    refine ⟨(hsafe.2.2 hp).1, fun ulen hulen => ?_⟩
    obtain rfl : ulen = L.udpLen := hf.udpLen hp ulen (by rwa [Ptr.add_u16] at hulen)
    exact (hsafe.2.2 hp).2
  · refine r.deliver_isSome ticks src L.proto (hpay.mono ?_)
    omega

theorem Fits.receive_isSome (hf : L.Fits frame) (hs : L.Safe) (r : Receiver) (ticks : UInt16) :
    (r.receive ticks frame).isSome := by
  rw [Receiver.receive]
  split
  · rfl
  have hhas := Ptr.has_ofFrame frame
  refine isSome_bind (hhas.u16 (by omega)) fun et het => ?_
  split
  · exact r.netHandleArp_isSome (hhas.add 14)
  split
  next hip => exact hf.handleIp_isSome hs (by rw [← hf.ethertype et het, hip]) r ticks
  · rfl

end Layout

/-! ### A frame for every other layout

It is read outside by a receiver that waits for an answer to a DNS query. The bytes that the layout
leaves open are ones: a label of one byte, in the question of a DNS message. -/

theorem Ptr.u16_eq_some {a : UInt8} (ha : p i = some a) (hb : p (i + 1) = some b) :
    p.u16 i = some ((a.toUInt16 <<< 8) ||| b.toUInt16) := by simp [Ptr.u16, ha, hb]

theorem Ptr.u16_eq_none (h : p (i + 1) = none) : p.u16 i = none := by
  cases ha : p i <;> simp [Ptr.u16, ha, h]

theorem Ptr.u32_eq_some {a b : UInt16} (ha : p.u16 i = some a) (hb : p.u16 (i + 2) = some b) :
    p.u32 i = some ((a.toUInt32 <<< 16) ||| b.toUInt32) := by simp [Ptr.u32, ha, hb]

/-- The two bytes of a field give it back. -/
theorem join_be16 (v : UInt16) : ((v >>> 8).toUInt8.toUInt16 <<< 8) ||| v.toUInt8.toUInt16 = v := by
  refine UInt16.toNat_inj.1 ?_
  have hv := v.toNat_lt
  have hhi : (v >>> 8).toUInt8.toUInt16.toNat = v.toNat / 256 := by
    simp [Nat.shiftRight_eq_div_pow]
    omega
  have hlo : v.toUInt8.toUInt16.toNat = v.toNat % 256 := by simp
  rw [UInt16.toNat_or, UInt16.toNat_shiftLeft, hhi]
  have hshift : (v.toNat / 256) <<< ((8 : UInt16).toNat % 16) % 2 ^ 16 = (v.toNat / 256) <<< 8 := by
    simp [Nat.shiftLeft_eq]
    omega
  rw [hshift, ← Nat.shiftLeft_add_eq_or_of_lt (by omega)]
  omega

/-- A walk over labels of one byte comes to every second index. -/
theorem skipName_eq_none {payload avail j : ℕ} (hones : ∀ k, i ≤ k → k < avail → p k = some 1)
    (hend : ∀ k, avail ≤ k → p k = none) (hj : avail ≤ j) (hlt : j < payload) (hij : i ≤ j)
    (heven : (j - i) % 2 = 0) : skipName p payload i = none := by
  induction hd : j - i using Nat.strong_induction_on generalizing i with
  | _ d ih =>
    rw [skipName, dif_pos (by omega)]
    by_cases hi : avail ≤ i
    · simp [hend i hi]
    have hone := hones i le_rfl (by omega)
    have hstep : skipName p payload (i + 2) = none :=
      ih (j - (i + 2)) (by omega) (fun k hk => hones k (by omega)) (by omega) (by omega) rfl
    simp [hone, hstep]

namespace Layout

/-- The byte at an index; `first` is the first byte of the question. -/
def probe (L : Layout) (first : UInt8) (i : ℕ) : UInt8 :=
  if i = 12 then 0x08
  else if i = 13 then 0x00
  else if i = 14 then UInt8.ofNat L.ihl
  else if i = 16 then (L.total >>> 8).toUInt8
  else if i = 17 then L.total.toUInt8
  else if i = 23 then L.proto
  else if i = L.payload + 4 then (L.udpLen >>> 8).toUInt8
  else if i = L.payload + 5 then L.udpLen.toUInt8
  else if i = L.payload + 12 then UInt8.ofNat L.dataOff <<< 4
  else if i = L.payload + 20 then first
  else 1

def probeFrame (L : Layout) (first : UInt8) : List UInt8 :=
  (List.range L.frame).map (L.probe first)

variable (L : Layout) (first : UInt8)

def probePtr : Ptr := Ptr.ofFrame (L.probeFrame first)

theorem probePtr_of_lt {i : ℕ} (h : i < L.frame) : L.probePtr first i = some (L.probe first i) := by
  simp [probePtr, probeFrame, Ptr.ofFrame, h]

theorem probePtr_of_le {i : ℕ} (h : L.frame ≤ i) : L.probePtr first i = none := by
  simp [probePtr, probeFrame, Ptr.ofFrame]
  omega

theorem probePtr_u16 {i : ℕ} {v : UInt16} (hhi : L.probe first i = (v >>> 8).toUInt8)
    (hlo : L.probe first (i + 1) = v.toUInt8) {w : UInt16} (hw : w ∈ (L.probePtr first).u16 i) :
    w = v := by
  have hlt : i + 1 < L.frame := by
    by_contra hle
    rw [Ptr.u16_eq_none (L.probePtr_of_le first (by omega))] at hw
    cases hw
  rw [Ptr.u16_eq_some (L.probePtr_of_lt first (by omega)) (L.probePtr_of_lt first hlt), hhi, hlo,
    join_be16] at hw
  exact (some.inj hw).symm

/-- The probe beyond the IP header. -/
theorem probe_payload (hihl : 5 ≤ L.ihl.val) (k : ℕ) :
    L.probe first (L.payload + k) =
      if k = 4 then (L.udpLen >>> 8).toUInt8
      else if k = 5 then L.udpLen.toUInt8
      else if k = 12 then UInt8.ofNat L.dataOff <<< 4
      else if k = 20 then first
      else 1 := by
  have hpay : 34 ≤ L.payload := by
    rw [payload]
    omega
  rw [probe, if_neg (by omega), if_neg (by omega), if_neg (by omega), if_neg (by omega),
    if_neg (by omega), if_neg (by omega)]
  simp

theorem nibble_low : ∀ n : Fin 16, (UInt8.ofNat n &&& 0x0F).toNat = n := by decide

theorem nibble_high : ∀ n : Fin 16, (UInt8.ofNat n <<< 4 >>> 4).toNat = n := by decide

theorem mem_probePtr {i : ℕ} {b : UInt8} (h : b ∈ L.probePtr first i) : b = L.probe first i := by
  by_cases hi : i < L.frame
  · rw [L.probePtr_of_lt first hi] at h
    exact (some.inj h).symm
  · rw [L.probePtr_of_le first (by omega)] at h
    cases h

theorem probe_fits (heth : L.ethertype = 0x0800) (hihl : 5 ≤ L.ihl.val) :
    L.Fits (L.probeFrame first) where
  length := by simp [probeFrame]
  ethertype v hv := by
    rw [heth]
    exact L.probePtr_u16 first (v := 0x0800) (by simp [probe]; rfl) (by simp [probe]) hv
  ihl b hb := by
    rw [L.mem_probePtr first hb]
    exact nibble_low L.ihl
  total v hv := L.probePtr_u16 first (by simp [probe]) (by simp [probe]) hv
  proto b hb := by
    rw [L.mem_probePtr first hb]
    simp [probe]
  udpLen _ v hv := by
    refine L.probePtr_u16 first ?_ ?_ hv
    · simp [L.probe_payload first hihl]
    · simp [add_assoc, L.probe_payload first hihl]
  dataOff _ b hb := by
    rw [L.mem_probePtr first hb, L.probe_payload first hihl]
    exact nibble_high L.dataOff

end Layout

/-- A receiver with the address 1.1.1.1 that has asked a DNS server. -/
def asking : Receiver where
  node := { Node.booted with stack := { Node.booted.stack with localIp := 0x01010101 } }
  localMac := []
  arpCache := fun _ => ⟨false, 0, []⟩
  arpWaitIp := 0
  arpResolved := false
  arpWaitMac := []
  arpSent := []
  dhcpActive := false
  dhcpXid := 0
  dhcp := ⟨⟨0, 0, 0, 0, 0, 0⟩, false, false, false⟩
  dns :=
    { txid := 0x0101
      sport := 0x0101
      wantQtype := 1
      answerIp := 0
      answerAaaa := []
      answerPtr := []
      answerCname := []
      gotAaaa := false
      gotPtr := false
      gotCname := false
      done := false }

namespace Layout

variable {L : Layout} {first : UInt8}

/-- The probe behind its IP header. -/
def probeData (L : Layout) (first : UInt8) : Ptr := (L.probePtr first).add L.payload

theorem probeData_of_lt (first : UInt8) {k : ℕ} (h : k < L.avail) :
    L.probeData first k = some (L.probe first (L.payload + k)) :=
  L.probePtr_of_lt first (by rw [avail] at h; omega)

theorem probeData_of_le (first : UInt8) {k : ℕ} (h : L.avail ≤ k) : L.probeData first k = none :=
  L.probePtr_of_le first (by rw [avail] at h; omega)

/-- The probe gets to the handler of its protocol, with the length that wrapped. -/
theorem receive_probe (hframe : 34 ≤ L.frame.val) (hihl : 5 ≤ L.ihl.val) (hle : L.payload ≤ L.frame)
    (hwrap : L.total.toNat < 4 * L.ihl) :
    asking.receive 0 (L.probeFrame first) = asking.deliver 0 0x01010101 L.proto
      (L.probeData first) (65536 + L.total.toNat - 4 * L.ihl) := by
  have hlen : (L.probeFrame first).length = L.frame := by simp [probeFrame]
  have hget : ∀ i < 34, L.probePtr first i = some (L.probe first i) :=
    fun i hi => L.probePtr_of_lt first (by omega)
  have hihl20 : 14 + 4 * L.ihl.val = L.payload := rfl
  -- the addresses are bytes the layout leaves open
  have hopen : ∀ i, 24 ≤ i → i < 34 → L.probePtr first i = some 1 := by
    intro i hlo hhi
    rw [hget i hhi, probe]
    repeat rw [if_neg (by omega)]
  have haddr : ∀ i, 10 ≤ i → i < 17 → ((L.probePtr first).add 14).u32 i = some 0x01010101 := by
    intro i hlo hhi
    have h₀ := Ptr.u16_eq_some (p := (L.probePtr first).add 14)
      (hopen (14 + i) (by omega) (by omega)) (hopen (14 + (i + 1)) (by omega) (by omega))
    have h₂ := Ptr.u16_eq_some (p := (L.probePtr first).add 14)
      (hopen (14 + (i + 2)) (by omega) (by omega)) (hopen (14 + (i + 2 + 1)) (by omega) (by omega))
    exact Ptr.u32_eq_some h₀ h₂
  have htotal : ((L.probePtr first).add 14).u16 2 = some L.total := by
    refine (Ptr.u16_eq_some (hget 16 (by omega)) (hget 17 (by omega))).trans ?_
    exact congrArg some (join_be16 L.total)
  have hproto : (L.probePtr first).add 14 9 = some L.proto := by
    refine (hget 23 (by omega)).trans ?_
    simp [probe]
  have het : (L.probePtr first).u16 12 = some 0x0800 := by
    refine (Ptr.u16_eq_some (hget 12 (by omega)) (hget 13 (by omega))).trans ?_
    simp only [probe, if_true]
    decide
  have hb : (L.probePtr first).add 14 0 = some (UInt8.ofNat L.ihl) := by
    refine (hget 14 (by omega)).trans ?_
    simp [probe]
  have hnibble := nibble_low L.ihl
  have hmine : ¬ asking.ignores 0x01010101 := by decide
  have hip := asking.handleIp_eq 0 hb htotal hproto (haddr 12 (by omega) (by omega))
    (haddr 16 (by omega) (by omega)) (show 20 ≤ L.frame.val - 14 by omega) (by rw [hnibble]; omega)
    (by rw [hnibble]; omega)
  rw [if_neg hmine, hnibble, Ptr.add_add, mul_comm, hihl20, ← probeData] at hip
  have hplen : (min L.total.toNat (L.frame - 14) + 65536 - 4 * L.ihl) % 65536
      = 65536 + L.total.toNat - 4 * L.ihl := by omega
  rw [hplen] at hip
  rw [← hip, Receiver.receive, hlen, if_neg (by omega)]
  change (L.probePtr first).u16 12 >>= _ = _
  rw [het]
  rfl

/-- A DNS message of which not all was received, and a first byte that makes the walk over its
question leave the frame. -/
theorem netHandleDnsUdp_probe (hihl : 5 ≤ L.ihl.val) {ulen : ℕ} (hfits : ¬ UdpFits ulen L.avail) :
    ∃ first, netHandleDnsUdp asking.dns (L.probeData first) ulen = none := by
  simp only [UdpFits] at hfits
  -- an odd end that is hit by no walk over labels of one byte
  refine ⟨if L.avail % 2 = 1 ∧ ulen = L.avail + 1 then 2 else 1, ?_⟩
  generalize hfirst : (if L.avail % 2 = 1 ∧ ulen = L.avail + 1 then (2 : UInt8) else 1) = first
  have hone : ∀ k < L.avail, k ≠ 4 ∧ k ≠ 5 ∧ k ≠ 12 ∧ k ≠ 20 → L.probeData first k = some 1 := by
    rintro k hk ⟨h₁, h₂, h₃, h₄⟩
    rw [probeData_of_lt first hk, L.probe_payload first hihl]
    simp [h₁, h₂, h₃, h₄]
  rw [netHandleDnsUdp, if_neg (by omega)]
  by_cases h10 : L.avail < 10
  · have hid : ((L.probeData first).add 8).u16 0 = none :=
      Ptr.u16_eq_none (probeData_of_le (k := 9) _ (by omega))
    simp [hid]
  have hid : ((L.probeData first).add 8).u16 0 = some 0x0101 :=
    Ptr.u16_eq_some (hone 8 (by omega) (by omega))
      (hone 9 (by omega) (by omega))
  have htx : ¬ ((0x0101 : UInt16) ≠ asking.dns.txid) := by decide
  simp only [hid, bind_eq_bind, bind_some, if_neg htx]
  by_cases h16 : L.avail < 16
  · have hcount : ((L.probeData first).add 8).u16 6 = none :=
      Ptr.u16_eq_none (probeData_of_le (k := 15) _ (by omega))
    simp [hcount]
  have hcount : ((L.probeData first).add 8).u16 6 = some 0x0101 :=
    Ptr.u16_eq_some (hone 14 (by omega) (by omega))
      (hone 15 (by omega) (by omega))
  have hskip : skipName ((L.probeData first).add 8) (ulen - 8) 12 = none := by
    have hpast : ∀ k, L.avail - 8 ≤ k → ((L.probeData first).add 8) k = none :=
      fun k hk => probeData_of_le (k := 8 + k) _ (by omega)
    have hones : ∀ i, 13 ≤ i → ∀ k, i ≤ k → k < L.avail - 8 →
        ((L.probeData first).add 8) k = some 1 := fun i hi k hk hlt =>
      hone (8 + k) (by omega) (by omega)
    by_cases h21 : L.avail < 21
    · rw [skipName, dif_pos (by omega), hpast 12 (by omega)]
      rfl
    have hlabel : ((L.probeData first).add 8) 12 = some first := by
      refine (probeData_of_lt (k := 20) first (by omega)).trans ?_
      rw [L.probe_payload first hihl]
      simp
    by_cases hodd : L.avail % 2 = 1 ∧ ulen = L.avail + 1
    · rw [if_pos hodd] at hfirst
      have hwalk : skipName ((L.probeData first).add 8) (ulen - 8) 15 = none :=
        skipName_eq_none (hones 15 (by omega)) hpast le_rfl (by omega) (by omega) (by omega)
      rw [skipName, dif_pos (by omega), hlabel]
      subst hfirst
      exact hwalk
    rw [if_neg hodd] at hfirst
    refine skipName_eq_none (j := L.avail - 8 + L.avail % 2) (fun k hk hlt => ?_) hpast (by omega)
      (by omega) (by omega) (by omega)
    by_cases h12 : k = 12
    · rw [h12, hlabel, hfirst]
    · exact hones 13 le_rfl k (by omega) hlt
  simp [hskip]

theorem handleUdp_probe (hihl : 5 ≤ L.ihl.val) {plen : ℕ} (hlen : 65476 ≤ plen)
    (hno : ¬ (6 ≤ L.avail ∧ UdpFits (min L.udpLen.toNat plen) L.avail)) :
    ∃ first, asking.handleUdp (L.probeData first) plen = none := by
  by_cases h6 : 6 ≤ L.avail
  · obtain ⟨first, hdns⟩ := netHandleDnsUdp_probe hihl fun h => hno ⟨h6, h⟩
    refine ⟨first, ?_⟩
    have hget : ∀ k < 6, L.probeData first k = some (L.probe first (L.payload + k)) :=
      fun k hk => probeData_of_lt first (by omega)
    have hdport : (L.probeData first).u16 2 = some 0x0101 := by
      refine (Ptr.u16_eq_some (hget 2 (by omega)) (hget 3 (by omega))).trans ?_
      rw [L.probe_payload first hihl, L.probe_payload first hihl]
      simp only [Nat.reduceEqDiff, if_false]
      decide
    have hulen : (L.probeData first).u16 4 = some L.udpLen := by
      refine (Ptr.u16_eq_some (hget 4 (by omega)) (hget 5 (by omega))).trans ?_
      rw [L.probe_payload first hihl, L.probe_payload first hihl]
      exact congrArg some (join_be16 L.udpLen)
    rw [Receiver.handleUdp, if_neg (by omega)]
    simp only [hdport, hulen, bind_eq_bind, bind_some]
    rw [hdns]
    rfl
  refine ⟨1, ?_⟩
  have hulen : (L.probeData 1).u16 4 = none :=
    Ptr.u16_eq_none (probeData_of_le (k := 5) _ (by omega))
  rw [Receiver.handleUdp, if_neg (by omega)]
  cases (L.probeData 1).u16 2 <;> simp [hulen]

theorem netHandleTcp_probe (hihl : 5 ≤ L.ihl.val) {plen : ℕ} (hlen : 65476 ≤ plen)
    (hno : ¬ (13 ≤ L.avail ∧ (5 ≤ L.dataOff.val → 16 ≤ L.avail))) (src : UInt32) :
    asking.netHandleTcp 0 src (L.probeData 1) plen = none := by
  have hparse : tcpParseHeader (L.probeData 1) plen = none := by
    rw [tcpParseHeader, if_neg (by omega)]
    by_cases h13 : 13 ≤ L.avail
    · have h12 : L.probeData 1 12 = some (UInt8.ofNat L.dataOff <<< 4) := by
        rw [probeData_of_lt 1 (by omega), L.probe_payload 1 hihl]
        rfl
      have hnibble := nibble_high L.dataOff
      have hwin : (L.probeData 1).u16 14 = none :=
        Ptr.u16_eq_none (probeData_of_le (k := 15) _ (by omega))
      simp only [h12, bind_eq_bind, bind_some]
      rw [if_neg (by omega)]
      simp [hwin]
    · simp [probeData_of_le (L := L) (k := 12) 1 (by omega)]
  simp [Receiver.netHandleTcp, hparse]

/-- A layout that is not safe has a frame that is read outside. -/
theorem exists_outside (hs : ¬ L.Safe) : ∃ frame, L.Fits frame ∧ asking.receive 0 frame = none := by
  simp only [Safe, Classical.not_imp] at hs
  obtain ⟨heth, hframe, hihl, hle, hwrap, hs⟩ := hs
  have hplen : 65476 ≤ 65536 + L.total.toNat - 4 * L.ihl := by omega
  suffices hdel : ∃ first, asking.deliver 0 0x01010101 L.proto (L.probeData first)
      (65536 + L.total.toNat - 4 * L.ihl) = none by
    obtain ⟨first, hdel⟩ := hdel
    exact ⟨_, L.probe_fits first heth hihl, (receive_probe hframe hihl hle hwrap).trans hdel⟩
  by_cases hicmp : L.proto = 1
  · simp only [hicmp, show (1 : UInt8) ≠ 6 by decide, show (1 : UInt8) ≠ 17 by decide,
      false_imp_iff, and_true] at hs
    refine ⟨1, ?_⟩
    have hnone : L.probeData 1 0 = none := probeData_of_le 1 (by omega)
    rw [Receiver.deliver, if_pos hicmp, Receiver.handleIcmp, if_neg (by omega), hnone]
    rfl
  by_cases hudp : L.proto = 17
  · simp only [hudp, show (17 : UInt8) ≠ 1 by decide, show (17 : UInt8) ≠ 6 by decide,
      false_imp_iff, true_imp_iff, true_and] at hs
    obtain ⟨first, hnone⟩ := handleUdp_probe hihl hplen hs
    exact ⟨first, by rw [Receiver.deliver, if_neg hicmp, if_pos hudp, hnone]⟩
  by_cases htcp : L.proto = 6
  · simp only [htcp, show (6 : UInt8) ≠ 1 by decide, show (6 : UInt8) ≠ 17 by decide,
      false_imp_iff, true_imp_iff, true_and, and_true] at hs
    refine ⟨1, ?_⟩
    rw [Receiver.deliver, if_neg hicmp, if_neg hudp, if_pos htcp]
    exact netHandleTcp_probe hihl hplen hs _
  · exact absurd ⟨fun h => absurd h hicmp, fun h => absurd h htcp, fun h => absurd h hudp⟩ hs

end Layout

/-- **The lengths for which all reads stay inside.** With a total length below that of the IP
header, these are the ones where so much was received that it does not matter. -/
theorem inside_iff (L : Layout) :
    (∀ (r : Receiver) (ticks : UInt16) (frame : List UInt8), L.Fits frame →
      (r.receive ticks frame).isSome) ↔ L.Safe := by
  refine ⟨fun h => ?_, fun hs r ticks frame hf => hf.receive_isSome hs r ticks⟩
  by_contra hs
  obtain ⟨frame, hf, hnone⟩ := Layout.exists_outside hs
  simpa [hnone] using h asking 0 frame hf

/-- A frame that ends with its IP header, for ICMP and with the total length zero. -/
def headerOnly : List UInt8 :=
  [0, 0, 0, 0, 0, 0, 0, 0, 0, 0, 0, 0, 0x08, 0x00,
    0x45, 0, 0, 0, 0, 0, 0, 0, 64, 1, 0, 0, 10, 0, 2, 2, 1, 1, 1, 1]

/-- Its payload is taken to have 65516 bytes, and the first of them is read. -/
theorem ping_without_payload :
    ¬ ∀ (r : Receiver) (ticks : UInt16) (frame : List UInt8), frame.length ≤ 2048 →
      (r.receive ticks frame).isSome := by
  intro h
  have hout : (asking.receive 0 headerOnly).isSome = false := by decide +kernel
  exact absurd (h asking 0 headerOnly (by decide)) (by rw [hout]; decide)

end PeakOs.Net
