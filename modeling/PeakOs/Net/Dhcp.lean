import PeakOs.Net.Receive

/-!
# DHCP leases

`net_dhcp_try` sends DISCOVER, polls until it has an OFFER, sends REQUEST and polls until it has an
ACK or a NAK; `net_poll` hands over all packets that are there. Every OFFER and every ACK of the
exchange is written to the same record, whoever sent it, and what an ACK leaves out is taken from
elsewhere.

Of a packet only the lease is kept that `Receiver.netHandleDhcpUdp` hands to `Dhcp.hear`, with its
type. Nothing else polls meanwhile.

## Main results

* `lease_of_one_ack` — runs in which only good answers to the REQUEST come back
* `offer_after_ack` — a late OFFER is installed
-/

namespace PeakOs.Net

/-- The packets of each turn of a polling loop. -/
abbrev Turns := List (List DhcpLease)

namespace Dhcp

/-- The polling loops. -/
def poll (stop : Dhcp → Bool) : Turns → Dhcp → Dhcp
  | [], d => d
  | turn :: turns, d => if stop (turn.foldl hear d) then turn.foldl hear d
    else poll stop turns (turn.foldl hear d)

/-- The state when the first loop is left. -/
def offered (offers : Turns) : Dhcp :=
  poll haveOffer offers ⟨⟨0, 0, 0, 0, 0, 0⟩, false, false, false⟩

/-- The server that the REQUEST names. -/
def server (offers : Turns) : UInt32 := (offered offers).pending.serverId

/-- The state when the second loop is left. -/
def answered (offers acks : Turns) : Dhcp :=
  poll (fun d => d.haveAck || d.haveNak) acks
    { offered offers with haveAck := false, haveNak := false }

end Dhcp

/-! ### The exchange -/

inductive NetMode
  | dhcpFallback
  | dhcpOnly
  | static
  deriving DecidableEq

structure Addresses where
  ip : UInt32
  mask : UInt32
  gw : UInt32
  dns : UInt32
  deriving DecidableEq

/-- `addr_mode`. -/
inductive AddrMode
  | static
  | fallback
  | dhcp
  deriving DecidableEq

/-- `a ? a : b` -/
def orElse (a b : UInt32) : UInt32 := if a ≠ 0 then a else b

def netApplyStaticFallback (boot : Addresses) : Addresses :=
  ⟨orElse boot.ip 0x0A00020F, orElse boot.mask 0xFFFFFF00, orElse boot.gw 0x0A000202,
    orElse boot.dns 0x0A000203⟩

/-- `net_dhcp_try`: `discover` and `request` say whether the two messages could be sent, and `old`
are the addresses from before. The result is `none` if no addresses are applied. -/
def netDhcpTry (mode : NetMode) (boot old : Addresses) (discover request : Bool)
    (offers acks : Turns) : Option (Addresses × AddrMode) :=
  let fallback := if mode = .dhcpOnly then none else some (netApplyStaticFallback boot, .fallback)
  let d := Dhcp.offered offers
  let d' := Dhcp.answered offers acks
  if mode = .static then some (netApplyStaticFallback boot, .static)
  else if !discover || !d.haveOffer || !request || !d'.haveAck then fallback
  else
    let l := d'.pending
    some (⟨orElse l.yiaddr d.pending.yiaddr, orElse l.mask (orElse boot.mask 0xFFFFFF00),
      orElse l.gw (orElse boot.gw old.gw), orElse l.dns (orElse boot.dns old.dns)⟩, .dhcp)

/-- The addresses are those of an ACK of the server, or of the boot configuration. -/
def Settled (boot : Addresses) (server : UInt32) (acks : List DhcpLease) :
    Option (Addresses × AddrMode) → Prop
  | none => False
  | some (a, .dhcp) =>
    ∃ l ∈ acks, l.msgType = 5 ∧ l.serverId = server ∧ a = ⟨l.yiaddr, l.mask, l.gw, l.dns⟩
  | some (a, _) => a = netApplyStaticFallback boot

/-- An ACK of the server that says everything. -/
structure FullAck (server : UInt32) (l : DhcpLease) : Prop where
  msgType : l.msgType = 5
  serverId : l.serverId = server
  given : l.yiaddr ≠ 0 ∧ l.mask ≠ 0 ∧ l.gw ≠ 0 ∧ l.dns ≠ 0

theorem Dhcp.poll_rule {P : Dhcp → Prop} {stop : Dhcp → Bool} {turns : Turns}
    (hstep : ∀ d l, l ∈ turns.flatten → P d → P (d.hear l)) {d : Dhcp} (h : P d) :
    P (poll stop turns d) := by
  induction turns generalizing d with
  | nil => exact h
  | cons turn turns ih =>
    have hturn : P (turn.foldl hear d) := by
      refine List.foldlRecOn turn hear h fun d hd l hl => hstep d l ?_ hd
      exact List.mem_append_left _ hl
    rw [poll]
    split
    · exact hturn
    · exact ih (fun d l hl => hstep d l (List.mem_append_right _ hl)) hturn

theorem Dhcp.answered_full {offers acks : Turns}
    (hacks : ∀ l ∈ acks.flatten, l.msgType = 2 ∨ l.msgType = 5 → FullAck (server offers) l)
    (h : (answered offers acks).haveAck = true) :
    (answered offers acks).pending ∈ acks.flatten ∧
      FullAck (server offers) (answered offers acks).pending := by
  refine poll_rule (P := fun d => d.haveAck = true → d.pending ∈ acks.flatten ∧
    FullAck (server offers) d.pending) (fun d l hl hd => ?_) (by simp) h
  rw [hear]
  split
  next h2 => cases h2.symm.trans (hacks l hl (.inl h2)).msgType
  split
  next h5 => exact fun _ => ⟨hl, hacks l hl (.inr h5)⟩
  split <;> exact hd

/-- **One ACK.** If every OFFER and ACK heard after the REQUEST is an ACK of the server it went to
with all four addresses, and the exchange comes to an end where there is no fallback, the addresses
belong together. -/
theorem lease_of_one_ack (mode : NetMode) (boot old : Addresses) (discover request : Bool)
    (offers acks : Turns) (hmode : mode = .dhcpOnly → discover = true ∧ request = true ∧
      (Dhcp.offered offers).haveOffer = true ∧ (Dhcp.answered offers acks).haveAck = true)
    (hacks : ∀ l ∈ acks.flatten, l.msgType = 2 ∨ l.msgType = 5 → FullAck (Dhcp.server offers) l) :
    Settled boot (Dhcp.server offers) acks.flatten
      (netDhcpTry mode boot old discover request offers acks) := by
  rw [netDhcpTry]
  split
  · rfl
  split
  next hstop =>
    rw [if_neg (fun hc => by simp_all)]
    rfl
  next hgo =>
    have hack : (Dhcp.answered offers acks).haveAck = true := by simp_all
    obtain ⟨hmem, hfull⟩ := Dhcp.answered_full hacks hack
    obtain ⟨hyi, hmask, hgw, hdns⟩ := hfull.given
    exact ⟨_, hmem, hfull.msgType, hfull.serverId, by simp [orElse, hyi, hmask, hgw, hdns]⟩

/-- A lease in which all but the type are one number. -/
def lease (n : UInt32) (type : UInt8) : DhcpLease := ⟨n, n, n, n, n, type⟩

theorem lease_of_one_ack_plain : Settled ⟨0, 0, 0, 0⟩ 7 [lease 7 5] (some (⟨7, 7, 7, 7⟩, .dhcp)) :=
  lease_of_one_ack .dhcpOnly ⟨0, 0, 0, 0⟩ ⟨0, 0, 0, 0⟩ true true [[lease 7 2]] [[lease 7 5]]
    (by decide) (by simp [lease]; exact ⟨rfl, rfl, by decide⟩)

/-- The ACK and an OFFER of another server are handed over together. -/
theorem offer_after_ack : ¬ ∀ mode boot old discover request offers acks,
    Settled boot (Dhcp.server offers) acks.flatten
      (netDhcpTry mode boot old discover request offers acks) := by
  intro h
  have hlate : ∃ l ∈ [lease 7 5, lease 9 2], l.msgType = 5 ∧ l.serverId = 7 ∧
      (⟨9, 9, 9, 9⟩ : Addresses) = ⟨l.yiaddr, l.mask, l.gw, l.dns⟩ :=
    h .dhcpFallback ⟨0, 0, 0, 0⟩ ⟨0, 0, 0, 0⟩ true true [[lease 7 2]] [[lease 7 5, lease 9 2]]
  revert hlate
  decide

end PeakOs.Net
