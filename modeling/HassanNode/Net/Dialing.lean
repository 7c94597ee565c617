import Mathlib
import HassanNode.Net.Ip

/-!
# HassanNode.Net.Dialing

The filters on addresses that peers gossip: `is_publicly_dialable` of `net_policy.rs`,
which a public node uses, and `is_dialable_gossip_addr` of `p2p.rs`, which chooses
between it and a lenient one.

The strict filter looks at the two families separately, and an IPv6 literal can name an
IPv4 address. Those are the only internal addresses it lets through
(`publicly_dialable_iff`).
-/

namespace HassanNode

open Text

/-! ### The filters -/

/-- The common beginning: of an address that is not too long and has a port, the host in
the form in which it is classified. -/
def dialHost (addr : Text) : Option Text :=
  let addr := addr.trim
  if addr = [] ∨ addr.byteLen > 256 then none
  else match addr.rsplitOnce ':' with
    | none => none
    | some (host, portStr) => match portStr.parseU16 with
      | none => none
      | some port => if port = 0 then none else some (host.trimMatches isBracket).lowercase

def onionSuffix : Text := ".onion".toList

/-- A hidden service of version 3. -/
def isOnion (host : Text) : Bool :=
  host.byteLen = 62 && (trimEndMatches onionSuffix host).all fun c =>
    ('a' ≤ c && c ≤ 'z') || ('2' ≤ c && c ≤ '7')

section Filters

variable [IpParser]

/-- `net_policy::is_publicly_dialable`. -/
def isPubliclyDialable (addr : Text) : Bool :=
  match dialHost addr with
  | none => false
  | some host =>
    if onionSuffix <:+ host then isOnion host
    else match IpParser.parse host with
      | none => host ≠ [] && host.byteLen ≤ 253 && !host.contains ' '
      | some (.v4 ip) =>
        !ip.isUnspecified && !ip.isBroadcast && !ip.isLoopback && !ip.isPrivate && !ip.isLinkLocal
      | some (.v6 ip) =>
        !ip.isUnspecified && !ip.isLoopback && !ip.isUnicastLinkLocal && !ip.isUniqueLocal

/-- `p2p::is_dialable_gossip_addr`, under the node's `strict_dials`. -/
def isDialableGossipAddr (strictDials : Bool) (addr : Text) : Bool :=
  if strictDials then isPubliclyDialable addr
  else match dialHost addr with
    | none => false
    | some host =>
      if onionSuffix <:+ host then isOnion host
      else match IpParser.parse host with
        | none => host ≠ [] && host.byteLen ≤ 253
        | some (.v4 ip) => !ip.isUnspecified && !ip.isBroadcast && !ip.isLinkLocal
        | some (.v6 ip) => !ip.isUnspecified && !ip.isUnicastLinkLocal

end Filters

/-! ### What is dialed -/

/-- Where a connection to a literal goes: a mapped address is dialed over IPv4. -/
def IpAddr.dialed : IpAddr → IpAddr
  | .v4 ip => .v4 ip
  | .v6 ip => ip.toIpv4Mapped.elim (.v6 ip) .v4

def Ipv4Addr.isInternal (ip : Ipv4Addr) : Bool :=
  ip.isLoopback || ip.isUnspecified || ip.isBroadcast || ip.isPrivate || ip.isLinkLocal

/-- Addresses that a public node must not dial. -/
def IpAddr.isInternal : IpAddr → Bool
  | .v4 ip => ip.isInternal
  | .v6 ip => ip.isLoopback || ip.isUnspecified || ip.isUnicastLinkLocal || ip.isUniqueLocal

/-- A mapped address passes the tests on IPv6 addresses. -/
theorem outside_of_mapped {ip : Ipv6Addr} {v4 : Ipv4Addr} (h : ip.toIpv4Mapped = some v4) :
    (IpAddr.v6 ip).isInternal = false := by
  unfold Ipv6Addr.toIpv4Mapped at h
  split at h
  · rename_i hmapped
    obtain ⟨h0, -, -, -, -, h5⟩ := hmapped
    have hne : ip.s5 ≠ 0 := by
      rw [h5]
      decide
    have hloop : ip.isLoopback = false := decide_eq_false fun heq => hne (congrArg Ipv6Addr.s5 heq)
    have hunspec : ip.isUnspecified = false := decide_eq_false fun heq => hne (congrArg Ipv6Addr.s5 heq)
    have hlink : ip.isUnicastLinkLocal = false := by
      rw [Ipv6Addr.isUnicastLinkLocal, h0]
      decide
    have hlocal : ip.isUniqueLocal = false := by
      rw [Ipv6Addr.isUniqueLocal, h0]
      decide
    rw [IpAddr.isInternal, hloop, hunspec, hlink, hlocal]
    rfl
  · cases h

section Strict

variable [IpParser] {addr host : Text}

/-- An accepted address whose host is a literal does not lead inside. -/
def DialsOutside (addr : Text) : Prop :=
  isPubliclyDialable addr = true → ∀ host ip, dialHost addr = some host → IpParser.parse host = some ip →
    ip.dialed.isInternal = false

/-- The host is a literal of a mapped address, and the IPv4 address in it is internal. -/
def MappedInside (addr : Text) : Prop :=
  ∃ host ip v4, dialHost addr = some host ∧ IpParser.parse host = some (.v6 ip) ∧
    ip.toIpv4Mapped = some v4 ∧ v4.isInternal = true

/-- No literal is a hidden service. -/
theorem not_onion_of_parse (hlit : IpParser.Literal) {ip : IpAddr} (h : IpParser.parse host = some ip) :
    ¬ onionSuffix <:+ host := by
  intro hsuffix
  have hletter : 'n' ∈ onionSuffix := by decide
  have hchar := List.all_eq_true.mp (hlit.chars host ip h) 'n' (hsuffix.subset hletter)
  exact absurd hchar (by decide)

/-- On a literal the strict filter asks whether the address as it is written is internal. -/
theorem isPubliclyDialable_literal (hlit : IpParser.Literal) {ip : IpAddr} (hhost : dialHost addr = some host)
    (hip : IpParser.parse host = some ip) : isPubliclyDialable addr = !ip.isInternal := by
  rw [isPubliclyDialable, hhost]
  dsimp only
  rw [if_neg (not_onion_of_parse hlit hip), hip]
  cases ip with
  | v4 ip =>
      dsimp only [IpAddr.isInternal, Ipv4Addr.isInternal]
      cases ip.isUnspecified <;> cases ip.isBroadcast <;> cases ip.isLoopback <;> cases ip.isPrivate <;>
        cases ip.isLinkLocal <;> rfl
  | v6 ip =>
      dsimp only [IpAddr.isInternal]
      cases ip.isUnspecified <;> cases ip.isLoopback <;> cases ip.isUnicastLinkLocal <;> cases ip.isUniqueLocal <;> rfl

/-- **Strict dialing stays outside exactly on what is not a mapped internal address.** -/
theorem publicly_dialable_iff (hlit : IpParser.Literal) (addr : Text) : DialsOutside addr ↔ ¬ MappedInside addr := by
  constructor
  · rintro hout ⟨host, ip, v4, hhost, hip, hmapped, hinside⟩
    have hpasses : isPubliclyDialable addr = true := by
      rw [isPubliclyDialable_literal hlit hhost hip, outside_of_mapped hmapped]
      rfl
    have hdialed := hout hpasses host (.v6 ip) hhost hip
    rw [IpAddr.dialed, hmapped, Option.elim_some, IpAddr.isInternal, hinside] at hdialed
    cases hdialed
  · intro hmapped hpasses host ip hhost hip
    rw [isPubliclyDialable_literal hlit hhost hip, Bool.not_eq_true'] at hpasses
    cases ip with
    | v4 ip => exact hpasses
    | v6 ip =>
        cases hv4 : ip.toIpv4Mapped with
        | none =>
            rw [IpAddr.dialed, hv4]
            exact hpasses
        | some v4 =>
            rw [IpAddr.dialed, hv4]
            exact Bool.eq_false_iff.mpr fun hinside => hmapped ⟨host, ip, v4, hhost, hip, hv4, hinside⟩

/-- A strict node dials what the strict filter accepts. -/
theorem isDialableGossipAddr_strict : isDialableGossipAddr true addr = isPubliclyDialable addr := rfl

end Strict

namespace Sample

/-- A mapped private address and a public one. -/
def dialLiterals : List (Text × IpAddr) :=
  [("::ffff:10.0.0.1".toList, .v6 ⟨0, 0, 0, 0, 0, 0xffff, 0x0a00, 1⟩),
   ("203.0.113.10".toList, .v4 ⟨203, 0, 113, 10⟩)]

theorem dialLiterals_literal : @IpParser.Literal (parserOf dialLiterals) := parserOf_literal rfl

/-- A public address in plain form is dialed outside. -/
theorem plain_dials_outside : @DialsOutside (parserOf dialLiterals) "203.0.113.10:9333".toList := by
  let := parserOf dialLiterals
  refine (publicly_dialable_iff dialLiterals_literal _).mpr ?_
  rintro ⟨host, ip, v4, hhost, hip, -⟩
  obtain rfl : "203.0.113.10".toList = host := Option.some.inj hhost
  cases hip

/-- A mapped private address passes the strict filter and is dialed. -/
theorem mapped_passes : ¬ ∀ (_ : IpParser), IpParser.Literal → ∀ addr, DialsOutside addr := by
  intro h
  have hhost : dialHost "[::ffff:10.0.0.1]:9333".toList = some "::ffff:10.0.0.1".toList := rfl
  have hinside : @MappedInside (parserOf dialLiterals) "[::ffff:10.0.0.1]:9333".toList :=
    ⟨_, _, ⟨10, 0, 0, 1⟩, hhost, rfl, by decide, by decide⟩
  have hout := h (parserOf dialLiterals) dialLiterals_literal "[::ffff:10.0.0.1]:9333".toList
  obtain ⟨host, ip, v4, hhost, hip, hmapped, hinside⟩ := hinside
  have hpasses : @isPubliclyDialable (parserOf dialLiterals) "[::ffff:10.0.0.1]:9333".toList = true := rfl
  have hdialed := hout hpasses host (.v6 ip) hhost hip
  rw [IpAddr.dialed, hmapped, Option.elim_some, IpAddr.isInternal, hinside] at hdialed
  cases hdialed

end Sample

end HassanNode
