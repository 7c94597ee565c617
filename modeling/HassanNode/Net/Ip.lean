import Mathlib
import HassanNode.Core.Basic

/-!
# HassanNode.Net.Ip

Peer addresses as text, and the IP addresses they name. The string functions and the
classes of addresses are the standard library's; its parser of IP literals is a
parameter, of which only the characters of a literal are ever used.
-/

namespace HassanNode

/-- A string, as its characters. -/
abbrev Text := List Char

namespace Text

/-- `str::as_bytes`. -/
def utf8 (s : Text) : Bytes := s.flatMap String.utf8EncodeChar

/-- `str::len`, which counts bytes. -/
def byteLen (s : Text) : Nat := s.utf8.length

/-- `char::is_whitespace`. -/
def isWhitespace (c : Char) : Bool :=
  (9 ≤ c.toNat && c.toNat ≤ 13) || (0x2000 ≤ c.toNat && c.toNat ≤ 0x200a)
    || [0x20, 0x85, 0xa0, 0x1680, 0x2028, 0x2029, 0x202f, 0x205f, 0x3000].contains c.toNat

/-- `trim_matches` by a test on characters. -/
def trimMatches (p : Char → Bool) (s : Text) : Text := (s.dropWhile p).rdropWhile p

/-- `str::trim`. -/
def trim (s : Text) : Text := s.trimMatches isWhitespace

/-- `rsplit_once` at a character. -/
def rsplitOnce (sep : Char) (s : Text) : Option (Text × Text) :=
  if sep ∈ s then some ((s.rdropWhile (· ≠ sep)).dropLast, s.rtakeWhile (· ≠ sep)) else none

/-- `trim_end_matches` by a string: the suffix goes as often as it is there. -/
def trimEndMatches (pat s : Text) : Text :=
  if _h : pat ≠ [] ∧ pat <:+ s then trimEndMatches pat (s.take (s.length - pat.length)) else s
  termination_by s.length
  decreasing_by
    have hpos := List.length_pos_iff.mpr _h.1
    have hle := _h.2.length_le
    rw [List.length_take]
    omega

/-- `to_ascii_lowercase`. -/
def lowercase (s : Text) : Text := s.map Char.toLower

/-- `parse::<u16>`: decimal digits after an optional plus sign. -/
def parseU16 (s : Text) : Option Nat :=
  let digits := match s with
    | '+' :: rest => rest
    | _ => s
  if digits = [] ∨ ¬ digits.all Char.isDigit then none
  else
    let n := digits.foldl (fun n c => n * 10 + (c.toNat - 48)) 0
    if n < 2 ^ 16 then some n else none

/-- The brackets around an IPv6 literal. -/
def isBracket (c : Char) : Bool := c = '[' || c = ']'

end Text

/-! ### Addresses and their classes -/

structure Ipv4Addr where
  a : UInt8
  b : UInt8
  c : UInt8
  d : UInt8
  deriving DecidableEq, Repr

structure Ipv6Addr where
  s0 : UInt16
  s1 : UInt16
  s2 : UInt16
  s3 : UInt16
  s4 : UInt16
  s5 : UInt16
  s6 : UInt16
  s7 : UInt16
  deriving DecidableEq, Repr

inductive IpAddr
  | v4 (ip : Ipv4Addr)
  | v6 (ip : Ipv6Addr)
  deriving DecidableEq, Repr

namespace Ipv4Addr

def isUnspecified (ip : Ipv4Addr) : Bool := ip = ⟨0, 0, 0, 0⟩
def isBroadcast (ip : Ipv4Addr) : Bool := ip = ⟨255, 255, 255, 255⟩
def isLoopback (ip : Ipv4Addr) : Bool := ip.a = 127
def isLinkLocal (ip : Ipv4Addr) : Bool := ip.a = 169 && ip.b = 254

/-- 10/8, 172.16/12 and 192.168/16. -/
def isPrivate (ip : Ipv4Addr) : Bool :=
  ip.a = 10 || (ip.a = 172 && 16 ≤ ip.b && ip.b ≤ 31) || (ip.a = 192 && ip.b = 168)

end Ipv4Addr

namespace Ipv6Addr

def isUnspecified (ip : Ipv6Addr) : Bool := ip = ⟨0, 0, 0, 0, 0, 0, 0, 0⟩
def isLoopback (ip : Ipv6Addr) : Bool := ip = ⟨0, 0, 0, 0, 0, 0, 0, 1⟩

/-- fe80::/10. -/
def isUnicastLinkLocal (ip : Ipv6Addr) : Bool := ip.s0 &&& 0xffc0 = 0xfe80

/-- fc00::/7. -/
def isUniqueLocal (ip : Ipv6Addr) : Bool := ip.s0 &&& 0xfe00 = 0xfc00

/-- `to_ipv4_mapped`: the address in ::ffff:0:0/96. -/
def toIpv4Mapped (ip : Ipv6Addr) : Option Ipv4Addr :=
  if ip.s0 = 0 ∧ ip.s1 = 0 ∧ ip.s2 = 0 ∧ ip.s3 = 0 ∧ ip.s4 = 0 ∧ ip.s5 = 0xffff then
    some ⟨(ip.s6 >>> 8).toUInt8, ip.s6.toUInt8, (ip.s7 >>> 8).toUInt8, ip.s7.toUInt8⟩
  else none

end Ipv6Addr

/-- `str::parse::<IpAddr>` of the standard library. -/
class IpParser where
  parse : Text → Option IpAddr

/-- The characters of IP literals. -/
def Text.isLiteralChar (c : Char) : Bool :=
  c.isDigit || ('a' ≤ c && c ≤ 'f') || ('A' ≤ c && c ≤ 'F') || c = '.' || c = ':'

/-- What the parser is known to do: it accepts no empty string, and no character that
literals do not have. -/
structure IpParser.Literal [IpParser] : Prop where
  nonempty : ∀ s ip, IpParser.parse s = some ip → s ≠ []
  chars : ∀ s ip, IpParser.parse s = some ip → s.all Text.isLiteralChar = true

namespace Sample

/-- A parser that knows some literals, for the concrete runs. -/
@[reducible] def parserOf (literals : List (Text × IpAddr)) : IpParser where
  parse s := (literals.find? fun e => e.1 = s).map Prod.snd

theorem parserOf_literal {literals : List (Text × IpAddr)}
    (h : literals.all (fun e => e.1 ≠ [] && e.1.all Text.isLiteralChar) = true) :
    @IpParser.Literal (parserOf literals) := by
  have hknown : ∀ s ip, @IpParser.parse (parserOf literals) s = some ip →
      s ≠ [] ∧ s.all Text.isLiteralChar = true := by
    intro s ip hparse
    obtain ⟨e, he, -⟩ := Option.map_eq_some_iff.mp hparse
    have hsame : e.1 = s := of_decide_eq_true (List.find?_some (p := fun e : Text × IpAddr => decide (e.1 = s)) he)
    obtain ⟨hne, hchars⟩ := Bool.and_eq_true_iff.mp (List.all_eq_true.mp h e (List.mem_of_find?_eq_some he))
    exact ⟨hsame ▸ of_decide_eq_true hne, hsame ▸ hchars⟩
  exact @IpParser.Literal.mk (parserOf literals) (fun s ip hparse => (hknown s ip hparse).1)
    fun s ip hparse => (hknown s ip hparse).2

end Sample

end HassanNode
