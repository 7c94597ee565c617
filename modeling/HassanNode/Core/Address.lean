import Mathlib
import HassanNode.Core.Basic

/-!
# HassanNode.Core.Address

Bech32m addresses (`address.rs`): the checksum polynomial, the 8-to-5 bit
regrouping, encoding and decoding of `hsn1…` strings, and the dual-accept
comparison with the legacy `hsn:<128 hex>` form. Checksums and regrouping
accumulators are the source's `u32`s, written as `Nat`s with the truncation
spelled out where a shift could lose bits.
-/

namespace HassanNode

/-- An address string, as its bytes. -/
abbrev Address := Bytes

namespace Address

def charset : Bytes := utf8 "qpzry9x8gf2tvdw0s3jn54khce6mua7l"
def bech32mConst : Nat := 0x2bc830a3
def payloadLen : Nat := 32

/-! ### The bech32m code -/

def generators : List Nat := [0x3b6a57b2, 0x26508e6d, 0x1ea119fa, 0x3d4233dd, 0x2a1462b3]

/-- One round of `polymod`: shift in a value, then fold the bits that fell
off the top back in through the generators. -/
def polymodStep (chk value : Nat) : Nat :=
  let b := chk >>> 25
  generators.zipIdx.foldl (fun c g => if (b >>> g.2) &&& 1 = 1 then c ^^^ g.1 else c)
    (((chk &&& 0x1ffffff) <<< 5) ^^^ value)

def polymod (values : List Nat) : Nat := values.foldl polymodStep 1

def hrpExpand (hrp : Bytes) : List Nat :=
  hrp.map (·.toNat >>> 5) ++ [0] ++ hrp.map (·.toNat &&& 31)

/-- The inner `while bits >= to` loop of `convert_bits`; `bits` bounds the
number of rounds. -/
def emitGroups (acc toBits : Nat) : (fuel bits : Nat) → List Nat × Nat
  | 0, bits => ([], bits)
  | fuel + 1, bits =>
    if toBits ≤ bits then
      let rest := emitGroups acc toBits fuel (bits - toBits)
      (((acc >>> (bits - toBits)) &&& (1 <<< toBits - 1)) :: rest.1, rest.2)
    else ([], bits)

/-- The loop of `convert_bits` over the input, with its accumulator. -/
def convertLoop (fromBits toBits : Nat) : List Nat → (acc bits : Nat) → Option (List Nat × Nat × Nat)
  | [], acc, bits => some ([], acc, bits)
  | value :: data, acc, bits =>
    if value >>> fromBits ≠ 0 then none
    else
      let acc := ((acc <<< fromBits) ||| value) % 2 ^ 32
      let groups := emitGroups acc toBits (bits + fromBits) (bits + fromBits)
      (convertLoop fromBits toBits data acc groups.2).map fun r => (groups.1 ++ r.1, r.2)

/-- `convert_bits`: regroup `from`-bit values into `to`-bit ones. -/
def convertBits (data : List Nat) (fromBits toBits : Nat) (pad : Bool) : Option (List Nat) :=
  match convertLoop fromBits toBits data 0 0 with
  | none => none
  | some (ret, acc, bits) =>
    let tail := ((acc <<< (toBits - bits)) % 2 ^ 32) &&& (1 <<< toBits - 1)
    if pad then some (if bits > 0 then ret ++ [tail] else ret)
    else if bits ≥ fromBits ∨ tail ≠ 0 then none
    else some ret

/-- The character of a 5-bit value. -/
def charAt (d : Nat) : UInt8 := charset.getD d 0

/-- `encode`: human-readable part, separator, data, six checksum characters. -/
def encode (hrp : Bytes) (data : List Nat) : Address :=
  let checksum := polymod (hrpExpand hrp ++ data ++ [0, 0, 0, 0, 0, 0]) ^^^ bech32mConst
  hrp ++ utf8 "1" ++ data.map charAt
    ++ (List.range 6).map (fun i => charAt ((checksum >>> (5 * (5 - i))) &&& 31))

def isUpper (b : UInt8) : Bool := 65 ≤ b && b ≤ 90
def isLower (b : UInt8) : Bool := 97 ≤ b && b ≤ 122
def toLower (b : UInt8) : UInt8 := if isUpper b then b + 32 else b

/-- `rsplit_once('1')`: split at the last separator. -/
def rsplitOnce (addr : Address) : Option (Bytes × Bytes) :=
  match addr.reverse.idxOf? 49 with
  | none => none
  | some i => some (addr.take (addr.length - (i + 1)), addr.drop (addr.length - i))

/-- `decode`: reject mixed case, split, map the characters, check the checksum. -/
def decode (addr : Address) : Option (Bytes × List Nat) :=
  if addr.any isUpper && addr.any isLower then none
  else do
    let (hrp, data) ← rsplitOnce (addr.map toLower)
    if hrp = [] ∨ data.length < 6 then none
    else
      let values ← data.mapM charset.idxOf?
      if polymod (hrpExpand hrp ++ values) ≠ bech32mConst then none
      else some (hrp, values.take (values.length - 6))

/-! ### Addresses of digests and keys -/

/-- `encode_hash`: bech32m over the first 32 bytes of the digest. -/
def encodeHash (h : Hash) : Address :=
  encode (utf8 "hsn")
    ((convertBits ((h.asBytes.take payloadLen).map UInt8.toNat) 8 5 true).getD [])

def hexDigit (n : Nat) : UInt8 := (utf8 "0123456789abcdef").getD n 0

/-- `hex::encode`. -/
def hexEncode (bs : Bytes) : Bytes :=
  bs.flatMap fun b => [hexDigit (b.toNat / 16), hexDigit (b.toNat % 16)]

/-- The value of one hex character, either case. -/
def hexValue (c : UInt8) : Option Nat :=
  if 48 ≤ c ∧ c ≤ 57 then some (c.toNat - 48)
  else if 97 ≤ c ∧ c ≤ 102 then some (c.toNat - 87)
  else if 65 ≤ c ∧ c ≤ 70 then some (c.toNat - 55)
  else none

/-- `hex::decode`. -/
def hexDecode : Bytes → Option Bytes
  | [] => some []
  | [_] => none
  | a :: b :: rest => do
    let hi ← hexValue a
    let lo ← hexValue b
    let bs ← hexDecode rest
    return UInt8.ofNat (hi * 16 + lo) :: bs

theorem hexDecode_hexEncode (bs : Bytes) : hexDecode (hexEncode bs) = some bs := by
  have hdigit : ∀ n < 16, hexValue (hexDigit n) = some n := by decide +kernel
  induction bs with
  | nil => rfl
  | cons b bs ih =>
      have hlt := b.toNat_lt
      have hb : UInt8.ofNat (b.toNat / 16 * 16 + b.toNat % 16) = b := by
        rw [Nat.div_add_mod']
        exact UInt8.ofNat_toNat
      rw [hexEncode, List.flatMap_cons, ← hexEncode]
      simp only [List.cons_append, List.nil_append, hexDecode, ih]
      rw [hdigit _ (by omega), hdigit _ (by omega)]
      change some (UInt8.ofNat (b.toNat / 16 * 16 + b.toNat % 16) :: bs) = some (b :: bs)
      rw [hb]

/-- `encode_legacy_hex`. -/
def encodeLegacyHex (h : Hash) : Address := utf8 "hsn:" ++ hexEncode h.asBytes

/-- `decode_address`: the 32-byte payload of an `hsn1…` string. -/
def decodeAddress (addr : Address) : Option (List Nat) := do
  let (hrp, data5) ← decode addr
  if hrp ≠ utf8 "hsn" then none
  else
    let bytes ← convertBits data5 5 8 false
    if bytes.length ≠ payloadLen then none else some bytes

/-- The 64 bytes of a legacy `hsn:<128 hex>` string. -/
def decodeLegacyHex (addr : Address) : Option Bytes := do
  let hexPart ← (utf8 "hsn:").isPrefixOf? addr
  if hexPart.length ≠ 128 then none
  else
    let bytes ← hexDecode hexPart
    if bytes.length ≠ 64 then none else some bytes

/-- `address_fingerprint`. -/
def fingerprint (addr : Address) : Option (List Nat) :=
  match decodeAddress addr with
  | some fp => some fp
  | none => (decodeLegacyHex addr).map fun bs => (bs.take payloadLen).map UInt8.toNat

/-- `addresses_equivalent`. -/
def equivalent (a b : Address) : Bool :=
  if a = b then true
  else match fingerprint a, fingerprint b with
    | some fa, some fb => fa = fb
    | _, _ => false

/-- `is_bech32m_address`. -/
def isBech32m (addr : Address) : Bool := (decodeAddress addr).isSome

/-- `is_valid_hassan_address` (and `security::is_valid_address`). -/
def isValid (addr : Address) : Bool := isBech32m addr || (decodeLegacyHex addr).isSome

variable [Crypto]

/-- `hash_to_address` / `encode_address`. -/
def ofPubkey (pubkey : Bytes) : Address := encodeHash (addressHash pubkey)

/-- `address_matches_pubkey`. -/
def matchesPubkey (addr : Address) (pubkey : Bytes) : Bool :=
  equivalent addr (encodeHash (addressHash pubkey))
    || equivalent addr (encodeLegacyHex (addressHash pubkey))

end Address

end HassanNode
