import Mathlib
import HassanNode.Lib.Bytes

/-!
# HassanNode.Core.Basic

The vocabulary every other module shares: 512-bit digests (`lib.rs`), the
third-party primitives the node is written against (Blake3, ML-DSA-87,
SLH-DSA, winterfell), machine-integer helpers, the `bincode` wire encoding and
the consensus constants of `genesis.rs`.

Conventions of the model:

* a `u64` / `u128` counter or amount is a `Nat`; every saturating, checked or
  truncating operation of the source is written out (`satAdd64`,
  `checkedAdd128`, `% 2 ^ 64`). Header fields that are hashed keep their
  fixed-width type (`UInt64`, `UInt32`), so that their encodings are injective;
* a `HashMap` or `BTreeMap` is a `Std.ExtTreeMap`, equal exactly when it has
  the same entries. Where a loop over a `HashMap` could see the effect of its
  iteration order, the order is a parameter (`Env.iter`);
* a Rust `String` is its UTF-8 bytes, since every operation of the source on
  it works on bytes.
-/

namespace HassanNode

open Std (ExtTreeMap ExtTreeSet)

/-! ### Digests -/

/-- A 512-bit consensus digest (`Hash([u8; 64])`), as the number its 64 bytes
spell big-endian. The source's derived byte-wise order is the numeric one. -/
@[ext] structure Hash where
  toNat : Nat
  isLt : toNat < 256 ^ 64
  deriving DecidableEq

namespace Hash

instance : LinearOrder Hash := LinearOrder.lift' Hash.toNat (fun _ _ => Hash.ext)

instance : Std.LawfulEqOrd Hash where
  eq_of_compare h := compare_eq_iff_eq.mp h

instance : Std.TransOrd Hash := inferInstance

/-- `Hash::ZERO`, also the derived default. -/
def zero : Hash := ⟨0, by decide +kernel⟩

instance : Inhabited Hash := ⟨zero⟩

/-- `as_bytes`: the 64 bytes, most significant first. -/
def asBytes (h : Hash) : Bytes := (Bytes.ofNatLE 64 h.toNat).reverse

@[simp] theorem length_asBytes (h : Hash) : h.asBytes.length = 64 := by
  simp [asBytes]

theorem asBytes_injective : Function.Injective asBytes := by
  intro a b h
  exact Hash.ext (Bytes.ofNatLE_inj a.isLt b.isLt (List.reverse_injective h))

/-- The digest whose bytes spell `n`, for a number that may be too large. -/
def ofNat (n : Nat) : Hash := ⟨n % 256 ^ 64, Nat.mod_lt _ (by positivity)⟩

end Hash

/-! ### Third-party primitives -/

/-- The packages the node calls and this repository does not contain. Every
result holds for all of them; a hypothesis such as "no two of these messages
collide" is stated where it is used. -/
class Crypto where
  /-- Blake3 in XOF mode, read for 64 bytes. -/
  blake3 : Bytes → Hash
  /-- ML-DSA-87 verification under a well-sized key and signature. -/
  mlDsaVerify : (publicKey message signature : Bytes) → Bool
  /-- SLH-DSA-SHAKE-256s verification under a well-sized key and signature. -/
  slhDsaVerify : (publicKey message signature : Bytes) → Bool
  /-- Whether winterfell's `Proof::from_bytes` succeeds. -/
  starkProofParses : (proof : Bytes) → Bool
  /-- Whether `winterfell::verify` accepts a parsed proof for these header
  bytes and this claimed result. -/
  starkVerify : (header result proof : Bytes) → Bool

/-- Primitives that can be evaluated, for the concrete runs of this
development: a digest that reads two 8-byte windows of its message (in a block
header these are the height and the nonce) into the half of the digest that
addresses keep, and schemes whose signatures all verify. -/
@[reducible] def sampleCrypto : Crypto where
  blake3 msg := Hash.ofNat ((Bytes.toNatLE ((msg.drop 18).take 8)
    + 2 ^ 64 * Bytes.toNatLE ((msg.drop (msg.length - 20)).take 8)) * 2 ^ 256)
  mlDsaVerify _ _ _ := true
  slhDsaVerify _ _ _ := true
  starkProofParses _ := true
  starkVerify _ _ _ := true

/-! ### Machine integers -/

def u64Max : Nat := 2 ^ 64 - 1
def u128Max : Nat := 2 ^ 128 - 1

/-- `u64::saturating_add`. -/
def satAdd64 (a b : Nat) : Nat := min (a + b) u64Max

/-- `u128::saturating_add`. -/
def satAdd128 (a b : Nat) : Nat := min (a + b) u128Max

/-- `u128::saturating_mul`. -/
def satMul128 (a b : Nat) : Nat := min (a * b) u128Max

/-- `u128::checked_add`. -/
def checkedAdd128 (a b : Nat) : Option Nat := if a + b ≤ u128Max then some (a + b) else none

theorem satAdd64_eq {a b : Nat} (h : a + b ≤ u64Max) : satAdd64 a b = a + b := min_eq_left h

theorem satAdd128_eq {a b : Nat} (h : a + b ≤ u128Max) : satAdd128 a b = a + b := min_eq_left h

theorem checkedAdd128_eq_some {a b c : Nat} :
    checkedAdd128 a b = some c ↔ a + b ≤ u128Max ∧ c = a + b := by
  unfold checkedAdd128
  split <;> simp_all [eq_comm]

/-! ### Byte encodings -/

/-- The UTF-8 bytes of a text of the source. -/
def utf8 (s : String) : Bytes := s.toUTF8.data.toList

/-- `bincode::serialize` in its default fixed-width configuration: integers
little-endian, a `u64` length before a sequence, a `u32` index before an enum
variant, one tag byte before an option. -/
class Bincode (α : Type) where
  encode : α → Bytes

export Bincode (encode)

namespace Bincode

def u64 (n : Nat) : Bytes := Bytes.ofNatLE 8 n
def u128 (n : Nat) : Bytes := Bytes.ofNatLE 16 n
def u32 (n : Nat) : Bytes := Bytes.ofNatLE 4 n

/-- A `String` or a `Vec<u8>`. -/
def bytes (bs : Bytes) : Bytes := u64 bs.length ++ bs

instance : Bincode Hash := ⟨Hash.asBytes⟩

instance {α : Type} [Bincode α] : Bincode (List α) :=
  ⟨fun xs => u64 xs.length ++ xs.flatMap encode⟩

instance {α : Type} [Bincode α] : Bincode (Option α) :=
  ⟨fun
    | none => [0]
    | some a => 1 :: encode a⟩

@[simp] theorem length_u64 (n : Nat) : (u64 n).length = 8 := by simp [u64]

@[simp] theorem length_u32 (n : Nat) : (u32 n).length = 4 := by simp [u32]

@[simp] theorem length_u128 (n : Nat) : (u128 n).length = 16 := by simp [u128]

@[simp] theorem length_bytes (bs : Bytes) : (bytes bs).length = 8 + bs.length := by simp [bytes]

theorem length_encode_list {α : Type} [Bincode α] (xs : List α) :
    (encode xs).length = 8 + (xs.map fun x => (encode x).length).sum := by
  change (u64 xs.length ++ xs.flatMap encode).length = _
  rw [List.length_append, length_u64, List.length_flatMap]

theorem length_encode_hashes (hs : List Hash) : (encode hs).length = 8 + 64 * hs.length := by
  rw [length_encode_list]
  change 8 + (hs.map fun h => h.asBytes.length).sum = _
  simp only [Hash.length_asBytes, List.map_const', List.sum_replicate, smul_eq_mul]
  rw [Nat.mul_comm]

end Bincode

/-! ### Consensus constants (`genesis.rs`, production build) -/

namespace Params

def genesisDomain : Bytes := utf8 "hassan-genesis-v31"
def accountPeerTransfers : Bool := false
def targetBlockTimeMs : Nat := 100
def maxBlockSize : Nat := 22 * 1024
def maxBlockBytes : Nat := 256 * 1024
def maxBlockParents : Nat := 10
def maxMergesetSize : Nat := 512
def daaWindow : Nat := 661
def minTxFee : Nat := 1000
def minFeePerByte : Nat := 1
def dustThreshold : Nat := 546
/-- `FINALITY_TARGET_HOURS * 3_600_000 / BLOCK_TIME_MS`. -/
def finalityDepth : Nat := 432000
def pruningDepth : Nat := 2 * finalityDepth
def genesisTimestampMs : UInt64 := 1785024000000
def maxFutureDriftMs : Nat := 2 * 60 * 60 * 1000
def chainId : Nat := 16858749123010493047
def coin : Nat := 100000000
def maxSupply : Nat := 25000000 * coin
def blockReward : Nat := 50 * coin
def halvingInterval : Nat := 250000
def bootstrapEraEnd : Nat := 1000000 * coin
def hardEraMinDifficulty : Nat := 2 ^ 24
def bootstrapMinDifficulty : Nat := 7000
def genesisDifficulty : UInt64 := 1
def pqPublicKeySize : Nat := 2592
def pqSignatureSize : Nat := 4627
def slhPublicKeySize : Nat := 64
def slhSignatureSize : Nat := 29792

end Params

open Params

/-- `block_subsidy`: the initial reward halved every `halvingInterval` blues. -/
def blockSubsidy (blueScore : Nat) : Nat :=
  let halvings := blueScore / halvingInterval
  if halvings ≥ 128 then 0 else blockReward >>> halvings

/-- `era_min_difficulty`; `easy` is the process-wide `lab_easy_pow` flag. -/
def eraMinDifficulty (easy : Bool) (mintedBefore : Nat) (_timestampMs : Nat) : Nat :=
  if easy || mintedBefore < bootstrapEraEnd then bootstrapMinDifficulty
  else hardEraMinDifficulty

/-- `effective_min_difficulty`: the floor at genesis supply. -/
def effectiveMinDifficulty (easy : Bool) : Nat :=
  eraMinDifficulty easy 0 genesisTimestampMs.toNat

theorem eraMinDifficulty_zero (easy : Bool) (ts : Nat) :
    eraMinDifficulty easy 0 ts = bootstrapMinDifficulty := by
  rw [eraMinDifficulty, if_pos]
  simp [bootstrapEraEnd, coin]

theorem eraMinDifficulty_lt (easy : Bool) (minted ts : Nat) : eraMinDifficulty easy minted ts < 2 ^ 64 := by
  unfold eraMinDifficulty bootstrapMinDifficulty hardEraMinDifficulty
  split <;> omega

/-! ### Signatures and digests (`abs_sig.rs`, `dual_sig.rs`, `lib.rs`) -/

section Signatures

variable [Crypto]

/-- `digest512`: domain-separated Blake3-512. -/
def digest512 (domain message : Bytes) : Hash :=
  Crypto.blake3 (utf8 "hassan-pq-512-v1" ++ domain ++ message)

/-- `verify_signature`: sizes first, then ML-DSA-87. -/
def verifySignature (publicKey message signature : Bytes) : Bool :=
  publicKey.length == pqPublicKeySize && signature.length == pqSignatureSize
    && Crypto.mlDsaVerify publicKey message signature

/-- `verify_pq512`: the signature is over the 512-bit prehash. -/
def verifyPq512 (domain message publicKey signature : Bytes) : Bool :=
  verifySignature publicKey (digest512 domain message).asBytes signature

/-- `dual_sig::verify`: the second, hash-based scheme. -/
def verifyDual (domain message publicKey signature : Bytes) : Bool :=
  publicKey.length == slhPublicKeySize && signature.length == slhSignatureSize
    && Crypto.slhDsaVerify publicKey (digest512 domain message).asBytes signature

/-- `address_hash`. -/
def addressHash (pubkey : Bytes) : Hash := digest512 (utf8 "address") pubkey

end Signatures

/-- The sample primitives accept every well-sized signature. -/
theorem verifyPq512_sample {publicKey signature : Bytes} (domain message : Bytes)
    (hkey : publicKey.length = pqPublicKeySize) (hsig : signature.length = pqSignatureSize) :
    @verifyPq512 sampleCrypto domain message publicKey signature = true := by
  have hscheme : ∀ pk msg sig, @Crypto.mlDsaVerify sampleCrypto pk msg sig = true :=
    fun _ _ _ => rfl
  simp [verifyPq512, verifySignature, hkey, hsig, hscheme]

end HassanNode
