import Mathlib
import HassanNode.Ledger.Tx

/-!
# HassanNode.Ledger.Block

The block (`lib.rs`), the identities derived from it (`issuance.rs`,
`utxo.rs`), the proof-of-work test and the NIPoPoW interlinks
(`superproof.rs`).

Two identities matter to the ledger proofs. `Block.hash` covers every header
field except `coinbaseEntropy`; `coinbaseTxid` covers the fields that are fixed
before mining, so it does *not* see the nonce, the difficulty, the interlinks
or the state root.
-/

namespace HassanNode

open Params Bincode

structure Block where
  height : UInt64
  timestamp : UInt64
  parents : List Hash
  interlinks : List Hash
  transparentTxs : List TransparentTx
  utxoTxs : List UtxoTx
  registryOps : List RegistryOp
  custodyOps : List CustodyCertificate
  merkleRoot : Hash
  stateRoot : Hash
  miner : Hash
  creatorPubkey : Bytes
  nonce : UInt64
  difficulty : UInt64
  version : UInt32
  coinbaseEntropy : UInt64
  starkProof : Bytes
  birthCertificate : Bytes
  size : Nat

namespace Block

instance : Bincode Block :=
  ⟨fun b => u64 b.height.toNat ++ u64 b.timestamp.toNat ++ encode b.parents
    ++ encode b.interlinks ++ encode b.transparentTxs ++ encode b.utxoTxs
    ++ encode b.registryOps ++ encode b.custodyOps ++ b.merkleRoot.asBytes
    ++ b.stateRoot.asBytes ++ b.miner.asBytes ++ Bincode.bytes b.creatorPubkey
    ++ u64 b.nonce.toNat ++ u64 b.difficulty.toNat ++ u32 b.version.toNat
    ++ u64 b.coinbaseEntropy.toNat ++ Bincode.bytes b.starkProof
    ++ Bincode.bytes b.birthCertificate ++ u64 b.size⟩

/-- `base_size`: the serialized size without the two witnesses. -/
def baseSize (b : Block) : Nat := (encode { b with starkProof := [], birthCertificate := [] }).length

def verifySize (b : Block) : Bool := b.baseSize ≤ maxBlockSize

/-- `calculate_block_size`: the whole serialized size. -/
def wireSize (b : Block) : Nat := (encode b).length

/-- `is_body_empty`. -/
def isBodyEmpty (b : Block) : Bool :=
  b.transparentTxs.isEmpty && b.utxoTxs.isEmpty && b.registryOps.isEmpty
    && b.custodyOps.isEmpty && b.starkProof.isEmpty && b.birthCertificate.isEmpty

/-- What `prune_bodies` leaves of a block: everything `hash` reads. -/
def clearBody (b : Block) : Block :=
  { b with
    transparentTxs := [], utxoTxs := [], registryOps := [], custodyOps := [],
    starkProof := [], birthCertificate := [] }

/-! ### Identities -/

/-- `absorb_identity`: the bytes behind `hash` and the settlement id. -/
def identityBytes (b : Block) : Bytes :=
  genesisDomain ++ u64 b.height.toNat ++ u64 b.timestamp.toNat
    ++ b.parents.flatMap Hash.asBytes ++ u64 b.interlinks.length
    ++ b.interlinks.flatMap Hash.asBytes ++ b.merkleRoot.asBytes ++ b.stateRoot.asBytes
    ++ b.miner.asBytes ++ u64 b.creatorPubkey.length ++ b.creatorPubkey ++ u64 b.nonce.toNat
    ++ u64 b.difficulty.toNat ++ u32 b.version.toNat

/-- The bytes behind `coinbase_txid`. -/
def coinbaseBytes (b : Block) : Bytes :=
  utf8 "hassan-coinbase-txid-v22" ++ u64 b.height.toNat ++ u64 b.timestamp.toNat
    ++ u64 b.parents.length ++ b.parents.flatMap Hash.asBytes ++ b.miner.asBytes
    ++ b.merkleRoot.asBytes ++ u64 b.coinbaseEntropy.toNat ++ u64 b.creatorPubkey.length
    ++ b.creatorPubkey

variable [Crypto]

def hash (b : Block) : Hash := Crypto.blake3 b.identityBytes

/-- `settlement_id`: the 64 bytes of the permanent reference number. -/
def settlementId (b : Block) : Bytes :=
  (Crypto.blake3 (utf8 "hassan-settlement-id-v1" ++ b.identityBytes)).asBytes

/-- `coinbase_txid`. -/
def coinbaseTxid (b : Block) : Hash := Crypto.blake3 b.coinbaseBytes

/-- `merkle_root()`: the commitment to the body. -/
def bodyRoot (b : Block) : Hash :=
  if b.transparentTxs.isEmpty && b.utxoTxs.isEmpty && b.registryOps.isEmpty
      && b.custodyOps.isEmpty then Hash.zero
  else Crypto.blake3 (utf8 "hassan-block-body-v4"
    ++ u64 b.transparentTxs.length ++ b.transparentTxs.flatMap (·.txHash.asBytes)
    ++ u64 b.utxoTxs.length ++ b.utxoTxs.flatMap (·.txHash.asBytes)
    ++ u64 b.registryOps.length ++ b.registryOps.flatMap (·.opHash.asBytes)
    ++ u64 b.custodyOps.length ++ b.custodyOps.flatMap (·.fingerprint.asBytes))

/-- `verify_issuance`: the creator key owns the reward address and signed the
settlement id. -/
def verifyIssuance (b : Block) : Except String Unit :=
  if b.parents = [] then .ok ()
  else if b.creatorPubkey.length ≠ pqPublicKeySize then
    .error "Missing or malformed issuer public key"
  else if b.miner ≠ addressHash b.creatorPubkey then
    .error "miner / reward address does not match issuer public key"
  else if !CustodyCertificate.verifyBirth b.birthCertificate b.settlementId b.creatorPubkey then
    .error "Invalid birth certificate"
  else .ok ()

omit [Crypto] in
@[simp] theorem identityBytes_clearBody (b : Block) :
    b.clearBody.identityBytes = b.identityBytes := rfl

@[simp] theorem hash_clearBody (b : Block) : b.clearBody.hash = b.hash := rfl

@[simp] theorem coinbaseTxid_clearBody (b : Block) :
    b.clearBody.coinbaseTxid = b.coinbaseTxid := rfl

end Block

/-- `genesis_block`. -/
def genesisBlock : Block where
  height := 0
  timestamp := genesisTimestampMs
  parents := []
  interlinks := []
  transparentTxs := []
  utxoTxs := []
  registryOps := []
  custodyOps := []
  merkleRoot := Hash.zero
  stateRoot := Hash.zero
  miner := Hash.zero
  creatorPubkey := []
  nonce := 0
  difficulty := genesisDifficulty
  version := 0x20000000
  coinbaseEntropy := 0
  starkProof := List.replicate 64 0
  birthCertificate := []
  size := 0

/-! ### Proof of work and witnesses -/

/-- `MAX_TARGET`, as a number. -/
def maxTarget : Nat := 256 ^ 64 - 1

/-- `verify_pow`: the hash, big-endian, is strictly below `MAX_TARGET / difficulty`. -/
def verifyPow (hash : Hash) (difficulty : UInt64) : Bool :=
  hash.toNat < maxTarget / max difficulty.toNat 1

/-- `superblock_level`: how many doublings beyond its own difficulty the hash
reached, capped at 63. -/
def superblockLevel (hash : Hash) (difficulty : UInt64) : Nat :=
  if hash.toNat = 0 then 63
  else
    let achieved := maxTarget / hash.toNat
    let required := max difficulty.toNat 1
    if achieved ≤ required then 0 else min (Nat.log2 (achieved / required)) 63

def starkResultHeaderLen : Nat := 16
def maxStarkProofBytes : Nat := 24 * 1024

section Witness

variable [Crypto]

/-- `compute_interlinks`: the interlink vector of a child of `parent`. -/
def computeInterlinks (parent : Block) : List Hash :=
  let level := superblockLevel parent.hash parent.difficulty
  (List.range (max parent.interlinks.length (level + 1))).map fun i =>
    if i ≤ level then parent.hash else parent.interlinks.getD i Hash.zero

/-- `stark::precheck_format`. -/
def starkPrecheckFormat (proof : Bytes) : Except String Unit :=
  if proof.length ≤ starkResultHeaderLen then .error "too short"
  else if proof.length > maxStarkProofBytes then .error "too large"
  else if !Crypto.starkProofParses (proof.drop starkResultHeaderLen) then .error "malformed"
  else .ok ()

/-- `verify_stark_proof`. -/
def verifyStarkProof (block : Block) : Bool :=
  (starkPrecheckFormat block.starkProof).isOk
    && Crypto.starkVerify block.hash.asBytes (block.starkProof.take starkResultHeaderLen)
      (block.starkProof.drop starkResultHeaderLen)

end Witness

end HassanNode
