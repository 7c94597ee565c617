import Mathlib
import HassanNode.Ledger.Predicate

/-!
# HassanNode.Ledger.Tx

Everything a block body can carry, as data: UTXO spends (`utxo.rs`,
`utxo_tx.rs`), title and escrow operations (`registry.rs`), custody
certificates (`custody.rs`) and the consensus-disabled account transfers
(`lib.rs`). For each: the bytes that are signed, the ids derived from them, the
`bincode` form and the checks that read nothing but the item itself.
-/

namespace HassanNode

open Params Bincode

/-! ### UTXO spends -/

/-- Reference to a created output. -/
@[ext] structure OutPoint where
  txid : Hash
  vout : UInt32
  deriving DecidableEq

namespace OutPoint

/-- The pair as one number, ordered as the derived `Ord` orders the pair. -/
def key (op : OutPoint) : Nat := op.txid.toNat * 2 ^ 32 + op.vout.toNat

theorem key_injective : Function.Injective key := by
  intro a b h
  have ha := a.vout.toNat_lt
  have hb := b.vout.toNat_lt
  simp only [key] at h
  refine OutPoint.ext (Hash.ext (by omega)) (UInt32.toNat_inj.mp (by omega))

instance : LinearOrder OutPoint := LinearOrder.lift' key key_injective

instance : Std.LawfulEqOrd OutPoint where
  eq_of_compare h := compare_eq_iff_eq.mp h

instance : Std.TransOrd OutPoint := inferInstance

/-- `OutPoint::coinbase`: the mint outpoint, `vout = u32::MAX`. -/
def coinbase (coinbaseTxid : Hash) : OutPoint := ⟨coinbaseTxid, 0xffffffff⟩

def isCoinbase (op : OutPoint) : Bool := op.vout == 0xffffffff

end OutPoint

/-- A created output. -/
structure TxOut where
  value : Nat
  predicate : Predicate
  createdBlue : Nat
  deriving DecidableEq

/-- One spend of a previous outpoint. -/
structure TxIn where
  previous : OutPoint
  relativeLockBlues : UInt32
  witness : UnlockWitness

/-- A signed UTXO spend. -/
structure UtxoTx where
  inputs : List TxIn
  outputs : List TxOut
  lockBlueScore : Nat
  fee : Nat
  chainId : Nat
  fromPubkey : Bytes
  signature : Bytes

instance : Bincode OutPoint := ⟨fun op => op.txid.asBytes ++ u32 op.vout.toNat⟩

instance : Bincode TxOut :=
  ⟨fun o => u128 o.value ++ encode o.predicate ++ u64 o.createdBlue⟩

instance : Bincode TxIn :=
  ⟨fun i => encode i.previous ++ u32 i.relativeLockBlues.toNat ++ encode i.witness⟩

instance : Bincode UtxoTx :=
  ⟨fun tx => encode tx.inputs ++ encode tx.outputs ++ u64 tx.lockBlueScore ++ u128 tx.fee
    ++ u64 tx.chainId ++ Bincode.bytes tx.fromPubkey ++ Bincode.bytes tx.signature⟩

def coinbaseMaturityBlues : Nat := 100
def utxoDust : Nat := 546

namespace UtxoTx

/-- `relay_bytes`: the wire size, an unsigned draft priced as if signed. -/
def relayBytes (tx : UtxoTx) : Nat :=
  let priced := if tx.signature.length ≠ pqSignatureSize
    then { tx with signature := List.replicate pqSignatureSize 0 } else tx
  (encode priced).length

def minFeeRequired (tx : UtxoTx) : Nat := max (satMul128 tx.relayBytes minFeePerByte) minTxFee

/-- The signed part of one input. -/
def inputSigningBytes (i : TxIn) : Bytes :=
  i.previous.txid.asBytes ++ u32 i.previous.vout.toNat ++ u32 i.relativeLockBlues.toNat

/-- `signing_bytes`: witnesses and creation scores are not signed. -/
def signingBytes (tx : UtxoTx) : Bytes :=
  u64 tx.lockBlueScore ++ u128 tx.fee ++ u64 tx.chainId ++ u32 tx.inputs.length
    ++ tx.inputs.flatMap inputSigningBytes ++ u32 tx.outputs.length
    ++ tx.outputs.flatMap (fun o => u128 o.value ++ encode o.predicate)

/-- The per-output checks of `validate_form`. -/
def validateOutput (out : TxOut) : Except String Unit :=
  if out.value = 0 then .error "Output value must be > 0"
  else if !out.predicate.isAccountCredit && out.value < utxoDust then
    .error s!"Output below dust ({utxoDust})"
  else match out.predicate.lockedAddress with
    | none => .ok ()
    | some addr =>
      if !Address.isValid addr then .error "Invalid output address"
      else if !Address.isBech32m addr then
        .error "New UTXO outputs must use bech32m hsn1… addresses"
      else .ok ()

/-- `validate_form`. -/
def validateForm (tx : UtxoTx) : Except String Unit :=
  if tx.inputs = [] then .error "UtxoTx requires at least one input"
  else if tx.outputs = [] then .error "UtxoTx requires at least one output"
  else if tx.outputs.length > 64 then .error "Too many outputs"
  else if tx.inputs.length > 64 then .error "Too many inputs"
  else if tx.fromPubkey.length ≠ pqPublicKeySize then .error "Invalid from_pubkey length"
  else if tx.fee < tx.minFeeRequired then .error s!"Fee must be ≥ {tx.minFeeRequired}"
  else if ¬ (tx.inputs.map (·.previous)).Nodup then .error "Duplicate input outpoint"
  else do
    tx.outputs.forM validateOutput
    if tx.signature.length ≠ pqSignatureSize ∧ tx.signature ≠ [] then
      .error "Invalid signature length"
    else .ok ()

section Ids

variable [Crypto]

def fromAddress (tx : UtxoTx) : Address := Address.ofPubkey tx.fromPubkey

def verify (tx : UtxoTx) : Bool :=
  verifyPq512 (utf8 "utxo-tx") tx.signingBytes tx.fromPubkey tx.signature

/-- The witness-free id. -/
def txid (tx : UtxoTx) : Hash := digest512 (utf8 "utxo-txid") (tx.signingBytes ++ tx.signature)

/-- The bytes behind `tx_hash`, witnesses included. -/
def hashBytes (tx : UtxoTx) : Bytes :=
  tx.signingBytes ++ tx.signature ++ tx.inputs.flatMap (fun i => encode i.witness)

/-- `tx_hash`: the id created outpoints carry. -/
def txHash (tx : UtxoTx) : Hash := digest512 (utf8 "utxo-tx-hash") tx.hashBytes

end Ids

end UtxoTx

/-! ### Titles and escrows -/

/-- Asset class of a title. -/
inductive AssetClass
  | vehicle | loan | stake | realEstate | generic
  deriving DecidableEq

namespace AssetClass

def asStr : AssetClass → Bytes
  | .vehicle => utf8 "vehicle"
  | .loan => utf8 "loan"
  | .stake => utf8 "stake"
  | .realEstate => utf8 "real_estate"
  | .generic => utf8 "generic"

def index : AssetClass → Nat
  | .vehicle => 0 | .loan => 1 | .stake => 2 | .realEstate => 3 | .generic => 4

end AssetClass

/-- What a registry operation does. Every variant of the source's `RegistryOp`
also carries the signer key, nonce, chain id and signature; these are the
fields of `RegistryOp` here. -/
inductive RegistryAction
  | issueTitle (owner : Address) (assetClass : AssetClass) (description : Bytes)
      (titleSeed : Hash)
  | transferTitle (titleId : Hash) (to_ : Address) (memo : Bytes)
  | openEscrow (buyer seller : Address) (arbiter : Option Address) (amount : Nat)
      (titleId : Option Hash) (memo : Bytes) (escrowSeed : Hash) (timeoutBlue : Nat)
  | fundEscrow (escrowId : Hash) (amount : Nat)
  | releaseEscrow (escrowId : Hash)
  | refundEscrow (escrowId : Hash)
  | timeoutClaimEscrow (escrowId : Hash)
  deriving DecidableEq

/-- A signed registry operation. -/
structure RegistryOp where
  fromPubkey : Bytes
  action : RegistryAction
  nonce : Nat
  chainId : Nat
  signature : Bytes
  deriving DecidableEq

namespace RegistryOp

/-- The signed bytes of the variant's own fields. -/
def actionSigningBytes : RegistryAction → Bytes
  | .issueTitle owner cls description seed =>
    utf8 "issue-title-v1" ++ owner ++ cls.asStr ++ description ++ seed.asBytes
  | .transferTitle titleId to_ memo =>
    utf8 "transfer-title-v1" ++ titleId.asBytes ++ to_ ++ memo
  | .openEscrow buyer seller arbiter amount titleId memo seed timeoutBlue =>
    utf8 "open-escrow-v3" ++ buyer ++ seller ++ arbiter.getD [] ++ u128 amount
      ++ titleId.elim [] Hash.asBytes ++ memo ++ seed.asBytes ++ u64 timeoutBlue
  | .fundEscrow escrowId amount => utf8 "fund-escrow-v1" ++ escrowId.asBytes ++ u128 amount
  | .releaseEscrow escrowId => utf8 "release-escrow-v1" ++ escrowId.asBytes
  | .refundEscrow escrowId => utf8 "refund-escrow-v1" ++ escrowId.asBytes
  | .timeoutClaimEscrow escrowId => utf8 "timeout-claim-escrow-v1" ++ escrowId.asBytes

def signingBytes (op : RegistryOp) : Bytes :=
  actionSigningBytes op.action ++ u64 op.nonce ++ u64 op.chainId

/-- The `bincode` variant index and own fields. -/
def actionBytes (pubkey : Bytes) : RegistryAction → Bytes
  | .issueTitle owner cls description seed =>
    u32 0 ++ pubkey ++ Bincode.bytes owner ++ u32 cls.index ++ Bincode.bytes description
      ++ seed.asBytes
  | .transferTitle titleId to_ memo =>
    u32 1 ++ pubkey ++ titleId.asBytes ++ Bincode.bytes to_ ++ Bincode.bytes memo
  | .openEscrow buyer seller arbiter amount titleId memo seed timeoutBlue =>
    u32 2 ++ pubkey ++ Bincode.bytes buyer ++ Bincode.bytes seller
      ++ arbiter.elim [0] (fun a => 1 :: Bincode.bytes a) ++ u128 amount ++ encode titleId
      ++ Bincode.bytes memo ++ seed.asBytes ++ u64 timeoutBlue
  | .fundEscrow escrowId amount => u32 3 ++ pubkey ++ escrowId.asBytes ++ u128 amount
  | .releaseEscrow escrowId => u32 4 ++ pubkey ++ escrowId.asBytes
  | .refundEscrow escrowId => u32 5 ++ pubkey ++ escrowId.asBytes
  | .timeoutClaimEscrow escrowId => u32 6 ++ pubkey ++ escrowId.asBytes

instance : Bincode RegistryOp :=
  ⟨fun op => actionBytes (Bincode.bytes op.fromPubkey) op.action ++ u64 op.nonce
    ++ u64 op.chainId ++ Bincode.bytes op.signature⟩

variable [Crypto]

def verify (op : RegistryOp) : Bool :=
  verifyPq512 (utf8 "registry-op") op.signingBytes op.fromPubkey op.signature

def opHash (op : RegistryOp) : Hash := digest512 (utf8 "hassan-registry-op-v1") (encode op)

def signerAddress (op : RegistryOp) : Address := Address.ofPubkey op.fromPubkey

end RegistryOp

/-! ### Custody certificates -/

inductive CustodyKind
  | stakeLock | stakeUnlock | bridgeExit | bridgeEnter
  deriving DecidableEq

namespace CustodyKind

def tag : CustodyKind → Bytes
  | .stakeLock => utf8 "stake-lock"
  | .stakeUnlock => utf8 "stake-unlock"
  | .bridgeExit => utf8 "bridge-exit"
  | .bridgeEnter => utf8 "bridge-enter"

def index : CustodyKind → Nat
  | .stakeLock => 0 | .stakeUnlock => 1 | .bridgeExit => 2 | .bridgeEnter => 3

end CustodyKind

/-- The optional second signature of a certificate, hex-encoded. -/
structure DualSignature where
  scheme : Bytes
  publicKeyHex : Bytes
  signatureHex : Bytes
  deriving DecidableEq

structure CustodyCertificate where
  kind : CustodyKind
  blockHash : Hash
  settlementId : Bytes
  birthCertificate : Bytes
  issuerPubkey : Bytes
  foreignChainId : Nat
  amount : Nat
  titleId : Option Hash
  owner : Address
  nonce : Nat
  chainId : Nat
  signature : Bytes
  fromPubkey : Bytes
  dualSignature : Option DualSignature
  deriving DecidableEq

instance : Bincode DualSignature :=
  ⟨fun d => Bincode.bytes d.scheme ++ Bincode.bytes d.publicKeyHex
    ++ Bincode.bytes d.signatureHex⟩

instance : Bincode CustodyCertificate :=
  ⟨fun c => u32 c.kind.index ++ c.blockHash.asBytes ++ Bincode.bytes c.settlementId
    ++ Bincode.bytes c.birthCertificate ++ Bincode.bytes c.issuerPubkey
    ++ u64 c.foreignChainId ++ u128 c.amount ++ encode c.titleId ++ Bincode.bytes c.owner
    ++ u64 c.nonce ++ u64 c.chainId ++ Bincode.bytes c.signature
    ++ Bincode.bytes c.fromPubkey ++ encode c.dualSignature⟩

namespace CustodyCertificate

def messageBytes (c : CustodyCertificate) : Bytes :=
  utf8 "hassan-custody-v1" ++ c.blockHash.asBytes ++ c.settlementId ++ c.birthCertificate
    ++ u64 c.foreignChainId ++ u128 c.amount ++ c.titleId.elim [] Hash.asBytes ++ c.owner
    ++ u64 c.nonce ++ u64 c.chainId ++ c.kind.tag

variable [Crypto]

/-- `BirthCertificate::verify` over a settlement id. -/
def verifyBirth (signature settlementId issuerPubkey : Bytes) : Bool :=
  issuerPubkey.length == pqPublicKeySize
    && verifyPq512 (utf8 "birth-certificate") settlementId issuerPubkey signature

/-- `DualSignature::verify`. -/
def verifyDualSignature (d : DualSignature) (message : Bytes) : Bool :=
  match Address.hexDecode d.publicKeyHex, Address.hexDecode d.signatureHex with
  | some pk, some sig => verifyDual (utf8 "custody") message pk sig
  | _, _ => false

/-- `verify`: owner key, signature, optional second signature, and the birth
certificate of the anchoring block over `settlementIdBytes`. -/
def verify (c : CustodyCertificate) (settlementIdBytes : Bytes) : Except String Unit :=
  if c.fromPubkey.length ≠ pqPublicKeySize then .error "Invalid custody signer key"
  else if !Address.matchesPubkey c.owner c.fromPubkey then
    .error "Custody owner does not match signer"
  else if !verifyPq512 (utf8 "custody") c.messageBytes c.fromPubkey c.signature then
    .error "Invalid custody signature"
  else if c.dualSignature.any (fun d => !verifyDualSignature d c.messageBytes) then
    .error "Invalid secondary (SLH-DSA) custody signature"
  else if Address.hexEncode settlementIdBytes ≠ c.settlementId then
    .error "Settlement ID mismatch on custody certificate"
  else if !verifyBirth c.birthCertificate settlementIdBytes c.issuerPubkey then
    .error "Birth Certificate failed on custody anchor — block not authentic"
  else .ok ()

/-- Decode the hex settlement id to its 64 bytes. -/
def settlementBytes (c : CustodyCertificate) : Except String Bytes :=
  match Address.hexDecode c.settlementId with
  | none => .error "invalid hex in settlement id"
  | some bs => if bs.length ≠ 64 then .error "bad settlement id" else .ok bs

/-- `custody_fingerprint`. -/
def fingerprint (c : CustodyCertificate) : Hash := digest512 (utf8 "custody-fp") (encode c)

end CustodyCertificate

/-! ### Account transfers (consensus-disabled) -/

structure TransparentTx where
  from_ : Address
  fromPubkey : Bytes
  to_ : Address
  amount : Nat
  fee : Nat
  nonce : Nat
  chainId : Nat
  lockBlueScore : Nat
  relativeLockBlues : UInt32
  hashlock : Option Hash
  hashlockPreimage : Bytes
  signature : Bytes
  deriving DecidableEq

instance : Bincode TransparentTx :=
  ⟨fun tx => Bincode.bytes tx.from_ ++ Bincode.bytes tx.fromPubkey ++ Bincode.bytes tx.to_
    ++ u128 tx.amount ++ u128 tx.fee ++ u64 tx.nonce ++ u64 tx.chainId
    ++ u64 tx.lockBlueScore ++ u32 tx.relativeLockBlues.toNat ++ encode tx.hashlock
    ++ Bincode.bytes tx.hashlockPreimage ++ Bincode.bytes tx.signature⟩

namespace TransparentTx

def relayBytes (tx : TransparentTx) : Nat :=
  let priced := if tx.signature.length ≠ pqSignatureSize
    then { tx with signature := List.replicate pqSignatureSize 0 } else tx
  (encode priced).length

/-- `min_fee_required`, through `min_relay_fee_for_bytes`. -/
def minFeeRequired (tx : TransparentTx) : Nat :=
  max (satMul128 tx.relayBytes minFeePerByte) minTxFee

def validateForm (tx : TransparentTx) : Except String Unit :=
  if !Address.isValid tx.from_ then .error "Invalid from address"
  else if !Address.isValid tx.to_ then .error "Invalid to address"
  else if tx.amount = 0 then .error "Amount must be > 0"
  else if tx.amount < dustThreshold then
    .error s!"Amount below dust threshold ({dustThreshold} base units)"
  else if tx.fee < tx.minFeeRequired then
    .error s!"Fee must be ≥ {tx.minFeeRequired} (size {tx.relayBytes} B × {minFeePerByte}/B, floor {minTxFee})"
  else if (checkedAdd128 tx.amount tx.fee).isNone then .error "amount+fee overflow"
  else if tx.fromPubkey.length ≠ pqPublicKeySize then .error "Invalid from_pubkey length"
  else if tx.signature.length ≠ pqSignatureSize ∧ tx.signature ≠ [] then
    .error "Invalid signature length"
  else .ok ()

def signingBytes (tx : TransparentTx) : Bytes :=
  tx.from_ ++ tx.to_ ++ u128 tx.amount ++ u128 tx.fee ++ u64 tx.nonce ++ u64 tx.chainId
    ++ u64 tx.lockBlueScore ++ u32 tx.relativeLockBlues.toNat ++ encode tx.hashlock

variable [Crypto]

def verify (tx : TransparentTx) : Bool :=
  Address.matchesPubkey tx.from_ tx.fromPubkey
    && verifyPq512 (utf8 "transparent-tx") tx.signingBytes tx.fromPubkey tx.signature

def txHash (tx : TransparentTx) : Hash :=
  digest512 (utf8 "tx-hash") (tx.signingBytes ++ tx.signature ++ tx.hashlockPreimage)

end TransparentTx

end HassanNode
