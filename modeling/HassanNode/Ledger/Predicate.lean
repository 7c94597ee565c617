import Mathlib
import HassanNode.Core.Address

/-!
# HassanNode.Ledger.Predicate

Spend predicates and unlock witnesses of transparent outputs
(`predicate.rs`): the predicate tree, its static queries (`is_account_credit`,
`locked_address`, `depth`) and the evaluator.
-/

namespace HassanNode

open Params

/-- Spending condition committed in an output. -/
inductive Predicate
  | payToAddress (address : Address)
  | hashLock (hash : Hash)
  | absoluteLock (address : Address) (unlockBlue : Nat)
  | relativeLock (address : Address) (relativeBlues : UInt32)
  | and (left right : Predicate)
  | or (left right : Predicate)
  | multiSig (n : UInt8) (addresses : List Address)
  | creditAccount (address : Address)
  | annulAfter (address : Address) (expireBlue : Nat)
  | exactValue (value : Nat) (inner : Predicate)
  | commitData (commit : Hash)
  deriving DecidableEq

/-- Witness data supplied by an input to unlock a predicate. -/
inductive UnlockWitness
  | signature
  | preimage (bytes : Bytes)
  | stack (items : List UnlockWitness)
  | cosignerAddress (address : Address)
  | cosignerSig (pubkey signature : Bytes)

namespace Predicate

/-! ### Static queries -/

/-- `is_account_credit`: some leaf credits the account overlay. -/
def isAccountCredit : Predicate → Bool
  | .creditAccount _ => true
  | .and l r | .or l r => l.isAccountCredit || r.isAccountCredit
  | .exactValue _ inner => inner.isAccountCredit
  | _ => false

/-- `locked_address`: the address of the leftmost leaf, if it has one. -/
def lockedAddress : Predicate → Option Address
  | .payToAddress a | .absoluteLock a _ | .relativeLock a _ | .annulAfter a _
  | .creditAccount a => some a
  | .and l _ | .or l _ => l.lockedAddress
  | .exactValue _ inner => inner.lockedAddress
  | .hashLock _ | .multiSig _ _ | .commitData _ => none

/-- Nesting depth (the evaluator's denial-of-service bound). -/
def depth : Predicate → Nat
  | .and l r | .or l r => 1 + max l.depth r.depth
  | .exactValue _ inner => 1 + inner.depth
  | _ => 1

/-- `bincode` of a predicate. -/
def toBytes : Predicate → Bytes
  | .payToAddress a => Bincode.u32 0 ++ Bincode.bytes a
  | .hashLock h => Bincode.u32 1 ++ h.asBytes
  | .absoluteLock a b => Bincode.u32 2 ++ Bincode.bytes a ++ Bincode.u64 b
  | .relativeLock a b => Bincode.u32 3 ++ Bincode.bytes a ++ Bincode.u32 b.toNat
  | .and l r => Bincode.u32 4 ++ l.toBytes ++ r.toBytes
  | .or l r => Bincode.u32 5 ++ l.toBytes ++ r.toBytes
  | .multiSig n as =>
    Bincode.u32 6 ++ [n] ++ Bincode.u64 as.length ++ as.flatMap Bincode.bytes
  | .creditAccount a => Bincode.u32 7 ++ Bincode.bytes a
  | .annulAfter a b => Bincode.u32 8 ++ Bincode.bytes a ++ Bincode.u64 b
  | .exactValue v inner => Bincode.u32 9 ++ Bincode.u128 v ++ inner.toBytes
  | .commitData h => Bincode.u32 10 ++ h.asBytes

instance : Bincode Predicate := ⟨toBytes⟩

end Predicate

/-- `bincode` of a witness. -/
def UnlockWitness.toBytes : UnlockWitness → Bytes
  | .signature => Bincode.u32 0
  | .preimage p => Bincode.u32 1 ++ Bincode.bytes p
  | .stack ws => Bincode.u32 2 ++ Bincode.u64 ws.length ++ ws.flatMap toBytes
  | .cosignerAddress a => Bincode.u32 3 ++ Bincode.bytes a
  | .cosignerSig pk sig => Bincode.u32 4 ++ Bincode.bytes pk ++ Bincode.bytes sig

instance : Bincode UnlockWitness := ⟨UnlockWitness.toBytes⟩

/-! ### Evaluation -/

def maxPredDepth : Nat := 8
def maxStack : Nat := 16

section Eval

variable [Crypto]

/-- `hashlock_commitment`. -/
def hashlockCommitment (preimage : Bytes) : Hash :=
  Crypto.blake3 (utf8 "hassan-hashlock-v1" ++ preimage)

/-- The preimage arm shared by `HashLock` and `CommitData`: a preimage of
`hash`, possibly wrapped in one-element stacks. -/
def evalPreimage (name : String) (mismatch : String) (hash : Hash) :
    UnlockWitness → Except String Unit
  | .preimage pre =>
    if hashlockCommitment pre ≠ hash then .error (name ++ ": " ++ mismatch ++ " mismatch")
    else .ok ()
  | .stack [w] => evalPreimage name mismatch hash w
  | _ => .error (name ++ ": expected preimage witness")

/-- The owner check shared by the address-locked predicates. -/
def checkOwner (name : String) (address signer : Address) : Except String Unit :=
  if !Address.equivalent address signer then
    .error (name ++ ": signer does not own output")
  else .ok ()

/-- The witness loop of `eval_multisig`: each cosigner must be a set member and
supply a real signature; `present` collects the distinct members seen. -/
def evalCosigners (addresses : List Address) (msg : Bytes) :
    List UnlockWitness → (present : List Address) → Except String (List Address)
  | [], present => .ok present
  | w :: ws, present =>
    match w with
    | .cosignerAddress _ => .error "MultiSig: CosignerAddress tags are not signatures"
    | .cosignerSig pubkey signature =>
      if pubkey.length ≠ pqPublicKeySize then .error "MultiSig: cosigner pubkey length"
      else if signature.length ≠ pqSignatureSize then
        .error "MultiSig: cosigner signature length"
      else
        match addresses.find? (Address.equivalent · (Address.ofPubkey pubkey)) with
        | none => .error "MultiSig: cosigner not in set"
        | some key =>
          if !verifyPq512 (utf8 "utxo-tx") msg pubkey signature then
            .error "MultiSig: cosigner signature invalid"
          else evalCosigners addresses msg ws (present.insert key)
    | .signature => evalCosigners addresses msg ws present
    | .stack _ | .preimage _ => .error "MultiSig: unexpected nested witness"

/-- `eval_multisig`. -/
def evalMultisig (n : UInt8) (addresses : List Address) (witness : UnlockWitness)
    (signer : Address) (sighash : Option Bytes) : Except String Unit :=
  if n = 0 ∨ addresses = [] ∨ n.toNat > addresses.length then
    .error "MultiSig: invalid n-of-m"
  else
    match addresses.find? (Address.equivalent · signer), sighash with
    | none, _ => .error "MultiSig: primary signer not in set"
    | some _, none => .error "MultiSig: missing sighash for cosigner verify"
    | some primary, some msg => do
      let stack ← match witness with
        | .signature => .ok []
        | .stack s => if s.length > maxStack then .error "Witness stack too large" else .ok s
        | .cosignerAddress _ => .error "MultiSig: CosignerAddress tags are not signatures"
        | .cosignerSig _ _ | .preimage _ =>
          .error "MultiSig: expected Signature or Stack witness"
      let present ← evalCosigners addresses msg stack [primary]
      if present.length < n.toNat then
        .error s!"MultiSig: need {n} cosigners, have {present.length}"
      else .ok ()

/-- `eval_inner`. -/
def evalInner (signer : Address) (mediaBlue createdBlue : Nat) (sighash : Option Bytes) :
    Predicate → UnlockWitness → Except String Unit
  | .payToAddress address, w => do
    checkOwner "PayToAddress" address signer
    match w with
    | .signature | .stack _ => .ok ()
    | _ => .error "PayToAddress: expected signature witness"
  | .absoluteLock address unlockBlue, _ =>
    if mediaBlue < unlockBlue then 
      .error s!"AbsoluteLock: media blue {mediaBlue} < unlock_blue {unlockBlue}"
    else checkOwner "AbsoluteLock" address signer
  | .relativeLock address relativeBlues, _ =>
    let need := satAdd64 createdBlue relativeBlues.toNat
    if mediaBlue < need then
      .error s!"RelativeLock: media blue {mediaBlue} < created+rel {need}"
    else checkOwner "RelativeLock" address signer
  | .hashLock hash, w => evalPreimage "HashLock" "preimage" hash w
  | .and left right, .stack (w₀ :: w₁ :: ws) =>
    if (w₀ :: w₁ :: ws).length > maxStack then .error "Witness stack too large"
    else do
      evalInner signer mediaBlue createdBlue sighash left w₀
      evalInner signer mediaBlue createdBlue sighash right w₁
  | .and _ _, _ => .error "And: expected Stack of 2 witnesses"
  | .or left right, w =>
    let either (w : UnlockWitness) : Except String Unit :=
      if (evalInner signer mediaBlue createdBlue sighash left w).isOk
          || (evalInner signer mediaBlue createdBlue sighash right w).isOk
      then .ok () else .error "Or: neither branch unlocked"
    match w with
    | .stack (w₀ :: _) => either w₀
    | .signature => either .signature
    | .preimage p => either (.preimage p)
    | _ => .error "Or: empty witness"
  | .multiSig n addresses, w => evalMultisig n addresses w signer sighash
  | .creditAccount _, _ => .error "CreditAccount outputs are not spendable"
  | .annulAfter address expireBlue, _ =>
    if mediaBlue ≥ expireBlue then 
      .error s!"AnnulAfter: media blue {mediaBlue} ≥ expire_blue {expireBlue}"
    else checkOwner "AnnulAfter" address signer
  | .exactValue _ inner, w => evalInner signer mediaBlue createdBlue sighash inner w
  | .commitData commit, w => evalPreimage "CommitData" "commitment" commit w

/-- `evaluate_full`: bound the depth, then evaluate. -/
def evaluateFull (predicate : Predicate) (witness : UnlockWitness) (signer : Address)
    (mediaBlue createdBlue : Nat) (sighash : Option Bytes) : Except String Unit :=
  if predicate.depth > maxPredDepth then .error "Predicate nesting too deep"
  else evalInner signer mediaBlue createdBlue sighash predicate witness

end Eval

end HassanNode
