import Mathlib
import HassanNode.Lib.Fallible
import HassanNode.Ledger.Registry

/-!
# HassanNode.Ledger.State

The value state (`Ledger` of `lib.rs`) and the executors of a block body.

The source has two executors over the same operations. `apply_block_effects`
replays a block that is already in the DAG and skips what does not apply;
`simulate_apply_block_body` runs at admission and rejects the block at the
first operation that does not apply. Both go through the body in the same
order (`Block.items`) with the same step (`Ledger.applyItem`), so here they are
`skipEach` and `strictEach` of one function.
-/

namespace HassanNode

open Std (ExtTreeMap)
open Params Bincode

/-- Everything that is a function of the applied transactions. -/
@[ext] structure Ledger where
  accounts : Accounts := ∅
  mintedSupply : Nat := 0
  feesBurned : Nat := 0
  treasury : Nat := 0
  registry : RegistryState := {}
  staked : ExtTreeMap Address Nat := ∅
  utxo : UtxoSet := {}

/-- One operation of a block body. -/
inductive BodyItem
  | transparent (tx : TransparentTx)
  | utxo (tx : UtxoTx)
  | registry (op : RegistryOp)
  | custody (op : CustodyCertificate)

/-- The body of a block, in the order both executors go through it. -/
def Block.items (b : Block) : List BodyItem :=
  b.transparentTxs.map .transparent ++ b.utxoTxs.map .utxo ++ b.registryOps.map .registry
    ++ b.custodyOps.map .custody

/-- What an executor is told: the chain id, the selected tip's blue score (only
account transfers read it), the media blue score, and the carrying block. -/
structure ItemCtx where
  chainId : Nat
  tipScore : Nat
  mediaBlue : Nat
  timestamp : UInt64
  height : UInt64
  settlementIdHex : Bytes

namespace Ledger

section Items

variable [Crypto]

/-- `merkle_root`: the state commitment. Titles, escrows, stakes, the treasury
and the spent set are not part of it. -/
def merkleRoot (l : Ledger) : Hash :=
  Crypto.blake3 (utf8 "hassan-state-root-v2"
    ++ l.accounts.toList.flatMap (fun (addr, acc) =>
        addr ++ u128 acc.balance ++ u64 acc.nonce ++ u64 acc.lastSpendBlue)
    ++ l.utxo.commitment.asBytes ++ u128 l.mintedSupply ++ u128 l.feesBurned)

/-- `apply_transparent_tx`. The production build rejects every account
transfer at the first test. -/
def applyTransparentTx (l : Ledger) (chainId mediaBlue : Nat) (tx : TransparentTx) :
    Except String Ledger :=
  if !accountPeerTransfers then
    .error "Account peer transfers disabled (v27); use UTXO for value moves"
  else do
    tx.validateForm
    if tx.chainId ≠ chainId then .error "Wrong chain_id"
    else if !tx.verify then .error "Invalid signature"
    else if tx.lockBlueScore > 0 ∧ mediaBlue < tx.lockBlueScore then
      .error s!"Absolute lock: media blue {mediaBlue} < lock {tx.lockBlueScore}"
    else
      let sender := l.accounts.entry tx.from_
      let unlockAt := satAdd64 sender.lastSpendBlue tx.relativeLockBlues.toNat
      if tx.relativeLockBlues > 0 ∧ mediaBlue < unlockAt then
        .error s!"Relative lock: media blue {mediaBlue} < unlock {unlockAt}"
      else if tx.hashlock.any (fun h => hashlockCommitment tx.hashlockPreimage ≠ h) then
        .error "Hashlock preimage mismatch"
      else if tx.nonce ≠ sender.nonce then
        .error s!"Bad nonce: expected {sender.nonce}, got {tx.nonce}"
      else
        match checkedAdd128 tx.amount tx.fee with
        | none => .error "amount+fee overflow"
        | some total =>
          if sender.balance < total then .error "Insufficient balance"
          else
            match checkedAdd128 (l.accounts.entry tx.to_).balance tx.amount with
            | none => .error "Recipient balance overflow"
            | some newRecipientBalance =>
              let debited : Accounts := l.accounts.insert tx.from_
                { sender with
                  balance := sender.balance - total,
                  nonce := satAdd64 sender.nonce 1,
                  lastSpendBlue := mediaBlue }
              let credited := debited.insert tx.to_
                { debited.entry tx.to_ with balance := newRecipientBalance }
              .ok { l with accounts := credited }

/-- `apply_custody_op`: stake lock and unlock; the bridge is disabled. -/
def applyCustodyOp (l : Ledger) (chainId : Nat) (op : CustodyCertificate) :
    Except String Ledger :=
  if op.chainId ≠ chainId then .error "Wrong chain_id"
  else if op.amount = 0 then .error "Custody amount must be > 0"
  else if !Address.isValid op.owner then .error "Invalid custody owner"
  else do
    let sid ← op.settlementBytes
    op.verify sid
    let acct := l.accounts.entry op.owner
    let locked := l.staked[op.owner]?.getD 0
    if op.nonce ≠ acct.nonce then .error "Bad custody nonce"
    else
      match op.kind with
      | .stakeLock =>
        if acct.balance < op.amount then .error "Insufficient free balance to stake"
        else .ok { l with
          accounts := l.accounts.insert op.owner
            { acct with balance := acct.balance - op.amount, nonce := satAdd64 acct.nonce 1 }
          staked := l.staked.insert op.owner (wrapAdd128 locked op.amount) }
      | .stakeUnlock =>
        if locked < op.amount then .error "Insufficient staked balance"
        else .ok { l with
          accounts := l.accounts.insert op.owner
            { acct with balance := wrapAdd128 acct.balance op.amount,
                        nonce := satAdd64 acct.nonce 1 }
          staked := l.staked.insert op.owner (locked - op.amount) }
      | .bridgeExit | .bridgeEnter =>
        .error "Bridge exit/enter disabled until a real cross-chain bridge ships"

/-- Run one operation against a ledger and the fees collected so far. -/
def applyItem (ctx : ItemCtx) (s : Ledger × Nat) :
    BodyItem → (Ledger × Nat) × Except String Unit
  | .transparent tx =>
    match s.1.applyTransparentTx ctx.chainId ctx.tipScore tx with
    | .ok l => ((l, satAdd128 s.2 tx.fee), .ok ())
    | .error e => (s, .error e)
  | .utxo tx =>
    match applyUtxoTx s.1.utxo s.1.accounts tx ctx.mediaBlue with
    | ((utxo, accounts), .ok fee) => (({ s.1 with utxo, accounts }, satAdd128 s.2 fee), .ok ())
    | ((utxo, accounts), .error e) => (({ s.1 with utxo, accounts }, s.2), .error e)
  | .registry op =>
    match s.1.registry.applyOp s.1.accounts op
        { timestamp := ctx.timestamp, height := ctx.height,
          settlementIdHex := ctx.settlementIdHex, blueScore := ctx.mediaBlue } with
    | ((registry, accounts), res) => (({ s.1 with registry, accounts }, s.2), res)
  | .custody op =>
    match s.1.applyCustodyOp ctx.chainId op with
    | .ok l => ((l, s.2), .ok ())
    | .error e => (s, .error e)

/-- The same operation at admission: the wrong chain id is an error of its own,
and every other error says which kind of operation failed. -/
def admitItem (ctx : ItemCtx) (s : Ledger × Nat) (item : BodyItem) :
    (Ledger × Nat) × Except String Unit :=
  match item with
  | .transparent _ => ((applyItem ctx s item).1, (applyItem ctx s item).2.mapError
      ("Transparent tx does not apply on mergeset virtual: " ++ ·))
  | .utxo tx =>
    if tx.chainId ≠ ctx.chainId then (s, .error "Utxo tx: wrong chain_id")
    else ((applyItem ctx s item).1, (applyItem ctx s item).2.mapError
      ("Utxo tx does not apply on mergeset virtual: " ++ ·))
  | .registry _ => ((applyItem ctx s item).1, (applyItem ctx s item).2.mapError
      ("Registry op does not apply on mergeset virtual: " ++ ·))
  | .custody _ => ((applyItem ctx s item).1, (applyItem ctx s item).2.mapError
      ("Custody op does not apply on mergeset virtual: " ++ ·))

end Items

/-! ### Whole blocks -/

section Blocks

variable [Crypto]

/-- The executor context of a block's body. -/
def itemCtx (chainId tipScore mediaBlue : Nat) (b : Block) : ItemCtx where
  chainId := chainId
  tipScore := tipScore
  mediaBlue := mediaBlue
  timestamp := b.timestamp
  height := b.height
  settlementIdHex := Address.hexEncode b.settlementId

/-- `simulate_apply_block_body`: every operation must apply; the fees. -/
def simulateApplyBlockBody (l : Ledger) (chainId tipScore mediaBlue : Nat) (b : Block) :
    Except String (Ledger × Nat) :=
  strictEach (admitItem (itemCtx chainId tipScore mediaBlue b)) (l, 0) b.items

/-- `apply_block_reward`: mint the coinbase output, subsidy plus fees. -/
def applyBlockReward (l : Ledger) (b : Block) (blueScore fees : Nat) : Ledger :=
  let subsidy := min (blockSubsidy blueScore) (maxSupply - l.mintedSupply)
  let total := satAdd128 subsidy fees
  if total = 0 then l
  else
    { l with
      mintedSupply := if subsidy > 0 then satAdd128 l.mintedSupply subsidy else l.mintedSupply
      utxo := l.utxo.insert (.coinbase b.coinbaseTxid)
        { value := total, predicate := .payToAddress (Address.encodeHash b.miner),
          createdBlue := blueScore } }

/-- `apply_block_effects`, given the block's own blue score where GHOSTDAG data
has one and the selected tip's score: skip what does not apply, then mint. -/
def applyBlockEffects (l : Ledger) (chainId tipScore : Nat) (score : Option Nat) (b : Block) :
    Ledger :=
  if b.parents = [] then l
  else
    let (l', fees) :=
      skipEach (applyItem (itemCtx chainId tipScore (score.getD tipScore) b)) (l, 0) b.items
    l'.applyBlockReward b (score.getD 0) fees

end Blocks

/-! ### Supply -/

/-- The sum of the free balances. -/
def accountsTotal (l : Ledger) : Nat := Map.sumBy Account.balance l.accounts

/-- The sum of the stakes. -/
def stakedTotal (l : Ledger) : Nat := Map.sumBy id l.staked

/-- The coins held by escrows. -/
def escrowTotal (l : Ledger) : Nat := Map.sumBy EscrowAccount.funded l.registry.escrows

/-- `supply_invariant_ok`. -/
def supplyInvariantOk (l : Ledger) : Bool :=
  satAdd128 (satAdd128 (satAdd128 l.accountsTotal l.stakedTotal) l.utxo.totalValue) l.feesBurned
    == l.mintedSupply

end Ledger

end HassanNode
