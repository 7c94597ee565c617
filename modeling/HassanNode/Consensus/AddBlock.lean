import Mathlib
import HassanNode.Consensus.ChainState

/-!
# HassanNode.Consensus.AddBlock

`ChainState::add_block`: the admission rules in the order the source tries them
(`admission`, which only reads the state), and what accepting a block does
(`accept`): insertion, the finalized base, the live ledger, and on a node that
is not archival the two kinds of pruning. A run of a node is a list of calls;
a rejected call leaves the state as it was.
-/

namespace HassanNode

open Std (ExtTreeMap ExtTreeSet)
open Params

namespace ChainState

section Validate

variable [Crypto]

/-! ### Form of the transactions -/

/-- `validate_account_forms`. -/
def validateAccountForms (st : ChainState) (txs : List TransparentTx) : Except String Unit := do
  ensure (accountPeerTransfers || txs.isEmpty)
    "Account peer transfers disabled (v27); use UTXO for value moves"
  txs.forM fun tx => do
    tx.validateForm.mapError ("Transparent tx: " ++ ·)
    ensure (tx.chainId == st.chainId) "Transparent tx: wrong chain_id"
  ensure (txs.all (·.verify)) "Transparent tx: invalid signature"

/-- The input loop of `validate_utxo_forms`: outpoints spent so far. -/
def noteInputs (seen : List OutPoint) : List TxIn → Except String (List OutPoint)
  | [] => .ok seen
  | i :: inputs =>
    if seen.contains i.previous then .error "Utxo tx: duplicate outpoint within block"
    else noteInputs (i.previous :: seen) inputs

/-- The transaction loop of `validate_utxo_forms`. -/
def noteUtxoTxs (st : ChainState) (seen : List OutPoint) :
    List UtxoTx → Except String (List OutPoint)
  | [] => .ok seen
  | tx :: txs => do
    tx.validateForm.mapError ("Utxo tx: " ++ ·)
    ensure (tx.chainId == st.chainId) "Utxo tx: wrong chain_id"
    let seen ← noteInputs seen tx.inputs
    noteUtxoTxs st seen txs

/-- `validate_utxo_forms`. -/
def validateUtxoForms (st : ChainState) (txs : List UtxoTx) : Except String Unit := do
  let _ ← st.noteUtxoTxs [] txs
  ensure (txs.all (·.verify)) "Utxo tx: invalid signature"

/-- `validate_registry_ops`. -/
def validateRegistryOps (st : ChainState) (block : Block) : Except String Unit :=
  block.registryOps.forM fun op => do
    ensure (op.chainId == st.chainId) "Wrong chain_id on registry op"
    ensure op.verify "Invalid registry signature"

/-- The body of `validate_custody_ops`' loop: the certificate, then its anchor. -/
def validateCustodyOp (st : ChainState) (op : CustodyCertificate) : Except String Unit := do
  ensure (op.kind != .bridgeExit && op.kind != .bridgeEnter)
    "Bridge exit/enter disabled until a real cross-chain bridge ships"
  ensure (op.chainId == st.chainId) "Wrong chain_id on custody op"
  ensure (op.amount != 0) "Custody amount must be > 0"
  ensure (Address.isValid op.owner) "Invalid custody owner address"
  let sid ← op.settlementBytes
  (op.verify sid).mapError ("Custody: " ++ ·)
  match st.dag[op.blockHash]? with
  | none => .error "Custody: anchor block unknown"
  | some anchor =>
    ensure (!anchor.starkProof.isEmpty && !anchor.birthCertificate.isEmpty)
      "Custody: anchor block has no consensus witnesses"
    ensure (op.settlementId == Address.hexEncode anchor.settlementId)
      "Custody: settlement_id does not match anchor block"
    ensure (op.issuerPubkey == anchor.creatorPubkey)
      "Custody: issuer_pubkey does not match anchor block"
    ensure (op.birthCertificate == anchor.birthCertificate)
      "Custody: birth certificate does not match anchor block"

/-- `validate_custody_ops`. -/
def validateCustodyOps (st : ChainState) (block : Block) : Except String Unit :=
  block.custodyOps.forM st.validateCustodyOp

/-- `validate_block_transactions`. -/
def validateBlockTransactions (st : ChainState) (block : Block) : Except String Unit := do
  st.validateAccountForms block.transparentTxs
  st.validateUtxoForms block.utxoTxs
  st.validateRegistryOps block
  st.validateCustodyOps block

/-! ### Admission -/

/-- Size and parent list. -/
def checkShape (st : ChainState) (block : Block) : Except String Unit := do
  ensure (!st.dag.contains block.hash) "Block already known"
  ensure block.verifySize "Block base exceeds 22KB limit"
  ensure (block.wireSize ≤ maxBlockBytes) "Block (with witness) exceeds total size limit"
  ensure (!block.parents.isEmpty) "Block has no parents"
  ensure (block.parents.length ≤ maxBlockParents)
    s!"Too many parents: {block.parents.length} exceeds cap {maxBlockParents}"
  ensure (decide block.parents.Nodup) "Duplicate parent in block"
  ensure (block.parents.all st.dag.contains) "Unknown parent block"

/-- The finality rule: a selected chain known to avoid the finality point is
rejected. A block that is not indexed passes. -/
def checkFinality (st : ChainState) (block : Block) : Except String Unit :=
  match st.finalityPoint, st.ghostdag.selectParent block.parents with
  | some fp, some sp => ensure (st.reachability.isChainAncestor fp sp != some false)
      "Finality violation: block's selected chain does not include the finality point"
  | _, _ => .ok ()

/-- Work and the presence of the witnesses. -/
def checkWork (st : ChainState) (env : Env) (block : Block) : Except String Unit := do
  let required := st.expectedDifficultyAt env.labEasyPow block.parents block.timestamp.toNat
  ensure (block.difficulty.toNat == required)
    s!"Wrong difficulty: block's past requires {required}, block claims {block.difficulty}"
  ensure (verifyPow block.hash block.difficulty) "Invalid proof of work"
  ensure (!block.starkProof.isEmpty && !block.birthCertificate.isEmpty)
    "Header-only / empty-witness blocks are not consensus-admissible"
  (starkPrecheckFormat block.starkProof).mapError ("Invalid STARK proof: " ++ ·)

/-- Header commitments and timestamps. -/
def checkHeader (st : ChainState) (env : Env) (block : Block) (selectedParent : Hash) :
    Except String Unit := do
  let expectedInterlinks := (st.dag[selectedParent]?.map computeInterlinks).getD []
  ensure (block.interlinks == expectedInterlinks) "interlinks do not match selected parent"
  ensure (block.merkleRoot == block.bodyRoot)
    "merkle_root does not commit to the block's transactions"
  let maxParentTs :=
    ((block.parents.filterMap fun p => st.dag[p]?.map (·.timestamp.toNat)).max?).getD 0
  ensure (maxParentTs ≤ block.timestamp.toNat) "Block timestamp predates its parents"
  let mtp := st.pastMedianTime selectedParent
  ensure (mtp < block.timestamp.toNat)
    s!"Block timestamp {block.timestamp} not beyond past median time {mtp}"
  ensure (block.timestamp.toNat ≤ satAdd64 env.now maxFutureDriftMs)
    "Block timestamp too far in the future"

/-- `may_skip_stark_verify`, with the caller's reachability query. -/
def maySkipStarkVerify (st : ChainState) (env : Env) (hash : Hash) : Bool :=
  match env.pinnedDigest with
  | none => false
  | some pin =>
    hash == pin || (st.dag.contains pin && st.reachability.isAncestor st.dag hash pin)

/-- `try_compute_ghostdag_data` with this node's index as the oracle. -/
def computeGhostdag (st : ChainState) (parents : List Hash) : Except String GhostdagData :=
  tryComputeGhostdagData st.dag st.ghostdag (st.reachability.isAncestor st.dag) parents
    maxMergesetSize

/-- Everything `add_block` tests before it changes anything; the new block's
GHOSTDAG data. -/
def admission (st : ChainState) (env : Env) (block : Block) : Except String GhostdagData := do
  st.checkShape block
  st.checkFinality block
  st.checkWork env block
  match st.ghostdag.selectParent block.parents with
  | none => .error "Cannot select parent"
  | some selectedParent =>
    st.checkHeader env block selectedParent
    ensure (st.maySkipStarkVerify env block.hash || verifyStarkProof block) "Invalid STARK proof"
    block.verifyIssuance
    st.validateBlockTransactions block
    let gd ← st.computeGhostdag block.parents
    let expectedStateRoot ←
      st.postMergesetStateRoot selectedParent gd.merged block gd.blueScore
    ensure (block.stateRoot == expectedStateRoot) "state_root does not match post-mergeset tip state"
    return gd

end Validate

/-! ### Acceptance -/

section Accept

variable [Crypto]

/-- The tips after a block: its parents are none any more. -/
def nextTips (tips : List Hash) (parents : List Hash) (hash : Hash) : List Hash :=
  parents.foldl (fun tips parent => tips.filter (· ≠ parent)) tips ++ [hash]

/-- The new block in the DAG, the GHOSTDAG map, the index and the tips. -/
def insertBlock (st : ChainState) (env : Env) (block : Block) (gd : GhostdagData) : ChainState :=
  { st with
    dag := st.dag.insert block.hash block
    ghostdag := st.ghostdag.insert block.hash gd
    reachability := st.reachability.addBlock env.iter block.hash gd.selectedParent gd.merged
    tips := nextTips st.tips block.parents block.hash }

/-- The first block captures the seed ledger. -/
def captureBase (st : ChainState) : ChainState :=
  if st.baseCaptured then st else { st with base := st.live, baseCaptured := true }

/-- `advance_finalized_base`. -/
def advanceFinalizedBase (st : ChainState) : ChainState :=
  match st.finalityPoint with
  | none => st
  | some fp =>
    if st.baseFrontier = some fp then st
    else
      let order := st.canonicalOrder
      if !order.contains fp then st
      else
        let fpIdx := order.idxOf fp
        let start := st.replayStart order
        if start > fpIdx + 1 then st
        else
          let folded := st.applyAll st.base ((order.drop start).take (fpIdx + 1 - start))
          { st with live := folded, base := folded, baseFrontier := some fp }

/-- `recompute_virtual_state`. -/
def recomputeVirtualState (st : ChainState) : ChainState :=
  let order := st.canonicalOrder
  { st with live := st.applyAll st.base (order.drop (st.replayStart order)) }

/-- `drop_included_from_mempools`. -/
def dropIncludedFromMempools (st : ChainState) (block : Block) : ChainState :=
  { st with
    transparentMempool := st.transparentMempool.filter fun tx =>
      !block.transparentTxs.any fun b => b.from_ == tx.from_ && b.nonce == tx.nonce
    utxoMempool := st.utxoMempool.filter fun tx => !block.utxoTxs.any fun b => b.txid == tx.txid
    registryMempool := st.registryMempool.filter fun op =>
      !block.registryOps.any fun b => b.signerAddress == op.signerAddress && b.nonce == op.nonce
    custodyMempool := st.custodyMempool.filter fun op =>
      !block.custodyOps.any fun b => b.owner == op.owner && b.nonce == op.nonce && b.kind == op.kind }

/-- The cached difficulty of the next block. -/
def cacheDifficulty (st : ChainState) (env : Env) : ChainState :=
  let tipTs := ((st.tips.filterMap fun h => st.dag[h]?.map (·.timestamp.toNat)).max?).getD
    genesisTimestampMs.toNat
  { st with difficulty :=
      st.expectedDifficultyAt env.labEasyPow st.tips (satAdd64 tipTs targetBlockTimeMs) }

/-- Clear one body and try to drop the block from the index. -/
def pruneBody (st : ChainState) (h : Hash) : ChainState :=
  { st with
    dag := match st.dag[h]? with
      | none => st.dag
      | some b => st.dag.insert h b.clearBody
    reachability := st.reachability.dropLeaf h }

/-- `prune_bodies`. -/
def pruneBodies (st : ChainState) (env : Env) : ChainState :=
  if st.archival || st.selectedTipBlueScore ≤ finalityDepth then st
  else
    let threshold := st.selectedTipBlueScore - finalityDepth
    let toPrune := (env.iter st.dag.keys).filter fun h =>
      st.scoreOrMax h ≤ threshold && !((st.dag[h]?.map Block.isBodyEmpty).getD true)
    toPrune.foldl pruneBody st

/-- Cut the selected-parent link to a block that is gone. -/
def rerootGhostdag (keep : Hash → Bool) (gd : GhostdagMap) : GhostdagMap :=
  gd.map fun _ d => { d with selectedParent := d.selectedParent.filter keep }

/-- `prune_history`, given the new pruning point. -/
def pruneTo (st : ChainState) (pp : Hash) (index : Nat) : ChainState :=
  let ppScore := st.ghostdag.scoreOf pp
  let keep (h : Hash) : Bool := st.dag.contains h
    && (st.ghostdag[h]?.map fun d => decide (d.blueScore ≥ ppScore)).getD true
  if st.dag.keys.all keep then st
  else
    let pruned : ChainState :=
      { st with
        dag := st.dag.filter fun h _ => keep h
        ghostdag := rerootGhostdag keep (st.ghostdag.filter fun h _ => keep h)
        reachability := st.reachability.retain keep
        tips := st.tips.filter keep
        prunedSelectedBlocks := st.prunedSelectedBlocks + index
        pruningPoint := some pp }
    let ledger := (pruned.ledgerViaGenesisReplay pp).filter fun l =>
      pruned.dag[pp]?.map Block.stateRoot == some l.merkleRoot
    { pruned with pruningLedger := ledger.or st.pruningLedger }.orderMainChain

/-- `prune_history`. -/
def pruneHistory (st : ChainState) : ChainState :=
  if st.archival then st
  else
    match st.selectedTip with
    | none => st
    | some tip =>
      let tipScore := st.ghostdag.scoreOf tip
      if tipScore ≤ pruningDepth then st
      else
        let chain := st.ghostdag.selectedChain tip
        match st.lastBelow (tipScore - pruningDepth) chain with
        | none => st
        | some pp => st.pruneTo pp (chain.idxOf pp)

/-- What accepting a block does, before pruning. -/
def acceptFull (st : ChainState) (env : Env) (block : Block) (gd : GhostdagData) : ChainState :=
  ((((st.insertBlock env block gd).orderMainChain.captureBase.advanceFinalizedBase
    ).recomputeVirtualState.dropIncludedFromMempools block).cacheDifficulty env)

/-- What accepting a block does. -/
def accept (st : ChainState) (env : Env) (block : Block) (gd : GhostdagData) : ChainState :=
  ((st.acceptFull env block gd).pruneBodies env).pruneHistory

/-- `add_block`. -/
def addBlock (st : ChainState) (env : Env) (block : Block) : Except String ChainState :=
  (st.admission env block).map (st.accept env block)

/-- One call on a node: the new state, or the old one. -/
def step (st : ChainState) (call : Env × Block) : ChainState :=
  match st.addBlock call.1 call.2 with
  | .ok st' => st'
  | .error _ => st

/-- A run of calls. -/
def run (st : ChainState) (calls : List (Env × Block)) : ChainState := calls.foldl step st

end Accept

end ChainState

end HassanNode
