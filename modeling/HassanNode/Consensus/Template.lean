import Mathlib
import HassanNode.Ledger.Drafts
import HassanNode.Ledger.Work
import HassanNode.Net.Stratum
import HassanNode.Consensus.Queues
import HassanNode.Consensus.Selection
import HassanNode.Consensus.Mining

/-!
# HassanNode.Consensus.Template

The producer (`consensus.rs`): a template over the best tips and the queues, a search for
a nonce on all cores, and the block that is assembled from what the search returns.

The chain may grow between any two of these, since none holds the lock of the one before:
each reads the state it finds and binds the commitments to it again.
-/

namespace HassanNode

open Std (ExtTreeMap)
open Params Worklist

/-! ### Account transfers -/

/-- The queued transfers of each sender by nonce. -/
abbrev SenderIndex := ExtTreeMap Address (ExtTreeMap Nat TransparentTx)

/-- `mempool_index_by_sender`: of two with the same nonce the later one stays. -/
def mempoolIndexBySender (transfers : List TransparentTx) : SenderIndex :=
  transfers.foldl (fun map tx => map.insert tx.from_ ((map[tx.from_]?.getD ∅).insert tx.nonce tx)) ∅

/-- The transfers with `count` nonces from `n` on. -/
def noncesFrom (byNonce : ExtTreeMap Nat TransparentTx) : (count n : Nat) → Option (List TransparentTx)
  | 0, _ => some []
  | count + 1, n => do
    let tx ← byNonce[n]?
    return tx :: (← noncesFrom byNonce count (n + 1))

/-- `ancestor_package`. -/
def ancestorPackage (byNonce : ExtTreeMap Nat TransparentTx) (tipNonce targetNonce : Nat) :
    Option (List TransparentTx) :=
  if targetNonce < tipNonce then none else noncesFrom byNonce (targetNonce - tipNonce + 1) tipNonce

/-- `cmp_package_feerate`. -/
def cmpPackageFeerate (feeA lenA feeB lenB : Nat) : Ordering :=
  compare (satMul128 feeA (max lenB 1)) (satMul128 feeB (max lenA 1))

/-- A candidate of `select_valid_block_txs`, with the fee and the size of its package. -/
structure RankedTransfer where
  from_ : Address
  nonce : Nat
  pkgFee : Nat
  pkgLen : Nat
  fee : Nat
  txHash : Hash

/-- The order of the candidates: the best package first. -/
def RankedTransfer.cmp (a b : RankedTransfer) : Ordering :=
  (cmpPackageFeerate a.pkgFee a.pkgLen b.pkgFee b.pkgLen).swap.then
    ((compare b.pkgFee a.pkgFee).then ((compare b.fee a.fee).then (compare a.txHash b.txHash)))

/-- What `select_valid_block_txs` keeps while it goes over the candidates. -/
structure TransferRun where
  bal : ExtTreeMap Address Nat := ∅
  nonceOverlay : ExtTreeMap Address Nat := ∅
  selected : List TransparentTx := []

namespace TransferRun

/-- The transfer with this sender and nonce is among the selected. -/
def has (run : TransferRun) (from_ : Address) (nonce : Nat) : Bool :=
  run.selected.any fun tx => tx.from_ == from_ && tx.nonce == nonce

variable [Crypto]

/-- One transfer of a package: a selected one is passed over, any other has to apply. -/
def addTransfer (st : ChainState) (run : TransferRun) (tx : TransparentTx) : Option TransferRun := do
  if run.has tx.from_ tx.nonce then return run
  if !tx.validateForm.isOk || tx.chainId != st.chainId || !tx.verify then none
  let curNonce := run.nonceOverlay[tx.from_]?.getD (st.accountNonce tx.from_)
  if tx.nonce ≠ curNonce then none
  let debit ← checkedAdd128 tx.amount tx.fee
  let curBal := run.bal[tx.from_]?.getD (st.live.accounts.entry tx.from_).balance
  if curBal < debit then none
  let curTo := run.bal[tx.to_]?.getD (st.live.accounts.entry tx.to_).balance
  let newTo ← checkedAdd128 curTo tx.amount
  return { bal := (run.bal.insert tx.from_ (curBal - debit)).insert tx.to_ newTo
           nonceOverlay := run.nonceOverlay.insert tx.from_ (satAdd64 curNonce 1)
           selected := run.selected ++ [tx] }

/-- One candidate: its whole package, or nothing of it. -/
def addPackage (st : ChainState) (bySender : SenderIndex) (run : TransferRun) (cand : RankedTransfer) : TransferRun :=
  let tip := run.nonceOverlay[cand.from_]?.getD (st.accountNonce cand.from_)
  if run.has cand.from_ cand.nonce || cand.nonce < tip then run
  else
    match bySender[cand.from_]?.bind fun byNonce => ancestorPackage byNonce tip cand.nonce with
    | none => run
    | some pkg => (pkg.foldlM (addTransfer st) run).getD run

end TransferRun

/-- The candidates of one sender, by nonce. -/
def rankSender [Crypto] (st : ChainState) (from_ : Address) (byNonce : ExtTreeMap Nat TransparentTx) :
    List RankedTransfer :=
  byNonce.toList.filterMap fun (nonce, tx) =>
    (ancestorPackage byNonce (st.accountNonce from_) nonce).map fun pkg =>
      { from_, nonce, pkgFee := (pkg.map TransparentTx.fee).sum % 2 ^ 128,
        pkgLen := max (pkg.map TransparentTx.relayBytes).sum 1, fee := tx.fee, txHash := tx.txHash }

/-- `select_valid_block_txs`. -/
def ChainState.selectValidBlockTxs [Crypto] (st : ChainState) (transfers : List TransparentTx) : List TransparentTx :=
  let bySender := mempoolIndexBySender transfers
  let ranked := bySender.toList.flatMap fun (from_, byNonce) => rankSender st from_ byNonce
  ((ranked.mergeSort fun a b => a.cmp b != .gt).foldl (TransferRun.addPackage st bySender) {}).selected

/-! ### Trimming -/

/-- `remove` at the first least fee (`min_by_key`). -/
def dropLowest {α : Type} (fee : α → Nat) (xs : List α) : List α :=
  match (xs.map fee).min? with
  | none => xs
  | some least => xs.eraseP fun x => fee x == least

namespace Block

/-- `too_big`. -/
def tooBig (b : Block) : Bool := !b.verifySize || decide (maxBlockBytes < b.wireSize)

/-- One turn of the trimming loop; nothing is left to drop in an empty body. -/
def dropOne (b : Block) : Option Block :=
  if b.transparentTxs ≠ [] then
    some { b with transparentTxs := dropLowest TransparentTx.fee b.transparentTxs }
  else if b.utxoTxs ≠ [] then some { b with utxoTxs := dropLowest UtxoTx.fee b.utxoTxs }
  else if b.registryOps ≠ [] then some { b with registryOps := b.registryOps.dropLast }
  else if b.custodyOps ≠ [] then some { b with custodyOps := b.custodyOps.dropLast }
  else none

/-- The trimming loop, for as many turns. -/
def trimLoop : (turns : Nat) → Block → Block
  | 0, b => b
  | turns + 1, b => if b.tooBig then (b.dropOne.map (trimLoop turns)).getD b else b

/-- The trimming loop: every turn takes an operation out of the body. -/
def trim (b : Block) : Block := trimLoop (b.items.length + 1) b

end Block

/-! ### The template -/

structure MiningWork where
  blockTemplate : Block
  target : Hash

structure Miner where
  address : Address
  publicKey : Bytes
  signingKey : Option Bytes

namespace ChainState

/-- The tips in the order of the template: higher scores first, then higher hashes. -/
def templateParents (st : ChainState) : List Hash :=
  (st.tips.mergeSort fun a b =>
    decide (st.ghostdag.scoreOf b < st.ghostdag.scoreOf a)
      || st.ghostdag.scoreOf a == st.ghostdag.scoreOf b && decide (b ≤ a)).take maxBlockParents

variable [Crypto]

/-- The template before the commitments. -/
def draftTemplate (st : ChainState) (easy : Bool) (timestamp entropy : UInt64) : Block where
  height := UInt64.ofNat (st.prunedSelectedBlocks + st.mainChain.length)
  timestamp
  parents := st.templateParents
  interlinks := []
  transparentTxs := (st.selectValidBlockTxs st.transparentMempool).take 1000
  utxoTxs := (st.selectValidUtxoTxs st.utxoMempool).take 1000
  registryOps := st.selectValidRegistryOps (st.registryMempool.take 500)
  custodyOps := st.selectValidCustodyOps (st.custodyMempool.take 200)
  merkleRoot := Hash.zero
  stateRoot := Hash.zero
  miner := Hash.zero
  creatorPubkey := []
  nonce := 0
  difficulty := UInt64.ofNat (st.expectedDifficultyAt easy st.templateParents timestamp.toNat)
  version := minerVersion [0, 1, 2]
  coinbaseEntropy := entropy
  starkProof := List.replicate 64 0
  birthCertificate := []
  size := 0

/-- `create_block_template`; an error is a panic of the producer. -/
def createBlockTemplate (st : ChainState) (easy : Bool) (timestamp entropy : UInt64) : Except String MiningWork := do
  let draft := st.draftTemplate easy timestamp entropy
  let bound ← (st.bindParentCommitments draft).mapError ("template parents must yield a selected parent: " ++ ·)
  let trimmed := bound.trim
  let template ← (st.bindParentCommitments { trimmed with merkleRoot := trimmed.bodyRoot }).mapError
    ("post-trim commitments: " ++ ·)
  return { blockTemplate := template, target := powTarget draft.difficulty }

end ChainState

/-! ### The search -/

section Search

variable [Crypto]

/-- One lane of the search: every `numLanes`-th nonce, as many as it has time for. -/
def searchLane (block : Block) (target : Hash) (numLanes : UInt64) : (attempts : Nat) → UInt64 → Option UInt64
  | 0, _ => none
  | attempts + 1, nonce =>
    if hashMeetsTarget { block with nonce }.hash target then some nonce
    else searchLane block target numLanes attempts (nonce + numLanes)

/-- How a search goes: the number of lanes, and the lanes in the order in which they end,
each with the number of nonces it had time for (`find_map_any` promises no order). -/
structure Schedule where
  numLanes : UInt64
  lanes : List (UInt64 × Nat)

/-- What the search returns. -/
structure MinerShare where
  nonce : UInt64
  miner : Address
  result : Hash

/-- The template with the identity of a miner, before the commitments. -/
def MiningWork.identify (work : MiningWork) (publicKey : Bytes) (nonce : UInt64) : Block :=
  let block := { work.blockTemplate with nonce, creatorPubkey := publicKey, miner := addressHash publicKey }
  { block with merkleRoot := block.bodyRoot }

/-- `check_miner_shares`: the first registered miner searches. -/
def checkMinerShares (st : ChainState) (miners : List Miner) (work : MiningWork) (schedule : Schedule) :
    Option MinerShare := do
  let m ← miners.head?
  if !Address.matchesPubkey m.address m.publicKey then none
  else do
    let template ← (st.bindParentCommitments (work.identify m.publicKey work.blockTemplate.nonce)).toOption
    let nonce ← schedule.lanes.findSome? fun lane =>
      searchLane template work.target schedule.numLanes lane.2 lane.1
    return { nonce, miner := m.address, result := { template with nonce }.hash }

end Search

/-! ### The block -/

/-- The proof that comes with a block, which the node leaves to its STARK package. -/
class Proving where
  /-- The winterfell proof of the sequential work on these header bytes. -/
  prove : (header : Bytes) → Bytes

namespace Stark

/-- The modulus of `f128::BaseElement`. -/
def modulus : Nat := 2 ^ 128 - 45 * 2 ^ 40 + 1

def sequentialSteps : Nat := 128

/-- `seed_from_bytes`: the first sixteen bytes, with zeros behind a shorter input. -/
def seedFromBytes (header : Bytes) : Nat := Bytes.toNatBE ((header.take 16).rightpad 16 0) % modulus

/-- `step`. -/
def step (state : Nat) : Nat := (state ^ 3 + 42) % modulus

/-- The last state of `build_trace`. -/
def result (header : Bytes) : Nat := step^[sequentialSteps - 1] (seedFromBytes header)

/-- `prove`: the result in sixteen bytes, and the proof. -/
def prove [Proving] (header : Bytes) : Bytes :=
  Bytes.padLeft 16 (Bytes.ofNatBE (result header)) ++ Proving.prove header

end Stark

section Assemble

variable [Crypto] [Signing] [Proving]

/-- `assemble_block`. -/
def assembleBlock (st : ChainState) (miners : List Miner) (work : MiningWork) (share : MinerShare) :
    Except String Block := do
  match miners.find? fun m => m.address == share.miner with
  | none => .error "No registered miner for share address"
  | some m =>
    match m.signingKey with
    | none => .error "Miner has no signing key for birth certificate"
    | some signingKey =>
      ensure (Address.matchesPubkey share.miner m.publicKey) "Share miner address does not match creator pubkey"
      let block ← st.bindParentCommitments (work.identify m.publicKey share.nonce)
      let birthCertificate ← signPq512 (utf8 "birth-certificate") block.settlementId signingKey
      let proven := { block with birthCertificate, starkProof := Stark.prove block.hash.asBytes }
      return { proven with size := proven.wireSize }

end Assemble

/-! ### What goes into a template -/

theorem dropLowest_sublist {α : Type} (fee : α → Nat) (xs : List α) : (dropLowest fee xs).Sublist xs := by
  unfold dropLowest
  split
  · exact .refl xs
  · exact List.eraseP_sublist

namespace Block

/-- A block with fewer operations. -/
structure Trimmed (b b' : Block) : Prop where
  transparent : b'.transparentTxs.Sublist b.transparentTxs
  utxo : b'.utxoTxs.Sublist b.utxoTxs
  registry : b'.registryOps.Sublist b.registryOps
  custody : b'.custodyOps.Sublist b.custodyOps
  rest : b' = { b with
    transparentTxs := b'.transparentTxs, utxoTxs := b'.utxoTxs, registryOps := b'.registryOps,
    custodyOps := b'.custodyOps }

theorem Trimmed.refl (b : Block) : b.Trimmed b := ⟨.refl _, .refl _, .refl _, .refl _, rfl⟩

theorem Trimmed.trans {b b' b'' : Block} (h : b.Trimmed b') (h' : b'.Trimmed b'') : b.Trimmed b'' := by
  refine ⟨h'.transparent.trans h.transparent, h'.utxo.trans h.utxo, h'.registry.trans h.registry,
    h'.custody.trans h.custody, ?_⟩
  conv_lhs => rw [h'.rest, h.rest]

theorem dropOne_trimmed {b b' : Block} (h : b.dropOne = some b') : b.Trimmed b' := by
  unfold dropOne at h
  split at h
  · obtain rfl := Option.some.inj h
    exact ⟨dropLowest_sublist _ _, .refl _, .refl _, .refl _, rfl⟩
  · split at h
    · obtain rfl := Option.some.inj h
      exact ⟨.refl _, dropLowest_sublist _ _, .refl _, .refl _, rfl⟩
    · split at h
      · obtain rfl := Option.some.inj h
        exact ⟨.refl _, .refl _, List.dropLast_sublist _, .refl _, rfl⟩
      · split at h
        · obtain rfl := Option.some.inj h
          exact ⟨.refl _, .refl _, .refl _, List.dropLast_sublist _, rfl⟩
        · cases h

theorem trimLoop_trimmed (turns : Nat) (b : Block) : b.Trimmed (trimLoop turns b) := by
  induction turns generalizing b with
  | zero => exact .refl b
  | succ turns ih =>
      unfold trimLoop
      split
      · cases hdrop : b.dropOne with
        | none => exact .refl b
        | some b' => exact (dropOne_trimmed hdrop).trans (ih b')
      · exact .refl b

end Block

namespace ChainState

variable [Crypto] {st : ChainState}

theorem selectValidBlockTxs_nil : st.selectValidBlockTxs [] = [] := by
  have hranked : (mempoolIndexBySender []).toList = [] := rfl
  rw [selectValidBlockTxs]
  dsimp only
  rw [hranked, List.flatMap_nil, List.mergeSort_nil]
  rfl

/-- A selected operation is of this chain, and signed. -/
theorem selectValidRegistryOps_valid {ops : List RegistryOp} :
    ∀ op ∈ st.selectValidRegistryOps ops, op.chainId = st.chainId ∧ op.verify = true := by
  intro op hop
  obtain ⟨s, s', htaken⟩ := takeEach_taken hop
  unfold tryRegistryOp at htaken
  split at htaken
  · cases htaken
  · rename_i hsigned
    simpa using hsigned

/-- A selected certificate names an owner, and is one of the candidates. -/
theorem selectValidCustodyOps_valid {ops : List CustodyCertificate} :
    ∀ op ∈ st.selectValidCustodyOps ops, op ∈ ops ∧ Address.isValid op.owner = true := by
  intro op hop
  obtain ⟨l, l', htaken⟩ := takeEach_taken hop
  refine ⟨(takeEach_sublist _ _).subset hop, ?_⟩
  cases happly : l.applyCustodyOp st.chainId op with
  | error e =>
      rw [happly] at htaken
      cases htaken
  | ok _ =>
      unfold Ledger.applyCustodyOp at happly
      split at happly
      · cases happly
      · split at happly
        · cases happly
        · split at happly
          · cases happly
          · rename_i howner
            simpa using howner

omit [Crypto] in
theorem templateParents_sublist (st : ChainState) : ∃ order, order.Perm st.tips ∧ st.templateParents.Sublist order :=
  ⟨_, List.mergeSort_perm _ _, List.take_sublist _ _⟩

end ChainState

end HassanNode
