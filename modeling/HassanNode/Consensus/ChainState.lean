import Mathlib
import HassanNode.Ledger.State
import HassanNode.Consensus.Reachability

/-!
# HassanNode.Consensus.ChainState

The node's state (`ChainState` of `lib.rs`) and its read-only functions:
selection, finality, canonical order, replay, difficulty and median time.

The seven value fields of the source's struct are one `Ledger` here (`live`), as
in its own `snapshot_ledger` / `restore_ledger`. Blue scores, heights and
timestamps are natural numbers.
-/

namespace HassanNode

open Std (ExtTreeMap ExtTreeSet)
open Params

/-- What a call reads from its process: the clock, the two process-wide
settings, and the order in which hash maps happen to be iterated. -/
structure Env where
  now : Nat
  labEasyPow : Bool
  pinnedDigest : Option Hash
  iter : List Hash → List Hash
  iter_perm : ∀ xs, (iter xs).Perm xs

structure ChainState where
  dag : Dag
  tips : List Hash
  mainChain : List Hash
  live : Ledger
  difficulty : Nat
  chainId : Nat
  transparentMempool : List TransparentTx := []
  utxoMempool : List UtxoTx := []
  registryMempool : List RegistryOp := []
  custodyMempool : List CustodyCertificate := []
  ghostdag : GhostdagMap
  reachability : Reachability
  archival : Bool := false
  base : Ledger := {}
  baseCaptured : Bool := false
  baseFrontier : Option Hash := none
  pruningPoint : Option Hash := none
  pruningLedger : Option Ledger := none
  prunedSelectedBlocks : Nat := 0

namespace ChainState

/-! ### Selection and finality -/

/-- The current selected tip. -/
def selectedTip (st : ChainState) : Option Hash := st.ghostdag.selectedTip st.tips

/-- `selected_tip_blue_score`. -/
def selectedTipBlueScore (st : ChainState) : Nat :=
  ((st.selectedTip.bind (st.ghostdag[·]?)).map GhostdagData.blueScore).getD 0

/-- A block's blue score, or the largest one for an unknown block. -/
def scoreOrMax (st : ChainState) (h : Hash) : Nat :=
  (st.ghostdag[h]?.map GhostdagData.blueScore).getD u64Max

/-- The deepest block of `chain`, root first, among those at most at `threshold`. -/
def lastBelow (st : ChainState) (threshold : Nat) (chain : List Hash) : Option Hash :=
  (chain.takeWhile fun h => st.scoreOrMax h ≤ threshold).getLast?

/-- `finality_point`. -/
def finalityPoint (st : ChainState) : Option Hash := do
  let tip ← st.selectedTip
  let tipScore ← st.ghostdag[tip]?.map GhostdagData.blueScore
  if tipScore ≤ finalityDepth then none
  else st.lastBelow (tipScore - finalityDepth) (st.ghostdag.selectedChain tip)

/-- `order_main_chain`. -/
def orderMainChain (st : ChainState) : ChainState :=
  match st.selectedTip with
  | none => st
  | some tip => { st with mainChain := st.ghostdag.selectedChain tip }

/-- Append a block that has not been emitted yet. -/
def emit (order : List Hash) (h : Hash) : List Hash :=
  if order.contains h then order else order ++ [h]

/-- The merged blocks of a chain block that are still in the DAG. -/
def mergedIn (st : ChainState) (h : Hash) : List Hash :=
  ((st.ghostdag[h]?.map GhostdagData.merged).getD []).filter st.dag.contains

/-- `canonical_order_at`: along the selected chain, the merged blocks that are
still in the DAG, then the chain block, each once. -/
def canonicalOrderAt (st : ChainState) (tip : Hash) : List Hash :=
  if !st.ghostdag.contains tip then []
  else (st.ghostdag.selectedChain tip).foldl
    (fun order h => emit ((st.mergedIn h).foldl emit order) h) []

/-- `canonical_order`. -/
def canonicalOrder (st : ChainState) : List Hash :=
  match st.selectedTip with
  | none => []
  | some tip => st.canonicalOrderAt tip

/-- `replay_start`: the index after the frontier; `0` when it is not found. -/
def replayStart (st : ChainState) (order : List Hash) : Nat :=
  match st.baseFrontier with
  | none => 0
  | some f => if order.contains f then order.idxOf f + 1 else 0

section Replay

variable [Crypto]

/-- `apply_block_effects` on this state's own DAG, one block after another. -/
def applyAll (st : ChainState) (l : Ledger) (hs : List Hash) : Ledger :=
  hs.foldl (fun l h => match st.dag[h]? with
    | none => l
    | some b => l.applyBlockEffects st.chainId st.selectedTipBlueScore
        (st.ghostdag[b.hash]?.map GhostdagData.blueScore) b) l

/-- One block of a replay in a throwaway state: its GHOSTDAG data is copied
first, and there are no tips. -/
def simStep (st : ChainState) (sim : Ledger × GhostdagMap) (h : Hash) : Ledger × GhostdagMap :=
  match st.dag[h]? with
  | none => sim
  | some b =>
    let gd := match st.ghostdag[h]? with
      | none => sim.2
      | some d => sim.2.insert h d
    (sim.1.applyBlockEffects st.chainId 0 (gd[b.hash]?.map GhostdagData.blueScore) b, gd)

/-- The ledger a throwaway state starts from. -/
def simBase (st : ChainState) : Ledger := if st.baseCaptured then st.base else st.live

/-- `virtual_state_at`: the ledger and the GHOSTDAG data of the throwaway state. -/
def virtualStateAt (st : ChainState) (tip : Hash) : Ledger × GhostdagMap :=
  let order := st.canonicalOrderAt tip
  (order.drop (st.replayStart order)).foldl st.simStep (st.simBase, ∅)

/-- `merkle_root_at`. -/
def merkleRootAt (st : ChainState) (tip : Hash) : Hash := (st.virtualStateAt tip).1.merkleRoot

/-- `merkle_root`. -/
def merkleRoot (st : ChainState) : Hash := st.live.merkleRoot

/-- `supply_invariant_ok`. -/
def supplyInvariantOk (st : ChainState) : Bool := st.live.supplyInvariantOk

/-- The SP virtual plus the mergeset, where the block's own body is tried. -/
def mergesetVirtual (st : ChainState) (selectedParent : Hash) (mergeset : List Hash) :
    Ledger × GhostdagMap :=
  mergeset.foldl st.simStep (st.virtualStateAt selectedParent)

/-- `post_mergeset_state_root`. -/
def postMergesetStateRoot (st : ChainState) (selectedParent : Hash) (mergeset : List Hash)
    (block : Block) (blueScore : Nat) : Except String Hash := do
  let (l, fees) ← (st.mergesetVirtual selectedParent mergeset).1.simulateApplyBlockBody
    st.chainId 0 blueScore block
  return (l.applyBlockReward block blueScore fees).merkleRoot

/-- `ledger_via_genesis_replay`. The throwaway state is a new one, which has
the genesis block's data, and the seed's UTXOs are not copied. -/
def ledgerViaGenesisReplay (st : ChainState) (tip : Hash) : Option Ledger :=
  let seed : Ledger := if st.baseCaptured then {} else { st.live with utxo := {} }
  let order := st.canonicalOrderAt tip
  if order.all st.dag.contains then
    some (order.foldl st.simStep
      (seed, (∅ : GhostdagMap).insert genesisBlock.hash GhostdagData.genesis)).1
  else none

end Replay

/-! ### Difficulty and time -/

/-- `retarget_difficulty`. -/
def retargetDifficulty (baseDifficulty newestTs oldestTs floor : Nat) : Nat :=
  let actualSpanMs := max (newestTs - oldestTs) 1
  let targetSpanMs := daaWindow * targetBlockTimeMs
  let sp := max baseDifficulty floor
  let raw := satMul128 sp targetSpanMs / actualSpanMs
  let up := max (sp * 5 / 4) (sp + 1)
  let down := max (sp * 3 / 4) floor
  max ((max down (min up raw)) % 2 ^ 64) floor

/-- The DAA window: `(timestamp, difficulty)` samples and the blocks seen. -/
abbrev DaaSamples := List (Nat × Nat) × ExtTreeSet Hash

/-- Sample one blue block, once, while the window is not full. -/
def addSample (st : ChainState) (acc : DaaSamples) (blue : Hash) : DaaSamples :=
  if acc.1.length ≥ daaWindow || acc.2.contains blue then acc
  else
    match st.dag[blue]? with
    | none => (acc.1, acc.2.insert blue)
    | some b => (acc.1 ++ [(b.timestamp.toNat, max b.difficulty.toNat 1)], acc.2.insert blue)

/-- The walk of `collect_daa_blue_samples`. -/
def daaWalk (st : ChainState) : (fuel : Nat) → Hash → DaaSamples → DaaSamples
  | 0, _, acc => acc
  | fuel + 1, h, acc =>
    if acc.1.length ≥ daaWindow then acc
    else
      match st.ghostdag[h]? with
      | none => acc
      | some gd =>
        let sampled := gd.mergesetBlues.foldl st.addSample acc
        let solo := if gd.mergesetBlues.isEmpty then st.addSample sampled h else sampled
        match gd.selectedParent with
        | none => solo
        | some p => daaWalk st fuel p solo

/-- `collect_daa_blue_samples`. -/
def collectDaaBlueSamples (st : ChainState) (selectedParent : Hash) : List (Nat × Nat) :=
  (st.daaWalk (st.ghostdag.scoreOf selectedParent + 1) selectedParent ([], ∅)).1

/-- `expected_difficulty_at`. -/
def expectedDifficultyAt (st : ChainState) (easy : Bool) (parents : List Hash)
    (timestampMs : Nat) : Nat :=
  let floor := eraMinDifficulty easy st.live.mintedSupply timestampMs
  match st.ghostdag.selectParent parents with
  | none => floor
  | some sp =>
    let spDifficulty :=
      max ((st.dag[sp]?.map (·.difficulty.toNat)).getD (effectiveMinDifficulty easy)) floor
    let samples := st.collectDaaBlueSamples sp
    let daa :=
      if samples.length < daaWindow then spDifficulty
      else
        let newest := ((samples.map Prod.fst).max?).getD 0
        let oldest := ((samples.map Prod.fst).min?).getD 0
        let work := (samples.map Prod.snd).sum
        let avgDiff := max ((work / samples.length) % 2 ^ 64) floor
        let scaled := retargetDifficulty avgDiff newest oldest floor
        let up := max (spDifficulty * 5 / 4) (spDifficulty + 1)
        let down := max (spDifficulty * 3 / 4) floor
        (max down (min up scaled)) % 2 ^ 64
    max daa floor

/-- The timestamps along the selected chain from `tip`, at most `n`. -/
def chainTimes (st : ChainState) : (n : Nat) → Hash → List Nat
  | 0, _ => []
  | n + 1, cur =>
    match st.dag[cur]? with
    | none => []
    | some b =>
      b.timestamp.toNat :: match st.ghostdag[cur]?.bind GhostdagData.selectedParent with
        | none => []
        | some sp => if sp = cur then [] else chainTimes st n sp

/-- `past_median_time`. -/
def pastMedianTime (st : ChainState) (tip : Hash) : Nat :=
  let times := (st.chainTimes 11 tip).mergeSort (· ≤ ·)
  times.getD (times.length / 2) 0

/-! ### A new node -/

section New

variable [Crypto]

/-- `ChainState::new`: the genesis block and nothing else. -/
def new (easy : Bool) : ChainState where
  dag := (∅ : Dag).insert genesisBlock.hash genesisBlock
  tips := [genesisBlock.hash]
  mainChain := [genesisBlock.hash]
  live := {}
  difficulty := effectiveMinDifficulty easy
  chainId := Params.chainId
  ghostdag := (∅ : GhostdagMap).insert genesisBlock.hash GhostdagData.genesis
  reachability := Reachability.new.addBlock id genesisBlock.hash none []

/-- A new node in one of the two modes, with a seed ledger set before mining. -/
def seeded (easy archival : Bool) (seed : Ledger) : ChainState :=
  { new easy with archival := archival, live := seed }

end New

end ChainState

end HassanNode
