import Mathlib
import HassanNode.Consensus.SuperProofBuilt

/-!
# HassanNode.Net.Node

The node behind its peers (`Shared` of `p2p.rs`): the chain state together with
the orphan pool and the cold-start fields, the answers to requests, the ingest
loop of a received block and the two handlers that adopt a pruning proof.

The functions that only pace the traffic (in-flight sets, pending headers,
discovery, relay) are left out: they decide which requests are sent, never what
a message does to the chain. Instants of the monotonic clock are read off the
call's `now`.
-/

namespace HassanNode

open Std (ExtTreeMap ExtTreeSet)
open Params

/-! ### Constants -/

def protocolVersion : Nat := 7
def wireMagic : Bytes := [0x48, 0x53, 0x4e, 0x31]
def maxOrphans : Nat := 1000
def orphanTtlMs : Nat := 600 * 1000
def maxHeadersPerMsg : Nat := 2000
def maxLocatorHashes : Nat := 64
def banScoreThreshold : Nat := 100
def invalidBlockPenalty : Nat := 20
def invalidStarkPenalty : Nat := 50
def pruningProofRecentWindow : Nat := 2 * daaWindow

/-- `u32::saturating_add`. -/
def satAdd32 (a b : Nat) : Nat := min (a + b) (2 ^ 32 - 1)

/-- `str::contains`. -/
def mentions (message text : String) : Bool := decide (text.toList <:+: message.toList)

/-- `block_ban_penalty`. -/
def blockBanPenalty (message : String) : Nat :=
  if mentions message "STARK" then invalidStarkPenalty else invalidBlockPenalty

/-! ### The cheap block test -/

namespace ChainState

variable [Crypto]

/-- The parent loop of `precheck_block`. -/
def scanParents (st : ChainState) (seen : List Hash) : List Hash → Except String Unit
  | [] => .ok ()
  | p :: parents =>
    if seen.contains p then .error "Duplicate parent in block"
    else if !st.dag.contains p then .error "Unknown parent block"
    else st.scanParents (p :: seen) parents

/-- `precheck_block`. -/
def precheckBlock (st : ChainState) (env : Env) (block : Block) : Except String Unit := do
  ensure (!st.dag.contains block.hash) "Block already known"
  ensure block.verifySize "Block base exceeds 22KB limit"
  ensure (block.wireSize ≤ maxBlockBytes) "Block (with witness) exceeds total size limit"
  ensure (!block.parents.isEmpty) "Block has no parents"
  ensure (block.parents.length ≤ maxBlockParents) "Too many parents"
  st.scanParents [] block.parents
  let required := st.expectedDifficultyAt env.labEasyPow block.parents block.timestamp.toNat
  ensure (block.difficulty.toNat == required) "Wrong difficulty"
  ensure (verifyPow block.hash block.difficulty) "Invalid proof of work"
  ensure (!block.starkProof.isEmpty && !block.birthCertificate.isEmpty)
    "Header-only / empty-witness blocks are not consensus-admissible"
  (starkPrecheckFormat block.starkProof).mapError ("Invalid STARK proof: " ++ ·)
  match st.ghostdag.selectParent block.parents with
  | none => .error "Cannot select parent"
  | some selectedParent =>
    let expectedInterlinks := (st.dag[selectedParent]?.map computeInterlinks).getD []
    ensure (block.interlinks == expectedInterlinks) "interlinks do not match selected parent"

/-- `is_body_pruned`. -/
def isBodyPruned (st : ChainState) (h : Hash) : Bool := (st.dag[h]?.map Block.isBodyEmpty).getD false

/-- `tip_height`. -/
def tipHeight (st : ChainState) : Nat := satAdd64 st.prunedSelectedBlocks st.mainChain.length - 1

end ChainState

/-! ### Budget -/

/-- `StarkVerifyBudget`: the window of expensive verifications granted to a peer. -/
structure StarkVerifyBudget where
  windowStart : Nat := 0
  count : Nat := 0
  limit : Nat
  windowMs : Nat

/-- `try_consume`. -/
def StarkVerifyBudget.tryConsume (b : StarkVerifyBudget) (now : Nat) : Bool × StarkVerifyBudget :=
  if b.windowMs ≤ now - b.windowStart then (true, { b with windowStart := now, count := 1 })
  else (b.count < b.limit, { b with count := (b.count + 1) % 2 ^ 32 })

/-! ### The node -/

structure OrphanBlock where
  block : Block
  insertedAt : Nat

structure Node where
  chain : ChainState
  orphans : ExtTreeMap Hash (List OrphanBlock) := ∅
  knownAddrs : List Bytes := []
  verifiedPruningPoint : Option Hash := none
  expectingPruningProof : Bool := false
  expectingPruningLedger : Bool := false
  bestPruningWork : Nat := 0

inductive Message
  | hello (version : Nat) (magic : Bytes) (chainId blueScore : Nat)
  | getAddr
  | addr (addrs : List Bytes)
  | getTips
  | tips (hashes : List Hash)
  | getBlock (hash : Hash)
  | block (b : Block)
  | notFound (hash : Hash)
  | getUtxoTx (hash : Hash)
  | utxoTx (tx : UtxoTx)
  | getHeaders (locator : List Hash) (stopHash : Hash) (limit : Nat)
  | headers (hs : List Block)
  | getPruningProof
  | pruningProof (hs : List Block)
  | getMultiLevelPruningProof
  | multiLevelPruningProof (proof : MultiLevelPruningProof)
  | getPruningPointLedger (pp : Hash)
  | pruningPointLedger (msg : PruningPointLedger)

namespace Node

variable [Crypto]

/-! ### Answers -/

/-- Whether `GetBlock` strips a block the node has: its body is pruned, or it is
below the point a proof was adopted for. -/
def servesHeader (n : Node) (h : Hash) : Bool :=
  n.chain.isBodyPruned h || match n.verifiedPruningPoint with
    | none => false
    | some pp => !n.chain.archival && n.chain.dag.contains pp && h != pp
        && n.chain.reachability.isAncestor n.chain.dag h pp

/-- The copy `GetBlock` is answered with. -/
def served (n : Node) (h : Hash) : Option Block :=
  n.chain.dag[h]?.map fun b => if n.servesHeader h then b.headerOnly else b

/-- The headers `GetHeaders` is answered with. -/
def servedHeaders (n : Node) (locator : List Hash) (stopHash : Hash) (limit : Nat) : List Block :=
  let limit := max 1 (min limit maxHeadersPerMsg)
  let start := ((locator.take maxLocatorHashes).find? n.chain.dag.contains).or n.chain.mainChain.head?
  match start with
  | none => []
  | some cur =>
    if n.chain.mainChain.contains cur then
      walk ((n.chain.mainChain.drop (n.chain.mainChain.idxOf cur)).take limit)
    else []
where
  /-- Up to the stop hash. -/
  walk : List Hash → List Block
    | [] => []
    | h :: hs =>
      ((n.chain.dag[h]?.map Block.headerOnly).toList)
        ++ if h = stopHash ∧ stopHash ≠ Hash.zero then [] else walk hs

/-- The reply that `dispatch` sends to a request. -/
def answer (n : Node) : Message → Option Message
  | .getAddr => if n.knownAddrs.isEmpty then none else some (.addr (n.knownAddrs.take 64))
  | .getTips => some (.tips n.chain.tips)
  | .getBlock h => match n.served h with
    | some b => some (.block b)
    | none => some (.notFound h)
  | .getUtxoTx h => match n.chain.utxoMempool.find? (·.txid == h) with
    | some tx => some (.utxoTx tx)
    | none => some (.notFound h)
  | .getHeaders locator stopHash limit =>
    let hs := n.servedHeaders locator stopHash limit
    if hs.isEmpty then none else some (.headers hs)
  | .getPruningProof => n.chain.buildPruningProof.map .pruningProof
  | .getMultiLevelPruningProof =>
    match (n.chain.buildMultilevelPruningProof pruningProofRecentWindow).or
        (n.chain.buildMultilevelPruningProof 2) with
    | some proof => some (.multiLevelPruningProof proof)
    | none => n.chain.buildPruningProof.map .pruningProof
  | .getPruningPointLedger pp =>
    if n.chain.pruningPoint = some pp then n.chain.buildPruningPointLedger.map .pruningPointLedger
    else none
  | _ => none

/-! ### The orphan pool -/

/-- `prune_orphans`. -/
def pruneOrphans (now : Nat) (orphans : ExtTreeMap Hash (List OrphanBlock)) :
    ExtTreeMap Hash (List OrphanBlock) :=
  (orphans.map fun _ waiting => waiting.filter fun o => now - o.insertedAt < orphanTtlMs).filter
    fun _ waiting => !waiting.isEmpty

/-- `buffer_orphan`. -/
def bufferOrphan (n : Node) (now : Nat) (missing : List Hash) (b : Block) : Node :=
  let orphans := pruneOrphans now n.orphans
  if (orphans.toList.map (·.2.length)).sum ≥ maxOrphans then { n with orphans := orphans }
  else { n with orphans := missing.foldl wait orphans }
where
  /-- One more waiting block for a parent. -/
  wait (orphans : ExtTreeMap Hash (List OrphanBlock)) (p : Hash) : ExtTreeMap Hash (List OrphanBlock) :=
    let waiting := (orphans[p]?).getD []
    orphans.insert p
      (if waiting.any fun w => w.block.hash == b.hash then waiting else waiting ++ [⟨b, now⟩])

/-! ### Ingesting a block -/

/-- The work queue of `ingest_block`, the next entry first. Only a block that
came directly from the peer can earn a penalty. -/
structure Ingest where
  node : Node
  budget : StarkVerifyBudget
  queue : List (Block × Bool)
  penalty : Nat := 0

namespace Ingest

def charge (s : Ingest) (isDirect : Bool) (points : Nat) : Ingest :=
  if isDirect then { s with penalty := satAdd32 s.penalty points } else s

/-- A block with unknown parents waits for them. -/
def orphan (s : Ingest) (env : Env) (b : Block) : Ingest :=
  { s with node := s.node.bufferOrphan env.now (b.parents.filter fun p => !s.node.chain.dag.contains p) b }

/-- What a refused block earns. -/
def refuse (s : Ingest) (env : Env) (b : Block) (isDirect : Bool) (message : String) : Ingest :=
  if mentions message "Unknown parent" then s.orphan env b
  else s.charge isDirect (blockBanPenalty message)

/-- An accepted block releases the orphans that waited for it. -/
def accept (s : Ingest) (env : Env) (b : Block) (st : ChainState) : Ingest :=
  let children := ((s.node.orphans[b.hash]?).getD []).filter fun o => env.now - o.insertedAt < orphanTtlMs
  { s with
    node := { s.node with chain := st, orphans := s.node.orphans.erase b.hash }
    queue := (children.map fun o => (o.block, false)).reverse ++ s.queue }

/-- The budget of the peer, which only its own blocks use up. -/
def spend (s : Ingest) (env : Env) (isDirect : Bool) : Bool × Ingest :=
  if isDirect then
    let (allowed, budget) := s.budget.tryConsume env.now
    (allowed, { s with budget := budget })
  else (true, s)

/-- A block that is not known yet. -/
def process (s : Ingest) (env : Env) (b : Block) (isDirect : Bool) : Ingest :=
  match s.node.chain.precheckBlock env b with
  | .error message => s.refuse env b isDirect message
  | .ok () =>
    let (allowed, s) := s.spend env isDirect
    if !allowed then s.charge true invalidStarkPenalty
    else
      match s.node.chain.addBlock env b with
      | .ok st => s.accept env b st
      | .error message => s.refuse env b isDirect message

/-- One turn of the loop. -/
def pass (s : Ingest) (env : Env) : Ingest :=
  match s.queue with
  | [] => s
  | (b, isDirect) :: queue =>
    if s.node.chain.dag.contains b.hash then { s with queue := queue }
    else { s with queue := queue }.process env b isDirect

end Ingest

/-- `ingest_block`, turn by turn: the first one tries the block itself, the
others the orphans it releases. -/
def ingestBlock (n : Node) (budget : StarkVerifyBudget) (env : Env) (later : List Env) (b : Block) : Ingest :=
  later.foldl Ingest.pass (Ingest.pass { node := n, budget := budget, queue := [(b, true)] } env)

/-! ### Adopting a proof -/

/-- `IbdFreshnessContext`. -/
structure IbdFreshnessContext where
  now : Nat
  localBestWork : Nat
  localTipHeight : Nat
  localTipTimestamp : Nat
  localPastGenesis : Bool

/-- `check_ibd_proof_freshness`. -/
def checkIbdProofFreshness (proofGenesis : Hash) (tipHeight tipTimestamp verifiedWork : Nat)
    (ctx : IbdFreshnessContext) : Except String Unit := do
  ensure (proofGenesis == genesisBlock.hash)
    "pruning proof genesis does not match local genesis (upgrade gate)"
  ensure (tipTimestamp ≤ satAdd64 ctx.now maxFutureDriftMs) "pruning proof tip too far in the future"
  ensure (!(decide (0 < ctx.localBestWork) && decide (verifiedWork ≤ ctx.localBestWork)))
    "pruning proof verified_work does not beat local best"
  ensure (!(ctx.localPastGenesis
      && decide (satAdd64 tipTimestamp (finalityDepth * targetBlockTimeMs) < ctx.localTipTimestamp)
      && decide (satAdd64 tipHeight (finalityDepth / 2) < ctx.localTipHeight)))
    "stale pruning proof (tip far behind local chain)"

/-- The context both handlers build. -/
def freshness (n : Node) (env : Env) : IbdFreshnessContext where
  now := env.now
  localBestWork := n.bestPruningWork
  localTipHeight := n.chain.tipHeight
  localTipTimestamp :=
    (n.chain.dag[n.chain.mainChain.getLast?.getD genesisBlock.hash]?.map (·.timestamp.toNat)).getD
      genesisTimestampMs.toNat
  localPastGenesis := decide (0 < n.chain.tipHeight)

/-- The node after an import. -/
def adopted (n : Node) (st : ChainState) (pp : Hash) (work : Nat) : Node :=
  { n with
    chain := st
    bestPruningWork := max n.bestPruningWork work
    verifiedPruningPoint := some pp
    expectingPruningProof := false
    expectingPruningLedger := true }

/-- The `PruningProof` handler. -/
def adoptPruningProof (n : Node) (env : Env) (headers : List Block) : Node × Nat :=
  if !n.expectingPruningProof then (n, 0)
  else
    match verifyPruningProof env.labEasyPow env.now headers, headers.head?, headers.getLast? with
    | .ok summary, some first, some tip =>
      match checkIbdProofFreshness first.hash tip.height.toNat tip.timestamp.toNat summary.cumulativeWork
          (n.freshness env) with
      | .error _ => ({ n with expectingPruningProof := false }, invalidBlockPenalty)
      | .ok () =>
        if summary.cumulativeWork ≤ n.bestPruningWork then ({ n with expectingPruningProof := false }, 0)
        else
          match n.chain.importVerifiedPruningHeaders env headers with
          | .error _ => (n, invalidBlockPenalty)
          | .ok (st, _) => (n.adopted st summary.pruningPoint summary.cumulativeWork, 0)
    | _, _, _ => (n, invalidBlockPenalty)

/-- The `MultiLevelPruningProof` handler. -/
def adoptMultiLevelPruningProof (n : Node) (env : Env) (proof : MultiLevelPruningProof) : Node × Nat :=
  if !n.expectingPruningProof then (n, 0)
  else
    match proof.verify env.labEasyPow env.now, proof.recentHeaders.getLast? with
    | .ok summary, some tip =>
      match checkIbdProofFreshness ((proof.hops.getLast?.map Block.hash).getD genesisBlock.hash)
          tip.height.toNat tip.timestamp.toNat summary.verifiedWork (n.freshness env) with
      | .error _ => (n, invalidBlockPenalty)
      | .ok () =>
        if summary.verifiedWork ≤ n.bestPruningWork then ({ n with expectingPruningProof := false }, 0)
        else
          match n.chain.importVerifiedPruningHeaders env proof.headersGenesisFirst with
          | .error _ => (n, invalidBlockPenalty)
          | .ok (st, _) => (n.adopted st summary.pruningPoint summary.verifiedWork, 0)
    | _, _ => (n, invalidBlockPenalty)

/-! ### Dispatch -/

/-- What a message does to the node, and the points its sender earns. -/
def dispatch (n : Node) (budget : StarkVerifyBudget) (env : Env) (later : List Env) : Message → Node × Nat
  | .hello version magic chainId blueScore =>
    if version ≠ protocolVersion ∨ magic ≠ wireMagic ∨ chainId ≠ n.chain.chainId then
      (n, banScoreThreshold)
    else if n.chain.selectedTipBlueScore < blueScore ∧ n.verifiedPruningPoint = none then
      ({ n with expectingPruningProof := true }, 0)
    else (n, 0)
  | .block b =>
    let s := n.ingestBlock budget env later b
    (s.node, s.penalty)
  | .pruningProof headers => n.adoptPruningProof env headers
  | .multiLevelPruningProof proof => n.adoptMultiLevelPruningProof env proof
  | .pruningPointLedger msg =>
    if !n.expectingPruningLedger then (n, 0)
    else
      match n.chain.adoptPruningPointLedger msg with
      | .error _ => (n, invalidBlockPenalty)
      | .ok st => ({ n with chain := st, expectingPruningLedger := false }, 0)
  | _ => (n, 0)

end Node

/-! ### Runs -/

/-- What reaches a node: a block of its own, or a message of a peer. -/
inductive Input
  | mined (env : Env) (b : Block)
  | heard (budget : StarkVerifyBudget) (env : Env) (later : List Env) (m : Message)

namespace Node

variable [Crypto]

def feed (n : Node) : Input → Node
  | .mined env b => { n with chain := n.chain.step (env, b) }
  | .heard budget env later m => (n.dispatch budget env later m).1

def feeds (n : Node) (inputs : List Input) : Node := inputs.foldl feed n

theorem feeds_concat (n : Node) (inputs : List Input) (i : Input) :
    n.feeds (inputs ++ [i]) = (n.feeds inputs).feed i := by
  rw [feeds, feeds, List.foldl_append]
  rfl

end Node

end HassanNode
