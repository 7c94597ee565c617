import Mathlib
import HassanNode.Lib.Checked
import HassanNode.Consensus.ChainState

/-!
# HassanNode.Consensus.SuperProof

The multi-level pruning proof of `superproof.rs`: the structural pass, the
verifier, and what an accepted proof guarantees whoever made it. The source
promises that the verifier never panics, so every index, unwrap, checked sum and
clamp of it is one that could fail here.
-/

namespace HassanNode

open Params

/-! ### Difficulty bounds -/

/-- The loop of `cumulative_issuance`: rewards of whole halving intervals. -/
def issuanceLoop : (fuel remaining reward total : Nat) → Nat
  | 0, _, _, total => total
  | fuel + 1, remaining, reward, total =>
    if remaining > 0 ∧ reward > 0 then
      let take := min remaining halvingInterval
      issuanceLoop fuel (remaining - take) (reward >>> 1) (satAdd128 total (satMul128 reward take))
    else total

/-- `cumulative_issuance`. The reward is halved in every round, so 128 rounds
are enough. -/
def cumulativeIssuance (upToBlue : Nat) : Nat :=
  min (issuanceLoop 128 upToBlue blockReward 0) maxSupply

/-- One window of `hop_difficulty_bounds`: a quarter up, a quarter down. -/
def widenBounds (floor : Nat) (bounds : Nat × Nat) (_window : Nat) : Checked (Nat × Nat) := do
  let up ← Checked.fit u128Max (bounds.2 * 5)
  let next ← Checked.fit u128Max (bounds.2 + 1)
  let down ← Checked.fit u128Max (bounds.1 * 3)
  return (max (down / 4) floor, max (up / 4) next)

/-- `hop_difficulty_bounds`. -/
def hopDifficultyBounds (olderDiff heightGap floor : Nat) : Checked (Nat × Nat) := do
  let base := max olderDiff floor
  let windows := min ((heightGap - 1) / daaWindow + 1) 64
  let (lo, hi) ← Checked.loop (widenBounds floor) (base, base) (List.range windows)
  return (max (lo % 2 ^ 64) floor, hi % 2 ^ 64)

/-- `retarget_difficulty`, whose clamp panics on crossed bounds. -/
def retargetChecked (baseDifficulty newestTs oldestTs floor : Nat) : Checked Nat :=
  let sp := max baseDifficulty floor
  if max (sp * 3 / 4) floor ≤ max (sp * 5 / 4) (sp + 1) then
    .ok (ChainState.retargetDifficulty baseDifficulty newestTs oldestTs floor)
  else .error .panicked

theorem retargetChecked_eq (baseDifficulty newestTs oldestTs floor : Nat) :
    retargetChecked baseDifficulty newestTs oldestTs floor
      = .ok (ChainState.retargetDifficulty baseDifficulty newestTs oldestTs floor) := by
  unfold retargetChecked
  exact if_pos (by omega)

/-! ### Proofs -/

def maxMultilevelHops : Nat := 512
def maxMultilevelRecent : Nat := 8192
def maxMultilevelHeaders : Nat := maxMultilevelHops + maxMultilevelRecent

/-- The recent headers, oldest first, and the hops below them, newest first. -/
structure MultiLevelPruningProof where
  recentHeaders : List Block
  hops : List Block
  claimedVerifiedWork : Option Nat := none

structure MultiLevelProofSummary where
  pruningPoint : Hash
  verifiedWork : Nat
  estimatedTotalWork : Nat
  headerCount : Nat

namespace MultiLevelPruningProof

/-- `headers_genesis_first`. -/
def headersGenesisFirst (p : MultiLevelPruningProof) : List Block := p.hops.reverse ++ p.recentHeaders

/-- The difficulties of the shipped headers, added up. -/
def headerWork (p : MultiLevelPruningProof) : Nat :=
  ((p.hops ++ p.recentHeaders).map (·.difficulty.toNat)).sum

section Verify

variable [Crypto]

/-! ### The structural pass -/

/-- One hop of `validate_multilevel_proof_structure`; the hashes seen so far. -/
def checkHop (easy : Bool) (hops : List Block) (seen : List Hash) (entry : Block × Nat) :
    Checked (List Hash) := do
  let (hop, i) := entry
  Checked.require (!seen.contains hop.hash) s!"duplicate hop at index {i}"
  let isGenesisHop := decide (i + 1 = hops.length)
  let floor := eraMinDifficulty easy 0 hop.timestamp.toNat
  Checked.require (isGenesisHop || decide (floor ≤ hop.difficulty.toNat))
    s!"hop {i} difficulty below minimum"
  if i + 1 < hops.length then
    let older ← Checked.get hops (i + 1)
    Checked.require (older.height < hop.height) s!"hop chain height out of order at index {i}"
    Checked.require (older.timestamp ≤ hop.timestamp) s!"hop {i} timestamp predates its ancestor"
  return hop.hash :: seen

/-- One header of the recent window; the hashes of the window seen so far. -/
def checkRecent (easy : Bool) (seenHops : List Hash) (boundary : Block) (recent : List Block)
    (seen : List Hash) (entry : Block × Nat) : Checked (List Hash) := do
  let (cur, i) := entry
  Checked.require (!(seenHops.contains cur.hash || seen.contains cur.hash))
    s!"duplicate header in recent window at index {i}"
  let floor := eraMinDifficulty easy 0 cur.timestamp.toNat
  Checked.require (floor ≤ cur.difficulty.toNat) s!"recent header {i} difficulty below minimum"
  let expectedHeight := satAdd64 (satAdd64 boundary.height.toNat 1) i
  Checked.require (cur.height.toNat == expectedHeight)
    s!"recent header {i} height {cur.height} != expected contiguous height {expectedHeight}"
  if i > 0 then
    let before ← Checked.get recent (i - 1)
    Checked.require (cur.parents.contains before.hash) s!"broken chain linkage at recent header {i}"
    Checked.require (before.timestamp ≤ cur.timestamp)
      s!"recent header {i} timestamp predates its parent"
  else
    Checked.require (boundary.timestamp ≤ cur.timestamp)
      "recent header 0 timestamp predates the hop boundary"
  return cur.hash :: seen

/-- `validate_multilevel_proof_structure`. -/
def validateStructure (easy : Bool) (p : MultiLevelPruningProof) : Checked Unit := do
  Checked.require (!p.recentHeaders.isEmpty) "empty recent-headers window"
  Checked.require (!p.hops.isEmpty) "empty hop chain"
  Checked.require (p.hops.length ≤ maxMultilevelHops) "hop chain exceeds the hop limit"
  Checked.require (p.recentHeaders.length ≤ maxMultilevelRecent)
    "recent window exceeds the size limit"
  Checked.require (p.hops.length + p.recentHeaders.length ≤ maxMultilevelHeaders)
    "multi-level proof exceeds the header limit"
  let lastHop ← Checked.last p.hops
  Checked.require (lastHop.hash == genesisBlock.hash && lastHop.parents.isEmpty)
    "hop chain does not terminate at genesis"
  Checked.require (lastHop.height == 0) "genesis hop must claim height 0"
  let seenHops ← Checked.loop (checkHop easy p.hops) [] p.hops.zipIdx
  let boundary ← Checked.get p.hops 0
  let first ← Checked.get p.recentHeaders 0
  Checked.require (first.parents.contains boundary.hash)
    "recent window does not chain from the hop boundary"
  let _ ← Checked.loop (checkRecent easy seenHops boundary p.recentHeaders) [] p.recentHeaders.zipIdx

/-! ### The verifier -/

/-- What one superblock stands for: its difficulty, doubled once for each level
of the interlink that was taken. -/
def hopEstimate (cur older : Block) : Nat :=
  if cur.interlinks.contains older.hash then
    let level := cur.interlinks.idxOf older.hash % 2 ^ 32
    satMul128 cur.difficulty.toNat (if level < 128 then 2 ^ level else u128Max)
  else cur.difficulty.toNat

/-- One hop of `verify_multilevel_pruning_proof`, with the work verified and
estimated so far. -/
def verifyHop (easy : Bool) (hops : List Block) (work : Nat × Nat) (i : Nat) :
    Checked (Nat × Nat) := do
  let cur ← Checked.get hops i
  let older ← Checked.get hops (i + 1)
  Checked.require (verifyPow cur.hash cur.difficulty) s!"hop {i} fails its proof-of-work"
  let floor := eraMinDifficulty easy (cumulativeIssuance cur.height.toNat) cur.timestamp.toNat
  Checked.require (floor ≤ cur.difficulty.toNat)
    s!"hop {i} claims difficulty {cur.difficulty} below its era floor {floor}"
  let gap := cur.height.toNat - older.height.toNat
  let (lo, hi) ← hopDifficultyBounds older.difficulty.toNat gap floor
  Checked.require (lo ≤ cur.difficulty.toNat && cur.difficulty.toNat ≤ hi)
    s!"hop {i} difficulty {cur.difficulty} outside DAA clamp anchor [{lo}, {hi}] vs older hop"
  Checked.require (cur.interlinks.contains older.hash || cur.parents.contains older.hash)
    s!"hop {i + 1} is not a legitimate ancestor of hop {i} (no matching interlink or parent)"
  return (satAdd128 work.1 cur.difficulty.toNat, satAdd128 work.2 (hopEstimate cur older))

/-- The difficulty of a recent header: clamped against the boundary in the first
window, exact after it. -/
def checkRecentDifficulty (boundary : Block) (recent : List Block) (floor : Nat) (cur : Block)
    (i : Nat) : Checked Unit := do
  if i < daaWindow then
    let gap := cur.height.toNat - boundary.height.toNat
    let (lo, hi) ← hopDifficultyBounds (max boundary.difficulty.toNat floor) gap floor
    Checked.require (lo ≤ cur.difficulty.toNat && cur.difficulty.toNat ≤ hi)
      s!"recent header {i} difficulty {cur.difficulty} outside boundary DAA clamp [{lo}, {hi}]"
  else
    let before ← Checked.get recent (i - 1)
    let oldest ← Checked.get recent (i - daaWindow)
    let expected ← retargetChecked (max before.difficulty.toNat floor) before.timestamp.toNat
      oldest.timestamp.toNat floor
    Checked.require (cur.difficulty.toNat == max expected floor)
      s!"recent header {i} claims a non-DAA difficulty"

/-- One header of the recent window of `verify_multilevel_pruning_proof`. -/
def verifyRecent (easy : Bool) (now : Nat) (hops recent : List Block) (work : Nat × Nat) (i : Nat) :
    Checked (Nat × Nat) := do
  let cur ← Checked.get recent i
  let floor := eraMinDifficulty easy (cumulativeIssuance cur.height.toNat) cur.timestamp.toNat
  let boundary ← Checked.get hops 0
  checkRecentDifficulty boundary recent floor cur i
  Checked.require (verifyPow cur.hash cur.difficulty) s!"recent header {i} fails its proof-of-work"
  Checked.require (cur.timestamp.toNat ≤ satAdd64 now maxFutureDriftMs)
    s!"recent header {i} timestamp is too far in the future"
  return (satAdd128 work.1 cur.difficulty.toNat, satAdd128 work.2 cur.difficulty.toNat)

/-- The least work the included headers may claim. -/
def minIncludedWork (easy : Bool) (p : MultiLevelPruningProof) : Nat :=
  ((p.hops ++ p.recentHeaders).map fun b =>
    if b.parents.isEmpty then genesisDifficulty.toNat else effectiveMinDifficulty easy).sum

/-- `verify_multilevel_pruning_proof`. -/
def verify (easy : Bool) (now : Nat) (p : MultiLevelPruningProof) :
    Checked MultiLevelProofSummary := do
  p.validateStructure easy
  let genesis ← Checked.last p.hops
  Checked.require (verifyPow genesis.hash genesis.difficulty) "genesis hop fails its proof-of-work"
  let start := (satAdd128 0 genesis.difficulty.toNat, satAdd128 0 genesis.difficulty.toNat)
  let hopWork ← Checked.loop (verifyHop easy p.hops) start (List.range (p.hops.length - 1)).reverse
  let work ← Checked.loop (verifyRecent easy now p.hops p.recentHeaders) hopWork
    (List.range p.recentHeaders.length)
  let headerWorkSum ← Checked.fit u128Max p.headerWork
  Checked.require (work.1 == headerWorkSum) "verified_work inconsistent with included headers"
  Checked.require (p.claimedVerifiedWork.all (· ≤ headerWorkSum))
    "claimed verified_work exceeds sum of included headers"
  let tip ← Checked.get p.recentHeaders (p.recentHeaders.length - 1)
  let minWork ← Checked.fit u128Max (p.minIncludedWork easy)
  Checked.require (!(decide (0 < tip.height.toNat) && decide (work.1 < minWork)))
    "suspiciously low verified_work for included headers"
  return { pruningPoint := tip.hash, verifiedWork := work.1, estimatedTotalWork := work.2,
           headerCount := p.hops.length + p.recentHeaders.length }

end Verify

end MultiLevelPruningProof

end HassanNode
