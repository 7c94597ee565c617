import Mathlib
import HassanNode.Lib.InPlace
import HassanNode.Lib.Worklist
import HassanNode.Consensus.AddBlock

/-!
# HassanNode.Consensus.Mempool

The queue of unconfirmed spends: `admit_utxo_to_mempool` of `lib.rs`, with its
preview of the UTXO set, its ancestor packages, replacement and the two kinds of
eviction, and `record_first_seen` of `economics.rs`.

The call first tests the submission without changing anything
(`ChainState.vetUtxo`). Then it writes in place: it takes the conflicts out, makes
room under the byte budget, makes room under the count limit, and queues the
submission. Each of the two limits may still refuse. `Mempool.step` puts the call
beside `add_block`, which drops what a block includes.
-/

namespace HassanNode

open Std (ExtTreeMap)
open Params

def maxMempoolSize : Nat := 10000
def maxMempoolBytes : Nat := 32 * 1024 * 1024
def maxUtxoPackageCount : Nat := 25
def maxUtxoPackageBytes : Nat := 512 * 1024

/-- The queued spends, in order of admission. -/
abbrev UtxoPool := List UtxoTx

namespace UtxoPool

/-! ### Indices -/

/-- The transactions at some indices. -/
def pick (pool : UtxoPool) (idxs : List Nat) : List UtxoTx := idxs.filterMap (pool[·]?)

/-- The indices of the transactions that pass a test. -/
def indicesOf (pool : UtxoPool) (test : UtxoTx → Bool) : List Nat :=
  (List.range pool.length).filter fun i => (pool[i]?.map test).getD false

/-- The transactions at the other indices. -/
def without (pool : UtxoPool) (skip : List Nat) : UtxoPool :=
  (pool.zipIdx.filter fun x => !skip.contains x.2).map Prod.fst

/-- A sum of fees; the release build wraps. -/
def sumFees (txs : List UtxoTx) : Nat := txs.foldl (fun sum tx => wrapAdd128 sum tx.fee) 0

/-- A sum of relay sizes. -/
def sumBytes (txs : List UtxoTx) : Nat := (txs.map UtxoTx.relayBytes).sum

/-- A sum of relay sizes where none counts as zero. -/
def sumRated (txs : List UtxoTx) : Nat := (txs.map fun tx => max tx.relayBytes 1).sum

section Packages

variable [Crypto]

/-- Whether one spend takes an input of the other. -/
def conflicts (tx queued : UtxoTx) : Bool :=
  tx.inputs.any fun tin => queued.inputs.any fun q => q.previous == tin.previous

/-- Whether a spend takes an output named by one of these ids. -/
def spendsFrom (ids : List Hash) (tx : UtxoTx) : Bool :=
  tx.inputs.any fun tin => ids.contains tin.previous.txid

/-- The conflict set of a submission: the queued spends it shares an input with,
and then everything that spends from the set. -/
def conflictIdxs (pool : UtxoPool) (tx : UtxoTx) : List Nat :=
  Worklist.passes
    (fun found i => (pool[i]?.map (spendsFrom ((pool.pick found).map UtxoTx.txHash))).getD false)
    (List.range pool.length) pool.length (pool.indicesOf (conflicts tx))

/-- `utxo_mempool_direct_parents`. -/
def directParents (pool : UtxoPool) (tx : UtxoTx) (skip : List Nat) : List Nat :=
  (pool.indicesOf fun queued => spendsFrom [queued.txHash] tx).filter fun i => !skip.contains i

/-- The direct parents of a queued spend. -/
def parentsAt (pool : UtxoPool) (skip : List Nat) (i : Nat) : List Nat :=
  (pool[i]?.map fun tx => pool.directParents tx skip).getD []

/-- The queued ancestors of a submission, up to the cap. The source's queue and its
list of indices are the same list. -/
def ancestorIdxs (pool : UtxoPool) (tx : UtxoTx) (skip : List Nat) : List Nat :=
  Worklist.walk (pool.parentsAt skip) maxUtxoPackageCount pool.length 0 (pool.directParents tx skip)

/-- `utxo_ancestor_package_score`: fee and size of a queued spend with its
ancestors. -/
def ancestorPackageScore (pool : UtxoPool) (i : Nat) : Nat × Nat :=
  let package := pool.pick
    (Worklist.walk (pool.parentsAt []) maxUtxoPackageCount pool.length 0 [i])
  (sumFees package, max (sumRated package) 1)

/-- The feerate of that package. -/
def packageRate (pool : UtxoPool) (i : Nat) : Nat :=
  (pool.ancestorPackageScore i).1 / max (pool.ancestorPackageScore i).2 1

/-! ### Replacement and eviction -/

/-- The price of a replacement: the fees replaced and the minimum on top, at a
better rate. -/
def outbids (pool : UtxoPool) (tx : UtxoTx) (replaced : List Nat) : Bool :=
  let conflictFee := sumFees (pool.pick replaced)
  let conflictRate := conflictFee / max (sumRated (pool.pick replaced)) 1
  !(tx.fee < satAdd128 conflictFee minTxFee || tx.fee / max tx.relayBytes 1 ≤ conflictRate)

/-- Eviction order: the lowest package rate first, the later one first among equals. -/
def ranked (pool : UtxoPool) : List (Nat × Nat) :=
  ((List.range pool.length).map fun i => (i, pool.packageRate i)).mergeSort
    fun a b => decide (a.2 < b.2 ∨ a.2 = b.2 ∧ b.1 ≤ a.1)

/-- The loop of the byte budget: the indices to remove, and the bytes that stay. -/
def evictBytes (pool : UtxoPool) (incomingRaw rate : Nat) :
    List (Nat × Nat) → (usedNow : Nat) → (remove : List Nat) → List Nat × Nat
  | [], usedNow, remove => (remove, usedNow)
  | (i, packageRate) :: rest, usedNow, remove =>
    if usedNow + incomingRaw ≤ maxMempoolBytes then (remove, usedNow)
    else if packageRate ≥ rate then (remove, usedNow)
    else pool.evictBytes incomingRaw rate rest
      (usedNow - (pool[i]?.map UtxoTx.relayBytes).getD 0) (remove ++ [i])

/-- One step of `min_by`, on index, rate and fee: the first of the lowest stays. -/
def keepLower : Option (Nat × Nat × Nat) → Nat × Nat × Nat → Option (Nat × Nat × Nat)
  | none, x => some x
  | some b, x => if x.2.1 < b.2.1 ∨ x.2.1 = b.2.1 ∧ x.2.2 < b.2.2 then some x else some b

/-- The queued spend with the lowest package rate and, among those, the lowest
package fee: its index, rate and fee. -/
def worst (pool : UtxoPool) : Option (Nat × Nat × Nat) :=
  ((List.range pool.length).map fun i =>
    (i, pool.packageRate i, (pool.ancestorPackageScore i).1)).foldl keepLower none

end Packages

end UtxoPool

/-! ### The tests before the first write -/

/-- What the tests hand on: who must leave, and the feerate of the package. -/
structure VettedUtxo where
  conflictIdxs : List Nat
  packageRate : Nat

namespace ChainState

section Vet

variable [Crypto]

/-- `utxo_mempool_preview`: the live set with what the queue does to it, as far as it
applies, leaving out some indices. -/
def utxoMempoolPreview (st : ChainState) (skip : List Nat) : UtxoSet × Accounts :=
  let pending := UtxoPool.without st.utxoMempool skip
  Worklist.retry
    (fun s tx => match applyUtxoTx s.1 s.2 tx st.selectedTipBlueScore with
      | (s', .ok _) => some s'
      | (_, .error _) => none)
    (pending.length + 1) pending (st.live.utxo, st.live.accounts)

/-- What `admit_utxo_to_mempool` tests before it changes anything. -/
def vetUtxo (st : ChainState) (tx : UtxoTx) : Except String VettedUtxo := do
  tx.validateForm
  ensure (tx.chainId == st.chainId) "Wrong chain_id"
  ensure tx.verify "Invalid signature"
  let pool : UtxoPool := st.utxoMempool
  ensure (!pool.any fun t => t.txid == tx.txid) "UTXO tx already in mempool"
  let conflictIdxs := pool.conflictIdxs tx
  let preview := st.utxoMempoolPreview conflictIdxs
  let _ ← (applyUtxoTx preview.1 preview.2 tx st.selectedTipBlueScore).2
  let packageIdxs := pool.ancestorIdxs tx conflictIdxs
  ensure (packageIdxs.length + 1 ≤ maxUtxoPackageCount)
    s!"UTXO ancestor package exceeds count limit {maxUtxoPackageCount}"
  let packageBytes := UtxoPool.sumBytes (pool.pick packageIdxs) + tx.relayBytes
  ensure (packageBytes ≤ maxUtxoPackageBytes)
    s!"UTXO ancestor package exceeds byte limit {maxUtxoPackageBytes}"
  let packageFee := satAdd128 (UtxoPool.sumFees (pool.pick packageIdxs)) tx.fee
  ensure (conflictIdxs.isEmpty || pool.outbids tx conflictIdxs) "UTXO input conflicts with mempool"
  return { conflictIdxs, packageRate := packageFee / max packageBytes 1 }

end Vet

end ChainState

/-! ### The call -/

/-- A node with the two records of when a transaction was first seen. -/
structure Mempool where
  chain : ChainState
  txFirstSeenMs : ExtTreeMap Hash Nat := ∅
  txFirstSeenBlue : ExtTreeMap Hash Nat := ∅

namespace Mempool

/-- The queue. -/
def pool (m : Mempool) : UtxoPool := m.chain.utxoMempool

/-- The node with another queue. -/
def withPool (m : Mempool) (pool : UtxoPool) : Mempool :=
  { m with chain := { m.chain with utxoMempool := pool } }

section Calls

variable [Crypto]

/-- Take out the queued spend at an index, with its records. -/
def removeAt (m : Mempool) (i : Nat) : Mempool :=
  match m.pool[i]? with
  | none => m
  | some old =>
    { m.withPool (m.pool.eraseIdx i) with
      txFirstSeenBlue := m.txFirstSeenBlue.erase old.txid
      txFirstSeenMs := m.txFirstSeenMs.erase old.txid }

/-- Take out several, from the last index to the first. -/
def removeAll (m : Mempool) (idxs : List Nat) : Mempool :=
  (idxs.mergeSort fun a b => decide (b ≤ a)).foldl removeAt m

/-- `record_first_seen`. With the record full, an arbitrary entry makes way. -/
def recordFirstSeen (env : Env) (txHash : Hash) (m : Mempool) : Mempool :=
  let m' :=
    if m.txFirstSeenMs.size ≥ 2 * maxMempoolSize && !m.txFirstSeenMs.contains txHash then
      match (env.iter m.txFirstSeenMs.keys).head? with
      | none => m
      | some k =>
        { m with
          txFirstSeenMs := m.txFirstSeenMs.erase k
          txFirstSeenBlue := m.txFirstSeenBlue.erase k }
    else m
  { m' with
    txFirstSeenMs := m'.txFirstSeenMs.insertIfNew txHash env.now
    txFirstSeenBlue := m'.txFirstSeenBlue.insertIfNew txHash m.chain.selectedTipBlueScore }

/-- The indices that the byte budget takes out, and the bytes that stay. -/
def byteVictims (m : Mempool) (tx : UtxoTx) (rate : Nat) : List Nat × Nat :=
  m.pool.evictBytes tx.relayBytes rate m.pool.ranked (UtxoPool.sumBytes m.pool) []

/-- Make room under the byte budget. -/
def makeByteRoom (tx : UtxoTx) (rate : Nat) : InPlace String Mempool Unit := do
  let m ← InPlace.read
  if UtxoPool.sumBytes m.pool + tx.relayBytes > maxMempoolBytes then do
    InPlace.check ((m.byteVictims tx rate).2 + tx.relayBytes ≤ maxMempoolBytes)
      "UTXO mempool byte budget exceeded"
    InPlace.write (·.removeAll (m.byteVictims tx rate).1)
  else pure ()

/-- Make room under the count limit. -/
def makeCountRoom (tx : UtxoTx) (rate : Nat) : InPlace String Mempool Unit := do
  let m ← InPlace.read
  if m.pool.length ≥ maxMempoolSize then
    match m.pool.worst with
    | some (i, worstRate, worstFee) => do
      InPlace.check (rate > worstRate ∨ rate = worstRate ∧ tx.fee > worstFee) "UTXO mempool is full"
      InPlace.write (·.removeAt i)
    | none => InPlace.fail "UTXO mempool is full"
  else pure ()

/-- `admit_utxo_to_mempool`. -/
def admitUtxoToMempool (env : Env) (tx : UtxoTx) : InPlace String Mempool Unit := do
  let m ← InPlace.read
  let vetted ← InPlace.lift (m.chain.vetUtxo tx)
  InPlace.write (·.removeAll vetted.conflictIdxs)
  makeByteRoom tx vetted.packageRate
  makeCountRoom tx vetted.packageRate
  InPlace.write (recordFirstSeen env tx.txid)
  InPlace.write fun m => m.withPool (m.pool ++ [tx])

/-! ### Runs -/

/-- What can happen to a node: a submission, or a block. -/
inductive Call
  | submit (env : Env) (tx : UtxoTx)
  | addBlock (env : Env) (block : Block)

/-- A block: the chain accepts it or not, and the included transactions lose their
blue records. -/
def addBlock (m : Mempool) (env : Env) (block : Block) : Mempool :=
  match m.chain.addBlock env block with
  | .error _ => m
  | .ok chain =>
    { m with
      chain
      txFirstSeenBlue := (block.transparentTxs.map TransparentTx.txHash
        ++ block.utxoTxs.map UtxoTx.txid).foldl (·.erase ·) m.txFirstSeenBlue }

/-- One call, whatever its result. -/
def step (m : Mempool) : Call → Mempool
  | .submit env tx => (admitUtxoToMempool env tx m).1
  | .addBlock env block => m.addBlock env block

/-- A run of calls. -/
def run (m : Mempool) (calls : List Call) : Mempool := calls.foldl step m

end Calls

end Mempool

end HassanNode
