import Mathlib
import HassanNode.Lib.Laminar
import HassanNode.Consensus.Ghostdag

/-!
# HassanNode.Consensus.Reachability

The interval index over the selected-parent tree (`reachability.rs`): every
block has an interval inside its tree parent's, and a *future covering set*
(`fcs`) of blocks that merged it. Ancestor queries compare intervals.

Interval positions are natural numbers: the source's `u64` space would only run
out with some 2⁴³ blocks in memory. A loop over a `HashMap` takes the order it
sees, `iter`, as a parameter. `self.nodes[h]` on a missing node panics in the
source; the look-ups here are total and read an empty node instead, which no
call of the node does (`ReachabilitySound` keeps every link inside the index).
-/

namespace HassanNode

open Std (ExtTreeMap ExtTreeSet)

/-- A closed interval of positions. -/
structure Interval where
  start : Nat := 0
  end_ : Nat := 0
  deriving DecidableEq

/-- Reflexive containment. -/
def Interval.contains (i other : Interval) : Bool := i.start ≤ other.start && other.end_ ≤ i.end_

/-- A block's node in the index. -/
structure ReachNode where
  interval : Interval := {}
  treeParent : Option Hash := none
  treeChildren : List Hash := []
  nextFree : Nat := 0
  fcs : List Hash := []
  deriving DecidableEq

structure Reachability where
  nodes : ExtTreeMap Hash ReachNode := ∅
  nextRootStart : Nat := 1

namespace Reachability

/-- `SCALE`: interval units per block of a reindexed subtree. -/
def scale : Nat := 2 ^ 20
/-- `SIBLING_RESERVE`: units held back for later siblings. -/
def siblingReserve : Nat := 64
def spaceStart : Nat := 1
def spaceEnd : Nat := 2 ^ 62

/-- `Reachability::new`. -/
def new : Reachability := { nodes := ∅, nextRootStart := spaceStart }

/-- `self.nodes[h]`. -/
def node (r : Reachability) (h : Hash) : ReachNode := r.nodes[h]?.getD {}

/-! ### Queries -/

/-- `slice::partition_point` for a predicate that holds on a prefix. -/
def partitionPoint (p : Hash → Bool) (xs : List Hash) : Nat := (xs.takeWhile p).length

/-- `fcs_contains_cover`: the last entry that starts by the target covers it. -/
def fcsContainsCover (r : Reachability) (block : Hash) (target : Interval) : Bool :=
  let fcs := (r.node block).fcs
  let idx := partitionPoint (fun h => (r.node h).interval.start ≤ target.start) fcs
  if idx = 0 then false
  else
    match fcs[idx - 1]? with
    | none => false
    | some cand => (r.node cand).interval.contains target

/-- `is_chain_ancestor_incl`. -/
def isChainAncestorIncl (r : Reachability) (a b : Hash) : Bool :=
  (r.node a).interval.contains (r.node b).interval

/-- `is_dag_ancestor_incl`. -/
def isDagAncestorIncl (r : Reachability) (a b : Hash) : Bool :=
  r.isChainAncestorIncl a b || r.fcsContainsCover a (r.node b).interval

/-- `is_ancestor`: the index where it knows both blocks, else the search. -/
def isAncestor (r : Reachability) (dag : Dag) (a b : Hash) : Bool :=
  if r.nodes.contains a && r.nodes.contains b then a != b && r.isDagAncestorIncl a b
  else dag.bfsIsAncestor a b

/-- `is_chain_ancestor`: `none` when a block is not indexed. -/
def isChainAncestor (r : Reachability) (a b : Hash) : Option Bool :=
  match r.nodes[a]?, r.nodes[b]? with
  | some na, some nb => some (na.interval.contains nb.interval)
  | _, _ => none

/-! ### Rebuilding the intervals -/

/-- Whether a node has no parent in the index. -/
def isRoot (r : Reachability) (h : Hash) : Bool :=
  match (r.node h).treeParent with
  | none => true
  | some p => !r.nodes.contains p

/-- The roots, in the order the map is iterated. -/
def roots (r : Reachability) (iter : List Hash → List Hash) : List Hash :=
  (iter r.nodes.keys).filter r.isRoot

/-- The loop of `subtree_sizes`: a node is pushed back as processed below its
children. -/
def sizesLoop (r : Reachability) :
    (fuel : Nat) → List (Hash × Bool) → ExtTreeMap Hash Nat → ExtTreeMap Hash Nat
  | 0, _, sizes => sizes
  | _ + 1, [], sizes => sizes
  | fuel + 1, (node, true) :: stack, sizes =>
    sizesLoop r fuel stack
      (sizes.insert node (1 + ((r.node node).treeChildren.map fun c => sizes[c]?.getD 0).sum))
  | fuel + 1, (node, false) :: stack, sizes =>
    sizesLoop r fuel
      ((r.node node).treeChildren.reverse.map (·, false) ++ (node, true) :: stack) sizes

/-- `subtree_sizes`: every node is popped twice. -/
def subtreeSizes (r : Reachability) (iter : List Hash → List Hash) : ExtTreeMap Hash Nat :=
  r.sizesLoop (2 * r.nodes.size) ((r.roots iter).reverse.map (·, false)) ∅

/-- Windows for a list of siblings, from `cursor` on, and the cursor after them. -/
def windows (sizes : ExtTreeMap Hash Nat) : List Hash → (cursor : Nat) → List (Hash × Nat) × Nat
  | [], cursor => ([], cursor)
  | h :: hs, cursor =>
    let (rest, last) := windows sizes hs (cursor + sizes[h]?.getD 0 * scale)
    ((h, cursor) :: rest, last)

/-- The window assignment loop of `reindex_all`. -/
def assignLoop (sizes : ExtTreeMap Hash Nat) :
    (fuel : Nat) → List (Hash × Nat) → Reachability → Reachability
  | 0, _, r => r
  | _ + 1, [], r => r
  | fuel + 1, (node, start) :: stack, r =>
    let n := r.node node
    let pushed := windows sizes n.treeChildren start
    let n' := { n with interval := ⟨start, start + sizes[node]?.getD 0 * scale - 1⟩,
                       nextFree := pushed.2 }
    assignLoop sizes fuel (pushed.1.reverse ++ stack) { r with nodes := r.nodes.insert node n' }

/-- Sort every covering set by start. -/
def sortFcs (r : Reachability) : Reachability :=
  { r with nodes := r.nodes.map fun _ n =>
      { n with fcs := n.fcs.mergeSort fun a b =>
          (r.node a).interval.start ≤ (r.node b).interval.start } }

/-- `reindex_all`. -/
def reindexAll (r : Reachability) (iter : List Hash → List Hash) : Reachability :=
  let sizes := r.subtreeSizes iter
  let pushed := windows sizes (r.roots iter) spaceStart
  let assigned := assignLoop sizes r.nodes.size pushed.1.reverse { r with nextRootStart := pushed.2 }
  assigned.sortFcs

/-! ### Insertion -/

/-- `insert_root`. -/
def insertRoot (r : Reachability) (iter : List Hash → List Hash) (hash : Hash) : Reachability :=
  let r := if r.nextRootStart + scale ≥ spaceEnd then r.reindexAll iter else r
  let start := r.nextRootStart
  let end_ := start + scale - 1
  { nodes := r.nodes.insert hash { interval := ⟨start, end_⟩, nextFree := start }
    nextRootStart := end_ + 1 }

/-- `try_place_child`: `none` when the parent has no room. -/
def tryPlaceChild (r : Reachability) (parent hash : Hash) : Option Reachability :=
  let p := r.node parent
  if p.nextFree ≥ p.interval.end_ then none
  else
    let avail := p.interval.end_ - p.nextFree
    let width := if avail > siblingReserve then avail - siblingReserve else avail
    let start := p.nextFree
    let end_ := start + width - 1
    let parentNode := { p with nextFree := end_ + 1, treeChildren := p.treeChildren ++ [hash] }
    let childNode : ReachNode :=
      { interval := ⟨start, end_⟩, treeParent := some parent, nextFree := start }
    some { r with nodes := (r.nodes.insert parent parentNode).insert hash childNode }

/-- `insert_tree_child`. -/
def insertTreeChild (r : Reachability) (iter : List Hash → List Hash) (parent hash : Hash) :
    Reachability :=
  match r.tryPlaceChild parent hash with
  | some r => r
  | none =>
    let r := r.reindexAll iter
    match r.tryPlaceChild parent hash with
    | some r => r
    | none => r.insertRoot iter hash

/-- `insert_to_fcs`. -/
def insertToFcs (r : Reachability) (block new : Hash) : Reachability :=
  let ni := (r.node new).interval
  if r.fcsContainsCover block ni then r
  else
    let n := r.node block
    let pos := partitionPoint (fun h => (r.node h).interval.start ≤ ni.start) n.fcs
    { r with nodes := r.nodes.insert block { n with fcs := n.fcs.take pos ++ new :: n.fcs.drop pos } }

/-- The covering-set loop of `add_block`. -/
def insertToFcsAll (r : Reachability) (hash : Hash) (mergeset : List Hash) : Reachability :=
  mergeset.foldl
    (fun r m => if m ≠ hash ∧ r.nodes.contains m then r.insertToFcs m hash else r) r

/-- The tree insertion of `add_block`: below the selected parent if it is
indexed, else as a root. -/
def place (r : Reachability) (iter : List Hash → List Hash) (hash : Hash)
    (selectedParent : Option Hash) : Reachability :=
  match selectedParent.filter r.nodes.contains with
  | some parent => r.insertTreeChild iter parent hash
  | none => r.insertRoot iter hash

/-- `add_block`. -/
def addBlock (r : Reachability) (iter : List Hash → List Hash) (hash : Hash)
    (selectedParent : Option Hash) (mergeset : List Hash) : Reachability :=
  if r.nodes.contains hash then r
  else (r.place iter hash selectedParent).insertToFcsAll hash mergeset

/-! ### Removal -/

/-- `drop_leaf`. -/
def dropLeaf (r : Reachability) (hash : Hash) : Reachability :=
  match r.nodes[hash]? with
  | none => r
  | some n =>
    if n.treeChildren ≠ [] then r
    else
      let erased := r.nodes.erase hash
      let unlinked := match n.treeParent with
        | none => erased
        | some p => match erased[p]? with
          | none => erased
          | some pn => erased.insert p { pn with treeChildren := pn.treeChildren.filter (· ≠ hash) }
      { r with nodes := unlinked.map fun _ n => { n with fcs := n.fcs.filter (· ≠ hash) } }

/-- `retain`: keep only these blocks. -/
def retain (r : Reachability) (keep : Hash → Bool) : Reachability :=
  let kept := (r.nodes.filter fun h _ => keep h).map fun _ n =>
    { n with
      treeParent := n.treeParent.filter keep
      treeChildren := n.treeChildren.filter keep
      fcs := n.fcs.filter keep }
  { nodes := kept
    nextRootStart := ((kept.toList.map fun (_, n) => n.interval.end_ + 1).max?).getD spaceStart }

end Reachability

end HassanNode
