import Mathlib
import HassanNode.Lib.Search
import HassanNode.Ledger.Block

/-!
# HassanNode.Consensus.Ghostdag

GHOSTDAG data and the functions that compute it (`ghostdag.rs`), and the
breadth-first reference search of `reachability.rs`.

The coloring asks an ancestor oracle; here the oracle is a parameter `anc`, so
that the same function can be run with the interval index of
`Consensus/Reachability.lean` and with the reference search. A `HashSet` is a
duplicate-free list: only its members and its size are ever used
(`topologicalOrder` sorts by a total key, so the iteration order of the set it
is given does not matter either).
-/

namespace HassanNode

open Std (ExtTreeMap ExtTreeSet)
open Params

abbrev Dag := ExtTreeMap Hash Block

/-- Per-block GHOSTDAG metadata. -/
structure GhostdagData where
  blueScore : Nat := 0
  selectedParent : Option Hash := none
  mergesetBlues : List Hash := []
  mergesetReds : List Hash := []
  deriving DecidableEq

abbrev GhostdagMap := ExtTreeMap Hash GhostdagData

/-- `GhostdagData::genesis`. -/
def GhostdagData.genesis : GhostdagData := {}

/-- The merged blocks, in canonical order: blues after the selected parent,
then reds. -/
def GhostdagData.merged (d : GhostdagData) : List Hash := d.mergesetBlues.drop 1 ++ d.mergesetReds

/-- `GHOSTDAG_K`. -/
def ghostdagK : Nat := 40

/-! ### Searches over parent edges -/

namespace Dag

/-- The parents of a block; none for an unknown one. -/
def parentsOf (dag : Dag) (h : Hash) : List Hash := (dag[h]?.map Block.parents).getD []

/-- Enough fuel for any search from `stack`: the stack and every edge. -/
def searchFuel (dag : Dag) (stack : List Hash) : Nat :=
  stack.length + (dag.keys.map fun h => (dag.parentsOf h).length).sum

/-- `bfs_ancestors`: the strict ancestors of `b`. -/
def bfsAncestors (dag : Dag) (b : Hash) : ExtTreeSet Hash :=
  Search.explore dag.parentsOf (fun _ => false) (dag.searchFuel (dag.parentsOf b))
    (dag.parentsOf b).reverse ∅

/-- `bfs_is_ancestor`: is `a` a strict ancestor of `b`? -/
def bfsIsAncestor (dag : Dag) (a b : Hash) : Bool := (dag.bfsAncestors b).contains a

/-- The selected parent with its whole past. -/
def pastInclusive (dag : Dag) (selectedParent : Hash) : ExtTreeSet Hash :=
  Search.explore dag.parentsOf (fun _ => false) (dag.searchFuel (dag.parentsOf selectedParent))
    (dag.parentsOf selectedParent).reverse (ExtTreeSet.insert ∅ selectedParent)

/-- `mergeset`: what the parents reach outside the selected parent's past. -/
def mergeset (dag : Dag) (parents : List Hash) (selectedParent : Hash) : List Hash :=
  (Search.explore dag.parentsOf (dag.pastInclusive selectedParent).contains
    (dag.searchFuel parents) parents.reverse ∅).toList

end Dag

/-! ### Selection -/

namespace GhostdagMap

/-- The blue score of a block; `0` for an unknown one. -/
def scoreOf (gd : GhostdagMap) (h : Hash) : Nat := (gd[h]?.map GhostdagData.blueScore).getD 0

/-- The order of `select_parent` and `selected_tip`: blue score, then hash. -/
def rankLe (gd : GhostdagMap) (a b : Hash) : Bool :=
  gd.scoreOf a < gd.scoreOf b || gd.scoreOf a == gd.scoreOf b && a ≤ b

/-- The comparison of `max_by`: a later candidate wins a tie. -/
def better (gd : GhostdagMap) (best : Option Hash) (h : Hash) : Option Hash :=
  match best with
  | none => some h
  | some b => if gd.rankLe b h then some h else some b

/-- The best known candidate, as `max_by` picks it. -/
def selectBest (gd : GhostdagMap) (candidates : List Hash) : Option Hash :=
  (candidates.filter gd.contains).foldl gd.better none

/-- `select_parent`. -/
def selectParent (gd : GhostdagMap) (parents : List Hash) : Option Hash := gd.selectBest parents

/-- `selected_tip`. -/
def selectedTip (gd : GhostdagMap) (tips : List Hash) : Option Hash := gd.selectBest tips

/-- Walk selected parents from `h`, at most `fuel` blocks, `h` first. -/
def selectedWalk (gd : GhostdagMap) : (fuel : Nat) → Hash → List Hash
  | 0, _ => []
  | fuel + 1, h =>
    h :: match gd[h]?.bind GhostdagData.selectedParent with
      | none => []
      | some p => selectedWalk gd fuel p

/-- `selected_chain`: from the root to `tip`. Blue scores fall along the walk,
so the tip's own score bounds its length. -/
def selectedChain (gd : GhostdagMap) (tip : Hash) : List Hash :=
  (gd.selectedWalk (gd.scoreOf tip + 1) tip).reverse

/-- `materialized_blues`: the block and the merged blues along its chain. -/
def materializedBlues (gd : GhostdagMap) (block : Hash) : List Hash :=
  (gd.selectedWalk (gd.scoreOf block + 1) block).foldl
    (fun blues h => ((gd[h]?.map GhostdagData.mergesetBlues).getD []).foldl
      (fun blues b => blues.insert b) blues) [block]

end GhostdagMap

/-! ### Ordering and coloring -/

/-- `in_anticone`, for an ancestor test. -/
def inAnticone (anc : Hash → Hash → Bool) (x y : Hash) : Bool := x != y && !anc x y && !anc y x

/-- The sort key order: rank, then hash. -/
def topoLe (a b : Nat × Hash) : Bool := a.1 < b.1 || a.1 == b.1 && a.2 ≤ b.2

/-- `topological_order`: sort by the number of ancestors inside the set. -/
def topologicalOrder (anc : Hash → Hash → Bool) (mergeset : List Hash) : List Hash :=
  ((mergeset.map fun h => ((mergeset.filter fun other => other != h && anc other h).length, h)).insertionSort
    fun a b => topoLe a b).map Prod.snd

/-- `color_candidate_blue`: the k-cluster rule. -/
def colorCandidateBlue (anc : Hash → Hash → Bool) (currentBlues : List Hash) (candidate : Hash) :
    Bool :=
  let anticone := currentBlues.filter fun b => inAnticone anc b candidate
  if anticone.length > ghostdagK then false
  else anticone.all fun d => (currentBlues.filter fun b => inAnticone anc b d).length < ghostdagK

/-- The coloring loop's state. -/
structure Coloring where
  currentBlues : List Hash
  mergesetBlues : List Hash
  mergesetReds : List Hash

/-- Color one candidate. -/
def Coloring.step (anc : Hash → Hash → Bool) (c : Coloring) (candidate : Hash) : Coloring :=
  if colorCandidateBlue anc c.currentBlues candidate then
    { c with currentBlues := c.currentBlues.insert candidate,
             mergesetBlues := c.mergesetBlues ++ [candidate] }
  else { c with mergesetReds := c.mergesetReds ++ [candidate] }

/-- `try_compute_ghostdag_data`. -/
def tryComputeGhostdagData (dag : Dag) (gd : GhostdagMap) (anc : Hash → Hash → Bool)
    (parents : List Hash) (maxMergeset : Nat) : Except String GhostdagData :=
  match gd.selectParent parents with
  | none => .ok GhostdagData.genesis
  | some sp =>
    let ms := dag.mergeset parents sp
    if ms.length > maxMergeset then
      .error s!"Mergeset too large: {ms.length} blocks exceeds cap {maxMergeset}"
    else
      let c := (topologicalOrder anc ms).foldl (Coloring.step anc)
        { currentBlues := gd.materializedBlues sp, mergesetBlues := [sp], mergesetReds := [] }
      .ok { blueScore := gd.scoreOf sp + c.mergesetBlues.length
            selectedParent := some sp
            mergesetBlues := c.mergesetBlues
            mergesetReds := c.mergesetReds }

end HassanNode
