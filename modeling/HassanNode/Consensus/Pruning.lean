import Mathlib
import HassanNode.Consensus.Growth

/-!
# HassanNode.Consensus.Pruning

What a node that is not archival throws away. `prune_bodies` clears bodies and
drops leaves of the index (`pruneBodies_spec`); `prune_history` removes the
blocks below the score of the pruning point and cuts the links to them
(`pruneHistory_spec`). Neither touches the ledger, the base or the frontier.
-/

namespace HassanNode

open Std (ExtTreeMap ExtTreeSet)
open Params

namespace Reachability

/-- A part of the index, still a forest with its old links. -/
structure Shrunk (r r' : Reachability) : Prop where
  wf : r'.WF
  mem : ∀ h ∈ r'.nodes, h ∈ r.nodes
  parent : ∀ {h p}, r'.parentOf h = some p → r.parentOf h = some p

theorem Shrunk.refl {r : Reachability} (w : r.WF) : r.Shrunk r := ⟨w, fun _ h => h, id⟩

theorem Shrunk.trans {r r' r'' : Reachability} (h : r.Shrunk r') (h' : r'.Shrunk r'') : r.Shrunk r'' :=
  ⟨h'.wf, fun k hk => h.mem k (h'.mem k hk), fun hp => h.parent (h'.parent hp)⟩

theorem mem_of_parentOf {r : Reachability} {h p : Hash} (hp : r.parentOf h = some p) : h ∈ r.nodes := by
  by_contra hnot
  simp [parentOf, node, ExtTreeMap.getElem?_eq_none hnot] at hp

theorem Restricted.shrunk {r r' : Reachability} {keep : Hash → Prop} (w : r.WF)
    (hconvex : r.Convex keep) (g : r.Restricted keep r') : r.Shrunk r' where
  wf := g.wf w hconvex
  mem h hh := ((g.mem h).mp hh).1
  parent {h p} hp := ((g.parent h ((g.mem h).mp (mem_of_parentOf hp)).2 p).mp hp).1

theorem dropLeaf_shrunk {r : Reachability} (w : r.WF) (hash : Hash) : r.Shrunk (r.dropLeaf hash) := by
  rcases dropLeaf_cases w hash with ⟨heq, -⟩ | ⟨-, hnone, hrestricted, -⟩
  · rw [heq]
    exact .refl w
  · exact hrestricted.shrunk w (convex_ne hnone)

theorem foldl_dropLeaf_shrunk {r : Reachability} (w : r.WF) (hs : List Hash) :
    r.Shrunk (hs.foldl dropLeaf r) := by
  induction hs generalizing r with
  | nil => exact .refl w
  | cons h hs ih =>
      have hdrop := dropLeaf_shrunk w h
      exact hdrop.trans (ih hdrop.wf)

/-- A leaf that is dropped, among other leaves, is gone. -/
theorem foldl_dropLeaf_notMem {r : Reachability} (w : r.WF) {hs : List Hash} {x : Hash} (hx : x ∈ hs)
    (hleaf : ∀ c, r.parentOf c ≠ some x) : x ∉ (hs.foldl dropLeaf r).nodes := by
  induction hs generalizing r with
  | nil => cases hx
  | cons h hs ih =>
      have hdrop := dropLeaf_shrunk w h
      by_cases hh : h = x
      · subst hh
        intro hmem
        have hkept := (foldl_dropLeaf_shrunk hdrop.wf hs).mem h hmem
        rcases dropLeaf_cases w h with ⟨heq, hchild⟩ | ⟨-, -, hrestricted, -⟩
        · rw [heq] at hkept
          obtain ⟨c, -, hc⟩ := hchild hkept
          exact hleaf c hc
        · exact ((hrestricted.mem h).mp hkept).2 rfl
      · exact ih hdrop.wf ((List.mem_cons.mp hx).resolve_left (Ne.symm hh)) fun c hc =>
          hleaf c (hdrop.parent hc)

theorem isChainAncestor_eq_none {r : Reachability} {a b : Hash} (hb : b ∉ r.nodes) :
    r.isChainAncestor a b = none := by
  simp [isChainAncestor, hb]

end Reachability

namespace ChainState

section Bodies

variable {st : ChainState}

/-- The blocks with one body cleared. -/
def clearAt (dag : Dag) (h : Hash) : Dag :=
  match dag[h]? with
  | none => dag
  | some b => dag.insert h b.clearBody

theorem getElem?_clearAt (dag : Dag) (h k : Hash) :
    (clearAt dag h)[k]? = if h = k then dag[k]?.map Block.clearBody else dag[k]? := by
  unfold clearAt
  by_cases hk : h = k
  · subst hk
    cases hb : dag[h]? <;> simp [hb]
  · cases hb : dag[h]? <;> simp [ExtTreeMap.getElem?_insert, hk]

theorem foldl_pruneBody (st : ChainState) (hs : List Hash) :
    hs.foldl pruneBody st = { st with
      dag := hs.foldl clearAt st.dag, reachability := hs.foldl Reachability.dropLeaf st.reachability } := by
  induction hs generalizing st with
  | nil => rfl
  | cons h hs ih =>
      rw [List.foldl_cons, ih]
      rfl

/-- Every block is as it was, or without its body. -/
theorem getElem?_foldl_clearAt (dag : Dag) (hs : List Hash) (k : Hash) :
    (hs.foldl clearAt dag)[k]? = if k ∈ hs then dag[k]?.map Block.clearBody else dag[k]? := by
  induction hs generalizing dag with
  | nil => simp
  | cons h hs ih =>
      rw [List.foldl_cons, ih, getElem?_clearAt]
      have hidem : Block.clearBody ∘ Block.clearBody = Block.clearBody := rfl
      by_cases hk : h = k
      · subst hk
        simp [hidem]
      · simp [hk, Ne.symm hk]

/-- What clearing bodies leaves alone, and the blocks `hs` it clears. -/
structure Cleared (hs : List Hash) (st st' : ChainState) : Prop where
  dag : ∀ h, st'.dag[h]? = if h ∈ hs then st.dag[h]?.map Block.clearBody else st.dag[h]?
  index : st'.reachability = hs.foldl Reachability.dropLeaf st.reachability
  ghostdag : st'.ghostdag = st.ghostdag
  tips : st'.tips = st.tips
  mainChain : st'.mainChain = st.mainChain
  live : st'.live = st.live
  base : st'.base = st.base
  baseCaptured : st'.baseCaptured = st.baseCaptured
  baseFrontier : st'.baseFrontier = st.baseFrontier
  archival : st'.archival = st.archival
  chainId : st'.chainId = st.chainId

/-- The blocks `prune_bodies` clears. -/
def toPrune (st : ChainState) (env : Env) : List Hash :=
  if st.archival || st.selectedTipBlueScore ≤ finalityDepth then []
  else (env.iter st.dag.keys).filter fun h =>
    st.scoreOrMax h ≤ st.selectedTipBlueScore - finalityDepth
      && !((st.dag[h]?.map Block.isBodyEmpty).getD true)

theorem pruneBodies_eq (st : ChainState) (env : Env) :
    st.pruneBodies env = (st.toPrune env).foldl pruneBody st := by
  unfold pruneBodies toPrune
  split <;> rfl

theorem pruneBodies_spec (st : ChainState) (env : Env) :
    Cleared (st.toPrune env) st (st.pruneBodies env) := by
  rw [pruneBodies_eq, foldl_pruneBody]
  exact ⟨getElem?_foldl_clearAt st.dag _, rfl, rfl, rfl, rfl, rfl, rfl, rfl, rfl, rfl, rfl⟩

theorem Cleared.mem {hs : List Hash} {st st' : ChainState} (c : Cleared hs st st') (h : Hash) :
    h ∈ st'.dag ↔ h ∈ st.dag := by
  rw [ExtTreeMap.mem_iff_isSome_getElem?, ExtTreeMap.mem_iff_isSome_getElem?, c.dag]
  split <;> simp

theorem Cleared.selectedTip {hs : List Hash} {st st' : ChainState} (c : Cleared hs st st') :
    st'.selectedTip = st.selectedTip := by
  rw [ChainState.selectedTip, ChainState.selectedTip, c.ghostdag, c.tips]

end Bodies

/-! ### What every node keeps -/

section Consistent

variable [Crypto] {st st' : ChainState}

/-- The invariant of every node, whatever it has pruned: the maps have the same
blocks, links go to blocks that are there and down in score, and the index is a
forest of selected-parent links. -/
structure Consistent (st : ChainState) : Prop where
  keyed : st.Keyed
  linked : st.ghostdag.Linked
  descends : st.ghostdag.Descends
  tips : ∀ t ∈ st.tips, t ∈ st.dag
  selected : ∃ tip, st.selectedTip = some tip
  index : st.reachability.WF
  indexed : ∀ h ∈ st.reachability.nodes, h ∈ st.dag
  links : ∀ {h p}, st.reachability.parentOf h = some p → st.ghostdag.spOf h = some p

theorem Consistent.of_core (c : st.Consistent) (h : st.SameCore st') : st'.Consistent where
  keyed := ⟨by rw [h.dag]; exact c.keyed.hash, by rw [h.dag, h.ghostdag]; exact c.keyed.known⟩
  linked := by rw [h.ghostdag]; exact c.linked
  descends := by rw [h.ghostdag]; exact c.descends
  tips := by rw [h.tips, h.dag]; exact c.tips
  selected := by rw [h.selectedTip]; exact c.selected
  index := by rw [h.reachability]; exact c.index
  indexed := by rw [h.reachability, h.dag]; exact c.indexed
  links := by rw [h.reachability, h.ghostdag]; exact c.links

theorem Consistent.tip_mem (c : st.Consistent) {tip : Hash} (h : st.selectedTip = some tip) :
    tip ∈ st.dag := c.tips tip (selectedTip_isBest h).mem

theorem Consistent.above_mem (c : st.Consistent) {a h : Hash} (hh : h ∈ st.dag)
    (habove : Above st.ghostdag.spOf a h) : a ∈ st.dag :=
  (c.keyed.known a).mp (above_known c.linked ((c.keyed.known h).mpr hh) habove)

/-- Clearing bodies keeps it. -/
theorem Consistent.cleared (c : st.Consistent) {hs : List Hash} (g : Cleared hs st st') :
    st'.Consistent where
  keyed := by
    refine ⟨fun {h b} hb => ?_, fun h => by rw [g.ghostdag, g.mem, c.keyed.known]⟩
    rw [g.dag] at hb
    split at hb
    · obtain ⟨b₀, hb₀, rfl⟩ := Option.map_eq_some_iff.mp hb
      exact (Block.hash_clearBody b₀).trans (c.keyed.hash hb₀)
    · exact c.keyed.hash hb
  linked := by rw [g.ghostdag]; exact c.linked
  descends := by rw [g.ghostdag]; exact c.descends
  tips t ht := (g.mem t).mpr (c.tips t (g.tips ▸ ht))
  selected := by rw [g.selectedTip]; exact c.selected
  index := by rw [g.index]; exact (Reachability.foldl_dropLeaf_shrunk c.index hs).wf
  indexed h hh := by
    rw [g.index] at hh
    exact (g.mem h).mpr (c.indexed h ((Reachability.foldl_dropLeaf_shrunk c.index hs).mem h hh))
  links hp := by
    rw [g.index] at hp
    rw [g.ghostdag]
    exact c.links ((Reachability.foldl_dropLeaf_shrunk c.index hs).parent hp)

end Consistent

/-! ### History -/

section History

variable [Crypto] {st st' : ChainState}

/-- The blocks at or above a score. -/
def keeps (st : ChainState) (floor : Nat) (h : Hash) : Bool :=
  st.dag.contains h && decide (floor ≤ st.ghostdag.scoreOf h)

/-- The data of a block whose links go to kept blocks only. -/
def cutTo (keep : Hash → Bool) (d : GhostdagData) : GhostdagData :=
  { d with selectedParent := d.selectedParent.filter keep }

/-- What removing the blocks below a score leaves. -/
structure Pruned (floor : Nat) (st st' : ChainState) : Prop where
  dag : ∀ h, st'.dag[h]? = if st.keeps floor h then st.dag[h]? else none
  ghostdag : ∀ h, st'.ghostdag[h]? =
    if st.keeps floor h then st.ghostdag[h]?.map (cutTo (st.keeps floor)) else none
  tips : ∀ h, h ∈ st'.tips ↔ h ∈ st.tips ∧ st.keeps floor h = true
  index : st.reachability.Shrunk st'.reachability
  kept : ∀ h ∈ st'.reachability.nodes, st.keeps floor h = true
  live : st'.live = st.live
  base : st'.base = st.base
  baseCaptured : st'.baseCaptured = st.baseCaptured
  baseFrontier : st'.baseFrontier = st.baseFrontier
  archival : st'.archival = st.archival
  chainId : st'.chainId = st.chainId

omit [Crypto] in
theorem cutTo_eq_self {keep : Hash → Bool} {d : GhostdagData}
    (h : ∀ p, d.selectedParent = some p → keep p = true) : cutTo keep d = d := by
  obtain ⟨score, sp, blues, reds⟩ := d
  cases sp with
  | none => rfl
  | some p => simp [cutTo, h p rfl]

omit [Crypto] in
theorem keeps_iff {floor : Nat} {h : Hash} :
    st.keeps floor h = true ↔ h ∈ st.dag ∧ floor ≤ st.ghostdag.scoreOf h := by
  simp [keeps]

namespace Pruned

variable {floor : Nat}

omit [Crypto] in
theorem mem (g : Pruned floor st st') (h : Hash) :
    h ∈ st'.dag ↔ h ∈ st.dag ∧ floor ≤ st.ghostdag.scoreOf h := by
  rw [ExtTreeMap.mem_iff_isSome_getElem?, g.dag, ← keeps_iff]
  split
  · rename_i hkeep
    rw [← ExtTreeMap.mem_iff_isSome_getElem?]
    simp [hkeep, (keeps_iff.mp hkeep).1]
  · rename_i hkeep
    simp [hkeep]

theorem known (g : Pruned floor st st') (c : st.Consistent) (h : Hash) :
    h ∈ st'.ghostdag ↔ h ∈ st'.dag := by
  rw [g.mem, ExtTreeMap.mem_iff_isSome_getElem?, g.ghostdag, ← keeps_iff]
  split
  · rename_i hkeep
    have hh := (c.keyed.known h).mpr (keeps_iff.mp hkeep).1
    rw [Option.isSome_map, ← ExtTreeMap.mem_iff_isSome_getElem?]
    simp [hkeep, hh]
  · rename_i hkeep
    simp [hkeep]

omit [Crypto] in
theorem scoreOf (g : Pruned floor st st') {h : Hash} (hh : h ∈ st'.dag) :
    st'.ghostdag.scoreOf h = st.ghostdag.scoreOf h := by
  rw [GhostdagMap.scoreOf, GhostdagMap.scoreOf, g.ghostdag, if_pos (keeps_iff.mpr ((g.mem h).mp hh)),
    Option.map_map]
  rfl

omit [Crypto] in
/-- Links between kept blocks stay, the others are cut. -/
theorem spOf (g : Pruned floor st st') {h p : Hash} :
    st'.ghostdag.spOf h = some p ↔ h ∈ st'.dag ∧ st.ghostdag.spOf h = some p ∧ p ∈ st'.dag := by
  rw [GhostdagMap.spOf, g.ghostdag]
  split
  · rename_i hkeep
    have hh := (g.mem h).mpr (keeps_iff.mp hkeep)
    simp only [GhostdagMap.spOf, Option.bind_map, Option.bind_eq_some_iff, Function.comp_apply, cutTo,
      Option.filter_eq_some_iff, keeps_iff, ← g.mem, hh, true_and]
    constructor
    · rintro ⟨d, hd, hp, hmem⟩
      exact ⟨⟨d, hd, hp⟩, hmem⟩
    · rintro ⟨⟨d, hd, hp⟩, hmem⟩
      exact ⟨d, hd, hp, hmem⟩
  · rename_i hkeep
    rw [keeps_iff, ← g.mem] at hkeep
    simp [hkeep]

/-- The chain down to a kept block stays. -/
theorem above (g : Pruned floor st st') (c : st.Consistent) {a h : Hash} (hh : h ∈ st'.dag)
    (ha : a ∈ st'.dag) : Above st'.ghostdag.spOf a h ↔ Above st.ghostdag.spOf a h := by
  constructor
  · intro habove
    exact habove.mono fun x p _ hp => (g.spOf.mp hp).2.1
  · intro habove
    induction habove with
    | refl => exact .refl _
    | @step p b hp hap ih =>
        have hmem := (g.mem b).mp hh
        have hpk : p ∈ st'.dag := by
          refine (g.mem p).mpr ⟨c.above_mem hmem.1 (.step hp (.refl p)), ?_⟩
          exact ((g.mem _).mp ha).2.trans (c.descends.score_le hap)
        exact .step (g.spOf.mpr ⟨hh, hp, hpk⟩) (ih hpk)

/-- The selected tip stays. -/
theorem selectedTip (g : Pruned floor st st') (c : st.Consistent) {tip : Hash}
    (htip : st.selectedTip = some tip) (hkept : tip ∈ st'.dag) : st'.selectedTip = some tip := by
  have hbest := selectedTip_isBest htip
  refine GhostdagMap.selectBest_eq_some.mpr ⟨(g.tips tip).mpr ⟨hbest.mem, ?_⟩,
    (g.known c tip).mpr hkept, fun t ht hk => ?_⟩
  · exact keeps_iff.mpr ((g.mem tip).mp hkept)
  · obtain ⟨ht, hkeep⟩ := (g.tips t).mp ht
    have htk := (g.known c t).mp hk
    have hle := hbest.best t ht ((c.keyed.known t).mpr (c.tips t ht))
    rwa [GhostdagMap.rankLe, g.scoreOf htk, g.scoreOf hkept]

theorem consistent (g : Pruned floor st st') (c : st.Consistent) {tip : Hash}
    (htip : st.selectedTip = some tip) (hkept : tip ∈ st'.dag) : st'.Consistent where
  keyed := by
    refine ⟨fun {h b} hb => ?_, g.known c⟩
    rw [g.dag] at hb
    split at hb
    · exact c.keyed.hash hb
    · cases hb
  linked h p hp := (g.known c p).mpr (g.spOf.mp hp).2.2
  descends h d p hd hp := by
    have hsp : st'.ghostdag.spOf h = some p := by simp [GhostdagMap.spOf, hd, hp]
    obtain ⟨hh, hold, hpk⟩ := g.spOf.mp hsp
    rw [g.scoreOf hh, g.scoreOf hpk]
    exact c.descends.spOf_lt hold
  tips t ht := by
    obtain ⟨ht, hkeep⟩ := (g.tips t).mp ht
    exact (g.mem t).mpr (keeps_iff.mp hkeep)
  selected := ⟨tip, g.selectedTip c htip hkept⟩
  index := g.index.wf
  indexed h hh := (g.mem h).mpr (keeps_iff.mp (g.kept h hh))
  links {h p} hp := by
    have hh := g.kept h (Reachability.mem_of_parentOf hp)
    have hpk := g.kept p (g.index.wf.laminar.parent_mem (Reachability.mem_of_parentOf hp) hp)
    exact g.spOf.mpr ⟨(g.mem h).mpr (keeps_iff.mp hh), c.links (g.index.parent hp),
      (g.mem p).mpr (keeps_iff.mp hpk)⟩

/-- Nothing is removed at score 0. -/
theorem refl (c : st.Consistent) : Pruned 0 st st := by
  have hkeep : ∀ h, st.keeps 0 h = st.dag.contains h := fun h => by simp [keeps]
  refine ⟨fun h => ?_, fun h => ?_, fun h => ?_, .refl c.index, fun h hh => ?_, rfl, rfl, rfl, rfl,
    rfl, rfl⟩
  · rw [hkeep]
    split
    · rfl
    · rename_i hnot
      exact ExtTreeMap.getElem?_eq_none (by simpa using hnot)
  · rw [hkeep]
    split
    · cases hd : st.ghostdag[h]? with
      | none => rfl
      | some d =>
          rw [Option.map_some, cutTo_eq_self]
          intro p hp
          have hmem := (c.keyed.known p).mp (c.linked h p (by simp [GhostdagMap.spOf, hd, hp]))
          simpa [hkeep] using hmem
    · rename_i hnot
      refine ExtTreeMap.getElem?_eq_none fun hk => hnot ?_
      simpa using (c.keyed.known h).mp hk
  · rw [hkeep]
    refine ⟨fun ht => ⟨ht, by simpa using c.tips h ht⟩, And.left⟩
  · rw [hkeep]
    simpa using c.indexed h hh

end Pruned

/-- How far `prune_history` goes: not at all, or up to a block of the selected
chain that is deep enough. -/
def PrunedAt (st : ChainState) (floor : Nat) : Prop :=
  floor = 0 ∨ ∃ tip pp, st.selectedTip = some tip ∧ pruningDepth < st.ghostdag.scoreOf tip ∧
    st.IsLast (st.ghostdag.scoreOf tip - pruningDepth) tip pp ∧ floor = st.ghostdag.scoreOf pp

/-- The index keeps whole branches above a score. -/
theorem Consistent.convex (c : st.Consistent) (floor : Nat) :
    st.reachability.Convex (st.keeps floor · = true) := by
  intro a b p hb ha _ hp habove
  have hsp := c.links hp
  have hup : Above st.ghostdag.spOf a p := habove.mono fun x q _ hq => c.links hq
  refine keeps_iff.mpr ⟨c.above_mem (c.indexed b hb) (.step hsp (.refl p)), ?_⟩
  exact (keeps_iff.mp ha).2.trans (c.descends.score_le hup)

/-- What `prune_history` does to the rest of the state when it removes blocks. -/
structure Rerooted (pp : Hash) (st st' : ChainState) : Prop where
  pruned : Pruned (st.ghostdag.scoreOf pp) st st'
  index : st'.reachability = st.reachability.retain (st.keeps (st.ghostdag.scoreOf pp))
  point : st'.pruningPoint = some pp
  mainChain : ∀ tip, st'.selectedTip = some tip → st'.mainChain = st'.ghostdag.selectedChain tip

theorem pruneTo_cases (c : st.Consistent) (pp : Hash) (index : Nat) :
    st.pruneTo pp index = st ∨ Rerooted pp st (st.pruneTo pp index) := by
  have hkeep : ∀ h, (st.dag.contains h && (st.ghostdag[h]?.map fun d =>
      decide (d.blueScore ≥ st.ghostdag.scoreOf pp)).getD true)
      = st.keeps (st.ghostdag.scoreOf pp) h := by
    intro h
    rw [keeps]
    by_cases hh : h ∈ st.dag
    · have hk := (c.keyed.known h).mpr hh
      rw [ExtTreeMap.mem_iff_isSome_getElem?] at hk
      obtain ⟨d, hd⟩ := Option.isSome_iff_exists.mp hk
      have hscore : st.ghostdag.scoreOf h = d.blueScore := by simp [GhostdagMap.scoreOf, hd]
      rw [hd, Option.map_some, Option.getD_some, hscore]
    · have hno : st.dag.contains h = false := by
        rw [← Bool.not_eq_true]
        simpa using hh
      rw [hno, Bool.false_and, Bool.false_and]
  unfold pruneTo
  simp only [hkeep]
  split
  · exact Or.inl rfl
  · refine Or.inr ?_
    have hrestricted := st.reachability.retain_restricted (st.keeps (st.ghostdag.scoreOf pp))
    have hshrunk := hrestricted.shrunk c.index (c.convex _)
    have hmem : ∀ h ∈ (st.reachability.retain (st.keeps (st.ghostdag.scoreOf pp))).nodes,
        st.keeps (st.ghostdag.scoreOf pp) h = true := fun h hh => ((hrestricted.mem h).mp hh).2
    have hdag : ∀ h, (st.dag.filter fun h _ => st.keeps (st.ghostdag.scoreOf pp) h)[h]?
        = if st.keeps (st.ghostdag.scoreOf pp) h then st.dag[h]? else none := by
      intro h
      rw [ExtTreeMap.getElem?_filter']
      cases st.dag[h]? <;> cases st.keeps (st.ghostdag.scoreOf pp) h <;> rfl
    have hgd : ∀ h, (rerootGhostdag (st.keeps (st.ghostdag.scoreOf pp))
        (st.ghostdag.filter fun h _ => st.keeps (st.ghostdag.scoreOf pp) h))[h]?
        = if st.keeps (st.ghostdag.scoreOf pp) h then
          st.ghostdag[h]?.map (cutTo (st.keeps (st.ghostdag.scoreOf pp))) else none := by
      intro h
      rw [rerootGhostdag, ExtTreeMap.getElem?_map, ExtTreeMap.getElem?_filter']
      cases st.ghostdag[h]? <;> cases st.keeps (st.ghostdag.scoreOf pp) h <;> rfl
    have htips : ∀ h, h ∈ st.tips.filter (st.keeps (st.ghostdag.scoreOf pp)) ↔
        h ∈ st.tips ∧ st.keeps (st.ghostdag.scoreOf pp) h = true := fun h => List.mem_filter
    unfold orderMainChain
    split
    · rename_i hnone
      refine ⟨⟨hdag, hgd, htips, hshrunk, hmem, rfl, rfl, rfl, rfl, rfl, rfl⟩, rfl, rfl, fun tip htip => ?_⟩
      rw [hnone] at htip
      cases htip
    · rename_i tip htip
      refine ⟨⟨hdag, hgd, htips, hshrunk, hmem, rfl, rfl, rfl, rfl, rfl, rfl⟩, rfl, rfl, fun tip' htip' => ?_⟩
      obtain rfl := Option.some.inj (htip.symm.trans htip')
      rfl

/-- Pruning the history keeps blocks as they are. -/
theorem pruneTo_getElem? {pp h : Hash} {index : Nat} {b : Block}
    (hb : (st.pruneTo pp index).dag[h]? = some b) : st.dag[h]? = some b := by
  unfold pruneTo at hb
  dsimp only at hb
  split at hb
  · exact hb
  · rw [(orderMainChain_core _).dag, ExtTreeMap.getElem?_filter'] at hb
    obtain ⟨hb, -⟩ := Option.filter_eq_some_iff.mp hb
    exact hb

theorem pruneHistory_getElem? {h : Hash} {b : Block} (hb : st.pruneHistory.dag[h]? = some b) :
    st.dag[h]? = some b := by
  unfold pruneHistory at hb
  split at hb
  · exact hb
  · cases htip : st.selectedTip with
    | none =>
        rw [htip] at hb
        exact hb
    | some tip =>
        rw [htip] at hb
        dsimp only at hb
        split at hb
        · exact hb
        · split at hb
          · exact hb
          · exact pruneTo_getElem? hb

/-- The block at which `prune_history` cuts. -/
theorem pruneHistory_pruneTo (c : st.Consistent) : st.pruneHistory = st ∨
    ∃ tip pp, st.archival = false ∧ st.selectedTip = some tip ∧ pruningDepth < st.ghostdag.scoreOf tip ∧
      st.IsLast (st.ghostdag.scoreOf tip - pruningDepth) tip pp ∧
      st.pruneHistory = st.pruneTo pp ((st.ghostdag.selectedChain tip).idxOf pp) := by
  unfold pruneHistory
  split
  · exact Or.inl rfl
  · rename_i hmode
    cases htip : st.selectedTip with
    | none => exact Or.inl rfl
    | some tip =>
        dsimp only
        split
        · exact Or.inl rfl
        · rename_i hdeep
          cases hpp : st.lastBelow (st.ghostdag.scoreOf tip - pruningDepth)
              (st.ghostdag.selectedChain tip) with
          | none => exact Or.inl rfl
          | some pp =>
              have hlast := lastBelow_spec c.descends c.linked
                ((c.keyed.known tip).mpr (c.tip_mem htip)) hpp
              exact Or.inr ⟨tip, pp, by simpa using hmode, rfl, by omega, hlast, rfl⟩

/-- **What `prune_history` does**: nothing, or it removes everything below a
block of the selected chain that is deep enough. -/
theorem pruneHistory_cases (c : st.Consistent) : st.pruneHistory = st ∨
    ∃ tip pp, st.archival = false ∧ st.selectedTip = some tip ∧ pruningDepth < st.ghostdag.scoreOf tip ∧
      st.IsLast (st.ghostdag.scoreOf tip - pruningDepth) tip pp ∧ Rerooted pp st st.pruneHistory := by
  rcases pruneHistory_pruneTo c with heq | ⟨tip, pp, hmode, htip, hdeep, hlast, heq⟩
  · exact Or.inl heq
  · rcases pruneTo_cases c pp ((st.ghostdag.selectedChain tip).idxOf pp) with hsame | hcut
    · exact Or.inl (heq.trans hsame)
    · exact Or.inr ⟨tip, pp, hmode, htip, hdeep, hlast, heq ▸ hcut⟩

theorem pruneHistory_spec (c : st.Consistent) :
    ∃ floor, st.PrunedAt floor ∧ Pruned floor st st.pruneHistory := by
  rcases pruneHistory_cases c with heq | ⟨tip, pp, -, htip, hdeep, hlast, hcut⟩
  · rw [heq]
    exact ⟨0, Or.inl rfl, .refl c⟩
  · exact ⟨_, Or.inr ⟨tip, pp, htip, hdeep, hlast, rfl⟩, hcut.pruned⟩

/-- The selected tip is above every floor. -/
theorem PrunedAt.tip_kept {floor : Nat} (h : st.PrunedAt floor) (c : st.Consistent) {tip : Hash}
    (htip : st.selectedTip = some tip) : floor ≤ st.ghostdag.scoreOf tip := by
  rcases h with rfl | ⟨tip', pp, htip', -, hlast, rfl⟩
  · exact Nat.zero_le _
  · obtain rfl := Option.some.inj (htip.symm.trans htip')
    exact c.descends.score_le hlast.above

/-! ### Acceptance, in every mode -/

section Accept

variable {env : Env} {block : Block} {gd : GhostdagData} {sp : Hash}

theorem Admitted.score_selectedParent (a : st.Admitted env block gd sp) : st.ghostdag.scoreOf sp < gd.blueScore := by
  obtain ⟨blues, hblues⟩ := a.computed.blues
  rw [a.computed.score, hblues, List.length_cons]
  omega

/-- A new block is above its parents in score. -/
theorem Consistent.score_parents (c : st.Consistent) (a : st.Admitted env block gd sp) :
    ∀ p ∈ block.parents, st.ghostdag.scoreOf p < gd.blueScore := fun p hp =>
  lt_of_le_of_lt (GhostdagMap.score_le_of_rankLe (a.isBest.best p hp
    ((c.keyed.known p).mpr (a.parents_mem p hp)))) a.score_selectedParent

/-- The selected tip after a block, on any node. -/
theorem Consistent.selectedTip_insertBlock (c : st.Consistent) (a : st.Admitted env block gd sp) {tip : Hash}
    (htip : st.selectedTip = some tip) :
    ∃ tip', (st.insertBlock env block gd).selectedTip = some tip' ∧
      (tip' = block.hash ∨ tip' = tip ∧ tip ∉ block.parents) ∧
      st.ghostdag.scoreOf tip ≤ (st.insertBlock env block gd).ghostdag.scoreOf tip' :=
  selectedTip_insert htip (fun h => a.new ((c.keyed.known _).mp h))
    (fun t ht => (c.keyed.known t).mpr (c.tips t ht)) (c.score_parents a)

/-- An admitted block keeps a node consistent. -/
theorem Consistent.insertBlock (c : st.Consistent) (a : st.Admitted env block gd sp) :
    (st.insertBlock env block gd).Consistent := by
  have he := extends_insertBlock a
  have hsp : sp ∈ st.dag := a.parents_mem sp a.isBest.mem
  have hadded := Reachability.addBlock_added c.index (fun h => a.new (c.indexed _ h)) env.iter_perm
    gd.selectedParent gd.merged
  have hspself := spOf_insertBlock a
  have hspold : ∀ h, block.hash ≠ h →
      (st.insertBlock env block gd).ghostdag.spOf h = st.ghostdag.spOf h := fun h hh =>
    spOf_insert_ne hh
  have hscore := a.score_selectedParent
  have hknown : ∀ h, h ∈ (st.insertBlock env block gd).ghostdag ↔
      h ∈ (st.insertBlock env block gd).dag := by
    intro h
    rw [mem_insertBlock, ← c.keyed.known, ChainState.insertBlock, ExtTreeMap.mem_insert,
      Std.LawfulEqCmp.compare_eq_iff_eq, eq_comm]
  obtain ⟨tip, htip⟩ := c.selected
  obtain ⟨tip', htip', -, -⟩ := c.selectedTip_insertBlock a htip
  refine ⟨⟨fun {h b} hb => ?_, hknown⟩, fun h p hp => ?_, fun h d p hd hp => ?_, fun t ht => ?_,
    ⟨tip', htip'⟩, hadded.wf, fun h hh => ?_, fun {h p} hp => ?_⟩
  · rw [ChainState.insertBlock, ExtTreeMap.getElem?_insert] at hb
    split at hb
    · rename_i heq
      rw [Std.LawfulEqCmp.compare_eq_iff_eq] at heq
      rw [← Option.some.inj hb, heq]
    · exact c.keyed.hash hb
  · rw [hknown, mem_insertBlock]
    by_cases hh : block.hash = h
    · subst hh
      obtain rfl := Option.some.inj (hspself.symm.trans hp)
      exact Or.inr hsp
    · rw [hspold h hh] at hp
      exact Or.inr ((c.keyed.known p).mp (c.linked h p hp))
  · have hsp' : (st.insertBlock env block gd).ghostdag.spOf h = some p := by
      simp [GhostdagMap.spOf, hd, hp]
    by_cases hh : block.hash = h
    · subst hh
      obtain rfl := Option.some.inj (hspself.symm.trans hsp')
      rw [scoreOf_insertBlock, he.scoreOf hsp]
      exact hscore
    · rw [hspold h hh] at hsp'
      have hhmem : h ∈ st.dag := (c.keyed.known h).mp (GhostdagMap.mem_of_spOf hsp')
      rw [he.scoreOf hhmem, he.scoreOf ((c.keyed.known p).mp (c.linked h p hsp'))]
      exact c.descends.spOf_lt hsp'
  · rw [mem_insertBlock]
    rcases mem_nextTips.mp ht with ⟨ht, -⟩ | rfl
    · exact Or.inr (c.tips t ht)
    · exact Or.inl rfl
  · rw [mem_insertBlock]
    exact ((hadded.mem h).mp hh).imp id (c.indexed h)
  · by_cases hh : h = block.hash
    · subst hh
      have := hadded.parent_new.symm.trans hp
      rw [Reachability.treeParentOf, a.computed.selectedParent, Option.filter_eq_some_iff] at this
      exact hspself.trans this.1
    · have := (hadded.parent_old h hh).symm.trans hp
      rw [hspold h (Ne.symm hh)]
      exact c.links this

/-- What pruning does to an accepted state: it clears bodies, then it removes
the blocks below a score. -/
theorem accept_pruned (c : st.Consistent) (a : st.Admitted env block gd sp) :
    ∃ mid floor, Cleared ((st.acceptFull env block gd).toPrune env) (st.acceptFull env block gd) mid ∧
      mid.Consistent ∧ mid.PrunedAt floor ∧ Pruned floor mid (st.accept env block gd) := by
  have hcleared := (st.acceptFull env block gd).pruneBodies_spec env
  have hfull := (c.insertBlock a).of_core (st.acceptFull_core env block gd)
  have hmid := hfull.cleared hcleared
  obtain ⟨floor, hat, hpruned⟩ := pruneHistory_spec hmid
  exact ⟨_, floor, hcleared, hmid, hat, hpruned⟩

/-- **Every accepted block keeps a node consistent**, archival or not. -/
theorem Consistent.accept (c : st.Consistent) (a : st.Admitted env block gd sp) :
    (st.accept env block gd).Consistent := by
  obtain ⟨mid, floor, -, hmid, hat, hpruned⟩ := accept_pruned c a
  obtain ⟨tip, htip⟩ := hmid.selected
  exact hpruned.consistent hmid htip
    ((hpruned.mem tip).mpr ⟨hmid.tip_mem htip, hat.tip_kept hmid htip⟩)

end Accept

end History

end ChainState

end HassanNode
