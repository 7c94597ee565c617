import Mathlib
import HassanNode.Consensus.Growth

/-!
# HassanNode.Consensus.Archival

The invariant of an archival node (`Archival`): its history and its index are
complete, the finalized base is the seed replayed over the canonical order of
the finality point, and the live ledger is the seed replayed over the canonical
order of the selected tip. Every run of `add_block` calls keeps it.
-/

namespace HassanNode

open Std (ExtTreeMap ExtTreeSet)
open Params

namespace ChainState

section Archival

variable [Crypto]

/-- The part of the canonical order that the base covers. -/
def frontierOrder (st : ChainState) : List Hash :=
  match st.baseFrontier with
  | none => []
  | some f => st.canonicalOrderAt f

/-- The seed replayed over the canonical order of a list of blocks. -/
def fold (st : ChainState) (seed : Ledger) (order : List Hash) : Ledger :=
  seed.replay st.chainId (st.blocksAt order)

theorem fold_append (st : ChainState) (seed : Ledger) (hs hs' : List Hash) :
    st.fold seed (hs ++ hs') = (st.fold seed hs).replay st.chainId (st.blocksAt hs') := by
  rw [fold, fold, blocksAt_append, replay_append]

/-- The invariant of an archival node with the given seed ledger. -/
structure Archival (seed : Ledger) (st : ChainState) : Prop where
  archival : st.archival = true
  whole : st.Whole
  full : ∀ h ∈ st.dag, h ∈ st.reachability.nodes
  mainChain : ∀ {tip}, st.selectedTip = some tip → st.mainChain = st.ghostdag.selectedChain tip
  frontier : st.baseFrontier = st.finalityPoint
  base : st.simBase = st.fold seed st.frontierOrder
  live : ∀ {tip}, st.selectedTip = some tip → st.live = st.fold seed (st.canonicalOrderAt tip)

/-! ### The finalized base -/

section Base

variable {st : ChainState} {seed : Ledger} {tip : Hash}

/-- The frontier, if any, is on the chain of the block. -/
def FrontierOn (st : ChainState) (h : Hash) : Prop :=
  ∀ f, st.baseFrontier = some f → Above st.ghostdag.spOf f h

/-- The replay goes over what the base does not cover yet. -/
theorem frontierOrder_append (w : st.Whole) {h : Hash} (hh : h ∈ st.dag) (hon : st.FrontierOn h) :
    st.replayStart (st.canonicalOrderAt h) = st.frontierOrder.length ∧
      st.frontierOrder
        ++ (st.canonicalOrderAt h).drop (st.replayStart (st.canonicalOrderAt h))
        = st.canonicalOrderAt h := by
  unfold frontierOrder
  cases hf : st.baseFrontier with
  | none => simp [replayStart, hf]
  | some f => exact canonicalOrderAt_replayStart w.dagInv hf (hon f hf) hh

/-- A replay from the base is a replay from the seed. -/
theorem fold_frontier (seed : Ledger) (w : st.Whole) {h : Hash} (hh : h ∈ st.dag)
    (hon : st.FrontierOn h) :
    (st.fold seed st.frontierOrder).replay st.chainId (st.blocksAt
      ((st.canonicalOrderAt h).drop (st.replayStart (st.canonicalOrderAt h))))
      = st.fold seed (st.canonicalOrderAt h) := by
  rw [← fold_append, (frontierOrder_append w hh hon).2]

theorem recomputeVirtualState_live (w : st.Whole) (htip : st.selectedTip = some tip)
    (hbase : st.base = st.fold seed st.frontierOrder) (hon : st.FrontierOn tip) :
    st.recomputeVirtualState.live = st.fold seed (st.canonicalOrderAt tip) := by
  rw [recomputeVirtualState, canonicalOrder, htip, w.keyed.applyAll, hbase,
    fold_frontier seed w (w.tip_mem htip) hon]

/-- The state at a block on the frontier's side, in a throwaway state. -/
theorem virtualStateAt_eq (w : st.Whole) (hbase : st.simBase = st.fold seed st.frontierOrder)
    {h : Hash} (hh : h ∈ st.dag) (hon : st.FrontierOn h) :
    (st.virtualStateAt h).1 = st.fold seed (st.canonicalOrderAt h) := by
  rw [w.keyed.virtualStateAt, hbase, fold_frontier seed w hh hon]

/-- What `advance_finalized_base` leaves: a base folded up to the finality
point, if the point is at or after the frontier. -/
structure Advanced (seed : Ledger) (st st' : ChainState) : Prop where
  core : st.SameCore st'
  frontier : st'.baseFrontier = st.finalityPoint
  base : st'.base = st'.fold seed st'.frontierOrder
  captured : st'.baseCaptured = st.baseCaptured
  mainChain : st'.mainChain = st.mainChain

/-- The blocks folded into the base are those of the new point's order that the
frontier does not cover. -/
theorem advanceFinalizedBase_eq (w : st.Whole) {g : Hash} (hfp : st.finalityPoint = some g)
    (hne : st.baseFrontier ≠ some g) (hon : st.FrontierOn g) :
    st.advanceFinalizedBase =
      let folded := st.applyAll st.base
        ((st.canonicalOrderAt g).drop (st.replayStart (st.canonicalOrderAt g)))
      { st with live := folded, base := folded, baseFrontier := some g } := by
  obtain ⟨tip, htip, -, hlast⟩ := finalityPoint_spec w.dagInv.descends w.linked_ghostdag hfp
  have htipmem := w.tip_mem htip
  have hgmem := w.dagInv.above_mem hlast.above htipmem
  have hontip : st.FrontierOn tip := fun f hf => (hon f hf).trans hlast.above
  have hprefix := prefix_canonicalOrderAt w.dagInv hlast.above
  have hidx := idxOf_canonicalOrderAt w.dagInv hlast.above hgmem
  obtain ⟨hstart, -⟩ := frontierOrder_append w htipmem hontip
  obtain ⟨hstartg, hsplit⟩ := frontierOrder_append w hgmem hon
  have hlen : st.frontierOrder.length ≤ (st.canonicalOrderAt g).length :=
    (List.prefix_iff_eq_append.mpr (hstartg ▸ hsplit)).length_le
  have hmem : g ∈ st.canonicalOrderAt tip := by
    obtain ⟨init, hinit⟩ := canonicalOrderAt_last w.dagInv hgmem
    exact hprefix.subset (by simp [hinit])
  have hslice : ((st.canonicalOrderAt tip).drop (st.replayStart (st.canonicalOrderAt tip))).take
      ((st.canonicalOrderAt tip).idxOf g + 1 - st.replayStart (st.canonicalOrderAt tip))
      = (st.canonicalOrderAt g).drop (st.replayStart (st.canonicalOrderAt g)) := by
    rw [hidx, hstart, hstartg, ← List.drop_take, ← List.prefix_iff_eq_take.mp hprefix]
  have hle : ¬ st.replayStart (st.canonicalOrderAt tip)
      > (st.canonicalOrderAt tip).idxOf g + 1 := by omega
  have horder : st.canonicalOrder = st.canonicalOrderAt tip := by rw [canonicalOrder, htip]
  simp only [advanceFinalizedBase, hfp, if_neg hne, horder, List.contains_iff_mem.mpr hmem,
    Bool.not_true, Bool.false_eq_true, if_false, if_neg hle, hslice]

theorem advanceFinalizedBase_advanced (w : st.Whole)
    (hbase : st.base = st.fold seed st.frontierOrder)
    (hforward : ∀ f, st.baseFrontier = some f →
      ∃ g, st.finalityPoint = some g ∧ Above st.ghostdag.spOf f g) :
    Advanced seed st st.advanceFinalizedBase := by
  by_cases hsame : st.baseFrontier = st.finalityPoint
  · have heq : st.advanceFinalizedBase = st := by
      unfold advanceFinalizedBase
      split
      · rfl
      · rename_i fp hfp
        rw [if_pos (hsame.trans hfp)]
    rw [heq]
    exact ⟨.refl st, hsame, hbase, rfl, rfl⟩
  · cases hfp : st.finalityPoint with
    | none =>
        obtain ⟨f, hf⟩ := Option.ne_none_iff_exists'.mp fun hnone => hsame (hnone.trans hfp.symm)
        obtain ⟨g, hg, -⟩ := hforward f hf
        simp [hfp] at hg
    | some g =>
        have hon : st.FrontierOn g := by
          intro f hf
          obtain ⟨g', hg', habove⟩ := hforward f hf
          obtain rfl := Option.some.inj (hfp.symm.trans hg')
          exact habove
        obtain ⟨tip, htip, -, hlast⟩ := finalityPoint_spec w.dagInv.descends w.linked_ghostdag hfp
        have hgmem := w.dagInv.above_mem hlast.above (w.tip_mem htip)
        have hfold := fold_frontier seed w hgmem hon
        rw [← hbase, ← w.keyed.applyAll] at hfold
        rw [advanceFinalizedBase_eq w hfp (hfp ▸ hsame) hon]
        exact ⟨⟨rfl, rfl, rfl, rfl, rfl, rfl⟩, hfp.symm, hfold, rfl, rfl⟩

end Base

/-! ### One accepted block -/

section Accept

variable {st : ChainState} {seed : Ledger} {env : Env} {block : Block} {gd : GhostdagData} {sp : Hash}

/-- **The finality point moves forward** along the chain of the new tip, if the
point and the new block's selected parent are indexed. -/
theorem Whole.finalityPoint_forward (w : st.Whole) (a : st.Admitted env block gd sp) {fp : Hash}
    (hfp : st.finalityPoint = some fp) (hfpi : fp ∈ st.reachability.nodes)
    (hspi : sp ∈ st.reachability.nodes) :
    ∃ g, (st.insertBlock env block gd).finalityPoint = some g ∧
      Above (st.insertBlock env block gd).ghostdag.spOf fp g := by
  have w' := w.insertBlock a hspi
  have he := extends_insertBlock a
  obtain ⟨tip, htip, hdeep, hlast⟩ := finalityPoint_spec w.dagInv.descends w.linked_ghostdag hfp
  have htipmem := w.tip_mem htip
  have hfpmem := w.dagInv.above_mem hlast.above htipmem
  have hspmem := a.parents_mem sp a.isBest.mem
  obtain ⟨tip', htip', hwhich, hscore⟩ := w.selectedTip_insertBlock a htip
  have habove : Above (st.insertBlock env block gd).ghostdag.spOf fp tip' := by
    rcases hwhich with rfl | ⟨rfl, -⟩
    · exact .step (spOf_insertBlock a)
        ((he.above w.dagInv hspmem).mpr (w.finality a hfp hfpi hspi))
    · exact (he.above w.dagInv htipmem).mpr hlast.above
  obtain ⟨g, hg, habove, -⟩ := ChainState.finalityPoint_forward w'.dagInv.descends w'.linked_ghostdag
    htip' habove hdeep ((he.scoreOf hfpmem).symm ▸ hlast.low) hscore
  exact ⟨g, hg, habove⟩

/-- The frontier is indexed, and so is the selected parent. -/
theorem Archival.forward (inv : Archival seed st) (a : st.Admitted env block gd sp) {fp : Hash}
    (hfp : st.finalityPoint = some fp) : ∃ g, (st.insertBlock env block gd).finalityPoint = some g ∧
      Above (st.insertBlock env block gd).ghostdag.spOf fp g := by
  have w := inv.whole
  obtain ⟨tip, htip, -, hlast⟩ := finalityPoint_spec w.dagInv.descends w.linked_ghostdag hfp
  exact w.finalityPoint_forward a hfp
    (inv.full fp (w.dagInv.above_mem hlast.above (w.tip_mem htip)))
    (inv.full sp (a.parents_mem sp a.isBest.mem))

omit [Crypto] in
theorem orderMainChain_value (s : ChainState) :
    s.orderMainChain.baseFrontier = s.baseFrontier ∧ s.orderMainChain.simBase = s.simBase ∧
      ∀ tip, s.selectedTip = some tip → s.orderMainChain.mainChain = s.ghostdag.selectedChain tip := by
  unfold orderMainChain
  split
  · rename_i hnone
    exact ⟨rfl, rfl, fun tip htip => by simp [hnone] at htip⟩
  · rename_i tip htip
    refine ⟨rfl, rfl, fun tip' htip' => ?_⟩
    obtain rfl := Option.some.inj (htip.symm.trans htip')
    rfl

omit [Crypto] in
theorem captureBase_value (s : ChainState) :
    s.captureBase.baseFrontier = s.baseFrontier ∧ s.captureBase.base = s.simBase ∧
      s.captureBase.baseCaptured = true ∧ s.captureBase.mainChain = s.mainChain := by
  unfold captureBase simBase
  by_cases hcaptured : s.baseCaptured = true
  · simp [hcaptured]
  · simp [hcaptured]

/-- The value part of the state in which the base is advanced. -/
theorem inserted_value (st : ChainState) (env : Env) (block : Block) (gd : GhostdagData) :
    (st.inserted env block gd).baseFrontier = st.baseFrontier ∧
    (st.inserted env block gd).base = st.simBase ∧
    (st.inserted env block gd).baseCaptured = true ∧
    ∀ tip, (st.insertBlock env block gd).selectedTip = some tip →
      (st.inserted env block gd).mainChain
        = (st.insertBlock env block gd).ghostdag.selectedChain tip := by
  obtain ⟨hfrontier, hbase, hmain⟩ := orderMainChain_value (st.insertBlock env block gd)
  obtain ⟨hfrontier', hbase', hcaptured, hmain'⟩ :=
    captureBase_value (st.insertBlock env block gd).orderMainChain
  exact ⟨hfrontier'.trans hfrontier, hbase'.trans hbase, hcaptured,
    fun tip htip => hmain'.trans (hmain tip htip)⟩

theorem fold_core {st' : ChainState} (h : st.SameCore st') (l : Ledger) (hs : List Hash) :
    st'.fold l hs = st.fold l hs := by
  simp only [fold, blocksAt, h.dag, h.ghostdag, h.chainId]

/-- A frontier that stays has the same order in a larger DAG. -/
theorem fold_frontierOrder {st' : ChainState} (w : st.Whole) (w' : st'.Whole) (he : st.Extends st')
    (hframe : st'.baseFrontier = st.baseFrontier)
    (hmem : ∀ f, st.baseFrontier = some f → f ∈ st.dag) :
    st'.fold seed st'.frontierOrder = seed.replay st'.chainId (st.blocksAt st.frontierOrder) := by
  unfold frontierOrder fold
  rw [hframe]
  cases hf : st.baseFrontier with
  | none => rfl
  | some f => rw [he.blocksAt_order w.dagInv w'.dagInv (hmem f hf)]

theorem Archival.frontier_mem (inv : Archival seed st) {f : Hash} (hf : st.baseFrontier = some f) :
    (∀ {tip}, st.selectedTip = some tip → Above st.ghostdag.spOf f tip) ∧ f ∈ st.dag := by
  have w := inv.whole
  rw [inv.frontier] at hf
  obtain ⟨tip, htip, -, hlast⟩ := finalityPoint_spec w.dagInv.descends w.linked_ghostdag hf
  refine ⟨fun htip' => ?_, w.dagInv.above_mem hlast.above (w.tip_mem htip)⟩
  obtain rfl := Option.some.inj (htip.symm.trans htip')
  exact hlast.above

/-- The base advanced after an insertion. -/
theorem Archival.advanced (inv : Archival seed st) (a : st.Admitted env block gd sp) :
    Advanced seed (st.inserted env block gd) (st.inserted env block gd).advanceFinalizedBase := by
  have hcore := st.inserted_core env block gd
  have w := inv.whole
  have w' := w.insertBlock a (inv.full sp (a.parents_mem sp a.isBest.mem))
  have w'' := w'.of_core hcore
  have he := (extends_insertBlock a).trans (.of_core hcore)
  obtain ⟨hfrontier, hbase, -, -⟩ := inserted_value st env block gd
  refine advanceFinalizedBase_advanced w'' ?_ fun f hf => ?_
  · have hchain : (st.inserted env block gd).chainId = st.chainId := hcore.chainId
    rw [hbase, inv.base, fold_frontierOrder w w'' he hfrontier fun f hf => (inv.frontier_mem hf).2,
      hchain, fold]
  · rw [hfrontier, inv.frontier] at hf
    rw [hcore.finalityPoint, hcore.ghostdag]
    exact inv.forward a hf

/-- **Accepting a block keeps the invariant of an archival node.** -/
theorem Archival.accept (inv : Archival seed st) (a : st.Admitted env block gd sp) :
    Archival seed (st.accept env block gd) := by
  have w := inv.whole
  have hspi := inv.full sp (a.parents_mem sp a.isBest.mem)
  have hinserted := st.inserted_core env block gd
  have hfull := st.acceptFull_core env block gd
  have w' := w.insertBlock a hspi
  have g := inv.advanced a
  obtain ⟨hbase, hfrontier, hcaptured, hmain, hlive⟩ := st.acceptFull_ledger env block gd
  obtain ⟨-, -, hcap, hmain'⟩ := inserted_value st env block gd
  -- the advanced state and the final one have the same blocks
  have hcore : (st.inserted env block gd).advanceFinalizedBase.SameCore (st.acceptFull env block gd) :=
    ⟨by rw [hfull.dag, g.core.dag, hinserted.dag], by rw [hfull.ghostdag, g.core.ghostdag, hinserted.ghostdag],
      by rw [hfull.reachability, g.core.reachability, hinserted.reachability],
      by rw [hfull.tips, g.core.tips, hinserted.tips], by rw [hfull.archival, g.core.archival, hinserted.archival],
      by rw [hfull.chainId, g.core.chainId, hinserted.chainId]⟩
  have hfrontier' : (st.acceptFull env block gd).baseFrontier = (st.acceptFull env block gd).finalityPoint := by
    rw [hfrontier, g.frontier, hinserted.finalityPoint, hfull.finalityPoint]
  rw [accept_archival st env block gd inv.archival]
  refine ⟨hfull.archival.trans inv.archival, w'.of_core hfull, fun h hh => ?_, fun {tip} htip => ?_,
    hfrontier', ?_, fun {tip} htip => ?_⟩
  · rw [hfull.dag] at hh
    rw [hfull.reachability, (w.added_insertBlock a hspi).mem]
    exact (mem_insertBlock.mp hh).imp id (inv.full h)
  · rw [hfull.selectedTip] at htip
    rw [hmain, g.mainChain, hmain' tip htip, hfull.ghostdag]
  · have horder : (st.acceptFull env block gd).frontierOrder
        = (st.inserted env block gd).advanceFinalizedBase.frontierOrder := by
      unfold frontierOrder
      rw [hfrontier]
      cases (st.inserted env block gd).advanceFinalizedBase.baseFrontier with
      | none => rfl
      | some f => exact hcore.canonicalOrderAt f
    rw [simBase, hcaptured, g.captured, hcap, if_pos rfl, hbase, g.base, fold_core hcore, horder]
  · rw [hcore.selectedTip] at htip
    have wa := (w'.of_core hinserted).of_core g.core
    rw [hlive, recomputeVirtualState_live wa htip g.base, fold_core hcore, hcore.canonicalOrderAt]
    intro f hf
    rw [← hfrontier, hfrontier'] at hf
    have wf := w'.of_core hfull
    obtain ⟨tip', htip', -, hlast⟩ := finalityPoint_spec wf.dagInv.descends wf.linked_ghostdag hf
    obtain rfl := Option.some.inj (htip.symm.trans (hcore.selectedTip.symm.trans htip'))
    exact hcore.ghostdag ▸ hlast.above

end Accept

/-! ### Runs -/

section Run

variable {st : ChainState} {seed : Ledger}

theorem applyBlockEffects_genesis (l : Ledger) (chainId score : Nat) :
    l.replay chainId [(genesisBlock, score)] = l := rfl

theorem Archival.seeded (easy : Bool) (seed : Ledger) : Archival seed (seeded easy true seed) := by
  have w := whole_seeded easy true seed
  have htip : ∀ {tip}, (ChainState.seeded easy true seed).selectedTip = some tip →
      tip = genesisBlock.hash := fun h => ((seeded_mem easy true seed _).mp (w.tip_mem h)).symm
  have hdata := seeded_ghostdag easy true seed genesisBlock.hash
  rw [if_pos rfl] at hdata
  have hroot : (ChainState.seeded easy true seed).ghostdag.spOf genesisBlock.hash = none := by
    rw [GhostdagMap.spOf, hdata]
    rfl
  have hgenesis := (seeded_mem easy true seed genesisBlock.hash).mpr rfl
  refine ⟨rfl, w, fun h hh => ?_, fun {tip} h => ?_, ?_, rfl, fun {tip} h => ?_⟩
  · exact (seeded_indexed easy true seed h).mpr ((seeded_mem easy true seed h).mp hh).symm
  · rw [htip h, GhostdagMap.selectedChain_root hroot]
    rfl
  · obtain ⟨tip, h⟩ := w.selected
    have hscore : (ChainState.seeded easy true seed).ghostdag.scoreOf tip = 0 := by
      rw [htip h, GhostdagMap.scoreOf, hdata]
      rfl
    rw [finalityPoint_eq h, hscore, if_pos (Nat.zero_le _)]
    rfl
  · have hblock : (ChainState.seeded easy true seed).dag[genesisBlock.hash]? = some genesisBlock := by
      simp [ChainState.seeded, new]
    rw [htip h, canonicalOrderAt_root w.dagInv hgenesis hroot, fold, blocksAt, List.filterMap_cons,
      hblock]
    rfl

/-- **Every run of an archival node keeps its invariant.** -/
theorem Archival.run (easy : Bool) (seed : Ledger) (calls : List (Env × Block)) :
    Archival seed ((ChainState.seeded easy true seed).run calls) :=
  run_induction (Archival.seeded easy seed) (fun inv a => inv.accept a) calls

/-- What a run keeps of the state it starts from: its blocks, and its finality
point on the chain of the new one. -/
structure Later (st st' : ChainState) : Prop where
  blocks : st.Extends st'
  point : ∀ f, st.finalityPoint = some f →
    ∃ g, st'.finalityPoint = some g ∧ Above st'.ghostdag.spOf f g

theorem Archival.later_accept (inv : Archival seed st) {env : Env} {block : Block}
    {gd : GhostdagData} {sp : Hash} (a : st.Admitted env block gd sp) :
    Later st (st.accept env block gd) := by
  have hcore := st.acceptFull_core env block gd
  rw [accept_archival st env block gd inv.archival]
  refine ⟨(extends_insertBlock a).trans (.of_core hcore), fun f hf => ?_⟩
  rw [hcore.finalityPoint, hcore.ghostdag]
  exact inv.forward a hf

theorem Archival.later (inv : Archival seed st) (calls : List (Env × Block)) :
    Later st (st.run calls) := by
  refine (run_induction (P := fun s => Archival seed s ∧ Later st s) ⟨inv, .refl st, fun f hf => ?_⟩
    ?_ calls).2
  · exact ⟨f, hf, .refl f⟩
  · rintro s env block gd sp ⟨hs, hlater⟩ a
    have hnext := hs.later_accept a
    refine ⟨hs.accept a, hlater.blocks.trans hnext.blocks, fun f hf => ?_⟩
    obtain ⟨g, hg, habove⟩ := hlater.point f hf
    obtain ⟨g', hg', habove'⟩ := hnext.point g hg
    have hgmem := (hs.frontier_mem (hs.frontier.trans hg)).2
    exact ⟨g', hg', ((hnext.blocks.above hs.whole.dagInv hgmem).mpr habove).trans habove'⟩

/-- An archival run keeps the genesis block. -/
theorem archival_genesis (easy : Bool) (seed : Ledger) (calls : List (Env × Block)) :
    ((ChainState.seeded easy true seed).run calls).dag[genesisBlock.hash]? = some genesisBlock ∧
      ((ChainState.seeded easy true seed).run calls).ghostdag[genesisBlock.hash]? = some .genesis := by
  have hmem := (seeded_mem easy true seed genesisBlock.hash).mpr rfl
  have he := ((Archival.seeded easy seed).later calls).blocks
  rw [he.dag _ hmem, he.ghostdag _ hmem, seeded_ghostdag, if_pos rfl]
  exact ⟨by simp [ChainState.seeded, new], rfl⟩

/-- What is true of a block when it is admitted, and stays true as the node
grows, is true of every block after genesis. -/
theorem Archival.each_block {Q : ChainState → Hash → Block → Prop}
    {P : List (Env × Block) → Env × Block → Prop} (easy : Bool) (seed : Ledger)
    (hnew : ∀ {calls env block gd sp}, P calls (env, block) →
      Archival seed ((ChainState.seeded easy true seed).run calls) →
      (∀ h b, ((ChainState.seeded easy true seed).run calls).dag[h]? = some b →
        h ≠ genesisBlock.hash → Q ((ChainState.seeded easy true seed).run calls) h b) →
      ((ChainState.seeded easy true seed).run calls).Admitted env block gd sp →
      Q (((ChainState.seeded easy true seed).run calls).insertBlock env block gd) block.hash block)
    (hgrow : ∀ {s s' : ChainState} {h b}, s.Whole → s.Extends s' → s.dag[h]? = some b →
      Q s h b → Q s' h b)
    {calls : List (Env × Block)} (hall : AllCalls P calls) {h : Hash} {b : Block}
    (hb : ((ChainState.seeded easy true seed).run calls).dag[h]? = some b)
    (hne : h ≠ genesisBlock.hash) : Q ((ChainState.seeded easy true seed).run calls) h b := by
  induction calls using List.reverseRecOn generalizing h b with
  | nil => exact absurd ((seeded_mem easy true seed h).mp (DagInv.mem_of_getElem? hb)).symm hne
  | append_singleton calls call ih =>
      obtain ⟨hbefore, hlast⟩ := allCalls_concat.mp hall
      have inv := Archival.run easy seed calls
      have hold := fun h b hb hne => ih hbefore (h := h) (b := b) hb hne
      rw [run_concat] at hb ⊢
      rcases step_cases _ call with heq | ⟨gd, sp, a, heq⟩
      · rw [heq] at hb ⊢
        exact hold h b hb hne
      · have hfull := ((ChainState.seeded easy true seed).run calls).acceptFull_core call.1 call.2 gd
        rw [heq, accept_archival _ _ _ _ inv.archival] at hb ⊢
        rw [hfull.dag] at hb
        have hinserted := inv.whole.insertBlock a (inv.full sp (a.parents_mem sp a.isBest.mem))
        refine hgrow hinserted (.of_core hfull) hb ?_
        obtain rfl | hh := mem_insertBlock.mp (DagInv.mem_of_getElem? hb)
        · obtain rfl := Option.some.inj (getElem?_insertBlock.symm.trans hb)
          exact hnew hlast inv hold a
        · have he := extends_insertBlock a
          have hb' := (he.dag h hh).symm.trans hb
          exact hgrow inv.whole he hb' (hold h b hb' hne)

end Run

end Archival

end ChainState

end HassanNode
