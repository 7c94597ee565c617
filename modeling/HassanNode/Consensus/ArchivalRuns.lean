import Mathlib
import HassanNode.Consensus.Mining

/-!
# HassanNode.Consensus.ArchivalRuns

What the invariant of an archival node says about its runs: the finality point
and the base, the state roots in the headers, and that two nodes that accept the
same blocks in different orders end in the same state.
-/

namespace HassanNode

open Std (ExtTreeMap ExtTreeSet)
open Params

namespace ChainState

section ArchivalRuns

variable [Crypto]

/-! ### Finality -/

/-- **The finality point moves forward, and each block is folded once.** -/
theorem archival_finality_folds_once (easy : Bool) (seed : Ledger) (calls : List (Env × Block)) :
    let st := (seeded easy true seed).run calls
    (∀ later f, st.finalityPoint = some f → ∃ g, (st.run later).finalityPoint = some g ∧
      f ∈ (st.run later).ghostdag.selectedChain g) ∧
    (∀ f, st.baseFrontier = some f → ∃ tip, st.selectedTip = some tip ∧
      f ∈ st.ghostdag.selectedChain tip ∧
      st.replayStart st.canonicalOrder = st.canonicalOrder.idxOf f + 1) ∧
    ∀ env block st', st.addBlock env block = .ok st' →
      st'.baseFrontier = st'.finalityPoint ∧
      ∃ done, done <+: st'.canonicalOrder ∧ done.Nodup ∧ done.getLast? = st'.baseFrontier ∧
        st'.base = st'.applyAll seed done := by
  intro st
  have inv : Archival seed st := .run easy seed calls
  refine ⟨fun later f hf => ?_, fun f hf => ?_, fun env block st' hok => ?_⟩
  · have hrun := inv.later later
    have inv' : Archival seed (st.run later) :=
      run_induction inv (fun inv a => inv.accept a) later
    obtain ⟨g, hg, habove⟩ := hrun.point f hf
    exact ⟨g, hg, (GhostdagMap.mem_selectedChain inv'.whole.dagInv.descends).mpr habove⟩
  · obtain ⟨tip, htip⟩ := inv.whole.selected
    have habove := (inv.frontier_mem hf).1 htip
    have hmem : f ∈ st.canonicalOrderAt tip := by
      obtain ⟨init, hinit⟩ := canonicalOrderAt_last inv.whole.dagInv (inv.frontier_mem hf).2
      exact (prefix_canonicalOrderAt inv.whole.dagInv habove).subset (by simp [hinit])
    refine ⟨tip, htip, (GhostdagMap.mem_selectedChain inv.whole.dagInv.descends).mpr habove, ?_⟩
    rw [replayStart, hf, canonicalOrder, htip]
    simp only [List.contains_iff_mem, hmem, if_true]
  · obtain ⟨gd, sp, a, rfl⟩ := addBlock_eq_ok.mp hok
    have inv' := inv.accept a
    have hcaptured : (st.accept env block gd).baseCaptured = true := by
      rw [accept_archival st env block gd inv.archival, (st.acceptFull_ledger env block gd).2.2.1,
        (inv.advanced a).captured]
      exact (inserted_value _ _ _ _).2.2.1
    have hbase := inv'.base
    rw [simBase, hcaptured, if_pos rfl] at hbase
    refine ⟨inv'.frontier, (st.accept env block gd).frontierOrder, ?_, ?_, ?_, ?_⟩
    · obtain ⟨tip, htip⟩ := inv'.whole.selected
      rw [canonicalOrder, htip]
      unfold frontierOrder
      cases hf : (st.accept env block gd).baseFrontier with
      | none => exact List.nil_prefix
      | some f => exact prefix_canonicalOrderAt inv'.whole.dagInv ((inv'.frontier_mem hf).1 htip)
    · unfold frontierOrder
      cases hf : (st.accept env block gd).baseFrontier with
      | none => exact List.nodup_nil
      | some f => exact nodup_canonicalOrderAt _ f
    · unfold frontierOrder
      cases hf : (st.accept env block gd).baseFrontier with
      | none => rfl
      | some f =>
          obtain ⟨init, hinit⟩ := canonicalOrderAt_last inv'.whole.dagInv (inv'.frontier_mem hf).2
          change ((st.accept env block gd).canonicalOrderAt f).getLast? = some f
          rw [hinit, List.getLast?_append, List.getLast?_singleton]
          rfl
    · rw [hbase, inv'.whole.keyed.applyAll, fold]

/-! ### State roots -/

section StateRoot

variable {st : ChainState} {seed : Ledger}

/-- Every header commits to the replay of its block's canonical order. -/
def Committed (seed : Ledger) (st : ChainState) : Prop :=
  ∀ (h : Hash) (b : Block), st.dag[h]? = some b → b.parents ≠ [] →
    (st.fold seed (st.canonicalOrderAt h)).merkleRoot = b.stateRoot

/-- The ledger the body of an admitted block is tried on. -/
theorem Archival.mergesetVirtual_eq (inv : Archival seed st) {env : Env} {block : Block}
    {gd : GhostdagData} {sp : Hash} (a : st.Admitted env block gd sp) :
    (st.mergesetVirtual sp gd.merged).1 = st.fold seed (st.canonicalOrderAt sp ++ gd.merged) := by
  have w := inv.whole
  have hspmem := a.parents_mem sp a.isBest.mem
  have hon : st.FrontierOn sp := by
    intro f hf
    have hfp := inv.frontier.symm.trans hf
    exact w.finality a hfp (inv.full f (inv.frontier_mem hf).2) (inv.full sp hspmem)
  rw [w.keyed.mergesetVirtual, virtualStateAt_eq w inv.base hspmem hon, fold_append]

/-- What an admitted block is replayed after. -/
theorem Archival.mem_of_replayed_before (inv : Archival seed st) {env : Env} {block : Block}
    {gd : GhostdagData} {sp : Hash} (a : st.Admitted env block gd sp) :
    ∀ x ∈ st.canonicalOrderAt sp ++ gd.merged, x ∈ st.dag := by
  have w := inv.whole
  have hspmem := a.parents_mem sp a.isBest.mem
  have w' := w.insertBlock a (inv.full sp hspmem)
  have hspOf := spOf_insertBlock a
  intro x hx
  have hpast : Past (st.insertBlock env block gd).dag x block.hash := by
    rcases List.mem_append.mp hx with hx | hx
    · refine .of_parent (w'.dagInv.spOf_parent hspOf) ?_
      rw [w.past_insertBlock a hspmem]
      exact (mem_canonicalOrderAt w.dagInv hspmem).mp hx
    · have hx' : x ∈ (st.insertBlock env block gd).ghostdag.mergedOf block.hash := by
        rwa [mergedOf_insertBlock]
      exact ((w'.dagInv.mem_mergedOf hspOf).mp hx').1
  rcases mem_insertBlock.mp (w'.dagInv.past_mem hpast (mem_insertBlock.mpr (Or.inl rfl))) with
    rfl | hx
  · exact absurd hpast (w'.dagInv.past_irrefl _)
  · exact hx

/-- The replay that ends with an admitted block is what admission computed. -/
theorem Archival.fold_new (inv : Archival seed st) {env : Env} {block : Block}
    {gd : GhostdagData} {sp : Hash} (a : st.Admitted env block gd sp) :
    ∃ l fees, (st.fold seed (st.canonicalOrderAt sp ++ gd.merged)).simulateApplyBlockBody st.chainId 0
        gd.blueScore block = .ok (l, fees) ∧
      (st.insertBlock env block gd).fold seed ((st.insertBlock env block gd).canonicalOrderAt block.hash)
        = l.applyBlockReward block gd.blueScore fees ∧
      (l.applyBlockReward block gd.blueScore fees).merkleRoot = block.stateRoot := by
  have w := inv.whole
  have hspmem := a.parents_mem sp a.isBest.mem
  have w' := w.insertBlock a (inv.full sp hspmem)
  have he := extends_insertBlock a
  have hspOf := spOf_insertBlock a
  obtain ⟨⟨l, fees⟩, hbody, hroot⟩ := Except.bind_eq_ok a.stateRoot
  rw [inv.mergesetVirtual_eq a] at hbody
  have heffects := Ledger.applyBlockEffects_of_simulate a.parents_ne hbody
  have hnew : (st.insertBlock env block gd).blocksAt [block.hash] = [(block, gd.blueScore)] := by
    have hblock : (st.insertBlock env block gd).dag[block.hash]? = some block := by
      simp [insertBlock]
    have hscore : (st.insertBlock env block gd).ghostdag.scoreOf block.hash = gd.blueScore :=
      scoreOf_insert_self
    simp only [blocksAt, List.filterMap_cons, List.filterMap_nil, hblock, hscore, Option.map_some]
  refine ⟨l, fees, hbody, ?_, Except.ok.inj hroot⟩
  rw [canonicalOrderAt_step w'.dagInv hspOf, mergedOf_insertBlock,
    he.canonicalOrderAt w.dagInv w'.dagInv hspmem, fold_append, hnew, fold, he.blocksAt (inv.mem_of_replayed_before a)]
  exact heffects

/-- An admitted block commits to the replay that ends with it. -/
theorem Archival.committed_new (inv : Archival seed st) {env : Env} {block : Block}
    {gd : GhostdagData} {sp : Hash} (a : st.Admitted env block gd sp) :
    ((st.insertBlock env block gd).fold seed
      ((st.insertBlock env block gd).canonicalOrderAt block.hash)).merkleRoot = block.stateRoot := by
  obtain ⟨l, fees, -, hfold, hroot⟩ := inv.fold_new a
  rw [hfold, hroot]

theorem Archival.committed_accept (inv : Archival seed st) (hc : Committed seed st) {env : Env}
    {block : Block} {gd : GhostdagData} {sp : Hash} (a : st.Admitted env block gd sp) :
    Committed seed (st.accept env block gd) := by
  have hcore := st.acceptFull_core env block gd
  have w' := inv.whole.insertBlock a (inv.full sp (a.parents_mem sp a.isBest.mem))
  rw [accept_archival st env block gd inv.archival]
  intro h b hb hne
  rw [fold_core hcore, hcore.canonicalOrderAt]
  rw [hcore.dag] at hb
  rcases mem_insertBlock.mp (DagInv.mem_of_getElem? hb) with rfl | hh
  · have : (st.insertBlock env block gd).dag[block.hash]? = some block := by simp [insertBlock]
    obtain rfl := Option.some.inj (this.symm.trans hb)
    exact inv.committed_new a
  · have he := extends_insertBlock a
    rw [fold, he.blocksAt_order inv.whole.dagInv w'.dagInv hh]
    exact hc h b ((he.dag h hh).symm.trans hb) hne

theorem Archival.committed_run (easy : Bool) (seed : Ledger) (calls : List (Env × Block)) :
    Committed seed ((ChainState.seeded easy true seed).run calls) := by
  refine (run_induction (P := fun s => Archival seed s ∧ Committed seed s)
    ⟨.seeded easy seed, fun _ _ hb hne => ?_⟩ (fun h a => ⟨h.1.accept a, h.1.committed_accept h.2 a⟩) calls).2
  rw [(seeded_get easy true seed hb).2] at hne
  exact absurd rfl hne

/-- The first block of a chain has score 1: it has no other parent. -/
theorem Whole.score_of_first (w : st.Whole) {h p : Hash} (hsp : st.ghostdag.spOf h = some p)
    (hroot : st.ghostdag.spOf p = none) : st.ghostdag.scoreOf h = 1 := by
  have inv := w.dagInv
  obtain ⟨b, d, hb, hd, hc⟩ := inv.of_spOf hsp
  have hzero : ∀ {k}, k ∈ st.dag → st.ghostdag.spOf k = none → st.ghostdag.scoreOf k = 0 := by
    intro k hk hkroot
    obtain ⟨c, hc⟩ := DagInv.exists_block hk
    have hparents := inv.parentsOf_of_root hk hkroot
    rw [Dag.parentsOf_eq hc] at hparents
    simp [GhostdagMap.scoreOf, inv.root hc hparents, GhostdagData.genesis]
  have hpmem := (inv.spOf_mem hsp).2
  -- a parent with a selected parent would rank higher than the root
  have hparents : ∀ q ∈ b.parents, q = p := by
    intro q hq
    have hqmem := inv.closed hb q hq
    have hle := GhostdagMap.score_le_of_rankLe (hc.best.best q hq ((inv.known q).mpr hqmem))
    rw [hzero hpmem hroot] at hle
    cases hqsp : st.ghostdag.spOf q with
    | none => rw [w.roots q hqmem hqsp, w.roots p hpmem hroot]
    | some r =>
        have := inv.descends.spOf_lt hqsp
        omega
  have hmerged : d.merged = [] := by
    refine List.eq_nil_iff_forall_not_mem.mpr fun x hx => ?_
    obtain ⟨⟨q, hq, hxq⟩, hnot⟩ := Dag.mem_mergeset.mp (hc.merged.mem_iff.mp hx)
    exact hnot (hparents q hq ▸ hxq)
  obtain ⟨blues, hblues⟩ := hc.blues
  have hnil : blues = [] := by
    simp only [GhostdagData.merged, hblues, List.drop_succ_cons, List.drop_zero,
      List.append_eq_nil_iff] at hmerged
    exact hmerged.1
  rw [DagInv.scoreOf_eq hd, hc.score, hblues, hnil, hzero hpmem hroot]
  rfl

/-- The finality point is never the root. -/
theorem Whole.finalityPoint_ne_root (w : st.Whole) {fp : Hash} (hfp : st.finalityPoint = some fp) :
    st.ghostdag.spOf fp ≠ none := by
  intro hroot
  obtain ⟨tip, htip, hdeep, hlast⟩ := finalityPoint_spec w.dagInv.descends w.linked_ghostdag hfp
  rcases hlast.above.split with rfl | ⟨c, hc, hcabove⟩
  · have := hlast.low
    have hdepth : 0 < finalityDepth := by decide
    omega
  · have hone := w.score_of_first hc hroot
    cases hlast.last c hcabove (by omega) with
    | refl => simp [hroot] at hc
    | step hp _ => simp [hroot] at hp

/-- Whether a block's state can be replayed from the base: its chain has the
frontier, or there is none and it is not the genesis block. -/
def Replayable (st : ChainState) (h : Hash) : Prop :=
  match st.baseFrontier with
  | none => h ≠ genesisBlock.hash
  | some f => f ∈ st.ghostdag.selectedChain h

theorem Archival.merkleRootAt_eq (inv : Archival seed st) (hc : Committed seed st) {h : Hash}
    {b : Block} (hb : st.dag[h]? = some b) (hr : st.Replayable h) : st.merkleRootAt h = b.stateRoot := by
  have w := inv.whole
  have hh := DagInv.mem_of_getElem? hb
  have hon : st.FrontierOn h := by
    intro f hf
    simp only [Replayable, hf] at hr
    exact (GhostdagMap.mem_selectedChain w.dagInv.descends).mp hr
  have hne : b.parents ≠ [] := by
    intro hparents
    have hroot : st.ghostdag.spOf h = none := by
      simp [GhostdagMap.spOf, w.dagInv.root hb hparents, GhostdagData.genesis]
    cases hf : st.baseFrontier with
    | none =>
        simp only [Replayable, hf] at hr
        exact hr (w.roots h hh hroot)
    | some f =>
        have hfroot := w.finalityPoint_ne_root (inv.frontier.symm.trans hf)
        cases hon f hf with
        | refl => exact hfroot hroot
        | step hp _ => simp [hroot] at hp
  rw [merkleRootAt, virtualStateAt_eq w inv.base hh hon]
  exact hc h b hb hne

/-- The chain of a block that was just accepted has the frontier. -/
theorem Archival.replayable_new (inv : Archival seed st) {env : Env} {block : Block}
    {gd : GhostdagData} {sp : Hash} (a : st.Admitted env block gd sp) :
    (st.accept env block gd).Replayable block.hash := by
  have w := inv.whole
  have inv' := inv.accept a
  have w' := inv'.whole
  have hlater := inv.later_accept a
  have hspmem := a.parents_mem sp a.isBest.mem
  have hcore := st.acceptFull_core env block gd
  have hacc := accept_archival st env block gd inv.archival
  unfold Replayable
  cases hf : (st.accept env block gd).baseFrontier with
  | none =>
      intro heq
      exact a.new (heq ▸ w.genesis_mem)
  | some g =>
      refine (GhostdagMap.mem_selectedChain w'.dagInv.descends).mpr ?_
      obtain ⟨tip', htip', hdeep, hlast⟩ := finalityPoint_spec w'.dagInv.descends w'.linked_ghostdag
        (inv'.frontier.symm.trans hf)
      obtain ⟨tip, htip⟩ := w.selected
      obtain ⟨tip₁, htip₁, hwhich, -⟩ := w.selectedTip_insertBlock a htip
      rw [hacc, hcore.selectedTip] at htip'
      obtain rfl := Option.some.inj (htip₁.symm.trans htip')
      rcases hwhich with rfl | ⟨rfl, -⟩
      · exact hlast.above
      · -- the old tip stays, so the point is at or above the old one
        have htipmem := w.tip_mem htip
        have habove := (hlater.blocks.above w.dagInv htipmem).mp hlast.above
        have hgmem := w.dagInv.above_mem habove htipmem
        have hlow := hlast.low
        rw [hlater.blocks.scoreOf htipmem] at hdeep hlow
        rw [hlater.blocks.scoreOf hgmem] at hlow
        obtain ⟨f, hfp⟩ := lastBelow_isSome w.dagInv.descends w.linked_ghostdag
          ((w.dagInv.known tip₁).mpr htipmem) habove hlow
        have hpoint : st.finalityPoint = some f := by
          rw [finalityPoint_eq htip, if_neg (by omega), hfp]
        have hgf := (lastBelow_spec w.dagInv.descends w.linked_ghostdag
          ((w.dagInv.known tip₁).mpr htipmem) hfp).last g habove hlow
        have hfmem := (inv.frontier_mem (inv.frontier.trans hpoint)).2
        have hfsp := w.finality a hpoint (inv.full f hfmem) (inv.full sp hspmem)
        refine .step ?_ ((hlater.blocks.above w.dagInv hspmem).mpr (hgf.trans hfsp))
        rw [hacc, hcore.ghostdag]
        exact spOf_insertBlock a

/-- **Strict admission and conflict-skip replay commit to the same state.** -/
theorem archival_stateRoot_eq_replay (easy : Bool) (seed : Ledger) (calls : List (Env × Block)) :
    let st := (ChainState.seeded easy true seed).run calls
    (∀ h b, st.dag[h]? = some b → st.Replayable h → st.merkleRootAt h = b.stateRoot) ∧
    ∀ env block st', st.addBlock env block = .ok st' →
      (∃ gd sp, st.ghostdag.selectParent block.parents = some sp ∧
        st.computeGhostdag block.parents = .ok gd ∧
        st.postMergesetStateRoot sp gd.merged block gd.blueScore
          = .ok (st'.merkleRootAt block.hash)) ∧
      ∃ tip b, st'.selectedTip = some tip ∧ st'.dag[tip]? = some b ∧ st'.merkleRoot = b.stateRoot := by
  intro st
  have inv : Archival seed st := .run easy seed calls
  have hc : Committed seed st := Archival.committed_run easy seed calls
  refine ⟨fun h b hb hr => inv.merkleRootAt_eq hc hb hr, fun env block st' hok => ?_⟩
  obtain ⟨gd, sp, a, rfl⟩ := addBlock_eq_ok.mp hok
  have inv' := inv.accept a
  have hc' := inv.committed_accept hc a
  have w' := inv'.whole
  have hblock : (st.accept env block gd).dag[block.hash]? = some block := by
    rw [accept_archival st env block gd inv.archival, (st.acceptFull_core env block gd).dag]
    simp [insertBlock]
  have hroot := inv'.merkleRootAt_eq hc' hblock (inv.replayable_new a)
  refine ⟨⟨gd, sp, a.selected, a.data, by rw [hroot]; exact a.stateRoot⟩, ?_⟩
  obtain ⟨tip, htip⟩ := w'.selected
  obtain ⟨b, hb⟩ := DagInv.exists_block (w'.tip_mem htip)
  refine ⟨tip, b, htip, hb, ?_⟩
  rw [merkleRoot, inv'.live htip]
  refine hc' tip b hb fun hparents => ?_
  -- a root would rank below the new block
  have hnewtip : block.hash ∈ (st.accept env block gd).tips := by
    rw [accept_archival st env block gd inv.archival, (st.acceptFull_core env block gd).tips]
    exact mem_nextTips.mpr (Or.inr rfl)
  have hle := GhostdagMap.score_le_of_rankLe ((selectedTip_isBest htip).best _ hnewtip
    ((w'.dagInv.known _).mpr (DagInv.mem_of_getElem? hblock)))
  have hlt := w'.dagInv.score_lt hblock a.isBest.mem
  have hzero : (st.accept env block gd).ghostdag.scoreOf tip = 0 := by
    simp [GhostdagMap.scoreOf, w'.dagInv.root hb hparents, GhostdagData.genesis]
  omega

end StateRoot

/-! ### Arrival order -/

section ArrivalOrder

variable {st st' : ChainState} {seed : Ledger}

/-- Every call of the list is accepted, in this order. -/
def addBlocks (st : ChainState) (calls : List (Env × Block)) : Except String ChainState :=
  calls.foldlM (fun st call => st.addBlock call.1 call.2) st

/-- After accepting a list of blocks, the DAG has these and the old ones. -/
theorem Archival.addBlocks (inv : Archival seed st) {calls : List (Env × Block)}
    (hok : st.addBlocks calls = .ok st') :
    Archival seed st' ∧ st'.chainId = st.chainId ∧ ∀ h b, st'.dag[h]? = some b ↔
      st.dag[h]? = some b ∨ b.hash = h ∧ b ∈ calls.map Prod.snd := by
  induction calls generalizing st with
  | nil =>
      obtain rfl := Except.ok.inj hok
      exact ⟨inv, rfl, by simp⟩
  | cons call calls ih =>
      obtain ⟨env, block⟩ := call
      obtain ⟨st₁, hst₁, hok⟩ := Except.bind_eq_ok hok
      obtain ⟨gd, sp, a, rfl⟩ := addBlock_eq_ok.mp hst₁
      have hcore := st.acceptFull_core env block gd
      obtain ⟨inv', hchain, hdag⟩ := ih (inv.accept a) hok
      have hinsert : ∀ h b, (st.accept env block gd).dag[h]? = some b ↔
          st.dag[h]? = some b ∨ b.hash = h ∧ b = block := by
        intro h b
        rw [accept_archival st env block gd inv.archival, hcore.dag, insertBlock,
          ExtTreeMap.getElem?_insert]
        by_cases hh : block.hash = h
        · have hnone : st.dag[h]? = none := ExtTreeMap.getElem?_eq_none (hh ▸ a.new)
          simp only [hh, Std.ReflCmp.compare_self, if_true, hnone, Option.some.injEq]
          constructor
          · rintro rfl
            exact Or.inr ⟨hh, rfl⟩
          · rintro (h | ⟨-, rfl⟩)
            · cases h
            · rfl
        · simp only [Std.LawfulEqCmp.compare_eq_iff_eq, hh, if_false]
          refine ⟨Or.inl, fun hor => hor.resolve_right ?_⟩
          rintro ⟨hb, rfl⟩
          exact hh hb
      refine ⟨inv', ?_, fun h b => ?_⟩
      · rw [hchain, accept_archival st env block gd inv.archival, hcore.chainId]
        rfl
      · rw [hdag, hinsert, List.map_cons, List.mem_cons, or_assoc, ← and_or_left]

omit [Crypto] in
/-- The selected tip depends on the tips as a set. -/
theorem selectedTip_congr (hgd : st'.ghostdag = st.ghostdag) (htips : ∀ h, h ∈ st.tips ↔ h ∈ st'.tips)
    {tip : Hash} (htip : st.selectedTip = some tip) : st'.selectedTip = some tip := by
  have hbest := selectedTip_isBest htip
  rw [selectedTip, hgd]
  exact GhostdagMap.selectBest_eq_some.mpr ⟨(htips tip).mp hbest.mem, hbest.known,
    fun c hc hk => hbest.best c ((htips c).mpr hc) hk⟩

end ArrivalOrder

end ArchivalRuns

end ChainState

namespace Sample

end Sample

end HassanNode
