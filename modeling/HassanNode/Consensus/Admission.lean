import Mathlib
import HassanNode.Consensus.Coloring
import HassanNode.Consensus.AddBlock

/-!
# HassanNode.Consensus.Admission

Inversion of `add_block`: what an admitted block has passed (`Admitted`), and
what accepting it leaves alone. Every later proof about a run reads these facts
and never the checks themselves.
-/

namespace HassanNode

open Std (ExtTreeMap ExtTreeSet)
open Params

namespace ChainState

section Admit

variable [Crypto] {st : ChainState} {env : Env} {block : Block} {gd : GhostdagData}

/-- A block that passed every test, with its selected parent and GHOSTDAG data. -/
structure Admitted (st : ChainState) (env : Env) (block : Block) (gd : GhostdagData) (sp : Hash) :
    Prop where
  shape : st.checkShape block = .ok ()
  finality : st.checkFinality block = .ok ()
  work : st.checkWork env block = .ok ()
  selected : st.ghostdag.selectParent block.parents = some sp
  header : st.checkHeader env block sp = .ok ()
  stark : (st.maySkipStarkVerify env block.hash || verifyStarkProof block) = true
  issuance : block.verifyIssuance = .ok ()
  transactions : st.validateBlockTransactions block = .ok ()
  data : st.computeGhostdag block.parents = .ok gd
  stateRoot : st.postMergesetStateRoot sp gd.merged block gd.blueScore = .ok block.stateRoot

theorem admission_eq_ok : st.admission env block = .ok gd ↔ ∃ sp, st.Admitted env block gd sp := by
  constructor
  · intro h
    rw [admission] at h
    obtain ⟨hshape, h⟩ := Except.seq_eq_ok h
    obtain ⟨hfinality, h⟩ := Except.seq_eq_ok h
    obtain ⟨hwork, h⟩ := Except.seq_eq_ok h
    cases hsp : st.ghostdag.selectParent block.parents with
    | none => simp [hsp] at h
    | some sp =>
        simp only [hsp] at h
        obtain ⟨hheader, h⟩ := Except.seq_eq_ok h
        obtain ⟨hstark, h⟩ := Except.seq_eq_ok h
        obtain ⟨hissuance, h⟩ := Except.seq_eq_ok h
        obtain ⟨htxs, h⟩ := Except.seq_eq_ok h
        obtain ⟨gd', hdata, h⟩ := Except.bind_eq_ok h
        obtain ⟨root, hroot, h⟩ := Except.bind_eq_ok h
        obtain ⟨heq, h⟩ := Except.seq_eq_ok h
        obtain rfl : gd' = gd := Except.ok.inj h
        rw [ensure_eq_ok, beq_iff_eq] at heq
        exact ⟨sp, hshape, hfinality, hwork, hsp, hheader, ensure_eq_ok.mp hstark, hissuance, htxs,
          hdata, heq ▸ hroot⟩
  · rintro ⟨sp, a⟩
    have hstark : ensure (st.maySkipStarkVerify env block.hash || verifyStarkProof block)
        "Invalid STARK proof" = .ok () := ensure_eq_ok.mpr a.stark
    have hroot : ensure (block.stateRoot == block.stateRoot)
        "state_root does not match post-mergeset tip state" = .ok () := ensure_eq_ok.mpr (by simp)
    simp only [admission, a.shape, a.finality, a.work, a.selected, a.header, hstark, a.issuance,
      a.transactions, a.data, a.stateRoot, hroot, bind, Except.bind, pure, Except.pure]

theorem addBlock_eq_ok {st' : ChainState} :
    st.addBlock env block = .ok st' ↔
      ∃ gd sp, st.Admitted env block gd sp ∧ st' = st.accept env block gd := by
  constructor
  · intro h
    obtain ⟨gd, hgd, rfl⟩ := Except.map_eq_ok h
    obtain ⟨sp, ha⟩ := admission_eq_ok.mp hgd
    exact ⟨gd, sp, ha, rfl⟩
  · rintro ⟨gd, sp, ha, rfl⟩
    rw [addBlock, admission_eq_ok.mpr ⟨sp, ha⟩]
    rfl

/-- The tests on the shape of a block. -/
theorem checkShape_eq_ok : st.checkShape block = .ok () ↔
    block.hash ∉ st.dag ∧ block.verifySize = true ∧ block.wireSize ≤ maxBlockBytes ∧
      block.parents ≠ [] ∧ block.parents.length ≤ maxBlockParents ∧ block.parents.Nodup ∧
      ∀ p ∈ block.parents, p ∈ st.dag := by
  constructor
  · intro h
    obtain ⟨hnew, h⟩ := Except.seq_eq_ok h
    obtain ⟨hsize, h⟩ := Except.seq_eq_ok h
    obtain ⟨hwire, h⟩ := Except.seq_eq_ok h
    obtain ⟨hne, h⟩ := Except.seq_eq_ok h
    obtain ⟨hlen, h⟩ := Except.seq_eq_ok h
    obtain ⟨hnodup, h⟩ := Except.seq_eq_ok h
    rw [ensure_eq_ok] at hnew hsize hwire hne hlen hnodup h
    have hnew : block.hash ∉ st.dag := by
      intro hmem
      rw [ExtTreeMap.contains_iff_mem.mpr hmem] at hnew
      cases hnew
    exact ⟨hnew, hsize, by simpa using hwire, by simpa using hne, by simpa using hlen,
      by simpa using hnodup, by simpa using h⟩
  · rintro ⟨hnew, hsize, hwire, hne, hlen, hnodup, hparents⟩
    have hall : block.parents.all st.dag.contains = true := by simpa using hparents
    have hnew : st.dag.contains block.hash = false := by
      rw [← Bool.not_eq_true]
      simpa using hnew
    simp [checkShape, ensure, hnew, hsize, hwire, hne, hlen, hnodup, hall, bind, Except.bind]

omit [Crypto] in
theorem checkFinality_eq_ok : st.checkFinality block = .ok () ↔
    ∀ fp sp, st.finalityPoint = some fp → st.ghostdag.selectParent block.parents = some sp →
      st.reachability.isChainAncestor fp sp ≠ some false := by
  unfold checkFinality
  split
  · rename_i fp sp hfp hsp
    rw [ensure_eq_ok, bne_iff_ne]
    constructor
    · intro h fp' sp' hfp' hsp'
      obtain rfl := Option.some.inj (hfp.symm.trans hfp')
      obtain rfl := Option.some.inj (hsp.symm.trans hsp')
      exact h
    · intro h
      exact h fp sp hfp hsp
  · rename_i hnone
    refine ⟨fun _ fp sp hfp hsp => absurd hsp (hnone fp sp hfp), fun _ => rfl⟩

namespace Admitted

variable {sp : Hash}

theorem new (a : st.Admitted env block gd sp) : block.hash ∉ st.dag := (checkShape_eq_ok.mp a.shape).1

theorem parents_ne (a : st.Admitted env block gd sp) : block.parents ≠ [] :=
  (checkShape_eq_ok.mp a.shape).2.2.2.1

theorem parents_mem (a : st.Admitted env block gd sp) : ∀ p ∈ block.parents, p ∈ st.dag :=
  (checkShape_eq_ok.mp a.shape).2.2.2.2.2.2

theorem isBest (a : st.Admitted env block gd sp) : st.ghostdag.IsBest block.parents sp :=
  GhostdagMap.selectBest_eq_some.mp a.selected

theorem computed (a : st.Admitted env block gd sp) :
    Computed st.dag st.ghostdag block.parents maxMergesetSize sp gd := tryCompute_ok a.data a.selected

theorem starkProof_ne (a : st.Admitted env block gd sp) : block.starkProof ≠ [] := by
  obtain ⟨-, h⟩ := Except.seq_eq_ok a.work
  obtain ⟨-, h⟩ := Except.seq_eq_ok h
  obtain ⟨hwitness, -⟩ := Except.seq_eq_ok h
  rw [ensure_eq_ok] at hwitness
  intro hnil
  simp [hnil] at hwitness

/-- The selected parent of an admitted block that is indexed descends from the
finality point, if that is indexed too. -/
theorem chain (a : st.Admitted env block gd sp) {fp : Hash} (hfp : st.finalityPoint = some fp)
    (hindexed : (st.reachability.isChainAncestor fp sp).isSome) :
    st.reachability.isChainAncestor fp sp = some true := by
  obtain ⟨t, ht⟩ := Option.isSome_iff_exists.mp hindexed
  have hne := checkFinality_eq_ok.mp a.finality fp sp hfp a.selected
  cases t with
  | true => exact ht
  | false => exact absurd ht hne

end Admitted

end Admit

/-! ### What acceptance changes -/

/-- The finality point depends on the data and the tips only. -/
theorem finalityPoint_congr {st st' : ChainState} (hgd : st'.ghostdag = st.ghostdag)
    (htips : st'.tips = st.tips) : st'.finalityPoint = st.finalityPoint := by
  have hscore : st'.scoreOrMax = st.scoreOrMax := by
    funext k
    rw [scoreOrMax, scoreOrMax, hgd]
  have hlast : st'.lastBelow = st.lastBelow := by
    funext threshold chain
    rw [lastBelow, lastBelow, hscore]
  simp only [finalityPoint, selectedTip, hgd, htips, hlast]

/-- Two states with the same blocks, GHOSTDAG data, index and tips. -/
structure SameCore (st st' : ChainState) : Prop where
  dag : st'.dag = st.dag
  ghostdag : st'.ghostdag = st.ghostdag
  reachability : st'.reachability = st.reachability
  tips : st'.tips = st.tips
  archival : st'.archival = st.archival
  chainId : st'.chainId = st.chainId

namespace SameCore

variable {st st' st'' : ChainState}

theorem refl (st : ChainState) : st.SameCore st := ⟨rfl, rfl, rfl, rfl, rfl, rfl⟩

theorem trans (h : st.SameCore st') (h' : st'.SameCore st'') : st.SameCore st'' :=
  ⟨h'.dag.trans h.dag, h'.ghostdag.trans h.ghostdag, h'.reachability.trans h.reachability,
    h'.tips.trans h.tips, h'.archival.trans h.archival, h'.chainId.trans h.chainId⟩

theorem selectedTip (h : st.SameCore st') : st'.selectedTip = st.selectedTip := by
  rw [ChainState.selectedTip, ChainState.selectedTip, h.ghostdag, h.tips]

theorem selectedTipBlueScore (h : st.SameCore st') :
    st'.selectedTipBlueScore = st.selectedTipBlueScore := by
  rw [ChainState.selectedTipBlueScore, ChainState.selectedTipBlueScore, h.selectedTip, h.ghostdag]

theorem finalityPoint (h : st.SameCore st') : st'.finalityPoint = st.finalityPoint :=
  finalityPoint_congr h.ghostdag h.tips

theorem canonicalOrderAt (h : st.SameCore st') (tip : Hash) :
    st'.canonicalOrderAt tip = st.canonicalOrderAt tip := by
  have hmerged : st'.mergedIn = st.mergedIn := by
    funext k
    simp only [mergedIn, h.ghostdag, h.dag]
  simp only [ChainState.canonicalOrderAt, h.ghostdag, hmerged]

theorem canonicalOrder (h : st.SameCore st') : st'.canonicalOrder = st.canonicalOrder := by
  simp only [ChainState.canonicalOrder, h.selectedTip, h.canonicalOrderAt]

theorem applyAll [Crypto] (h : st.SameCore st') (l : Ledger) (hs : List Hash) :
    st'.applyAll l hs = st.applyAll l hs := by
  simp only [ChainState.applyAll, h.dag, h.ghostdag, h.chainId, h.selectedTipBlueScore]

end SameCore

section Accept

variable [Crypto] (st : ChainState) (env : Env) (block : Block) (gd : GhostdagData)

omit [Crypto] in
theorem orderMainChain_core : st.SameCore st.orderMainChain := by
  unfold orderMainChain
  split
  · exact .refl st
  · exact ⟨rfl, rfl, rfl, rfl, rfl, rfl⟩

omit [Crypto] in
theorem captureBase_core : st.SameCore st.captureBase := by
  unfold captureBase
  split
  · exact .refl st
  · exact ⟨rfl, rfl, rfl, rfl, rfl, rfl⟩

/-- The state in which the base is advanced: the block is in, the main chain is
ordered, and the seed is captured. -/
def inserted : ChainState := (st.insertBlock env block gd).orderMainChain.captureBase

omit [Crypto] in
/-- `advance_finalized_base` keeps everything, or folds up to the new point. -/
theorem advanceFinalizedBase_cases [Crypto] :
    st.advanceFinalizedBase = st ∨ ∃ fp, st.finalityPoint = some fp ∧ st.baseFrontier ≠ some fp ∧
      fp ∈ st.canonicalOrder ∧
      st.replayStart st.canonicalOrder ≤ st.canonicalOrder.idxOf fp + 1 ∧
      st.advanceFinalizedBase =
        let folded := st.applyAll st.base ((st.canonicalOrder.drop
          (st.replayStart st.canonicalOrder)).take
            (st.canonicalOrder.idxOf fp + 1 - st.replayStart st.canonicalOrder))
        { st with live := folded, base := folded, baseFrontier := some fp } := by
  unfold advanceFinalizedBase
  cases hfp : st.finalityPoint with
  | none => exact Or.inl rfl
  | some fp =>
      by_cases hsame : st.baseFrontier = some fp
      · exact Or.inl (by simp [hsame])
      · by_cases hmem : fp ∈ st.canonicalOrder
        · by_cases hstart : st.replayStart st.canonicalOrder ≤ st.canonicalOrder.idxOf fp + 1
          · refine Or.inr ⟨fp, rfl, hsame, hmem, hstart, ?_⟩
            simp [hsame, hmem, Nat.not_lt.mpr hstart]
          · exact Or.inl (by simp [hsame, hmem, Nat.not_le.mp hstart])
        · exact Or.inl (by simp [hsame, hmem])

theorem advanceFinalizedBase_core : st.SameCore st.advanceFinalizedBase := by
  rcases st.advanceFinalizedBase_cases with heq | ⟨fp, -, -, -, -, heq⟩
  · rw [heq]
    exact .refl st
  · rw [heq]
    exact ⟨rfl, rfl, rfl, rfl, rfl, rfl⟩

theorem inserted_core : (st.insertBlock env block gd).SameCore (st.inserted env block gd) :=
  (orderMainChain_core _).trans (captureBase_core _)

theorem recomputeVirtualState_core : st.SameCore st.recomputeVirtualState :=
  ⟨rfl, rfl, rfl, rfl, rfl, rfl⟩

theorem dropIncludedFromMempools_core : st.SameCore (st.dropIncludedFromMempools block) :=
  ⟨rfl, rfl, rfl, rfl, rfl, rfl⟩

omit [Crypto] in
theorem cacheDifficulty_core : st.SameCore (st.cacheDifficulty env) :=
  ⟨rfl, rfl, rfl, rfl, rfl, rfl⟩

/-- The core of an accepted state, before pruning. -/
theorem acceptFull_core :
    (st.insertBlock env block gd).SameCore (st.acceptFull env block gd) :=
  ((((st.inserted_core env block gd).trans (advanceFinalizedBase_core _)).trans
    (recomputeVirtualState_core _)).trans (dropIncludedFromMempools_core _ block)).trans
    (cacheDifficulty_core _ env)

/-- The value part of an accepted state, before pruning. -/
theorem acceptFull_ledger :
    (st.acceptFull env block gd).base = (st.inserted env block gd).advanceFinalizedBase.base ∧
    (st.acceptFull env block gd).baseFrontier
      = (st.inserted env block gd).advanceFinalizedBase.baseFrontier ∧
    (st.acceptFull env block gd).baseCaptured
      = (st.inserted env block gd).advanceFinalizedBase.baseCaptured ∧
    (st.acceptFull env block gd).mainChain
      = (st.inserted env block gd).advanceFinalizedBase.mainChain ∧
    (st.acceptFull env block gd).live
      = (st.inserted env block gd).advanceFinalizedBase.recomputeVirtualState.live := by
  simp only [acceptFull, inserted, cacheDifficulty, dropIncludedFromMempools,
    recomputeVirtualState, and_self]

/-- An archival node prunes nothing. -/
theorem accept_archival (h : st.archival = true) :
    st.accept env block gd = st.acceptFull env block gd := by
  have harch : (st.acceptFull env block gd).archival = true :=
    (st.acceptFull_core env block gd).archival.trans h
  have hbodies : (st.acceptFull env block gd).pruneBodies env = st.acceptFull env block gd := by
    simp [pruneBodies, harch]
  simp [accept, hbodies, pruneHistory, harch]

end Accept

/-! ### Runs -/

section Run

variable [Crypto] {st : ChainState}

/-- A step accepts a block, or leaves the state. -/
theorem step_cases (st : ChainState) (call : Env × Block) :
    st.step call = st ∨ ∃ gd sp, st.Admitted call.1 call.2 gd sp ∧
      st.step call = st.accept call.1 call.2 gd := by
  unfold step
  split
  · rename_i st' h
    obtain ⟨gd, sp, ha, rfl⟩ := addBlock_eq_ok.mp h
    exact Or.inr ⟨gd, sp, ha, rfl⟩
  · exact Or.inl rfl

/-- The step of an admitted block. -/
theorem Admitted.step {env : Env} {block : Block} {gd : GhostdagData} {sp : Hash}
    (a : st.Admitted env block gd sp) : st.step (env, block) = st.accept env block gd := by
  rw [ChainState.step, addBlock_eq_ok.mpr ⟨gd, sp, a, rfl⟩]

/-- An archival node keeps the block it admits. -/
theorem Admitted.getElem?_step {env : Env} {block : Block} {gd : GhostdagData} {sp : Hash}
    (a : st.Admitted env block gd sp) (harch : st.archival = true) :
    (st.step (env, block)).dag[block.hash]? = some block := by
  rw [a.step, accept_archival st env block gd harch, (st.acceptFull_core env block gd).dag]
  simp [insertBlock]

theorem run_concat (st : ChainState) (calls : List (Env × Block)) (call : Env × Block) :
    st.run (calls ++ [call]) = (st.run calls).step call := by
  rw [run, run, List.foldl_append, List.foldl_cons, List.foldl_nil]

/-- An invariant kept by acceptance holds along every run. -/
theorem run_induction {P : ChainState → Prop} (hst : P st)
    (haccept : ∀ {s : ChainState} {env block gd sp}, P s → s.Admitted env block gd sp →
      P (s.accept env block gd)) (calls : List (Env × Block)) : P (st.run calls) := by
  induction calls generalizing st with
  | nil => exact hst
  | cons call calls ih =>
      refine ih ?_
      rcases st.step_cases call with heq | ⟨gd, sp, ha, heq⟩
      · rw [heq]
        exact hst
      · rw [heq]
        exact haccept hst ha

/-- Every call of a run has a property of it and the calls before it. -/
def AllCalls (P : List (Env × Block) → Env × Block → Prop) (calls : List (Env × Block)) : Prop :=
  ∀ k call, calls[k]? = some call → P (calls.take k) call

omit [Crypto] in
theorem allCalls_concat {P : List (Env × Block) → Env × Block → Prop} {calls : List (Env × Block)}
    {call : Env × Block} :
    AllCalls P (calls ++ [call]) ↔ AllCalls P calls ∧ P calls call := by
  constructor
  · intro h
    refine ⟨fun k c hk => ?_, ?_⟩
    · have hlt := (List.getElem?_eq_some_iff.mp hk).1
      have := h k c (by rw [List.getElem?_append_left hlt, hk])
      rwa [List.take_append_of_le_length hlt.le] at this
    · have := h calls.length call (by simp)
      rwa [List.take_left] at this
  · rintro ⟨hall, hlast⟩ k c hk
    rcases Nat.lt_trichotomy k calls.length with hlt | rfl | hgt
    · rw [List.getElem?_append_left hlt] at hk
      rw [List.take_append_of_le_length hlt.le]
      exact hall k c hk
    · obtain rfl : call = c := by simpa using hk
      rwa [List.take_left]
    · rw [List.getElem?_append_right hgt.le, List.getElem?_eq_none (by simp; omega)] at hk
      cases hk

end Run

end ChainState

end HassanNode
