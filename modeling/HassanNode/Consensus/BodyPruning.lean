import Mathlib
import HassanNode.Consensus.Alike
import HassanNode.Consensus.History

/-!
# HassanNode.Consensus.BodyPruning

An archival node and a pruning node that are given the same blocks, up to the depth at
which history is removed. The pruning node clears bodies and drops leaves of its index;
as long as no block needs what is gone (`Spared`), both accept the same blocks and agree
on everything else (`bodies_pruned_agree`). A block on a dropped leaf does need it: the
pruning node cannot check its selected chain.
-/

namespace HassanNode

open Std (ExtTreeMap)
open Params

namespace Reachability

/-- What is left after leaves are dropped hangs where it hung. -/
theorem foldl_dropLeaf_parent {r : Reachability} (w : r.WF) {hs : List Hash} {h p : Hash}
    (hh : h ∈ (hs.foldl dropLeaf r).nodes) (hp : r.parentOf h = some p) : (hs.foldl dropLeaf r).parentOf h = some p := by
  induction hs generalizing r with
  | nil => exact hp
  | cons x hs ih =>
      have hdrop := dropLeaf_shrunk w x
      refine ih hdrop.wf hh ?_
      have hmem := (foldl_dropLeaf_shrunk hdrop.wf hs).mem h hh
      rcases dropLeaf_cases w x with ⟨heq, -⟩ | ⟨-, hnone, hrestricted, -⟩
      · rw [heq]
        exact hp
      · obtain ⟨hold, hne⟩ := (hrestricted.mem h).mp hmem
        refine (hrestricted.parent h hne p).mpr ⟨hp, fun heq => ?_⟩
        exact (hnone h).elim (fun hchild => hchild (heq ▸ hp)) (fun hout => hout hold)

theorem foldl_dropLeaf_mem {r : Reachability} (w : r.WF) {hs : List Hash} {h : Hash} (hh : h ∈ r.nodes)
    (hnot : h ∉ hs) : h ∈ (hs.foldl dropLeaf r).nodes := by
  induction hs generalizing r with
  | nil => exact hh
  | cons x hs ih =>
      obtain ⟨hne, hnot⟩ := not_or.mp fun hmem => hnot (List.mem_cons.mpr hmem)
      refine ih (dropLeaf_shrunk w x).wf ?_ hnot
      rcases dropLeaf_cases w x with ⟨heq, -⟩ | ⟨-, -, hrestricted, -⟩
      · rw [heq]
        exact hh
      · exact (hrestricted.mem h).mpr ⟨hh, hne⟩

theorem covers_foldl_dropLeaf {r : Reachability} {Anc : Hash → Hash → Prop} (c : r.Covers Anc) (hs : List Hash) :
    (hs.foldl dropLeaf r).Covers Anc := by
  induction hs generalizing r with
  | nil => exact c
  | cons x hs ih => exact ih (c.dropLeaf x)

/-- Where the index has every link of its nodes, its tree is the selected-parent tree. -/
theorem above_parentOf_iff {r : Reachability} (w : r.WF) {sp : Hash → Option Hash}
    (hlinked : ∀ h p, r.parentOf h = some p → sp h = some p)
    (htree : ∀ {h p}, h ∈ r.nodes → sp h = some p → r.parentOf h = some p) {a b : Hash} (hb : b ∈ r.nodes) :
    Above r.parentOf a b ↔ Above sp a b := by
  constructor
  · intro habove
    exact habove.mono fun x p _ hp => hlinked x p hp
  · intro habove
    induction habove with
    | refl => exact .refl a
    | step hp _ ih =>
        have hparent := htree hb hp
        exact .step hparent (ih (w.laminar.parent_mem hb hparent))

end Reachability

namespace ChainState

section Two

variable [Crypto]

/-- The node that keeps everything. -/
def archivalRun (easy : Bool) (seed : Ledger) (ds : List PairedCall) : ChainState :=
  (seeded easy true seed).run (ds.map PairedCall.onFirst)

/-- The node that does not. -/
def pruningRun (easy : Bool) (seed : Ledger) (ds : List PairedCall) : ChainState :=
  (seeded easy false seed).run (ds.map PairedCall.onSecond)

/-- The block needs nothing that the pruning node has given up: its selected parent is
indexed; a certificate that the archival node finds valid has an anchor with its body; and
the blocks that admission and the live ledger go over have their transactions. -/
structure Spared (A N : ChainState) (d : PairedCall) : Prop where
  indexed : ∀ sp, N.ghostdag.selectParent d.block.parents = some sp → sp ∈ N.reachability.nodes
  anchored : ∀ op ∈ d.block.custodyOps, A.validateCustodyOp op = .ok () → N.dag[op.blockHash]? = A.dag[op.blockHash]?
  replayed : ∀ sp gd, N.ghostdag.selectParent d.block.parents = some sp → N.computeGhostdag d.block.parents = .ok gd →
    ∀ h ∈ N.tried sp gd ++ (N.inserted d.onSecond.1 d.block gd).pending, h ≠ d.block.hash →
      N.dag[h]?.map Block.items = A.dag[h]?.map Block.items

variable {A N st st' : ChainState} {env env' : Env} {block : Block} {gd : GhostdagData} {sp : Hash} {d : PairedCall}

/-! ### What clearing bodies keeps -/

omit [Crypto] in
theorem Cleared.alike {hs : List Hash} (g : Cleared hs st st') : st.Alike st' := by
  refine ⟨fun h => ?_, g.ghostdag, g.tips, g.mainChain, g.live, g.base, g.baseCaptured, g.baseFrontier, g.chainId⟩
  rw [g.dag]
  split
  · rw [Option.map_map]
    rfl
  · rfl

/-- A node that clears bodies has all its history still. -/
theorem Whole.cleared (w : st.Whole) {hs : List Hash} (g : Cleared hs st st') : st'.Whole := by
  have hshrunk := Reachability.foldl_dropLeaf_shrunk w.covers.wf hs
  refine ⟨g.alike.dagInv w.dagInv, ?_, fun h hh => ?_, fun h p hp => ?_, fun h => ?_, fun h hh hroot => ?_, ?_⟩
  · rw [g.index, g.alike.past]
    exact Reachability.covers_foldl_dropLeaf w.covers hs
  · rw [g.index] at hh
    exact (g.mem h).mpr (w.indexed h (hshrunk.mem h hh))
  · rw [g.index] at hp
    rw [g.ghostdag]
    exact w.linked h p (hshrunk.parent hp)
  · rw [g.tips, g.mem, g.alike.parentsOf]
    exact w.tips h
  · rw [g.ghostdag] at hroot
    exact w.roots h ((g.mem h).mp hh) hroot
  · obtain ⟨tip, htip⟩ := w.selected
    exact ⟨tip, g.selectedTip.trans htip⟩

omit [Crypto] in
theorem selectedTipBlueScore_eq {tip : Hash} (htip : st.selectedTip = some tip) :
    st.selectedTipBlueScore = st.ghostdag.scoreOf tip := by
  rw [selectedTipBlueScore, htip]
  rfl

omit [Crypto] in
theorem Alike.selectedTipBlueScore (k : st.Alike st') : st'.selectedTipBlueScore = st.selectedTipBlueScore := by
  rw [ChainState.selectedTipBlueScore, ChainState.selectedTipBlueScore, k.selectedTip, k.ghostdag]

/-- Up to the pruning depth no history is removed. -/
theorem pruneHistory_eq_self (hshort : st.selectedTipBlueScore ≤ pruningDepth) : st.pruneHistory = st := by
  unfold pruneHistory
  split
  · rfl
  · split
    · rfl
    · rename_i tip htip
      rw [selectedTipBlueScore_eq htip] at hshort
      simp only [if_pos hshort]

/-! ### The two nodes -/

/-- Every indexed block hangs under its selected parent. -/
def LinksIndexed (st : ChainState) : Prop :=
  ∀ h p, h ∈ st.reachability.nodes → st.ghostdag.spOf h = some p → st.reachability.parentOf h = some p

theorem Whole.linksIndexed_insertBlock (w : st.Whole) (a : st.Admitted env block gd sp) (hsp : sp ∈ st.reachability.nodes)
    (hlinks : st.LinksIndexed) : (st.insertBlock env block gd).LinksIndexed := by
  have hadded := w.added_insertBlock a hsp
  intro h p hh hp
  by_cases heq : h = block.hash
  · subst heq
    rw [spOf_insertBlock a] at hp
    rw [hadded.parent_new, hp]
  · rw [ChainState.insertBlock, spOf_insert_ne (Ne.symm heq)] at hp
    rw [hadded.parent_old h heq]
    exact hlinks h p (((hadded.mem h).mp hh).resolve_left heq) hp

/-- The finality rule on a node that can check it. -/
theorem Whole.checkFinality_iff (w : st.Whole) (hlinks : st.LinksIndexed)
    (hindexed : st.FinalityIndexed block) :
    st.checkFinality block = .ok () ↔ ∀ fp sp, st.finalityPoint = some fp →
      st.ghostdag.selectParent block.parents = some sp → Above st.ghostdag.spOf fp sp := by
  rw [checkFinality_eq_ok]
  refine forall_congr' fun fp => forall_congr' fun sp => forall_congr' fun hfp => forall_congr' fun hsp => ?_
  obtain ⟨hfpi, hspi⟩ := hindexed fp sp hfp hsp
  obtain ⟨t, ht⟩ := Option.isSome_iff_exists.mp (Reachability.isChainAncestor_isSome hfpi hspi)
  rw [← Reachability.above_parentOf_iff w.covers.wf w.linked (fun {h p} => hlinks h p) hspi, ← (w.covers.wf.isChainAncestor_eq ht).2.2, ht]
  simp

/-- A whole node and one that has lost bodies and leaves of its index. Only blocks far
below the selected tip are not indexed. -/
structure Paired (A N : ChainState) : Prop where
  alike : A.Alike N
  bodies : ∀ h : Hash, N.dag[h]? = A.dag[h]? ∨ N.dag[h]? = A.dag[h]?.map Block.clearBody
  whole : N.Whole
  links : N.LinksIndexed
  low : ∀ h ∈ N.dag, h ∉ N.reachability.nodes → N.ghostdag.scoreOf h + finalityDepth ≤ N.selectedTipBlueScore

theorem validateCustodyOp_witness {op : CustodyCertificate} (h : st.validateCustodyOp op = .ok ()) :
    ∃ anchor, st.dag[op.blockHash]? = some anchor ∧ anchor.starkProof ≠ [] := by
  rw [validateCustodyOp] at h
  obtain ⟨-, h⟩ := Except.seq_eq_ok h
  obtain ⟨-, h⟩ := Except.seq_eq_ok h
  obtain ⟨-, h⟩ := Except.seq_eq_ok h
  obtain ⟨-, h⟩ := Except.seq_eq_ok h
  obtain ⟨sid, -, h⟩ := Except.bind_eq_ok h
  obtain ⟨-, h⟩ := Except.seq_eq_ok h
  cases hanchor : st.dag[op.blockHash]? with
  | none =>
      rw [hanchor] at h
      cases h
  | some anchor =>
      rw [hanchor] at h
      obtain ⟨hwitness, -⟩ := Except.seq_eq_ok h
      refine ⟨anchor, rfl, fun hnil => ?_⟩
      simp [hnil, ensure] at hwitness

/-- A block whose transactions are the same on both nodes is replayed alike. -/
theorem Alike.replaysAlike (k : st.Alike st') {h : Hash}
    (hbody : st'.dag[h]? = st.dag[h]? ∨ st'.dag[h]? = st.dag[h]?.map Block.clearBody)
    (hitems : st'.dag[h]?.map Block.items = st.dag[h]?.map Block.items) : st.ReplaysAlike st' h := by
  intro l
  rw [blocksAt, blocksAt, List.filterMap_cons, List.filterMap_cons, List.filterMap_nil, List.filterMap_nil, k.ghostdag]
  cases hb : st.dag[h]? with
  | none =>
      have hnone : st'.dag[h]? = none := by
        rw [hb] at hbody
        exact hbody.elim id id
      rw [hnone]
  | some b =>
      rw [hb, Option.map_some] at hitems hbody
      obtain ⟨b', hb', heq⟩ := Option.map_eq_some_iff.mp hitems
      have hclear : b'.clearBody = b.clearBody := by
        rw [hb'] at hbody
        rcases hbody with hsame | hcleared
        · rw [Option.some.inj hsame]
        · rw [Option.some.inj hcleared]
          rfl
      rw [hb']
      show l.applyBlockEffects _ _ _ b' = l.applyBlockEffects _ _ _ b
      exact Ledger.applyBlockEffects_congr hclear heq l _ _ _

namespace Paired

/-- Both indexes answer as the search does. -/
theorem oracle (p : Paired A N) (w : A.Whole) :
    N.reachability.isAncestor N.dag = A.reachability.isAncestor A.dag := by
  funext a b
  rw [p.whole.covers.isAncestor_eq p.whole.dagInv.past_irrefl, w.covers.isAncestor_eq w.dagInv.past_irrefl,
    p.alike.bfsIsAncestor]

/-- The chain of the selected tip is indexed. -/
theorem chain_indexed (p : Paired A N) {tip h : Hash} (htip : N.selectedTip = some tip)
    (habove : Above N.ghostdag.spOf h tip) : h ∈ N.reachability.nodes := by
  have hindexed : tip ∈ N.reachability.nodes := by
    by_contra hout
    have hlow := p.low tip (p.whole.tip_mem htip) hout
    rw [selectedTipBlueScore_eq htip] at hlow
    have hdeep : finalityDepth = 432000 := rfl
    omega
  clear htip
  induction habove with
  | refl => exact hindexed
  | @step q x hq _ ih =>
      exact ih (p.whole.covers.wf.laminar.parent_mem hindexed (p.links _ _ hindexed hq))

theorem finalityIndexed (p : Paired A N) (hindexed : ∀ sp, N.ghostdag.selectParent block.parents = some sp →
    sp ∈ N.reachability.nodes) : N.FinalityIndexed block := by
  intro fp sp hfp hsp
  obtain ⟨tip, htip, -, hlast⟩ := finalityPoint_spec p.whole.dagInv.descends p.whole.linked_ghostdag hfp
  exact ⟨p.chain_indexed htip hlast.above, hindexed sp hsp⟩

/-- **Both nodes admit a block that is spared, or neither does.** -/
theorem admitted_iff (p : Paired A N) {seed : Ledger} (inv : Archival seed A)
    (hlinks : A.LinksIndexed) (hs : Spared A N d) :
    A.Admitted d.onFirst.1 d.block gd sp ↔ N.Admitted d.onSecond.1 d.block gd sp := by
  have k := p.alike
  have horacle := p.oracle inv.whole
  have hfinality : N.checkFinality d.block = .ok () ↔ A.checkFinality d.block = .ok () := by
    rw [p.whole.checkFinality_iff p.links (p.finalityIndexed hs.indexed),
      inv.whole.checkFinality_iff hlinks (inv.finalityIndexed d.block), k.finalityPoint, k.ghostdag]
  have htried : ∀ {h}, A.ghostdag.selectParent d.block.parents = some sp → A.computeGhostdag d.block.parents = .ok gd →
      d.block.hash ∉ A.dag → h ∈ A.tried sp gd → A.ReplaysAlike N h := by
    intro h hsp hdata hnew hh
    refine k.replaysAlike (p.bodies h) ?_
    by_cases heq : h = d.block.hash
    · have hout : h ∉ A.dag := heq ▸ hnew
      rw [ExtTreeMap.getElem?_eq_none hout, ExtTreeMap.getElem?_eq_none (mt (k.mem h).mp hout)]
    · rw [tried, ← k.canonicalOrderAt, ← k.replayStart] at hh
      exact hs.replayed sp gd (k.ghostdag ▸ hsp) ((k.computeGhostdag horacle _).trans hdata) h
        (List.mem_append_left _ hh) heq
  constructor
  · intro a
    refine a.alike k inv.whole.keyed d.sameClock (hfinality.mpr a.finality) horacle (fun op hop hvalid => ?_)
      fun h hh => htried a.selected a.data a.new hh
    simpa only [validateCustodyOp, k.chainId, hs.anchored op hop hvalid] using hvalid
  · intro a
    have hnew : d.block.hash ∉ A.dag := fun hmem => a.new ((k.mem _).mpr hmem)
    refine a.alike k.symm p.whole.keyed d.sameClock.symm (hfinality.mp a.finality) horacle.symm (fun op hop hvalid => ?_)
      fun h hh => k.replaysAlike_symm ?_
    · -- the anchor has its witnesses, so it was not cleared
      obtain ⟨anchor, hanchor, hproof⟩ := validateCustodyOp_witness hvalid
      rcases p.bodies op.blockHash with hsame | hcleared
      · simpa only [validateCustodyOp, k.chainId, hsame] using hvalid
      · rw [hanchor] at hcleared
        obtain ⟨b, -, hb⟩ := Option.map_eq_some_iff.mp hcleared.symm
        exact absurd (congrArg Block.starkProof hb).symm hproof
    · rw [tried, k.canonicalOrderAt, k.replayStart] at hh
      exact htried (k.ghostdag ▸ a.selected) ((k.computeGhostdag horacle _).symm.trans a.data) hnew hh

/-- An accepted block is the same on both nodes; the others are as they were. -/
theorem bodies_insertBlock (p : Paired A N) (gd : GhostdagData) (h : Hash) :
    (N.insertBlock d.onSecond.1 d.block gd).dag[h]? = (A.insertBlock d.onFirst.1 d.block gd).dag[h]? ∨
      (N.insertBlock d.onSecond.1 d.block gd).dag[h]?
        = (A.insertBlock d.onFirst.1 d.block gd).dag[h]?.map Block.clearBody := by
  rw [insertBlock, insertBlock, ExtTreeMap.getElem?_insert, ExtTreeMap.getElem?_insert]
  split
  · exact Or.inl rfl
  · exact p.bodies h

/-- The live ledgers of both nodes go over the same transactions. -/
theorem replaysAlike_inserted (p : Paired A N) (hs : Spared A N d)
    (a' : N.Admitted d.onSecond.1 d.block gd sp) {h : Hash} (hh : h ∈ (A.inserted d.onFirst.1 d.block gd).pending) :
    (A.inserted d.onFirst.1 d.block gd).ReplaysAlike (N.inserted d.onSecond.1 d.block gd) h := by
  have kᵢ : (A.inserted d.onFirst.1 d.block gd).Alike (N.inserted d.onSecond.1 d.block gd) := p.alike.inserted rfl
  have hdag := (A.inserted_core d.onFirst.1 d.block gd).dag
  have hdag' := (N.inserted_core d.onSecond.1 d.block gd).dag
  refine kᵢ.replaysAlike (by rw [hdag, hdag']; exact p.bodies_insertBlock gd h) ?_
  rw [hdag, hdag', insertBlock, insertBlock, ExtTreeMap.getElem?_insert, ExtTreeMap.getElem?_insert]
  split
  · rfl
  · rename_i hne
    rw [Std.LawfulEqCmp.compare_eq_iff_eq] at hne
    have hpending : (N.inserted d.onSecond.1 d.block gd).pending = (A.inserted d.onFirst.1 d.block gd).pending := by
      rw [pending, pending, kᵢ.canonicalOrder, kᵢ.replayStart]
    exact hs.replayed sp gd a'.selected a'.data h (List.mem_append_right _ (hpending ▸ hh)) fun heq => hne heq.symm

/-- A block that is not indexed is far below the tip: it was, or it has just been cleared. -/
theorem low_accept (p : Paired A N) (a : N.Admitted d.onSecond.1 d.block gd sp) (hsp : sp ∈ N.reachability.nodes)
    {h : Hash} (hh : h ∈ (N.acceptFull d.onSecond.1 d.block gd).dag)
    (hout : h ∉ ((N.acceptFull d.onSecond.1 d.block gd).pruneBodies d.onSecond.1).reachability.nodes) :
    (N.acceptFull d.onSecond.1 d.block gd).ghostdag.scoreOf h + finalityDepth
      ≤ (N.acceptFull d.onSecond.1 d.block gd).selectedTipBlueScore := by
  have hcore := N.acceptFull_core d.onSecond.1 d.block gd
  have hadded := p.whole.added_insertBlock a hsp
  have hfull : (N.acceptFull d.onSecond.1 d.block gd).Whole := (p.whole.insertBlock a hsp).of_core hcore
  have g := (N.acceptFull d.onSecond.1 d.block gd).pruneBodies_spec d.onSecond.1
  by_cases hindexed : h ∈ (N.acceptFull d.onSecond.1 d.block gd).reachability.nodes
  · have hcleared : h ∈ (N.acceptFull d.onSecond.1 d.block gd).toPrune d.onSecond.1 := by
      by_contra hnot
      refine hout ?_
      rw [g.index]
      exact Reachability.foldl_dropLeaf_mem hfull.covers.wf hindexed hnot
    rw [toPrune] at hcleared
    split at hcleared
    · cases hcleared
    · rename_i hmode
      obtain ⟨hdeep, -⟩ := Bool.and_eq_true_iff.mp (List.mem_filter.mp hcleared).2
      rw [decide_eq_true_eq, scoreOrMax_eq ((hfull.dagInv.known h).mpr hh)] at hdeep
      have htall : ¬ (N.acceptFull d.onSecond.1 d.block gd).selectedTipBlueScore ≤ finalityDepth := fun hle =>
        hmode (by simp [hle])
      omega
  · -- the tip has not gone down
    rw [hcore.reachability, hadded.mem] at hindexed
    rw [hcore.dag, mem_insertBlock] at hh
    have hold : h ∈ N.dag := hh.resolve_left fun heq => hindexed (Or.inl heq)
    have hlow := p.low h hold fun hin => hindexed (Or.inr hin)
    obtain ⟨tip, htip⟩ := p.whole.selected
    obtain ⟨tip', htip', -, hscore⟩ := p.whole.selectedTip_insertBlock a htip
    rw [selectedTipBlueScore_eq htip] at hlow
    rw [selectedTipBlueScore_eq (hcore.selectedTip.trans htip'), hcore.ghostdag, (extends_insertBlock a).scoreOf hold]
    exact hlow.trans hscore

/-- **Step.** An accepted block that is spared, up to the pruning depth. -/
theorem accept (p : Paired A N) {seed : Ledger} (inv : Archival seed A) (hs : Spared A N d)
    (a : A.Admitted d.onFirst.1 d.block gd sp) (a' : N.Admitted d.onSecond.1 d.block gd sp)
    (hshort : (A.accept d.onFirst.1 d.block gd).selectedTipBlueScore ≤ pruningDepth) :
    Paired (A.accept d.onFirst.1 d.block gd) (N.accept d.onSecond.1 d.block gd) := by
  have hcore := A.acceptFull_core d.onFirst.1 d.block gd
  have hcore' := N.acceptFull_core d.onSecond.1 d.block gd
  have g := (N.acceptFull d.onSecond.1 d.block gd).pruneBodies_spec d.onSecond.1
  have hsp : sp ∈ N.reachability.nodes := hs.indexed sp a'.selected
  have hfull : (N.acceptFull d.onSecond.1 d.block gd).Whole := (p.whole.insertBlock a' hsp).of_core hcore'
  have kf : (A.acceptFull d.onFirst.1 d.block gd).Alike (N.acceptFull d.onSecond.1 d.block gd) :=
    p.alike.acceptFull rfl ((inv.whole.insertBlock a (inv.full sp (a.parents_mem sp a.isBest.mem))).of_core
      (A.inserted_core d.onFirst.1 d.block gd)).keyed fun h hh => p.replaysAlike_inserted hs a' hh
  have k := kf.trans g.alike
  rw [accept_archival A _ _ _ inv.archival] at hshort ⊢
  rw [ChainState.accept, pruneHistory_eq_self (k.selectedTipBlueScore.trans_le hshort)]
  refine ⟨k, fun h => ?_, hfull.cleared g, fun h q hh hq => ?_, fun h hh hout => ?_⟩
  · have hbody := p.bodies_insertBlock (d := d) gd h
    rw [← hcore.dag, ← hcore'.dag] at hbody
    rw [g.dag]
    split
    · -- what is cleared twice is cleared
      refine Or.inr ?_
      rcases hbody with hsame | hcleared
      · rw [hsame]
      · rw [hcleared, Option.map_map]
        rfl
    · exact hbody
  · -- the link to the selected parent is in the index, and no link that is left was cut
    rw [g.index] at hh ⊢
    rw [g.ghostdag, hcore'.ghostdag] at hq
    refine Reachability.foldl_dropLeaf_parent hfull.covers.wf hh ?_
    have hin := (Reachability.foldl_dropLeaf_shrunk hfull.covers.wf _).mem h hh
    rw [hcore'.reachability] at hin ⊢
    exact p.whole.linksIndexed_insertBlock a' hsp p.links h q hin hq
  · rw [g.mem] at hh
    rw [g.alike.selectedTipBlueScore, g.ghostdag]
    exact p.low_accept a' hsp hh hout

/-- Two nodes that have just been started. -/
theorem seeded (easy : Bool) (seed : Ledger) :
    Paired (ChainState.seeded easy true seed) (ChainState.seeded easy false seed) := by
  refine ⟨⟨fun _ => rfl, rfl, rfl, rfl, rfl, rfl, rfl, rfl, rfl⟩, fun _ => Or.inl rfl, whole_seeded easy false seed,
    fun h q _ hq => ?_, fun h hh hout => ?_⟩
  · have hparent := (whole_seeded easy false seed).dagInv.spOf_parent hq
    rw [seeded_parentsOf] at hparent
    cases hparent
  · exact absurd ((seeded_indexed easy false seed h).mpr ((seeded_mem easy false seed h).mp hh).symm) hout

end Paired

/-! ### Runs -/

/-- No block of the run needs what the pruning node has given up. -/
def AllSpared (easy : Bool) (seed : Ledger) (ds : List PairedCall) : Prop :=
  ∀ pre d, pre ++ [d] <+: ds → Spared (archivalRun easy seed pre) (pruningRun easy seed pre) d

theorem archivalRun_concat (easy : Bool) (seed : Ledger) (ds : List PairedCall) (d : PairedCall) :
    archivalRun easy seed (ds ++ [d]) = (archivalRun easy seed ds).step d.onFirst := by
  rw [archivalRun, List.map_append, List.map_singleton, run_concat]
  rfl

theorem pruningRun_concat (easy : Bool) (seed : Ledger) (ds : List PairedCall) (d : PairedCall) :
    pruningRun easy seed (ds ++ [d]) = (pruningRun easy seed ds).step d.onSecond := by
  rw [pruningRun, List.map_append, List.map_singleton, run_concat]
  rfl

theorem archival_archivalRun (easy : Bool) (seed : Ledger) (ds : List PairedCall) :
    Archival seed (archivalRun easy seed ds) := .run easy seed _

/-- The tip of an archival node does not go down. -/
theorem selectedTipBlueScore_step {seed : Ledger} (inv : Archival seed A) (call : Env × Block) :
    A.selectedTipBlueScore ≤ (A.step call).selectedTipBlueScore := by
  rcases A.step_cases call with heq | ⟨gd, sp, a, heq⟩
  · rw [heq]
  · obtain ⟨tip, htip⟩ := inv.whole.selected
    obtain ⟨tip', htip', -, hscore⟩ := inv.whole.selectedTip_insertBlock a htip
    have hcore := A.acceptFull_core call.1 call.2 gd
    rw [heq, accept_archival A _ _ _ inv.archival, selectedTipBlueScore_eq htip,
      selectedTipBlueScore_eq (hcore.selectedTip.trans htip'), hcore.ghostdag]
    exact hscore

theorem Paired.admitted_run (easy : Bool) (seed : Ledger) {ds : List PairedCall}
    (p : Paired (archivalRun easy seed ds) (pruningRun easy seed ds))
    (hs : Spared (archivalRun easy seed ds) (pruningRun easy seed ds) d) :
    (archivalRun easy seed ds).Admitted d.onFirst.1 d.block gd sp ↔
      (pruningRun easy seed ds).Admitted d.onSecond.1 d.block gd sp :=
  p.admitted_iff (archival_archivalRun easy seed ds) (fun _ _ _ hq => archival_parentOf easy seed _ hq) hs

/-- **Run.** -/
theorem Paired.run (easy : Bool) (seed : Ledger) (ds : List PairedCall)
    (hshort : (archivalRun easy seed ds).selectedTipBlueScore ≤ pruningDepth) (hspared : AllSpared easy seed ds) :
    Paired (archivalRun easy seed ds) (pruningRun easy seed ds) := by
  induction ds using List.reverseRecOn with
  | nil => exact .seeded easy seed
  | append_singleton ds d ih =>
      have inv := archival_archivalRun easy seed ds
      have hs := hspared ds d (List.prefix_refl _)
      have p : Paired (archivalRun easy seed ds) (pruningRun easy seed ds) := by
        refine ih (le_trans ?_ hshort) fun pre c hpre => hspared pre c (hpre.trans (List.prefix_append _ _))
        rw [archivalRun_concat]
        exact selectedTipBlueScore_step inv d.onFirst
      rw [archivalRun_concat] at hshort ⊢
      rw [pruningRun_concat]
      rcases (archivalRun easy seed ds).step_cases d.onFirst with hrefused | ⟨gd, sp, a, haccepted⟩
      · rcases (pruningRun easy seed ds).step_cases d.onSecond with hrefused' | ⟨gd, sp, a', -⟩
        · rw [hrefused, hrefused']
          exact p
        · -- what the pruning node admits the archival node does not refuse
          have a := (p.admitted_run easy seed hs).mpr a'
          have haccepted : (archivalRun easy seed ds).step d.onFirst
              = (archivalRun easy seed ds).accept d.onFirst.1 d.block gd := a.step
          have haccepted' : (pruningRun easy seed ds).step d.onSecond
              = (pruningRun easy seed ds).accept d.onSecond.1 d.block gd := a'.step
          rw [haccepted']
          rw [haccepted] at hshort ⊢
          exact p.accept inv hs a a' hshort
      · have a' := (p.admitted_run easy seed hs).mp a
        have haccepted' : (pruningRun easy seed ds).step d.onSecond
            = (pruningRun easy seed ds).accept d.onSecond.1 d.block gd := a'.step
        rw [haccepted']
        rw [haccepted] at hshort ⊢
        exact p.accept inv hs a a' hshort

/-- The first block needs nothing. -/
theorem spared_seeded (easy : Bool) (seed : Ledger) (d : PairedCall) :
    Spared (seeded easy true seed) (seeded easy false seed) d := by
  refine ⟨fun sp hsp => ?_, fun _ _ _ => rfl, fun _ _ _ _ _ _ _ => rfl⟩
  have hknown := (GhostdagMap.selectBest_eq_some.mp hsp).known
  have hmem := ((whole_seeded easy false seed).dagInv.known sp).mp hknown
  exact (seeded_indexed easy false seed sp).mpr ((seeded_mem easy false seed sp).mp hmem).symm

end Two

end ChainState

namespace Sample

end Sample

end HassanNode
