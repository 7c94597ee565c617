import Mathlib
import HassanNode.Consensus.Heights

/-!
# HassanNode.Consensus.ChainHeights

Where a pruning node's chain starts. `prune_history` removes the front of the
selected chain and adds its length to `pruned_selected_blocks`; so the block at index
`i` of the main chain should be the one at height `pruned_selected_blocks + i` for
good. That needs the finality rule: a new selected chain shares its root with the old
one (`Anchored.accept`), since the index still has the part of the chain that the rule
looks at, even after leaves have been dropped from it (`Reachability.Carries`).
-/

namespace HassanNode

open Std (ExtTreeMap ExtTreeSet)
open Params

namespace Reachability

/-! ### Branches that the index has -/

/-- The index has the whole branch of `h`, with its links. -/
def Carries (r : Reachability) (link : Hash → Option Hash) (h : Hash) : Prop :=
  ∀ k, Above link k h → k ∈ r.nodes ∧ r.parentOf k = link k

variable {r r' : Reachability} {link link' : Hash → Option Hash} {f h x : Hash}

/-- Inside the index, ancestry is ancestry along the links. -/
theorem Carries.above (hc : r.Carries link h) (hf : Above link f h) : Above r.parentOf f h :=
  hf.mono fun k _ hk hp => (hc k hk).2.trans hp

/-- A branch of the index that reaches a carried one. -/
theorem Carries.of_above (hf : r.Carries link f) (hlinks : ∀ {k p}, r.parentOf k = some p → link k = some p)
    (habove : Above r.parentOf f h) : r.Carries link h := by
  induction habove with
  | refl => exact hf
  | @step p b hp _ ih =>
      intro k hk
      rcases hk.cases_step with rfl | ⟨q, hq, hkq⟩
      · exact ⟨mem_of_parentOf hp, hp.trans (hlinks hp).symm⟩
      · obtain rfl := Option.some.inj (hq.symm.trans (hlinks hp))
        exact ih k hkq

/-- The branch of another block has no leaf that could be dropped. -/
theorem Carries.dropLeaf (hc : r.Carries link h) (w : r.WF) (hx : x ≠ h) : (r.dropLeaf x).Carries link h := by
  rcases dropLeaf_cases w x with ⟨heq, -⟩ | ⟨-, hnone, hrestricted, -⟩
  · rw [heq]
    exact hc
  · have hne : ∀ k, Above link k h → k ≠ x := by
      rintro k hk rfl
      rcases hk.split with heq | ⟨c, hlink, hbelow⟩
      · exact hx heq
      · obtain ⟨hmem, hparent⟩ := hc c hbelow
        exact (hnone c).elim (fun hno => hno (hparent.trans hlink)) fun hout => hout hmem
    intro k hk
    obtain ⟨hmem, hparent⟩ := hc k hk
    refine ⟨(hrestricted.mem k).mpr ⟨hmem, hne k hk⟩, Option.ext fun p => ?_⟩
    rw [hrestricted.parent k (hne k hk) p, hparent]
    exact ⟨And.left, fun hp => ⟨hp, hne p (.trans (.step hp (.refl p)) hk)⟩⟩

theorem Carries.foldl_dropLeaf {hs : List Hash} (hc : r.Carries link h) (w : r.WF) (hh : h ∉ hs) :
    (hs.foldl Reachability.dropLeaf r).Carries link h := by
  induction hs generalizing r with
  | nil => exact hc
  | cons x hs ih =>
      obtain ⟨hx, hrest⟩ := not_or.mp fun h => hh (List.mem_cons.mpr h)
      exact ih (hc.dropLeaf w (Ne.symm hx)) (dropLeaf_wf w x) hrest

theorem mem_foldl_dropLeaf {hs : List Hash} (w : r.WF) (hmem : h ∈ r.nodes) (hh : h ∉ hs) :
    h ∈ (hs.foldl Reachability.dropLeaf r).nodes := by
  induction hs generalizing r with
  | nil => exact hmem
  | cons x hs ih =>
      obtain ⟨hx, hrest⟩ := not_or.mp fun h => hh (List.mem_cons.mpr h)
      refine ih (dropLeaf_wf w x) ?_ hrest
      rcases dropLeaf_cases w x with ⟨heq, -⟩ | ⟨-, -, hrestricted, -⟩
      · rw [heq]
        exact hmem
      · exact (hrestricted.mem h).mpr ⟨hmem, hx⟩

/-- Where the links are cut as the index is, the rest of the branch is there. -/
theorem Carries.retain {keep : Hash → Bool} (hc : r.Carries link h) (hh : keep h = true)
    (hcut : ∀ k p, link' k = some p ↔ keep k = true ∧ link k = some p ∧ keep p = true) :
    (r.retain keep).Carries link' h := by
  have hrestricted := r.retain_restricted keep
  intro k hk
  have hkeep : keep k = true := by
    rcases hk.split with rfl | ⟨c, hlink, -⟩
    · exact hh
    · exact ((hcut c k).mp hlink).2.2
  obtain ⟨hmem, hparent⟩ := hc k (hk.mono fun x p _ hp => ((hcut x p).mp hp).2.1)
  refine ⟨(hrestricted.mem k).mpr ⟨hmem, hkeep⟩, Option.ext fun p => ?_⟩
  rw [hrestricted.parent k hkeep p, hparent, hcut]
  exact ⟨fun h => ⟨hkeep, h⟩, And.right⟩

end Reachability

namespace ChainState

/-! ### What leaves the counter alone -/

section Counter

variable [Crypto] {st : ChainState}

omit [Crypto] in
theorem pruneBodies_counter (st : ChainState) (env : Env) :
    (st.pruneBodies env).prunedSelectedBlocks = st.prunedSelectedBlocks := by
  rw [pruneBodies_eq, foldl_pruneBody]

theorem acceptFull_counter (st : ChainState) (env : Env) (block : Block) (gd : GhostdagData) :
    (st.acceptFull env block gd).prunedSelectedBlocks = st.prunedSelectedBlocks := by
  have horder : ∀ s : ChainState, s.orderMainChain.prunedSelectedBlocks = s.prunedSelectedBlocks := by
    intro s
    unfold orderMainChain
    split <;> rfl
  have hcapture : ∀ s : ChainState, s.captureBase.prunedSelectedBlocks = s.prunedSelectedBlocks := by
    intro s
    unfold captureBase
    split <;> rfl
  have hadvance : ∀ s : ChainState, s.advanceFinalizedBase.prunedSelectedBlocks = s.prunedSelectedBlocks := by
    intro s
    rcases s.advanceFinalizedBase_cases with heq | ⟨fp, -, -, -, -, heq⟩
    · rw [heq]
    · rw [heq]
  exact (hadvance _).trans ((hcapture _).trans (horder _))

/-- Either nothing is pruned, or the counter goes up by the length of what is cut
off the chain. -/
theorem pruneTo_counter (st : ChainState) (pp : Hash) (index : Nat) :
    st.pruneTo pp index = st ∨ (st.pruneTo pp index).prunedSelectedBlocks = st.prunedSelectedBlocks + index := by
  unfold pruneTo
  dsimp only
  split
  · exact Or.inl rfl
  · refine Or.inr ?_
    unfold orderMainChain
    split <;> rfl

end Counter

/-! ### The selected chain and its root -/

/-- The heights along the chain of a block, from its root up. -/
theorem selectedChain_heights {gd : GhostdagMap} {pos : Hash → Nat} {root h : Hash} (hdescends : gd.Descends)
    (hrises : ∀ {h p}, gd.spOf h = some p → pos h = pos p + 1) (hfirst : gd.spOf root = none)
    (hbelow : Above gd.spOf root h) : (gd.selectedChain h).length + pos root = pos h + 1 ∧
      ∀ i k, (gd.selectedChain h)[i]? = some k → pos k = pos root + i := by
  induction h using GhostdagMap.chain_induction hdescends with
  | root h hsp =>
      rcases hbelow.cases_step with rfl | ⟨p, hp, -⟩
      · rw [GhostdagMap.selectedChain_root hsp]
        refine ⟨Nat.add_comm 1 _, fun i k hk => ?_⟩
        obtain ⟨hi, rfl⟩ := List.getElem?_eq_some_iff.mp hk
        obtain rfl : i = 0 := Nat.lt_one_iff.mp hi
        rfl
      · rw [hsp] at hp
        cases hp
  | step h p hsp ih =>
      rcases hbelow.cases_step with rfl | ⟨q, hq, hbelow⟩
      · rw [hsp] at hfirst
        cases hfirst
      · obtain rfl := Option.some.inj (hsp.symm.trans hq)
        obtain ⟨hlength, hheights⟩ := ih hbelow
        have hup := hrises hsp
        rw [GhostdagMap.selectedChain_step hdescends hsp]
        refine ⟨by rw [List.length_append, List.length_singleton]; omega, fun i k hk => ?_⟩
        rcases Nat.lt_or_ge i (gd.selectedChain p).length with hlt | hge
        · rw [List.getElem?_append_left hlt] at hk
          exact hheights i k hk
        · rw [List.getElem?_append_right hge] at hk
          obtain ⟨hi, rfl⟩ := List.getElem?_eq_some_iff.mp hk
          have hlast : i - (gd.selectedChain p).length = 0 := Nat.lt_one_iff.mp hi
          simp only [hlast, List.getElem_cons_zero]
          omega

/-- A root above one block is above every block that shares a branch with it. -/
theorem above_root {link : Hash → Option Hash} {root tip f h : Hash} (hbelow : Above link root tip)
    (hfirst : link root = none) (hf : Above link f tip) (hh : Above link f h) : Above link root h := by
  rcases hbelow.comparable hf with hup | hdown
  · exact hup.trans hh
  · rcases hdown.cases_step with rfl | ⟨p, hp, -⟩
    · exact hh
    · rw [hfirst] at hp
      cases hp

section Insert

variable [Crypto] {st : ChainState} {env : Env} {block : Block} {gd : GhostdagData} {sp : Hash}

/-- A block's score is not far above its selected parent's. -/
theorem Admitted.score_le (a : st.Admitted env block gd sp) :
    gd.blueScore ≤ st.ghostdag.scoreOf sp + maxMergesetSize + 1 := by
  obtain ⟨blues, hblues⟩ := a.computed.blues
  have hlength := a.computed.merged.length_eq
  have hcapped := a.computed.capped
  rw [GhostdagData.merged, hblues, List.drop_one, List.tail_cons, List.length_append] at hlength
  rw [a.computed.score, hblues, List.length_cons]
  omega

/-- The chains of old blocks stay. -/
theorem above_insertBlock (c : st.Consistent) (a : st.Admitted env block gd sp) {k h : Hash} (hh : h ∈ st.dag) :
    Above (st.insertBlock env block gd).ghostdag.spOf k h ↔ Above st.ghostdag.spOf k h := by
  have he := extends_insertBlock a
  constructor
  · intro habove
    induction habove with
    | refl => exact .refl _
    | @step p b hp _ ih =>
        rw [he.spOf hh] at hp
        exact .step hp (ih ((c.keyed.known p).mp (c.linked b p hp)))
  · intro habove
    exact habove.mono fun x p hx hp => (he.spOf (c.above_mem hh hx)).trans hp

theorem added_insertBlock (c : st.Consistent) (a : st.Admitted env block gd sp) :
    st.reachability.Added block.hash (st.reachability.treeParentOf gd.selectedParent)
      (st.insertBlock env block gd).reachability :=
  Reachability.addBlock_added c.index (fun hin => a.new (c.indexed _ hin)) env.iter_perm gd.selectedParent gd.merged

theorem Admitted.treeParentOf (a : st.Admitted env block gd sp) (hsp : sp ∈ st.reachability.nodes) :
    st.reachability.treeParentOf gd.selectedParent = some sp := by
  rw [a.computed.selectedParent, Reachability.treeParentOf, Option.filter_some,
    if_pos (ExtTreeMap.contains_iff_mem.mpr hsp)]

/-- So do their carried branches. -/
theorem carries_insertBlock (c : st.Consistent) (a : st.Admitted env block gd sp) {h : Hash} (hh : h ∈ st.dag)
    (hc : st.reachability.Carries st.ghostdag.spOf h) :
    (st.insertBlock env block gd).reachability.Carries (st.insertBlock env block gd).ghostdag.spOf h := by
  have hadded := added_insertBlock c a
  intro k hk
  have hold := (above_insertBlock c a hh).mp hk
  have hkmem := c.above_mem hh hold
  obtain ⟨hmem, hparent⟩ := hc k hold
  have hne : k ≠ block.hash := fun heq => a.new (heq ▸ hkmem)
  refine ⟨(hadded.mem k).mpr (Or.inr hmem), ?_⟩
  rw [hadded.parent_old k hne, hparent, (extends_insertBlock a).spOf hkmem]

/-- The branch of the new block is carried if its selected parent's is. -/
theorem carries_new (c : st.Consistent) (a : st.Admitted env block gd sp)
    (hc : st.reachability.Carries st.ghostdag.spOf sp) :
    (st.insertBlock env block gd).reachability.Carries (st.insertBlock env block gd).ghostdag.spOf block.hash := by
  have hadded := added_insertBlock c a
  have hspi := (hc sp (.refl sp)).1
  intro k hk
  rcases hk.cases_step with rfl | ⟨p, hp, hkp⟩
  · refine ⟨(hadded.mem _).mpr (Or.inl rfl), ?_⟩
    rw [hadded.parent_new, spOf_insertBlock a, a.treeParentOf hspi]
  · obtain rfl := Option.some.inj (hp.symm.trans (spOf_insertBlock a))
    exact carries_insertBlock c a (a.parents_mem p a.isBest.mem) hc k hkp

end Insert

section Anchored

variable [Crypto] {st st' : ChainState} {pos : Hash → Nat} {tip root : Hash}

/-- A node whose index has the whole chain of the selected tip, whose root is at the
height the counter says. Recent blocks are in the index; as long as the chain is
short, all are. -/
structure Anchored (st : ChainState) (pos : Hash → Nat) (tip root : Hash) : Prop where
  consistent : st.Consistent
  rises : ∀ {h p}, st.ghostdag.spOf h = some p → pos h = pos p + 1
  selected : st.selectedTip = some tip
  carried : st.reachability.Carries st.ghostdag.spOf tip
  below : Above st.ghostdag.spOf root tip
  first : st.ghostdag.spOf root = none
  counted : pos root = st.prunedSelectedBlocks
  deep : st.ghostdag.scoreOf root = 0 ∨ st.ghostdag.scoreOf root + finalityDepth ≤ st.ghostdag.scoreOf tip
  recent : ∀ h ∈ st.dag, st.ghostdag.scoreOf tip < finalityDepth + st.ghostdag.scoreOf h → h ∈ st.reachability.nodes
  short : st.ghostdag.scoreOf tip ≤ finalityDepth →
    ∀ h ∈ st.dag, h ∈ st.reachability.nodes ∧ Above st.reachability.parentOf root h

namespace Anchored

variable {env : Env} {block : Block} {gd : GhostdagData} {sp : Hash}

theorem tip_mem (an : st.Anchored pos tip root) : tip ∈ st.dag := an.consistent.tip_mem an.selected

theorem root_mem (an : st.Anchored pos tip root) : root ∈ st.dag := an.consistent.above_mem an.tip_mem an.below

theorem of_core (an : st.Anchored pos tip root) (h : st.SameCore st')
    (hcounter : st'.prunedSelectedBlocks = st.prunedSelectedBlocks) : st'.Anchored pos tip root where
  consistent := an.consistent.of_core h
  rises := by rw [h.ghostdag]; exact an.rises
  selected := by rw [h.selectedTip]; exact an.selected
  carried := by rw [h.reachability, h.ghostdag]; exact an.carried
  below := by rw [h.ghostdag]; exact an.below
  first := by rw [h.ghostdag]; exact an.first
  counted := by rw [hcounter]; exact an.counted
  deep := by rw [h.ghostdag]; exact an.deep
  recent := by rw [h.dag, h.ghostdag, h.reachability]; exact an.recent
  short := by rw [h.ghostdag, h.dag, h.reachability]; exact an.short

/-- **The finality rule keeps the chains together**: a block that can become the
selected tip is built on a block of the index that shares a branch with the old tip. -/
theorem meets (an : st.Anchored pos tip root) (a : st.Admitted env block gd sp)
    (hscore : st.ghostdag.scoreOf tip ≤ gd.blueScore) :
    ∃ f, Above st.ghostdag.spOf f tip ∧ Above st.reachability.parentOf f sp := by
  have c := an.consistent
  have hspmem := a.parents_mem sp a.isBest.mem
  cases hfp : st.finalityPoint with
  | some fp =>
      obtain ⟨tip', htip', -, hlast⟩ := finalityPoint_spec c.descends c.linked hfp
      obtain rfl := Option.some.inj (htip'.symm.trans an.selected)
      have hnear := a.score_le
      have hdepth : maxMergesetSize + 1 < finalityDepth := by decide
      have hchain := a.chain hfp (Reachability.isChainAncestor_isSome (an.carried fp hlast.above).1
        (an.recent sp hspmem (by omega)))
      exact ⟨fp, hlast.above, ((c.index.isChainAncestor_eq hchain).2.2).mp rfl⟩
  | none =>
      rw [finalityPoint_eq an.selected] at hfp
      split at hfp
      · rename_i hshort
        exact ⟨root, an.below, (an.short hshort sp hspmem).2⟩
      · -- the root of a long chain is deep enough to be final
        rename_i hlong
        have hdeep := an.deep
        have hlow : st.ghostdag.scoreOf root ≤ st.ghostdag.scoreOf tip - finalityDepth := by omega
        obtain ⟨f, hf⟩ := lastBelow_isSome c.descends c.linked ((c.keyed.known tip).mpr an.tip_mem) an.below hlow
        rw [hf] at hfp
        cases hfp

theorem insertBlock (an : st.Anchored pos tip root) (a : st.Admitted env block gd sp) : ∃ tip',
    (st.insertBlock env block gd).Anchored (Function.update pos block.hash (pos sp + 1)) tip' root ∧
      st.ghostdag.scoreOf tip ≤ (st.insertBlock env block gd).ghostdag.scoreOf tip' := by
  have c := an.consistent
  have he := extends_insertBlock a
  have hadded := added_insertBlock c a
  have hspmem := a.parents_mem sp a.isBest.mem
  have hne : ∀ {h}, h ∈ st.dag → h ≠ block.hash := fun hh heq => a.new (heq ▸ hh)
  obtain ⟨tip', htip', hor, hmono⟩ := c.selectedTip_insertBlock a an.selected
  have hchain : (st.insertBlock env block gd).reachability.Carries (st.insertBlock env block gd).ghostdag.spOf tip' ∧
      Above (st.insertBlock env block gd).ghostdag.spOf root tip' := by
    rcases hor with rfl | ⟨rfl, -⟩
    · rw [scoreOf_insertBlock] at hmono
      obtain ⟨f, hf, hfsp⟩ := an.meets a hmono
      have hcarried : st.reachability.Carries st.ghostdag.spOf f := fun k hk => an.carried k (hk.trans hf)
      have hroot := above_root an.below an.first hf (hfsp.mono fun _ _ _ hp => c.links hp)
      exact ⟨carries_new c a (hcarried.of_above c.links hfsp),
        .step (spOf_insertBlock a) ((above_insertBlock c a hspmem).mpr hroot)⟩
    · exact ⟨carries_insertBlock c a an.tip_mem an.carried, (above_insertBlock c a an.tip_mem).mpr an.below⟩
  refine ⟨tip', ⟨c.insertBlock a, fun {h p} hp => ?_, htip', hchain.1, hchain.2, (he.spOf an.root_mem).trans an.first,
    ?_, ?_, fun h hh hrecent => ?_, fun hshort h hh => ?_⟩, hmono⟩
  · by_cases hh : h = block.hash
    · subst hh
      obtain rfl := Option.some.inj (hp.symm.trans (spOf_insertBlock a))
      rw [Function.update_self, Function.update_of_ne (hne hspmem)]
    · have hold : st.ghostdag.spOf h = some p := (spOf_insert_ne (Ne.symm hh)).symm.trans hp
      rw [Function.update_of_ne hh, Function.update_of_ne (hne ((c.keyed.known p).mp (c.linked h p hold)))]
      exact an.rises hold
  · rw [Function.update_of_ne (hne an.root_mem)]
    exact an.counted
  · rw [he.scoreOf an.root_mem]
    exact an.deep.imp_right fun hdeep => hdeep.trans hmono
  · rcases mem_insertBlock.mp hh with rfl | hh
    · exact (hadded.mem _).mpr (Or.inl rfl)
    · rw [he.scoreOf hh] at hrecent
      exact (hadded.mem h).mpr (Or.inr (an.recent h hh (lt_of_le_of_lt hmono hrecent)))
  · have hold := an.short (hmono.trans hshort)
    have hup : ∀ {k}, Above st.reachability.parentOf root k →
        Above (st.insertBlock env block gd).reachability.parentOf root k := fun habove =>
      habove.mono fun x p _ hp =>
        (hadded.parent_old x (hne (c.indexed x (Reachability.mem_of_parentOf hp)))).trans hp
    rcases mem_insertBlock.mp hh with rfl | hh
    · obtain ⟨hspi, habove⟩ := hold sp hspmem
      refine ⟨(hadded.mem _).mpr (Or.inl rfl), .step ?_ (hup habove)⟩
      rw [hadded.parent_new, a.treeParentOf hspi]
    · obtain ⟨hmem, habove⟩ := hold h hh
      exact ⟨(hadded.mem h).mpr (Or.inr hmem), hup habove⟩

/-- `prune_bodies` clears no recent block. -/
theorem mem_toPrune (c : st.Consistent) (htip : st.selectedTip = some tip) {h : Hash} (hh : h ∈ st.toPrune env) :
    st.ghostdag.scoreOf h + finalityDepth ≤ st.ghostdag.scoreOf tip := by
  have hscore : st.selectedTipBlueScore = st.ghostdag.scoreOf tip := by
    rw [selectedTipBlueScore, htip]
    rfl
  unfold toPrune at hh
  split at hh
  · cases hh
  · rename_i hlong
    obtain ⟨hmem, hlow⟩ := List.mem_filter.mp hh
    have hdag : h ∈ st.dag := ExtTreeMap.mem_keys.mp ((env.iter_perm _).mem_iff.mp hmem)
    rw [Bool.and_eq_true, decide_eq_true_iff, scoreOrMax_eq ((c.keyed.known h).mpr hdag), hscore] at hlow
    rw [hscore, Bool.or_eq_true, not_or, decide_eq_true_iff] at hlong
    omega

theorem pruneBodies (an : st.Anchored pos tip root) (env : Env) : (st.pruneBodies env).Anchored pos tip root := by
  have c := an.consistent
  have g := st.pruneBodies_spec env
  have htip : tip ∉ st.toPrune env := by
    intro h
    have := mem_toPrune c an.selected h
    have : 0 < finalityDepth := by decide
    omega
  refine ⟨c.cleared g, ?_, g.selectedTip.trans an.selected, ?_, ?_, ?_, ?_, ?_, fun h hh => ?_, fun hshort => ?_⟩
  · rw [g.ghostdag]
    exact an.rises
  · rw [g.index, g.ghostdag]
    exact an.carried.foldl_dropLeaf c.index htip
  · rw [g.ghostdag]
    exact an.below
  · rw [g.ghostdag]
    exact an.first
  · rw [pruneBodies_counter]
    exact an.counted
  · rw [g.ghostdag]
    exact an.deep
  · rw [g.ghostdag, g.index]
    intro hrecent
    refine Reachability.mem_foldl_dropLeaf c.index (an.recent h ((g.mem h).mp hh) hrecent) fun hprune => ?_
    have := mem_toPrune c an.selected hprune
    omega
  · -- nothing is deep enough
    have hnil : st.toPrune env = [] := by
      rw [toPrune, if_pos]
      rw [g.ghostdag] at hshort
      have hscore : st.selectedTipBlueScore = st.ghostdag.scoreOf tip := by
        rw [selectedTipBlueScore, an.selected]
        rfl
      rw [hscore, decide_eq_true hshort, Bool.or_true]
    rw [g.index, hnil, List.foldl_nil]
    rw [g.ghostdag] at hshort
    exact fun h hh => an.short hshort h ((g.mem h).mp hh)

/-- Cutting the chain off at a block moves the root there and the counter with it. -/
theorem rerooted (an : st.Anchored pos tip root) {pp : Hash} (hlong : pruningDepth < st.ghostdag.scoreOf tip)
    (hlast : st.IsLast (st.ghostdag.scoreOf tip - pruningDepth) tip pp) (hcut : Rerooted pp st st')
    (hcounter : st'.prunedSelectedBlocks = st.prunedSelectedBlocks + (st.ghostdag.selectedChain tip).idxOf pp) :
    st'.Anchored pos tip pp := by
  have c := an.consistent
  have g := hcut.pruned
  have htwice : pruningDepth = 2 * finalityDepth := rfl
  have hpp : pp ∈ st'.dag := (g.mem pp).mpr ⟨c.above_mem an.tip_mem hlast.above, le_rfl⟩
  have htip : tip ∈ st'.dag := (g.mem tip).mpr ⟨an.tip_mem, c.descends.score_le hlast.above⟩
  have hlow := hlast.low
  have hkeeps : ∀ h, st.keeps (st.ghostdag.scoreOf pp) h = true ↔ h ∈ st'.dag := fun h =>
    keeps_iff.trans (g.mem h).symm
  refine ⟨g.consistent c an.selected htip, fun hp => an.rises (g.spOf.mp hp).2.1, g.selectedTip c an.selected htip, ?_,
    (g.above c htip hpp).mpr hlast.above, ?_, ?_, Or.inr ?_, fun h hh hrecent => ?_, fun hshort => ?_⟩
  · rw [hcut.index]
    refine an.carried.retain ((hkeeps tip).mpr htip) fun k p => ?_
    rw [g.spOf, hkeeps, hkeeps]
  · cases hp : st'.ghostdag.spOf pp with
    | none => rfl
    | some p =>
        obtain ⟨-, hold, hmem⟩ := g.spOf.mp hp
        have hbelow := c.descends.spOf_lt hold
        have hkept := ((g.mem p).mp hmem).2
        omega
  · have hmem := (GhostdagMap.mem_selectedChain c.descends).mpr hlast.above
    have hheights := (selectedChain_heights c.descends an.rises an.first an.below).2
    rw [hcounter, ← an.counted]
    refine hheights _ _ ?_
    rw [List.getElem?_eq_getElem (List.idxOf_lt_length_iff.mpr hmem), List.getElem_idxOf]
  · rw [g.scoreOf hpp, g.scoreOf htip]
    omega
  · rw [g.scoreOf hh, g.scoreOf htip] at hrecent
    rw [hcut.index]
    exact ((st.reachability.retain_restricted _).mem h).mpr
      ⟨an.recent h ((g.mem h).mp hh).1 hrecent, (hkeeps h).mpr hh⟩
  · rw [g.scoreOf htip] at hshort
    omega

theorem pruneHistory (an : st.Anchored pos tip root) : ∃ root', st.pruneHistory.Anchored pos tip root' ∧
    st.pruneHistory.ghostdag.scoreOf tip = st.ghostdag.scoreOf tip ∧
      st.prunedSelectedBlocks ≤ st.pruneHistory.prunedSelectedBlocks := by
  have c := an.consistent
  rcases pruneHistory_pruneTo c with heq | ⟨tip', pp, -, htip', hlong, hlast, heq⟩
  · rw [heq]
    exact ⟨root, an, rfl, le_rfl⟩
  · obtain rfl := Option.some.inj (htip'.symm.trans an.selected)
    rw [heq]
    rcases pruneTo_counter st pp ((st.ghostdag.selectedChain tip').idxOf pp) with hsame | hcounter
    · rw [hsame]
      exact ⟨root, an, rfl, le_rfl⟩
    · rcases pruneTo_cases c pp ((st.ghostdag.selectedChain tip').idxOf pp) with hsame | hcut
      · rw [hsame]
        exact ⟨root, an, rfl, le_rfl⟩
      · have htip := (hcut.pruned.mem tip').mpr ⟨an.tip_mem, c.descends.score_le hlast.above⟩
        exact ⟨pp, an.rerooted hlong hlast hcut hcounter, hcut.pruned.scoreOf htip, hcounter ▸ Nat.le_add_right _ _⟩

/-- **An accepted block keeps a node anchored**, with the block at the height above
its selected parent's; the selected tip's score and the counter do not go down. -/
theorem accept (an : st.Anchored pos tip root) (a : st.Admitted env block gd sp) : ∃ tip' root',
    (st.accept env block gd).Anchored (Function.update pos block.hash (pos sp + 1)) tip' root' ∧
      st.ghostdag.scoreOf tip ≤ (st.accept env block gd).ghostdag.scoreOf tip' ∧
        st.prunedSelectedBlocks ≤ (st.accept env block gd).prunedSelectedBlocks := by
  obtain ⟨tip', hinserted, hmono⟩ := an.insertBlock a
  have hcore := st.acceptFull_core env block gd
  have hfull := hinserted.of_core hcore (st.acceptFull_counter env block gd)
  have hbodies := (st.acceptFull env block gd).pruneBodies_spec env
  obtain ⟨root', hpruned, hscore, hcounter⟩ := (hfull.pruneBodies env).pruneHistory
  refine ⟨tip', root', hpruned, ?_, ?_⟩
  · rw [← hcore.ghostdag, ← hbodies.ghostdag] at hmono
    exact hmono.trans hscore.ge
  · rw [pruneBodies_counter, acceptFull_counter] at hcounter
    exact hcounter

theorem seeded (easy archival : Bool) (seed : Ledger) : (ChainState.seeded easy archival seed).Anchored (fun _ => 0)
    genesisBlock.hash genesisBlock.hash := by
  have c := (whole_seeded easy archival seed).consistent
  obtain ⟨tip, htip⟩ := c.selected
  obtain rfl := (seeded_mem easy archival seed tip).mp (c.tip_mem htip)
  have hnone : ∀ h, (ChainState.seeded easy archival seed).ghostdag.spOf h = none := by
    intro h
    rw [GhostdagMap.spOf, seeded_ghostdag]
    split <;> rfl
  have hindexed : ∀ {h}, h ∈ (ChainState.seeded easy archival seed).dag →
      h ∈ (ChainState.seeded easy archival seed).reachability.nodes := fun hh =>
    (seeded_indexed easy archival seed _).mpr ((seeded_mem easy archival seed _).mp hh).symm
  refine ⟨c, fun {h p} hp => ?_, htip, fun k hk => ?_, .refl _, hnone _, rfl, Or.inl ?_, fun h hh _ => hindexed hh,
    fun _ h hh => ⟨hindexed hh, ?_⟩⟩
  · rw [hnone] at hp
    cases hp
  · rcases hk.cases_step with rfl | ⟨p, hp, -⟩
    · exact ⟨hindexed (c.tip_mem htip), (seeded_parentOf easy archival seed _).trans (hnone _).symm⟩
    · rw [hnone] at hp
      cases hp
  · rw [GhostdagMap.scoreOf, seeded_ghostdag, if_pos rfl]
    rfl
  · rw [(seeded_mem easy archival seed h).mp hh]
    exact .refl _

end Anchored

theorem Anchored.run (easy archival : Bool) (seed : Ledger) (calls : List (Env × Block)) : ∃ tip root,
    ((ChainState.seeded easy archival seed).run calls).Anchored ((ChainState.seeded easy archival seed).positions calls)
      tip root := by
  induction calls using List.reverseRecOn with
  | nil => exact ⟨_, _, .seeded easy archival seed⟩
  | append_singleton calls call ih =>
      obtain ⟨tip, root, an⟩ := ih
      rw [run_concat]
      cases hadm : ((ChainState.seeded easy archival seed).run calls).admission call.1 call.2 with
      | error e =>
          rw [step, addBlock, hadm, positions_rejected hadm]
          exact ⟨tip, root, an⟩
      | ok gd =>
          obtain ⟨sp, a⟩ := admission_eq_ok.mp hadm
          obtain ⟨tip', root', an', -, -⟩ := an.accept a
          rw [a.step, positions_accepted a]
          exact ⟨tip', root', an'⟩

/-- Along a run neither the selected tip's score nor the counter goes down. -/
theorem selectedTip_rises {easy archival : Bool} {seed : Ledger} {calls more : List (Env × Block)} {tip tip' : Hash}
    (htip : ((ChainState.seeded easy archival seed).run calls).selectedTip = some tip)
    (htip' : ((ChainState.seeded easy archival seed).run (calls ++ more)).selectedTip = some tip') :
    ((ChainState.seeded easy archival seed).run calls).ghostdag.scoreOf tip
        ≤ ((ChainState.seeded easy archival seed).run (calls ++ more)).ghostdag.scoreOf tip' ∧
      ((ChainState.seeded easy archival seed).run calls).prunedSelectedBlocks
        ≤ ((ChainState.seeded easy archival seed).run (calls ++ more)).prunedSelectedBlocks := by
  induction more using List.reverseRecOn generalizing tip' with
  | nil =>
      rw [List.append_nil] at htip' ⊢
      obtain rfl := Option.some.inj (htip.symm.trans htip')
      exact ⟨le_rfl, le_rfl⟩
  | append_singleton more call ih =>
      rw [← List.append_assoc, run_concat] at htip' ⊢
      obtain ⟨mid, root, an⟩ := Anchored.run easy archival seed (calls ++ more)
      obtain ⟨hscore, hcounter⟩ := ih an.selected
      rcases step_cases ((ChainState.seeded easy archival seed).run (calls ++ more)) call with heq | ⟨gd, sp, a, heq⟩
      · rw [heq] at htip' ⊢
        obtain rfl := Option.some.inj (an.selected.symm.trans htip')
        exact ⟨hscore, hcounter⟩
      · rw [heq] at htip' ⊢
        obtain ⟨last, root', an', hscore', hcounter'⟩ := an.accept a
        obtain rfl := Option.some.inj (an'.selected.symm.trans htip')
        exact ⟨hscore.trans hscore', hcounter.trans hcounter'⟩

end Anchored

end ChainState

end HassanNode
