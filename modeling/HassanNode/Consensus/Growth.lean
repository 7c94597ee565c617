import Mathlib
import HassanNode.Consensus.Covering
import HassanNode.Consensus.Order
import HassanNode.Consensus.Finality

/-!
# HassanNode.Consensus.Growth

A node that has lost no history (`Whole`), whether or not it still has every
body and every index node: its GHOSTDAG data is what the exact search computes,
and its index is exact on the blocks it has. Inserting an admitted block whose
selected parent is indexed keeps this (`Whole.insertBlock`), and changes nothing
about the blocks that were there (`Extends`).
-/

namespace HassanNode

open Std (ExtTreeMap ExtTreeSet)
open Params

/-- An exact index answers as the search does. -/
theorem Reachability.Covers.isAncestor_eq {r : Reachability} {dag : Dag} (c : r.Covers (Past dag))
    (hirrefl : ∀ x, ¬ Past dag x x) (a b : Hash) :
    r.isAncestor dag a b = dag.bfsIsAncestor a b := by
  unfold Reachability.isAncestor
  split
  · rename_i hboth
    rw [Bool.and_eq_true, ExtTreeMap.contains_iff_mem, ExtTreeMap.contains_iff_mem] at hboth
    rw [Bool.eq_iff_iff, c.isAncestor_iff hirrefl (fun _ _ _ => Past.trans) hboth.1 hboth.2,
      Dag.bfsIsAncestor_iff]
  · rfl

/-- Adding a block keeps the index exact, if the selected parent is indexed or
nothing of its past is. Of the mergeset only the indexed members matter. -/
theorem Reachability.Covers.addMerged {r : Reachability} {dag : Dag} {hash : Hash} {block : Block}
    {sp : Hash} {mergeset : List Hash} {iter : List Hash → List Hash} (c : r.Covers (Past dag))
    (hclosed : dag.Closed) (hindexed : ∀ h ∈ r.nodes, h ∈ dag) (hnew : hash ∉ dag)
    (hknown : ∀ p ∈ block.parents, p ∈ dag) (hbest : sp ∈ block.parents)
    (hmerged : ∀ m ∈ r.nodes, m ∈ mergeset ↔
      (∃ p ∈ block.parents, m = p ∨ Past dag m p) ∧ ¬ (m = sp ∨ Past dag m sp))
    (hiter : ∀ xs, (iter xs).Perm xs) (hsp : sp ∈ r.nodes ∨ ∀ x ∈ r.nodes, ¬ Past dag x sp) :
    (r.addBlock iter hash (some sp) mergeset).Covers (Past (dag.insert hash block)) := by
  have hne : ∀ {h}, h ∈ dag → h ≠ hash := fun hh heq => hnew (heq ▸ hh)
  have hself {x} : Past (dag.insert hash block) x hash ↔
      ∃ p ∈ block.parents, x = p ∨ Past dag x p := hclosed.past_insert_self hnew hknown
  have hold {x y} (hy : y ≠ hash) : Past (dag.insert hash block) x y ↔ Past dag x y :=
    hclosed.past_insert hnew hy
  have hspne := hne (hknown sp hbest)
  have hcovers : r.Covers (Past (dag.insert hash block)) :=
    c.congr fun x y _ hy => (hold (hne (hindexed y hy))).symm
  have htree : ∀ {p}, r.treeParentOf (some sp) = some p ↔ p = sp ∧ sp ∈ r.nodes := by
    intro p
    rw [Reachability.treeParentOf, Option.filter_eq_some_iff, Option.some.injEq,
      ExtTreeMap.contains_iff_mem, eq_comm]
    exact and_congr_right fun heq => by rw [heq]
  refine hcovers.addBlock (fun h => hnew (hindexed _ h)) hiter (fun p hp => ?_) (fun x hx hanc => ?_)
    (fun m hm hmem => hself.mpr ((hmerged m hmem).mp hm).1) (hclosed.not_past_new hnew hknown)
    (hclosed.insert hnew hknown).irrefl
  · rw [(htree.mp hp).1]
    exact hself.mpr ⟨sp, hbest, Or.inl rfl⟩
  · by_cases hbelow : x = sp ∨ Past dag x sp
    · have hspi : sp ∈ r.nodes := by
        rcases hsp with hspi | hnone
        · exact hspi
        · exact hbelow.elim (fun heq => heq ▸ hx) fun hpast => absurd hpast (hnone x hx)
      exact Or.inl ⟨sp, htree.mpr ⟨rfl, hspi⟩, hbelow.imp id (hold hspne).mpr⟩
    · exact Or.inr ((hmerged x hx).mpr ⟨hself.mp hanc, hbelow⟩)

/-- So does adding it with its computed data. -/
theorem Reachability.Covers.addComputed {r : Reachability} {dag : Dag} {gd : GhostdagMap}
    {hash : Hash} {block : Block} {d : GhostdagData} {sp : Hash} {cap : Nat} {iter : List Hash → List Hash}
    (c : r.Covers (Past dag)) (hclosed : dag.Closed) (hindexed : ∀ h ∈ r.nodes, h ∈ dag)
    (hnew : hash ∉ dag) (hknown : ∀ p ∈ block.parents, p ∈ dag)
    (hd : Computed dag gd block.parents cap sp d) (hiter : ∀ xs, (iter xs).Perm xs)
    (hsp : sp ∈ r.nodes ∨ ∀ x ∈ r.nodes, ¬ Past dag x sp) :
    (r.addBlock iter hash d.selectedParent d.merged).Covers
      (Past (dag.insert hash block)) := by
  rw [hd.selectedParent]
  refine c.addMerged hclosed hindexed hnew hknown hd.best.mem (fun m _ => ?_) hiter hsp
  rw [hd.merged.mem_iff, Dag.mem_mergeset]

namespace ChainState

/-! ### Old blocks stay as they are -/

/-- `st'` has the blocks of `st`, unchanged. -/
structure Extends (st st' : ChainState) : Prop where
  dag : ∀ h ∈ st.dag, st'.dag[h]? = st.dag[h]?
  ghostdag : ∀ h ∈ st.dag, st'.ghostdag[h]? = st.ghostdag[h]?

namespace Extends

variable {st st' st'' : ChainState} {h : Hash}

theorem refl (st : ChainState) : st.Extends st := ⟨fun _ _ => rfl, fun _ _ => rfl⟩

theorem of_core (h : st.SameCore st') : st.Extends st' :=
  ⟨fun _ _ => by rw [h.dag], fun _ _ => by rw [h.ghostdag]⟩

theorem mem (e : st.Extends st') (hh : h ∈ st.dag) : h ∈ st'.dag := by
  rw [ExtTreeMap.mem_iff_isSome_getElem?, e.dag h hh, ← ExtTreeMap.mem_iff_isSome_getElem?]
  exact hh

theorem trans (e : st.Extends st') (e' : st'.Extends st'') : st.Extends st'' :=
  ⟨fun h hh => (e'.dag h (e.mem hh)).trans (e.dag h hh),
    fun h hh => (e'.ghostdag h (e.mem hh)).trans (e.ghostdag h hh)⟩

theorem parentsOf (e : st.Extends st') (hh : h ∈ st.dag) :
    st'.dag.parentsOf h = st.dag.parentsOf h := by
  rw [Dag.parentsOf, Dag.parentsOf, e.dag h hh]

theorem spOf (e : st.Extends st') (hh : h ∈ st.dag) : st'.ghostdag.spOf h = st.ghostdag.spOf h := by
  rw [GhostdagMap.spOf, GhostdagMap.spOf, e.ghostdag h hh]

theorem scoreOf (e : st.Extends st') (hh : h ∈ st.dag) :
    st'.ghostdag.scoreOf h = st.ghostdag.scoreOf h := by
  rw [GhostdagMap.scoreOf, GhostdagMap.scoreOf, e.ghostdag h hh]

theorem mergedOf (e : st.Extends st') (hh : h ∈ st.dag) :
    st'.ghostdag.mergedOf h = st.ghostdag.mergedOf h := by
  rw [GhostdagMap.mergedOf, GhostdagMap.mergedOf, e.ghostdag h hh]

/-- The blocks of old hashes, with their scores. -/
theorem blocksAt (e : st.Extends st') {hs : List Hash} (hhs : ∀ h ∈ hs, h ∈ st.dag) :
    st'.blocksAt hs = st.blocksAt hs := by
  induction hs with
  | nil => rfl
  | cons h hs ih =>
      have hh := hhs h (by simp)
      have hcons : ∀ s : ChainState, s.blocksAt (h :: hs) = s.blocksAt [h] ++ s.blocksAt hs := by
        intro s
        rw [← blocksAt_append, List.singleton_append]
      rw [hcons, hcons, ih fun k hk => hhs k (List.mem_cons_of_mem h hk)]
      simp only [ChainState.blocksAt, List.filterMap_cons, List.filterMap_nil, e.dag h hh,
        e.scoreOf hh]

variable [Crypto]

theorem above (e : st.Extends st') (inv : DagInv st.dag st.ghostdag) {a : Hash} (hh : h ∈ st.dag) :
    Above st'.ghostdag.spOf a h ↔ Above st.ghostdag.spOf a h := by
  constructor
  · intro habove
    induction habove with
    | refl => exact .refl _
    | step hp _ ih =>
        rw [e.spOf hh] at hp
        exact .step hp (ih (inv.spOf_mem hp).2)
  · intro habove
    induction habove with
    | refl => exact .refl _
    | step hp _ ih => exact .step ((e.spOf hh).trans hp) (ih (inv.spOf_mem hp).2)

/-- The order at an old block does not change. -/
theorem canonicalOrderAt (e : st.Extends st') (inv : DagInv st.dag st.ghostdag)
    (inv' : DagInv st'.dag st'.ghostdag) (hh : h ∈ st.dag) :
    st'.canonicalOrderAt h = st.canonicalOrderAt h := by
  induction h using GhostdagMap.chain_induction inv.descends with
  | root h hsp =>
      rw [canonicalOrderAt_root inv hh hsp,
        canonicalOrderAt_root inv' (e.mem hh) ((e.spOf hh).trans hsp)]
  | step h sp hsp ih =>
      rw [canonicalOrderAt_step inv hsp, canonicalOrderAt_step inv' ((e.spOf hh).trans hsp),
        ih (inv.spOf_mem hsp).2, e.mergedOf hh]

/-- Nor do the blocks in it. -/
theorem blocksAt_order (e : st.Extends st') (inv : DagInv st.dag st.ghostdag)
    (inv' : DagInv st'.dag st'.ghostdag) (hh : h ∈ st.dag) :
    st'.blocksAt (st'.canonicalOrderAt h) = st.blocksAt (st.canonicalOrderAt h) := by
  rw [e.canonicalOrderAt inv inv' hh]
  refine e.blocksAt fun x hx => ?_
  rcases (mem_canonicalOrderAt inv hh).mp hx with rfl | hpast
  · exact hh
  · exact inv.past_mem hpast hh

end Extends

/-! ### Inserting a block -/

section Insert

variable [Crypto] {st : ChainState} {env : Env} {block : Block} {gd : GhostdagData} {sp : Hash}

theorem extends_insertBlock (a : st.Admitted env block gd sp) :
    st.Extends (st.insertBlock env block gd) := by
  have hne : ∀ h ∈ st.dag, block.hash ≠ h := fun h hh heq => a.new (heq ▸ hh)
  refine ⟨fun h hh => ?_, fun h hh => ?_⟩
  · simp [ChainState.insertBlock, ExtTreeMap.getElem?_insert, hne h hh]
  · simp [ChainState.insertBlock, ExtTreeMap.getElem?_insert, hne h hh]

theorem parentsOf_insertBlock :
    (st.insertBlock env block gd).dag.parentsOf block.hash = block.parents :=
  Dag.parentsOf_eq (by simp [ChainState.insertBlock])

theorem spOf_insertBlock (a : st.Admitted env block gd sp) :
    (st.insertBlock env block gd).ghostdag.spOf block.hash = some sp :=
  spOf_insert_self.trans a.computed.selectedParent

theorem mergedOf_insertBlock :
    (st.insertBlock env block gd).ghostdag.mergedOf block.hash = gd.merged := by
  simp [GhostdagMap.mergedOf, ChainState.insertBlock]

theorem mem_insertBlock {h : Hash} :
    h ∈ (st.insertBlock env block gd).dag ↔ h = block.hash ∨ h ∈ st.dag := by
  rw [ChainState.insertBlock, ExtTreeMap.mem_insert, Std.LawfulEqCmp.compare_eq_iff_eq, eq_comm]

theorem getElem?_insertBlock : (st.insertBlock env block gd).dag[block.hash]? = some block := by
  simp [ChainState.insertBlock]

theorem scoreOf_insertBlock :
    (st.insertBlock env block gd).ghostdag.scoreOf block.hash = gd.blueScore := scoreOf_insert_self

end Insert

/-! ### The invariant of a node with all its history -/

section Whole

variable [Crypto]

/-- A node that has lost no history. -/
structure Whole (st : ChainState) : Prop where
  dagInv : DagInv st.dag st.ghostdag
  covers : st.reachability.Covers (Past st.dag)
  indexed : ∀ h ∈ st.reachability.nodes, h ∈ st.dag
  linked : ∀ h p, st.reachability.parentOf h = some p → st.ghostdag.spOf h = some p
  tips : ∀ h, h ∈ st.tips ↔ h ∈ st.dag ∧ ∀ k, h ∉ st.dag.parentsOf k
  roots : ∀ h ∈ st.dag, st.ghostdag.spOf h = none → h = genesisBlock.hash
  selected : ∃ tip, st.selectedTip = some tip

namespace Whole

variable {st st' : ChainState} {env : Env} {block : Block} {gd : GhostdagData} {sp : Hash}

theorem of_core (w : st.Whole) (h : st.SameCore st') : st'.Whole where
  dagInv := by rw [h.dag, h.ghostdag]; exact w.dagInv
  covers := by rw [h.dag, h.reachability]; exact w.covers
  indexed := by rw [h.dag, h.reachability]; exact w.indexed
  linked := by rw [h.reachability, h.ghostdag]; exact w.linked
  tips := by rw [h.tips, h.dag]; exact w.tips
  roots := by rw [h.dag, h.ghostdag]; exact w.roots
  selected := by rw [h.selectedTip]; exact w.selected

theorem keyed (w : st.Whole) : st.Keyed := ⟨w.dagInv.keyed, w.dagInv.known⟩

theorem linked_ghostdag (w : st.Whole) : st.ghostdag.Linked := fun _ p hp =>
  (w.dagInv.known p).mpr (w.dagInv.spOf_mem hp).2

theorem tip_mem (w : st.Whole) {tip : Hash} (h : st.selectedTip = some tip) : tip ∈ st.dag :=
  ((w.tips tip).mp (selectedTip_isBest h).mem).1

/-- Every chain starts at the genesis block. -/
theorem genesis_mem (w : st.Whole) : genesisBlock.hash ∈ st.dag := by
  obtain ⟨tip, htip⟩ := w.selected
  have hmem := w.tip_mem htip
  clear htip
  induction tip using GhostdagMap.chain_induction w.dagInv.descends with
  | root h hroot => exact w.roots h hmem hroot ▸ hmem
  | step h p hp ih => exact ih (w.dagInv.spOf_mem hp).2

/-- The coloring oracle is exact, so the data is what the search computes. -/
theorem computeGhostdag_eq (w : st.Whole) (parents : List Hash) :
    st.computeGhostdag parents = tryComputeGhostdagData st.dag st.ghostdag st.dag.bfsIsAncestor
      parents maxMergesetSize := by
  have horacle : st.reachability.isAncestor st.dag = st.dag.bfsIsAncestor := by
    funext a b
    exact w.covers.isAncestor_eq w.dagInv.past_irrefl a b
  rw [computeGhostdag, horacle]

/-- The finality rule, for an indexed selected parent. -/
theorem finality (w : st.Whole) (a : st.Admitted env block gd sp) {fp : Hash}
    (hfp : st.finalityPoint = some fp) (hfpi : fp ∈ st.reachability.nodes)
    (hspi : sp ∈ st.reachability.nodes) : Above st.ghostdag.spOf fp sp := by
  have hchain := a.chain hfp (Reachability.isChainAncestor_isSome hfpi hspi)
  have habove := ((w.covers.wf.isChainAncestor_eq hchain).2.2).mp rfl
  exact habove.mono fun h p _ hp => w.linked h p hp

theorem dagInv_insertBlock (w : st.Whole) (a : st.Admitted env block gd sp) :
    DagInv (st.insertBlock env block gd).dag (st.insertBlock env block gd).ghostdag :=
  w.dagInv.insert a.new a.parents_ne a.parents_mem ((w.computeGhostdag_eq _).symm.trans a.data)

theorem not_past_insertBlock (w : st.Whole) (a : st.Admitted env block gd sp) (k : Hash) :
    ¬ Past (st.insertBlock env block gd).dag block.hash k :=
  w.dagInv.dagClosed.not_past_new a.new a.parents_mem k

theorem past_insertBlock (w : st.Whole) (a : st.Admitted env block gd sp) {x y : Hash}
    (hy : y ∈ st.dag) : Past (st.insertBlock env block gd).dag x y ↔ Past st.dag x y :=
  Past.congr (fun _ hh => (extends_insertBlock a).parentsOf hh)
    (fun _ hh p hp => w.dagInv.closed_parentsOf hh p hp) hy

theorem covers_insertBlock (w : st.Whole) (a : st.Admitted env block gd sp)
    (hsp : sp ∈ st.reachability.nodes) :
    (st.insertBlock env block gd).reachability.Covers (Past (st.insertBlock env block gd).dag) :=
  w.covers.addComputed w.dagInv.dagClosed w.indexed a.new a.parents_mem a.computed env.iter_perm
    (Or.inl hsp)

theorem added_insertBlock (w : st.Whole) (a : st.Admitted env block gd sp)
    (hsp : sp ∈ st.reachability.nodes) :
    st.reachability.Added block.hash (some sp) (st.insertBlock env block gd).reachability := by
  have hadd := Reachability.addBlock_added w.covers.wf (fun h => a.new (w.indexed _ h))
    env.iter_perm gd.selectedParent gd.merged
  have hparent : st.reachability.treeParentOf gd.selectedParent = some sp := by
    simp [a.computed.selectedParent, Reachability.treeParentOf, hsp]
  rwa [hparent] at hadd

theorem tips_insertBlock (w : st.Whole) (a : st.Admitted env block gd sp) (h : Hash) :
    h ∈ (st.insertBlock env block gd).tips ↔ h ∈ (st.insertBlock env block gd).dag ∧
      ∀ k, h ∉ (st.insertBlock env block gd).dag.parentsOf k := by
  have hold : ∀ k ∈ st.dag, (st.insertBlock env block gd).dag.parentsOf k = st.dag.parentsOf k :=
    fun k hk => (extends_insertBlock a).parentsOf hk
  rw [show (st.insertBlock env block gd).tips = nextTips st.tips block.parents block.hash from rfl,
    mem_nextTips, w.tips]
  constructor
  · rintro (⟨⟨hh, hnone⟩, hnot⟩ | rfl)
    · refine ⟨mem_insertBlock.mpr (Or.inr hh), fun k hk => ?_⟩
      by_cases hkb : k = block.hash
      · subst hkb
        rw [parentsOf_insertBlock] at hk
        exact hnot hk
      · by_cases hkd : k ∈ st.dag
        · rw [hold k hkd] at hk
          exact hnone k hk
        · rw [Dag.parentsOf_eq_nil fun h => (mem_insertBlock.mp h).elim hkb hkd] at hk
          cases hk
    · exact ⟨mem_insertBlock.mpr (Or.inl rfl), fun k hk => w.not_past_insertBlock a k (.parent hk)⟩
  · rintro ⟨hh, hnone⟩
    rcases mem_insertBlock.mp hh with rfl | hh
    · exact Or.inr rfl
    · refine Or.inl ⟨⟨hh, fun k hk => ?_⟩, fun hp => hnone block.hash (parentsOf_insertBlock ▸ hp)⟩
      by_cases hkd : k ∈ st.dag
      · exact hnone k ((hold k hkd).symm ▸ hk)
      · rw [Dag.parentsOf_eq_nil hkd] at hk
        cases hk

/-- The selected tip after a block, on a whole node. -/
theorem selectedTip_insertBlock (w : st.Whole) (a : st.Admitted env block gd sp) {tip : Hash}
    (htip : st.selectedTip = some tip) :
    ∃ tip', (st.insertBlock env block gd).selectedTip = some tip' ∧
      (tip' = block.hash ∨ tip' = tip ∧ tip ∉ block.parents) ∧
      st.ghostdag.scoreOf tip ≤ (st.insertBlock env block gd).ghostdag.scoreOf tip' := by
  have inv' := w.dagInv_insertBlock a
  refine selectedTip_insert htip (fun h => a.new ((w.dagInv.known _).mp h))
    (fun t ht => (w.dagInv.known t).mpr ((w.tips t).mp ht).1) fun p hp => ?_
  have hlt := inv'.score_lt (h := block.hash) (b := block) getElem?_insertBlock hp
  rwa [(extends_insertBlock a).scoreOf (a.parents_mem p hp), scoreOf_insertBlock] at hlt

/-- **An admitted block keeps a whole node whole**, if its selected parent is
indexed. -/
theorem insertBlock (w : st.Whole) (a : st.Admitted env block gd sp)
    (hsp : sp ∈ st.reachability.nodes) : (st.insertBlock env block gd).Whole := by
  have hadded := w.added_insertBlock a hsp
  have he := extends_insertBlock a
  obtain ⟨tip, htip⟩ := w.selected
  obtain ⟨tip', htip', -, -⟩ := w.selectedTip_insertBlock a htip
  refine ⟨w.dagInv_insertBlock a, w.covers_insertBlock a hsp, fun h hh => ?_, fun h p hp => ?_,
    w.tips_insertBlock a, fun h hh hroot => ?_, ⟨tip', htip'⟩⟩
  · rcases (hadded.mem h).mp hh with rfl | hh
    · exact mem_insertBlock.mpr (Or.inl rfl)
    · exact mem_insertBlock.mpr (Or.inr (w.indexed h hh))
  · by_cases hb : h = block.hash
    · subst hb
      rw [hadded.parent_new] at hp
      rw [spOf_insertBlock a, hp]
    · rw [hadded.parent_old h hb] at hp
      have hsp := w.linked h p hp
      rwa [he.spOf (w.dagInv.spOf_mem hsp).1]
  · rcases mem_insertBlock.mp hh with rfl | hh
    · simp [spOf_insertBlock a] at hroot
    · exact w.roots h hh ((he.spOf hh).symm.trans hroot)

end Whole

/-! ### A new node -/

section Seeded

variable (easy archival : Bool) (seed : Ledger)

theorem seeded_get {h : Hash} {b : Block} (hb : (seeded easy archival seed).dag[h]? = some b) :
    h = genesisBlock.hash ∧ b = genesisBlock := by
  simp only [seeded, new, ExtTreeMap.getElem?_insert, Std.LawfulEqCmp.compare_eq_iff_eq] at hb
  split at hb
  · rename_i heq
    exact ⟨heq.symm, (Option.some.inj hb).symm⟩
  · simp at hb

theorem seeded_mem (h : Hash) : h ∈ (seeded easy archival seed).dag ↔ genesisBlock.hash = h := by
  simp [seeded, new, ExtTreeMap.mem_insert]

theorem seeded_ghostdag (h : Hash) : (seeded easy archival seed).ghostdag[h]?
    = if genesisBlock.hash = h then some .genesis else none := by
  simp only [seeded, new, ExtTreeMap.getElem?_insert, Std.LawfulEqCmp.compare_eq_iff_eq,
    ExtTreeMap.getElem?_empty]

theorem seeded_known (h : Hash) :
    h ∈ (seeded easy archival seed).ghostdag ↔ h ∈ (seeded easy archival seed).dag := by
  rw [seeded_mem, ExtTreeMap.mem_iff_isSome_getElem?, seeded_ghostdag]
  by_cases hh : genesisBlock.hash = h
  · simp only [hh, if_true, Option.isSome_some]
  · simp only [hh, if_false, Option.isSome_none, Bool.false_eq_true]

theorem seeded_parentsOf (k : Hash) : (seeded easy archival seed).dag.parentsOf k = [] := by
  cases hb : (seeded easy archival seed).dag[k]? with
  | none => simp [Dag.parentsOf, hb]
  | some b =>
      rw [Dag.parentsOf_eq hb, (seeded_get easy archival seed hb).2]
      rfl

theorem seeded_placed : Reachability.new.Placed genesisBlock.hash none
    (seeded easy archival seed).reachability := by
  have hplaced : Reachability.new.Placed genesisBlock.hash none
      (Reachability.new.place id genesisBlock.hash none) :=
    Reachability.place_spec Reachability.wf_new (by simp [Reachability.new]) (fun _ => .refl _) none
  have hindex : (seeded easy archival seed).reachability
      = Reachability.new.place id genesisBlock.hash none := by
    simp [seeded, new, Reachability.addBlock, Reachability.new, Reachability.insertToFcsAll]
  rw [hindex]
  exact hplaced

theorem seeded_indexed (h : Hash) :
    h ∈ (seeded easy archival seed).reachability.nodes ↔ h = genesisBlock.hash := by
  rw [(seeded_placed easy archival seed).mem h]
  simp [Reachability.new]

theorem seeded_parentOf (h : Hash) : (seeded easy archival seed).reachability.parentOf h = none := by
  have hplaced := seeded_placed easy archival seed
  by_cases hh : h = genesisBlock.hash
  · subst hh
    exact hplaced.parent_new
  · rw [hplaced.parent_old h hh]
    simp [Reachability.parentOf, Reachability.node, Reachability.new]

theorem seeded_fcsOf (h : Hash) : (seeded easy archival seed).reachability.fcsOf h = [] := by
  by_cases hh : h = genesisBlock.hash
  · subst hh
    exact (seeded_placed easy archival seed).fcs_new
  · exact Reachability.fcsOf_eq_nil fun hmem => hh ((seeded_indexed easy archival seed h).mp hmem)

theorem dagInv_seeded : DagInv (seeded easy archival seed).dag (seeded easy archival seed).ghostdag where
  keyed hb := by rw [(seeded_get easy archival seed hb).1, (seeded_get easy archival seed hb).2]
  known := seeded_known easy archival seed
  closed hb p hp := by
    rw [(seeded_get easy archival seed hb).2] at hp
    cases hp
  root {h b} hb _ := by
    rw [seeded_ghostdag, if_pos (seeded_get easy archival seed hb).1.symm]
  computed hb hne := absurd (by rw [(seeded_get easy archival seed hb).2]; rfl) hne

theorem covers_seeded :
    (seeded easy archival seed).reachability.Covers (Past (seeded easy archival seed).dag) where
  wf := (seeded_placed easy archival seed).wf
  fcsIn a m hm := by simp [seeded_fcsOf] at hm
  sorted a := by
    rw [seeded_fcsOf]
    exact .nil
  edge _ hp := by simp [seeded_parentOf] at hp
  sound hm := by simp [seeded_fcsOf] at hm
  complete _ _ hpast := by
    obtain ⟨p, hp, -⟩ := hpast.cases_parent
    simp [seeded_parentsOf] at hp

theorem whole_seeded : (seeded easy archival seed).Whole where
  dagInv := dagInv_seeded easy archival seed
  covers := covers_seeded easy archival seed
  indexed h hh := (seeded_mem easy archival seed h).mpr ((seeded_indexed easy archival seed h).mp hh).symm
  linked h p hp := by simp [seeded_parentOf] at hp
  tips h := by
    rw [seeded_mem, eq_comm, show (seeded easy archival seed).tips = [genesisBlock.hash] from rfl,
      List.mem_singleton]
    simp [seeded_parentsOf]
  roots h hh _ := ((seeded_mem easy archival seed h).mp hh).symm
  selected := by
    have htip : genesisBlock.hash ∈ (seeded easy archival seed).tips := by simp [seeded, new]
    exact GhostdagMap.selectBest_isSome htip
      ((seeded_known easy archival seed _).mpr ((seeded_mem easy archival seed _).mpr rfl))

end Seeded

end Whole

end ChainState

end HassanNode
