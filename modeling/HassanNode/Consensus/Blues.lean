import Mathlib
import HassanNode.Lib.Cluster
import HassanNode.Consensus.Archival

/-!
# HassanNode.Consensus.Blues

The blue set of a block. `materialized_blues` follows the selected chain; one
step of the chain adds the block and the blues it merges
(`mem_materializedBlues_step`). By induction along the chain, the blue set of a
block is a `K`-cluster, and its size is the blue score.
-/

namespace HassanNode

open Std (ExtTreeMap ExtTreeSet)
open Params

/-! ### Coloring keeps the cluster -/

theorem inAnticone_symm (anc : Hash → Hash → Bool) (x y : Hash) :
    inAnticone anc x y = inAnticone anc y x := by
  rw [inAnticone, inAnticone, bne_comm, Bool.and_assoc, Bool.and_assoc, Bool.and_comm (!anc x y)]

theorem inAnticone_self (anc : Hash → Hash → Bool) (x : Hash) : inAnticone anc x x = false := by
  simp [inAnticone]

theorem inAnticone_iff {dag : Dag} {x y : Hash} :
    inAnticone dag.bfsIsAncestor x y = true ↔ x ≠ y ∧ ¬ Past dag x y ∧ ¬ Past dag y x := by
  simp [inAnticone, ← Dag.bfsIsAncestor_iff, and_assoc]

/-- A candidate is colored blue when the greedy rule lets it in. -/
theorem Coloring.cluster_step {anc : Hash → Hash → Bool} {c : Coloring} (candidate : Hash)
    (hc : Cluster (inAnticone anc) ghostdagK c.currentBlues) :
    Cluster (inAnticone anc) ghostdagK (c.step anc candidate).currentBlues := by
  unfold step
  split
  · rename_i hblue
    simp only [colorCandidateBlue] at hblue
    split at hblue
    · cases hblue
    · rename_i hsize
      refine hc.insert (inAnticone_symm anc) (inAnticone_self anc candidate) (Nat.not_lt.mp hsize)
        fun d hd => ?_
      exact of_decide_eq_true (List.all_eq_true.mp hblue d hd)
  · exact hc

theorem Coloring.cluster_foldl {anc : Hash → Hash → Bool} {c : Coloring} (candidates : List Hash)
    (hc : Cluster (inAnticone anc) ghostdagK c.currentBlues) :
    Cluster (inAnticone anc) ghostdagK (candidates.foldl (step anc) c).currentBlues := by
  induction candidates generalizing c with
  | nil => exact hc
  | cons x candidates ih => exact ih (cluster_step x hc)

/-- What the loop adds to the blue set is what it lists as merged blues. -/
theorem Coloring.mem_currentBlues {anc : Hash → Hash → Bool} {c : Coloring} (candidates : List Hash)
    (h : c.mergesetBlues ⊆ c.currentBlues) (x : Hash) :
    x ∈ (candidates.foldl (step anc) c).currentBlues ↔
      x ∈ c.currentBlues ∨ x ∈ (candidates.foldl (step anc) c).mergesetBlues := by
  induction candidates generalizing c with
  | nil =>
      rw [List.foldl_nil]
      exact ⟨Or.inl, fun hor => hor.elim id fun hx => h hx⟩
  | cons y candidates ih =>
      rw [List.foldl_cons]
      have hkept : (c.step anc y).mergesetBlues ⊆ (candidates.foldl (step anc) (c.step anc y)).mergesetBlues := by
        obtain ⟨blues, reds, hblues, -, -⟩ := foldl_step anc (c.step anc y) candidates
        rw [hblues]
        exact List.subset_append_left _ _
      by_cases hblue : colorCandidateBlue anc c.currentBlues y = true
      · have hcurrent : (c.step anc y).currentBlues = c.currentBlues.insert y := by
          simp [step, hblue]
        have hmerged : (c.step anc y).mergesetBlues = c.mergesetBlues ++ [y] := by
          simp [step, hblue]
        have hy : y ∈ (candidates.foldl (step anc) (c.step anc y)).mergesetBlues :=
          hkept (by simp [hmerged])
        have hsub : (c.step anc y).mergesetBlues ⊆ (c.step anc y).currentBlues := by
          rw [hcurrent, hmerged]
          intro z hz
          rcases List.mem_append.mp hz with hz | hz
          · exact List.mem_insert_of_mem (h hz)
          · exact List.mem_singleton.mp hz ▸ List.mem_insert_self
        rw [ih hsub, hcurrent, List.mem_insert_iff]
        constructor
        · rintro ((rfl | hx) | hx)
          · exact Or.inr hy
          · exact Or.inl hx
          · exact Or.inr hx
        · rintro (hx | hx)
          · exact Or.inl (Or.inr hx)
          · exact Or.inr hx
      · have hcurrent : (c.step anc y).currentBlues = c.currentBlues := by simp [step, hblue]
        have hmerged : (c.step anc y).mergesetBlues = c.mergesetBlues := by simp [step, hblue]
        rw [ih (by rw [hcurrent, hmerged]; exact h), hcurrent]

/-! ### The blue set along the selected chain -/

namespace GhostdagMap

variable {gd : GhostdagMap}

/-- The merged blues of a block; none for an unknown one. -/
def bluesOf (gd : GhostdagMap) (h : Hash) : List Hash :=
  (gd[h]?.map GhostdagData.mergesetBlues).getD []

theorem mem_foldl_insert {xs blues : List Hash} {x : Hash} :
    x ∈ xs.foldl (fun blues b => blues.insert b) blues ↔ x ∈ blues ∨ x ∈ xs := by
  induction xs generalizing blues with
  | nil => simp
  | cons y xs ih =>
      rw [List.foldl_cons, ih, List.mem_insert_iff, List.mem_cons]
      tauto

theorem nodup_foldl_insert {xs blues : List Hash} (h : blues.Nodup) :
    (xs.foldl (fun blues b => blues.insert b) blues).Nodup := by
  induction xs generalizing blues with
  | nil => exact h
  | cons y xs ih => exact ih h.insert

theorem mem_foldl_bluesOf {walk blues : List Hash} {x : Hash} :
    x ∈ walk.foldl (fun blues h => (gd.bluesOf h).foldl (fun blues b => blues.insert b) blues) blues
      ↔ x ∈ blues ∨ ∃ h ∈ walk, x ∈ gd.bluesOf h := by
  induction walk generalizing blues with
  | nil => simp
  | cons h walk ih =>
      rw [List.foldl_cons, ih, mem_foldl_insert, List.exists_mem_cons_iff, or_assoc]

theorem mem_materializedBlues (hd : gd.Descends) {x h : Hash} :
    x ∈ gd.materializedBlues h ↔ x = h ∨ ∃ c, Above gd.spOf c h ∧ x ∈ gd.bluesOf c := by
  have hwalk : ∀ c, c ∈ gd.selectedWalk (gd.scoreOf h + 1) h ↔ Above gd.spOf c h := by
    intro c
    rw [← mem_selectedChain hd, selectedChain, List.mem_reverse]
  unfold materializedBlues
  rw [show (fun (blues : List Hash) (h : Hash) => ((gd[h]?.map GhostdagData.mergesetBlues).getD []).foldl
    (fun blues b => blues.insert b) blues) = fun blues h =>
      (gd.bluesOf h).foldl (fun blues b => blues.insert b) blues from rfl, mem_foldl_bluesOf,
    List.mem_singleton]
  simp only [hwalk]

theorem nodup_materializedBlues (h : Hash) : (gd.materializedBlues h).Nodup := by
  unfold materializedBlues
  have hfold : ∀ (walk : List Hash) {blues : List Hash}, blues.Nodup → (walk.foldl
      (fun blues h => ((gd[h]?.map GhostdagData.mergesetBlues).getD []).foldl
        (fun blues b => blues.insert b) blues) blues).Nodup := by
    intro walk
    induction walk with
    | nil => exact id
    | cons c walk ih => exact fun hnodup => ih (nodup_foldl_insert hnodup)
  exact hfold _ (List.nodup_singleton h)

theorem materializedBlues_root {h : Hash} (hsp : gd.spOf h = none)
    (hblues : gd.bluesOf h = []) : gd.materializedBlues h = [h] := by
  rw [spOf] at hsp
  have hnone : (gd[h]?.map GhostdagData.mergesetBlues).getD [] = [] := hblues
  simp [materializedBlues, selectedWalk, hsp, hnone]

/-- **One step of the chain** adds the block and the blues it merges. -/
theorem mem_materializedBlues_step (hd : gd.Descends) {x h sp : Hash} (hsp : gd.spOf h = some sp)
    (hhead : sp ∈ gd.bluesOf h) :
    x ∈ gd.materializedBlues h ↔ x = h ∨ x ∈ gd.bluesOf h ∨ x ∈ gd.materializedBlues sp := by
  rw [mem_materializedBlues hd, mem_materializedBlues hd]
  refine or_congr_right ?_
  constructor
  · rintro ⟨c, habove, hx⟩
    cases habove with
    | refl => exact Or.inl hx
    | step hp habove =>
        obtain rfl := Option.some.inj (hsp.symm.trans hp)
        exact Or.inr (Or.inr ⟨c, habove, hx⟩)
  · rintro (hx | rfl | ⟨c, habove, hx⟩)
    · exact ⟨h, .refl h, hx⟩
    · exact ⟨h, .refl h, hhead⟩
    · exact ⟨c, .step hsp habove, hx⟩

end GhostdagMap

theorem Coloring.nodup_foldl {anc : Hash → Hash → Bool} {c : Coloring} (candidates : List Hash)
    (hc : c.currentBlues.Nodup) : (candidates.foldl (step anc) c).currentBlues.Nodup := by
  induction candidates generalizing c with
  | nil => exact hc
  | cons x candidates ih =>
      refine ih ?_
      unfold step
      split
      · exact hc.insert
      · exact hc

/-- The blue set in which the coloring of a block ends is a cluster, if that of
its selected parent is one. -/
theorem tryCompute_cluster {dag : Dag} {gd : GhostdagMap} {anc : Hash → Hash → Bool}
    {parents : List Hash} {cap : Nat} {sp : Hash} {d : GhostdagData} (hdesc : gd.Descends)
    (h : tryComputeGhostdagData dag gd anc parents cap = .ok d)
    (hsp : gd.selectParent parents = some sp)
    (hc : Cluster (inAnticone anc) ghostdagK (gd.materializedBlues sp)) :
    ∃ current : List Hash, current.Nodup ∧ Cluster (inAnticone anc) ghostdagK current ∧
      ∀ x, x ∈ current ↔ x ∈ gd.materializedBlues sp ∨ x ∈ d.mergesetBlues := by
  simp only [tryComputeGhostdagData, hsp] at h
  split at h
  · cases h
  · obtain rfl := Except.ok.inj h
    have hhead : [sp] ⊆ gd.materializedBlues sp := by
      intro x hx
      exact (GhostdagMap.mem_materializedBlues hdesc).mpr (Or.inl (List.mem_singleton.mp hx))
    let start : Coloring :=
      { currentBlues := gd.materializedBlues sp, mergesetBlues := [sp], mergesetReds := [] }
    let order := topologicalOrder anc (dag.mergeset parents sp)
    exact ⟨(order.foldl (Coloring.step anc) start).currentBlues,
      Coloring.nodup_foldl order (GhostdagMap.nodup_materializedBlues sp),
      Coloring.cluster_foldl order hc, Coloring.mem_currentBlues order hhead⟩

namespace DagInv

variable [Crypto] {dag : Dag} {gd : GhostdagMap} {h sp : Hash}

theorem bluesOf_root (inv : DagInv dag gd) (hh : h ∈ dag) (hsp : gd.spOf h = none) :
    gd.bluesOf h = [] := by
  obtain ⟨b, hb⟩ := exists_block hh
  have hroot := inv.root hb (by rw [← Dag.parentsOf_eq hb]; exact inv.parentsOf_of_root hh hsp)
  simp [GhostdagMap.bluesOf, hroot, GhostdagData.genesis]

/-- The merged blues of a block start with its selected parent; the rest is
merged. -/
theorem bluesOf_eq (inv : DagInv dag gd) (hsp : gd.spOf h = some sp) :
    ∃ blues reds, gd.bluesOf h = sp :: blues ∧ gd.mergedOf h = blues ++ reds ∧
      gd.scoreOf h = gd.scoreOf sp + (blues.length + 1) := by
  obtain ⟨b, d, -, hd, hc⟩ := inv.of_spOf hsp
  obtain ⟨blues, hblues⟩ := hc.blues
  refine ⟨blues, d.mergesetReds, ?_, ?_, ?_⟩
  · simp [GhostdagMap.bluesOf, hd, hblues]
  · simp [GhostdagMap.mergedOf, hd, GhostdagData.merged, hblues]
  · rw [scoreOf_eq hd, hc.score, hblues, List.length_cons]

/-- Blue blocks are in the past. -/
theorem past_of_mem_materializedBlues (inv : DagInv dag gd) {x : Hash}
    (hx : x ∈ gd.materializedBlues h) : x = h ∨ Past dag x h := by
  obtain rfl | ⟨c, habove, hblue⟩ := (GhostdagMap.mem_materializedBlues inv.descends).mp hx
  · exact Or.inl rfl
  · cases hd : gd[c]? with
    | none => simp [GhostdagMap.bluesOf, hd] at hblue
    | some d =>
        have hpast : Past dag x c := (inv.links hd).2 x (by simpa [GhostdagMap.bluesOf, hd] using hblue)
        rcases inv.past_of_above habove with rfl | hch
        · exact Or.inr hpast
        · exact Or.inr (hpast.trans hch)

/-- The blue set of a block: the block, the blues it merges, the blue set of its
selected parent. -/
theorem materializedBlues_perm (inv : DagInv dag gd) (hsp : gd.spOf h = some sp) {blues : List Hash}
    (hblues : gd.bluesOf h = sp :: blues) :
    (gd.materializedBlues h).Perm (h :: (blues ++ gd.materializedBlues sp)) := by
  have hmerged : ∀ x ∈ blues, Past dag x h ∧ ¬ (x = sp ∨ Past dag x sp) := by
    intro x hx
    obtain ⟨blues', reds, hblues', hmerged, -⟩ := inv.bluesOf_eq hsp
    obtain rfl := (List.cons.inj (hblues.symm.trans hblues')).2
    exact (inv.mem_mergedOf hsp).mp (hmerged ▸ List.mem_append_left _ hx)
  have hnodup : blues.Nodup := by
    obtain ⟨blues', reds, hblues', hmerged, -⟩ := inv.bluesOf_eq hsp
    obtain rfl := (List.cons.inj (hblues.symm.trans hblues')).2
    exact (List.nodup_append.mp (hmerged ▸ inv.nodup_mergedOf hsp)).1
  have hself : h ∉ blues ++ gd.materializedBlues sp := by
    intro hmem
    rcases List.mem_append.mp hmem with hmem | hmem
    · exact inv.past_irrefl h (hmerged h hmem).1
    · exact inv.past_irrefl h
        (.of_parent (inv.spOf_parent hsp) (inv.past_of_mem_materializedBlues hmem))
  have hdisjoint : (blues ++ gd.materializedBlues sp).Nodup := by
    refine hnodup.append (gd.nodup_materializedBlues sp) fun x hx hx' => ?_
    exact (hmerged x hx).2 (inv.past_of_mem_materializedBlues hx')
  refine (List.perm_ext_iff_of_nodup (gd.nodup_materializedBlues h)
    (List.nodup_cons.mpr ⟨hself, hdisjoint⟩)).mpr fun x => ?_
  have hin : sp ∈ gd.materializedBlues sp :=
    (GhostdagMap.mem_materializedBlues inv.descends).mpr (Or.inl rfl)
  rw [GhostdagMap.mem_materializedBlues_step inv.descends hsp (by simp [hblues]), hblues,
    List.mem_cons, List.mem_cons, List.mem_append]
  refine or_congr_right ⟨?_, ?_⟩
  · rintro ((rfl | hx) | hx)
    · exact Or.inr hin
    · exact Or.inl hx
    · exact Or.inr hx
  · rintro (hx | hx)
    · exact Or.inl (Or.inr hx)
    · exact Or.inr hx

/-- **The blue score** counts the blue set without the block. -/
theorem length_materializedBlues (inv : DagInv dag gd) (hh : h ∈ dag) :
    (gd.materializedBlues h).length = gd.scoreOf h + 1 := by
  induction h using GhostdagMap.chain_induction inv.descends with
  | root h hsp =>
      obtain ⟨b, hb⟩ := exists_block hh
      have hroot := inv.root hb (by rw [← Dag.parentsOf_eq hb]; exact inv.parentsOf_of_root hh hsp)
      rw [GhostdagMap.materializedBlues_root hsp (inv.bluesOf_root hh hsp), scoreOf_eq hroot]
      rfl
  | step h sp hsp ih =>
      obtain ⟨blues, reds, hblues, -, hscore⟩ := inv.bluesOf_eq hsp
      rw [(inv.materializedBlues_perm hsp hblues).length_eq, List.length_cons, List.length_append,
        ih (inv.spOf_mem hsp).2, hscore]
      omega

/-- Blue scores are smaller than the number of blocks. -/
theorem score_lt_length (inv : DagInv dag gd) {hs : List Hash} (hall : ∀ x ∈ dag, x ∈ hs)
    (hh : h ∈ dag) : gd.scoreOf h < hs.length := by
  have hsub : gd.materializedBlues h ⊆ hs := by
    intro x hx
    rcases inv.past_of_mem_materializedBlues hx with rfl | hpast
    · exact hall x hh
    · exact hall x (inv.past_mem hpast hh)
  have hle := (List.subperm_of_subset (gd.nodup_materializedBlues h) hsub).length_le
  rw [inv.length_materializedBlues hh] at hle
  omega

/-- **The blue set is a cluster.** -/
theorem cluster_materializedBlues (inv : DagInv dag gd) (hh : h ∈ dag) :
    Cluster (inAnticone dag.bfsIsAncestor) ghostdagK (gd.materializedBlues h) := by
  -- along the selected chain: the coloring keeps the cluster, and the block
  -- itself has all of it in its past
  induction h using GhostdagMap.chain_induction inv.descends with
  | root h hsp =>
      rw [GhostdagMap.materializedBlues_root hsp (inv.bluesOf_root hh hsp)]
      exact .singleton (inAnticone_self _ h)
  | step h sp hsp ih =>
      obtain ⟨b, d, hb, hd, hc⟩ := inv.of_spOf hsp
      obtain ⟨d', hd', hok⟩ := inv.computed hb (List.ne_nil_of_mem hc.best.mem)
      obtain rfl := Option.some.inj (hd.symm.trans hd')
      obtain ⟨current, hnodup, hcluster, hmem⟩ := tryCompute_cluster inv.descends hok
        (GhostdagMap.selectBest_eq_some.mpr hc.best) (ih (inv.spOf_mem hsp).2)
      obtain ⟨blues, reds, hblues, -, -⟩ := inv.bluesOf_eq hsp
      have hperm := inv.materializedBlues_perm hsp hblues
      have hbelow : (blues ++ gd.materializedBlues sp).Nodup :=
        (List.nodup_cons.mp (hperm.nodup_iff.mp (gd.nodup_materializedBlues h))).2
      have hset : current.Perm (blues ++ gd.materializedBlues sp) := by
        have hdblues : d.mergesetBlues = sp :: blues := by
          simpa [GhostdagMap.bluesOf, hd] using hblues
        have hin : sp ∈ gd.materializedBlues sp :=
          (GhostdagMap.mem_materializedBlues inv.descends).mpr (Or.inl rfl)
        refine (List.perm_ext_iff_of_nodup hnodup hbelow).mpr fun x => ?_
        rw [hmem, hdblues, List.mem_cons, List.mem_append]
        constructor
        · rintro (hx | rfl | hx)
          · exact Or.inr hx
          · exact Or.inr hin
          · exact Or.inl hx
        · rintro (hx | hx)
          · exact Or.inr (Or.inr hx)
          · exact Or.inl hx
      refine ((hcluster.perm hset).cons_free (inAnticone_self _ h) (inAnticone_symm _)
        fun x hx => ?_).perm hperm.symm
      have hpast : Past dag x h := by
        have hx' : x ∈ gd.materializedBlues h := hperm.mem_iff.mpr (List.mem_cons_of_mem h hx)
        refine (inv.past_of_mem_materializedBlues hx').resolve_left ?_
        rintro rfl
        exact (List.nodup_cons.mp (hperm.nodup_iff.mp (gd.nodup_materializedBlues x))).1 hx
      simp [inAnticone, Dag.bfsIsAncestor_iff.mpr hpast]

end DagInv

/-! ### Archival runs -/

namespace ChainState

variable [Crypto]

/-- **The k-cluster property.** In the blue set of a block, every member has at
most `K` others in its anticone. -/
theorem archival_blues_kCluster (easy : Bool) (seed : Ledger) (calls : List (Env × Block)) :
    let st := (seeded easy true seed).run calls
    ∀ B ∈ st.dag, ∀ x ∈ st.ghostdag.materializedBlues B,
      Set.encard {y | y ∈ st.ghostdag.materializedBlues B ∧ y ≠ x ∧
        ¬ Past st.dag y x ∧ ¬ Past st.dag x y} ≤ ghostdagK := by
  intro st B hB x hx
  have inv : DagInv st.dag st.ghostdag := (Archival.run easy seed calls).whole.dagInv
  have hcluster := inv.cluster_materializedBlues hB x hx
  have hset : {y | y ∈ st.ghostdag.materializedBlues B ∧ y ≠ x ∧
      ¬ Past st.dag y x ∧ ¬ Past st.dag x y} =
      ((conflicts (inAnticone st.dag.bfsIsAncestor) (st.ghostdag.materializedBlues B) x).toFinset :
        Set Hash) := by
    ext y
    simp [conflicts, inAnticone_iff]
  rw [hset, Set.encard_coe_eq_coe_finsetCard]
  exact_mod_cast (List.toFinset_card_le _).trans hcluster

/-- **Mergesets partition the past.** -/
theorem archival_mergesets_partition_past (easy : Bool) (seed : Ledger)
    (calls : List (Env × Block)) :
    let st := (seeded easy true seed).run calls
    ∀ B b, st.dag[B]? = some b → ∃ d, st.ghostdag[B]? = some d ∧
      (d.mergesetBlues.drop 1 ++ d.mergesetReds).Nodup ∧
      (∀ x, x ∈ d.mergesetBlues.drop 1 ++ d.mergesetReds ↔
        Past st.dag x B ∧ ∀ sp, d.selectedParent = some sp → x ≠ sp ∧ ¬ Past st.dag x sp) ∧
      d.blueScore = ((st.ghostdag.materializedBlues B).toFinset.erase B).card ∧
      (∀ p ∈ b.parents, st.ghostdag.scoreOf p < d.blueScore) ∧
      (st.canonicalOrderAt B).Nodup ∧
      (∀ x, x ∈ st.canonicalOrderAt B ↔ x = B ∨ Past st.dag x B) ∧
      (st.canonicalOrderAt B).getLast? = some B := by
  intro st B b hb
  have inv : DagInv st.dag st.ghostdag := (Archival.run easy seed calls).whole.dagInv
  have hB : B ∈ st.dag := DagInv.mem_of_getElem? hb
  obtain ⟨d, hd⟩ := Option.isSome_iff_exists.mp
    (ExtTreeMap.mem_iff_isSome_getElem?.mp ((inv.known B).mpr hB))
  have hmerged : st.ghostdag.mergedOf B = d.mergesetBlues.drop 1 ++ d.mergesetReds := by
    simp [GhostdagMap.mergedOf, hd, GhostdagData.merged]
  have hspOf : st.ghostdag.spOf B = d.selectedParent := by simp [GhostdagMap.spOf, hd]
  have hscore := DagInv.scoreOf_eq hd
  refine ⟨d, hd, ?_, ?_, ?_, ?_, st.nodup_canonicalOrderAt B, fun x => mem_canonicalOrderAt inv hB, ?_⟩
  · rw [← hmerged]
    cases hsp : st.ghostdag.spOf B with
    | none => simp [inv.mergedOf_root hB hsp]
    | some sp => exact inv.nodup_mergedOf hsp
  · intro x
    rw [← hmerged, ← hspOf]
    cases hsp : st.ghostdag.spOf B with
    | none =>
        rw [inv.mergedOf_root hB hsp]
        refine ⟨fun hx => absurd hx (by simp), fun hx => ?_⟩
        obtain ⟨p, hp, -⟩ := hx.1.cases_parent
        simp [inv.parentsOf_of_root hB hsp] at hp
    | some sp => simp [inv.mem_mergedOf hsp]
  · have hin : B ∈ (st.ghostdag.materializedBlues B).toFinset :=
      List.mem_toFinset.mpr ((GhostdagMap.mem_materializedBlues inv.descends).mpr (Or.inl rfl))
    rw [Finset.card_erase_of_mem hin, List.toFinset_card_of_nodup (st.ghostdag.nodup_materializedBlues B),
      inv.length_materializedBlues hB, hscore]
    omega
  · intro p hp
    rw [← hscore]
    exact inv.score_lt hb hp
  · obtain ⟨init, hinit⟩ := canonicalOrderAt_last inv hB
    simp [hinit]

end ChainState

end HassanNode
