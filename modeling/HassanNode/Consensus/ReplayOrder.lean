import Mathlib
import HassanNode.Consensus.Mining

/-!
# HassanNode.Consensus.ReplayOrder

Whether the canonical order applies parents first. `topological_order` does
(`topologicalOrder_pairwise`), and so does each of the two colors of a mergeset
on its own. The mergeset is emitted blues first, then reds, so the only way a
block can come before its parent is a blue block with a red parent in the same
mergeset (`archival_order_parents_first_iff`).
-/

namespace HassanNode

open Std (ExtTreeMap ExtTreeSet)
open Params

/-! ### Topological order -/

theorem topoLe_total (a b : Nat × Hash) : topoLe a b = true ∨ topoLe b a = true := by
  simp only [topoLe, Bool.or_eq_true, decide_eq_true_eq, Bool.and_eq_true, beq_iff_eq]
  rcases Nat.lt_trichotomy a.1 b.1 with h | h | h
  · exact Or.inl (Or.inl h)
  · rcases le_total a.2 b.2 with hab | hba
    · exact Or.inl (Or.inr ⟨h, hab⟩)
    · exact Or.inr (Or.inr ⟨h.symm, hba⟩)
  · exact Or.inr (Or.inl h)

theorem topoLe_trans {a b c : Nat × Hash} (hab : topoLe a b = true) (hbc : topoLe b c = true) :
    topoLe a c = true := by
  simp only [topoLe, Bool.or_eq_true, decide_eq_true_eq, Bool.and_eq_true, beq_iff_eq] at *
  rcases hab with hab | ⟨hab, hle⟩ <;> rcases hbc with hbc | ⟨hbc, hle'⟩
  · exact Or.inl (by omega)
  · exact Or.inl (by omega)
  · exact Or.inl (by omega)
  · exact Or.inr ⟨by omega, hle.trans hle'⟩

theorem fst_le_of_topoLe {a b : Nat × Hash} (h : topoLe a b = true) : a.1 ≤ b.1 := by
  simp only [topoLe, Bool.or_eq_true, decide_eq_true_eq, Bool.and_eq_true, beq_iff_eq] at h
  omega

theorem topoLe_antisymm {a b : Nat × Hash} (hab : topoLe a b = true) (hba : topoLe b a = true) : a = b := by
  simp only [topoLe, Bool.or_eq_true, decide_eq_true_eq, Bool.and_eq_true, beq_iff_eq] at *
  rcases hab with hab | ⟨hfst, hab⟩
  · omega
  · rcases hba with hba | ⟨-, hba⟩
    · omega
    · exact Prod.ext hfst (le_antisymm hab hba)

theorem pairwise_insertionSort_topoLe (ranked : List (Nat × Hash)) :
    (ranked.insertionSort fun a b => topoLe a b).Pairwise fun a b => topoLe a b = true := by
  have : Std.Total fun a b : Nat × Hash => topoLe a b = true := ⟨topoLe_total⟩
  have : IsTrans (Nat × Hash) fun a b => topoLe a b = true := ⟨fun _ _ _ => topoLe_trans⟩
  exact List.pairwise_insertionSort _ _

/-- A block has more ancestors in a set than each of its ancestors there. -/
theorem rank_lt {anc : Hash → Hash → Bool} (hirrefl : ∀ x, anc x x = false)
    (htrans : ∀ x y z, anc x y = true → anc y z = true → anc x z = true) {ms : List Hash} {a b : Hash}
    (hb : b ∈ ms) (hba : anc b a = true) :
    (ms.filter fun other => other != b && anc other b).length
      < (ms.filter fun other => other != a && anc other a).length := by
  have hne : ∀ {x y : Hash}, anc x y = true → x ≠ y := by
    rintro x y hxy rfl
    simp [hirrefl] at hxy
  have hsub : (ms.filter fun other => other != b && anc other b).Sublist
      (ms.filter fun other => other != a && anc other a) := by
    refine List.monotone_filter_right ms fun x hx => ?_
    simp only [Bool.and_eq_true, bne_iff_ne] at hx ⊢
    have hxa := htrans x b a hx.2 hba
    exact ⟨hne hxa, hxa⟩
  refine hsub.length_le.lt_of_ne fun hlen => ?_
  have hmem : b ∈ ms.filter fun other => other != a && anc other a := by
    simp [List.mem_filter, hb, hba, hne hba]
  rw [← hsub.eq_of_length hlen] at hmem
  simp at hmem

/-- **Ancestors first**: no later block is an ancestor of an earlier one. -/
theorem topologicalOrder_pairwise {anc : Hash → Hash → Bool} (hirrefl : ∀ x, anc x x = false)
    (htrans : ∀ x y z, anc x y = true → anc y z = true → anc x z = true) (ms : List Hash) :
    (topologicalOrder anc ms).Pairwise fun a b => anc b a = false := by
  unfold topologicalOrder
  rw [List.pairwise_map]
  refine (pairwise_insertionSort_topoLe _).imp_of_mem fun {x y} hx hy hxy => ?_
  obtain ⟨a, ha, rfl⟩ := List.mem_map.mp ((List.perm_insertionSort _ _).mem_iff.mp hx)
  obtain ⟨b, hb, rfl⟩ := List.mem_map.mp ((List.perm_insertionSort _ _).mem_iff.mp hy)
  rw [← Bool.not_eq_true]
  intro hba
  have hlt := rank_lt hirrefl htrans hb hba
  exact absurd (fst_le_of_topoLe hxy) (Nat.not_le.mpr hlt)

/-- Each color keeps the order of the candidates. -/
theorem Coloring.foldl_sublist (anc : Hash → Hash → Bool) (c : Coloring) (candidates : List Hash) :
    ∃ blues reds, (candidates.foldl (step anc) c).mergesetBlues = c.mergesetBlues ++ blues
      ∧ (candidates.foldl (step anc) c).mergesetReds = c.mergesetReds ++ reds
      ∧ blues.Sublist candidates ∧ reds.Sublist candidates := by
  induction candidates generalizing c with
  | nil => exact ⟨[], [], by simp, by simp, .slnil, .slnil⟩
  | cons x candidates ih =>
      rw [List.foldl_cons]
      obtain ⟨blues, reds, hblues, hreds, hsub, hsub'⟩ := ih (c.step anc x)
      by_cases hx : colorCandidateBlue anc c.currentBlues x = true
      · refine ⟨x :: blues, reds, ?_, ?_, hsub.cons_cons x, hsub'.cons x⟩
        · rw [hblues]
          simp [step, hx]
        · rw [hreds]
          simp [step, hx]
      · refine ⟨blues, x :: reds, ?_, ?_, hsub.cons x, hsub'.cons_cons x⟩
        · rw [hblues]
          simp [step, hx]
        · rw [hreds]
          simp [step, hx]

/-! ### Parents first -/

/-- In the order, no block comes before one of its parents. -/
def ParentsFirst (dag : Dag) (order : List Hash) : Prop :=
  ∀ X Y, X ∈ dag.parentsOf Y → X ∈ order → Y ∈ order → order.idxOf X < order.idxOf Y

theorem parentsFirst_iff {dag : Dag} {order : List Hash} (hnodup : order.Nodup)
    (hirrefl : ∀ x, x ∉ dag.parentsOf x) :
    ParentsFirst dag order ↔ order.Pairwise fun a b => b ∉ dag.parentsOf a := by
  rw [List.pairwise_iff_getElem]
  constructor
  · intro h i j hi hj hij hparent
    have := h _ _ hparent (List.getElem_mem hj) (List.getElem_mem hi)
    rw [hnodup.idxOf_getElem, hnodup.idxOf_getElem] at this
    omega
  · intro h X Y hparent hX hY
    have hXlt := List.idxOf_lt_length_iff.mpr hX
    have hYlt := List.idxOf_lt_length_iff.mpr hY
    rcases Nat.lt_trichotomy (order.idxOf X) (order.idxOf Y) with hlt | heq | hgt
    · exact hlt
    · have hXY : X = Y := by
        rw [← List.getElem_idxOf hXlt, ← List.getElem_idxOf hYlt]
        simp only [heq]
      exact absurd (hXY ▸ hparent) (hirrefl Y)
    · have := h _ _ hYlt hXlt hgt
      rw [List.getElem_idxOf, List.getElem_idxOf] at this
      exact absurd hparent this

/-- The merged reds of a block; none for an unknown one. -/
def GhostdagMap.redsOf (gd : GhostdagMap) (h : Hash) : List Hash :=
  (gd[h]?.map GhostdagData.mergesetReds).getD []

namespace DagInv

variable [Crypto] {dag : Dag} {gd : GhostdagMap} {h sp : Hash}

theorem notMem_parentsOf_self (inv : DagInv dag gd) (x : Hash) : x ∉ dag.parentsOf x :=
  fun hx => inv.past_irrefl x (.parent hx)

/-- The mergeset is its blues, then its reds, each with ancestors first. -/
theorem mergedOf_colors (inv : DagInv dag gd) (hsp : gd.spOf h = some sp) :
    gd.mergedOf h = (gd.bluesOf h).drop 1 ++ gd.redsOf h ∧
    ((gd.bluesOf h).drop 1).Pairwise (fun a b => b ∉ dag.parentsOf a) ∧
    (gd.redsOf h).Pairwise fun a b => b ∉ dag.parentsOf a := by
  obtain ⟨b, d, hb, hd, hc⟩ := inv.of_spOf hsp
  obtain ⟨d', hd', hok⟩ := inv.computed hb (List.ne_nil_of_mem hc.best.mem)
  obtain rfl := Option.some.inj (hd.symm.trans hd')
  have hselect : gd.selectParent b.parents = some sp := GhostdagMap.selectBest_eq_some.mpr hc.best
  have hsorted : (topologicalOrder dag.bfsIsAncestor (dag.mergeset b.parents sp)).Pairwise
      fun a b => b ∉ dag.parentsOf a := by
    refine (topologicalOrder_pairwise (fun x => ?_) (fun x y z hxy hyz => ?_) _).imp ?_
    · rw [← Bool.not_eq_true, Dag.bfsIsAncestor_iff]
      exact inv.past_irrefl x
    · rw [Dag.bfsIsAncestor_iff] at *
      exact hxy.trans hyz
    · intro x y hxy hparent
      rw [Dag.bfsIsAncestor_iff.mpr (.parent hparent)] at hxy
      cases hxy
  obtain ⟨blues, reds, hblues, hreds, hsub, hsub'⟩ := Coloring.foldl_sublist dag.bfsIsAncestor
    { currentBlues := gd.materializedBlues sp, mergesetBlues := [sp], mergesetReds := [] }
    (topologicalOrder dag.bfsIsAncestor (dag.mergeset b.parents sp))
  have hcolors : d.mergesetBlues = sp :: blues ∧ d.mergesetReds = reds := by
    simp only [tryComputeGhostdagData, hselect] at hok
    split at hok
    · cases hok
    · obtain rfl := Except.ok.inj hok
      exact ⟨hblues, by simpa using hreds⟩
  refine ⟨?_, ?_, ?_⟩
  · simp [GhostdagMap.mergedOf, GhostdagMap.bluesOf, GhostdagMap.redsOf, hd, GhostdagData.merged]
  · simpa [GhostdagMap.bluesOf, hd, hcolors.1] using hsorted.sublist hsub
  · simpa [GhostdagMap.redsOf, hd, hcolors.2] using hsorted.sublist hsub'

end DagInv

namespace ChainState

section Order

variable [Crypto] {st : ChainState} {h sp : Hash}

/-- One step of the canonical order: the only new pair that can be out of order
is a blue block and its red parent. -/
theorem pairwise_canonicalOrderAt_step (inv : DagInv st.dag st.ghostdag)
    (hsp : st.ghostdag.spOf h = some sp) :
    ((st.canonicalOrderAt h).Pairwise fun a b => b ∉ st.dag.parentsOf a) ↔
      ((st.canonicalOrderAt sp).Pairwise fun a b => b ∉ st.dag.parentsOf a) ∧
      ∀ Y ∈ (st.ghostdag.bluesOf h).drop 1, ∀ X ∈ st.ghostdag.redsOf h,
        X ∉ st.dag.parentsOf Y := by
  obtain ⟨hmerged, hblues, hreds⟩ := inv.mergedOf_colors hsp
  obtain ⟨hh, hspmem⟩ := inv.spOf_mem hsp
  -- what comes after the order of the selected parent is not in its past
  have hafter : ∀ a ∈ st.canonicalOrderAt sp, ∀ b ∈ st.ghostdag.mergedOf h ++ [h],
      b ∉ st.dag.parentsOf a := by
    intro a ha b hb hparent
    have hpast : Past st.dag b sp := by
      rcases (mem_canonicalOrderAt inv hspmem).mp ha with rfl | hpast
      · exact .parent hparent
      · exact (Past.parent hparent).trans hpast
    rcases List.mem_append.mp hb with hb | hb
    · exact ((inv.mem_mergedOf hsp).mp hb).2 (Or.inr hpast)
    · obtain rfl := List.mem_singleton.mp hb
      exact inv.past_irrefl b (hpast.trans (.parent (inv.spOf_parent hsp)))
  have hlast : ∀ a ∈ st.ghostdag.mergedOf h, ∀ b ∈ [h], b ∉ st.dag.parentsOf a := by
    intro a ha b hb hparent
    obtain rfl := List.mem_singleton.mp hb
    exact inv.past_irrefl b ((Past.parent hparent).trans ((inv.mem_mergedOf hsp).mp ha).1)
  rw [canonicalOrderAt_step inv hsp, List.append_assoc, List.pairwise_append]
  constructor
  · rintro ⟨hfirst, hrest, -⟩
    rw [List.pairwise_append, hmerged, List.pairwise_append] at hrest
    exact ⟨hfirst, hrest.1.2.2⟩
  · rintro ⟨hfirst, hcross⟩
    refine ⟨hfirst, List.pairwise_append.mpr ⟨?_, List.pairwise_singleton _ _, hlast⟩, hafter⟩
    rw [hmerged]
    exact List.pairwise_append.mpr ⟨hblues, hreds, hcross⟩

theorem pairwise_canonicalOrderAt (inv : DagInv st.dag st.ghostdag) (hh : h ∈ st.dag) :
    ((st.canonicalOrderAt h).Pairwise fun a b => b ∉ st.dag.parentsOf a) ↔
      ∀ C ∈ st.ghostdag.selectedChain h, ∀ Y ∈ (st.ghostdag.bluesOf C).drop 1,
        ∀ X ∈ st.ghostdag.redsOf C, X ∉ st.dag.parentsOf Y := by
  induction h using GhostdagMap.chain_induction inv.descends with
  | root h hsp =>
      rw [canonicalOrderAt_root inv hh hsp, GhostdagMap.selectedChain_root hsp]
      simp [inv.bluesOf_root hh hsp]
  | step h sp hsp ih =>
      rw [pairwise_canonicalOrderAt_step inv hsp, ih (inv.spOf_mem hsp).2,
        GhostdagMap.selectedChain_step inv.descends hsp, List.forall_mem_append]
      simp

/-- **The canonical order applies parents first**, unless a chain block merges a
blue block together with a red parent of it. -/
theorem archival_order_parents_first_iff (easy : Bool) (seed : Ledger) (calls : List (Env × Block)) :
    let st := (seeded easy true seed).run calls
    ∀ T ∈ st.dag, ParentsFirst st.dag (st.canonicalOrderAt T) ↔
      ∀ C ∈ st.ghostdag.selectedChain T, ∀ Y ∈ (st.ghostdag.bluesOf C).drop 1,
        ∀ X ∈ st.ghostdag.redsOf C, X ∉ st.dag.parentsOf Y := by
  intro st T hT
  have inv : DagInv st.dag st.ghostdag := (Archival.run easy seed calls).whole.dagInv
  rw [parentsFirst_iff (st.nodup_canonicalOrderAt T) inv.notMem_parentsOf_self,
    pairwise_canonicalOrderAt inv hT]

end Order

end ChainState

/-! ### A blue block before its red parent -/

namespace Sample

/-- A chain of 45 blocks, block 46 on the genesis block, block 47 on blocks 46
and 41, and block 48 on blocks 45 and 47. -/
def twist : List (List Nat) := (List.range 45).map ([·]) ++ [[0], [46, 41], [45, 47]]

theorem planned_twist : Planned twist := planned_of_short (by decide) (by decide +kernel)

theorem followed_twist (archival : Bool) : Followed archival twist (built archival twist) :=
  followed archival (by decide) planned_twist

theorem spine_twist : Followed.Spine twist 45 := by
  intro i hi
  rw [twist, List.getElem?_append_left (by simpa using hi)]
  simp [hi]

section Twist

variable {st : ChainState} (f : Followed true twist st)

include f

theorem parentsOf_twist : st.dag.parentsOf (blockHash 46 0) = [blockHash 0 0] ∧
    st.dag.parentsOf (blockHash 47 0) = [blockHash 46 0, blockHash 41 0] ∧
    st.dag.parentsOf (blockHash 48 0) = [blockHash 45 0, blockHash 47 0] :=
  ⟨f.parents 45 [0] (by decide), f.parents 46 [46, 41] (by decide), f.parents 47 [45, 47] (by decide)⟩

theorem number_inj_twist {i j : Nat} (hi : i ≤ 48) (hj : j ≤ 48) :
    blockHash i 0 = blockHash j 0 ↔ i = j :=
  ⟨f.numbered.number_inj (Nat.lt_succ_of_le hi) (Nat.lt_succ_of_le hj), fun h => h ▸ rfl⟩

theorem past_twist {x : Hash} :
    (Past st.dag x (blockHash 46 0) ↔ x = blockHash 0 0) ∧
    (Past st.dag x (blockHash 47 0) ↔ x = blockHash 46 0 ∨ ∃ i ≤ 41, x = blockHash i 0) := by
  obtain ⟨h46, h47, -⟩ := parentsOf_twist f
  have hchain : ∀ {j}, j ≤ 45 → (Past st.dag x (blockHash j 0) ↔ ∃ i < j, x = blockHash i 0) :=
    fun hj => f.past_spine spine_twist hj
  have hfirst : Past st.dag x (blockHash 46 0) ↔ x = blockHash 0 0 := by
    constructor
    · intro hpast
      obtain ⟨p, hp, hx⟩ := hpast.cases_parent
      rw [h46, List.mem_singleton] at hp
      subst hp
      rcases hx with hx | hx
      · exact hx
      · obtain ⟨i, hi, -⟩ := (hchain (Nat.zero_le _)).mp hx
        omega
    · rintro rfl
      exact .parent (by simp [h46])
  refine ⟨hfirst, ?_, ?_⟩
  · intro hpast
    obtain ⟨p, hp, hx⟩ := hpast.cases_parent
    rw [h47, List.mem_pair] at hp
    rcases hp with rfl | rfl
    · rcases hx with hx | hx
      · exact Or.inl hx
      · exact Or.inr ⟨0, by omega, hfirst.mp hx⟩
    · rcases hx with hx | hx
      · exact Or.inr ⟨41, by omega, hx⟩
      · obtain ⟨i, hi, hx⟩ := (hchain (by omega)).mp hx
        exact Or.inr ⟨i, by omega, hx⟩
  · rintro (rfl | ⟨i, hi, rfl⟩)
    · exact .parent (by simp [h47])
    · refine .of_parent (p := blockHash 41 0) (by simp [h47]) ?_
      rcases Nat.lt_or_eq_of_le hi with hi | rfl
      · exact Or.inr ((f.past_spine spine_twist (by omega)).mpr ⟨i, hi, rfl⟩)
      · exact Or.inl rfl

/-- The selected parent of block 48 is the end of the chain. -/
theorem selectParent_twist :
    st.ghostdag.selectParent [blockHash 45 0, blockHash 47 0] = some (blockHash 45 0) := by
  have inv := f.numbered.whole.dagInv
  obtain ⟨-, h47, -⟩ := parentsOf_twist f
  have hscore : ∀ {i}, i ≤ 45 → st.ghostdag.scoreOf (blockHash i 0) = i :=
    fun hi => f.scoreOf_spine spine_twist hi
  have hknown : ∀ i ≤ 48, blockHash i 0 ∈ st.ghostdag :=
    fun i hi => (inv.known _).mpr (f.mem hi)
  -- block 47 has at most the 42 blocks of the chain and block 46 in its blue past
  have hlow : st.ghostdag.scoreOf (blockHash 47 0) < 45 := by
    have hlen := inv.length_materializedBlues (f.mem (i := 47) (by decide))
    have hsub : st.ghostdag.materializedBlues (blockHash 47 0) ⊆
        (List.range 42).map (blockHash · 0) ++ [blockHash 46 0, blockHash 47 0] := by
      intro x hx
      rcases inv.past_of_mem_materializedBlues hx with rfl | hpast
      · simp
      · rcases (past_twist f).2.mp hpast with rfl | ⟨i, hi, rfl⟩
        · simp
        · refine List.mem_append_left _ (List.mem_map.mpr ⟨i, ?_, rfl⟩)
          rw [List.mem_range]
          omega
    have := ((st.ghostdag.nodup_materializedBlues _).subperm hsub).length_le
    simp only [List.length_append, List.length_map, List.length_range, List.length_cons,
      List.length_nil] at this
    omega
  refine GhostdagMap.selectBest_eq_some.mpr ⟨by simp, hknown 45 (by omega), fun c hc _ => ?_⟩
  rw [GhostdagMap.rankLe_iff, hscore (le_refl 45)]
  rcases List.mem_pair.mp hc with rfl | rfl
  · rw [hscore (le_refl 45)]
    exact Or.inr ⟨rfl, le_refl _⟩
  · exact Or.inl hlow

/-- Block 48 merges blocks 46 and 47, in this order. -/
theorem topologicalOrder_twist : topologicalOrder st.dag.bfsIsAncestor
    (st.dag.mergeset [blockHash 45 0, blockHash 47 0] (blockHash 45 0)) =
      [blockHash 46 0, blockHash 47 0] := by
  have inv := f.numbered.whole.dagInv
  have hinj := fun {i j} => number_inj_twist f (i := i) (j := j)
  have hms : (st.dag.mergeset [blockHash 45 0, blockHash 47 0] (blockHash 45 0)).Perm
      [blockHash 46 0, blockHash 47 0] := by
    refine (List.perm_ext_iff_of_nodup Dag.nodup_mergeset ?_).mpr fun x => ?_
    · simp [hinj]
    · rw [Dag.mem_mergeset, f.past_spine spine_twist (le_refl 45)]
      constructor
      · rintro ⟨⟨p, hp, hx⟩, hout⟩
        rcases List.mem_pair.mp hp with rfl | rfl
        · rw [f.past_spine spine_twist (le_refl 45)] at hx
          exact absurd hx hout
        · rcases hx with rfl | hx
          · simp
          · rcases (past_twist f).2.mp hx with rfl | ⟨i, hi, rfl⟩
            · simp
            · exact absurd (Or.inr ⟨i, by omega, rfl⟩) hout
      · intro hx
        have hout : ∀ k, 46 ≤ k → k ≤ 47 →
            ¬ (blockHash k 0 = blockHash 45 0 ∨ ∃ i < 45, blockHash k 0 = blockHash i 0) := by
          rintro k hk hk' (h | ⟨i, hi, h⟩)
          · rw [hinj (by omega) (by omega)] at h
            omega
          · rw [hinj (by omega) (by omega)] at h
            omega
        rcases List.mem_pair.mp hx with rfl | rfl
        · exact ⟨⟨blockHash 47 0, by simp, Or.inr ((past_twist f).2.mpr (Or.inl rfl))⟩,
            hout 46 (by omega) (by omega)⟩
        · exact ⟨⟨blockHash 47 0, by simp, Or.inl rfl⟩, hout 47 (by omega) (by omega)⟩
  obtain hsame | hswap := List.perm_pair.mp ((topologicalOrder_perm _ _).trans hms)
  · exact hsame
  · have hsorted := topologicalOrder_pairwise (fun x => by rw [← Bool.not_eq_true, Dag.bfsIsAncestor_iff]; exact inv.past_irrefl x)
      (fun x y z hxy hyz => by rw [Dag.bfsIsAncestor_iff] at *; exact hxy.trans hyz)
      (st.dag.mergeset [blockHash 45 0, blockHash 47 0] (blockHash 45 0))
    rw [hswap, List.pairwise_pair, ← Bool.not_eq_true, Dag.bfsIsAncestor_iff] at hsorted
    exact absurd ((past_twist f).2.mpr (Or.inl rfl)) hsorted

theorem inAnticone_twist {i : Nat} (hi : i ≤ 45) :
    (inAnticone st.dag.bfsIsAncestor (blockHash i 0) (blockHash 46 0) = true ↔ 0 < i) ∧
    (inAnticone st.dag.bfsIsAncestor (blockHash i 0) (blockHash 47 0) = true ↔ 41 < i) := by
  have hinj := fun {i j} => number_inj_twist f (i := i) (j := j)
  have hchain : ∀ x, Past st.dag x (blockHash i 0) ↔ ∃ k < i, x = blockHash k 0 :=
    fun x => f.past_spine spine_twist hi
  have hchain' : ∀ k, 46 ≤ k → k ≤ 47 → ¬ Past st.dag (blockHash k 0) (blockHash i 0) := by
    intro k hk hk' hpast
    obtain ⟨j, hj, heq⟩ := (hchain _).mp hpast
    rw [hinj (by omega) (by omega)] at heq
    omega
  rw [inAnticone_iff, inAnticone_iff, (past_twist f).1, (past_twist f).2, Ne, Ne,
    hinj (by omega) (by omega), hinj (by omega) (by omega), hinj (by omega) (by omega)]
  constructor
  · have := hchain' 46 (by omega) (by omega)
    constructor
    · intro h
      omega
    · intro h
      exact ⟨by omega, by omega, this⟩
  · have := hchain' 47 (by omega) (by omega)
    constructor
    · rintro ⟨-, hout, -⟩
      by_contra hle
      exact hout (Or.inr ⟨i, by omega, rfl⟩)
    · intro h
      refine ⟨by omega, ?_, this⟩
      rintro (h' | ⟨j, hj, h'⟩)
      · omega
      · rw [hinj (by omega) (by omega)] at h'
        omega

/-- The first candidate is red, the second blue. -/
theorem colors_twist :
    colorCandidateBlue st.dag.bfsIsAncestor (st.ghostdag.materializedBlues (blockHash 45 0))
      (blockHash 46 0) = false ∧
    colorCandidateBlue st.dag.bfsIsAncestor (st.ghostdag.materializedBlues (blockHash 45 0))
      (blockHash 47 0) = true := by
  have hinj := fun {i j} => number_inj_twist f (i := i) (j := j)
  have hblues : ∀ {x}, x ∈ st.ghostdag.materializedBlues (blockHash 45 0) ↔
      ∃ i ≤ 45, x = blockHash i 0 := f.mem_blues_spine spine_twist (le_refl 45)
  have hnodup := st.ghostdag.nodup_materializedBlues (blockHash 45 0)
  constructor
  · have hsub : (List.range 45).map (fun i => blockHash (i + 1) 0) ⊆
        (st.ghostdag.materializedBlues (blockHash 45 0)).filter
          fun b => inAnticone st.dag.bfsIsAncestor b (blockHash 46 0) := by
      intro x hx
      obtain ⟨i, hi, rfl⟩ := List.mem_map.mp hx
      rw [List.mem_range] at hi
      exact List.mem_filter.mpr ⟨hblues.mpr ⟨i + 1, by omega, rfl⟩,
        (inAnticone_twist f (by omega)).1.mpr (by omega)⟩
    have hdistinct : ((List.range 45).map fun i => blockHash (i + 1) 0).Nodup := by
      refine (List.nodup_map_iff_inj_on List.nodup_range).mpr fun i hi j hj heq => ?_
      rw [List.mem_range] at hi hj
      have := (hinj (by omega) (by omega)).mp heq
      omega
    have hlen := (hdistinct.subperm hsub).length_le
    rw [List.length_map, List.length_range] at hlen
    have hK : ghostdagK = 40 := rfl
    simp only [colorCandidateBlue]
    rw [if_pos (by omega)]
  · have hsub : ((st.ghostdag.materializedBlues (blockHash 45 0)).filter
        fun b => inAnticone st.dag.bfsIsAncestor b (blockHash 47 0)) ⊆
          (List.range 4).map fun i => blockHash (i + 42) 0 := by
      intro x hx
      obtain ⟨hx, hanti⟩ := List.mem_filter.mp hx
      obtain ⟨i, hi, rfl⟩ := hblues.mp hx
      have := (inAnticone_twist f hi).2.mp hanti
      exact List.mem_map.mpr ⟨i - 42, by simp; omega, by congr 1; omega⟩
    have hlen := ((hnodup.filter _).subperm hsub).length_le
    rw [List.length_map, List.length_range] at hlen
    have hK : ghostdagK = 40 := rfl
    simp only [colorCandidateBlue]
    rw [if_neg (by omega), List.all_eq_true]
    intro d hd
    obtain ⟨i, hi, rfl⟩ := hblues.mp (List.mem_filter.mp hd).1
    -- the chain itself has no anticone
    have hnone : ((st.ghostdag.materializedBlues (blockHash 45 0)).filter
        fun b => inAnticone st.dag.bfsIsAncestor b (blockHash i 0)) = [] := by
      refine List.filter_eq_nil_iff.mpr fun x hx => ?_
      obtain ⟨j, hj, rfl⟩ := hblues.mp hx
      rw [inAnticone_iff, f.past_spine spine_twist hi, f.past_spine spine_twist hj]
      rintro ⟨hne, hij, hji⟩
      rcases Nat.lt_trichotomy i j with hlt | rfl | hlt
      · exact hji ⟨i, hlt, rfl⟩
      · exact hne rfl
      · exact hij ⟨j, hlt, rfl⟩
    rw [hnone]
    decide

/-- Block 48 lists block 47 as blue and its parent, block 46, as red. -/
theorem data_twist : ∃ d, st.ghostdag[blockHash 48 0]? = some d ∧
    d.mergesetBlues = [blockHash 45 0, blockHash 47 0] ∧ d.mergesetReds = [blockHash 46 0] := by
  have inv := f.numbered.whole.dagInv
  obtain ⟨b, hb⟩ := DagInv.exists_block (f.mem (i := 48) (by decide))
  have hparents : b.parents = [blockHash 45 0, blockHash 47 0] := by
    rw [← Dag.parentsOf_eq hb, (parentsOf_twist f).2.2]
  obtain ⟨d, hd, hok⟩ := inv.computed hb (by simp [hparents])
  refine ⟨d, hd, ?_⟩
  rw [hparents] at hok
  simp only [tryComputeGhostdagData, selectParent_twist f, topologicalOrder_twist f] at hok
  split at hok
  · cases hok
  · obtain rfl := Except.ok.inj hok
    simp only [List.foldl_cons, List.foldl_nil, Coloring.step, (colors_twist f).1,
      (colors_twist f).2, Bool.false_eq_true, if_false, if_true]
    exact ⟨rfl, rfl⟩

end Twist

/-- On an archival node a blue block is replayed before its red parent. -/
theorem blue_before_red_parent :
    ¬ ∀ (easy : Bool) (seed : Ledger) (calls : List (Env × Block)),
      ∀ T ∈ ((ChainState.seeded easy true seed).run calls).tips,
        ParentsFirst ((ChainState.seeded easy true seed).run calls).dag
          (((ChainState.seeded easy true seed).run calls).canonicalOrderAt T) := by
  intro hall
  obtain ⟨calls, hcalls⟩ := built_run true twist
  have f : Followed true twist ((ChainState.seeded false true {}).run calls) :=
    hcalls ▸ followed_twist true
  have w := f.numbered.whole
  obtain ⟨d, hd, hblues, hreds⟩ := data_twist f
  have htip : blockHash 48 0 ∈ ((ChainState.seeded false true {}).run calls).tips := by
    exact f.tip planned_twist (by decide) (by decide +kernel)
  have hfirst := hall false {} calls _ htip
  rw [parentsFirst_iff (ChainState.nodup_canonicalOrderAt _ _) w.dagInv.notMem_parentsOf_self,
    ChainState.pairwise_canonicalOrderAt w.dagInv (f.mem (by decide))] at hfirst
  refine hfirst (blockHash 48 0) ?_ (blockHash 47 0) ?_ (blockHash 46 0) ?_ ?_
  · exact (GhostdagMap.mem_selectedChain w.dagInv.descends).mpr (.refl _)
  · simp [GhostdagMap.bluesOf, hd, hblues]
  · simp [GhostdagMap.redsOf, hd, hreds]
  · simp [(parentsOf_twist f).2.1]

/-- The iff on that run, at block 48. -/
theorem parents_first_iff_twist : ∃ calls : List (Env × Block),
    let st := (ChainState.seeded false true {}).run calls
    blockHash 48 0 ∈ st.dag ∧ (ParentsFirst st.dag (st.canonicalOrderAt (blockHash 48 0)) ↔
      ∀ C ∈ st.ghostdag.selectedChain (blockHash 48 0), ∀ Y ∈ (st.ghostdag.bluesOf C).drop 1,
        ∀ X ∈ st.ghostdag.redsOf C, X ∉ st.dag.parentsOf Y) := by
  obtain ⟨calls, hcalls⟩ := built_run true twist
  have f : Followed true twist ((ChainState.seeded false true {}).run calls) :=
    hcalls ▸ followed_twist true
  have hmem := f.mem (i := 48) (by decide)
  exact ⟨calls, hmem, ChainState.archival_order_parents_first_iff false {} calls _ hmem⟩

/-- The blue sets of that run, at block 48. -/
theorem blues_kCluster_twist : ∃ calls : List (Env × Block),
    let st := (ChainState.seeded false true {}).run calls
    blockHash 48 0 ∈ st.dag ∧ blockHash 48 0 ∈ st.ghostdag.materializedBlues (blockHash 48 0) ∧
      Set.encard {y | y ∈ st.ghostdag.materializedBlues (blockHash 48 0) ∧ y ≠ blockHash 48 0 ∧
        ¬ Past st.dag y (blockHash 48 0) ∧ ¬ Past st.dag (blockHash 48 0) y} ≤ ghostdagK := by
  obtain ⟨calls, hcalls⟩ := built_run true twist
  have f : Followed true twist ((ChainState.seeded false true {}).run calls) :=
    hcalls ▸ followed_twist true
  have hmem := f.mem (i := 48) (by decide)
  have hself : blockHash 48 0 ∈ ((ChainState.seeded false true {}).run calls
      ).ghostdag.materializedBlues (blockHash 48 0) :=
    (GhostdagMap.mem_materializedBlues f.numbered.whole.dagInv.descends).mpr (Or.inl rfl)
  exact ⟨calls, hmem, hself,
    ChainState.archival_blues_kCluster false {} calls _ hmem _ hself⟩

/-- The mergesets of that run, at block 48. -/
theorem mergesets_partition_twist : ∃ (calls : List (Env × Block)) (b : Block),
    let st := (ChainState.seeded false true {}).run calls
    st.dag[blockHash 48 0]? = some b ∧ ∃ d, st.ghostdag[blockHash 48 0]? = some d ∧
      d.blueScore = ((st.ghostdag.materializedBlues (blockHash 48 0)).toFinset.erase
        (blockHash 48 0)).card := by
  obtain ⟨calls, hcalls⟩ := built_run true twist
  have f : Followed true twist ((ChainState.seeded false true {}).run calls) :=
    hcalls ▸ followed_twist true
  obtain ⟨b, hb⟩ := DagInv.exists_block (f.mem (i := 48) (by decide))
  obtain ⟨d, hd, -, -, hscore, -⟩ :=
    ChainState.archival_mergesets_partition_past false {} calls _ b hb
  exact ⟨calls, b, hb, d, hd, hscore⟩

end Sample

end HassanNode
