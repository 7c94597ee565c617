import Mathlib
import HassanNode.Consensus.Past

/-!
# HassanNode.Consensus.Coloring

What `try_compute_ghostdag_data` returns (`tryCompute_ok`): the best parent, and
the mergeset split into blues and reds, whatever oracle colors it. And its data
is *local* (`tryCompute_congr`): it only depends on the part of the DAG and of
the GHOSTDAG map that the parents reach.
-/

namespace HassanNode

open Std (ExtTreeMap ExtTreeSet)

theorem topologicalOrder_perm (anc : Hash → Hash → Bool) (ms : List Hash) :
    (topologicalOrder anc ms).Perm ms := by
  unfold topologicalOrder
  refine ((List.perm_insertionSort _ _).map _).trans ?_
  rw [List.map_map]
  exact .of_eq (by simp [Function.comp_def])

/-- The order asks the oracle about blocks of the set only. -/
theorem topologicalOrder_congr {anc anc' : Hash → Hash → Bool} {ms : List Hash}
    (h : ∀ x ∈ ms, ∀ y ∈ ms, anc' x y = anc x y) : topologicalOrder anc' ms = topologicalOrder anc ms := by
  have hrank : ∀ y ∈ ms, (ms.filter fun other => other != y && anc' other y)
      = ms.filter fun other => other != y && anc other y := by
    intro y hy
    refine List.filter_congr fun x hx => ?_
    rw [h x hx y hy]
  unfold topologicalOrder
  congr 2
  exact List.map_congr_left fun y hy => by rw [hrank y hy]

/-- The coloring loop sorts its candidates into blues and reds. -/
theorem Coloring.foldl_step (anc : Hash → Hash → Bool) (c : Coloring) (candidates : List Hash) :
    ∃ blues reds, (candidates.foldl (step anc) c).mergesetBlues = c.mergesetBlues ++ blues
      ∧ (candidates.foldl (step anc) c).mergesetReds = c.mergesetReds ++ reds
      ∧ (blues ++ reds).Perm candidates := by
  induction candidates generalizing c with
  | nil => exact ⟨[], [], by simp, by simp, .nil⟩
  | cons x candidates ih =>
      rw [List.foldl_cons]
      obtain ⟨blues, reds, hblues, hreds, hperm⟩ := ih (c.step anc x)
      by_cases hx : colorCandidateBlue anc c.currentBlues x = true
      · refine ⟨x :: blues, reds, ?_, ?_, hperm.cons x⟩
        · rw [hblues]
          simp [step, hx]
        · rw [hreds]
          simp [step, hx]
      · refine ⟨blues, x :: reds, ?_, ?_, List.perm_middle.trans (hperm.cons x)⟩
        · rw [hblues]
          simp [step, hx]
        · rw [hreds]
          simp [step, hx]

/-- What a successful computation returns. -/
structure Computed (dag : Dag) (gd : GhostdagMap) (parents : List Hash) (cap : Nat) (sp : Hash)
    (d : GhostdagData) : Prop where
  best : gd.IsBest parents sp
  selectedParent : d.selectedParent = some sp
  blues : ∃ blues, d.mergesetBlues = sp :: blues
  merged : d.merged.Perm (dag.mergeset parents sp)
  score : d.blueScore = gd.scoreOf sp + d.mergesetBlues.length
  capped : (dag.mergeset parents sp).length ≤ cap

theorem tryCompute_ok {dag : Dag} {gd : GhostdagMap} {anc : Hash → Hash → Bool}
    {parents : List Hash} {cap : Nat} {sp : Hash} {d : GhostdagData}
    (h : tryComputeGhostdagData dag gd anc parents cap = .ok d)
    (hsp : gd.selectParent parents = some sp) : Computed dag gd parents cap sp d := by
  simp only [tryComputeGhostdagData, hsp] at h
  split at h
  · cases h
  · rename_i hcap
    obtain rfl := Except.ok.inj h
    obtain ⟨blues, reds, hblues, hreds, hperm⟩ := Coloring.foldl_step anc
      { currentBlues := gd.materializedBlues sp, mergesetBlues := [sp], mergesetReds := [] }
      (topologicalOrder anc (dag.mergeset parents sp))
    refine ⟨GhostdagMap.selectBest_eq_some.mp hsp, rfl, ⟨blues, hblues⟩, ?_, rfl, by omega⟩
    simp only [GhostdagData.merged, hblues, hreds]
    simpa using hperm.trans (topologicalOrder_perm anc _)

/-! ### Locality -/

section Local

variable {dag dag' : Dag} {gd gd' : GhostdagMap} {anc anc' : Hash → Hash → Bool} {A : Hash → Prop}

/-- Two views of a DAG that agree on a closed set of blocks. -/
structure Agree (dag dag' : Dag) (gd gd' : GhostdagMap) (anc anc' : Hash → Hash → Bool)
    (A : Hash → Prop) : Prop where
  parents : ∀ h, A h → dag'.parentsOf h = dag.parentsOf h
  closed : ∀ h, A h → ∀ p ∈ dag.parentsOf h, A p
  data : ∀ h, A h → gd'[h]? = gd[h]?
  links : ∀ h, A h → ∀ d, gd[h]? = some d →
    (∀ p, d.selectedParent = some p → A p) ∧ ∀ b ∈ d.mergesetBlues, A b
  oracle : ∀ x y, A x → A y → anc' x y = anc x y

namespace Agree

theorem scoreOf (g : Agree dag dag' gd gd' anc anc' A) {h : Hash} (hh : A h) :
    gd'.scoreOf h = gd.scoreOf h := by
  rw [GhostdagMap.scoreOf, GhostdagMap.scoreOf, g.data h hh]

theorem mem_iff (g : Agree dag dag' gd gd' anc anc' A) {h : Hash} (hh : A h) :
    h ∈ gd' ↔ h ∈ gd := by
  rw [ExtTreeMap.mem_iff_isSome_getElem?, ExtTreeMap.mem_iff_isSome_getElem?, g.data h hh]

theorem selectBest (g : Agree dag dag' gd gd' anc anc' A) {candidates : List Hash}
    (hA : ∀ c ∈ candidates, A c) : gd'.selectBest candidates = gd.selectBest candidates := by
  refine Option.ext fun b => ?_
  rw [GhostdagMap.selectBest_eq_some, GhostdagMap.selectBest_eq_some]
  have hrank : ∀ x y, A x → A y → gd'.rankLe x y = gd.rankLe x y := by
    intro x y hx hy
    rw [GhostdagMap.rankLe, GhostdagMap.rankLe, g.scoreOf hx, g.scoreOf hy]
  constructor
  · intro hb
    have hbA := hA b hb.mem
    exact ⟨hb.mem, (g.mem_iff hbA).mp hb.known, fun c hc hk => by
      rw [← hrank c b (hA c hc) hbA]
      exact hb.best c hc ((g.mem_iff (hA c hc)).mpr hk)⟩
  · intro hb
    have hbA := hA b hb.mem
    exact ⟨hb.mem, (g.mem_iff hbA).mpr hb.known, fun c hc hk => by
      rw [hrank c b (hA c hc) hbA]
      exact hb.best c hc ((g.mem_iff (hA c hc)).mp hk)⟩

theorem past (g : Agree dag dag' gd gd' anc anc' A) {a b : Hash} (hb : A b) :
    Past dag' a b ↔ Past dag a b := Past.congr g.parents g.closed hb

theorem mergeset (g : Agree dag dag' gd gd' anc anc' A) {parents : List Hash} {sp : Hash}
    (hA : ∀ p ∈ parents, A p) (hsp : A sp) : dag'.mergeset parents sp = dag.mergeset parents sp := by
  have hmem : ∀ y, y ∈ dag'.mergeset parents sp ↔ y ∈ dag.mergeset parents sp := by
    intro y
    rw [Dag.mem_mergeset, Dag.mem_mergeset, g.past hsp]
    refine and_congr_left fun _ => exists_congr fun p => and_congr_right fun hp => ?_
    rw [g.past (hA p hp)]
  unfold Dag.mergeset at hmem ⊢
  congr 1
  refine ExtTreeSet.ext_mem fun y => ?_
  rw [← ExtTreeSet.mem_toList, ← ExtTreeSet.mem_toList]
  exact hmem y

/-- Walks inside the set are the same, and stay in it. -/
theorem selectedWalk (g : Agree dag dag' gd gd' anc anc' A) (fuel : Nat) {h : Hash} (hh : A h) :
    gd'.selectedWalk fuel h = gd.selectedWalk fuel h ∧ ∀ x ∈ gd.selectedWalk fuel h, A x := by
  induction fuel generalizing h with
  | zero => simp [GhostdagMap.selectedWalk]
  | succ fuel ih =>
      simp only [GhostdagMap.selectedWalk, g.data h hh]
      cases hp : gd[h]?.bind GhostdagData.selectedParent with
      | none => simpa using hh
      | some p =>
          obtain ⟨d, hd, hdp⟩ := Option.bind_eq_some_iff.mp hp
          obtain ⟨hwalk, hmem⟩ := ih ((g.links h hh d hd).1 p hdp)
          refine ⟨by simp only [hwalk], fun x hx => ?_⟩
          rcases List.mem_cons.mp hx with rfl | hx
          · exact hh
          · exact hmem x hx

theorem materializedBlues (g : Agree dag dag' gd gd' anc anc' A) {sp : Hash} (hsp : A sp) :
    gd'.materializedBlues sp = gd.materializedBlues sp ∧ ∀ x ∈ gd.materializedBlues sp, A x := by
  obtain ⟨hwalk, hmem⟩ := g.selectedWalk (gd.scoreOf sp + 1) hsp
  constructor
  · rw [GhostdagMap.materializedBlues, GhostdagMap.materializedBlues, g.scoreOf hsp, hwalk]
    refine List.foldl_ext _ _ _ fun blues h hh => ?_
    rw [g.data h (hmem h hh)]
  · -- inserting blues of blocks in the set stays in the set
    rw [GhostdagMap.materializedBlues]
    generalize gd.selectedWalk (gd.scoreOf sp + 1) sp = walk at hmem
    have hinner : ∀ (bs blues : List Hash), (∀ b ∈ bs, A b) → (∀ b ∈ blues, A b) →
        ∀ x ∈ bs.foldl (fun blues b => blues.insert b) blues, A x := by
      intro bs
      induction bs with
      | nil => exact fun _ _ hblues => hblues
      | cons b bs ih =>
          intro blues hbs hblues
          rw [List.foldl_cons]
          refine ih _ (fun x hx => hbs x (List.mem_cons_of_mem b hx)) fun x hx => ?_
          rcases List.mem_insert_iff.mp hx with rfl | hx
          · exact hbs x (by simp)
          · exact hblues x hx
    have houter : ∀ (blues : List Hash), (∀ b ∈ blues, A b) →
        ∀ x ∈ walk.foldl (fun blues h => ((gd[h]?.map GhostdagData.mergesetBlues).getD []).foldl
          (fun blues b => blues.insert b) blues) blues, A x := by
      induction walk with
      | nil => exact fun _ hblues => hblues
      | cons h walk ih =>
          intro blues hblues
          rw [List.foldl_cons]
          refine ih (fun x hx => hmem x (List.mem_cons_of_mem h hx)) _ (hinner _ _ ?_ hblues)
          intro b hb
          cases hd : gd[h]? with
          | none => simp [hd] at hb
          | some d =>
              rw [hd, Option.map_some, Option.getD_some] at hb
              exact (g.links h (hmem h (by simp)) d hd).2 b hb
    exact houter [sp] (by simpa using hsp)

theorem inAnticone (g : Agree dag dag' gd gd' anc anc' A) {x y : Hash} (hx : A x) (hy : A y) :
    inAnticone anc' x y = inAnticone anc x y := by
  rw [HassanNode.inAnticone, HassanNode.inAnticone, g.oracle x y hx hy, g.oracle y x hy hx]

theorem colorCandidateBlue (g : Agree dag dag' gd gd' anc anc' A) {blues : List Hash}
    {candidate : Hash} (hblues : ∀ b ∈ blues, A b) (hc : A candidate) :
    colorCandidateBlue anc' blues candidate = colorCandidateBlue anc blues candidate := by
  have hfilter : ∀ {d}, A d → blues.filter (fun b => HassanNode.inAnticone anc' b d)
      = blues.filter fun b => HassanNode.inAnticone anc b d := fun hd =>
    List.filter_congr fun b hb => g.inAnticone (hblues b hb) hd
  simp only [HassanNode.colorCandidateBlue, hfilter hc]
  split
  · rfl
  · rw [Bool.eq_iff_iff, List.all_eq_true, List.all_eq_true]
    refine forall_congr' fun d => imp_congr_right fun hd => ?_
    rw [hfilter (hblues d (List.mem_of_mem_filter hd))]

theorem coloring (g : Agree dag dag' gd gd' anc anc' A) {c : Coloring} {candidates : List Hash}
    (hblues : ∀ b ∈ c.currentBlues, A b) (hcands : ∀ x ∈ candidates, A x) :
    candidates.foldl (Coloring.step anc') c = candidates.foldl (Coloring.step anc) c := by
  induction candidates generalizing c with
  | nil => rfl
  | cons x candidates ih =>
      have hx := hcands x (by simp)
      have hstep : c.step anc' x = c.step anc x := by
        rw [Coloring.step, Coloring.step, g.colorCandidateBlue hblues hx]
      rw [List.foldl_cons, List.foldl_cons, hstep]
      refine ih (fun b hb => ?_) fun y hy => hcands y (List.mem_cons_of_mem x hy)
      simp only [Coloring.step] at hb
      split at hb
      · rcases List.mem_insert_iff.mp hb with rfl | hb
        · exact hx
        · exact hblues b hb
      · exact hblues b hb

theorem topologicalOrder (g : Agree dag dag' gd gd' anc anc' A) {ms : List Hash}
    (hms : ∀ x ∈ ms, A x) : topologicalOrder anc' ms = topologicalOrder anc ms :=
  topologicalOrder_congr fun x hx y hy => g.oracle x y (hms x hx) (hms y hy)

end Agree

/-- **GHOSTDAG data is local.** -/
theorem tryCompute_congr (g : Agree dag dag' gd gd' anc anc' A) {parents : List Hash} {cap : Nat}
    (hA : ∀ p ∈ parents, A p) :
    tryComputeGhostdagData dag' gd' anc' parents cap = tryComputeGhostdagData dag gd anc parents cap := by
  unfold tryComputeGhostdagData
  rw [GhostdagMap.selectParent, GhostdagMap.selectParent, g.selectBest hA]
  cases hsp : gd.selectBest parents with
  | none => rfl
  | some sp =>
      have hspA : A sp := hA sp (GhostdagMap.selectBest_eq_some.mp hsp).mem
      have hms : ∀ x ∈ dag.mergeset parents sp, A x := by
        intro x hx
        obtain ⟨⟨p, hp, rfl | hpast⟩, -⟩ := Dag.mem_mergeset.mp hx
        · exact hA x hp
        · exact hpast.mem_of_closed g.closed (hA p hp)
      obtain ⟨hblues, hbluesA⟩ := g.materializedBlues hspA
      simp only [g.mergeset hA hspA, hblues, g.topologicalOrder hms, g.scoreOf hspA]
      split
      · rfl
      · rw [g.coloring hbluesA fun x hx => hms x ((topologicalOrder_perm anc _).mem_iff.mp hx)]

end Local

end HassanNode
