import Mathlib
import HassanNode.Consensus.Coloring
import HassanNode.Ledger.Block

/-!
# HassanNode.Consensus.DagInv

The invariant of a DAG that has lost no history, together with its GHOSTDAG
map: every block's data is what `try_compute_ghostdag_data` computes *now*, with
exact ancestor queries. Locality is what makes this an invariant: new blocks do
not change the past of old ones. Everything else about selected parents, scores
and mergesets is read off it.
-/

namespace HassanNode

open Std (ExtTreeMap ExtTreeSet)
open Params

/-- The mergeset of a block without its selected parent, in canonical order. -/
def GhostdagMap.mergedOf (gd : GhostdagMap) (h : Hash) : List Hash :=
  (gd[h]?.map GhostdagData.merged).getD []

section Inv

variable [Crypto]

/-- A DAG with all its history and the GHOSTDAG data of its blocks. -/
structure DagInv (dag : Dag) (gd : GhostdagMap) : Prop where
  keyed : ∀ {h : Hash} {b : Block}, dag[h]? = some b → b.hash = h
  known : ∀ h, h ∈ gd ↔ h ∈ dag
  closed : ∀ {h : Hash} {b : Block}, dag[h]? = some b → ∀ p ∈ b.parents, p ∈ dag
  root : ∀ {h : Hash} {b : Block}, dag[h]? = some b → b.parents = [] → gd[h]? = some .genesis
  computed : ∀ {h : Hash} {b : Block}, dag[h]? = some b → b.parents ≠ [] → ∃ d, gd[h]? = some d ∧
    tryComputeGhostdagData dag gd dag.bfsIsAncestor b.parents maxMergesetSize = .ok d

namespace DagInv

variable {dag : Dag} {gd : GhostdagMap} {h : Hash} {b : Block}

omit [Crypto] in
theorem exists_block (hh : h ∈ dag) : ∃ b, dag[h]? = some b := by
  rw [ExtTreeMap.mem_iff_isSome_getElem?] at hh
  exact Option.isSome_iff_exists.mp hh

omit [Crypto] in
theorem mem_of_getElem? (hb : dag[h]? = some b) : h ∈ dag := by
  simp [ExtTreeMap.mem_iff_isSome_getElem?, hb]

theorem closed_parentsOf (inv : DagInv dag gd) {h : Hash} (_ : h ∈ dag) :
    ∀ p ∈ dag.parentsOf h, p ∈ dag := by
  intro p hp
  cases hb : dag[h]? with
  | none => simp [Dag.parentsOf, hb] at hp
  | some b => exact inv.closed hb p (Dag.parentsOf_eq hb ▸ hp)

/-- A block with parents has a selected parent, and its data is as computed. -/
theorem exists_computed (inv : DagInv dag gd) (hb : dag[h]? = some b) (hne : b.parents ≠ []) :
    ∃ d sp, gd[h]? = some d ∧ Computed dag gd b.parents maxMergesetSize sp d := by
  obtain ⟨d, hd, hok⟩ := inv.computed hb hne
  obtain ⟨p, hp⟩ := List.exists_mem_of_ne_nil _ hne
  obtain ⟨sp, hsp⟩ := GhostdagMap.selectBest_isSome hp ((inv.known p).mpr (inv.closed hb p hp))
  exact ⟨d, sp, hd, tryCompute_ok hok hsp⟩

omit [Crypto] in
theorem scoreOf_eq {d : GhostdagData} (hd : gd[h]? = some d) : gd.scoreOf h = d.blueScore := by
  simp [GhostdagMap.scoreOf, hd]

/-- **Blue scores grow along every edge.** -/
theorem score_lt (inv : DagInv dag gd) (hb : dag[h]? = some b) {p : Hash} (hp : p ∈ b.parents) :
    gd.scoreOf p < gd.scoreOf h := by
  obtain ⟨d, sp, hd, hc⟩ := inv.exists_computed hb (List.ne_nil_of_mem hp)
  have hle := GhostdagMap.score_le_of_rankLe
    (hc.best.best p hp ((inv.known p).mpr (inv.closed hb p hp)))
  obtain ⟨blues, hblues⟩ := hc.blues
  rw [scoreOf_eq hd, hc.score, hblues, List.length_cons]
  omega

theorem score_lt_past (inv : DagInv dag gd) {a k : Hash} (h : Past dag a k) (hk : k ∈ dag) :
    gd.scoreOf a < gd.scoreOf k := by
  induction h with
  | single h =>
      obtain ⟨b, hb⟩ := exists_block hk
      exact inv.score_lt hb (Dag.parentsOf_eq hb ▸ h)
  | tail _ hck ih =>
      obtain ⟨b, hb⟩ := exists_block hk
      have hlt := inv.score_lt hb (Dag.parentsOf_eq hb ▸ hck)
      exact (ih (inv.closed_parentsOf hk _ hck)).trans hlt

theorem past_mem (inv : DagInv dag gd) {a k : Hash} (h : Past dag a k) (hk : k ∈ dag) : a ∈ dag :=
  h.mem_of_closed (fun _ hh p hp => inv.closed_parentsOf hh p hp) hk

theorem past_irrefl (inv : DagInv dag gd) (a : Hash) : ¬ Past dag a a := by
  intro h
  by_cases ha : a ∈ dag
  · exact lt_irrefl _ (inv.score_lt_past h ha)
  · obtain ⟨p, hp, -⟩ := h.cases_parent
    simp [Dag.parentsOf_eq_nil ha] at hp

theorem dagClosed (inv : DagInv dag gd) : dag.Closed := by
  refine ⟨fun h p hp => ?_, inv.past_irrefl⟩
  by_cases hh : h ∈ dag
  · exact inv.closed_parentsOf hh p hp
  · simp [Dag.parentsOf_eq_nil hh] at hp

/-- What the map says about a block that has a selected parent. -/
theorem of_spOf (inv : DagInv dag gd) {sp : Hash} (hsp : gd.spOf h = some sp) :
    ∃ b d, dag[h]? = some b ∧ gd[h]? = some d ∧ Computed dag gd b.parents maxMergesetSize sp d := by
  obtain ⟨d, hd, hdsp⟩ := Option.bind_eq_some_iff.mp hsp
  have hh : h ∈ dag := (inv.known h).mp (by simp [ExtTreeMap.mem_iff_isSome_getElem?, hd])
  obtain ⟨b, hb⟩ := exists_block hh
  by_cases hne : b.parents = []
  · have := inv.root hb hne
    rw [hd] at this
    obtain rfl := Option.some.inj this
    cases hdsp
  · obtain ⟨d', sp', hd', hc⟩ := inv.exists_computed hb hne
    obtain rfl := Option.some.inj (hd.symm.trans hd')
    obtain rfl := Option.some.inj (hdsp.symm.trans hc.selectedParent)
    exact ⟨b, d, hb, hd, hc⟩

theorem spOf_parent (inv : DagInv dag gd) {sp : Hash} (hsp : gd.spOf h = some sp) :
    sp ∈ dag.parentsOf h := by
  obtain ⟨b, d, hb, -, hc⟩ := inv.of_spOf hsp
  rw [Dag.parentsOf_eq hb]
  exact hc.best.mem

theorem spOf_mem (inv : DagInv dag gd) {sp : Hash} (hsp : gd.spOf h = some sp) :
    h ∈ dag ∧ sp ∈ dag := by
  obtain ⟨b, d, hb, -, hc⟩ := inv.of_spOf hsp
  exact ⟨mem_of_getElem? hb, inv.closed hb sp hc.best.mem⟩

theorem descends (inv : DagInv dag gd) : gd.Descends := by
  intro h d p hd hp
  have hsp : gd.spOf h = some p := by simp [GhostdagMap.spOf, hd, hp]
  obtain ⟨b, d', hb, -, hc⟩ := inv.of_spOf hsp
  exact inv.score_lt hb hc.best.mem

/-- A block without a selected parent has no parents at all. -/
theorem parentsOf_of_root (inv : DagInv dag gd) (hh : h ∈ dag) (hsp : gd.spOf h = none) :
    dag.parentsOf h = [] := by
  obtain ⟨b, hb⟩ := exists_block hh
  rw [Dag.parentsOf_eq hb]
  by_contra hne
  obtain ⟨d, sp, hd, hc⟩ := inv.exists_computed hb hne
  simp [GhostdagMap.spOf, hd, hc.selectedParent] at hsp

theorem above_mem (inv : DagInv dag gd) {a k : Hash} (h : Above gd.spOf a k) (hk : k ∈ dag) :
    a ∈ dag := by
  induction h with
  | refl => exact hk
  | step hp _ ih => exact ih (inv.spOf_mem hp).2

/-- Above on the selected chain is in the past. -/
theorem past_of_above (inv : DagInv dag gd) {a k : Hash} (h : Above gd.spOf a k) :
    a = k ∨ Past dag a k := by
  induction h with
  | refl => exact Or.inl rfl
  | step hp _ ih => exact Or.inr (.of_parent (inv.spOf_parent hp) ih)

/-- **The mergeset**: the past of the block that its selected parent does not
have. -/
theorem mem_mergedOf (inv : DagInv dag gd) {sp x : Hash} (hsp : gd.spOf h = some sp) :
    x ∈ gd.mergedOf h ↔ Past dag x h ∧ ¬ (x = sp ∨ Past dag x sp) := by
  obtain ⟨b, d, hb, hd, hc⟩ := inv.of_spOf hsp
  rw [GhostdagMap.mergedOf, hd, Option.map_some, Option.getD_some, hc.merged.mem_iff,
    Dag.mem_mergeset, ← Dag.parentsOf_eq hb]
  refine and_congr_left fun _ => ⟨?_, Past.cases_parent⟩
  rintro ⟨p, hp, hxp⟩
  exact .of_parent hp hxp

theorem nodup_mergedOf (inv : DagInv dag gd) {sp : Hash} (hsp : gd.spOf h = some sp) :
    (gd.mergedOf h).Nodup := by
  obtain ⟨b, d, hb, hd, hc⟩ := inv.of_spOf hsp
  rw [GhostdagMap.mergedOf, hd, Option.map_some, Option.getD_some, hc.merged.nodup_iff]
  exact Dag.nodup_mergeset

theorem mergedOf_root (inv : DagInv dag gd) (hh : h ∈ dag) (hsp : gd.spOf h = none) :
    gd.mergedOf h = [] := by
  obtain ⟨b, hb⟩ := exists_block hh
  have hroot := inv.root hb (by rw [← Dag.parentsOf_eq hb]; exact inv.parentsOf_of_root hh hsp)
  simp [GhostdagMap.mergedOf, hroot, GhostdagData.genesis, GhostdagData.merged]

theorem spOf_eq_none (inv : DagInv dag gd) (hparents : dag.parentsOf h = []) : gd.spOf h = none := by
  cases hsp : gd.spOf h with
  | none => rfl
  | some sp => simpa [hparents] using inv.spOf_parent hsp

/-- An only parent is selected, and nothing is merged. -/
theorem only_parent (inv : DagInv dag gd) {p : Hash} (hparents : dag.parentsOf h = [p]) :
    gd.spOf h = some p ∧ gd.mergedOf h = [] := by
  have hh : h ∈ dag := by
    by_contra hout
    simp [Dag.parentsOf_eq_nil hout] at hparents
  have hsp : gd.spOf h = some p := by
    cases hsp : gd.spOf h with
    | none =>
        rw [inv.parentsOf_of_root hh hsp] at hparents
        cases hparents
    | some sp =>
        have hparent := inv.spOf_parent hsp
        rw [hparents, List.mem_singleton] at hparent
        rw [hparent]
  refine ⟨hsp, List.eq_nil_iff_forall_not_mem.mpr fun x hx => ?_⟩
  obtain ⟨hpast, hout⟩ := (inv.mem_mergedOf hsp).mp hx
  obtain ⟨q, hq, hxq⟩ := hpast.cases_parent
  rw [hparents, List.mem_singleton] at hq
  exact hout (hq ▸ hxq)

/-! ### Growth -/

/-- Selected parents and blues are in the past. -/
theorem links (inv : DagInv dag gd) {d : GhostdagData} (hd : gd[h]? = some d) :
    (∀ p, d.selectedParent = some p → Past dag p h) ∧ ∀ x ∈ d.mergesetBlues, Past dag x h := by
  have hh : h ∈ dag := (inv.known h).mp (by simp [ExtTreeMap.mem_iff_isSome_getElem?, hd])
  cases hsp : d.selectedParent with
  | none =>
      obtain ⟨b, hb⟩ := exists_block hh
      have hspOf : gd.spOf h = none := by simp [GhostdagMap.spOf, hd, hsp]
      have hroot := inv.root hb (by rw [← Dag.parentsOf_eq hb]; exact inv.parentsOf_of_root hh hspOf)
      rw [hd] at hroot
      obtain rfl := Option.some.inj hroot
      simp [GhostdagData.genesis]
  | some sp =>
      have hspOf : gd.spOf h = some sp := by simp [GhostdagMap.spOf, hd, hsp]
      have hparent := Past.parent (inv.spOf_parent hspOf)
      obtain ⟨b, d', -, hd', hc⟩ := inv.of_spOf hspOf
      obtain rfl := Option.some.inj (hd.symm.trans hd')
      refine ⟨fun p hp => Option.some.inj hp ▸ hparent, fun x hx => ?_⟩
      obtain ⟨blues, hblues⟩ := hc.blues
      rw [hblues] at hx
      rcases List.mem_cons.mp hx with rfl | hx
      · exact hparent
      · have hmerged : x ∈ gd.mergedOf h := by
          rw [GhostdagMap.mergedOf, hd, Option.map_some, Option.getD_some, GhostdagData.merged, hblues]
          exact List.mem_append_left _ hx
        exact ((inv.mem_mergedOf hspOf).mp hmerged).1

/-- A larger DAG agrees with this one on its own blocks. -/
theorem agree (inv : DagInv dag gd) {dag' : Dag} {gd' : GhostdagMap} {anc' : Hash → Hash → Bool}
    (hdag : ∀ k ∈ dag, dag'.parentsOf k = dag.parentsOf k) (hgd : ∀ k ∈ dag, gd'[k]? = gd[k]?)
    (hanc : ∀ x y, x ∈ dag → y ∈ dag → anc' x y = dag.bfsIsAncestor x y) :
    Agree dag dag' gd gd' dag.bfsIsAncestor anc' (· ∈ dag) where
  parents := hdag
  closed _ hh p hp := inv.closed_parentsOf hh p hp
  data := hgd
  links _ hh _ hd := ⟨fun p hp => inv.past_mem ((inv.links hd).1 p hp) hh,
    fun x hx => inv.past_mem ((inv.links hd).2 x hx) hh⟩
  oracle := hanc

theorem bfsIsAncestor_congr (inv : DagInv dag gd) {dag' : Dag}
    (hdag : ∀ k ∈ dag, dag'.parentsOf k = dag.parentsOf k) (x y : Hash) (hy : y ∈ dag) :
    dag'.bfsIsAncestor x y = dag.bfsIsAncestor x y := by
  rw [Bool.eq_iff_iff, Dag.bfsIsAncestor_iff, Dag.bfsIsAncestor_iff]
  exact Past.congr hdag (fun _ hh p hp => inv.closed_parentsOf hh p hp) hy

/-- **A new block keeps the invariant.** -/
theorem insert (inv : DagInv dag gd) {d : GhostdagData} (hnew : b.hash ∉ dag)
    (hne : b.parents ≠ []) (hparents : ∀ p ∈ b.parents, p ∈ dag)
    (hok : tryComputeGhostdagData dag gd dag.bfsIsAncestor b.parents maxMergesetSize = .ok d) :
    DagInv (dag.insert b.hash b) (gd.insert b.hash d) := by
  have hget : ∀ {k c}, (dag.insert b.hash b)[k]? = some c →
      (k = b.hash ∧ c = b) ∨ (k ≠ b.hash ∧ dag[k]? = some c) := by
    intro k c hk
    rw [ExtTreeMap.getElem?_insert] at hk
    split at hk
    · rename_i heq
      rw [Std.LawfulEqCmp.compare_eq_iff_eq] at heq
      exact Or.inl ⟨heq.symm, (Option.some.inj hk).symm⟩
    · rename_i hneq
      rw [Std.LawfulEqCmp.compare_eq_iff_eq] at hneq
      exact Or.inr ⟨Ne.symm hneq, hk⟩
  have hold : ∀ k ∈ dag, b.hash ≠ k := fun k hk heq => hnew (heq ▸ hk)
  have hdag : ∀ k ∈ dag, Dag.parentsOf (dag.insert b.hash b) k = dag.parentsOf k := by
    intro k hk
    simp [Dag.parentsOf, ExtTreeMap.getElem?_insert, hold k hk]
  have hgd : ∀ k ∈ dag, (gd.insert b.hash d)[k]? = gd[k]? := by
    intro k hk
    simp [ExtTreeMap.getElem?_insert, hold k hk]
  have hagree := inv.agree hdag hgd fun x y _ hy => inv.bfsIsAncestor_congr hdag x y hy
  refine ⟨?_, ?_, ?_, ?_, ?_⟩
  · intro k c hk
    rcases hget hk with ⟨rfl, rfl⟩ | ⟨-, hk⟩
    · rfl
    · exact inv.keyed hk
  · intro k
    rw [ExtTreeMap.mem_insert, ExtTreeMap.mem_insert, inv.known k]
  · intro k c hk p hp
    rw [ExtTreeMap.mem_insert]
    rcases hget hk with ⟨rfl, rfl⟩ | ⟨-, hk⟩
    · exact Or.inr (hparents p hp)
    · exact Or.inr (inv.closed hk p hp)
  · intro k c hk hroot
    rcases hget hk with ⟨rfl, rfl⟩ | ⟨-, hk⟩
    · exact absurd hroot hne
    · rw [hgd k (mem_of_getElem? hk)]
      exact inv.root hk hroot
  · intro k c hk hroot
    rcases hget hk with ⟨rfl, rfl⟩ | ⟨-, hk⟩
    · refine ⟨d, by simp, ?_⟩
      rw [tryCompute_congr hagree hparents]
      exact hok
    · obtain ⟨d', hd', hok'⟩ := inv.computed hk hroot
      refine ⟨d', (hgd k (mem_of_getElem? hk)).trans hd', ?_⟩
      rw [tryCompute_congr hagree (inv.closed hk)]
      exact hok'

/-- **The GHOSTDAG map is a function of the DAG.** -/
theorem unique (inv : DagInv dag gd) {gd' : GhostdagMap} (inv' : DagInv dag gd') : gd' = gd := by
  have hsame : ∀ k ∈ dag, gd'[k]? = gd[k]? := by
    intro k hk
    -- by induction on the score: the data of the past determines the block's own
    induction hn : gd.scoreOf k using Nat.strong_induction_on generalizing k with
    | _ n ih =>
        obtain ⟨b, hb⟩ := exists_block hk
        by_cases hne : b.parents = []
        · rw [inv.root hb hne, inv'.root hb hne]
        · obtain ⟨d, hd, hok⟩ := inv.computed hb hne
          obtain ⟨d', hd', hok'⟩ := inv'.computed hb hne
          have hpast : ∀ {x}, Past dag x k → x ∈ dag ∧ gd.scoreOf x < n := fun hx =>
            ⟨inv.past_mem hx hk, hn ▸ inv.score_lt_past hx hk⟩
          have hagree : Agree dag dag gd gd' dag.bfsIsAncestor dag.bfsIsAncestor (Past dag · k) := by
            refine ⟨fun _ _ => rfl, fun x hx p hp => (Past.parent hp).trans hx, fun x hx => ?_,
              fun x hx e he => ?_, fun _ _ _ _ => rfl⟩
            · exact ih _ (hpast hx).2 x (hpast hx).1 rfl
            · exact ⟨fun p hp => ((inv.links he).1 p hp).trans hx,
                fun y hy => ((inv.links he).2 y hy).trans hx⟩
          have hcongr : tryComputeGhostdagData dag gd' dag.bfsIsAncestor b.parents maxMergesetSize
              = tryComputeGhostdagData dag gd dag.bfsIsAncestor b.parents maxMergesetSize :=
            tryCompute_congr hagree fun p hp => .parent (Dag.parentsOf_eq hb ▸ hp)
          rw [hok, hok'] at hcongr
          rw [hd, hd', Except.ok.inj hcongr]
  refine ExtTreeMap.ext_getElem? fun k => ?_
  by_cases hk : k ∈ dag
  · exact hsame k hk
  · rw [ExtTreeMap.getElem?_eq_none fun h => hk ((inv.known k).mp h),
      ExtTreeMap.getElem?_eq_none fun h => hk ((inv'.known k).mp h)]

end DagInv

end Inv

end HassanNode
