import Mathlib
import HassanNode.Consensus.Past
import HassanNode.Consensus.Admission

/-!
# HassanNode.Consensus.Finality

The finality point and the selected tip, on any node: what `finality_point`
returns (`finalityPoint_spec`), which tip is selected after a block is inserted
(`selectedTip_insert`), and that the finality point then moves forward along
the chain (`finalityPoint_forward`).
-/

namespace HassanNode

open Std (ExtTreeMap ExtTreeSet)
open Params

/-- Selected-parent links stay in the map. -/
def GhostdagMap.Linked (gd : GhostdagMap) : Prop := ∀ h p, gd.spOf h = some p → p ∈ gd

namespace ChainState

variable {st : ChainState} {threshold : Nat}

theorem scoreOrMax_eq {h : Hash} (hh : h ∈ st.ghostdag) :
    st.scoreOrMax h = st.ghostdag.scoreOf h := by
  rw [ExtTreeMap.mem_iff_isSome_getElem?] at hh
  obtain ⟨d, hd⟩ := Option.isSome_iff_exists.mp hh
  simp [scoreOrMax, GhostdagMap.scoreOf, hd]

theorem above_known (hl : st.ghostdag.Linked) {a h : Hash} (hh : h ∈ st.ghostdag)
    (habove : Above st.ghostdag.spOf a h) : a ∈ st.ghostdag := by
  induction habove with
  | refl => exact hh
  | step hp _ ih => exact ih (hl _ _ hp)

theorem lastBelow_root {h : Hash} (hh : h ∈ st.ghostdag) (hsp : st.ghostdag.spOf h = none) :
    st.lastBelow threshold (st.ghostdag.selectedChain h)
      = if st.ghostdag.scoreOf h ≤ threshold then some h else none := by
  rw [lastBelow, GhostdagMap.selectedChain_root hsp]
  by_cases hle : st.ghostdag.scoreOf h ≤ threshold <;> simp [scoreOrMax_eq hh, hle]

/-- Scores grow along the chain, so the search for the last low block stops at
the block itself or goes on below its selected parent. -/
theorem lastBelow_step (hd : st.ghostdag.Descends) (hl : st.ghostdag.Linked) {h p : Hash}
    (hh : h ∈ st.ghostdag) (hsp : st.ghostdag.spOf h = some p) :
    st.lastBelow threshold (st.ghostdag.selectedChain h)
      = if st.ghostdag.scoreOf h ≤ threshold then some h
        else st.lastBelow threshold (st.ghostdag.selectedChain p) := by
  rw [lastBelow, lastBelow, GhostdagMap.selectedChain_step hd hsp, List.takeWhile_append]
  by_cases hle : st.ghostdag.scoreOf h ≤ threshold
  · have hall : (st.ghostdag.selectedChain p).takeWhile (fun k => st.scoreOrMax k ≤ threshold)
        = st.ghostdag.selectedChain p := by
      refine List.takeWhile_eq_self_iff.mpr fun k hk => ?_
      have habove := (GhostdagMap.mem_selectedChain hd).mp hk
      have := hd.score_le habove
      have := hd.spOf_lt hsp
      rw [scoreOrMax_eq (above_known hl (hl h p hsp) habove), decide_eq_true_eq]
      omega
    simp [hall, hle, scoreOrMax_eq hh]
  · rw [if_neg hle]
    split
    · rename_i hlen
      have hall := List.IsPrefix.eq_of_length (List.takeWhile_prefix _) hlen
      rw [hall]
      simp [scoreOrMax_eq hh, hle]
    · rfl

/-- What a search along the chain of `tip` finds: the last low block. -/
structure IsLast (st : ChainState) (threshold : Nat) (tip f : Hash) : Prop where
  above : Above st.ghostdag.spOf f tip
  low : st.ghostdag.scoreOf f ≤ threshold
  last : ∀ x, Above st.ghostdag.spOf x tip → st.ghostdag.scoreOf x ≤ threshold →
    Above st.ghostdag.spOf x f

theorem lastBelow_spec (hd : st.ghostdag.Descends) (hl : st.ghostdag.Linked) {tip f : Hash}
    (htip : tip ∈ st.ghostdag)
    (h : st.lastBelow threshold (st.ghostdag.selectedChain tip) = some f) :
    st.IsLast threshold tip f := by
  induction tip using GhostdagMap.chain_induction hd with
  | root tip hsp =>
      rw [lastBelow_root htip hsp] at h
      split at h
      · rename_i hle
        obtain rfl := Option.some.inj h
        exact ⟨.refl _, hle, fun _ hx _ => hx⟩
      · cases h
  | step tip p hsp ih =>
      rw [lastBelow_step hd hl htip hsp] at h
      split at h
      · rename_i hle
        obtain rfl := Option.some.inj h
        exact ⟨.refl _, hle, fun _ hx _ => hx⟩
      · rename_i hlt
        have hlast := ih (hl tip p hsp) h
        refine ⟨.step hsp hlast.above, hlast.low, fun x hx hxle => ?_⟩
        cases hx with
        | refl => exact absurd hxle hlt
        | step hsp' hx =>
            obtain rfl := Option.some.inj (hsp.symm.trans hsp')
            exact hlast.last x hx hxle

theorem lastBelow_isSome (hd : st.ghostdag.Descends) (hl : st.ghostdag.Linked) {tip x : Hash}
    (htip : tip ∈ st.ghostdag) (hx : Above st.ghostdag.spOf x tip)
    (hle : st.ghostdag.scoreOf x ≤ threshold) :
    ∃ f, st.lastBelow threshold (st.ghostdag.selectedChain tip) = some f := by
  induction hx with
  | refl =>
      cases hsp : st.ghostdag.spOf x with
      | none => exact ⟨x, by rw [lastBelow_root htip hsp, if_pos hle]⟩
      | some p => exact ⟨x, by rw [lastBelow_step hd hl htip hsp, if_pos hle]⟩
  | @step p tip hsp _ ih =>
      rw [lastBelow_step hd hl htip hsp]
      split
      · exact ⟨tip, rfl⟩
      · exact ih (hl tip p hsp)

/-- The selected tip is a known one, and no known tip ranks higher. -/
theorem selectedTip_isBest {tip : Hash} (h : st.selectedTip = some tip) :
    st.ghostdag.IsBest st.tips tip := GhostdagMap.selectBest_eq_some.mp h

theorem finalityPoint_eq {tip : Hash} (h : st.selectedTip = some tip) :
    st.finalityPoint = if st.ghostdag.scoreOf tip ≤ finalityDepth then none
      else st.lastBelow (st.ghostdag.scoreOf tip - finalityDepth)
        (st.ghostdag.selectedChain tip) := by
  have hknown := (selectedTip_isBest h).known
  rw [ExtTreeMap.mem_iff_isSome_getElem?] at hknown
  obtain ⟨d, hd⟩ := Option.isSome_iff_exists.mp hknown
  simp [finalityPoint, h, hd, GhostdagMap.scoreOf]

/-- **The finality point** is the last chain block deep enough below the tip. -/
theorem finalityPoint_spec (hd : st.ghostdag.Descends) (hl : st.ghostdag.Linked) {fp : Hash}
    (h : st.finalityPoint = some fp) :
    ∃ tip, st.selectedTip = some tip ∧ finalityDepth < st.ghostdag.scoreOf tip ∧
      st.IsLast (st.ghostdag.scoreOf tip - finalityDepth) tip fp := by
  cases htip : st.selectedTip with
  | none => simp [finalityPoint, htip] at h
  | some tip =>
      rw [finalityPoint_eq htip] at h
      split at h
      · cases h
      · rename_i hdeep
        exact ⟨tip, rfl, by omega, lastBelow_spec hd hl (selectedTip_isBest htip).known h⟩

/-! ### After a new block -/

theorem mem_nextTips {tips parents : List Hash} {hash x : Hash} :
    x ∈ nextTips tips parents hash ↔ (x ∈ tips ∧ x ∉ parents) ∨ x = hash := by
  have hfold : ∀ tips : List Hash, x ∈ parents.foldl (fun tips p => tips.filter (· ≠ p)) tips ↔
      x ∈ tips ∧ x ∉ parents := by
    induction parents with
    | nil => simp
    | cons p parents ih =>
        intro tips
        rw [List.foldl_cons, ih, List.mem_filter, List.mem_cons, not_or]
        simp only [ne_eq, decide_not, Bool.not_eq_true', decide_eq_false_iff_not]
        tauto
  rw [nextTips, List.mem_append, hfold, List.mem_singleton]

section Insert

variable [Crypto] {env : Env} {block : Block} {gd : GhostdagData}

omit [Crypto] in
theorem scoreOf_insert_ne {gdm : GhostdagMap} {k h : Hash} {d : GhostdagData} (hne : k ≠ h) :
    GhostdagMap.scoreOf (gdm.insert k d) h = gdm.scoreOf h := by
  simp [GhostdagMap.scoreOf, ExtTreeMap.getElem?_insert, hne]

omit [Crypto] in
theorem scoreOf_insert_self {gdm : GhostdagMap} {k : Hash} {d : GhostdagData} :
    GhostdagMap.scoreOf (gdm.insert k d) k = d.blueScore := by
  simp [GhostdagMap.scoreOf]

omit [Crypto] in
theorem spOf_insert_ne {gdm : GhostdagMap} {k h : Hash} {d : GhostdagData} (hne : k ≠ h) :
    GhostdagMap.spOf (gdm.insert k d) h = gdm.spOf h := by
  simp [GhostdagMap.spOf, ExtTreeMap.getElem?_insert, hne]

omit [Crypto] in
theorem spOf_insert_self {gdm : GhostdagMap} {k : Hash} {d : GhostdagData} :
    GhostdagMap.spOf (gdm.insert k d) k = d.selectedParent := by
  simp [GhostdagMap.spOf]

/-- **The selected tip after a block** is the block, or the old tip when the
block is not built on it; its score has not gone down. -/
theorem selectedTip_insert {tip : Hash} (htip : st.selectedTip = some tip)
    (hnew : block.hash ∉ st.ghostdag) (hknown : ∀ t ∈ st.tips, t ∈ st.ghostdag)
    (hscore : ∀ p ∈ block.parents, st.ghostdag.scoreOf p < gd.blueScore) :
    ∃ tip', (st.insertBlock env block gd).selectedTip = some tip' ∧
      (tip' = block.hash ∨ tip' = tip ∧ tip ∉ block.parents) ∧
      st.ghostdag.scoreOf tip ≤ (st.insertBlock env block gd).ghostdag.scoreOf tip' := by
  have hbest := selectedTip_isBest htip
  have hne : ∀ {t}, t ∈ st.ghostdag → block.hash ≠ t := fun ht heq => hnew (heq ▸ ht)
  have hself : (st.insertBlock env block gd).ghostdag.scoreOf block.hash = gd.blueScore :=
    scoreOf_insert_self
  have hold : ∀ {t}, t ∈ st.ghostdag →
      (st.insertBlock env block gd).ghostdag.scoreOf t = st.ghostdag.scoreOf t := fun ht =>
    scoreOf_insert_ne (hne ht)
  have hmem : ∀ x, x ∈ (st.insertBlock env block gd).tips ↔
      (x ∈ st.tips ∧ x ∉ block.parents) ∨ x = block.hash := fun x => mem_nextTips
  have hknown' : ∀ t, t ∈ st.ghostdag → t ∈ (st.insertBlock env block gd).ghostdag := by
    intro t ht
    exact ExtTreeMap.mem_insert.mpr (Or.inr ht)
  have hselfmem : block.hash ∈ (st.insertBlock env block gd).ghostdag := ExtTreeMap.mem_insert_self
  -- the remaining old tips rank at most as high as the old selected tip
  have hrank : ∀ c ∈ st.tips,
      (st.insertBlock env block gd).ghostdag.rankLe c tip = true := by
    intro c hc
    have hle := hbest.best c hc (hknown c hc)
    rwa [GhostdagMap.rankLe, hold (hknown c hc), hold hbest.known]
  have htop : (st.insertBlock env block gd).ghostdag.rankLe tip block.hash = true →
      (st.insertBlock env block gd).selectedTip = some block.hash := by
    intro hle
    refine GhostdagMap.selectBest_eq_some.mpr ⟨(hmem _).mpr (Or.inr rfl), hselfmem, fun c hc _ => ?_⟩
    rcases (hmem c).mp hc with ⟨hc, -⟩ | rfl
    · exact GhostdagMap.rankLe_trans (hrank c hc) hle
    · exact (GhostdagMap.rankLe_total _ _).elim id id
  by_cases hle : (st.insertBlock env block gd).ghostdag.rankLe tip block.hash = true
  · refine ⟨block.hash, htop hle, Or.inl rfl, ?_⟩
    have := GhostdagMap.score_le_of_rankLe hle
    rwa [hold hbest.known] at this
  · have hnot : tip ∉ block.parents := by
      intro hp
      refine hle (GhostdagMap.rankLe_iff.mpr (Or.inl ?_))
      rw [hself, hold hbest.known]
      exact hscore tip hp
    have hle' := (GhostdagMap.rankLe_total _ _).resolve_left hle
    refine ⟨tip, GhostdagMap.selectBest_eq_some.mpr ⟨(hmem tip).mpr (Or.inl ⟨hbest.mem, hnot⟩),
      hknown' tip hbest.known, fun c hc _ => ?_⟩, Or.inr ⟨rfl, hnot⟩, ?_⟩
    · rcases (hmem c).mp hc with ⟨hc, -⟩ | rfl
      · exact hrank c hc
      · exact hle'
    · rw [hold hbest.known]

end Insert

/-- **Finality moves forward**: once the new selected tip has the old finality
point on its chain and no smaller score, the new point is at or after it. -/
theorem finalityPoint_forward {st' : ChainState} {fp tip' : Hash} {score : Nat}
    (hd : st'.ghostdag.Descends) (hl : st'.ghostdag.Linked) (htip' : st'.selectedTip = some tip')
    (habove : Above st'.ghostdag.spOf fp tip') (hdeep : finalityDepth < score)
    (hlow : st'.ghostdag.scoreOf fp ≤ score - finalityDepth)
    (hscore : score ≤ st'.ghostdag.scoreOf tip') :
    ∃ fp', st'.finalityPoint = some fp' ∧ Above st'.ghostdag.spOf fp fp' ∧
      Above st'.ghostdag.spOf fp' tip' := by
  have hknown := (selectedTip_isBest htip').known
  have hle : st'.ghostdag.scoreOf fp ≤ st'.ghostdag.scoreOf tip' - finalityDepth := by omega
  obtain ⟨f, hf⟩ := lastBelow_isSome hd hl hknown habove hle
  have hlast := lastBelow_spec hd hl hknown hf
  refine ⟨f, ?_, hlast.last fp habove (by omega), hlast.above⟩
  rw [finalityPoint_eq htip', if_neg (by omega), hf]

end ChainState

end HassanNode
