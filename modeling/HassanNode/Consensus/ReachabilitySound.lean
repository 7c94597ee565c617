import Mathlib
import HassanNode.Lib.Map
import HassanNode.Consensus.Reindex

/-!
# HassanNode.Consensus.ReachabilitySound

Every operation keeps the index a laminar forest (`WF`), and the covering sets
of an index that has seen every selected parent answer ancestor queries exactly
(`Covers`).
-/

namespace HassanNode

open Std (ExtTreeMap ExtTreeSet)

namespace Reachability

/-- Covering sets hold indexed blocks. -/
def FcsIn (r : Reachability) : Prop := ∀ a, ∀ m ∈ r.fcsOf a, m ∈ r.nodes

/-- Covering sets are sorted by start. -/
def FcsSorted (r : Reachability) : Prop := ∀ a, (r.fcsOf a).Pairwise fun m m' => r.lo m ≤ r.lo m'

/-- `hash` has been added below `parent`, with an empty covering set. -/
structure Placed (r : Reachability) (hash : Hash) (parent : Option Hash) (r' : Reachability) :
    Prop where
  wf : r'.WF
  mem : ∀ h, h ∈ r'.nodes ↔ h = hash ∨ h ∈ r.nodes
  parent_new : r'.parentOf hash = parent
  parent_old : ∀ h, h ≠ hash → r'.parentOf h = r.parentOf h
  fcs_new : r'.fcsOf hash = []
  fcs_old : ∀ h, h ≠ hash → (r'.fcsOf h).Perm (r.fcsOf h)
  sorted : r.FcsIn → r.FcsSorted → r'.FcsSorted

/-! ### Adding a node -/

theorem fcsOf_eq_nil {r : Reachability} {hash : Hash} (hnew : hash ∉ r.nodes) :
    r.fcsOf hash = [] := by
  rw [ExtTreeMap.mem_iff_isSome_getElem?, Option.not_isSome_iff_eq_none] at hnew
  simp [fcsOf, node, hnew]

/-- One more leaf: the old labels stay, and the new interval lies in its
parent's free part, or beyond every root. -/
structure Grown (r : Reachability) (hash : Hash) (parent : Option Hash) (r' : Reachability) :
    Prop where
  mem : ∀ h, h ∈ r'.nodes ↔ h = hash ∨ h ∈ r.nodes
  parent_new : r'.parentOf hash = parent
  parent_old : ∀ h, h ≠ hash → r'.parentOf h = r.parentOf h
  labels : ∀ h, h ≠ hash → r'.lo h = r.lo h ∧ r'.hi h = r.hi h
  children_new : r'.childrenOf hash = []
  children_old : ∀ h, h ≠ hash →
    r'.childrenOf h = if parent = some h then r.childrenOf h ++ [hash] else r.childrenOf h
  free_old : ∀ h ∈ r.nodes, r.freeOf h ≤ r'.freeOf h ∧ r'.freeOf h ≤ r.hi h
  free_new : r'.lo hash ≤ r'.freeOf hash ∧ r'.freeOf hash ≤ r'.hi hash
  inside : ∀ p, parent = some p → p ∈ r.nodes ∧ r.freeOf p ≤ r'.lo hash ∧ r'.hi hash < r'.freeOf p
  beyond : parent = none → r.nextRootStart ≤ r'.lo hash
  top : r.nextRootStart ≤ r'.nextRootStart ∧ r'.hi hash < r'.nextRootStart

theorem Grown.wf {r r' : Reachability} {hash : Hash} {parent : Option Hash} (w : r.WF)
    (hnew : hash ∉ r.nodes) (g : r.Grown hash parent r') : r'.WF := by
  have hne : ∀ {h}, h ∈ r.nodes → h ≠ hash := fun hh heq => hnew (heq ▸ hh)
  -- a sibling of the new leaf ends before its interval
  have hbefore : ∀ {h}, h ∈ r.nodes → r'.parentOf h = parent → r'.hi h < r'.lo hash := by
    intro h hh hp
    rw [g.parent_old h (hne hh)] at hp
    rw [(g.labels h (hne hh)).2]
    cases parent with
    | none =>
        have := w.laminar.bounded hh
        have := g.beyond rfl
        omega
    | some p =>
        have := w.placed hh hp
        have := (g.inside p rfl).2
        omega
  have hself : ∀ {p}, r'.parentOf hash = some p → p ∈ r.nodes := by
    intro p hp
    exact (g.inside p (g.parent_new ▸ hp)).1
  have hleaf : ∀ {h}, h ∈ r'.nodes → r'.parentOf h ≠ some hash := by
    intro h hh hp
    rcases (g.mem h).mp hh with rfl | hh
    · exact hnew (hself hp)
    · rw [g.parent_old h (hne hh)] at hp
      exact hnew (w.laminar.parent_mem hh hp)
  refine ⟨⟨?_, ?_, ?_, ?_, ?_⟩, ?_, ?_, ?_, ?_⟩
  · intro h p hh hp
    rcases (g.mem h).mp hh with rfl | hh
    · exact (g.mem p).mpr (Or.inr (hself hp))
    · rw [g.parent_old h (hne hh)] at hp
      exact (g.mem p).mpr (Or.inr (w.laminar.parent_mem hh hp))
  · intro h hh
    rcases (g.mem h).mp hh with rfl | hh
    · have := g.free_new
      omega
    · rw [(g.labels h (hne hh)).1, (g.labels h (hne hh)).2]
      exact w.laminar.le hh
  · intro h p hh hp
    rcases (g.mem h).mp hh with rfl | hh
    · obtain ⟨hpmem, hin⟩ := g.inside p (g.parent_new ▸ hp)
      have := w.free hpmem
      have := g.free_old p hpmem
      rw [(g.labels p (hne hpmem)).1, (g.labels p (hne hpmem)).2]
      omega
    · rw [g.parent_old h (hne hh)] at hp
      have hpmem := w.laminar.parent_mem hh hp
      rw [(g.labels h (hne hh)).1, (g.labels h (hne hh)).2, (g.labels p (hne hpmem)).1,
        (g.labels p (hne hpmem)).2]
      exact w.laminar.nest hh hp
  · intro h h' hh hh' hdiff hp
    rcases (g.mem h).mp hh with rfl | hh <;> rcases (g.mem h').mp hh' with rfl | hh'
    · exact absurd rfl hdiff
    · exact Or.inr (hbefore hh' (hp.symm.trans g.parent_new))
    · exact Or.inl (hbefore hh (hp.trans g.parent_new))
    · rw [g.parent_old h (hne hh), g.parent_old h' (hne hh')] at hp
      rw [(g.labels h (hne hh)).1, (g.labels h (hne hh)).2, (g.labels h' (hne hh')).1,
        (g.labels h' (hne hh')).2]
      exact w.laminar.apart hh hh' hdiff hp
  · intro h hh
    rcases (g.mem h).mp hh with rfl | hh
    · exact g.top.2
    · have := w.laminar.bounded hh
      have := g.top.1
      rw [(g.labels h (hne hh)).2]
      omega
  · intro p hp c
    rcases (g.mem p).mp hp with rfl | hp
    · rw [g.children_new]
      simpa using fun hc => hleaf hc
    · rw [g.children_old p (hne hp), g.mem c]
      have hold := w.children hp c
      by_cases hc : c = hash
      · subst hc
        have hnot : c ∉ r.childrenOf p := fun h => hnew (hold.mp h).1
        rw [g.parent_new]
        split <;> simp_all
      · rw [g.parent_old c hc]
        split <;> simp_all
  · intro p hp
    rcases (g.mem p).mp hp with rfl | hp
    · simp [g.children_new]
    · have hnot : hash ∉ r.childrenOf p := fun h => hnew ((w.children hp hash).mp h).1
      rw [g.children_old p (hne hp)]
      split
      · exact List.Nodup.append (w.nodup hp) (List.nodup_singleton hash) (by simpa using hnot)
      · exact w.nodup hp
  · intro h hh
    rcases (g.mem h).mp hh with rfl | hh
    · exact g.free_new
    · have := w.free hh
      have := g.free_old h hh
      rw [(g.labels h (hne hh)).1, (g.labels h (hne hh)).2]
      omega
  · intro c p hc hp
    rcases (g.mem c).mp hc with rfl | hc
    · exact (g.inside p (g.parent_new ▸ hp)).2.2
    · rw [g.parent_old c (hne hc)] at hp
      have := w.placed hc hp
      have := g.free_old p (w.laminar.parent_mem hc hp)
      rw [(g.labels c (hne hc)).2]
      omega

/-- With an empty covering set of its own, a grown index is a placed one. -/
theorem Grown.placed {r r' : Reachability} {hash : Hash} {parent : Option Hash} (w : r.WF)
    (hnew : hash ∉ r.nodes) (g : r.Grown hash parent r') (hfcs : ∀ h, r'.fcsOf h = r.fcsOf h) :
    r.Placed hash parent r' where
  wf := g.wf w hnew
  mem := g.mem
  parent_new := g.parent_new
  parent_old := g.parent_old
  fcs_new := by rw [hfcs, fcsOf_eq_nil hnew]
  fcs_old h _ := .of_eq (hfcs h)
  sorted hin hsorted a := by
    rw [hfcs a]
    refine (hsorted a).imp_of_mem fun {m m'} hm hm' hle => ?_
    rwa [(g.labels m fun h => hnew (h ▸ hin a m hm)).1,
      (g.labels m' fun h => hnew (h ▸ hin a m' hm')).1]

/-- A reindex before placing does not show. -/
theorem Placed.of_reindexed {r r₁ r' : Reachability} {hash : Hash} {parent : Option Hash}
    (hr : r.Reindexed r₁) (g : r₁.Placed hash parent r') : r.Placed hash parent r' where
  wf := g.wf
  mem h := by rw [g.mem, hr.tree.mem]
  parent_new := g.parent_new
  parent_old h hh := by rw [g.parent_old h hh, hr.tree.parent]
  fcs_new := g.fcs_new
  fcs_old h hh := (g.fcs_old h hh).trans (hr.fcs h)
  sorted hin _ := by
    refine g.sorted (fun a m hm => ?_) hr.sorted
    exact (hr.tree.mem m).mpr (hin a m ((hr.fcs a).mem_iff.mp hm))

section Add

variable {r : Reachability} {hash : Hash} {iter : List Hash → List Hash}

/-- A fresh root beyond every interval. -/
theorem WF.addRoot (w : r.WF) (hnew : hash ∉ r.nodes) :
    r.Placed hash none
      { nodes := r.nodes.insert hash
          { interval := ⟨r.nextRootStart, r.nextRootStart + scale - 1⟩, nextFree := r.nextRootStart }
        nextRootStart := r.nextRootStart + scale - 1 + 1 } := by
  have hscale : 1 < scale := by decide
  have hne : ∀ {h}, h ∈ r.nodes → hash ≠ h := fun hh heq => hnew (heq ▸ hh)
  refine Grown.placed w hnew ⟨fun h => ?_, ?_, fun h hh => ?_, fun h hh => ?_, ?_, fun h hh => ?_,
    fun h hh => ?_, ?_, fun p hp => ?_, fun _ => ?_, ?_⟩ fun h => ?_
  · rw [mem_insert_nodes, eq_comm]
  · simp [parentOf, node]
  · simp [parentOf, node, ExtTreeMap.getElem?_insert, hh.symm]
  · simp [lo, hi, node, ExtTreeMap.getElem?_insert, hh.symm]
  · simp [childrenOf, node]
  · simp [childrenOf, node, ExtTreeMap.getElem?_insert, hh.symm]
  · have hsame : r.freeOf h = (r.nodes[h]?.getD {}).nextFree := rfl
    simp only [freeOf, node, ExtTreeMap.getElem?_insert, Std.LawfulEqCmp.compare_eq_iff_eq, hne hh,
      if_false]
    exact ⟨le_rfl, (w.free hh).2⟩
  · simp only [lo, hi, freeOf, node, ExtTreeMap.getElem?_insert_self, Option.getD_some]
    omega
  · cases hp
  · simp [lo, node]
  · simp only [hi, node, ExtTreeMap.getElem?_insert_self, Option.getD_some]
    omega
  · by_cases hh : hash = h
    · subst hh
      rw [fcsOf_eq_nil hnew]
      simp [fcsOf, node]
    · simp [fcsOf, node, ExtTreeMap.getElem?_insert, hh]

theorem insertRoot_spec (w : r.WF) (hnew : hash ∉ r.nodes) (hiter : ∀ xs, (iter xs).Perm xs) :
    r.Placed hash none (r.insertRoot iter hash) := by
  unfold insertRoot
  dsimp only
  split
  · have hr := reindexAll_spec w.forest hiter
    exact .of_reindexed hr (hr.wf.addRoot fun h => hnew ((hr.tree.mem hash).mp h))
  · exact w.addRoot hnew

/-- A leaf in the free part of its parent's interval. -/
theorem tryPlaceChild_spec {r' : Reachability} {parent : Hash} (w : r.WF) (hnew : hash ∉ r.nodes)
    (hparent : parent ∈ r.nodes) (h : r.tryPlaceChild parent hash = some r') :
    r.Placed hash (some parent) r' := by
  simp only [tryPlaceChild] at h
  split at h
  · cases h
  · rename_i hroom
    have hpfree : (r.node parent).nextFree < (r.node parent).interval.end_ := by omega
    obtain rfl := Option.some.inj h
    have hne : hash ≠ parent := fun heq => hnew (heq ▸ hparent)
    -- the width is positive and stays inside the free part
    generalize hwidth : (if (r.node parent).interval.end_ - (r.node parent).nextFree > siblingReserve
      then (r.node parent).interval.end_ - (r.node parent).nextFree - siblingReserve
      else (r.node parent).interval.end_ - (r.node parent).nextFree) = width
    have hpos : 0 < width ∧ (r.node parent).nextFree + width ≤ (r.node parent).interval.end_ := by
      rw [← hwidth]
      split <;> omega
    clear hwidth h
    refine Grown.placed w hnew ⟨fun k => ?_, ?_, fun k hk => ?_, fun k hk => ?_, ?_, fun k hk => ?_,
      fun k hk => ?_, ?_, fun p hp => ?_, fun hnone => ?_, ?_⟩ fun k => ?_
    · rw [mem_insert_nodes, mem_insert_nodes, eq_comm]
      refine or_congr_right ⟨fun hk => hk.elim (fun heq => heq ▸ hparent) id, Or.inr⟩
    · simp [parentOf, node]
    · by_cases hkp : parent = k
      · subst hkp
        simp [parentOf, node_insert, hne]
      · simp [parentOf, node_insert, hk.symm, hkp]
    · by_cases hkp : parent = k
      · subst hkp
        simp [lo, hi, node_insert, hne]
      · simp [lo, hi, node_insert, hk.symm, hkp]
    · simp [childrenOf, node]
    · by_cases hkp : parent = k
      · subst hkp
        simp [childrenOf, node_insert, hne]
      · simp [childrenOf, node_insert, hk.symm, hkp]
    · have hkne : hash ≠ k := fun heq => hnew (heq ▸ hk)
      have hkfree := w.free hk
      by_cases hkp : parent = k
      · subst hkp
        simp only [freeOf, hi, lo, node_insert, hne, if_false, if_true] at hkfree ⊢
        omega
      · simp only [freeOf, hi, lo, node_insert, hkne, hkp, if_false] at hkfree ⊢
        exact ⟨le_rfl, hkfree.2⟩
    · simp only [lo, hi, freeOf, node_insert, if_true]
      omega
    · obtain rfl := Option.some.inj hp
      refine ⟨hparent, ?_⟩
      simp only [lo, hi, freeOf, node_insert, hne, if_true, if_false]
      omega
    · cases hnone
    · have hbound := w.laminar.bounded hparent
      simp only [hi, node_insert, if_true] at hbound ⊢
      omega
    · by_cases hk : hash = k
      · subst hk
        rw [fcsOf_eq_nil hnew]
        simp [fcsOf, node]
      · by_cases hkp : parent = k
        · subst hkp
          simp [fcsOf, node_insert, hne]
        · simp [fcsOf, node_insert, hk, hkp]

/-- After a reindex the child always fits. -/
theorem insertTreeChild_spec {parent : Hash} (w : r.WF) (hnew : hash ∉ r.nodes)
    (hparent : parent ∈ r.nodes) (hiter : ∀ xs, (iter xs).Perm xs) :
    r.Placed hash (some parent) (r.insertTreeChild iter parent hash) := by
  unfold insertTreeChild
  split
  · rename_i r' hplaced
    exact tryPlaceChild_spec w hnew hparent hplaced
  · have hr := reindexAll_spec w.forest hiter
    have hroom := hr.room parent ((hr.tree.mem parent).mpr hparent)
    dsimp only
    split
    · rename_i r' hplaced
      exact .of_reindexed hr (tryPlaceChild_spec hr.wf (fun h => hnew ((hr.tree.mem hash).mp h))
        ((hr.tree.mem parent).mpr hparent) hplaced)
    · rename_i hfull
      simp only [tryPlaceChild] at hfull
      split at hfull
      · rename_i hno
        simp only [freeOf, hi] at hroom
        omega
      · cases hfull

/-- Where `add_block` puts a new block, before the covering sets. -/
def treeParentOf (r : Reachability) (selectedParent : Option Hash) : Option Hash :=
  selectedParent.filter r.nodes.contains

theorem place_spec (w : r.WF) (hnew : hash ∉ r.nodes) (hiter : ∀ xs, (iter xs).Perm xs)
    (sp : Option Hash) :
    r.Placed hash (r.treeParentOf sp) (r.place iter hash sp) := by
  rw [treeParentOf, place]
  cases hsp : sp.filter r.nodes.contains with
  | none => exact insertRoot_spec w hnew hiter
  | some parent =>
      have hparent : parent ∈ r.nodes := by
        have := (Option.filter_eq_some_iff.mp hsp).2
        simpa using this
      exact insertTreeChild_spec w hnew hparent hiter

/-! ### The interval space

With fewer than 2⁴⁰ blocks the index stays below `SPACE_END`, far from the end
of the source's `u64`. -/

theorem insertRoot_top (w : r.WF) (hiter : ∀ xs, (iter xs).Perm xs) (hsize : r.nodes.size < 2 ^ 40) :
    (r.insertRoot iter hash).nextRootStart ≤ spaceEnd := by
  have hscale : 1 < scale := by decide
  unfold insertRoot
  dsimp only
  split
  · rw [(reindexAll_spec w.forest hiter).top]
    have hmul : r.nodes.size * scale ≤ 2 ^ 40 * scale := Nat.mul_le_mul_right _ hsize.le
    have hfit : spaceStart + 2 ^ 40 * scale + scale ≤ spaceEnd := by decide
    omega
  · omega

theorem insertTreeChild_top {parent : Hash} (w : r.WF) (hiter : ∀ xs, (iter xs).Perm xs)
    (hsize : r.nodes.size < 2 ^ 40) (htop : r.nextRootStart ≤ spaceEnd) :
    (r.insertTreeChild iter parent hash).nextRootStart ≤ spaceEnd := by
  have hplaced : ∀ {s s' : Reachability}, s.tryPlaceChild parent hash = some s' →
      s'.nextRootStart = s.nextRootStart := by
    intro s s' h
    simp only [tryPlaceChild] at h
    split at h
    · cases h
    · obtain rfl := Option.some.inj h
      rfl
  have hr := reindexAll_spec w.forest hiter
  have hsame : (r.reindexAll iter).nodes.size = r.nodes.size :=
    Map.size_eq_of_mem_iff hr.tree.mem
  unfold insertTreeChild
  split
  · rename_i r' h
    rw [hplaced h]
    exact htop
  · dsimp only
    split
    · rename_i r' h
      rw [hplaced h, hr.top]
      have hmul : r.nodes.size * scale ≤ 2 ^ 40 * scale := Nat.mul_le_mul_right _ hsize.le
      have hfit : spaceStart + 2 ^ 40 * scale ≤ spaceEnd := by decide
      omega
    · exact insertRoot_top hr.wf hiter (hsame ▸ hsize)

theorem place_top (w : r.WF) (hiter : ∀ xs, (iter xs).Perm xs) (hsize : r.nodes.size < 2 ^ 40)
    (htop : r.nextRootStart ≤ spaceEnd) (sp : Option Hash) :
    (r.place iter hash sp).nextRootStart ≤ spaceEnd := by
  unfold place
  split
  · exact insertTreeChild_top w hiter hsize htop
  · exact insertRoot_top w hiter hsize

end Add

/-! ### Covering sets -/

/-- The same links and labels: only covering sets may differ. -/
structure SameShape (r r' : Reachability) : Prop where
  tree : r.SameTree r'
  labels : ∀ h, r'.lo h = r.lo h ∧ r'.hi h = r.hi h ∧ r'.freeOf h = r.freeOf h
  top : r'.nextRootStart = r.nextRootStart

theorem SameShape.refl (r : Reachability) : r.SameShape r :=
  ⟨⟨fun _ => Iff.rfl, fun _ => rfl, fun _ => rfl⟩, fun _ => ⟨rfl, rfl, rfl⟩, rfl⟩

theorem SameShape.trans {r r' r'' : Reachability} (h : r.SameShape r') (h' : r'.SameShape r'') :
    r.SameShape r'' := by
  refine ⟨⟨fun k => (h'.tree.mem k).trans (h.tree.mem k),
    fun k => (h'.tree.parent k).trans (h.tree.parent k),
    fun k => (h'.tree.children k).trans (h.tree.children k)⟩, fun k => ?_, h'.top.trans h.top⟩
  obtain ⟨hlo, hhi, hfree⟩ := h.labels k
  obtain ⟨hlo', hhi', hfree'⟩ := h'.labels k
  exact ⟨hlo'.trans hlo, hhi'.trans hhi, hfree'.trans hfree⟩

theorem SameShape.wf {r r' : Reachability} (h : r.SameShape r') (w : r.WF) : r'.WF :=
  w.congr h.tree h.labels h.top

/-- Overwriting one covering set. -/
theorem sameShape_setFcs {r : Reachability} {block : Hash} (hblock : block ∈ r.nodes)
    (fcs : List Hash) :
    r.SameShape { r with nodes := r.nodes.insert block { r.node block with fcs := fcs } } := by
  obtain ⟨nodes, top⟩ := r
  refine ⟨⟨fun h => ?_, fun h => ?_, fun h => ?_⟩, fun h => ?_, rfl⟩
  · rw [mem_insert_nodes]
    exact ⟨fun hor => hor.elim (fun heq => heq ▸ hblock) id, Or.inr⟩
  · by_cases hh : block = h
    · subst hh
      simp [parentOf, node_insert]
    · simp [parentOf, node_insert, hh]
  · by_cases hh : block = h
    · subst hh
      simp [childrenOf, node_insert]
    · simp [childrenOf, node_insert, hh]
  · by_cases hh : block = h
    · subst hh
      simp [lo, hi, freeOf, node_insert]
    · simp [lo, hi, freeOf, node_insert, hh]

theorem insertToFcs_shape {r : Reachability} {block : Hash} (hblock : block ∈ r.nodes)
    (new : Hash) : r.SameShape (r.insertToFcs block new) := by
  unfold insertToFcs
  dsimp only
  split
  · exact .refl r
  · exact sameShape_setFcs hblock _

theorem insertToFcsAll_shape (r : Reachability) (hash : Hash) (mergeset : List Hash) :
    r.SameShape (r.insertToFcsAll hash mergeset) := by
  unfold insertToFcsAll
  induction mergeset generalizing r with
  | nil => exact .refl r
  | cons m mergeset ih =>
      rw [List.foldl_cons]
      split
      · rename_i hm
        exact (insertToFcs_shape (by simpa using hm.2) hash).trans (ih _)
      · exact ih r

/-- What `add_block` does to the forest. -/
structure Added (r : Reachability) (hash : Hash) (parent : Option Hash) (r' : Reachability) :
    Prop where
  wf : r'.WF
  mem : ∀ h, h ∈ r'.nodes ↔ h = hash ∨ h ∈ r.nodes
  parent_new : r'.parentOf hash = parent
  parent_old : ∀ h, h ≠ hash → r'.parentOf h = r.parentOf h

theorem addBlock_added {r : Reachability} {hash : Hash} {iter : List Hash → List Hash}
    (w : r.WF) (hnew : hash ∉ r.nodes) (hiter : ∀ xs, (iter xs).Perm xs) (sp : Option Hash)
    (mergeset : List Hash) :
    r.Added hash (r.treeParentOf sp) (r.addBlock iter hash sp mergeset) := by
  have hcontains : ¬ r.nodes.contains hash = true := by simpa using hnew
  have g := place_spec w hnew hiter sp
  rw [addBlock, if_neg hcontains]
  have hs := insertToFcsAll_shape (r.place iter hash sp) hash mergeset
  refine ⟨hs.wf g.wf, fun h => (hs.tree.mem h).trans (g.mem h), ?_, fun h hh => ?_⟩
  · rw [hs.tree.parent, g.parent_new]
  · rw [hs.tree.parent, g.parent_old h hh]

/-! ### Removal -/

/-- Part of a forest: the kept nodes keep their labels, and a link to a node
that is gone is cut. -/
structure Restricted (r : Reachability) (keep : Hash → Prop) (r' : Reachability) : Prop where
  mem : ∀ h, h ∈ r'.nodes ↔ h ∈ r.nodes ∧ keep h
  parent : ∀ h, keep h → ∀ p, r'.parentOf h = some p ↔ r.parentOf h = some p ∧ keep p
  children : ∀ h, keep h → (r'.childrenOf h).Sublist (r.childrenOf h)
    ∧ ∀ c, c ∈ r'.childrenOf h ↔ c ∈ r.childrenOf h ∧ keep c
  labels : ∀ h, keep h → r'.lo h = r.lo h ∧ r'.hi h = r.hi h ∧ r'.freeOf h = r.freeOf h
  top : ∀ h ∈ r'.nodes, r'.hi h < r'.nextRootStart

/-- Nothing between two kept nodes is removed. -/
def Convex (r : Reachability) (keep : Hash → Prop) : Prop :=
  ∀ a b p, b ∈ r.nodes → keep a → keep b → r.parentOf b = some p → Above r.parentOf a p → keep p

namespace Restricted

variable {r r' : Reachability} {keep : Hash → Prop}

/-- Branches between kept nodes stay. -/
theorem above_iff (g : r.Restricted keep r') (w : r.WF) (hconvex : r.Convex keep) {a b : Hash}
    (ha : keep a) (hb : b ∈ r.nodes) (hkb : keep b) :
    Above r'.parentOf a b ↔ Above r.parentOf a b := by
  constructor
  · intro h
    induction h with
    | refl => exact .refl _
    | @step p b hp _ ih =>
        obtain ⟨hp, hkp⟩ := (g.parent b hkb p).mp hp
        exact .step hp (ih (w.laminar.parent_mem hb hp) hkp)
  · intro h
    induction h with
    | refl => exact .refl _
    | @step p b hp hap ih =>
        have hkp := hconvex a b p hb ha hkb hp hap
        exact .step ((g.parent b hkb p).mpr ⟨hp, hkp⟩) (ih (w.laminar.parent_mem hb hp) hkp)

/-- A convex part is a laminar forest again. -/
theorem wf (g : r.Restricted keep r') (w : r.WF) (hconvex : r.Convex keep) : r'.WF := by
  have hback : ∀ {h p}, h ∈ r'.nodes → r'.parentOf h = some p →
      h ∈ r.nodes ∧ keep h ∧ r.parentOf h = some p ∧ keep p := by
    intro h p hh hp
    obtain ⟨hh, hk⟩ := (g.mem h).mp hh
    obtain ⟨hp, hkp⟩ := (g.parent h hk p).mp hp
    exact ⟨hh, hk, hp, hkp⟩
  refine ⟨⟨?_, ?_, ?_, ?_, g.top _⟩, ?_, ?_, ?_, ?_⟩
  · intro h p hh hp
    obtain ⟨hh, -, hp, hkp⟩ := hback hh hp
    exact (g.mem p).mpr ⟨w.laminar.parent_mem hh hp, hkp⟩
  · intro h hh
    obtain ⟨hh, hk⟩ := (g.mem h).mp hh
    rw [(g.labels h hk).1, (g.labels h hk).2.1]
    exact w.laminar.le hh
  · intro h p hh hp
    obtain ⟨hh, hk, hp, hkp⟩ := hback hh hp
    rw [(g.labels h hk).1, (g.labels h hk).2.1, (g.labels p hkp).1, (g.labels p hkp).2.1]
    exact w.laminar.nest hh hp
  · intro h h' hh hh' hne hp
    obtain ⟨hh, hk⟩ := (g.mem h).mp hh
    obtain ⟨hh', hk'⟩ := (g.mem h').mp hh'
    rw [(g.labels h hk).1, (g.labels h hk).2.1, (g.labels h' hk').1, (g.labels h' hk').2.1]
    -- a kept strict ancestor makes the parent kept, so the parents would differ
    have hdiff : ∀ {a b}, a ∈ r.nodes → b ∈ r.nodes → keep a → keep b → a ≠ b →
        r'.parentOf a = r'.parentOf b → ¬ Above r.parentOf a b := by
      intro a b ha hb hka hkb hab hpab habove
      have habove' := (g.above_iff w hconvex hka hb hkb).mpr habove
      cases habove' with
      | refl => exact hab rfl
      | @step p _ hpb _ =>
          have hpa := ((g.parent a hka p).mp (hpab.trans hpb)).1
          have hpb := ((g.parent b hkb p).mp hpb).1
          have hapart := w.laminar.apart ha hb hab (hpa.trans hpb.symm)
          have hin := w.laminar.contains_of_above habove hb
          have hle := w.laminar.le hb
          omega
    exact w.laminar.apart_of_incomparable hh hh' (hdiff hh hh' hk hk' hne hp)
      (hdiff hh' hh hk' hk (Ne.symm hne) hp.symm)
  · intro p hp c
    obtain ⟨hp, hk⟩ := (g.mem p).mp hp
    rw [(g.children p hk).2 c, w.children hp c, g.mem c]
    constructor
    · rintro ⟨⟨hc, hcp⟩, hkc⟩
      exact ⟨⟨hc, hkc⟩, (g.parent c hkc p).mpr ⟨hcp, hk⟩⟩
    · rintro ⟨⟨hc, hkc⟩, hcp⟩
      exact ⟨⟨hc, ((g.parent c hkc p).mp hcp).1⟩, hkc⟩
  · intro p hp
    obtain ⟨hp, hk⟩ := (g.mem p).mp hp
    exact (w.nodup hp).sublist (g.children p hk).1
  · intro h hh
    obtain ⟨hh, hk⟩ := (g.mem h).mp hh
    rw [(g.labels h hk).1, (g.labels h hk).2.1, (g.labels h hk).2.2]
    exact w.free hh
  · intro c p hc hp
    obtain ⟨hc, hkc, hp, hkp⟩ := hback hc hp
    rw [(g.labels c hkc).2.1, (g.labels p hkp).2.2]
    exact w.placed hc hp

end Restricted

/-- The nodes `drop_leaf` leaves, one by one. -/
theorem node_dropLeaf {r : Reachability} (w : r.WF) {hash : Hash} {n : ReachNode}
    (hn : r.nodes[hash]? = some n) (hleaf : n.treeChildren = []) {h : Hash} (hh : h ≠ hash) :
    (r.dropLeaf hash).nodes[h]? = r.nodes[h]?.map fun k =>
      { k with treeChildren := k.treeChildren.filter (· ≠ hash), fcs := k.fcs.filter (· ≠ hash) } := by
  have hmem : hash ∈ r.nodes := by simp [ExtTreeMap.mem_iff_isSome_getElem?, hn]
  have hparent : r.parentOf hash = n.treeParent := by rw [parentOf, node_eq hn]
  -- only the tree parent lists the leaf among its children
  have hother : ∀ {k : ReachNode}, r.nodes[h]? = some k → n.treeParent ≠ some h →
      k.treeChildren.filter (· ≠ hash) = k.treeChildren := by
    intro k hk hne
    have hhmem : h ∈ r.nodes := by simp [ExtTreeMap.mem_iff_isSome_getElem?, hk]
    refine List.filter_eq_self.mpr fun c hc => ?_
    have hcp := ((w.children hhmem c).mp (by rwa [childrenOf, node_eq hk])).2
    have : c ≠ hash := by
      rintro rfl
      exact hne (hparent ▸ hcp)
    simpa using this
  simp only [dropLeaf, hn, hleaf, ne_eq, not_true_eq_false, if_false]
  rw [ExtTreeMap.getElem?_map]
  cases hp : n.treeParent with
  | none =>
      simp only [ExtTreeMap.getElem?_erase, Std.LawfulEqCmp.compare_eq_iff_eq, hh.symm, if_false]
      cases hk : r.nodes[h]? with
      | none => rfl
      | some k =>
          rw [Option.map_some, Option.map_some, hother hk (by simp [hp])]
  | some p =>
      have hpmem : p ∈ r.nodes := w.laminar.parent_mem hmem (hparent.trans hp)
      have hpne : p ≠ hash := by
        rintro rfl
        have := (w.children hmem p).mpr ⟨hmem, hparent.trans hp⟩
        simp [childrenOf, node_eq hn, hleaf] at this
      have hpn : (r.nodes.erase hash)[p]? = some (r.node p) := by
        rw [ExtTreeMap.getElem?_erase, node_of_mem hpmem]
        simp [hpne.symm]
      simp only [hpn, ExtTreeMap.getElem?_insert, ExtTreeMap.getElem?_erase,
        Std.LawfulEqCmp.compare_eq_iff_eq, hh.symm, if_false]
      split
      · rename_i heq
        subst heq
        simp [node_of_mem hpmem]
      · rename_i hne
        cases hk : r.nodes[h]? with
        | none => rfl
        | some k =>
            rw [Option.map_some, Option.map_some, hother hk (by simp [hp, hne])]

/-- `drop_leaf` does nothing when the block has children or is not there, or
removes a leaf. -/
theorem dropLeaf_cases {r : Reachability} (w : r.WF) (hash : Hash) :
    (r.dropLeaf hash = r ∧ (hash ∈ r.nodes → ∃ c ∈ r.nodes, r.parentOf c = some hash)) ∨ (hash ∈ r.nodes ∧ (∀ h, r.parentOf h ≠ some hash ∨ h ∉ r.nodes)
      ∧ r.Restricted (· ≠ hash) (r.dropLeaf hash)
      ∧ ∀ h, h ≠ hash → (r.dropLeaf hash).fcsOf h = (r.fcsOf h).filter (· ≠ hash)) := by
  cases hn : r.nodes[hash]? with
  | none =>
      refine Or.inl ⟨by simp [dropLeaf, hn], fun hmem => ?_⟩
      simp [ExtTreeMap.mem_iff_isSome_getElem?, hn] at hmem
  | some n =>
      by_cases hleaf : n.treeChildren = []
      · have hmem : hash ∈ r.nodes := by simp [ExtTreeMap.mem_iff_isSome_getElem?, hn]
        have hget := fun h => node_dropLeaf w hn hleaf (h := h)
        have hnode : ∀ h, h ≠ hash → (r.dropLeaf hash).node h = { r.node h with
            treeChildren := (r.childrenOf h).filter (· ≠ hash),
            fcs := (r.fcsOf h).filter (· ≠ hash) } := by
          intro h hh
          rw [node, hget h hh]
          cases hk : r.nodes[h]? with
          | none => simp [node, hk, childrenOf, fcsOf]
          | some k => simp [node, hk, childrenOf, fcsOf]
        have hgone : hash ∉ (r.dropLeaf hash).nodes := by
          simp only [dropLeaf, hn, hleaf, ne_eq, not_true_eq_false, if_false]
          cases hp : n.treeParent with
          | none => simp
          | some p =>
              have hpne : p ≠ hash := by
                rintro rfl
                have := (w.children hmem p).mpr ⟨hmem, by rw [parentOf, node_eq hn, hp]⟩
                simp [childrenOf, node_eq hn, hleaf] at this
              dsimp only
              split <;> simp [hpne]
        have hmem' : ∀ h, h ∈ (r.dropLeaf hash).nodes ↔ h ∈ r.nodes ∧ h ≠ hash := by
          intro h
          by_cases hh : h = hash
          · subst hh
            simp [hgone]
          · rw [ExtTreeMap.mem_iff_isSome_getElem?, hget h hh, Option.isSome_map,
              ← ExtTreeMap.mem_iff_isSome_getElem?]
            simp [hh]
        have hnone : ∀ h, r.parentOf h ≠ some hash ∨ h ∉ r.nodes := by
          intro h
          by_contra hboth
          rw [not_or, not_not, not_not] at hboth
          have := (w.children hmem h).mpr ⟨hboth.2, hboth.1⟩
          simp [childrenOf, node_eq hn, hleaf] at this
        refine Or.inr ⟨hmem, hnone, ⟨hmem', fun h hh p => ?_, fun h hh => ?_, fun h hh => ?_,
          fun h hh => ?_⟩, fun h hh => by simp [fcsOf, hnode h hh]⟩
        · have hsame : (r.dropLeaf hash).parentOf h = r.parentOf h := by simp [parentOf, hnode h hh]
          rw [hsame]
          refine ⟨fun hp => ⟨hp, ?_⟩, And.left⟩
          rintro rfl
          rcases hnone h with hne | hnot
          · exact hne hp
          · simp [parentOf, node, ExtTreeMap.getElem?_eq_none hnot] at hp
        · have hsame : (r.dropLeaf hash).childrenOf h = (r.childrenOf h).filter (· ≠ hash) := by
            simp [childrenOf, hnode h hh]
          rw [hsame]
          exact ⟨List.filter_sublist, fun c => by simp [List.mem_filter]⟩
        · simp [lo, hi, freeOf, hnode h hh]
        · obtain ⟨hhmem, hne⟩ := (hmem' h).mp hh
          have htop : (r.dropLeaf hash).nextRootStart = r.nextRootStart := by
            simp only [dropLeaf, hn, hleaf, ne_eq, not_true_eq_false, if_false]
          have hhi : (r.dropLeaf hash).hi h = r.hi h := by simp [hi, hnode h hne]
          rw [htop, hhi]
          exact w.laminar.bounded hhmem
      · refine Or.inl ⟨by simp [dropLeaf, hn, hleaf], fun hmem => ?_⟩
        obtain ⟨c, hc⟩ := List.exists_mem_of_ne_nil _ hleaf
        have hchild : c ∈ r.childrenOf hash := by rwa [childrenOf, node_eq hn]
        exact ⟨c, (w.children hmem c).mp hchild⟩

/-- A leaf is between no two others. -/
theorem convex_ne {r : Reachability} {hash : Hash}
    (hnone : ∀ h, r.parentOf h ≠ some hash ∨ h ∉ r.nodes) : r.Convex (· ≠ hash) := by
  rintro a b p hb - - hp - rfl
  rcases hnone b with hne | hnot
  · exact hne hp
  · exact hnot hb

theorem dropLeaf_wf {r : Reachability} (w : r.WF) (hash : Hash) : (r.dropLeaf hash).WF := by
  rcases dropLeaf_cases w hash with ⟨heq, -⟩ | ⟨-, hnone, hrestricted, -⟩
  · rw [heq]
    exact w
  · exact hrestricted.wf w (convex_ne hnone)

/-- The nodes `retain` leaves. -/
theorem node_retain (r : Reachability) {keep : Hash → Bool} {h : Hash} (hh : keep h = true) :
    (r.retain keep).node h = { r.node h with
      treeParent := (r.parentOf h).filter keep
      treeChildren := (r.childrenOf h).filter keep
      fcs := (r.fcsOf h).filter keep } := by
  rw [node, retain, ExtTreeMap.getElem?_map, ExtTreeMap.getElem?_filter']
  cases hk : r.nodes[h]? with
  | none => simp [node, hk, parentOf, childrenOf, fcsOf]
  | some k => simp [node, hk, parentOf, childrenOf, fcsOf, hh, Option.filter]

theorem fcsOf_retain (r : Reachability) {keep : Hash → Bool} {h : Hash} (hh : keep h = true) :
    (r.retain keep).fcsOf h = (r.fcsOf h).filter keep := by
  rw [fcsOf, node_retain r hh]

theorem retain_restricted (r : Reachability) (keep : Hash → Bool) :
    r.Restricted (keep · = true) (r.retain keep) := by
  have hget : ∀ h, keep h = true → _ := fun _ => node_retain r
  have hmem : ∀ h, h ∈ (r.retain keep).nodes ↔ h ∈ r.nodes ∧ keep h = true := by
    intro h
    simp [retain, ExtTreeMap.mem_filter]
  refine ⟨hmem, fun h hh p => ?_, fun h hh => ?_, fun h hh => ?_, fun h hh => ?_⟩
  · simp only [parentOf, hget h hh, Option.filter_eq_some_iff]
  · simp only [childrenOf, hget h hh]
    exact ⟨List.filter_sublist, fun c => by simp [List.mem_filter]⟩
  · simp [lo, hi, freeOf, hget h hh]
  · -- the cursor is beyond the largest end
    have hnode := node_of_mem hh
    have hin : (h, (r.retain keep).node h) ∈ (r.retain keep).nodes.toList :=
      ExtTreeMap.mem_toList_iff_getElem?_eq_some.mpr hnode
    have hend := List.mem_map_of_mem (f := fun e : Hash × ReachNode => e.2.interval.end_ + 1) hin
    have hmax : (((r.retain keep).nodes.toList.map fun e => e.2.interval.end_ + 1).max?).getD spaceStart
        = (r.retain keep).nextRootStart := rfl
    rw [← hmax, hi]
    cases hm : ((r.retain keep).nodes.toList.map fun e => e.2.interval.end_ + 1).max? with
    | none =>
        rw [List.max?_eq_none_iff] at hm
        simp [hm] at hend
    | some top =>
        have hle : ((r.retain keep).node h).interval.end_ + 1 ≤ top :=
          (List.max?_le_iff hm).mp le_rfl _ hend
        simp only [Option.getD_some]
        omega

theorem retain_top {r : Reachability} (w : r.WF) (keep : Hash → Bool)
    (htop : r.nextRootStart ≤ spaceEnd) : (r.retain keep).nextRootStart ≤ spaceEnd := by
  have g := retain_restricted r keep
  change (((r.retain keep).nodes.toList.map fun e => e.2.interval.end_ + 1).max?).getD spaceStart
    ≤ spaceEnd
  cases hm : ((r.retain keep).nodes.toList.map fun e => e.2.interval.end_ + 1).max? with
  | none => decide
  | some top =>
      -- the largest end is that of a node that was there before
      obtain ⟨⟨h, n⟩, hin, rfl⟩ := List.mem_map.mp (List.max?_mem hm)
      have hn : (r.retain keep).nodes[h]? = some n :=
        ExtTreeMap.mem_toList_iff_getElem?_eq_some.mp hin
      have hh : h ∈ (r.retain keep).nodes := by simp [ExtTreeMap.mem_iff_isSome_getElem?, hn]
      obtain ⟨hold, hk⟩ := (g.mem h).mp hh
      have hbound := w.laminar.bounded hold
      rw [← (g.labels h hk).2.1, hi, node_eq hn] at hbound
      simp only [Option.getD_some]
      omega

end Reachability

end HassanNode
