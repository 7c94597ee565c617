import Mathlib
import HassanNode.Consensus.ReachabilitySound

/-!
# HassanNode.Consensus.Covering

An index answers ancestor queries exactly (`Covers.isAncestor_iff`): a strict
DAG ancestor is an ancestor in the tree, or some entry of its covering set is.
Adding a block keeps this as long as its selected parent is indexed, and
dropping a leaf keeps it always.
-/

namespace HassanNode

open Std (ExtTreeMap ExtTreeSet)

namespace Reachability

/-- The index is exact for the ancestor relation `Anc` on its own nodes. -/
structure Covers (r : Reachability) (Anc : Hash → Hash → Prop) : Prop where
  wf : r.WF
  fcsIn : r.FcsIn
  sorted : ∀ a, Laminar.LeftToRight r.lo r.hi (r.fcsOf a)
  edge : ∀ {h p}, h ∈ r.nodes → r.parentOf h = some p → Anc p h
  sound : ∀ {a m}, m ∈ r.fcsOf a → Anc a m
  complete : ∀ {a b}, a ∈ r.nodes → b ∈ r.nodes → Anc a b →
    Above r.parentOf a b ∨ ∃ m ∈ r.fcsOf a, Above r.parentOf m b

/-- The search in a covering set finds a cover whenever there is one. -/
theorem fcsContainsCover_iff {r : Reachability} (w : r.WF) (hin : r.FcsIn) {a b : Hash}
    (hsorted : Laminar.LeftToRight r.lo r.hi (r.fcsOf a)) (hb : b ∈ r.nodes) :
    r.fcsContainsCover a (r.node b).interval = true ↔
      ∃ m ∈ r.fcsOf a, Above r.parentOf m b := by
  rw [← w.laminar.cover_iff hsorted (hin a) hb]
  have hpre : Laminar.startingBy r.lo (r.lo b) (r.fcsOf a) <+: r.fcsOf a := List.takeWhile_prefix _
  have hlast : (Laminar.startingBy r.lo (r.lo b) (r.fcsOf a)).getLast?
      = if (Laminar.startingBy r.lo (r.lo b) (r.fcsOf a)).length = 0 then none
        else (r.fcsOf a)[(Laminar.startingBy r.lo (r.lo b) (r.fcsOf a)).length - 1]? := by
    rw [List.getLast?_eq_getElem?]
    split
    · rename_i hzero
      rw [List.length_eq_zero_iff.mp hzero]
      rfl
    · rename_i hpos
      have hlt : (Laminar.startingBy r.lo (r.lo b) (r.fcsOf a)).length - 1
          < (Laminar.startingBy r.lo (r.lo b) (r.fcsOf a)).length := by omega
      rw [List.prefix_iff_getElem?.mp hpre _ hlt, List.getElem?_eq_getElem hlt]
  have hidx : partitionPoint (fun h => (r.node h).interval.start ≤ (r.node b).interval.start) (r.node a).fcs
      = (Laminar.startingBy r.lo (r.lo b) (r.fcsOf a)).length := rfl
  rw [hlast]
  unfold fcsContainsCover
  dsimp only
  rw [hidx, show (r.node a).fcs = r.fcsOf a from rfl]
  split
  · simp
  · cases (r.fcsOf a)[(Laminar.startingBy r.lo (r.lo b) (r.fcsOf a)).length - 1]? with
    | none => simp
    | some m => simp [Interval.contains, lo, hi]

namespace Covers

variable {r r' : Reachability} {Anc : Hash → Hash → Prop} {a b : Hash}

theorem isDagAncestorIncl_iff (c : r.Covers Anc) (ha : a ∈ r.nodes) (hb : b ∈ r.nodes) :
    r.isDagAncestorIncl a b = true ↔
      Above r.parentOf a b ∨ ∃ m ∈ r.fcsOf a, Above r.parentOf m b := by
  rw [isDagAncestorIncl, Bool.or_eq_true, fcsContainsCover_iff c.wf c.fcsIn (c.sorted a) hb,
    c.wf.laminar.above_iff_contains ha hb]
  refine or_congr_left ?_
  simp [isChainAncestorIncl, Interval.contains, lo, hi]

theorem anc_of_above (c : r.Covers Anc) (htrans : ∀ x y z, Anc x y → Anc y z → Anc x z)
    (hb : b ∈ r.nodes) (h : Above r.parentOf a b) : a = b ∨ Anc a b := by
  induction h with
  | refl => exact Or.inl rfl
  | @step p b hp _ ih =>
      rcases ih (c.wf.laminar.parent_mem hb hp) with rfl | hanc
      · exact Or.inr (c.edge hb hp)
      · exact Or.inr (htrans _ _ _ hanc (c.edge hb hp))

/-- **The index is exact** on the blocks it knows. -/
theorem isAncestor_iff (c : r.Covers Anc) (hirrefl : ∀ x, ¬ Anc x x)
    (htrans : ∀ x y z, Anc x y → Anc y z → Anc x z) (ha : a ∈ r.nodes) (hb : b ∈ r.nodes) :
    (a != b && r.isDagAncestorIncl a b) = true ↔ Anc a b := by
  rw [Bool.and_eq_true, bne_iff_ne, c.isDagAncestorIncl_iff ha hb]
  constructor
  · rintro ⟨hne, habove | ⟨m, hm, habove⟩⟩
    · exact (c.anc_of_above htrans hb habove).resolve_left hne
    · rcases c.anc_of_above htrans hb habove with rfl | hanc
      · exact c.sound hm
      · exact htrans _ _ _ (c.sound hm) hanc
  · intro hanc
    refine ⟨?_, c.complete ha hb hanc⟩
    rintro rfl
    exact hirrefl _ hanc

/-- Only the relation on the index's own nodes matters. -/
theorem congr {Anc' : Hash → Hash → Prop} (c : r.Covers Anc)
    (h : ∀ x y, x ∈ r.nodes → y ∈ r.nodes → (Anc x y ↔ Anc' x y)) : r.Covers Anc' where
  wf := c.wf
  fcsIn := c.fcsIn
  sorted := c.sorted
  edge hh hp := (h _ _ (c.wf.laminar.parent_mem hh hp) hh).mp (c.edge hh hp)
  sound {a m} hm := by
    refine (h a m ?_ (c.fcsIn a m hm)).mp (c.sound hm)
    by_contra ha
    simp [fcsOf_eq_nil ha] at hm
  complete ha hb hanc := c.complete ha hb ((h _ _ ha hb).mpr hanc)

end Covers

/-! ### Adding a block -/

/-- The index while `hash` is being added: exact, except that the merged blocks
in `rest` need not know about it yet. -/
structure Covering (r : Reachability) (Anc : Hash → Hash → Prop) (hash : Hash)
    (rest : List Hash) : Prop where
  wf : r.WF
  fcsIn : r.FcsIn
  sorted : ∀ a, Laminar.LeftToRight r.lo r.hi (r.fcsOf a)
  edge : ∀ {h p}, h ∈ r.nodes → r.parentOf h = some p → Anc p h
  sound : ∀ {a m}, m ∈ r.fcsOf a → Anc a m
  complete : ∀ {a b}, a ∈ r.nodes → b ∈ r.nodes → Anc a b → (b = hash → a ∉ rest) →
    Above r.parentOf a b ∨ ∃ m ∈ r.fcsOf a, Above r.parentOf m b

theorem Covering.covers {r : Reachability} {Anc : Hash → Hash → Prop} {hash : Hash}
    (c : r.Covering Anc hash []) : r.Covers Anc :=
  ⟨c.wf, c.fcsIn, c.sorted, c.edge, c.sound, fun ha hb hanc => c.complete ha hb hanc (by simp)⟩

section Add

variable {r r' : Reachability} {Anc : Hash → Hash → Prop} {hash : Hash}

/-- Tree ancestry among the old nodes is what it was. -/
theorem Placed.above_iff {parent : Option Hash} (w : r.WF) (hnew : hash ∉ r.nodes)
    (g : r.Placed hash parent r') {a b : Hash} (hb : b ∈ r.nodes) :
    Above r'.parentOf a b ↔ Above r.parentOf a b := by
  have hup : ∀ {x}, Above r.parentOf x b → x ≠ hash := by
    rintro x hx rfl
    exact hnew (w.laminar.mem_of_above hx hb)
  constructor
  · intro h
    induction h with
    | refl => exact .refl _
    | @step p b hp _ ih =>
        have hne : b ≠ hash := fun heq => hnew (heq ▸ hb)
        rw [g.parent_old b hne] at hp
        have hpmem := w.laminar.parent_mem hb hp
        exact .step hp (ih hpmem fun hx heq => hnew (heq ▸ w.laminar.mem_of_above hx hpmem))
  · intro h
    exact h.mono fun x p hx hp => (g.parent_old x (hup hx)).trans hp

/-- A new block placed where all of its past but the merged blocks is above it:
only the merged blocks miss it. -/
theorem Placed.covering {parent : Option Hash} {mergeset : List Hash} (c : r.Covers Anc)
    (hnew : hash ∉ r.nodes) (g : r.Placed hash parent r')
    (hparent : ∀ p, parent = some p → p ∈ r.nodes ∧ Anc p hash)
    (hanc : ∀ a ∈ r.nodes, Anc a hash →
      (∃ p, parent = some p ∧ (a = p ∨ Anc a p)) ∨ a ∈ mergeset)
    (hlast : ∀ b, ¬ Anc hash b) : r'.Covering Anc hash mergeset := by
  have hfcsIn : r'.FcsIn := by
    intro a m hm
    by_cases ha : a = hash
    · subst ha
      simp [g.fcs_new] at hm
    · exact (g.mem m).mpr (Or.inr (c.fcsIn a m ((g.fcs_old a ha).mem_iff.mp hm)))
  have hold : ∀ {a m}, m ∈ r'.fcsOf a → a ≠ hash ∧ m ∈ r.fcsOf a := by
    intro a m hm
    have ha : a ≠ hash := by
      rintro rfl
      simp [g.fcs_new] at hm
    exact ⟨ha, (g.fcs_old a ha).mem_iff.mp hm⟩
  refine ⟨g.wf, hfcsIn, fun a => ?_, fun {h p} hh hp => ?_, fun {a m} hm => c.sound (hold hm).2,
    fun {a b} ha hb hab hrest => ?_⟩
  · by_cases ha : a = hash
    · subst ha
      rw [g.fcs_new]
      exact .nil
    · have hsorted : r'.FcsSorted := g.sorted c.fcsIn fun a => (c.sorted a).imp_of_mem
        fun {m m'} hm _ hlt => by
          have := c.wf.laminar.le (c.fcsIn a m hm)
          omega
      -- entries of one covering set are on different branches, whatever the labels
      have hdiff : (r.fcsOf a).Pairwise fun m m' =>
          ¬ Above r'.parentOf m m' ∧ ¬ Above r'.parentOf m' m := by
        refine (c.sorted a).imp_of_mem fun {m m'} hm hm' hlt => ?_
        rw [g.above_iff c.wf hnew (c.fcsIn a m hm), g.above_iff c.wf hnew (c.fcsIn a m' hm')]
        exact c.wf.laminar.incomparable_of_lt (c.fcsIn a m hm) (c.fcsIn a m' hm') hlt
      have hdiff' := ((g.fcs_old a ha).pairwise_iff fun h => ⟨h.2, h.1⟩).mpr hdiff
      refine Laminar.leftToRight_of_sorted (hsorted a)
        (fun m hm => g.wf.laminar.le (hfcsIn a m hm)) ?_
      exact hdiff'.imp_of_mem fun {m m'} hm hm' h =>
        g.wf.laminar.apart_of_incomparable (hfcsIn a m hm) (hfcsIn a m' hm') h.1 h.2
  · rcases (g.mem h).mp hh with rfl | hh
    · rw [g.parent_new] at hp
      exact (hparent p hp).2
    · rw [g.parent_old h fun heq => hnew (heq ▸ hh)] at hp
      exact c.edge hh hp
  · have ha' : a ∈ r.nodes := by
      rcases (g.mem a).mp ha with rfl | ha
      · exact absurd hab (hlast b)
      · exact ha
    have hane : a ≠ hash := fun heq => hnew (heq ▸ ha')
    -- an answer for an old block carries over
    have hcarry : ∀ {b}, b ∈ r.nodes → Anc a b →
        Above r'.parentOf a b ∨ ∃ m ∈ r'.fcsOf a, Above r'.parentOf m b := by
      intro b hb hab
      rcases c.complete ha' hb hab with habove | ⟨m, hm, habove⟩
      · exact Or.inl ((g.above_iff c.wf hnew hb).mpr habove)
      · exact Or.inr ⟨m, (g.fcs_old a hane).mem_iff.mpr hm, (g.above_iff c.wf hnew hb).mpr habove⟩
    rcases (g.mem b).mp hb with rfl | hb
    · rcases hanc a ha' hab with ⟨p, hp, rfl | hasp⟩ | hmerged
      · exact Or.inl (.step (g.parent_new.trans hp) (.refl a))
      · rcases hcarry (hparent p hp).1 hasp with habove | ⟨m, hm, habove⟩
        · exact Or.inl (.step (g.parent_new.trans hp) habove)
        · exact Or.inr ⟨m, hm, .step (g.parent_new.trans hp) habove⟩
      · exact absurd hmerged (hrest rfl)
    · exact hcarry hb hab

/-- One step of the covering-set loop. -/
theorem Covering.insertToFcs {m : Hash} {rest : List Hash} (c : r.Covering Anc hash (m :: rest))
    (hhash : hash ∈ r.nodes) (hleaf : ∀ h ∈ r.nodes, r.parentOf h ≠ some hash)
    (hm : m ∈ r.nodes) (hanc : Anc m hash) :
    (r.insertToFcs m hash).Covering Anc hash rest := by
  by_cases hcover : r.fcsContainsCover m (r.node hash).interval = true
  · -- an older entry already leads to the new block
    have heq : r.insertToFcs m hash = r := by simp [Reachability.insertToFcs, hcover]
    rw [heq]
    refine ⟨c.wf, c.fcsIn, c.sorted, c.edge, c.sound, fun {a b} ha hb hab hrest => ?_⟩
    by_cases hpair : b = hash ∧ a = m
    · obtain ⟨rfl, rfl⟩ := hpair
      exact Or.inr ((fcsContainsCover_iff c.wf c.fcsIn (c.sorted a) hb).mp hcover)
    · refine c.complete ha hb hab fun hbh => ?_
      rw [List.mem_cons, not_or]
      exact ⟨fun ham => hpair ⟨hbh, ham⟩, hrest hbh⟩
  · have hnone : ∀ x ∈ r.fcsOf m, ¬ Above r.parentOf x hash := by
      intro x hx habove
      exact hcover ((fcsContainsCover_iff c.wf c.fcsIn (c.sorted m) hhash).mpr ⟨x, hx, habove⟩)
    have hbelow : ∀ x ∈ r.fcsOf m, ¬ Above r.parentOf hash x := by
      intro x hx habove
      rcases habove.split with rfl | ⟨k, hk, hkx⟩
      · exact hnone hash hx (.refl hash)
      · exact hleaf k (c.wf.laminar.mem_of_above hkx (c.fcsIn m x hx)) hk
    let fcs := Laminar.startingBy r.lo (r.lo hash) (r.fcsOf m)
      ++ hash :: (r.fcsOf m).drop (Laminar.startingBy r.lo (r.lo hash) (r.fcsOf m)).length
    have heq : r.insertToFcs m hash
        = { r with nodes := r.nodes.insert m { r.node m with fcs := fcs } } := by
      have htake : (r.fcsOf m).take (Laminar.startingBy r.lo (r.lo hash) (r.fcsOf m)).length
          = Laminar.startingBy r.lo (r.lo hash) (r.fcsOf m) :=
        (List.prefix_iff_eq_take.mp (List.takeWhile_prefix _)).symm
      rw [Reachability.insertToFcs]
      dsimp only
      rw [if_neg hcover]
      change ({ r with nodes := r.nodes.insert m { r.node m with
        fcs := (r.fcsOf m).take (Laminar.startingBy r.lo (r.lo hash) (r.fcsOf m)).length
          ++ hash :: (r.fcsOf m).drop (Laminar.startingBy r.lo (r.lo hash) (r.fcsOf m)).length } } :
        Reachability) = _
      rw [htake]
    have hshape := sameShape_setFcs hm fcs
    rw [heq]
    generalize hr' : ({ r with nodes := r.nodes.insert m { r.node m with fcs := fcs } } :
      Reachability) = r' at hshape
    have hfcs : ∀ a, r'.fcsOf a = if m = a then fcs else r.fcsOf a := by
      intro a
      rw [← hr', fcsOf, node_insert]
      split <;> rfl
    have hmem : ∀ x, x ∈ fcs ↔ x = hash ∨ x ∈ r.fcsOf m := by
      intro x
      have hsplit : r.fcsOf m = Laminar.startingBy r.lo (r.lo hash) (r.fcsOf m)
          ++ (r.fcsOf m).drop (Laminar.startingBy r.lo (r.lo hash) (r.fcsOf m)).length :=
        (List.prefix_iff_eq_append.mp (List.takeWhile_prefix _)).symm
      conv_rhs => rw [hsplit]
      simp only [fcs, List.mem_append, List.mem_cons]
      tauto
    have hgrow : ∀ {a x}, x ∈ r.fcsOf a → x ∈ r'.fcsOf a := by
      intro a x hx
      rw [hfcs a]
      split
      · rename_i hma
        exact (hmem x).mpr (Or.inr (hma ▸ hx))
      · exact hx
    have hparent : r'.parentOf = r.parentOf := funext hshape.tree.parent
    have hlo : r'.lo = r.lo := funext fun h => (hshape.labels h).1
    have hhi : r'.hi = r.hi := funext fun h => (hshape.labels h).2.1
    refine ⟨hshape.wf c.wf, fun a x hx => ?_, fun a => ?_, fun {h p} hh hp => ?_, fun {a x} hx => ?_,
      fun {a b} ha hb hab hrest => ?_⟩
    · rw [hshape.tree.mem]
      rw [hfcs a] at hx
      split at hx
      · rcases (hmem x).mp hx with rfl | hx
        · exact hhash
        · exact c.fcsIn m x hx
      · exact c.fcsIn a x hx
    · rw [hlo, hhi, hfcs a]
      split
      · refine Laminar.leftToRight_insert (c.sorted m) (fun x hx => c.wf.laminar.le (c.fcsIn m x hx))
          (c.wf.laminar.le hhash) fun x hx => ?_
        exact c.wf.laminar.apart_of_incomparable (c.fcsIn m x hx) hhash (hnone x hx) (hbelow x hx)
      · exact c.sorted a
    · exact c.edge ((hshape.tree.mem h).mp hh) (hparent ▸ hp)
    · rw [hfcs a] at hx
      split at hx
      · rename_i hma
        subst hma
        rcases (hmem x).mp hx with rfl | hx
        · exact hanc
        · exact c.sound hx
      · exact c.sound hx
    · rw [hshape.tree.mem] at ha hb
      rw [hparent]
      by_cases hpair : b = hash ∧ a = m
      · obtain ⟨rfl, rfl⟩ := hpair
        refine Or.inr ⟨b, ?_, .refl b⟩
        rw [hfcs a, if_pos rfl]
        exact (hmem b).mpr (Or.inl rfl)
      · have hold := c.complete ha hb hab fun hbh => by
          rw [List.mem_cons, not_or]
          exact ⟨fun ham => hpair ⟨hbh, ham⟩, hrest hbh⟩
        exact hold.imp id fun h => h.imp fun x hx => ⟨hgrow hx.1, hx.2⟩

/-- The whole covering-set loop. -/
theorem Covering.insertToFcsAll {mergeset : List Hash} (c : r.Covering Anc hash mergeset)
    (hhash : hash ∈ r.nodes) (hleaf : ∀ h ∈ r.nodes, r.parentOf h ≠ some hash)
    (hmerged : ∀ m ∈ mergeset, m ≠ hash → m ∈ r.nodes → Anc m hash) (hirrefl : ∀ x, ¬ Anc x x) :
    (r.insertToFcsAll hash mergeset).Covers Anc := by
  induction mergeset generalizing r with
  | nil => exact c.covers
  | cons m mergeset ih =>
      have hrest := fun k hk => hmerged k (List.mem_cons_of_mem m hk)
      rw [Reachability.insertToFcsAll, List.foldl_cons]
      split
      · rename_i hm
        have hmmem : m ∈ r.nodes := by simpa using hm.2
        have hshape := insertToFcs_shape hmmem hash
        refine ih (c.insertToFcs hhash hleaf hmmem (hmerged m (by simp) hm.1 hmmem))
          ((hshape.tree.mem hash).mpr hhash) (fun h hh => ?_)
          fun k hk hne hkmem => hrest k hk hne ((hshape.tree.mem k).mp hkmem)
        rw [hshape.tree.parent]
        exact hleaf h ((hshape.tree.mem h).mp hh)
      · rename_i hm
        refine ih ⟨c.wf, c.fcsIn, c.sorted, c.edge, c.sound, fun {a b} ha hb hab hnot => ?_⟩ hhash
          hleaf hrest
        refine c.complete ha hb hab fun hbh => ?_
        rw [List.mem_cons, not_or]
        refine ⟨?_, hnot hbh⟩
        -- a merged block that is not indexed is asked about nowhere
        rintro rfl
        refine hm ⟨?_, by simpa using ha⟩
        rintro rfl
        exact hirrefl _ (hbh ▸ hab)

/-- **Adding a block keeps the index exact** when its past, as far as it is
indexed, is its tree parent with its past, and the merged blocks. -/
theorem Covers.addBlock {sp : Option Hash} {mergeset : List Hash} {iter : List Hash → List Hash}
    (c : r.Covers Anc) (hnew : hash ∉ r.nodes) (hiter : ∀ xs, (iter xs).Perm xs)
    (hparent : ∀ p, r.treeParentOf sp = some p → Anc p hash)
    (hanc : ∀ a ∈ r.nodes, Anc a hash →
      (∃ p, r.treeParentOf sp = some p ∧ (a = p ∨ Anc a p)) ∨ a ∈ mergeset)
    (hmerged : ∀ m ∈ mergeset, m ∈ r.nodes → Anc m hash) (hlast : ∀ b, ¬ Anc hash b)
    (hirrefl : ∀ x, ¬ Anc x x) : (r.addBlock iter hash sp mergeset).Covers Anc := by
  have hcontains : ¬ r.nodes.contains hash = true := by simpa using hnew
  have g := place_spec c.wf hnew hiter sp
  have hin : ∀ p, r.treeParentOf sp = some p → p ∈ r.nodes ∧ Anc p hash := by
    intro p hp
    exact ⟨by simpa using (Option.filter_eq_some_iff.mp hp).2, hparent p hp⟩
  have hcovering := g.covering c hnew hin hanc hlast
  have hself : hash ∈ (r.place iter hash sp).nodes := (g.mem hash).mpr (Or.inl rfl)
  rw [Reachability.addBlock, if_neg hcontains]
  refine hcovering.insertToFcsAll hself (fun h hh hp => hlast h (hcovering.edge hh hp)) ?_ hirrefl
  intro m hm hne hmem
  exact hmerged m hm (((g.mem m).mp hmem).resolve_left hne)

end Add

/-! ### Removal -/

/-- Part of an exact index is exact again when nothing that leads from one kept
block to another is removed. -/
theorem Covers.restrict {r r' : Reachability} {Anc : Hash → Hash → Prop} {keep : Hash → Prop}
    (c : r.Covers Anc) (g : r.Restricted keep r') (hconvex : r.Convex keep)
    (hfcs : ∀ h, keep h → ∀ m, m ∈ r'.fcsOf h ↔ m ∈ r.fcsOf h ∧ keep m)
    (hsub : ∀ h, keep h → (r'.fcsOf h).Sublist (r.fcsOf h))
    (hcover : ∀ {a b m}, keep a → b ∈ r.nodes → keep b → m ∈ r.fcsOf a →
      Above r.parentOf m b → keep m) : r'.Covers Anc := by
  have hkept : ∀ {a m}, m ∈ r'.fcsOf a → keep a ∧ m ∈ r.fcsOf a ∧ keep m := by
    intro a m hm
    have ha : keep a := by
      by_contra ha
      have hgone : a ∉ r'.nodes := fun h => ha ((g.mem a).mp h).2
      simp [fcsOf_eq_nil hgone] at hm
    exact ⟨ha, (hfcs a ha m).mp hm⟩
  refine ⟨g.wf c.wf hconvex, fun a m hm => ?_, fun a => ?_, fun {h p} hh hp => ?_,
    fun {a m} hm => c.sound (hkept hm).2.1, fun {a b} ha hb hab => ?_⟩
  · obtain ⟨-, hm, hkm⟩ := hkept hm
    exact (g.mem m).mpr ⟨c.fcsIn a m hm, hkm⟩
  · by_cases ha : keep a
    · refine ((c.sorted a).sublist (hsub a ha)).imp_of_mem fun {m m'} hm hm' hlt => ?_
      rwa [(g.labels m (hkept hm).2.2).2.1, (g.labels m' (hkept hm').2.2).1]
    · have hgone : a ∉ r'.nodes := fun h => ha ((g.mem a).mp h).2
      rw [fcsOf_eq_nil hgone]
      exact .nil
  · obtain ⟨hh, hk⟩ := (g.mem h).mp hh
    exact c.edge hh ((g.parent h hk p).mp hp).1
  · obtain ⟨ha, hka⟩ := (g.mem a).mp ha
    obtain ⟨hb, hkb⟩ := (g.mem b).mp hb
    rcases c.complete ha hb hab with habove | ⟨m, hm, habove⟩
    · exact Or.inl ((g.above_iff c.wf hconvex hka hb hkb).mpr habove)
    · have hkm := hcover hka hb hkb hm habove
      exact Or.inr ⟨m, (hfcs a hka m).mpr ⟨hm, hkm⟩, (g.above_iff c.wf hconvex hkm hb hkb).mpr habove⟩

theorem Covers.dropLeaf {r : Reachability} {Anc : Hash → Hash → Prop} (c : r.Covers Anc)
    (hash : Hash) : (r.dropLeaf hash).Covers Anc := by
  rcases dropLeaf_cases c.wf hash with ⟨heq, -⟩ | ⟨hmem, hnone, g, hfcs⟩
  · rw [heq]
    exact c
  · refine c.restrict g (convex_ne hnone) (fun h hh m => ?_) (fun h hh => ?_) ?_
    · simp [hfcs h hh, List.mem_filter]
    · rw [hfcs h hh]
      exact List.filter_sublist
    · -- only the leaf itself has the leaf above it
      rintro a b m - hb hbne - habove rfl
      rcases habove.split with rfl | ⟨k, hk, hkb⟩
      · exact hbne rfl
      · rcases hnone k with hne | hnot
        · exact hne hk
        · exact hnot (c.wf.laminar.mem_of_above hkb hb)

/-- `retain` keeps an index exact when every indexed descendant of a kept block
is kept. -/
theorem Covers.retain {r : Reachability} {Anc : Hash → Hash → Prop} {keep : Hash → Bool}
    (c : r.Covers Anc) (htrans : ∀ x y z, Anc x y → Anc y z → Anc x z)
    (hclosed : ∀ a b, a ∈ r.nodes → keep a = true → b ∈ r.nodes → Anc a b → keep b = true) :
    (r.retain keep).Covers Anc := by
  have hkeep : ∀ {a b}, a ∈ r.nodes → keep a = true → b ∈ r.nodes → Above r.parentOf a b →
      keep b = true := by
    intro a b ha hka hb habove
    rcases c.anc_of_above htrans hb habove with rfl | hanc
    · exact hka
    · exact hclosed a b ha hka hb hanc
  refine c.restrict (retain_restricted r keep) (fun a b p hb hka _ hp hap => ?_) (fun h hh m => ?_)
    (fun h hh => ?_) fun {a b m} hka _ _ hm _ => ?_
  · have hpmem := c.wf.laminar.parent_mem hb hp
    exact hkeep (c.wf.laminar.mem_of_above hap hpmem) hka hpmem hap
  · simp [fcsOf_retain r hh, List.mem_filter]
  · rw [fcsOf_retain r hh]
    exact List.filter_sublist
  · have ha : a ∈ r.nodes := by
      by_contra ha
      simp [fcsOf_eq_nil ha] at hm
    exact hclosed a m ha hka (c.fcsIn a m hm) (c.sound hm)

end Reachability

end HassanNode
