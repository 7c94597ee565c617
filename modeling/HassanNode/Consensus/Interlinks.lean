import Mathlib
import HassanNode.Consensus.ArchivalRuns

/-!
# HassanNode.Consensus.Interlinks

What the interlinks of an accepted block mean. A block is only checked against
the vector of its selected parent; along the whole chain this makes slot `L` the
nearest strict ancestor of level `L` or more, which is what the jumps of a
multi-level pruning proof go by.
-/

namespace HassanNode

/-! ### One update of the vector -/

section Update

variable [Crypto]

/-- The level a block reached. -/
def Block.level (b : Block) : Nat := superblockLevel b.hash b.difficulty

/-- A child points at the parent up to the parent's level, and where the parent
points above it. -/
theorem getElem?_computeInterlinks (parent : Block) (i : Nat) :
    (computeInterlinks parent)[i]?
      = if i ≤ parent.level then some parent.hash else parent.interlinks[i]? := by
  have hmap : (computeInterlinks parent)[i]?
      = (List.range (max parent.interlinks.length (parent.level + 1)))[i]?.map fun j =>
        if j ≤ parent.level then parent.hash else parent.interlinks.getD j Hash.zero :=
    List.getElem?_map
  rw [hmap]
  by_cases hle : i ≤ parent.level
  · rw [List.getElem?_range (by omega), Option.map_some, if_pos hle, if_pos hle]
  · rw [if_neg hle]
    by_cases hi : i < parent.interlinks.length
    · rw [List.getElem?_range (by omega), Option.map_some, if_neg hle, List.getElem?_eq_getElem hi,
        List.getD_eq_getElem _ _ hi]
    · rw [List.getElem?_eq_none (by rw [List.length_range]; omega), Option.map_none,
        List.getElem?_eq_none (by omega)]

/-- The pointers to the nearest block of each level, nearest first. -/
def PointsAt (links : List Hash) (ancestors : List Block) : Prop :=
  ∀ i, links[i]? = (ancestors.find? fun a => decide (i ≤ a.level)).map (·.hash)

theorem PointsAt.nil : PointsAt [] [] := fun _ => by simp

theorem PointsAt.child {parent : Block} {ancestors : List Block}
    (h : PointsAt parent.interlinks ancestors) :
    PointsAt (computeInterlinks parent) (parent :: ancestors) := by
  intro i
  rw [getElem?_computeInterlinks, List.find?_cons]
  by_cases hle : i ≤ parent.level
  · simp [hle]
  · simp [hle, h i]

/-- The pointers reach as high as the highest ancestor. -/
theorem PointsAt.length {links : List Hash} {ancestors : List Block} (h : PointsAt links ancestors)
    (hne : ancestors ≠ []) : links.length = 1 + ((ancestors.map Block.level).max?).getD 0 := by
  obtain ⟨m, hm⟩ : ∃ m, (ancestors.map Block.level).max? = some m :=
    Option.isSome_iff_exists.mp (by rw [List.isSome_max?_iff]; simpa using hne)
  obtain ⟨hmem, hmax⟩ := List.max?_eq_some_iff.mp hm
  obtain ⟨top, htop, rfl⟩ := List.mem_map.mp hmem
  rw [hm, Option.getD_some]
  -- a slot is there exactly up to the highest level
  have hsome : ∀ i, i < links.length ↔ i ≤ top.level := by
    intro i
    have hiff : i < links.length ↔ links[i]?.isSome = true := by simp
    rw [hiff, h i, Option.isSome_map, List.find?_isSome]
    constructor
    · rintro ⟨a, ha, hle⟩
      exact (of_decide_eq_true hle).trans (hmax _ (List.mem_map_of_mem ha))
    · intro hle
      exact ⟨top, htop, decide_eq_true hle⟩
  have hlast := hsome top.level
  have hover := hsome (top.level + 1)
  omega

end Update

/-! ### Along the selected chain -/

namespace ChainState

/-- The strict ancestors of a block on its selected chain, nearest first. -/
def chainAncestors (st : ChainState) (h : Hash) : List Block :=
  (st.ghostdag.selectedChain h).dropLast.reverse.filterMap (st.dag[·]?)

variable [Crypto] {st : ChainState} {seed : Ledger}

omit [Crypto] in
theorem chainAncestors_root {h : Hash} (hsp : st.ghostdag.spOf h = none) : st.chainAncestors h = [] := by
  simp [chainAncestors, GhostdagMap.selectedChain_root hsp]

/-- Backwards the chain starts with the block itself. -/
theorem reverse_selectedChain (inv : DagInv st.dag st.ghostdag) (h : Hash) :
    (st.ghostdag.selectedChain h).reverse = h :: (st.ghostdag.selectedChain h).dropLast.reverse := by
  cases hsp : st.ghostdag.spOf h with
  | none => simp [GhostdagMap.selectedChain_root hsp]
  | some p => simp [GhostdagMap.selectedChain_step inv.descends hsp]

theorem chainAncestors_step (inv : DagInv st.dag st.ghostdag) {h p : Hash} {c : Block}
    (hsp : st.ghostdag.spOf h = some p) (hc : st.dag[p]? = some c) :
    st.chainAncestors h = c :: st.chainAncestors p := by
  rw [chainAncestors, GhostdagMap.selectedChain_step inv.descends hsp, List.dropLast_concat,
    reverse_selectedChain inv, List.filterMap_cons, hc]
  rfl

/-- A block was checked against the interlinks of its selected parent. -/
theorem Admitted.interlinks {env : Env} {block : Block} {gd : GhostdagData} {sp : Hash}
    (a : st.Admitted env block gd sp) :
    block.interlinks = (st.dag[sp]?.map computeInterlinks).getD [] := by
  obtain ⟨hlinks, -⟩ := Except.seq_eq_ok a.header
  exact beq_iff_eq.mp (ensure_eq_ok.mp hlinks)

/-- The interlinks of a block are those its selected parent gives it. -/
def LinkedAt (st : ChainState) (h : Hash) (b : Block) : Prop :=
  ∃ p c, st.ghostdag.spOf h = some p ∧ st.dag[p]? = some c ∧ b.interlinks = computeInterlinks c

theorem linkedAt_run (easy : Bool) (seed : Ledger) (calls : List (Env × Block)) {h : Hash} {b : Block}
    (hb : ((ChainState.seeded easy true seed).run calls).dag[h]? = some b)
    (hne : h ≠ genesisBlock.hash) : ((ChainState.seeded easy true seed).run calls).LinkedAt h b := by
  refine Archival.each_block (P := fun _ _ => True) easy seed ?_ ?_ (fun _ _ _ => trivial) hb hne
  · intro calls env block gd sp _ _ _ a
    have hmem := a.parents_mem sp a.isBest.mem
    obtain ⟨c, hc⟩ := DagInv.exists_block hmem
    refine ⟨sp, c, spOf_insertBlock a, ((extends_insertBlock a).dag sp hmem).trans hc, ?_⟩
    rw [a.interlinks, hc]
    rfl
  · intro s s' h b w he hb hlinked
    obtain ⟨p, c, hsp, hc, hlinks⟩ := hlinked
    have hh := DagInv.mem_of_getElem? hb
    exact ⟨p, c, (he.spOf hh).trans hsp, (he.dag p (w.dagInv.spOf_mem hsp).2).trans hc, hlinks⟩

/-- Every ancestor of a block is there, on an archival node. -/
theorem map_hash_chainAncestors (inv : DagInv st.dag st.ghostdag) {h : Hash} (hh : h ∈ st.dag) :
    (st.chainAncestors h).map (·.hash) = (st.ghostdag.selectedChain h).dropLast.reverse := by
  induction h using GhostdagMap.chain_induction inv.descends with
  | root h hsp => simp [chainAncestors_root hsp, GhostdagMap.selectedChain_root hsp]
  | step h p hsp ih =>
      have hp := (inv.spOf_mem hsp).2
      obtain ⟨c, hc⟩ := DagInv.exists_block hp
      rw [chainAncestors_step inv hsp hc, GhostdagMap.selectedChain_step inv.descends hsp,
        List.dropLast_concat, List.map_cons, ih hp, inv.keyed hc, reverse_selectedChain inv]

/-- Along the chain the checks add up: every block points at the nearest
ancestor of each level. -/
theorem pointsAt_run (easy : Bool) (seed : Ledger) (calls : List (Env × Block)) {h : Hash} {b : Block}
    (hb : ((ChainState.seeded easy true seed).run calls).dag[h]? = some b) :
    PointsAt b.interlinks (((ChainState.seeded easy true seed).run calls).chainAncestors h) := by
  have w := (Archival.run easy seed calls).whole
  obtain ⟨hgenesis, hroot⟩ := archival_genesis easy seed calls
  have hlinked := fun {h b} hb hne => linkedAt_run easy seed calls (h := h) (b := b) hb hne
  generalize (ChainState.seeded easy true seed).run calls = st at *
  induction h using GhostdagMap.chain_induction w.dagInv.descends generalizing b with
  | root h hsp =>
      obtain rfl := w.roots h (DagInv.mem_of_getElem? hb) hsp
      obtain rfl := Option.some.inj (hgenesis.symm.trans hb)
      rw [chainAncestors_root hsp]
      exact PointsAt.nil
  | step h p hsp ih =>
      have hne : h ≠ genesisBlock.hash := by
        rintro rfl
        simp [GhostdagMap.spOf, hroot, GhostdagData.genesis] at hsp
      obtain ⟨p', c, hsp', hc, hlinks⟩ := hlinked hb hne
      obtain rfl := Option.some.inj (hsp.symm.trans hsp')
      rw [hlinks, chainAncestors_step w.dagInv hsp hc]
      exact (ih hc).child

/-- **Interlinks.** Slot `i` of a block points at its nearest strict ancestor of
level `i` or more on the selected chain, up to the highest level there. -/
theorem archival_interlinks (easy : Bool) (seed : Ledger) (calls : List (Env × Block)) (h : Hash)
    (b : Block) (hb : ((ChainState.seeded easy true seed).run calls).dag[h]? = some b)
    (hne : h ≠ genesisBlock.hash) :
    let st := (ChainState.seeded easy true seed).run calls
    (st.chainAncestors h).map (·.hash) = (st.ghostdag.selectedChain h).dropLast.reverse ∧
      b.interlinks.length = 1 + (((st.chainAncestors h).map Block.level).max?).getD 0 ∧
      ∀ i, i < b.interlinks.length → ∃ a,
        (st.chainAncestors h).find? (fun a => decide (i ≤ a.level)) = some a ∧
          b.interlinks[i]? = some a.hash := by
  have w := (Archival.run easy seed calls).whole
  have hpoints := pointsAt_run easy seed calls hb
  obtain ⟨p, c, hsp, hc, -⟩ := linkedAt_run easy seed calls hb hne
  have hcons := chainAncestors_step w.dagInv hsp hc
  refine ⟨map_hash_chainAncestors w.dagInv (DagInv.mem_of_getElem? hb),
    hpoints.length (by rw [hcons]; simp), fun i hi => ?_⟩
  have hslot := hpoints i
  rw [List.getElem?_eq_getElem hi] at hslot
  obtain ⟨a, ha, hhash⟩ := Option.map_eq_some_iff.mp hslot.symm
  exact ⟨a, ha, by rw [List.getElem?_eq_getElem hi, hhash]⟩

end ChainState

namespace Sample

/-- The interlinks of the last block of a chain of three. -/
theorem interlinks_third : ∃ (calls : List (Env × Block)) (b : Block),
    let st := (ChainState.seeded false true {}).run calls
    st.dag[blockHash 3 0]? = some b ∧ blockHash 3 0 ≠ genesisBlock.hash ∧
      b.interlinks.length = 1 + (((st.chainAncestors (blockHash 3 0)).map Block.level).max?).getD 0 := by
  obtain ⟨calls, hcalls⟩ := built_run true (chain 3)
  have f : Followed true (chain 3) ((ChainState.seeded false true {}).run calls) :=
    hcalls ▸ followed_chain true (by decide)
  obtain ⟨b, hb⟩ := DagInv.exists_block (f.mem (i := 3) (by decide))
  have hne : blockHash 3 0 ≠ genesisBlock.hash := by
    rw [genesis_hash]
    exact blockHash_ne (by decide) (by decide) (by decide)
  exact ⟨calls, b, hb, hne, (ChainState.archival_interlinks false {} calls _ b hb hne).2.1⟩

end Sample

end HassanNode
