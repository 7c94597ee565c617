import Mathlib
import HassanNode.Ledger.ReplaySound
import HassanNode.Consensus.AddBlock
import HassanNode.Consensus.DagInv

/-!
# HassanNode.Consensus.Order

The canonical order of a DAG with all its history: the order of a block is the
order of its selected parent, then its mergeset, then the block
(`canonicalOrderAt_step`). So the order at a block enumerates its past, each
block once, and the order at any chain block is a prefix. The two replays of the
node, on its own state and in a throwaway one, are both `Ledger.replay` over it.
-/

namespace HassanNode

open Std (ExtTreeMap ExtTreeSet)
open Params

namespace ChainState

/-! ### Emitting blocks once -/

theorem prefix_emit (order : List Hash) (h : Hash) : order <+: emit order h := by
  unfold emit
  split
  · exact List.prefix_rfl
  · exact List.prefix_append _ _

theorem mem_emit {order : List Hash} {h x : Hash} : x ∈ emit order h ↔ x ∈ order ∨ x = h := by
  unfold emit
  split
  · rename_i hmem
    have hmem : h ∈ order := by simpa using hmem
    exact ⟨Or.inl, fun hor => hor.elim id fun heq => heq ▸ hmem⟩
  · simp

theorem nodup_emit {order : List Hash} (hnodup : order.Nodup) (h : Hash) : (emit order h).Nodup := by
  unfold emit
  split
  · exact hnodup
  · rename_i hmem
    have hmem : h ∉ order := by simpa using hmem
    exact List.Nodup.append hnodup (List.nodup_singleton h) (by simpa using hmem)

theorem emit_of_notMem {order : List Hash} {h : Hash} (hmem : h ∉ order) :
    emit order h = order ++ [h] := by
  simp [emit, hmem]

theorem mem_foldl_emit {hs order : List Hash} {x : Hash} :
    x ∈ hs.foldl emit order ↔ x ∈ order ∨ x ∈ hs := by
  induction hs generalizing order with
  | nil => simp
  | cons h hs ih =>
      rw [List.foldl_cons, ih, mem_emit, List.mem_cons, or_assoc]

theorem nodup_foldl_emit {hs order : List Hash} (hnodup : order.Nodup) :
    (hs.foldl emit order).Nodup := by
  induction hs generalizing order with
  | nil => exact hnodup
  | cons h hs ih => exact ih (nodup_emit hnodup h)

theorem prefix_foldl_emit (hs order : List Hash) : order <+: hs.foldl emit order := by
  induction hs generalizing order with
  | nil => exact List.prefix_rfl
  | cons h hs ih => exact (prefix_emit order h).trans (ih _)

/-- Distinct new blocks are simply appended. -/
theorem foldl_emit_eq {hs order : List Hash} (hnodup : hs.Nodup) (hnew : ∀ x ∈ hs, x ∉ order) :
    hs.foldl emit order = order ++ hs := by
  induction hs generalizing order with
  | nil => simp
  | cons h hs ih =>
      obtain ⟨hh, hnodup⟩ := List.nodup_cons.mp hnodup
      rw [List.foldl_cons, emit_of_notMem (hnew h (by simp)), ih hnodup, List.append_assoc,
        List.singleton_append]
      intro x hx hmem
      rcases List.mem_append.mp hmem with hmem | hmem
      · exact hnew x (List.mem_cons_of_mem h hx) hmem
      · exact hh (List.mem_singleton.mp hmem ▸ hx)

/-- A chain block with its mergeset. -/
def emitBlock (st : ChainState) (order : List Hash) (h : Hash) : List Hash :=
  emit ((st.mergedIn h).foldl emit order) h

theorem nodup_foldl_emitBlock {st : ChainState} {chain order : List Hash} (hnodup : order.Nodup) :
    (chain.foldl st.emitBlock order).Nodup := by
  induction chain generalizing order with
  | nil => exact hnodup
  | cons h chain ih => exact ih (nodup_emit (nodup_foldl_emit hnodup) h)

theorem mem_foldl_emitBlock {st : ChainState} {chain order : List Hash} {x : Hash} :
    x ∈ chain.foldl st.emitBlock order ↔
      x ∈ order ∨ ∃ c ∈ chain, x = c ∨ x ∈ st.mergedIn c := by
  induction chain generalizing order with
  | nil => simp
  | cons h chain ih =>
      rw [List.foldl_cons, ih, emitBlock, mem_emit, mem_foldl_emit, List.exists_mem_cons_iff,
        or_assoc, or_assoc, or_assoc, or_left_comm (a := x ∈ st.mergedIn h)]

/-- The canonical order lists no block twice, on any node. -/
theorem nodup_canonicalOrderAt (st : ChainState) (tip : Hash) : (st.canonicalOrderAt tip).Nodup := by
  unfold canonicalOrderAt
  split
  · exact List.nodup_nil
  · exact nodup_foldl_emitBlock List.nodup_nil

theorem canonicalOrderAt_eq {st : ChainState} {tip : Hash} (htip : tip ∈ st.ghostdag) :
    st.canonicalOrderAt tip = (st.ghostdag.selectedChain tip).foldl st.emitBlock [] := by
  have : st.ghostdag.contains tip = true := by simpa using htip
  simp only [canonicalOrderAt, this]
  rfl

/-! ### Replays -/

section Replay

variable [Crypto]

/-- Blocks are stored under their hash, and have GHOSTDAG data. -/
structure Keyed (st : ChainState) : Prop where
  hash : ∀ {h : Hash} {b : Block}, st.dag[h]? = some b → b.hash = h
  known : ∀ h, h ∈ st.ghostdag ↔ h ∈ st.dag

omit [Crypto] in
/-- The blocks of a list of hashes, with their scores. -/
def blocksAt (st : ChainState) (hs : List Hash) : List (Block × Nat) :=
  hs.filterMap fun h => st.dag[h]?.map fun b => (b, st.ghostdag.scoreOf h)

omit [Crypto] in
theorem blocksAt_append (st : ChainState) (hs hs' : List Hash) :
    st.blocksAt (hs ++ hs') = st.blocksAt hs ++ st.blocksAt hs' := List.filterMap_append

omit [Crypto] in
theorem mem_blocksAt {st : ChainState} {hs : List Hash} {p : Block × Nat} :
    p ∈ st.blocksAt hs ↔ ∃ h ∈ hs, st.dag[h]? = some p.1 ∧ st.ghostdag.scoreOf h = p.2 := by
  rw [blocksAt, List.mem_filterMap]
  refine exists_congr fun h => and_congr_right fun _ => ?_
  rw [Option.map_eq_some_iff]
  constructor
  · rintro ⟨b, hb, rfl⟩
    exact ⟨hb, rfl⟩
  · rintro ⟨hb, hs⟩
    exact ⟨p.1, hb, by rw [hs]⟩

theorem replay_append (chainId : Nat) (l : Ledger) (bs bs' : List (Block × Nat)) :
    l.replay chainId (bs ++ bs') = (l.replay chainId bs).replay chainId bs' :=
  List.foldl_append

theorem Keyed.score {st : ChainState} (k : st.Keyed) {h : Hash} {b : Block}
    (hb : st.dag[h]? = some b) :
    st.ghostdag[h]?.map GhostdagData.blueScore = some (st.ghostdag.scoreOf h) := by
  have hh := (k.known h).mpr (DagInv.mem_of_getElem? hb)
  rw [ExtTreeMap.mem_iff_isSome_getElem?] at hh
  obtain ⟨d, hd⟩ := Option.isSome_iff_exists.mp hh
  simp [GhostdagMap.scoreOf, hd]

/-- The fold on the node's own state is a replay. -/
theorem Keyed.applyAll {st : ChainState} (k : st.Keyed) (l : Ledger) (hs : List Hash) :
    st.applyAll l hs = l.replay st.chainId (st.blocksAt hs) := by
  induction hs generalizing l with
  | nil => rfl
  | cons h hs ih =>
      rw [ChainState.applyAll, List.foldl_cons]
      cases hb : st.dag[h]? with
      | none =>
          have : st.blocksAt (h :: hs) = st.blocksAt hs := by simp [blocksAt, hb]
          rw [this]
          exact ih l
      | some b =>
          have : st.blocksAt (h :: hs) = (b, st.ghostdag.scoreOf h) :: st.blocksAt hs := by
            simp [blocksAt, hb]
          rw [this, Ledger.replay, List.foldl_cons]
          simp only [k.hash hb, k.score hb]
          rw [Ledger.applyBlockEffects_tipScore l st.chainId st.selectedTipBlueScore 0]
          exact ih _

/-- So is the fold in a throwaway state. -/
theorem Keyed.foldl_simStep {st : ChainState} (k : st.Keyed) (sim : Ledger × GhostdagMap)
    (hs : List Hash) :
    (hs.foldl st.simStep sim).1 = sim.1.replay st.chainId (st.blocksAt hs) := by
  induction hs generalizing sim with
  | nil => rfl
  | cons h hs ih =>
      rw [List.foldl_cons, ih]
      cases hb : st.dag[h]? with
      | none => simp [blocksAt, simStep, hb]
      | some b =>
          have hblocks : st.blocksAt (h :: hs) = (b, st.ghostdag.scoreOf h) :: st.blocksAt hs := by
            simp [blocksAt, hb]
          have hscore := k.score hb
          obtain ⟨d, hd, hds⟩ := Option.map_eq_some_iff.mp hscore
          rw [hblocks, Ledger.replay, Ledger.replay, List.foldl_cons]
          simp only [simStep, hb, hd, k.hash hb, ExtTreeMap.getElem?_insert_self, Option.map_some, hds]

theorem Keyed.virtualStateAt {st : ChainState} (k : st.Keyed) (tip : Hash) :
    (st.virtualStateAt tip).1 = st.simBase.replay st.chainId (st.blocksAt
      ((st.canonicalOrderAt tip).drop (st.replayStart (st.canonicalOrderAt tip)))) :=
  k.foldl_simStep _ _

theorem Keyed.mergesetVirtual {st : ChainState} (k : st.Keyed) (sp : Hash) (ms : List Hash) :
    (st.mergesetVirtual sp ms).1 = (st.virtualStateAt sp).1.replay st.chainId (st.blocksAt ms) :=
  k.foldl_simStep _ _

end Replay

/-! ### The order of a DAG with all its history -/

section Order

variable [Crypto] {st : ChainState} {h : Hash}

theorem mergedIn_eq (inv : DagInv st.dag st.ghostdag) (hh : h ∈ st.dag) :
    st.mergedIn h = st.ghostdag.mergedOf h := by
  refine List.filter_eq_self.mpr fun x hx => ?_
  change x ∈ st.ghostdag.mergedOf h at hx
  cases hsp : st.ghostdag.spOf h with
  | none => simp [inv.mergedOf_root hh hsp] at hx
  | some sp =>
      have := inv.past_mem ((inv.mem_mergedOf hsp).mp hx).1 hh
      simpa using this

theorem canonicalOrderAt_root (inv : DagInv st.dag st.ghostdag) (hh : h ∈ st.dag)
    (hsp : st.ghostdag.spOf h = none) : st.canonicalOrderAt h = [h] := by
  rw [canonicalOrderAt_eq ((inv.known h).mpr hh), GhostdagMap.selectedChain_root hsp,
    List.foldl_cons, List.foldl_nil, emitBlock, mergedIn_eq inv hh, inv.mergedOf_root hh hsp]
  rfl

theorem canonicalOrderAt_emit (inv : DagInv st.dag st.ghostdag) {sp : Hash}
    (hsp : st.ghostdag.spOf h = some sp) :
    st.canonicalOrderAt h = st.emitBlock (st.canonicalOrderAt sp) h := by
  obtain ⟨hh, hspmem⟩ := inv.spOf_mem hsp
  rw [canonicalOrderAt_eq ((inv.known h).mpr hh), canonicalOrderAt_eq ((inv.known sp).mpr hspmem),
    GhostdagMap.selectedChain_step inv.descends hsp, List.foldl_append, List.foldl_cons,
    List.foldl_nil]

/-- **The canonical order at a block is its past**, and the block. -/
theorem mem_canonicalOrderAt (inv : DagInv st.dag st.ghostdag) (hh : h ∈ st.dag) {x : Hash} :
    x ∈ st.canonicalOrderAt h ↔ x = h ∨ Past st.dag x h := by
  induction h using GhostdagMap.chain_induction inv.descends with
  | root h hsp =>
      rw [canonicalOrderAt_root inv hh hsp, List.mem_singleton]
      refine ⟨Or.inl, fun hor => hor.resolve_right fun hpast => ?_⟩
      obtain ⟨p, hp, -⟩ := hpast.cases_parent
      simp [inv.parentsOf_of_root hh hsp] at hp
  | step h sp hsp ih =>
      rw [canonicalOrderAt_emit inv hsp, emitBlock, mem_emit, mem_foldl_emit,
        ih (inv.spOf_mem hsp).2, mergedIn_eq inv hh, inv.mem_mergedOf hsp]
      have hdown : x = sp ∨ Past st.dag x sp → Past st.dag x h := fun hor =>
        .of_parent (inv.spOf_parent hsp) hor
      by_cases hin : x = sp ∨ Past st.dag x sp
      · simp [hin, hdown hin]
      · simp only [hin, not_false_eq_true, and_true, false_or]
        tauto

/-- **One step of the canonical order.** -/
theorem canonicalOrderAt_step (inv : DagInv st.dag st.ghostdag) {sp : Hash}
    (hsp : st.ghostdag.spOf h = some sp) :
    st.canonicalOrderAt h = st.canonicalOrderAt sp ++ st.ghostdag.mergedOf h ++ [h] := by
  obtain ⟨hh, hspmem⟩ := inv.spOf_mem hsp
  have hfold : (st.ghostdag.mergedOf h).foldl emit (st.canonicalOrderAt sp)
      = st.canonicalOrderAt sp ++ st.ghostdag.mergedOf h := by
    refine foldl_emit_eq (inv.nodup_mergedOf hsp) fun x hx hmem => ?_
    exact ((inv.mem_mergedOf hsp).mp hx).2 ((mem_canonicalOrderAt inv hspmem).mp hmem)
  rw [canonicalOrderAt_emit inv hsp, emitBlock, mergedIn_eq inv hh, hfold, emit_of_notMem]
  intro hmem
  rcases List.mem_append.mp hmem with hmem | hmem
  · have hpast : Past st.dag h h :=
      .of_parent (inv.spOf_parent hsp) ((mem_canonicalOrderAt inv hspmem).mp hmem)
    exact inv.past_irrefl h hpast
  · exact inv.past_irrefl h ((inv.mem_mergedOf hsp).mp hmem).1

/-- The order at a chain block is a prefix. -/
theorem prefix_canonicalOrderAt (inv : DagInv st.dag st.ghostdag) {a : Hash}
    (habove : Above st.ghostdag.spOf a h) : st.canonicalOrderAt a <+: st.canonicalOrderAt h := by
  induction habove with
  | refl => exact List.prefix_rfl
  | step hp _ ih =>
      rw [canonicalOrderAt_step inv hp, List.append_assoc]
      exact ih.trans (List.prefix_append _ _)

/-- The order at a block ends with it. -/
theorem canonicalOrderAt_last (inv : DagInv st.dag st.ghostdag) (hh : h ∈ st.dag) :
    ∃ init, st.canonicalOrderAt h = init ++ [h] := by
  cases hsp : st.ghostdag.spOf h with
  | none => exact ⟨[], canonicalOrderAt_root inv hh hsp⟩
  | some sp => exact ⟨_, canonicalOrderAt_step inv hsp⟩

/-- The position of a chain block in the order of a later block. -/
theorem idxOf_canonicalOrderAt (inv : DagInv st.dag st.ghostdag) {f : Hash}
    (habove : Above st.ghostdag.spOf f h) (hf : f ∈ st.dag) :
    (st.canonicalOrderAt h).idxOf f + 1 = (st.canonicalOrderAt f).length := by
  obtain ⟨init, hinit⟩ := canonicalOrderAt_last inv hf
  obtain ⟨rest, hrest⟩ := prefix_canonicalOrderAt inv habove
  have hnodup := st.nodup_canonicalOrderAt f
  have hnot : f ∉ init := by
    rw [hinit] at hnodup
    intro hmem
    exact (List.nodup_append.mp hnodup).2.2 f hmem f (by simp) rfl
  rw [← hrest, hinit, List.append_assoc, List.idxOf_append_of_notMem hnot]
  simp

/-- The replay after a frontier on the chain goes over exactly the rest. -/
theorem canonicalOrderAt_replayStart (inv : DagInv st.dag st.ghostdag) {f : Hash}
    (hfrontier : st.baseFrontier = some f) (habove : Above st.ghostdag.spOf f h) (hh : h ∈ st.dag) :
    st.replayStart (st.canonicalOrderAt h) = (st.canonicalOrderAt f).length ∧
      st.canonicalOrderAt f
        ++ (st.canonicalOrderAt h).drop (st.replayStart (st.canonicalOrderAt h))
        = st.canonicalOrderAt h := by
  have hf := inv.above_mem habove hh
  have hmem : f ∈ st.canonicalOrderAt h := by
    obtain ⟨init, hinit⟩ := canonicalOrderAt_last inv hf
    exact (prefix_canonicalOrderAt inv habove).subset (by simp [hinit])
  have hstart : st.replayStart (st.canonicalOrderAt h) = (st.canonicalOrderAt f).length := by
    rw [replayStart, hfrontier]
    simp only [List.contains_iff_mem, hmem, if_true]
    exact idxOf_canonicalOrderAt inv habove hf
  refine ⟨hstart, ?_⟩
  rw [hstart]
  exact List.prefix_iff_eq_append.mp (prefix_canonicalOrderAt inv habove)

end Order

end ChainState

end HassanNode
