import Mathlib
import HassanNode.Lib.Postorder
import HassanNode.Consensus.ReplayOrder

/-!
# HassanNode.Consensus.TopologicalOrder

The two topological sorts: `topological_order` of `ghostdag.rs`, by the number of
ancestors in the set, and the method of the chain state, a depth-first post-order by
which the derived indexes are rebuilt. On a DAG both put ancestors first
(`topological_orders`).
-/

namespace HassanNode

open Std (ExtTreeMap)

/-! ### By the number of ancestors -/

section Ranks

variable {anc : Hash → Hash → Bool} {ms ms' : List Hash}

/-- The order does not depend on how the set is listed. -/
theorem topologicalOrder_of_perm (h : ms'.Perm ms) : topologicalOrder anc ms' = topologicalOrder anc ms := by
  have hrank : ∀ y, (ms'.filter fun other => other != y && anc other y).length
      = (ms.filter fun other => other != y && anc other y).length := fun y => (h.filter _).length_eq
  have hranked : (ms'.map fun y => ((ms'.filter fun other => other != y && anc other y).length, y)).Perm
      (ms.map fun y => ((ms.filter fun other => other != y && anc other y).length, y)) := by
    simp only [hrank]
    exact h.map _
  unfold topologicalOrder
  congr 1
  refine List.Perm.eq_of_pairwise (fun a b _ _ hab hba => topoLe_antisymm hab hba) (pairwise_insertionSort_topoLe _)
    (pairwise_insertionSort_topoLe _) ?_
  exact ((List.perm_insertionSort _ _).trans hranked).trans (List.perm_insertionSort _ _).symm

/-- With an oracle that agrees with the search, ancestors come first. -/
theorem topologicalOrder_ancestors_first {dag : Dag} (hacyclic : ∀ h, ¬ Past dag h h)
    (hagree : ∀ x ∈ ms, ∀ y ∈ ms, anc x y = dag.bfsIsAncestor x y) :
    (topologicalOrder anc ms).Pairwise fun a b => ¬ Past dag b a := by
  have hirrefl : ∀ x, dag.bfsIsAncestor x x = false := fun x => by
    rw [← Bool.not_eq_true, Dag.bfsIsAncestor_iff]
    exact hacyclic x
  have htrans : ∀ x y z, dag.bfsIsAncestor x y = true → dag.bfsIsAncestor y z = true → dag.bfsIsAncestor x z = true := by
    intro x y z hxy hyz
    rw [Dag.bfsIsAncestor_iff] at *
    exact hxy.trans hyz
  rw [topologicalOrder_congr hagree]
  refine (topologicalOrder_pairwise hirrefl htrans ms).imp fun {a b} hba hpast => ?_
  rw [Dag.bfsIsAncestor_iff.mpr hpast] at hba
  cases hba

end Ranks

/-! ### By depth-first search -/

/-- The parents of a block that are in the DAG. -/
def Dag.inDagParents (dag : Dag) (h : Hash) : List Hash := (dag.parentsOf h).filter dag.contains

/-- `ChainState::topological_order`, with the order in which the map of the DAG lists its keys. -/
def ChainState.topologicalOrder (st : ChainState) (env : Env) : Option (List Hash) :=
  Postorder.order st.dag.inDagParents (Postorder.orderFuel st.dag.inDagParents st.dag.keys) (env.iter st.dag.keys)

/-- The search ends and lists every block once, after its parents. -/
theorem ChainState.topologicalOrder_spec {st : ChainState} (hacyclic : ∀ h, ¬ Past st.dag h h) (env : Env) :
    ∃ order, st.topologicalOrder env = some order ∧ order.Perm st.dag.keys ∧
      Postorder.ParentsFirst st.dag.inDagParents order := by
  have hfewer : ∀ h, ¬ Relation.TransGen (fun p k => p ∈ st.dag.inDagParents k) h h := fun h hcycle =>
    hacyclic h (Relation.TransGen.mono (fun p k hp => (List.mem_filter.mp hp).1) _ _ hcycle)
  have hclosed : ∀ k ∈ st.dag.keys, ∀ p ∈ st.dag.inDagParents k, p ∈ st.dag.keys := fun k _ p hp =>
    ExtTreeMap.mem_keys.mpr (ExtTreeMap.contains_iff_mem.mp (List.mem_filter.mp hp).2)
  exact Postorder.order_spec hfewer hclosed ExtTreeMap.nodup_keys (env.iter_perm st.dag.keys)

/-- On a DAG both sorts list each block once with its ancestors before it, and neither depends on
the order of its input. -/
theorem topological_orders (dag : Dag) (hacyclic : ∀ h, ¬ Past dag h h) :
    (∀ (anc : Hash → Hash → Bool) (ms : List Hash), (∀ x ∈ ms, ∀ y ∈ ms, anc x y = dag.bfsIsAncestor x y) →
      (topologicalOrder anc ms).Perm ms ∧ (topologicalOrder anc ms).Pairwise (fun a b => ¬ Past dag b a) ∧
        ∀ ms', ms.Nodup → ms'.Nodup → (∀ x, x ∈ ms' ↔ x ∈ ms) → topologicalOrder anc ms' = topologicalOrder anc ms) ∧
    ∀ (st : ChainState) (env : Env), st.dag = dag → ∃ order, st.topologicalOrder env = some order ∧ order.Nodup ∧
      (∀ h, h ∈ order ↔ h ∈ dag) ∧
        ∀ earlier h later, order = earlier ++ h :: later → ∀ p ∈ dag.parentsOf h, p ∈ dag → p ∈ earlier := by
  refine ⟨fun anc ms hagree => ⟨topologicalOrder_perm anc ms, topologicalOrder_ancestors_first hacyclic hagree, ?_⟩, ?_⟩
  · intro ms' hnodup hnodup' hsame
    exact topologicalOrder_of_perm ((List.perm_ext_iff_of_nodup hnodup' hnodup).mpr hsame)
  · rintro st env rfl
    obtain ⟨order, horder, hperm, hfirst⟩ := ChainState.topologicalOrder_spec hacyclic env
    refine ⟨order, horder, hperm.nodup_iff.mpr ExtTreeMap.nodup_keys, fun h => ?_, ?_⟩
    · rw [hperm.mem_iff, ExtTreeMap.mem_keys]
    · intro earlier h later hsplit p hp hin
      have hparent : p ∈ st.dag.inDagParents h := List.mem_filter.mpr ⟨hp, ExtTreeMap.contains_iff_mem.mpr hin⟩
      exact hfirst earlier h later hsplit p hparent

namespace Sample

/-- The genesis block under a key, and a child of it with another parent that is missing. -/
def pairDag : Dag :=
  ((∅ : Dag).insert (Hash.ofNat 1) genesisBlock).insert (Hash.ofNat 2)
    { genesisBlock with parents := [Hash.ofNat 1, Hash.ofNat 3] }

theorem parentsOf_pairDag {h p : Hash} (hp : p ∈ pairDag.parentsOf h) :
    h = Hash.ofNat 2 ∧ (p = Hash.ofNat 1 ∨ p = Hash.ofNat 3) := by
  rw [Dag.parentsOf, pairDag, ExtTreeMap.getElem?_insert, ExtTreeMap.getElem?_insert] at hp
  by_cases hsecond : Hash.ofNat 2 = h
  · simp [hsecond] at hp
    exact ⟨hsecond.symm, hp⟩
  · by_cases hfirst : Hash.ofNat 1 = h
    · simp [hsecond, hfirst, genesisBlock] at hp
    · simp [hsecond, hfirst] at hp

theorem pairDag_acyclic (h : Hash) : ¬ Past pairDag h h := by
  have hlow : Hash.ofNat 1 ≠ Hash.ofNat 2 := by decide +kernel
  have hmissing : Hash.ofNat 3 ≠ Hash.ofNat 2 := by decide +kernel
  have hstart : ∀ p x, p = Hash.ofNat 1 ∨ p = Hash.ofNat 3 → ¬ Past pairDag x p := by
    intro p x hp hpast
    obtain ⟨q, hq, -⟩ := hpast.cases_parent
    obtain ⟨rfl, -⟩ := parentsOf_pairDag hq
    rcases hp with heq | heq
    · exact hlow heq.symm
    · exact hmissing heq.symm
  intro hcycle
  obtain ⟨p, hp, hsame | hpast⟩ := hcycle.cases_parent
  · obtain ⟨rfl, hparent⟩ := parentsOf_pairDag hp
    rcases hparent with heq | heq
    · exact hlow (hsame.trans heq).symm
    · exact hmissing (hsame.trans heq).symm
  · exact hstart p h (parentsOf_pairDag hp).2 hpast

/-- The child comes after genesis, in whatever order the keys are listed. -/
theorem pairDag_ordered : Hash.ofNat 2 ∈ pairDag ∧ ∀ (st : ChainState) (env : Env), st.dag = pairDag →
    ∃ order, st.topologicalOrder env = some order ∧ order.Nodup ∧ (∀ h, h ∈ order ↔ h ∈ pairDag) ∧
      ∀ earlier h later, order = earlier ++ h :: later → ∀ p ∈ pairDag.parentsOf h, p ∈ pairDag → p ∈ earlier :=
  ⟨ExtTreeMap.mem_insert_self, (topological_orders pairDag pairDag_acyclic).2⟩

end Sample

end HassanNode
