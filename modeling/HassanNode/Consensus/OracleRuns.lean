import Mathlib
import HassanNode.Consensus.Mining

/-!
# HassanNode.Consensus.OracleRuns

The reachability index through whole runs of its own operations, whoever calls
them: blocks added parents-first, whole prefixes cut off with `retain`, leaves
taken out with `drop_leaf`. The reference is the search over parent edges.
-/

namespace HassanNode

open Std (ExtTreeMap ExtTreeSet)
open Params

/-! ### Adding and cutting -/

/-- `Indexing all dag sp r`: the index `r` after some blocks were added
parents-first and some descendant-closed sets retained. `all` has every block
ever added, `dag` those retained, and `sp` the selected parents given. A later
block cites retained parents only, any one of them as its selected parent; of
the mergeset only the retained members matter. -/
inductive Indexing : (all dag : Dag) → (sp : Hash → Option Hash) → Reachability → Prop
  | new : Indexing ∅ ∅ (fun _ => none) .new
  | root {all dag : Dag} {sp : Hash → Option Hash} {r : Reachability}
      (run : Indexing all dag sp r) (hash : Hash) (block : Block) {iter : List Hash → List Hash}
      (hfresh : hash ∉ all) (hparents : block.parents = []) (hsize : dag.size + 1 < 2 ^ 40)
      (hiter : ∀ xs, (iter xs).Perm xs) :
      Indexing (all.insert hash block) (dag.insert hash block) sp (r.addBlock iter hash none [])
  | add {all dag : Dag} {sp : Hash → Option Hash} {r : Reachability}
      (run : Indexing all dag sp r) (hash : Hash) (block : Block) (parent : Hash)
      (mergeset : List Hash) {iter : List Hash → List Hash} (hfresh : hash ∉ all)
      (hknown : ∀ p ∈ block.parents, p ∈ dag) (hparent : parent ∈ block.parents)
      (hmerged : ∀ m ∈ dag, m ∈ mergeset ↔
        (∃ p ∈ block.parents, m = p ∨ Past all m p) ∧ ¬ (m = parent ∨ Past all m parent))
      (hsize : dag.size + 1 < 2 ^ 40) (hiter : ∀ xs, (iter xs).Perm xs) :
      Indexing (all.insert hash block) (dag.insert hash block)
        (Function.update sp hash (some parent)) (r.addBlock iter hash (some parent) mergeset)
  | retain {all dag : Dag} {sp : Hash → Option Hash} {r : Reachability}
      (run : Indexing all dag sp r) (keep : Hash → Bool)
      (hclosed : ∀ a b, a ∈ dag → keep a = true → b ∈ dag → Past all a b → keep b = true) :
      Indexing all (dag.filter fun h _ => keep h) sp (r.retain keep)

namespace Indexing

/-- What every such run keeps. -/
structure Inv (all dag : Dag) (sp : Hash → Option Hash) (r : Reachability) : Prop where
  closed : all.Closed
  retained : ∀ h ∈ dag, dag[h]? = all[h]?
  /-- Descendants of a retained block are retained. -/
  upper : ∀ {a b}, a ∈ dag → Past all a b → b ∈ dag
  selected : ∀ {h p}, sp h = some p → p ∈ all.parentsOf h
  nodes : ∀ h, h ∈ r.nodes ↔ h ∈ dag
  covers : r.Covers (Past all)
  tree : ∀ {h p}, h ∈ dag → (r.parentOf h = some p ↔ sp h = some p ∧ p ∈ dag)
  top : r.nextRootStart ≤ Reachability.spaceEnd

namespace Inv

variable {all dag : Dag} {sp : Hash → Option Hash} {r : Reachability} {a b : Hash}

theorem mem_all (inv : Inv all dag sp r) {h : Hash} (hh : h ∈ dag) : h ∈ all := by
  rw [ExtTreeMap.mem_iff_isSome_getElem?, ← inv.retained h hh, ← ExtTreeMap.mem_iff_isSome_getElem?]
  exact hh

theorem parentsOf (inv : Inv all dag sp r) {h : Hash} (hh : h ∈ dag) :
    dag.parentsOf h = all.parentsOf h := by
  rw [Dag.parentsOf, inv.retained h hh, Dag.parentsOf]

/-- Between retained blocks the retained DAG has every path. -/
theorem past_iff (inv : Inv all dag sp r) (ha : a ∈ dag) : Past dag a b ↔ Past all a b := by
  constructor
  · intro h
    refine Relation.TransGen.mono (fun x y hxy => ?_) a b h
    have hy : y ∈ dag := by
      by_contra hy
      simp [Dag.parentsOf_eq_nil hy] at hxy
    rwa [← inv.parentsOf hy]
  · intro h
    induction h with
    | single hab => exact .parent (by rwa [inv.parentsOf (inv.upper ha (.parent hab))])
    | @tail x y hax hxy ih =>
        have hy : y ∈ dag := inv.upper ha (.tail hax hxy)
        exact ih.trans (.parent (by rwa [inv.parentsOf hy]))

/-- Selected parents lead into the past. -/
theorem past_of_above (inv : Inv all dag sp r) (h : Above sp a b) : a = b ∨ Past all a b := by
  induction h with
  | refl => exact Or.inl rfl
  | step hp _ ih => exact Or.inr (.of_parent (inv.selected hp) ih)

/-- The tree of the index is the selected-parent tree of the retained blocks. -/
theorem above_iff (inv : Inv all dag sp r) (ha : a ∈ dag) (hb : b ∈ dag) :
    Above r.parentOf a b ↔ Above sp a b := by
  constructor
  · intro h
    induction h with
    | refl => exact .refl _
    | step hp _ ih =>
        obtain ⟨hsp, hp⟩ := (inv.tree hb).mp hp
        exact .step hsp (ih hp)
  · intro h
    induction h with
    | refl => exact .refl _
    | @step p b hsp hap ih =>
        have hp : p ∈ dag := by
          rcases inv.past_of_above hap with rfl | hpast
          · exact ha
          · exact inv.upper ha hpast
        exact .step ((inv.tree hb).mpr ⟨hsp, hp⟩) (ih hp)

theorem empty : Inv ∅ ∅ (fun _ => none) .new := by
  have hnone : ∀ a b, ¬ Past ∅ a b := by
    intro a b h
    have := Dag.Closed.empty.mem_of_past h
    simp at this
  refine ⟨.empty, fun h hh => by simp at hh, fun ha => by simp at ha, fun h => by simp at h,
    fun h => by simp [Reachability.new], ?_, fun hh => by simp at hh, by decide⟩
  have hfcs : ∀ a, Reachability.new.fcsOf a = [] := fun a =>
    Reachability.fcsOf_eq_nil (by simp [Reachability.new])
  refine ⟨Reachability.wf_new, fun a m hm => ?_, fun a => ?_, fun hh => ?_, fun hm => ?_,
    fun ha => ?_⟩
  · simp [hfcs] at hm
  · rw [hfcs]
    exact .nil
  · simp [Reachability.new] at hh
  · simp [hfcs] at hm
  · simp [Reachability.new] at ha

/-- Adding a block: `parent` is one of its parents, or it has none. -/
theorem insert (inv : Inv all dag sp r) {hash : Hash} {parent : Option Hash} {block : Block}
    {mergeset : List Hash} {iter : List Hash → List Hash} (hfresh : hash ∉ all)
    (hknown : ∀ p ∈ block.parents, p ∈ dag) (hparent : ∀ p, parent = some p → p ∈ block.parents)
    (hmerged : ∀ m ∈ dag, m ∈ mergeset ↔ (∃ p ∈ block.parents, m = p ∨ Past all m p) ∧
      ¬ ∃ p, parent = some p ∧ (m = p ∨ Past all m p))
    (hsize : dag.size < 2 ^ 40) (hiter : ∀ xs, (iter xs).Perm xs) :
    Inv (all.insert hash block) (dag.insert hash block) (Function.update sp hash parent)
      (r.addBlock iter hash parent mergeset) := by
  have hne : ∀ {h}, h ∈ dag → h ≠ hash := fun hh heq => hfresh (heq ▸ inv.mem_all hh)
  have hnew : hash ∉ r.nodes := fun h => hne ((inv.nodes hash).mp h) rfl
  have hall : ∀ p ∈ block.parents, p ∈ all := fun p hp => inv.mem_all (hknown p hp)
  have hself {x} : Past (all.insert hash block) x hash ↔
      ∃ p ∈ block.parents, x = p ∨ Past all x p := inv.closed.past_insert_self hfresh hall
  have hold {x y} (hy : y ≠ hash) : Past (all.insert hash block) x y ↔ Past all x y :=
    inv.closed.past_insert hfresh hy
  have htree : r.treeParentOf parent = parent := by
    cases parent with
    | none => rfl
    | some p => simp [Reachability.treeParentOf, inv.nodes, hknown p (hparent p rfl)]
  have hadded := Reachability.addBlock_added inv.covers.wf hnew hiter parent mergeset
  rw [htree] at hadded
  have hget : ∀ {h : Hash} (m : Dag), h ≠ hash → (m.insert hash block)[h]? = m[h]? := by
    intro h m hh
    simp [ExtTreeMap.getElem?_insert, hh.symm]
  have hmem : ∀ {h}, h ∈ dag.insert hash block ↔ h = hash ∨ h ∈ dag := by
    intro h
    rw [ExtTreeMap.mem_insert, Std.LawfulEqCmp.compare_eq_iff_eq, eq_comm]
  refine ⟨inv.closed.insert hfresh hall, fun h hh => ?_, fun {a b} ha hab => ?_, fun {h p} hp => ?_,
    fun h => ?_, ?_, fun {h p} hh => ?_, ?_⟩
  · rcases hmem.mp hh with rfl | hh
    · simp
    · rw [hget dag (hne hh), hget all (hne hh), inv.retained h hh]
  · have ha : a ∈ dag := by
      rcases hmem.mp ha with rfl | ha
      · exact absurd hab (inv.closed.not_past_new hfresh hall b)
      · exact ha
    by_cases hb : b = hash
    · exact hmem.mpr (Or.inl hb)
    · exact hmem.mpr (Or.inr (inv.upper ha ((hold hb).mp hab)))
  · rw [Dag.Closed.parentsOf_insert]
    by_cases hh : h = hash
    · subst hh
      rw [Function.update_self] at hp
      rw [if_pos rfl]
      exact hparent p hp
    · rw [Function.update_of_ne hh] at hp
      rw [if_neg fun heq => hh heq.symm]
      exact inv.selected hp
  · rw [hadded.mem, inv.nodes, hmem]
  · -- the index was exact for the larger DAG already, on the nodes it had
    have hcovers : r.Covers (Past (all.insert hash block)) :=
      inv.covers.congr fun x y _ hy => (hold (hne ((inv.nodes y).mp hy))).symm
    refine hcovers.addBlock hnew hiter (fun p hp => ?_) (fun a ha hanc => ?_) (fun m hm hmem => ?_)
      (inv.closed.not_past_new hfresh hall) (inv.closed.insert hfresh hall).irrefl
    · rw [htree] at hp
      exact hself.mpr ⟨p, hparent p hp, Or.inl rfl⟩
    · rw [htree]
      by_cases hbelow : ∃ p, parent = some p ∧ (a = p ∨ Past all a p)
      · obtain ⟨p, hp, hap⟩ := hbelow
        have hpne := hne (hknown p (hparent p hp))
        exact Or.inl ⟨p, hp, hap.imp id (hold hpne).mpr⟩
      · exact Or.inr ((hmerged a ((inv.nodes a).mp ha)).mpr ⟨hself.mp hanc, hbelow⟩)
    · exact hself.mpr ((hmerged m ((inv.nodes m).mp hmem)).mp hm).1
  · rcases hmem.mp hh with rfl | hh
    · rw [hadded.parent_new, Function.update_self]
      exact ⟨fun hp => ⟨hp, hmem.mpr (Or.inr (hknown p (hparent p hp)))⟩, And.left⟩
    · rw [hadded.parent_old h (hne hh), Function.update_of_ne (hne hh), inv.tree hh]
      refine and_congr_right fun hp => ⟨fun hpd => hmem.mpr (Or.inr hpd), fun hpd => ?_⟩
      rcases hmem.mp hpd with rfl | hpd
      · exact absurd (inv.closed.parents h p (inv.selected hp)) hfresh
      · exact hpd
  · have hnodes : r.nodes.size < 2 ^ 40 := Map.size_eq_of_mem_iff inv.nodes ▸ hsize
    rw [Reachability.addBlock, if_neg (by simpa using hnew),
      (Reachability.insertToFcsAll_shape _ hash mergeset).top]
    exact Reachability.place_top inv.covers.wf hiter hnodes inv.top parent

/-- Cutting off what is not in a descendant-closed set. -/
theorem retain (inv : Inv all dag sp r) {keep : Hash → Bool}
    (hclosed : ∀ a b, a ∈ dag → keep a = true → b ∈ dag → Past all a b → keep b = true) :
    Inv all (dag.filter fun h _ => keep h) sp (r.retain keep) := by
  have g := Reachability.retain_restricted r keep
  have hmem : ∀ {h}, h ∈ dag.filter (fun h _ => keep h) ↔ h ∈ dag ∧ keep h = true := by
    intro h
    simp [ExtTreeMap.mem_filter]
  refine ⟨inv.closed, fun h hh => ?_, fun {a b} ha hab => ?_, inv.selected, fun h => ?_, ?_,
    fun {h p} hh => ?_, ?_⟩
  · obtain ⟨hh, hk⟩ := hmem.mp hh
    rw [ExtTreeMap.getElem?_filter', ← inv.retained h hh]
    cases dag[h]? <;> simp [hk]
  · obtain ⟨ha, hk⟩ := hmem.mp ha
    have hb := inv.upper ha hab
    exact hmem.mpr ⟨hb, hclosed a b ha hk hb hab⟩
  · rw [g.mem, inv.nodes, hmem]
  · refine inv.covers.retain (fun _ _ _ => Past.trans) fun a b ha hk hb hab => ?_
    exact hclosed a b ((inv.nodes a).mp ha) hk ((inv.nodes b).mp hb) hab
  · obtain ⟨hh, hk⟩ := hmem.mp hh
    rw [g.parent h hk, inv.tree hh, hmem, and_assoc]
  · exact Reachability.retain_top inv.covers.wf keep inv.top

end Inv

variable {all dag : Dag} {sp : Hash → Option Hash} {r : Reachability} {a b : Hash}

theorem inv (run : Indexing all dag sp r) : Inv all dag sp r := by
  induction run with
  | new => exact .empty
  | @root all dag sp r run hash block iter hfresh hparents hsize hiter ih =>
      have hsp : Function.update sp hash none = sp := by
        refine Function.update_eq_self_iff.mpr ?_
        cases hp : sp hash with
        | none => rfl
        | some p =>
            have hmem := ih.selected hp
            simp [Dag.parentsOf_eq_nil hfresh] at hmem
      rw [← hsp]
      refine ih.insert hfresh (by simp [hparents]) (by simp) (fun m _ => ?_) (by omega) hiter
      simp [hparents]
  | add run hash block parent mergeset hfresh hknown hparent hmerged hsize hiter ih =>
      refine ih.insert hfresh hknown (fun p hp => ?_) (fun m hm => ?_) (by omega) hiter
      · obtain rfl := Option.some.inj hp
        exact hparent
      · rw [hmerged m hm]
        simp
  | retain run keep hclosed ih => exact ih.retain hclosed

/-- The index answers as the search on the retained DAG does. -/
theorem isAncestor_eq (inv : Inv all dag sp r) (ha : a ∈ dag) (hb : b ∈ dag) :
    r.isAncestor dag a b = dag.bfsIsAncestor a b := by
  have hknown : (r.nodes.contains a && r.nodes.contains b) = true := by
    simp [inv.nodes, ha, hb]
  rw [Reachability.isAncestor, if_pos hknown, Bool.eq_iff_iff, Dag.bfsIsAncestor_iff,
    inv.past_iff ha]
  exact inv.covers.isAncestor_iff inv.closed.irrefl (fun _ _ _ => Past.trans) ((inv.nodes a).mpr ha)
    ((inv.nodes b).mpr hb)

/-- **The index equals graph search** after any number of additions, reindexes
and cuts: ancestors, selected chains and anticones of retained blocks; and it
never leaves its interval space. -/
theorem answers_search (run : Indexing all dag sp r) (ha : a ∈ dag) (hb : b ∈ dag) :
    r.isAncestor dag a b = dag.bfsIsAncestor a b ∧
    (r.isChainAncestor a b = some true ↔ Above sp a b) ∧
    inAnticone (r.isAncestor dag) a b = inAnticone dag.bfsIsAncestor a b ∧
    ∀ h ∈ r.nodes, r.hi h < Reachability.spaceEnd := by
  have inv := run.inv
  refine ⟨isAncestor_eq inv ha hb, ?_, ?_, fun h hh => ?_⟩
  · obtain ⟨t, ht⟩ := Option.isSome_iff_exists.mp
      (Reachability.isChainAncestor_isSome ((inv.nodes a).mpr ha) ((inv.nodes b).mpr hb))
    rw [ht, Option.some.injEq, (inv.covers.wf.isChainAncestor_eq ht).2.2, inv.above_iff ha hb]
  · rw [inAnticone, inAnticone, isAncestor_eq inv ha hb, isAncestor_eq inv hb ha]
  · exact (inv.covers.wf.laminar.bounded hh).trans_le inv.top

end Indexing

namespace Sample

/-- A block that matters for its parents only. -/
def cite (parents : List Hash) : Block := { genesisBlock with parents := parents }

/-- A block on the zero hash. -/
def pair (x : Hash) : Dag := (ExtTreeMap.insert ∅ Hash.zero (cite [])).insert x (cite [Hash.zero])

/-- A third block that cites both. -/
def triple (x y : Hash) : Dag := (pair x).insert y (cite [Hash.zero, x])

/-- Three blocks, the last citing both others with the first as its selected
parent; then the first is cut off. -/
theorem answers_search_cut :
    let x := Hash.ofNat 1
    let y := Hash.ofNat 2
    let dag : Dag := (triple x y).filter fun h _ => h != Hash.zero
    ∃ sp r, Indexing (triple x y) dag sp r ∧ x ∈ dag ∧ y ∈ dag ∧
      r.isAncestor dag x y = dag.bfsIsAncestor x y ∧
      (r.isChainAncestor x y = some true ↔ Above sp x y) ∧
      inAnticone (r.isAncestor dag) x y = inAnticone dag.bfsIsAncestor x y ∧
      ∀ h ∈ r.nodes, r.hi h < Reachability.spaceEnd := by
  intro x y dag
  have hx : x ≠ Hash.zero := by decide +kernel
  have hy : y ≠ Hash.zero := by decide +kernel
  have hxy : x ≠ y := by decide +kernel
  have hiter : ∀ xs : List Hash, (id xs).Perm xs := fun _ => .refl _
  have run₀ := Indexing.new.root Hash.zero (cite []) (by simp) rfl (by simp) hiter
  have run₁ := run₀.add x (cite [Hash.zero]) Hash.zero [] (by simp [hx.symm]) (by simp [cite])
    (by simp [cite]) (by simp [cite]) (by simp [ExtTreeMap.size_insert]) hiter
  have hnot : ¬ Past (pair x) x Hash.zero :=
    run₀.inv.closed.not_past_new (by simp [hx.symm]) (by simp [cite]) Hash.zero
  have hmerged : ∀ m ∈ pair x, m ∈ [x] ↔
      (∃ p ∈ [Hash.zero, x], m = p ∨ Past (pair x) m p) ∧
        ¬ (m = Hash.zero ∨ Past (pair x) m Hash.zero) := by
    intro m hm
    rw [pair, ExtTreeMap.mem_insert, ExtTreeMap.mem_insert, Std.LawfulEqCmp.compare_eq_iff_eq,
      Std.LawfulEqCmp.compare_eq_iff_eq] at hm
    rcases hm with rfl | rfl | hm
    · simp [hx, hnot]
    · simp [hx.symm]
    · simp at hm
  have run₂ := run₁.add y (cite [Hash.zero, x]) Hash.zero [x] (by simp [hy.symm, hxy])
    (by simp [cite]) (by simp [cite]) hmerged (by simp [ExtTreeMap.size_insert, hx.symm]) hiter
  have hroot : Dag.parentsOf (triple x y) Hash.zero = [] := by
    simp [triple, pair, Dag.Closed.parentsOf_insert, hx, hy, cite]
  have run₃ := run₂.retain (fun h => h != Hash.zero) fun a b _ _ _ hab => by
    rw [bne_iff_ne]
    rintro rfl
    obtain ⟨p, hp, -⟩ := hab.cases_parent
    change p ∈ Dag.parentsOf (triple x y) Hash.zero at hp
    simp [hroot] at hp
  have hxmem : x ∈ dag := by simp [dag, triple, pair, ExtTreeMap.mem_filter, hx]
  have hymem : y ∈ dag := by simp [dag, triple, pair, ExtTreeMap.mem_filter, hy]
  exact ⟨_, _, run₃, hxmem, hymem, run₃.answers_search hxmem hymem⟩

end Sample

/-! ### Adding and dropping -/

section Live

variable [Crypto]

/-- The parts of a node that the index is computed from and kept for. -/
structure LiveIndex where
  dag : Dag
  ghostdag : GhostdagMap
  reachability : Reachability

namespace LiveIndex

/-- A new node's. -/
def start : LiveIndex :=
  let st := ChainState.seeded false false {}
  ⟨st.dag, st.ghostdag, st.reachability⟩

/-- A block stored as `ChainState::add_block` stores it. -/
def add (s : LiveIndex) (iter : List Hash → List Hash) (block : Block) (d : GhostdagData) :
    LiveIndex where
  dag := s.dag.insert block.hash block
  ghostdag := s.ghostdag.insert block.hash d
  reachability := s.reachability.addBlock iter block.hash d.selectedParent d.merged

/-- A leaf taken out of the index; the DAG keeps the block. -/
def drop (s : LiveIndex) (hash : Hash) : LiveIndex :=
  { s with reachability := s.reachability.dropLeaf hash }

/-- The runs of additions, with the data the node computes, and drops, in which
every addition meets `ok`. -/
inductive Run (ok : LiveIndex → Block → Prop) : LiveIndex → Prop
  | start : Run ok start
  | add {s : LiveIndex} (run : Run ok s) (block : Block) (d : GhostdagData)
      (iter : List Hash → List Hash) (hfresh : block.hash ∉ s.dag) (hparents : block.parents ≠ [])
      (hknown : ∀ p ∈ block.parents, p ∈ s.dag)
      (hdata : tryComputeGhostdagData s.dag s.ghostdag (s.reachability.isAncestor s.dag)
        block.parents maxMergesetSize = .ok d)
      (hiter : ∀ xs, (iter xs).Perm xs) (hok : ok s block) : Run ok (s.add iter block d)
  | drop {s : LiveIndex} (run : Run ok s) (hash : Hash) : Run ok (s.drop hash)

/-- The selected parent of a new block is still indexed, or nothing in its past
is. -/
def Attached (s : LiveIndex) (block : Block) : Prop :=
  ∀ sp, s.ghostdag.selectParent block.parents = some sp →
    sp ∈ s.reachability.nodes ∨ ∀ x ∈ s.reachability.nodes, ¬ Past s.dag x sp

structure Inv (s : LiveIndex) : Prop where
  dagInv : DagInv s.dag s.ghostdag
  covers : s.reachability.Covers (Past s.dag)
  indexed : ∀ h ∈ s.reachability.nodes, h ∈ s.dag

namespace Inv

variable {s : LiveIndex} {block : Block} {d : GhostdagData} {iter : List Hash → List Hash}

theorem start : Inv LiveIndex.start := by
  have w := ChainState.whole_seeded false false {}
  exact ⟨w.dagInv, w.covers, w.indexed⟩

theorem isAncestor_eq (inv : s.Inv) (a b : Hash) :
    s.reachability.isAncestor s.dag a b = s.dag.bfsIsAncestor a b :=
  inv.covers.isAncestor_eq inv.dagInv.past_irrefl a b

theorem add (inv : s.Inv) (hfresh : block.hash ∉ s.dag) (hparents : block.parents ≠ [])
    (hknown : ∀ p ∈ block.parents, p ∈ s.dag)
    (hdata : tryComputeGhostdagData s.dag s.ghostdag (s.reachability.isAncestor s.dag)
      block.parents maxMergesetSize = .ok d)
    (hiter : ∀ xs, (iter xs).Perm xs) (hattached : s.Attached block) : (s.add iter block d).Inv := by
  have horacle : s.reachability.isAncestor s.dag = s.dag.bfsIsAncestor := by
    funext a b
    exact inv.isAncestor_eq a b
  rw [horacle] at hdata
  obtain ⟨p, hp⟩ := List.exists_mem_of_ne_nil _ hparents
  obtain ⟨sp, hsp⟩ := GhostdagMap.selectBest_isSome hp ((inv.dagInv.known p).mpr (hknown p hp))
  refine ⟨inv.dagInv.insert hfresh hparents hknown hdata, ?_, fun h hh => ?_⟩
  · exact inv.covers.addComputed inv.dagInv.dagClosed inv.indexed hfresh hknown
      (tryCompute_ok hdata hsp) hiter (hattached sp hsp)
  · have hadded := Reachability.addBlock_added inv.covers.wf (fun h => hfresh (inv.indexed _ h)) hiter
      d.selectedParent d.merged
    change h ∈ s.dag.insert block.hash block
    rw [ExtTreeMap.mem_insert, Std.LawfulEqCmp.compare_eq_iff_eq]
    rcases (hadded.mem h).mp hh with rfl | hh
    · exact Or.inl rfl
    · exact Or.inr (inv.indexed h hh)

theorem drop (inv : s.Inv) (hash : Hash) : (s.drop hash).Inv := by
  refine ⟨inv.dagInv, inv.covers.dropLeaf hash, fun h hh => inv.indexed h ?_⟩
  rcases Reachability.dropLeaf_cases inv.covers.wf hash with ⟨heq, -⟩ | ⟨-, -, g, -⟩
  · change h ∈ (s.reachability.dropLeaf hash).nodes at hh
    rwa [heq] at hh
  · exact ((g.mem h).mp hh).1

end Inv

theorem Run.inv {s : LiveIndex} (run : Run Attached s) : s.Inv := by
  induction run with
  | start => exact .start
  | add run block d iter hfresh hparents hknown hdata hiter hok ih =>
      exact ih.add hfresh hparents hknown hdata hiter hok
  | drop run hash ih => exact ih.drop hash

/-- **Dropping leaves keeps the index exact** as long as every block is added
below an indexed selected parent, or one whose whole past is gone. -/
theorem drops_keep_answers {s : LiveIndex} (run : Run Attached s) (a b : Hash) :
    s.reachability.isAncestor s.dag a b = s.dag.bfsIsAncestor a b :=
  run.inv.isAncestor_eq a b

/-- A block that becomes a root and merges nothing is related to no other. -/
theorem Inv.covers_detached {s : LiveIndex} (inv : s.Inv) {hash : Hash} {sp : Option Hash}
    {iter : List Hash → List Hash} (hfresh : hash ∉ s.dag) (hiter : ∀ xs, (iter xs).Perm xs)
    (hsp : s.reachability.treeParentOf sp = none) :
    (s.reachability.addBlock iter hash sp []).Covers (Past s.dag) := by
  have hnone : ∀ x, ¬ Past s.dag x hash := by
    intro x hpast
    obtain ⟨p, hp, -⟩ := hpast.cases_parent
    simp [Dag.parentsOf_eq_nil hfresh] at hp
  refine inv.covers.addBlock (fun h => hfresh (inv.indexed _ h)) hiter (fun p hp => ?_)
    (fun a _ hanc => absurd hanc (hnone a)) (by simp)
    (fun b hpast => hfresh (inv.dagInv.dagClosed.mem_of_past hpast)) inv.dagInv.past_irrefl
  simp [hsp] at hp

end LiveIndex

end Live

namespace Sample

/-- The block with this number on one parent. -/
def onBlock (number : Nat) (p : Hash) : Block :=
  { genesisBlock with height := .ofNat number, parents := [p] }

theorem onBlock_hash (number : Nat) (p : Hash) (hsmall : number < 2 ^ 64) :
    (onBlock number p).hash = blockHash number 0 := by
  have hheight : (onBlock number p).height.toNat = number := by
    change (UInt64.ofNat number).toNat = number
    rw [UInt64.toNat_ofNat', Nat.mod_eq_of_lt hsmall]
  rw [hash_eq, hheight]
  rfl

/-- A node with one block on the genesis block. -/
def oneBlock : LiveIndex :=
  LiveIndex.start.add id (onBlock 1 (blockHash 0 0)) (onlyParent LiveIndex.start.ghostdag (blockHash 0 0))

/-- The same node after it dropped the leaf. -/
def dropped : LiveIndex := oneBlock.drop (blockHash 1 0)

theorem mem_start {h : Hash} : h ∈ LiveIndex.start.dag ↔ h = blockHash 0 0 := by
  rw [← genesis_hash, eq_comm]
  exact ChainState.seeded_mem false false {} h

theorem mem_oneBlock {h : Hash} : h ∈ oneBlock.dag ↔ h = blockHash 1 0 ∨ h = blockHash 0 0 := by
  change h ∈ LiveIndex.start.dag.insert _ _ ↔ _
  rw [ExtTreeMap.mem_insert, Std.LawfulEqCmp.compare_eq_iff_eq, onBlock_hash 1 _ (by norm_num),
    mem_start, eq_comm]

theorem start_attached (b : Block) (hb : b.parents = [blockHash 0 0]) :
    LiveIndex.start.Attached b := by
  intro sp hsp
  have hmem := (GhostdagMap.selectBest_eq_some.mp hsp).mem
  rw [hb, List.mem_singleton] at hmem
  refine Or.inl ((ChainState.seeded_indexed false false {} sp).mpr ?_)
  rw [hmem, genesis_hash]

theorem onBlock_fresh {s : LiveIndex} {number : Nat} {p : Hash} (hsmall : number < 2 ^ 64)
    (hfresh : blockHash number 0 ∉ s.dag) : (onBlock number p).hash ∉ s.dag := by
  rwa [onBlock_hash number p hsmall]

theorem dropped_run (ok : LiveIndex → Block → Prop) (hok : ∀ s b, s.Attached b → ok s b) :
    LiveIndex.Run ok dropped := by
  have inv := LiveIndex.Inv.start
  have hgenesis : blockHash 0 0 ∈ LiveIndex.start.dag := mem_start.mpr rfl
  have hfresh : blockHash 1 0 ∉ LiveIndex.start.dag := fun h =>
    blockHash_ne (by norm_num) (by norm_num) (by decide) (mem_start.mp h)
  refine .drop (.add .start _ _ _ (onBlock_fresh (by norm_num) hfresh) (by simp [onBlock])
    (by simpa [onBlock] using hgenesis) (tryCompute_onlyParent ((inv.dagInv.known _).mpr hgenesis))
    (fun _ => .refl _) (hok _ _ (start_attached _ rfl))) _

/-- A dropped leaf is still answered for. -/
theorem dropped_answers : ∃ s : LiveIndex, LiveIndex.Run LiveIndex.Attached s ∧
    blockHash 1 0 ∈ s.dag ∧
    s.reachability.isAncestor s.dag (blockHash 0 0) (blockHash 1 0)
      = s.dag.bfsIsAncestor (blockHash 0 0) (blockHash 1 0) :=
  ⟨dropped, dropped_run _ fun _ _ h => h, mem_oneBlock.mpr (Or.inl rfl),
    LiveIndex.drops_keep_answers (dropped_run _ fun _ _ h => h) _ _⟩

/-- The leaf is gone, and the genesis block is not. -/
theorem dropped_nodes : blockHash 1 0 ∉ dropped.reachability.nodes ∧
    blockHash 0 0 ∈ dropped.reachability.nodes := by
  have inv := LiveIndex.Inv.start
  have hindexed := ChainState.seeded_indexed false false {}
  rw [genesis_hash] at hindexed
  have hfresh : blockHash 1 0 ∉ LiveIndex.start.reachability.nodes := fun h =>
    blockHash_ne (by norm_num) (by norm_num) (by decide) ((hindexed _).mp h)
  have hiter : ∀ xs : List Hash, (id xs).Perm xs := fun _ => .refl _
  have hadded := Reachability.addBlock_added inv.covers.wf hfresh hiter (some (blockHash 0 0)) []
  have hindex : oneBlock.reachability = LiveIndex.start.reachability.addBlock id (blockHash 1 0)
      (some (blockHash 0 0)) [] := by
    rw [oneBlock, LiveIndex.add, onBlock_hash 1 _ (by norm_num), merged_onlyParent, onlyParent]
  rw [← hindex] at hadded
  have hmem : ∀ h, h ∈ oneBlock.reachability.nodes ↔ h = blockHash 1 0 ∨ h = blockHash 0 0 := by
    intro h
    rw [hadded.mem]
    exact or_congr_right (hindexed h)
  have hne : blockHash 1 0 ≠ blockHash 0 0 := blockHash_ne (by norm_num) (by norm_num) (by decide)
  have hleaf : ∀ h ∈ oneBlock.reachability.nodes, oneBlock.reachability.parentOf h
      ≠ some (blockHash 1 0) := by
    intro h hh hp
    rcases (hmem h).mp hh with rfl | rfl
    · have hparent := hadded.wf.laminar.nest hh hp
      have := hadded.wf.laminar.le hh
      omega
    · rw [hadded.parent_old _ hne.symm] at hp
      simp [LiveIndex.start, ChainState.seeded_parentOf] at hp
  rw [dropped, LiveIndex.drop]
  rcases Reachability.dropLeaf_cases hadded.wf (blockHash 1 0) with ⟨-, hchild⟩ | ⟨-, -, g, -⟩
  · obtain ⟨c, hc, hp⟩ := hchild ((hmem _).mpr (Or.inl rfl))
    exact absurd hp (hleaf c hc)
  · exact ⟨fun h => ((g.mem _).mp h).2 rfl, (g.mem _).mpr ⟨(hmem _).mpr (Or.inr rfl), hne.symm⟩⟩

/-- A child of the dropped leaf. -/
def orphaned : LiveIndex :=
  dropped.add id (onBlock 2 (blockHash 1 0)) (onlyParent dropped.ghostdag (blockHash 1 0))

theorem orphaned_dag :
    orphaned.dag = dropped.dag.insert (blockHash 2 0) (onBlock 2 (blockHash 1 0)) := by
  rw [orphaned, LiveIndex.add, onBlock_hash 2 _ (by norm_num)]

theorem orphaned_index : orphaned.reachability
    = dropped.reachability.addBlock id (blockHash 2 0) (some (blockHash 1 0)) [] := by
  rw [orphaned, LiveIndex.add, onBlock_hash 2 _ (by norm_num), merged_onlyParent, onlyParent]

theorem orphan_fresh : blockHash 2 0 ∉ dropped.dag := by
  intro h
  rcases mem_oneBlock.mp h with h | h
  · exact blockHash_ne (by norm_num) (by norm_num) (by decide) h
  · exact blockHash_ne (by norm_num) (by norm_num) (by decide) h

theorem orphan_past : Past orphaned.dag (blockHash 0 0) (blockHash 2 0) := by
  have inv := (dropped_run _ fun _ _ h => h).inv
  have hleaf : blockHash 1 0 ∈ dropped.dag := mem_oneBlock.mpr (Or.inl rfl)
  have hfirst : blockHash 0 0 ∈ dropped.dag.parentsOf (blockHash 1 0) := by
    change _ ∈ Dag.parentsOf (LiveIndex.start.dag.insert _ _) _
    rw [Dag.Closed.parentsOf_insert, if_pos (onBlock_hash 1 _ (by norm_num))]
    exact List.mem_singleton_self _
  rw [orphaned_dag, inv.dagInv.dagClosed.past_insert_self orphan_fresh (by simpa [onBlock] using hleaf)]
  exact ⟨blockHash 1 0, List.mem_singleton_self _, Or.inr (.parent hfirst)⟩

/-- **A child of a dropped leaf is cut off from its own past**: it becomes a
root, and the genesis block no longer counts as its ancestor. -/
theorem child_of_dropped_misanswered : ∃ (s : LiveIndex) (a b : Hash),
    LiveIndex.Run (fun _ _ => True) s ∧ a ∈ s.dag ∧ b ∈ s.dag ∧
      s.reachability.isAncestor s.dag a b = false ∧ s.dag.bfsIsAncestor a b = true := by
  have inv := (dropped_run _ fun _ _ h => h).inv
  obtain ⟨hgone, hgenesis⟩ := dropped_nodes
  have hleaf : blockHash 1 0 ∈ dropped.dag := mem_oneBlock.mpr (Or.inl rfl)
  have hrun : LiveIndex.Run (fun _ _ => True) orphaned :=
    .add (dropped_run _ fun _ _ _ => trivial) _ _ _ (onBlock_fresh (by norm_num) orphan_fresh)
      (by simp [onBlock]) (by simpa [onBlock] using hleaf)
      (tryCompute_onlyParent ((inv.dagInv.known _).mpr hleaf)) (fun _ => .refl _) trivial
  have hnew : blockHash 2 0 ∉ dropped.reachability.nodes := fun h => orphan_fresh (inv.indexed _ h)
  have htree : dropped.reachability.treeParentOf (some (blockHash 1 0)) = none := by
    simp [Reachability.treeParentOf, hgone]
  have hcovers : orphaned.reachability.Covers (Past dropped.dag) := by
    rw [orphaned_index]
    exact inv.covers_detached orphan_fresh (fun _ => .refl _) htree
  have hiter : ∀ xs : List Hash, (id xs).Perm xs := fun _ => .refl _
  have hadded := Reachability.addBlock_added inv.covers.wf hnew hiter (some (blockHash 1 0)) []
  rw [← orphaned_index] at hadded
  have hnodes : blockHash 0 0 ∈ orphaned.reachability.nodes ∧
      blockHash 2 0 ∈ orphaned.reachability.nodes :=
    ⟨(hadded.mem _).mpr (Or.inr hgenesis), (hadded.mem _).mpr (Or.inl rfl)⟩
  refine ⟨orphaned, blockHash 0 0, blockHash 2 0, hrun, ?_, ?_, ?_,
    Dag.bfsIsAncestor_iff.mpr orphan_past⟩
  · rw [orphaned_dag, ExtTreeMap.mem_insert]
    exact Or.inr (inv.indexed _ hgenesis)
  · simp [orphaned_dag]
  · rw [Reachability.isAncestor, if_pos (by simpa using hnodes), Bool.eq_false_iff, ne_eq,
      hcovers.isAncestor_iff inv.dagInv.past_irrefl (fun _ _ _ => Past.trans) hnodes.1 hnodes.2]
    intro hold
    obtain ⟨p, hp, -⟩ := hold.cases_parent
    simp [Dag.parentsOf_eq_nil orphan_fresh] at hp

end Sample

end HassanNode
