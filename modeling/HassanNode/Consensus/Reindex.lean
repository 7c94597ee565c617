import Mathlib
import HassanNode.Consensus.Reachability

/-!
# HassanNode.Consensus.Reindex

The intervals of the index are a laminar forest over its tree links
(`Reachability.WF`), and a full reindex rebuilds one over the same links. Its
two loops work with explicit stacks; the size of a subtree (`subtreeSize`) is
both what the first loop computes and the fuel it needs. They read the links only,
so a reindex makes any forest well-formed (`reindexAll_spec`).
-/

namespace HassanNode

open Std (ExtTreeMap ExtTreeSet)

namespace Reachability

/-! ### Links and labels -/

def parentOf (r : Reachability) (h : Hash) : Option Hash := (r.node h).treeParent
def childrenOf (r : Reachability) (h : Hash) : List Hash := (r.node h).treeChildren
def lo (r : Reachability) (h : Hash) : Nat := (r.node h).interval.start
def hi (r : Reachability) (h : Hash) : Nat := (r.node h).interval.end_
def freeOf (r : Reachability) (h : Hash) : Nat := (r.node h).nextFree
def fcsOf (r : Reachability) (h : Hash) : List Hash := (r.node h).fcs

/-- The index is a forest with consistent links and laminar intervals; the free
part of an interval lies beyond the children already placed. -/
structure WF (r : Reachability) : Prop where
  laminar : Laminar (· ∈ r.nodes) r.parentOf r.lo r.hi r.nextRootStart
  children : ∀ {p}, p ∈ r.nodes → ∀ c, c ∈ r.childrenOf p ↔ c ∈ r.nodes ∧ r.parentOf c = some p
  nodup : ∀ {p}, p ∈ r.nodes → (r.childrenOf p).Nodup
  free : ∀ {h}, h ∈ r.nodes → r.lo h ≤ r.freeOf h ∧ r.freeOf h ≤ r.hi h
  placed : ∀ {c p}, c ∈ r.nodes → r.parentOf c = some p → r.hi c < r.freeOf p

theorem node_eq {r : Reachability} {h : Hash} {n : ReachNode} (hn : r.nodes[h]? = some n) :
    r.node h = n := by
  simp [node, hn]

theorem node_of_mem {r : Reachability} {h : Hash} (hh : h ∈ r.nodes) :
    r.nodes[h]? = some (r.node h) := by
  rw [ExtTreeMap.mem_iff_isSome_getElem?] at hh
  obtain ⟨n, hn⟩ := Option.isSome_iff_exists.mp hh
  rw [node_eq hn, hn]

theorem node_insert (nodes : ExtTreeMap Hash ReachNode) (top : Nat) (k h : Hash) (n : ReachNode) :
    node { nodes := nodes.insert k n, nextRootStart := top } h
      = if k = h then n else node { nodes, nextRootStart := top } h := by
  simp only [node, ExtTreeMap.getElem?_insert, Std.LawfulEqCmp.compare_eq_iff_eq]
  split <;> rfl

theorem mem_insert_nodes {nodes : ExtTreeMap Hash ReachNode} {k h : Hash} {n : ReachNode} :
    h ∈ nodes.insert k n ↔ k = h ∨ h ∈ nodes := by
  simp [ExtTreeMap.mem_insert]

/-- Containment in the index is ancestry in its tree. -/
theorem WF.isChainAncestor_eq {r : Reachability} (w : r.WF) {a b : Hash} {t : Bool}
    (h : r.isChainAncestor a b = some t) :
    a ∈ r.nodes ∧ b ∈ r.nodes ∧ (t = true ↔ Above r.parentOf a b) := by
  simp only [isChainAncestor] at h
  split at h
  · rename_i na nb hna hnb
    have ha : a ∈ r.nodes := by simp [ExtTreeMap.mem_iff_isSome_getElem?, hna]
    have hb : b ∈ r.nodes := by simp [ExtTreeMap.mem_iff_isSome_getElem?, hnb]
    refine ⟨ha, hb, ?_⟩
    rw [w.laminar.above_iff_contains ha hb, ← Option.some.inj h]
    simp [Interval.contains, lo, hi, node_eq hna, node_eq hnb]
  · cases h

theorem isChainAncestor_isSome {r : Reachability} {a b : Hash} (ha : a ∈ r.nodes)
    (hb : b ∈ r.nodes) : (r.isChainAncestor a b).isSome := by
  simp [isChainAncestor, node_of_mem ha, node_of_mem hb]

theorem wf_new : new.WF where
  laminar := by constructor <;> simp [new]
  children h := by simp [new] at h
  nodup h := by simp [new] at h
  free h := by simp [new] at h
  placed h := by simp [new] at h

/-! ### Forests -/

/-- The tree links of the index are a forest: parents and children agree, and no node is its own ancestor. -/
structure Forest (r : Reachability) : Prop where
  parent_mem : ∀ {h p}, h ∈ r.nodes → r.parentOf h = some p → p ∈ r.nodes
  children : ∀ {p}, p ∈ r.nodes → ∀ c, c ∈ r.childrenOf p ↔ c ∈ r.nodes ∧ r.parentOf c = some p
  nodup : ∀ {p}, p ∈ r.nodes → (r.childrenOf p).Nodup
  acyclic : ∀ {h p}, h ∈ r.nodes → r.parentOf h = some p → ¬ Above r.parentOf h p

/-- Intervals that shrink along the links leave no cycle. -/
theorem WF.forest {r : Reachability} (w : r.WF) : r.Forest where
  parent_mem := w.laminar.parent_mem
  children := w.children
  nodup := w.nodup
  acyclic {h p} hh hp habove := by
    have hnest := w.laminar.nest hh hp
    have hcontains := w.laminar.contains_of_above habove (w.laminar.parent_mem hh hp)
    omega

open Classical in
/-- The nodes of a subtree, its top included. -/
noncomputable def subtree (r : Reachability) (h : Hash) : Finset Hash :=
  r.nodes.keys.toFinset.filter (Above r.parentOf h)

/-- The number of nodes in a subtree. -/
noncomputable def subtreeSize (r : Reachability) (h : Hash) : Nat := (r.subtree h).card

theorem mem_subtree {r : Reachability} {h x : Hash} : x ∈ r.subtree h ↔ x ∈ r.nodes ∧ Above r.parentOf h x := by
  classical
  rw [subtree, Finset.mem_filter, List.mem_toFinset, ExtTreeMap.mem_keys]

theorem subtreeSize_le (r : Reachability) (h : Hash) : r.subtreeSize h ≤ r.nodes.size := by
  classical
  have hcard : r.nodes.keys.toFinset.card = r.nodes.size := by
    rw [List.toFinset_card_of_nodup ExtTreeMap.nodup_keys, ExtTreeMap.length_keys]
  exact hcard ▸ Finset.card_filter_le _ _

namespace Forest

variable {r : Reachability}

theorem child_mem (f : r.Forest) {p c : Hash} (hp : p ∈ r.nodes) (hc : c ∈ r.childrenOf p) :
    c ∈ r.nodes := ((f.children hp c).mp hc).1

theorem mem_of_above (f : r.Forest) {a b : Hash} (h : Above r.parentOf a b) (hb : b ∈ r.nodes) : a ∈ r.nodes := by
  induction h with
  | refl => exact hb
  | step hp _ ih => exact ih (f.parent_mem hb hp)

/-- Subtrees of siblings are apart. -/
theorem disjoint_siblings (f : r.Forest) {p c c' : Hash} (hp : p ∈ r.nodes) (hc : c ∈ r.childrenOf p)
    (hc' : c' ∈ r.childrenOf p) (hne : c ≠ c') : Disjoint (r.subtree c) (r.subtree c') := by
  obtain ⟨hcmem, hcp⟩ := (f.children hp c).mp hc
  obtain ⟨hcmem', hcp'⟩ := (f.children hp c').mp hc'
  have hnot : ∀ {x y : Hash}, x ∈ r.nodes → r.parentOf x = some p → r.parentOf y = some p → x ≠ y →
      ¬ Above r.parentOf x y := by
    intro x y hx hxp hyp hxy habove
    rcases habove.cases_step with heq | ⟨q, hq, hup⟩
    · exact hxy heq
    · obtain rfl := Option.some.inj (hyp.symm.trans hq)
      exact f.acyclic hx hxp hup
  rw [Finset.disjoint_left]
  intro x hx hx'
  rcases (mem_subtree.mp hx).2.comparable (mem_subtree.mp hx').2 with h | h
  · exact hnot hcmem hcp hcp' hne h
  · exact hnot hcmem' hcp' hcp hne.symm h

/-- A subtree is its top with the subtrees of its children. -/
theorem subtree_eq (f : r.Forest) {h : Hash} (hh : h ∈ r.nodes) :
    r.subtree h = insert h ((r.childrenOf h).toFinset.biUnion r.subtree) := by
  ext x
  simp only [Finset.mem_insert, Finset.mem_biUnion, List.mem_toFinset, mem_subtree]
  constructor
  · rintro ⟨hx, habove⟩
    rcases habove.split with rfl | ⟨c, hc, hcx⟩
    · exact Or.inl rfl
    · exact Or.inr ⟨c, (f.children hh c).mpr ⟨f.mem_of_above hcx hx, hc⟩, hx, hcx⟩
  · rintro (rfl | ⟨c, hc, hx, hcx⟩)
    · exact ⟨hh, .refl x⟩
    · have hup : Above r.parentOf h c := .step ((f.children hh c).mp hc).2 (.refl h)
      exact ⟨hx, hup.trans hcx⟩

theorem subtreeSize_eq (f : r.Forest) {h : Hash} (hh : h ∈ r.nodes) :
    r.subtreeSize h = 1 + ((r.childrenOf h).map r.subtreeSize).sum := by
  have htop : h ∉ (r.childrenOf h).toFinset.biUnion r.subtree := by
    intro hin
    obtain ⟨c, hc, hcx⟩ := Finset.mem_biUnion.mp hin
    obtain ⟨hcmem, hcp⟩ := (f.children hh c).mp (List.mem_toFinset.mp hc)
    exact f.acyclic hcmem hcp (mem_subtree.mp hcx).2
  have hcard : ((r.childrenOf h).toFinset.biUnion r.subtree).card = ∑ c ∈ (r.childrenOf h).toFinset, r.subtreeSize c := by
    refine Finset.card_biUnion fun c hc c' hc' hne => ?_
    exact f.disjoint_siblings hh (List.mem_toFinset.mp hc) (List.mem_toFinset.mp hc') hne
  rw [subtreeSize, f.subtree_eq hh, Finset.card_insert_of_notMem htop, hcard, List.sum_toFinset _ (f.nodup hh), Nat.add_comm]

theorem child_lt (f : r.Forest) {p c : Hash} (hp : p ∈ r.nodes) (hc : c ∈ r.childrenOf p) :
    r.subtreeSize c < r.subtreeSize p := by
  have hle := List.le_sum_of_mem (List.mem_map_of_mem (f := r.subtreeSize) hc)
  rw [f.subtreeSize_eq hp]
  omega

theorem isRoot_iff (f : r.Forest) {h : Hash} (hh : h ∈ r.nodes) :
    r.isRoot h = true ↔ r.parentOf h = none := by
  simp only [isRoot, parentOf]
  cases hp : (r.node h).treeParent with
  | none => simp
  | some p =>
      have : p ∈ r.nodes := f.parent_mem hh hp
      simp [this]

/-- The children of all nodes are the nodes that are not roots. -/
theorem flatMap_children (f : r.Forest) :
    (r.nodes.keys.flatMap r.childrenOf).Perm (r.nodes.keys.filter fun h => !r.isRoot h) := by
  have hmem : ∀ {h}, h ∈ r.nodes.keys ↔ h ∈ r.nodes := by
    intro h
    exact ExtTreeMap.mem_keys
  have hkeys : r.nodes.keys.Nodup := ExtTreeMap.nodup_keys
  refine (List.perm_ext_iff_of_nodup ?_ (hkeys.filter _)).mpr fun c => ?_
  · refine List.nodup_flatMap.mpr ⟨fun p hp => f.nodup (hmem.mp hp), ?_⟩
    refine hkeys.imp_of_mem ?_
    intro p q hp hq hne c hcp hcq
    have hcp' := ((f.children (hmem.mp hp) c).mp hcp).2
    have hcq' := ((f.children (hmem.mp hq) c).mp hcq).2
    exact hne (Option.some.inj (hcp'.symm.trans hcq'))
  · rw [List.mem_flatMap, List.mem_filter]
    constructor
    · rintro ⟨p, hp, hc⟩
      obtain ⟨hcmem, hcp⟩ := (f.children (hmem.mp hp) c).mp hc
      refine ⟨hmem.mpr hcmem, ?_⟩
      have := f.isRoot_iff hcmem
      simp_all
    · rintro ⟨hc, hroot⟩
      cases hp : r.parentOf c with
      | none => simp [(f.isRoot_iff (hmem.mp hc)).mpr hp] at hroot
      | some p =>
          have hpmem := f.parent_mem (hmem.mp hc) hp
          exact ⟨p, hmem.mpr hpmem, (f.children hpmem c).mpr ⟨hmem.mp hc, hp⟩⟩

/-- The subtrees of the roots have all the nodes. -/
theorem sum_roots (f : r.Forest) {iter : List Hash → List Hash} (hiter : ∀ xs, (iter xs).Perm xs) :
    ((r.roots iter).map r.subtreeSize).sum = r.nodes.size := by
  have hroots : ((r.roots iter).map r.subtreeSize).sum
      = ((r.nodes.keys.filter r.isRoot).map r.subtreeSize).sum :=
    (((hiter r.nodes.keys).filter _).map _).sum_eq
  have hsplit : (r.nodes.keys.map r.subtreeSize).sum
      = ((r.nodes.keys.filter r.isRoot).map r.subtreeSize).sum
        + ((r.nodes.keys.filter fun h => !r.isRoot h).map r.subtreeSize).sum := by
    rw [← List.sum_append, ← List.map_append]
    exact ((List.filter_append_perm r.isRoot r.nodes.keys).symm.map _).sum_eq
  have hcount : (r.nodes.keys.map r.subtreeSize).sum = r.nodes.keys.length
      + ((r.nodes.keys.flatMap r.childrenOf).map r.subtreeSize).sum := by
    have hall : ∀ h ∈ r.nodes.keys, h ∈ r.nodes := fun h hh => ExtTreeMap.mem_keys.mp hh
    generalize r.nodes.keys = ks at hall ⊢
    induction ks with
    | nil => simp
    | cons h ks ih =>
        have hh := f.subtreeSize_eq (hall h (by simp))
        have hks := ih fun k hk => hall k (List.mem_cons_of_mem h hk)
        simp only [List.map_cons, List.sum_cons, List.length_cons, List.flatMap_cons,
          List.map_append, List.sum_append]
        omega
  have hperm := (f.flatMap_children.map r.subtreeSize).sum_eq
  have hsize : r.nodes.keys.length = r.nodes.size := ExtTreeMap.length_keys
  omega

/-- Every node is in the subtree of a root. -/
theorem exists_root (f : r.Forest) {h : Hash} (hh : h ∈ r.nodes) :
    ∃ t ∈ r.nodes, r.parentOf t = none ∧ Above r.parentOf t h := by
  induction hn : r.nodes.size - r.subtreeSize h using Nat.strong_induction_on generalizing h with
  | _ n ih =>
      cases hp : r.parentOf h with
      | none => exact ⟨h, hh, hp, .refl h⟩
      | some p =>
          have hpmem := f.parent_mem hh hp
          have hless := f.child_lt hpmem ((f.children hpmem h).mpr ⟨hh, hp⟩)
          have hbound := r.subtreeSize_le p
          obtain ⟨t, ht, htn, hth⟩ := ih (r.nodes.size - r.subtreeSize p) (by omega) hpmem rfl
          exact ⟨t, ht, htn, .step hp hth⟩

theorem mem_roots (f : r.Forest) {iter : List Hash → List Hash} (hiter : ∀ xs, (iter xs).Perm xs)
    {h : Hash} : h ∈ r.roots iter ↔ h ∈ r.nodes ∧ r.parentOf h = none := by
  rw [roots, List.mem_filter, (hiter _).mem_iff, ExtTreeMap.mem_keys]
  exact and_congr_right fun hh => f.isRoot_iff hh

end Forest

/-- The sizes loop finds the children of a processed node among the sizes known
so far and the entries above it. -/
def Ready (r : Reachability) (known : Set Hash) : List (Hash × Bool) → Prop
  | [] => True
  | (n, processed) :: stack =>
    (processed = true → ∀ c ∈ r.childrenOf n, c ∈ known) ∧ Ready r (insert n known) stack

theorem Ready.mono {r : Reachability} {known known' : Set Hash} {stack : List (Hash × Bool)}
    (hsub : known ⊆ known') (h : r.Ready known stack) : r.Ready known' stack := by
  induction stack generalizing known known' with
  | nil => trivial
  | cons e stack ih =>
      obtain ⟨n, processed⟩ := e
      exact ⟨fun hp c hc => hsub (h.1 hp c hc), ih (Set.insert_subset_insert hsub) h.2⟩

/-- Unprocessed entries only add to what is known. -/
theorem Ready.push {r : Reachability} {known : Set Hash} {cs : List Hash}
    {stack : List (Hash × Bool)} (h : r.Ready (known ∪ {c | c ∈ cs}) stack) :
    r.Ready known (cs.map (·, false) ++ stack) := by
  induction cs generalizing known with
  | nil => simpa using h
  | cons c cs ih =>
      refine ⟨by simp, ih (h.mono ?_)⟩
      intro x hx
      rcases hx with hx | hx
      · exact Or.inl (Or.inr hx)
      · rcases List.mem_cons.mp hx with rfl | hx
        · exact Or.inl (Or.inl rfl)
        · exact Or.inr hx

/-- The pops an entry of the sizes loop still costs. -/
noncomputable def sizesCost (r : Reachability) : Hash × Bool → Nat
  | (n, false) => 2 * r.subtreeSize n
  | (_, true) => 1

/-- What is still to be sized is below an unprocessed entry or processed. -/
def Pending (r : Reachability) (stack : List (Hash × Bool)) (h : Hash) : Prop :=
  (∃ n, (n, false) ∈ stack ∧ Above r.parentOf n h) ∨ (h, true) ∈ stack

/-- The invariant of the sizes loop. -/
structure SizesInv (r : Reachability) (stack : List (Hash × Bool)) (sizes : ExtTreeMap Hash Nat) :
    Prop where
  known : ∀ {e}, e ∈ stack → e.1 ∈ r.nodes
  sound : ∀ {h s}, sizes[h]? = some s → s = r.subtreeSize h
  ready : r.Ready {h | h ∈ sizes} stack
  all : ∀ h ∈ r.nodes, h ∈ sizes ∨ r.Pending stack h

namespace SizesInv

variable {r : Reachability} {n : Hash} {stack : List (Hash × Bool)} {sizes : ExtTreeMap Hash Nat}

theorem getElem? (inv : r.SizesInv stack sizes) {h : Hash} (hh : h ∈ sizes) :
    sizes[h]? = some (r.subtreeSize h) := by
  rw [ExtTreeMap.mem_iff_isSome_getElem?] at hh
  obtain ⟨s, hs⟩ := Option.isSome_iff_exists.mp hh
  rw [hs, inv.sound hs]

/-- Popping a processed node: its children are sized, so its own size is right. -/
theorem processed (f : r.Forest) (inv : r.SizesInv ((n, true) :: stack) sizes) :
    r.SizesInv stack
      (sizes.insert n (1 + ((r.node n).treeChildren.map fun c => sizes[c]?.getD 0).sum)) := by
  have hn : n ∈ r.nodes := inv.known (e := (n, true)) (by simp)
  have hsum : 1 + ((r.node n).treeChildren.map fun c => sizes[c]?.getD 0).sum
      = r.subtreeSize n := by
    rw [f.subtreeSize_eq hn]
    congr 2
    refine List.map_congr_left fun c hc => ?_
    rw [inv.getElem? (inv.ready.1 rfl c hc), Option.getD_some]
  rw [hsum]
  have hmem : ∀ x, x ∈ sizes.insert n (r.subtreeSize n) ↔ n = x ∨ x ∈ sizes := by
    intro x
    rw [ExtTreeMap.mem_insert, Std.LawfulEqCmp.compare_eq_iff_eq]
  refine ⟨fun he => inv.known (List.mem_cons_of_mem _ he), ?_, ?_, ?_⟩
  · intro h s hs
    rw [ExtTreeMap.getElem?_insert] at hs
    split at hs
    · rename_i heq
      rw [Std.LawfulEqCmp.compare_eq_iff_eq] at heq
      rw [← heq, ← Option.some.inj hs]
    · exact inv.sound hs
  · refine inv.ready.2.mono ?_
    intro x hx
    rw [Set.mem_ofPred_eq, hmem]
    rcases hx with rfl | hx
    · exact Or.inl rfl
    · exact Or.inr hx
  · intro h hh
    rw [hmem]
    rcases inv.all h hh with hdone | ⟨m, hm, habove⟩ | hproc
    · exact Or.inl (Or.inr hdone)
    · exact Or.inr (Or.inl ⟨m, by simpa using hm, habove⟩)
    · rcases List.mem_cons.mp hproc with heq | hproc
      · exact Or.inl (Or.inl (Prod.mk.inj heq).1.symm)
      · exact Or.inr (Or.inr hproc)

/-- Opening a node: its children come before it. -/
theorem opened (f : r.Forest) (inv : r.SizesInv ((n, false) :: stack) sizes) :
    r.SizesInv ((r.node n).treeChildren.reverse.map (·, false) ++ (n, true) :: stack) sizes := by
  have hn : n ∈ r.nodes := inv.known (e := (n, false)) (by simp)
  refine ⟨?_, inv.sound, ?_, ?_⟩
  · intro e he
    rcases List.mem_append.mp he with he | he
    · obtain ⟨c, hc, rfl⟩ := List.mem_map.mp he
      exact f.child_mem hn (List.mem_reverse.mp hc)
    · rcases List.mem_cons.mp he with rfl | he
      · exact hn
      · exact inv.known (List.mem_cons_of_mem _ he)
  · refine Ready.push ⟨fun _ c hc => Or.inr (List.mem_reverse.mpr hc), inv.ready.2.mono ?_⟩
    exact Set.insert_subset_insert Set.subset_union_left
  · intro h hh
    rcases inv.all h hh with hdone | ⟨m, hm, habove⟩ | hproc
    · exact Or.inl hdone
    · rcases List.mem_cons.mp hm with heq | hm
      · obtain rfl : m = n := (Prod.mk.inj heq).1
        rcases habove.split with rfl | ⟨c, hc, hch⟩
        · exact Or.inr (Or.inr (by simp))
        · have hcmem := f.mem_of_above hch hh
          refine Or.inr (Or.inl ⟨c, List.mem_append_left _ ?_, hch⟩)
          exact List.mem_map.mpr ⟨c, List.mem_reverse.mpr ((f.children hn c).mpr ⟨hcmem, hc⟩), rfl⟩
      · exact Or.inr (Or.inl ⟨m, by simp [hm], habove⟩)
    · exact Or.inr (Or.inr (by simpa using Or.inr hproc))

/-- With enough fuel the loop ends with the size of every node. -/
theorem sizesLoop (f : r.Forest) {fuel : Nat} (inv : r.SizesInv stack sizes)
    (hfuel : (stack.map r.sizesCost).sum ≤ fuel) :
    ∀ h ∈ r.nodes, (r.sizesLoop fuel stack sizes)[h]? = some (r.subtreeSize h) := by
  have hempty : ∀ {sizes}, r.SizesInv [] sizes → ∀ h ∈ r.nodes,
      sizes[h]? = some (r.subtreeSize h) := by
    intro sizes inv h hh
    exact inv.getElem? ((inv.all h hh).resolve_right (by simp [Pending]))
  have hcost : ∀ e : Hash × Bool, e.1 ∈ r.nodes → 0 < r.sizesCost e := by
    rintro ⟨n, processed⟩ hn
    cases processed with
    | false => simp [sizesCost, f.subtreeSize_eq hn]
    | true => simp [sizesCost]
  induction fuel generalizing stack sizes with
  | zero =>
      cases stack with
      | nil => exact hempty inv
      | cons e stack =>
          have hpos := hcost e (inv.known (by simp))
          simp only [List.map_cons, List.sum_cons] at hfuel
          omega
  | succ fuel ih =>
      cases stack with
      | nil => exact hempty inv
      | cons e stack =>
          obtain ⟨n, processed⟩ := e
          simp only [List.map_cons, List.sum_cons] at hfuel
          cases processed with
          | true => exact ih (inv.processed f) (by simp only [sizesCost] at hfuel; omega)
          | false =>
              refine ih (inv.opened f) ?_
              have hn : n ∈ r.nodes := inv.known (e := (n, false)) (by simp)
              have hsize := f.subtreeSize_eq hn
              have hchildren : (((r.node n).treeChildren.reverse.map (·, false)).map r.sizesCost).sum
                  = 2 * ((r.childrenOf n).map r.subtreeSize).sum := by
                rw [List.map_map, List.map_reverse, List.sum_reverse, ← List.sum_map_mul_left]
                rfl
              simp only [List.map_append, List.sum_append, List.map_cons, List.sum_cons,
                hchildren]
              simp only [sizesCost] at hfuel ⊢
              omega

end SizesInv

theorem getElem?_subtreeSizes {r : Reachability} (f : r.Forest) {iter : List Hash → List Hash}
    (hiter : ∀ xs, (iter xs).Perm xs) {h : Hash} (hh : h ∈ r.nodes) :
    (r.subtreeSizes iter)[h]? = some (r.subtreeSize h) := by
  have hinv : r.SizesInv ((r.roots iter).reverse.map (·, false)) ∅ := by
    refine ⟨?_, by simp, ?_, ?_⟩
    · intro e he
      obtain ⟨t, ht, rfl⟩ := List.mem_map.mp he
      exact ((f.mem_roots hiter).mp (List.mem_reverse.mp ht)).1
    · have hpush : r.Ready {h | h ∈ (∅ : ExtTreeMap Hash Nat)}
          ((r.roots iter).reverse.map (·, false) ++ []) := Ready.push trivial
      simpa using hpush
    · intro h hh
      obtain ⟨t, ht, htn, hth⟩ := f.exists_root hh
      refine Or.inr (Or.inl ⟨t, List.mem_map.mpr ⟨t, ?_, rfl⟩, hth⟩)
      exact List.mem_reverse.mpr ((f.mem_roots hiter).mpr ⟨ht, htn⟩)
  refine hinv.sizesLoop f ?_ h hh
  have hcost : ((r.roots iter).reverse.map (·, false)).map r.sizesCost
      = ((r.roots iter).map fun t => 2 * r.subtreeSize t).reverse := by
    rw [List.map_map, List.map_reverse]
    rfl
  rw [hcost, List.sum_reverse, List.sum_map_mul_left, f.sum_roots hiter]

/-! ### Windows -/

section Windows

variable {sizes : ExtTreeMap Hash Nat}

/-- The width of a window. -/
def widthIn (sizes : ExtTreeMap Hash Nat) (h : Hash) : Nat := sizes[h]?.getD 0 * scale

theorem windows_fst (sizes : ExtTreeMap Hash Nat) (hs : List Hash) (cursor : Nat) :
    (windows sizes hs cursor).1.map Prod.fst = hs := by
  induction hs generalizing cursor with
  | nil => rfl
  | cons h hs ih => simp [windows, ih]

theorem windows_snd (sizes : ExtTreeMap Hash Nat) (hs : List Hash) (cursor : Nat) :
    (windows sizes hs cursor).2 = cursor + (hs.map (widthIn sizes)).sum := by
  induction hs generalizing cursor with
  | nil => rfl
  | cons h hs ih =>
      simp only [windows, ih, List.map_cons, List.sum_cons, widthIn]
      omega

/-- Every window lies between the cursor before and after the siblings. -/
theorem windows_bounds {hs : List Hash} {cursor : Nat} {e : Hash × Nat}
    (he : e ∈ (windows sizes hs cursor).1) :
    cursor ≤ e.2 ∧ e.2 + widthIn sizes e.1 ≤ (windows sizes hs cursor).2 := by
  induction hs generalizing cursor with
  | nil => simp [windows] at he
  | cons h hs ih =>
      rw [windows_snd, List.map_cons, List.sum_cons]
      rcases List.mem_cons.mp he with rfl | he
      · simp only [le_refl, true_and]
        omega
      · have hrest := ih he
        rw [windows_snd] at hrest
        change cursor + widthIn sizes h ≤ _ ∧ _ ≤ cursor + widthIn sizes h + _ at hrest
        omega

/-- Windows follow each other. -/
theorem windows_pairwise (sizes : ExtTreeMap Hash Nat) (hs : List Hash) (cursor : Nat) :
    (windows sizes hs cursor).1.Pairwise fun e e' => e.2 + widthIn sizes e.1 ≤ e'.2 := by
  induction hs generalizing cursor with
  | nil => exact .nil
  | cons h hs ih => exact List.pairwise_cons.mpr ⟨fun e he => (windows_bounds he).1, ih _⟩

theorem exists_window {hs : List Hash} {h : Hash} (hh : h ∈ hs) (cursor : Nat) :
    ∃ s, (h, s) ∈ (windows sizes hs cursor).1 := by
  have hfst := windows_fst sizes hs cursor
  rw [← hfst, List.mem_map] at hh
  obtain ⟨e, he, rfl⟩ := hh
  exact ⟨e.2, he⟩

/-- Distinct siblings have windows apart from each other. -/
theorem windows_apart {hs : List Hash} {cursor : Nat} {e e' : Hash × Nat}
    (he : e ∈ (windows sizes hs cursor).1) (he' : e' ∈ (windows sizes hs cursor).1)
    (hne : e.1 ≠ e'.1) : e.2 + widthIn sizes e.1 ≤ e'.2 ∨ e'.2 + widthIn sizes e'.1 ≤ e.2 := by
  have hsymm : Std.Symm fun e e' : Hash × Nat =>
      e.2 + widthIn sizes e.1 ≤ e'.2 ∨ e'.2 + widthIn sizes e'.1 ≤ e.2 := ⟨fun _ _ h => h.symm⟩
  have hpairs := (windows_pairwise sizes hs cursor).imp
    fun {e e'} h => (Or.inl h : _ ∨ e'.2 + widthIn sizes e'.1 ≤ e.2)
  exact hpairs.forall he he' fun h => hne (congrArg Prod.fst h)

theorem window_unique {hs : List Hash} (hnodup : hs.Nodup) {cursor : Nat} {h : Hash} {s s' : Nat}
    (hs₁ : (h, s) ∈ (windows sizes hs cursor).1) (hs₂ : (h, s') ∈ (windows sizes hs cursor).1) :
    s = s' := by
  have hfst : ((windows sizes hs cursor).1.map Prod.fst).Nodup := by rwa [windows_fst]
  have := List.inj_on_of_nodup_map hfst hs₁ hs₂ rfl
  exact (Prod.mk.inj this).2

end Windows

/-! ### The assignment loop -/

/-- The windows a reindex gives, from the roots down. -/
inductive Starts (r : Reachability) (sizes : ExtTreeMap Hash Nat) (roots : List Hash) :
    Hash → Nat → Prop
  | root {h : Hash} {s : Nat} (hs : (h, s) ∈ (windows sizes roots spaceStart).1) :
      Starts r sizes roots h s
  | child {p c : Hash} {s t : Nat} (hp : Starts r sizes roots p s)
      (hc : (c, t) ∈ (windows sizes (r.childrenOf p) s).1) : Starts r sizes roots c t

/-- Two indexes over the same blocks with the same tree links. -/
structure SameTree (r r' : Reachability) : Prop where
  mem : ∀ h, h ∈ r'.nodes ↔ h ∈ r.nodes
  parent : ∀ h, r'.parentOf h = r.parentOf h
  children : ∀ h, r'.childrenOf h = r.childrenOf h

/-- The sizes are the real ones. -/
def SizesOk (r : Reachability) (sizes : ExtTreeMap Hash Nat) : Prop :=
  ∀ h ∈ r.nodes, sizes[h]? = some (r.subtreeSize h)

section Assign

variable {r r' : Reachability} {sizes : ExtTreeMap Hash Nat} {roots : List Hash}

theorem widthIn_eq (hsizes : r.SizesOk sizes) {h : Hash} (hh : h ∈ r.nodes) :
    widthIn sizes h = r.subtreeSize h * scale := by
  rw [widthIn, hsizes h hh, Option.getD_some]

/-- A node's window is one unit of `scale` wider than its children's. -/
theorem widthIn_children (f : r.Forest) (hsizes : r.SizesOk sizes) {h : Hash} (hh : h ∈ r.nodes) :
    widthIn sizes h = ((r.childrenOf h).map (widthIn sizes)).sum + scale := by
  have hmap : (r.childrenOf h).map (widthIn sizes)
      = (r.childrenOf h).map fun c => r.subtreeSize c * scale :=
    List.map_congr_left fun c hc => widthIn_eq hsizes (f.child_mem hh hc)
  rw [widthIn_eq hsizes hh, f.subtreeSize_eq hh, hmap, List.sum_map_mul_right]
  ring

theorem mem_of_window {hs : List Hash} {cursor : Nat} {e : Hash × Nat}
    (he : e ∈ (windows sizes hs cursor).1) : e.1 ∈ hs := by
  have hmem := List.mem_map_of_mem (f := Prod.fst) he
  rwa [windows_fst] at hmem

/-- The roots a reindex starts from. -/
structure RootsOk (r : Reachability) (roots : List Hash) : Prop where
  mem : ∀ {h}, h ∈ roots ↔ h ∈ r.nodes ∧ r.parentOf h = none
  nodup : roots.Nodup

theorem Starts.mem (f : r.Forest) (hroots : r.RootsOk roots) {h : Hash} {s : Nat}
    (hs : r.Starts sizes roots h s) : h ∈ r.nodes := by
  induction hs with
  | root hs => exact (hroots.mem.mp (mem_of_window hs)).1
  | child _ hc ih => exact f.child_mem ih (mem_of_window hc)

/-- Every node gets one window. -/
theorem Starts.unique (f : r.Forest) (hroots : r.RootsOk roots) {h : Hash} {s s' : Nat}
    (hs : r.Starts sizes roots h s) (hs' : r.Starts sizes roots h s') : s = s' := by
  induction hs generalizing s' with
  | root hs =>
      have hroot := (hroots.mem.mp (mem_of_window hs)).2
      cases hs' with
      | root hs' => exact window_unique hroots.nodup hs hs'
      | child hp hc =>
          have hparent := ((f.children (hp.mem f hroots) _).mp (mem_of_window hc)).2
          simp [hroot] at hparent
  | child hp hc ih =>
      have hparent := ((f.children (hp.mem f hroots) _).mp (mem_of_window hc)).2
      cases hs' with
      | root hs' => simp [(hroots.mem.mp (mem_of_window hs')).2] at hparent
      | @child q _ t _ hq hc' =>
          have hparent' := ((f.children (hq.mem f hroots) _).mp (mem_of_window hc')).2
          obtain rfl := Option.some.inj (hparent.symm.trans hparent')
          obtain rfl := ih hq
          exact window_unique (f.nodup (hp.mem f hroots)) hc hc'

/-- All windows lie below the root cursor. -/
theorem Starts.bound (f : r.Forest) (hroots : r.RootsOk roots) (hsizes : r.SizesOk sizes) {h : Hash}
    {s : Nat} (hs : r.Starts sizes roots h s) :
    s + widthIn sizes h ≤ (windows sizes roots spaceStart).2 := by
  induction hs with
  | root hs => exact (windows_bounds hs).2
  | @child p c s t hp hc ih =>
      have hwindow : t + widthIn sizes c ≤ _ := (windows_bounds hc).2
      rw [windows_snd] at hwindow
      have hwidth := widthIn_children f hsizes (hp.mem f hroots)
      omega

/-- A node has the labels of its window. -/
def Assigned (r : Reachability) (sizes : ExtTreeMap Hash Nat) (roots : List Hash)
    (r' : Reachability) (h : Hash) : Prop :=
  r.Starts sizes roots h (r'.lo h) ∧ r'.hi h = r'.lo h + widthIn sizes h - 1
    ∧ r'.freeOf h = r'.lo h + ((r.childrenOf h).map (widthIn sizes)).sum

/-- The invariant of the assignment loop. -/
structure AssignInv (r : Reachability) (sizes : ExtTreeMap Hash Nat) (roots : List Hash)
    (stack : List (Hash × Nat)) (r' : Reachability) : Prop where
  tree : r.SameTree r'
  fcs : ∀ h, r'.fcsOf h = r.fcsOf h
  starts : ∀ {e}, e ∈ stack → r.Starts sizes roots e.1 e.2
  all : ∀ h ∈ r.nodes, r.Assigned sizes roots r' h ∨ ∃ e ∈ stack, Above r.parentOf e.1 h

/-- Popping an entry labels its node and pushes its children's windows. -/
theorem AssignInv.pop {n : Hash} {start : Nat} {stack : List (Hash × Nat)} {top : Nat}
    {nodes : ExtTreeMap Hash ReachNode} (f : r.Forest) (hroots : r.RootsOk roots)
    (inv : r.AssignInv sizes roots ((n, start) :: stack) { nodes, nextRootStart := top }) :
    let old := node { nodes, nextRootStart := top } n
    r.AssignInv sizes roots ((windows sizes old.treeChildren start).1.reverse ++ stack)
      { nodes := nodes.insert n
          { old with interval := ⟨start, start + sizes[n]?.getD 0 * scale - 1⟩,
                     nextFree := (windows sizes old.treeChildren start).2 }
        nextRootStart := top } := by
  intro old
  have hstart : r.Starts sizes roots n start := inv.starts (e := (n, start)) (by simp)
  have hn : n ∈ r.nodes := hstart.mem f hroots
  have hchildren : old.treeChildren = r.childrenOf n := inv.tree.children n
  have hmem : n ∈ nodes := (inv.tree.mem n).mpr hn
  refine ⟨⟨fun h => ?_, fun h => ?_, fun h => ?_⟩, fun h => ?_, fun {e} he => ?_, fun h hh => ?_⟩
  · rw [mem_insert_nodes, ← inv.tree.mem h]
    exact ⟨fun hor => hor.elim (fun heq => heq ▸ hmem) id, Or.inr⟩
  · rw [← inv.tree.parent h]
    simp only [parentOf, node_insert]
    split
    · rename_i heq
      rw [← heq]
    · rfl
  · rw [← inv.tree.children h]
    simp only [childrenOf, node_insert]
    split
    · rename_i heq
      rw [← heq]
    · rfl
  · rw [← inv.fcs h]
    simp only [fcsOf, node_insert]
    split
    · rename_i heq
      rw [← heq]
    · rfl
  · rcases List.mem_append.mp he with he | he
    · rw [List.mem_reverse, hchildren] at he
      exact .child hstart he
    · exact inv.starts (List.mem_cons_of_mem _ he)
  · by_cases hhn : n = h
    · subst hhn
      refine Or.inl ?_
      simp only [Assigned, lo, hi, freeOf, node_insert, if_true, windows_snd, hchildren]
      exact ⟨hstart, rfl, trivial⟩
    · rcases inv.all h hh with hdone | ⟨e, he, habove⟩
      · refine Or.inl ?_
        simpa only [Assigned, lo, hi, freeOf, node_insert, hhn, if_false] using hdone
      · rcases List.mem_cons.mp he with rfl | he
        · -- below `n`, and so below one of its children
          rcases habove.split with heq | ⟨c, hc, hch⟩
          · exact absurd heq hhn
          · have hcmem : c ∈ r.childrenOf n :=
              (f.children hn c).mpr ⟨f.mem_of_above hch hh, hc⟩
            obtain ⟨s, hs⟩ := exists_window hcmem start
            refine Or.inr ⟨(c, s), List.mem_append_left _ ?_, hch⟩
            rw [List.mem_reverse, hchildren]
            exact hs
        · exact Or.inr ⟨e, List.mem_append_right _ he, habove⟩

/-- With enough fuel the loop labels every node. -/
theorem AssignInv.assignLoop {stack : List (Hash × Nat)} {fuel : Nat} (f : r.Forest)
    (hroots : r.RootsOk roots) (inv : r.AssignInv sizes roots stack r')
    (hfuel : (stack.map fun e => r.subtreeSize e.1).sum ≤ fuel) :
    r.AssignInv sizes roots [] (assignLoop sizes fuel stack r')
      ∧ (assignLoop sizes fuel stack r').nextRootStart = r'.nextRootStart := by
  induction fuel generalizing stack r' with
  | zero =>
      cases stack with
      | nil => exact ⟨inv, rfl⟩
      | cons e stack =>
          have hsize := f.subtreeSize_eq ((inv.starts (e := e) (by simp)).mem f hroots)
          simp only [List.map_cons, List.sum_cons] at hfuel
          omega
  | succ fuel ih =>
      cases stack with
      | nil => exact ⟨inv, rfl⟩
      | cons e stack =>
          obtain ⟨n, start⟩ := e
          obtain ⟨nodes, top⟩ := r'
          have hn : n ∈ r.nodes := (inv.starts (e := (n, start)) (by simp)).mem f hroots
          refine ih (inv.pop f hroots) ?_
          have hsize := f.subtreeSize_eq hn
          have hpushed : ((windows sizes (node { nodes, nextRootStart := top } n).treeChildren
              start).1.map fun e => r.subtreeSize e.1).sum
              = ((r.childrenOf n).map r.subtreeSize).sum := by
            have hchildren : (node { nodes, nextRootStart := top } n).treeChildren
                = r.childrenOf n := inv.tree.children n
            have hfst := windows_fst sizes (r.childrenOf n) start
            rw [hchildren]
            conv_rhs => rw [← hfst, List.map_map]
            rfl
          simp only [List.map_append, List.map_reverse, List.sum_append, List.sum_reverse, hpushed]
          simp only [List.map_cons, List.sum_cons] at hfuel
          omega

/-- Labels that follow the windows are laminar, and leave room everywhere. -/
theorem wf_of_assigned (f : r.Forest) (hroots : r.RootsOk roots) (hsizes : r.SizesOk sizes)
    (htree : r.SameTree r') (hall : ∀ h ∈ r.nodes, r.Assigned sizes roots r' h)
    (htop : r'.nextRootStart = (windows sizes roots spaceStart).2) :
    r'.WF ∧ ∀ h ∈ r'.nodes, r'.freeOf h < r'.hi h := by
  have hscale : 1 < scale := by decide
  have hwidth : ∀ {h}, h ∈ r.nodes → scale ≤ widthIn sizes h := by
    intro h hh
    have := widthIn_children f hsizes hh
    omega
  have hplaced : ∀ {c p}, c ∈ r.nodes → r.parentOf c = some p →
      r'.lo p ≤ r'.lo c ∧ r'.hi c < r'.freeOf p := by
    intro c p hc hp
    have hpmem := f.parent_mem hc hp
    have hpa := hall p hpmem
    have hca := hall c hc
    obtain ⟨s, hs⟩ := exists_window ((f.children hpmem c).mpr ⟨hc, hp⟩) (r'.lo p)
    have hlo := hca.1.unique f hroots (.child hpa.1 hs)
    have hbounds : r'.lo p ≤ s ∧ s + widthIn sizes c ≤ _ := windows_bounds hs
    rw [windows_snd] at hbounds
    have := hwidth hc
    rw [hca.2.1, hpa.2.2]
    omega
  have hroom : ∀ {h}, h ∈ r.nodes → r'.lo h ≤ r'.freeOf h ∧ r'.freeOf h < r'.hi h := by
    intro h hh
    have ha := hall h hh
    have := widthIn_children f hsizes hh
    rw [ha.2.1, ha.2.2]
    omega
  refine ⟨⟨⟨?_, ?_, ?_, ?_, ?_⟩, ?_, ?_, ?_, ?_⟩, fun h hh => (hroom ((htree.mem h).mp hh)).2⟩
  · intro h p hh hp
    rw [htree.mem] at hh ⊢
    exact f.parent_mem hh (htree.parent h ▸ hp)
  · intro h hh
    have := hroom ((htree.mem h).mp hh)
    omega
  · intro h p hh hp
    rw [htree.mem] at hh
    rw [htree.parent] at hp
    have hin := hplaced hh hp
    have := hroom (f.parent_mem hh hp)
    omega
  · intro h h' hh hh' hne hp
    rw [htree.mem] at hh hh'
    rw [htree.parent, htree.parent] at hp
    have ha := hall h hh
    have ha' := hall h' hh'
    -- both windows come from one list of siblings
    obtain ⟨hs, cursor, hw, hw'⟩ : ∃ hs cursor, (h, r'.lo h) ∈ (windows sizes hs cursor).1
        ∧ (h', r'.lo h') ∈ (windows sizes hs cursor).1 := by
      cases hparent : r.parentOf h with
      | none =>
          obtain ⟨s, hs⟩ := exists_window (hroots.mem.mpr ⟨hh, hparent⟩) spaceStart
          obtain ⟨s', hs'⟩ := exists_window (hroots.mem.mpr ⟨hh', hp ▸ hparent⟩) spaceStart
          exact ⟨roots, spaceStart, ha.1.unique f hroots (.root hs) ▸ hs,
            ha'.1.unique f hroots (.root hs') ▸ hs'⟩
      | some p =>
          have hpmem := f.parent_mem hh hparent
          have hpa := hall p hpmem
          obtain ⟨s, hs⟩ := exists_window ((f.children hpmem h).mpr ⟨hh, hparent⟩) (r'.lo p)
          obtain ⟨s', hs'⟩ :=
            exists_window ((f.children hpmem h').mpr ⟨hh', hp ▸ hparent⟩) (r'.lo p)
          exact ⟨r.childrenOf p, r'.lo p, ha.1.unique f hroots (.child hpa.1 hs) ▸ hs,
            ha'.1.unique f hroots (.child hpa.1 hs') ▸ hs'⟩
    have hapart := windows_apart hw hw' hne
    have := hwidth hh
    have := hwidth hh'
    rw [ha.2.1, ha'.2.1]
    simp only at hapart
    omega
  · intro h hh
    rw [htree.mem] at hh
    have ha := hall h hh
    have hbound := ha.1.bound f hroots hsizes
    have := hwidth hh
    rw [htop, ha.2.1]
    omega
  · intro p hp c
    rw [htree.children, htree.mem, htree.parent]
    exact f.children ((htree.mem p).mp hp) c
  · intro p hp
    rw [htree.children]
    exact f.nodup ((htree.mem p).mp hp)
  · intro h hh
    have := hroom ((htree.mem h).mp hh)
    omega
  · intro c p hc hp
    exact (hplaced ((htree.mem c).mp hc) (htree.parent c ▸ hp)).2

end Assign

/-! ### Reindexing -/

/-- Well-formedness reads the links, the labels and the root cursor only. -/
theorem WF.congr {r r' : Reachability} (w : r.WF) (htree : r.SameTree r')
    (hlabels : ∀ h, r'.lo h = r.lo h ∧ r'.hi h = r.hi h ∧ r'.freeOf h = r.freeOf h)
    (htop : r'.nextRootStart = r.nextRootStart) : r'.WF := by
  have hlo : r'.lo = r.lo := funext fun h => (hlabels h).1
  have hhi : r'.hi = r.hi := funext fun h => (hlabels h).2.1
  have hfree : r'.freeOf = r.freeOf := funext fun h => (hlabels h).2.2
  have hparent : r'.parentOf = r.parentOf := funext htree.parent
  have hmem : (· ∈ r'.nodes) = (· ∈ r.nodes) := funext fun h => propext (htree.mem h)
  refine ⟨?_, fun hp c => ?_, fun hp => ?_, fun hh => ?_, fun hc hp => ?_⟩
  · rw [hmem, hparent, hlo, hhi, htop]
    exact w.laminar
  · rw [htree.children, htree.mem, hparent]
    exact w.children ((htree.mem _).mp hp) c
  · rw [htree.children]
    exact w.nodup ((htree.mem _).mp hp)
  · rw [hlo, hhi, hfree]
    exact w.free ((htree.mem _).mp hh)
  · rw [hhi, hfree]
    exact w.placed ((htree.mem _).mp hc) (hparent ▸ hp)

theorem node_map (nodes : ExtTreeMap Hash ReachNode) (top top' : Nat) (f : ReachNode → ReachNode)
    (hf : f {} = {}) (h : Hash) :
    node { nodes := nodes.map fun _ n => f n, nextRootStart := top } h
      = f (node { nodes, nextRootStart := top' } h) := by
  simp only [node, ExtTreeMap.getElem?_map]
  cases nodes[h]? with
  | none => simp [hf]
  | some n => rfl

theorem node_sortFcs (r : Reachability) (h : Hash) :
    r.sortFcs.node h = { r.node h with fcs := (r.fcsOf h).mergeSort fun a b => r.lo a ≤ r.lo b } := by
  obtain ⟨nodes, top⟩ := r
  exact node_map nodes top top _ (by simp) h

/-- What a reindex keeps and what it gives: the same blocks, links and covering
sets, sorted by the new labels, with room for a child everywhere. -/
structure Reindexed (r r' : Reachability) : Prop where
  wf : r'.WF
  tree : r.SameTree r'
  fcs : ∀ h, (r'.fcsOf h).Perm (r.fcsOf h)
  sorted : ∀ h, (r'.fcsOf h).Pairwise fun a b => r'.lo a ≤ r'.lo b
  room : ∀ h ∈ r'.nodes, r'.freeOf h < r'.hi h
  top : r'.nextRootStart = spaceStart + r.nodes.size * scale

/-- Sorting the covering sets after the labels have been assigned. -/
theorem sortFcs_spec {r r' : Reachability} (w : r'.WF) (htree : r.SameTree r')
    (hfcs : ∀ h, r'.fcsOf h = r.fcsOf h) (hroom : ∀ h ∈ r'.nodes, r'.freeOf h < r'.hi h)
    (htop : r'.nextRootStart = spaceStart + r.nodes.size * scale) :
    r.Reindexed r'.sortFcs := by
  have hnode := node_sortFcs r'
  have hmem : ∀ h, h ∈ r'.sortFcs.nodes ↔ h ∈ r'.nodes := by
    intro h
    simp [sortFcs]
  have hsort : r'.SameTree r'.sortFcs :=
    ⟨hmem, fun h => by simp [parentOf, hnode], fun h => by simp [childrenOf, hnode]⟩
  refine ⟨w.congr hsort (fun h => by simp [lo, hi, freeOf, hnode]) rfl,
    ⟨fun h => (hmem h).trans (htree.mem h), fun h => ?_, fun h => ?_⟩, fun h => ?_, fun h => ?_,
    fun h hh => ?_, htop⟩
  · rw [hsort.parent, htree.parent]
  · rw [hsort.children, htree.children]
  · simp only [fcsOf, hnode]
    exact (List.mergeSort_perm _ _).trans (List.Perm.of_eq (hfcs h))
  · have hlo : r'.sortFcs.lo = r'.lo := funext fun h => by simp [lo, hnode]
    have hsorted : ((r'.fcsOf h).mergeSort fun a b => r'.lo a ≤ r'.lo b).Pairwise
        fun a b => decide (r'.lo a ≤ r'.lo b) = true := by
      refine List.pairwise_mergeSort ?_ ?_ _
      · simp only [decide_eq_true_eq]
        omega
      · simp only [Bool.or_eq_true, decide_eq_true_eq]
        omega
    rw [hlo, fcsOf, hnode]
    exact hsorted.imp fun {a b} hab => by simpa using hab
  · simp only [freeOf, hi, hnode]
    exact hroom h ((hmem h).mp hh)

theorem reindexAll_spec {r : Reachability} (f : r.Forest) {iter : List Hash → List Hash}
    (hiter : ∀ xs, (iter xs).Perm xs) : r.Reindexed (r.reindexAll iter) := by
  have hroots : r.RootsOk (r.roots iter) :=
    ⟨f.mem_roots hiter, (((hiter _).nodup_iff.mpr ExtTreeMap.nodup_keys).filter _)⟩
  have hsizes : r.SizesOk (r.subtreeSizes iter) := fun h hh => getElem?_subtreeSizes f hiter hh
  have hinv : r.AssignInv (r.subtreeSizes iter) (r.roots iter)
      (windows (r.subtreeSizes iter) (r.roots iter) spaceStart).1.reverse
      { r with nextRootStart := (windows (r.subtreeSizes iter) (r.roots iter) spaceStart).2 } := by
    refine ⟨⟨fun _ => Iff.rfl, fun _ => rfl, fun _ => rfl⟩, fun _ => rfl, ?_, ?_⟩
    · intro e he
      exact .root (List.mem_reverse.mp he)
    · intro h hh
      obtain ⟨t, ht, htn, hth⟩ := f.exists_root hh
      obtain ⟨s, hs⟩ := exists_window (hroots.mem.mpr ⟨ht, htn⟩) spaceStart
      exact Or.inr ⟨(t, s), List.mem_reverse.mpr hs, hth⟩
  have hfuel : ((windows (r.subtreeSizes iter) (r.roots iter) spaceStart).1.reverse.map
      fun e => r.subtreeSize e.1).sum ≤ r.nodes.size := by
    rw [← f.sum_roots hiter, List.map_reverse, List.sum_reverse]
    conv_rhs => rw [← windows_fst (r.subtreeSizes iter) (r.roots iter) spaceStart, List.map_map]
    rfl
  obtain ⟨hdone, htop⟩ := hinv.assignLoop f hroots hfuel
  obtain ⟨hwf, hroom⟩ := wf_of_assigned f hroots hsizes hdone.tree
    (fun h hh => (hdone.all h hh).resolve_right (by simp)) htop
  refine sortFcs_spec hwf hdone.tree hdone.fcs hroom ?_
  rw [htop, windows_snd, ← f.sum_roots hiter, ← List.sum_map_mul_right, List.map_congr_left]
  intro h hh
  exact widthIn_eq hsizes (hroots.mem.mp hh).1

/-! ### What a reindex restores -/

/-- Intervals of unrelated nodes do not meet. -/
theorem WF.disjoint {r : Reachability} (w : r.WF) {a b : Hash} (ha : a ∈ r.nodes) (hb : b ∈ r.nodes)
    (hab : ¬ Above r.parentOf a b) (hba : ¬ Above r.parentOf b a) : r.hi a < r.lo b ∨ r.hi b < r.lo a := by
  by_contra hmeet
  have hala := w.laminar.le ha
  have halb := w.laminar.le hb
  have hpoint : ∃ t, (r.lo a ≤ t ∧ t ≤ r.hi a) ∧ (r.lo b ≤ t ∧ t ≤ r.hi b) :=
    ⟨max (r.lo a) (r.lo b), by omega, by omega⟩
  obtain ⟨t, hat, hbt⟩ := hpoint
  exact (w.laminar.comparable ha hb hat hbt).elim hab hba

/-- A node with a free unit takes a child. -/
theorem tryPlaceChild_isSome {r : Reachability} {p : Hash} (h : r.freeOf p < r.hi p) (hash : Hash) :
    (r.tryPlaceChild p hash).isSome := by
  have hroom : ¬ (r.node p).nextFree ≥ (r.node p).interval.end_ := Nat.not_le.mpr h
  rw [tryPlaceChild]
  dsimp only
  rw [if_neg hroom]
  rfl

/-- Intervals over the links of an index: nested along them, apart otherwise, with room below
each node, below the root cursor and within the space, and covering sets in their order. -/
structure Restored (r r' : Reachability) : Prop where
  tree : r.SameTree r'
  nested : ∀ a b, b ∈ r.nodes → Above r.parentOf a b → a ≠ b → r'.lo a ≤ r'.lo b ∧ r'.hi b < r'.hi a
  apart : ∀ a b, a ∈ r.nodes → b ∈ r.nodes → ¬ Above r.parentOf a b → ¬ Above r.parentOf b a →
    r'.hi a < r'.lo b ∨ r'.hi b < r'.lo a
  room : ∀ p ∈ r.nodes, (∀ c ∈ r.childrenOf p, r'.hi c < r'.freeOf p) ∧ r'.freeOf p < r'.hi p
  retry : ∀ p ∈ r.nodes, ∀ hash, (r'.tryPlaceChild p hash).isSome
  cursor : ∀ h ∈ r.nodes, r'.hi h < r'.nextRootStart
  bounded : r'.nextRootStart < 2 ^ 62 ∧
    ∀ h ∈ r.nodes, r'.lo h ≤ r'.hi h ∧ r'.hi h < 2 ^ 62 ∧ r'.freeOf h < 2 ^ 62
  members : ∀ h, (r'.fcsOf h).Perm (r.fcsOf h)
  sorted : ∀ h, (r'.fcsOf h).Pairwise fun a b => r'.lo a ≤ r'.lo b

/-- A reindex restores the intervals of every forest of fewer than 2⁴⁰ nodes, whatever they
were, and the sizes it works with are those of the subtrees. -/
theorem reindex_restores (r : Reachability) (iter : List Hash → List Hash) (hiter : ∀ xs, (iter xs).Perm xs)
    (f : r.Forest) (hsize : r.nodes.size < 2 ^ 40) :
    r.Restored (r.reindexAll iter) ∧ ∀ h ∈ r.nodes, (r.subtreeSizes iter)[h]? = some (r.subtreeSize h) := by
  have hr := reindexAll_spec f hiter
  have hparent : (r.reindexAll iter).parentOf = r.parentOf := funext hr.tree.parent
  have hmem : ∀ {h}, h ∈ r.nodes → h ∈ (r.reindexAll iter).nodes := fun hh => (hr.tree.mem _).mpr hh
  have htop : (r.reindexAll iter).nextRootStart < 2 ^ 62 := by
    have hmul : r.nodes.size * scale ≤ 2 ^ 40 * scale := Nat.mul_le_mul_right _ hsize.le
    have hfit : spaceStart + 2 ^ 40 * scale < 2 ^ 62 := by decide
    rw [hr.top]
    omega
  refine ⟨⟨hr.tree, fun a b hb habove hne => ?_, fun a b ha hb hab hba => ?_, fun p hp => ⟨fun c hc => ?_, hr.room p (hmem hp)⟩,
    fun p hp hash => tryPlaceChild_isSome (hr.room p (hmem hp)) hash, fun h hh => hr.wf.laminar.bounded (hmem hh),
    ⟨htop, fun h hh => ?_⟩, hr.fcs, hr.sorted⟩, fun h hh => getElem?_subtreeSizes f hiter hh⟩
  · rw [← hparent] at habove
    exact ⟨(hr.wf.laminar.contains_of_above habove (hmem hb)).1, hr.wf.laminar.lt_of_above habove (hmem hb) hne⟩
  · rw [← hparent] at hab hba
    exact hr.wf.disjoint (hmem ha) (hmem hb) hab hba
  · obtain ⟨hcmem, hcp⟩ := (f.children hp c).mp hc
    exact hr.wf.placed (hmem hcmem) (by rw [hparent]; exact hcp)
  · have hle := hr.wf.laminar.le (hmem hh)
    have hbound := hr.wf.laminar.bounded (hmem hh)
    have hfree := (hr.wf.free (hmem hh)).2
    exact ⟨hle, by omega, by omega⟩

end Reachability

namespace Sample

open Reachability

/-- A root and its child, both without an interval. -/
def blankPair : Reachability where
  nodes := ((∅ : ExtTreeMap Hash ReachNode).insert (Hash.ofNat 1) { treeChildren := [Hash.ofNat 2] }).insert (Hash.ofNat 2)
    { treeParent := some (Hash.ofNat 1) }

theorem node_blankPair (h : Hash) : blankPair.node h = if Hash.ofNat 2 = h then { treeParent := some (Hash.ofNat 1) }
    else if Hash.ofNat 1 = h then { treeChildren := [Hash.ofNat 2] } else {} := by
  rw [node, blankPair, ExtTreeMap.getElem?_insert, ExtTreeMap.getElem?_insert]
  simp only [Std.LawfulEqCmp.compare_eq_iff_eq]
  split
  · rfl
  · split
    · rfl
    · simp

theorem mem_blankPair (h : Hash) : h ∈ blankPair.nodes ↔ Hash.ofNat 2 = h ∨ Hash.ofNat 1 = h := by
  rw [blankPair, mem_insert_nodes, mem_insert_nodes, or_iff_left (a := Hash.ofNat 1 = h) ExtTreeMap.not_mem_empty]

theorem parentOf_blankPair {h p : Hash} : blankPair.parentOf h = some p ↔ Hash.ofNat 2 = h ∧ Hash.ofNat 1 = p := by
  rw [parentOf, node_blankPair]
  by_cases hchild : Hash.ofNat 2 = h
  · simp [hchild]
  · rw [if_neg hchild]
    split <;> simp [hchild]

theorem childrenOf_blankPair {p c : Hash} : c ∈ blankPair.childrenOf p ↔ Hash.ofNat 1 = p ∧ Hash.ofNat 2 = c := by
  have hne : Hash.ofNat 1 ≠ Hash.ofNat 2 := by decide +kernel
  rw [childrenOf, node_blankPair]
  by_cases hchild : Hash.ofNat 2 = p
  · subst hchild
    simp [hne]
  · rw [if_neg hchild]
    by_cases hroot : Hash.ofNat 1 = p
    · rw [if_pos hroot, List.mem_singleton]
      exact ⟨fun h => ⟨hroot, h.symm⟩, fun h => h.2.symm⟩
    · simp [hroot]

theorem blankPair_forest : blankPair.Forest := by
  have hne : Hash.ofNat 2 ≠ Hash.ofNat 1 := by decide +kernel
  refine ⟨fun _ hp => ?_, fun hp c => ?_, fun {p} hp => ?_, fun _ hp habove => ?_⟩
  · exact (mem_blankPair _).mpr (Or.inr (parentOf_blankPair.mp hp).2)
  · rw [childrenOf_blankPair, mem_blankPair, parentOf_blankPair]
    exact ⟨fun ⟨hroot, hchild⟩ => ⟨Or.inl hchild, hchild, hroot⟩, fun ⟨_, hchild, hroot⟩ => ⟨hroot, hchild⟩⟩
  · rw [childrenOf, node_blankPair]
    split
    · exact List.nodup_nil
    · split
      · exact List.nodup_singleton _
      · exact List.nodup_nil
  · obtain ⟨rfl, rfl⟩ := parentOf_blankPair.mp hp
    rcases habove.cases_step with heq | ⟨q, hq, -⟩
    · exact hne heq
    · exact hne (parentOf_blankPair.mp hq).1

theorem blankPair_restored : blankPair.Restored (blankPair.reindexAll id) ∧
    ∀ h ∈ blankPair.nodes, (blankPair.subtreeSizes id)[h]? = some (blankPair.subtreeSize h) := by
  refine reindex_restores blankPair id (fun xs => List.Perm.refl xs) blankPair_forest ?_
  rw [blankPair, ExtTreeMap.size_insert, ExtTreeMap.size_insert, ExtTreeMap.size_empty]
  split <;> split <;> norm_num

end Sample

end HassanNode
