import Mathlib
import HassanNode.Lib.Laminar
import HassanNode.Consensus.Ghostdag

/-!
# HassanNode.Consensus.Past

The past of a block, and what the functions of `ghostdag.rs` compute in terms
of it: the searches find exactly the past, `select_best` the greatest candidate,
and `try_compute_ghostdag_data` splits the mergeset, whatever oracle colors it.
Last, GHOSTDAG data is *local*: it depends on the past of the parents only.
-/

namespace HassanNode

open Std (ExtTreeMap ExtTreeSet)

/-- `a` is a strict ancestor of `b`. -/
def Past (dag : Dag) (a b : Hash) : Prop :=
  Relation.TransGen (fun x y => x ∈ dag.parentsOf y) a b

namespace Past

variable {dag dag' : Dag} {a b c : Hash}

theorem parent (h : a ∈ dag.parentsOf b) : Past dag a b := .single h

theorem trans (hab : Past dag a b) (hbc : Past dag b c) : Past dag a c :=
  Relation.TransGen.trans hab hbc

/-- Through some parent of `b`. -/
theorem cases_parent (h : Past dag a b) : ∃ p ∈ dag.parentsOf b, a = p ∨ Past dag a p := by
  cases h with
  | single h => exact ⟨a, h, Or.inl rfl⟩
  | tail hac hcb => exact ⟨_, hcb, Or.inr hac⟩

theorem of_parent {p : Hash} (hp : p ∈ dag.parentsOf b) (h : a = p ∨ Past dag a p) :
    Past dag a b := by
  rcases h with rfl | h
  · exact .parent hp
  · exact h.trans (.parent hp)

/-- A past inside a set of blocks with the same parents in both DAGs. -/
theorem congr {A : Hash → Prop} (hsame : ∀ h, A h → dag'.parentsOf h = dag.parentsOf h)
    (hclosed : ∀ h, A h → ∀ p ∈ dag.parentsOf h, A p) (hb : A b) :
    Past dag' a b ↔ Past dag a b := by
  constructor
  · intro h
    induction h with
    | single h => exact .parent (hsame _ hb ▸ h)
    | tail _ hcb ih =>
        rw [hsame _ hb] at hcb
        exact (ih (hclosed _ hb _ hcb)).trans (.parent hcb)
  · intro h
    induction h with
    | single h => exact .parent (hsame _ hb ▸ h)
    | tail _ hcb ih =>
        have hc := hclosed _ hb _ hcb
        exact (ih hc).trans (.parent (hsame _ hb ▸ hcb))

/-- The past of a block of a closed set stays in it. -/
theorem mem_of_closed {A : Hash → Prop} (hclosed : ∀ h, A h → ∀ p ∈ dag.parentsOf h, A p)
    (hb : A b) (h : Past dag a b) : A a := by
  induction h with
  | single h => exact hclosed _ hb _ h
  | tail _ hcb ih => exact ih (hclosed _ hb _ hcb)

end Past

/-! ### Searches -/

namespace Dag

variable {dag : Dag}

theorem parentsOf_eq_nil {h : Hash} (hh : h ∉ dag) : dag.parentsOf h = [] := by
  simp [parentsOf, ExtTreeMap.getElem?_eq_none hh]

theorem parentsOf_eq {h : Hash} {b : Block} (hb : dag[h]? = some b) :
    dag.parentsOf h = b.parents := by
  simp [parentsOf, hb]

/-- A search of this DAG has enough fuel. -/
theorem mem_search {blocked : Hash → Bool} {stack : List Hash} {seen : ExtTreeSet Hash} {y : Hash} :
    y ∈ Search.explore dag.parentsOf blocked (dag.searchFuel stack) stack.reverse seen ↔
      y ∈ seen ∨ Search.Reach dag.parentsOf (fun z => blocked z = false ∧ z ∉ seen) stack.reverse y := by
  have hleaf : ∀ x, x ∉ dag.keys → dag.parentsOf x = [] := by
    intro x hx
    exact parentsOf_eq_nil fun h => hx (ExtTreeMap.mem_keys.mpr h)
  refine Search.mem_explore ExtTreeMap.nodup_keys hleaf ?_ y
  rw [List.length_reverse, searchFuel, Search.budget]
  refine Nat.add_le_add_left ?_ _
  exact (List.filter_sublist.map _).sum_le_sum fun _ _ => Nat.zero_le _

/-- `bfs_ancestors` finds exactly the strict ancestors. -/
theorem mem_bfsAncestors {a b : Hash} : a ∈ dag.bfsAncestors b ↔ Past dag a b := by
  rw [bfsAncestors, mem_search]
  simp only [ExtTreeSet.not_mem_empty, not_false_eq_true, and_true, false_or]
  constructor
  · intro h
    induction h with
    | root _ hx => exact .parent (List.mem_reverse.mp hx)
    | edge _ _ hy ih => exact (Past.parent hy).trans ih
  · intro h
    induction h using Relation.TransGen.head_induction_on with
    | single h => exact .root trivial (List.mem_reverse.mpr h)
    | head hac _ ih => exact .edge ih trivial hac

theorem bfsIsAncestor_iff {a b : Hash} : dag.bfsIsAncestor a b = true ↔ Past dag a b := by
  rw [bfsIsAncestor, ExtTreeSet.contains_iff_mem, mem_bfsAncestors]

theorem mem_pastInclusive {y sp : Hash} :
    y ∈ dag.pastInclusive sp ↔ y = sp ∨ Past dag y sp := by
  have hseen : ∀ z, z ∈ ExtTreeSet.insert (∅ : ExtTreeSet Hash) sp ↔ sp = z := by
    intro z
    simp [ExtTreeSet.mem_insert]
  rw [pastInclusive, mem_search]
  simp only [hseen, true_and]
  constructor
  · rintro (rfl | h)
    · exact Or.inl rfl
    · refine Or.inr ?_
      induction h with
      | root _ hx => exact .parent (List.mem_reverse.mp hx)
      | edge _ _ hy ih => exact (Past.parent hy).trans ih
  · rintro (rfl | h)
    · exact Or.inl rfl
    · -- a path can be started at its last visit of `sp`
      induction h using Relation.TransGen.head_induction_on with
      | @single y h =>
          by_cases hy : sp = y
          · exact Or.inl hy
          · exact Or.inr (.root hy (List.mem_reverse.mpr h))
      | @head y c hyc _ ih =>
          by_cases hy : sp = y
          · exact Or.inl hy
          · rcases ih with rfl | hreach
            · exact Or.inr (.root hy (List.mem_reverse.mpr hyc))
            · exact Or.inr (.edge hreach hy hyc)

/-- `mergeset`: the parents and their pasts, less the selected parent and its
past. -/
theorem mem_mergeset {parents : List Hash} {sp y : Hash} :
    y ∈ dag.mergeset parents sp ↔
      (∃ p ∈ parents, y = p ∨ Past dag y p) ∧ ¬ (y = sp ∨ Past dag y sp) := by
  have hblocked : ∀ z, (dag.pastInclusive sp).contains z = false ↔ ¬ (z = sp ∨ Past dag z sp) := by
    intro z
    rw [← mem_pastInclusive, ← ExtTreeSet.contains_iff_mem, Bool.not_eq_true]
  rw [mergeset, ExtTreeSet.mem_toList, mem_search]
  simp only [ExtTreeSet.not_mem_empty, not_false_eq_true, and_true, false_or, hblocked]
  constructor
  · intro h
    refine ⟨?_, h.ok⟩
    induction h with
    | root _ hx => exact ⟨_, List.mem_reverse.mp hx, Or.inl rfl⟩
    | edge _ _ hy ih =>
        obtain ⟨p, hp, hxp⟩ := ih
        refine ⟨p, hp, Or.inr ?_⟩
        rcases hxp with rfl | hxp
        · exact .parent hy
        · exact (Past.parent hy).trans hxp
  · rintro ⟨⟨p, hp, rfl | hyp⟩, hout⟩
    · exact .root hout (List.mem_reverse.mpr hp)
    · -- everything above a block outside the past is outside it too
      induction hyp using Relation.TransGen.head_induction_on with
      | @single y h =>
          have hpout : ¬ (p = sp ∨ Past dag p sp) := by
            rintro (rfl | hps)
            · exact hout (Or.inr (.parent h))
            · exact hout (Or.inr ((Past.parent h).trans hps))
          exact .edge (.root hpout (List.mem_reverse.mpr hp)) hout h
      | @head y c hyc _ ih =>
          have hcout : ¬ (c = sp ∨ Past dag c sp) := by
            rintro (rfl | hcs)
            · exact hout (Or.inr (.parent hyc))
            · exact hout (Or.inr ((Past.parent hyc).trans hcs))
          exact .edge (ih hcout) hout hyc

theorem nodup_mergeset {parents : List Hash} {sp : Hash} : (dag.mergeset parents sp).Nodup := by
  refine ExtTreeSet.distinct_toList.imp ?_
  rintro a b hab rfl
  exact hab Std.ReflOrd.compare_self

end Dag

/-! ### DAGs that grow parents-first -/

/-- Every cited parent is known, and no block is in its own past. -/
structure Dag.Closed (dag : Dag) : Prop where
  parents : ∀ h, ∀ p ∈ dag.parentsOf h, p ∈ dag
  irrefl : ∀ h, ¬ Past dag h h

namespace Dag.Closed

variable {dag : Dag} {hash : Hash} {block : Block}

theorem empty : Dag.Closed (∅ : Dag) := by
  have hnone : ∀ h, Dag.parentsOf ∅ h = [] := fun h => Dag.parentsOf_eq_nil (by simp)
  refine ⟨fun h p hp => by simp [hnone] at hp, fun h hpast => ?_⟩
  obtain ⟨p, hp, -⟩ := hpast.cases_parent
  simp [hnone] at hp

theorem mem_of_past (c : dag.Closed) {a b : Hash} (h : Past dag a b) : a ∈ dag := by
  induction h using Relation.TransGen.head_induction_on with
  | single hab => exact c.parents _ _ hab
  | head hab _ _ => exact c.parents _ _ hab

theorem parentsOf_insert {k : Hash} :
    Dag.parentsOf (dag.insert hash block) k = if hash = k then block.parents else dag.parentsOf k := by
  simp only [Dag.parentsOf, ExtTreeMap.getElem?_insert, Std.LawfulEqCmp.compare_eq_iff_eq]
  split <;> rfl

section Insert

variable (c : dag.Closed) (hnew : hash ∉ dag)

include c hnew in
/-- A new block is in nobody's past but its own descendants', of which there are
none. -/
theorem past_insert {x y : Hash} (hy : y ≠ hash) :
    Past (dag.insert hash block) x y ↔ Past dag x y := by
  refine Past.congr (A := (· ≠ hash)) (fun h hh => ?_) (fun h _ p hp => ?_) hy
  · rw [parentsOf_insert, if_neg fun heq => hh heq.symm]
  · rintro rfl
    exact hnew (c.parents h p hp)

include c hnew in
theorem past_insert_self (hknown : ∀ p ∈ block.parents, p ∈ dag) {x : Hash} :
    Past (dag.insert hash block) x hash ↔ ∃ p ∈ block.parents, x = p ∨ Past dag x p := by
  have hparents : Dag.parentsOf (dag.insert hash block) hash = block.parents := by
    rw [parentsOf_insert, if_pos rfl]
  have hold : ∀ {p}, p ∈ block.parents → p ≠ hash := fun hp heq => hnew (heq ▸ hknown _ hp)
  constructor
  · intro h
    obtain ⟨p, hp, hxp⟩ := h.cases_parent
    rw [hparents] at hp
    exact ⟨p, hp, hxp.imp id (c.past_insert hnew (hold hp)).mp⟩
  · rintro ⟨p, hp, hxp⟩
    exact .of_parent (hparents ▸ hp) (hxp.imp id (c.past_insert hnew (hold hp)).mpr)

include c hnew in
theorem not_past_new (hknown : ∀ p ∈ block.parents, p ∈ dag) (k : Hash) :
    ¬ Past (dag.insert hash block) hash k := by
  intro h
  by_cases hk : k = hash
  · subst hk
    obtain ⟨p, hp, rfl | hpast⟩ := (c.past_insert_self hnew hknown).mp h
    · exact hnew (hknown _ hp)
    · exact hnew (c.mem_of_past hpast)
  · exact hnew (c.mem_of_past ((c.past_insert hnew hk).mp h))

include c hnew in
theorem insert (hknown : ∀ p ∈ block.parents, p ∈ dag) : Dag.Closed (dag.insert hash block) := by
  refine ⟨fun h p hp => ?_, fun h hpast => ?_⟩
  · rw [parentsOf_insert] at hp
    rw [ExtTreeMap.mem_insert]
    split at hp
    · exact Or.inr (hknown p hp)
    · exact Or.inr (c.parents h p hp)
  · by_cases hh : h = hash
    · subst hh
      exact c.not_past_new hnew hknown h hpast
    · exact c.irrefl h ((c.past_insert hnew hh).mp hpast)

end Insert

end Dag.Closed

/-! ### Selection -/

namespace GhostdagMap

variable {gd gd' : GhostdagMap}

theorem rankLe_iff {a b : Hash} : gd.rankLe a b = true ↔
    gd.scoreOf a < gd.scoreOf b ∨ gd.scoreOf a = gd.scoreOf b ∧ a ≤ b := by
  simp [rankLe]

theorem rankLe_total (a b : Hash) : gd.rankLe a b = true ∨ gd.rankLe b a = true := by
  rw [rankLe_iff, rankLe_iff]
  rcases Nat.lt_trichotomy (gd.scoreOf a) (gd.scoreOf b) with h | h | h
  · exact Or.inl (Or.inl h)
  · rcases le_total a b with hab | hba
    · exact Or.inl (Or.inr ⟨h, hab⟩)
    · exact Or.inr (Or.inr ⟨h.symm, hba⟩)
  · exact Or.inr (Or.inl h)

theorem rankLe_trans {a b c : Hash} (hab : gd.rankLe a b = true) (hbc : gd.rankLe b c = true) :
    gd.rankLe a c = true := by
  rw [rankLe_iff] at *
  rcases hab with hab | ⟨hab, hle⟩ <;> rcases hbc with hbc | ⟨hbc, hle'⟩
  · exact Or.inl (by omega)
  · exact Or.inl (by omega)
  · exact Or.inl (by omega)
  · exact Or.inr ⟨by omega, hle.trans hle'⟩

theorem rankLe_antisymm {a b : Hash} (hab : gd.rankLe a b = true) (hba : gd.rankLe b a = true) :
    a = b := by
  rw [rankLe_iff] at *
  rcases hab with hab | ⟨_, hle⟩ <;> rcases hba with hba | ⟨_, hle'⟩
  · omega
  · omega
  · omega
  · exact le_antisymm hle hle'

theorem score_le_of_rankLe {a b : Hash} (h : gd.rankLe a b = true) : gd.scoreOf a ≤ gd.scoreOf b := by
  rw [rankLe_iff] at h
  omega

/-- `b` is the greatest known candidate. -/
structure IsBest (gd : GhostdagMap) (candidates : List Hash) (b : Hash) : Prop where
  mem : b ∈ candidates
  known : b ∈ gd
  best : ∀ c ∈ candidates, c ∈ gd → gd.rankLe c b = true

/-- The fold keeps the best of what it has seen. -/
theorem foldl_better (d : Hash) (xs : List Hash) :
    ∃ b, xs.foldl gd.better (some d) = some b ∧ b ∈ d :: xs
      ∧ ∀ c ∈ d :: xs, gd.rankLe c b = true := by
  induction xs generalizing d with
  | nil => exact ⟨d, rfl, by simp, by simpa using gd.rankLe_total d d⟩
  | cons x xs ih =>
      rw [List.foldl_cons, better]
      split
      · rename_i hdx
        obtain ⟨b, hb, hmem, hall⟩ := ih x
        refine ⟨b, hb, List.mem_cons_of_mem d hmem, fun c hc => ?_⟩
        rcases List.mem_cons.mp hc with rfl | hc
        · exact rankLe_trans hdx (hall x (by simp))
        · exact hall c hc
      · rename_i hdx
        have hxd := (gd.rankLe_total d x).resolve_left hdx
        obtain ⟨b, hb, hmem, hall⟩ := ih d
        refine ⟨b, hb, ?_, fun c hc => ?_⟩
        · rcases List.mem_cons.mp hmem with rfl | hmem
          · exact List.mem_cons_self
          · exact List.mem_cons_of_mem d (List.mem_cons_of_mem x hmem)
        · rcases List.mem_cons.mp hc with rfl | hc
          · exact hall c (by simp)
          · rcases List.mem_cons.mp hc with rfl | hc
            · exact rankLe_trans hxd (hall d (by simp))
            · exact hall c (List.mem_cons_of_mem d hc)

/-- `max_by` returns the greatest known candidate, if there is any. -/
theorem selectBest_eq_some {candidates : List Hash} {b : Hash} :
    gd.selectBest candidates = some b ↔ gd.IsBest candidates b := by
  have hmem : ∀ {c}, c ∈ candidates.filter gd.contains ↔ c ∈ candidates ∧ c ∈ gd := by
    intro c
    simp [List.mem_filter]
  unfold selectBest
  cases hknown : candidates.filter gd.contains with
  | nil =>
      refine ⟨fun h => absurd h (by simp), fun hb => ?_⟩
      have := hmem.mpr ⟨hb.mem, hb.known⟩
      simp [hknown] at this
  | cons x xs =>
      obtain ⟨t, ht, htmem, htall⟩ := gd.foldl_better x xs
      rw [← hknown] at htmem htall
      have htbest : gd.IsBest candidates t :=
        ⟨(hmem.mp htmem).1, (hmem.mp htmem).2, fun c hc hk => htall c (hmem.mpr ⟨hc, hk⟩)⟩
      rw [List.foldl_cons, better, ht, Option.some_inj]
      constructor
      · rintro rfl
        exact htbest
      · intro hb
        exact rankLe_antisymm (hb.best t htbest.mem htbest.known) (htbest.best b hb.mem hb.known)

theorem selectBest_isSome {candidates : List Hash} {c : Hash} (hc : c ∈ candidates) (hk : c ∈ gd) :
    ∃ b, gd.selectBest candidates = some b := by
  have hmem : c ∈ candidates.filter gd.contains := List.mem_filter.mpr ⟨hc, by simpa using hk⟩
  unfold selectBest
  cases hknown : candidates.filter gd.contains with
  | nil => simp [hknown] at hmem
  | cons x xs =>
      obtain ⟨t, ht, -, -⟩ := gd.foldl_better x xs
      exact ⟨t, ht⟩

/-! ### The selected chain -/

/-- Selected parents have smaller scores, so a walk ends before its fuel. -/
def Descends (gd : GhostdagMap) : Prop :=
  ∀ h d p, gd[h]? = some d → d.selectedParent = some p → gd.scoreOf p < gd.scoreOf h

/-- The selected parent of a block, if it has one. -/
def spOf (gd : GhostdagMap) (h : Hash) : Option Hash := gd[h]?.bind GhostdagData.selectedParent

theorem mem_of_spOf {h p : Hash} (hp : gd.spOf h = some p) : h ∈ gd := by
  obtain ⟨d, hd, -⟩ := Option.bind_eq_some_iff.mp hp
  simp [ExtTreeMap.mem_iff_isSome_getElem?, hd]

theorem Descends.spOf_lt (hd : gd.Descends) {h p : Hash} (hp : gd.spOf h = some p) :
    gd.scoreOf p < gd.scoreOf h := by
  rw [spOf, Option.bind_eq_some_iff] at hp
  obtain ⟨d, hd', hp⟩ := hp
  exact hd h d p hd' hp

/-- Fuel beyond the score changes nothing. -/
theorem selectedWalk_stable (hd : gd.Descends) {fuel fuel' : Nat} {h : Hash}
    (hf : gd.scoreOf h < fuel) (hf' : gd.scoreOf h < fuel') :
    gd.selectedWalk fuel h = gd.selectedWalk fuel' h := by
  induction fuel generalizing fuel' h with
  | zero => omega
  | succ fuel ih =>
      obtain ⟨fuel', rfl⟩ := Nat.exists_eq_succ_of_ne_zero (by omega : fuel' ≠ 0)
      simp only [selectedWalk]
      cases hp : gd[h]?.bind GhostdagData.selectedParent with
      | none => rfl
      | some p =>
          have := hd.spOf_lt hp
          exact congrArg (h :: ·) (ih (by omega) (by omega))

theorem selectedChain_root {h : Hash} (hp : gd.spOf h = none) : gd.selectedChain h = [h] := by
  rw [spOf] at hp
  simp [selectedChain, selectedWalk, hp]

/-- The chain of a block is its selected parent's chain and the block. -/
theorem selectedChain_step (hd : gd.Descends) {h p : Hash} (hp : gd.spOf h = some p) :
    gd.selectedChain h = gd.selectedChain p ++ [h] := by
  have hlt := hd.spOf_lt hp
  have hstable : gd.selectedWalk (gd.scoreOf h) p = gd.selectedWalk (gd.scoreOf p + 1) p :=
    selectedWalk_stable hd (by omega) (by omega)
  rw [spOf] at hp
  rw [selectedChain, selectedWalk, hp, List.reverse_cons]
  simp only [hstable]
  rfl

/-- Induction along the selected chain. -/
theorem chain_induction (hd : gd.Descends) {motive : Hash → Prop}
    (root : ∀ h, gd.spOf h = none → motive h)
    (step : ∀ h p, gd.spOf h = some p → motive p → motive h) (h : Hash) : motive h := by
  induction hn : gd.scoreOf h using Nat.strong_induction_on generalizing h with
  | _ n ih =>
      cases hp : gd.spOf h with
      | none => exact root h hp
      | some p =>
          have := hd.spOf_lt hp
          exact step h p hp (ih _ (by omega) p rfl)

/-- Being on a block's selected chain is being above it. -/
theorem mem_selectedChain (hd : gd.Descends) {a h : Hash} :
    a ∈ gd.selectedChain h ↔ Above gd.spOf a h := by
  induction h using chain_induction hd with
  | root h hp =>
      rw [selectedChain_root hp, List.mem_singleton]
      constructor
      · rintro rfl
        exact .refl a
      · intro h
        cases h with
        | refl => rfl
        | step hp' _ => simp [hp] at hp'
  | step h p hp ih =>
      rw [selectedChain_step hd hp, List.mem_append, List.mem_singleton, ih]
      constructor
      · rintro (habove | rfl)
        · exact .step hp habove
        · exact .refl a
      · intro h
        cases h with
        | refl => exact Or.inr rfl
        | step hp' habove =>
            obtain rfl := Option.some.inj (hp.symm.trans hp')
            exact Or.inl habove

/-- The chain up to a block above is a prefix. -/
theorem selectedChain_prefix (hd : gd.Descends) {a h : Hash} (habove : Above gd.spOf a h) :
    gd.selectedChain a <+: gd.selectedChain h := by
  induction habove with
  | refl => exact List.prefix_rfl
  | step hp _ ih =>
      rw [selectedChain_step hd hp]
      exact ih.trans (List.prefix_append _ _)

theorem Descends.score_le (hd : gd.Descends) {a h : Hash} (habove : Above gd.spOf a h) :
    gd.scoreOf a ≤ gd.scoreOf h := by
  induction habove with
  | refl => exact le_rfl
  | step hp _ ih =>
      have := hd.spOf_lt hp
      omega

/-- Two blocks of one chain are comparable. -/
theorem above_total {a b h : Hash} (ha : Above gd.spOf a h) (hb : Above gd.spOf b h) :
    Above gd.spOf a b ∨ Above gd.spOf b a := by
  induction ha with
  | refl => exact Or.inr hb
  | @step p h hp ha ih =>
      cases hb with
      | refl => exact Or.inl (.step hp ha)
      | step hp' hb =>
          obtain rfl := Option.some.inj (hp.symm.trans hp')
          exact ih hb

end GhostdagMap

end HassanNode
