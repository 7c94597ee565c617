import Mathlib
import HassanNode.Ledger.Malleation
import HassanNode.Consensus.Mempool

/-!
# HassanNode.Consensus.MempoolSteps

What one submission to the queue does. The removals of the source, one index after
the other, leave the spends at the other indices (`removeAll_pool`). The ranking loop
of the byte budget fails exactly when the queued spends that pay at least the
submission's rate leave no room for it (`byteVictims_fit_iff`), and the count limit
exactly when none of too many pays less. So every call ends in one of four ways
(`admit_cases`), and two of them refuse after the conflicts are gone.
-/

namespace HassanNode

open Std (ExtTreeMap ExtTreeSet)
open Params

namespace UtxoPool

variable {pool : UtxoPool} {tx t : UtxoTx} {idxs skip : List Nat} {i : Nat}

/-! ### Indices -/

theorem mem_indicesOf {test : UtxoTx → Bool} :
    i ∈ pool.indicesOf test ↔ ∃ t, pool[i]? = some t ∧ test t = true := by
  rw [indicesOf, List.mem_filter, List.mem_range]
  constructor
  · intro h
    obtain ⟨hlt, htest⟩ := h
    rw [List.getElem?_eq_getElem hlt] at htest ⊢
    exact ⟨_, rfl, htest⟩
  · intro h
    obtain ⟨t, ht, htest⟩ := h
    refine ⟨(List.getElem?_eq_some_iff.mp ht).1, ?_⟩
    rw [ht]
    exact htest

theorem nodup_indicesOf (pool : UtxoPool) (test : UtxoTx → Bool) : (pool.indicesOf test).Nodup :=
  List.nodup_range.filter _

theorem indicesOf_subset (pool : UtxoPool) (test : UtxoTx → Bool) :
    pool.indicesOf test ⊆ List.range pool.length := List.filter_subset_self _

theorem mem_pick : t ∈ pool.pick idxs ↔ ∃ i ∈ idxs, pool[i]? = some t := List.mem_filterMap

theorem mem_without : t ∈ pool.without skip ↔ ∃ i, i ∉ skip ∧ pool[i]? = some t := by
  simp only [without, List.mem_map, List.mem_filter, Prod.exists, exists_and_right, exists_eq_right,
    List.mem_zipIdx_iff_getElem?, Bool.not_eq_true', ← Bool.not_eq_true, List.contains_iff_mem]
  constructor
  · intro h
    obtain ⟨i, hget, hskip⟩ := h
    exact ⟨i, hskip, hget⟩
  · intro h
    obtain ⟨i, hskip, hget⟩ := h
    exact ⟨i, hget, hskip⟩

theorem without_sublist (pool : UtxoPool) (skip : List Nat) : (pool.without skip).Sublist pool := by
  have hsub := (List.filter_sublist (l := pool.zipIdx) (p := fun x => !skip.contains x.2)).map Prod.fst
  rwa [List.zipIdx_map_fst] at hsub

theorem without_nil (pool : UtxoPool) : pool.without [] = pool := by
  simp [without, List.zipIdx_map_fst]

/-- Some indices and the others make up the whole queue. -/
theorem without_append_pick (hnodup : idxs.Nodup) :
    (pool.without idxs ++ pool.pick idxs).Perm pool := by
  -- the picked ones, with their indices
  have hpicked : (idxs.filterMap fun i => pool[i]?.map fun t => (t, i)).Perm
      (pool.zipIdx.filter fun x => idxs.contains x.2) := by
    have hzip : pool.zipIdx.Nodup := by
      refine List.Nodup.of_map Prod.snd ?_
      rw [List.zipIdx_map_snd]
      exact List.nodup_range'
    refine (List.perm_ext_iff_of_nodup (hnodup.filterMap ?_) (hzip.filter _)).mpr fun x => ?_
    · intro a b x ha hb
      obtain ⟨t, -, rfl⟩ := Option.map_eq_some_iff.mp ha
      obtain ⟨t', -, hb⟩ := Option.map_eq_some_iff.mp hb
      exact (congrArg Prod.snd hb).symm
    · obtain ⟨t, i⟩ := x
      simp only [List.mem_filterMap, Option.map_eq_some_iff, Prod.mk.injEq, List.mem_filter,
        List.mem_zipIdx_iff_getElem?, List.contains_iff_mem]
      constructor
      · intro h
        obtain ⟨j, hj, t', ht', rfl, rfl⟩ := h
        exact ⟨ht', hj⟩
      · intro h
        exact ⟨i, h.2, t, h.1, rfl, rfl⟩
  have hmap := hpicked.map Prod.fst
  rw [List.map_filterMap] at hmap
  simp only [Option.map_map] at hmap
  have hpick : pool.pick idxs
      = idxs.filterMap fun i => Option.map (Prod.fst ∘ fun t => (t, i)) pool[i]? := by
    rw [pick]
    congr 1
    funext i
    cases pool[i]? <;> rfl
  rw [← hpick] at hmap
  have hsplit := (List.filter_append_perm (fun x => idxs.contains x.2) pool.zipIdx).map Prod.fst
  rw [List.map_append, List.zipIdx_map_fst] at hsplit
  exact List.perm_append_comm.trans ((hmap.append_right _).trans hsplit)

theorem length_without (hnodup : idxs.Nodup) (hrange : ∀ i ∈ idxs, i < pool.length) :
    (pool.without idxs).length + idxs.length = pool.length := by
  have hpick : (pool.pick idxs).length = idxs.length := by
    rw [pick, List.length_filterMap_eq_countP, List.countP_eq_length]
    intro i hi
    rw [List.getElem?_eq_getElem (hrange i hi)]
    rfl
  have hparts : (pool.without idxs ++ pool.pick idxs).Perm pool := without_append_pick hnodup
  have hperm := hparts.length_eq
  rw [List.length_append, hpick] at hperm
  exact hperm

theorem sumBytes_append (xs ys : List UtxoTx) : sumBytes (xs ++ ys) = sumBytes xs + sumBytes ys := by
  rw [sumBytes, List.map_append, List.sum_append]
  rfl

theorem sumBytes_perm {xs ys : List UtxoTx} (h : xs.Perm ys) : sumBytes xs = sumBytes ys :=
  (h.map _).sum_eq

theorem sumBytes_without (hnodup : idxs.Nodup) :
    sumBytes (pool.without idxs) + sumBytes (pool.pick idxs) = sumBytes pool := by
  rw [← sumBytes_append, sumBytes_perm (without_append_pick hnodup)]

theorem sumBytes_sublist {xs ys : List UtxoTx} (h : xs.Sublist ys) : sumBytes xs ≤ sumBytes ys :=
  (h.map _).sum_le_sum fun _ _ => Nat.zero_le _

/-- Erasing indices from the last to the first leaves the entries at the others. -/
theorem foldl_eraseIdx {α : Type} [DecidableEq (α × Nat)] {ys : List Nat} (hdesc : ys.Pairwise (· > ·))
    {xs : List (α × Nat)} (hnodup : (xs.map Prod.snd).Nodup)
    (hat : ∀ i ∈ ys, ∃ t, xs[i]? = some (t, i)) :
    ys.foldl List.eraseIdx xs = xs.filter fun x => !ys.contains x.2 := by
  induction ys generalizing xs with
  | nil => simp
  | cons i ys ih =>
      obtain ⟨hbelow, hrest⟩ := List.pairwise_cons.mp hdesc
      obtain ⟨t, ht⟩ := hat i List.mem_cons_self
      obtain ⟨hlt, hget⟩ := List.getElem?_eq_some_iff.mp ht
      -- the indices are apart, so one entry goes
      have hone : xs.eraseIdx i = xs.filter fun x => !decide (x.2 = i) := by
        rw [← (List.Nodup.of_map _ hnodup).erase_getElem i hlt,
          (List.Nodup.of_map _ hnodup).erase_eq_filter]
        refine List.filter_congr fun x hx => ?_
        have hiff : x = xs[i] ↔ x.2 = i := by
          constructor
          · intro h
            rw [h, hget]
          · intro h
            refine List.inj_on_of_nodup_map hnodup hx (List.getElem_mem hlt) ?_
            rw [h, hget]
        rw [bne, beq_eq_decide, decide_eq_decide.mpr hiff]
      rw [List.foldl_cons, ih hrest, hone, List.filter_filter]
      · refine List.filter_congr fun x _ => ?_
        rw [List.contains_cons, Bool.not_or, Bool.and_comm, beq_eq_decide]
      · rw [← List.eraseIdx_map]
        exact hnodup.eraseIdx i
      · intro j hj
        obtain ⟨t', ht'⟩ := hat j (List.mem_cons_of_mem i hj)
        exact ⟨t', by rw [List.getElem?_eraseIdx_of_lt (hbelow j hj), ht']⟩

/-- The same for the queue, in any order of the indices. -/
theorem foldl_eraseIdx_mergeSort (hnodup : idxs.Nodup) (hrange : ∀ i ∈ idxs, i < pool.length) :
    (idxs.mergeSort fun a b => decide (b ≤ a)).foldl List.eraseIdx pool = pool.without idxs := by
  have hperm := List.mergeSort_perm idxs fun a b => decide (b ≤ a)
  have hsorted : (idxs.mergeSort fun a b => decide (b ≤ a)).Pairwise (· > ·) := by
    have hge : (idxs.mergeSort fun a b => decide (b ≤ a)).Pairwise fun a b => decide (b ≤ a) = true :=
      List.pairwise_mergeSort (fun a b c hab hbc => by simp only [decide_eq_true_eq] at *; omega)
        (fun a b => by simp only [Bool.or_eq_true, decide_eq_true_eq]; omega) idxs
    refine (hge.and (hperm.nodup_iff.mpr hnodup)).imp fun h => ?_
    have hle := of_decide_eq_true h.1
    have hne := h.2
    omega
  have hmap : ∀ (ys : List Nat) (xs : List (UtxoTx × Nat)),
      ys.foldl List.eraseIdx (xs.map Prod.fst) = (ys.foldl List.eraseIdx xs).map Prod.fst := by
    intro ys
    induction ys with
    | nil => exact fun _ => rfl
    | cons i ys ih =>
        intro xs
        rw [List.foldl_cons, List.eraseIdx_map, ih, List.foldl_cons]
  classical
  have hzipped : (pool.zipIdx.map Prod.snd).Nodup := by
    rw [List.zipIdx_map_snd]
    exact List.nodup_range'
  have hfold := foldl_eraseIdx hsorted hzipped fun i hi => by
    have hlt := hrange i (hperm.mem_iff.mp hi)
    exact ⟨pool[i], by simp [hlt]⟩
  have hzip := hmap (idxs.mergeSort fun a b => decide (b ≤ a)) pool.zipIdx
  rw [List.zipIdx_map_fst] at hzip
  rw [hzip, hfold, without]
  congr 1
  refine List.filter_congr fun x _ => ?_
  rw [Bool.not_inj_iff, Bool.eq_iff_iff, List.contains_iff_mem, List.contains_iff_mem, hperm.mem_iff]

/-! ### The conflict set -/

section Conflicts

variable [Crypto]

omit [Crypto] in
theorem conflicts_eq_true {queued : UtxoTx} : conflicts tx queued = true ↔
    ∃ tin ∈ tx.inputs, ∃ q ∈ queued.inputs, q.previous = tin.previous := by
  simp only [conflicts, List.any_eq_true, beq_iff_eq]

omit [Crypto] in
theorem spendsFrom_eq_true {ids : List Hash} : spendsFrom ids tx = true ↔
    ∃ tin ∈ tx.inputs, tin.previous.txid ∈ ids := by
  simp only [spendsFrom, List.any_eq_true, List.contains_iff_mem]

theorem nodup_conflictIdxs (pool : UtxoPool) (tx : UtxoTx) : (pool.conflictIdxs tx).Nodup :=
  Worklist.nodup_passes List.nodup_range (nodup_indicesOf pool _)

theorem lt_of_mem_conflictIdxs (h : i ∈ pool.conflictIdxs tx) : i < pool.length :=
  List.mem_range.mp (Worklist.passes_subset (indicesOf_subset pool _) h)

/-- Who shares an input with the submission is in the set. -/
theorem mem_conflictIdxs_of_conflicts (ht : pool[i]? = some t) (h : conflicts tx t = true) :
    i ∈ pool.conflictIdxs tx :=
  Worklist.subset_passes _ _ (mem_indicesOf.mpr ⟨t, ht, h⟩)

/-- Who spends from the set is in the set. -/
theorem mem_conflictIdxs_of_spends {t' : UtxoTx} (ht : t ∈ pool.pick (pool.conflictIdxs tx))
    (ht' : pool[i]? = some t') (hspends : spendsFrom [t.txHash] t' = true) : i ∈ pool.conflictIdxs tx := by
  refine Worklist.passes_closed List.nodup_range (nodup_indicesOf pool _) (indicesOf_subset pool _)
    (by rw [List.length_range]; omega) i ?_ ?_
  · exact List.mem_range.mpr (List.getElem?_eq_some_iff.mp ht').1
  · rw [ht']
    obtain ⟨tin, htin, hid⟩ := spendsFrom_eq_true.mp hspends
    refine spendsFrom_eq_true.mpr ⟨tin, htin, ?_⟩
    rw [List.mem_singleton.mp hid]
    exact List.mem_map_of_mem ht

/-! ### Parents -/

theorem mem_directParents : i ∈ pool.directParents tx skip ↔
    i ∉ skip ∧ ∃ t, pool[i]? = some t ∧ ∃ tin ∈ tx.inputs, tin.previous.txid = t.txHash := by
  rw [directParents, List.mem_filter, mem_indicesOf, Bool.not_eq_true', ← Bool.not_eq_true,
    List.contains_iff_mem]
  simp only [spendsFrom_eq_true, List.mem_singleton]
  exact and_comm

theorem mem_parentsAt {j : Nat} (ht : pool[i]? = some t) :
    j ∈ pool.parentsAt skip i ↔ j ∈ pool.directParents t skip := by
  rw [parentsAt, ht]
  rfl

theorem directParents_subset (pool : UtxoPool) (tx : UtxoTx) (skip : List Nat) :
    pool.directParents tx skip ⊆ List.range pool.length :=
  List.Subset.trans (List.filter_subset_self _) (indicesOf_subset pool _)

theorem parentsAt_subset (pool : UtxoPool) (skip : List Nat) (i : Nat) :
    pool.parentsAt skip i ⊆ List.range pool.length := by
  rw [parentsAt]
  cases pool[i]? with
  | none => exact List.nil_subset _
  | some t => exact directParents_subset pool t skip

/-- An ancestor walk that stays below the cap has every parent of its members. -/
theorem ancestorIdxs_closed (h : (pool.ancestorIdxs tx skip).length < maxUtxoPackageCount) :
    pool.directParents tx skip ⊆ pool.ancestorIdxs tx skip ∧
      ∀ i ∈ pool.ancestorIdxs tx skip, pool.parentsAt skip i ⊆ pool.ancestorIdxs tx skip := by
  refine ⟨(Worklist.prefix_walk _ _ _).subset, ?_⟩
  refine Worklist.walk_closed (parentsAt_subset pool skip) ?_ (directParents_subset pool tx skip) ?_ ?_ h
  · exact (nodup_indicesOf pool _).filter _
  · rw [List.length_range]
    omega
  · simp

end Conflicts

/-! ### The byte budget -/

/-- The size of the spend at an index. -/
def bytesAt (pool : UtxoPool) (i : Nat) : Nat := (pool[i]?.map UtxoTx.relayBytes).getD 0

theorem sumBytes_pick (pool : UtxoPool) (idxs : List Nat) :
    sumBytes (pool.pick idxs) = (idxs.map pool.bytesAt).sum := by
  induction idxs with
  | nil => rfl
  | cons i idxs ih =>
      rw [List.map_cons, List.sum_cons, ← ih, pick, List.filterMap_cons, bytesAt]
      cases pool[i]? with
      | none => exact (Nat.zero_add _).symm
      | some t => rfl

theorem sumBytes_eq (pool : UtxoPool) : sumBytes pool = ((List.range pool.length).map pool.bytesAt).sum := by
  rw [sumBytes]
  congr 1
  refine List.ext_getElem (by simp) fun i hi hi' => ?_
  have hlt : i < pool.length := by simpa using hi
  simp [bytesAt, hlt]

section Eviction

variable [Crypto] {rate incomingRaw : Nat}

omit [Crypto] in
/-- The loop takes a front part of the ranking, all of lower rate, and stops where
the rest fits or pays enough. -/
theorem evictBytes_spec (list : List (Nat × Nat)) (usedNow : Nat) (remove : List Nat) :
    ∃ taken rest, list = taken ++ rest ∧
      pool.evictBytes incomingRaw rate list usedNow remove = (remove ++ taken.map Prod.fst,
        usedNow - ((taken.map Prod.fst).map pool.bytesAt).sum) ∧
      (∀ x ∈ taken, x.2 < rate) ∧
      (∀ x, rest.head? = some x → rate ≤ x.2 ∨
        usedNow - ((taken.map Prod.fst).map pool.bytesAt).sum + incomingRaw ≤ maxMempoolBytes) := by
  induction list generalizing usedNow remove with
  | nil => exact ⟨[], [], rfl, by simp [evictBytes], by simp, by simp⟩
  | cons x list ih =>
      obtain ⟨i, r⟩ := x
      rw [evictBytes]
      split
      · rename_i hfits
        exact ⟨[], (i, r) :: list, rfl, by simp, by simp, fun _ _ => Or.inr hfits⟩
      · split
        · rename_i hpays
          exact ⟨[], (i, r) :: list, rfl, by simp, by simp, fun y hy =>
            Or.inl (Option.some.inj hy ▸ hpays)⟩
        · rename_i hlow
          obtain ⟨taken, rest, hlist, hrun, htaken, hrest⟩ :=
            ih (usedNow - pool.bytesAt i) (remove ++ [i])
          refine ⟨(i, r) :: taken, rest, by rw [hlist]; rfl, ?_, ?_, ?_⟩
          · rw [← bytesAt, hrun, List.map_cons, List.map_cons, List.sum_cons, Nat.sub_sub,
              List.append_assoc]
            rfl
          · exact List.forall_mem_cons.mpr ⟨Nat.not_le.mp hlow, htaken⟩
          · intro y hy
            rw [List.map_cons, List.map_cons, List.sum_cons, ← Nat.sub_sub]
            exact hrest y hy

theorem ranked_perm (pool : UtxoPool) :
    pool.ranked.Perm ((List.range pool.length).map fun i => (i, pool.packageRate i)) :=
  List.mergeSort_perm _ _

theorem ranked_sorted (pool : UtxoPool) : pool.ranked.Pairwise fun a b => a.2 ≤ b.2 := by
  have hsorted : pool.ranked.Pairwise fun a b => decide (a.2 < b.2 ∨ a.2 = b.2 ∧ b.1 ≤ a.1) = true :=
    List.pairwise_mergeSort (fun a b c hab hbc => by simp only [decide_eq_true_eq] at *; omega)
      (fun a b => by simp only [Bool.or_eq_true, decide_eq_true_eq]; omega) _
  refine hsorted.imp fun h => ?_
  have hle := of_decide_eq_true h
  omega

/-- The queued spends of at least this package rate, by index. -/
def payers (pool : UtxoPool) (rate : Nat) : List Nat :=
  (List.range pool.length).filter fun i => rate ≤ pool.packageRate i

/-- What the budget loop takes out: queued spends of lower rates, each once; all of
them if that is not enough. -/
theorem evictBytes_ranked (pool : UtxoPool) (incomingRaw rate : Nat) :
    ∃ taken : List Nat, taken.Nodup ∧ (∀ i ∈ taken, i < pool.length ∧ pool.packageRate i < rate) ∧
      pool.evictBytes incomingRaw rate pool.ranked (sumBytes pool) []
        = (taken, sumBytes pool - (taken.map pool.bytesAt).sum) ∧
      (maxMempoolBytes < sumBytes pool - (taken.map pool.bytesAt).sum + incomingRaw →
        ∀ i < pool.length, pool.packageRate i < rate → i ∈ taken) := by
  obtain ⟨taken, rest, hlist, hrun, hlow, hrest⟩ :=
    @evictBytes_spec pool rate incomingRaw pool.ranked (sumBytes pool) []
  have hfst : (pool.ranked.map Prod.fst).Perm (List.range pool.length) := by
    have hmap := (ranked_perm pool).map Prod.fst
    rwa [List.map_map, show (Prod.fst ∘ fun i => (i, pool.packageRate i)) = id from rfl,
      List.map_id] at hmap
  have hmem : ∀ x ∈ pool.ranked, x.1 < pool.length ∧ x.2 = pool.packageRate x.1 := by
    intro x hx
    obtain ⟨i, hi, rfl⟩ := List.mem_map.mp ((ranked_perm pool).mem_iff.mp hx)
    exact ⟨List.mem_range.mp hi, rfl⟩
  have hsorted := ranked_sorted pool
  rw [hlist] at hfst hmem hsorted
  rw [List.map_append] at hfst
  refine ⟨taken.map Prod.fst, ?_, ?_, hrun, ?_⟩
  · exact (List.nodup_append.mp (hfst.nodup_iff.mpr List.nodup_range)).1
  · intro i hi
    obtain ⟨x, hx, rfl⟩ := List.mem_map.mp hi
    obtain ⟨hlt, hrate⟩ := hmem x (List.mem_append_left rest hx)
    exact ⟨hlt, hrate ▸ hlow x hx⟩
  · intro hover i hi hbelow
    have hi' := hfst.mem_iff.mpr (List.mem_range.mpr hi)
    rcases List.mem_append.mp hi' with htaken | hleft
    · exact htaken
    · -- the rest starts with one that pays enough, and it is sorted
      exfalso
      obtain ⟨x, hx, rfl⟩ := List.mem_map.mp hleft
      have hrate := (hmem x (List.mem_append_right taken hx)).2
      cases rest with
      | nil => cases hx
      | cons y rest =>
          have hpays := (hrest y rfl).resolve_right (Nat.not_le.mpr hover)
          have htail := (List.pairwise_append.mp hsorted).2.1
          rcases List.mem_cons.mp hx with rfl | hx
          · omega
          · have hle := (List.pairwise_cons.mp htail).1 x hx
            omega

/-! ### The count limit -/

omit [Crypto] in
/-- What is kept is one of them, and none is lower. -/
theorem foldl_keepLower (xs : List (Nat × Nat × Nat)) (b : Nat × Nat × Nat) :
    ∃ w, xs.foldl keepLower (some b) = some w ∧ w ∈ b :: xs ∧
      ∀ y ∈ b :: xs, w.2.1 < y.2.1 ∨ w.2.1 = y.2.1 ∧ w.2.2 ≤ y.2.2 := by
  induction xs generalizing b with
  | nil =>
      refine ⟨b, rfl, List.mem_cons_self, fun y hy => ?_⟩
      rw [List.mem_singleton.mp hy]
      omega
  | cons x xs ih =>
      rw [List.foldl_cons, keepLower]
      split
      · rename_i hlower
        obtain ⟨w, hw, hmem, hmin⟩ := ih x
        refine ⟨w, hw, List.mem_cons_of_mem b hmem, List.forall_mem_cons.mpr ⟨?_, hmin⟩⟩
        have hx := hmin x List.mem_cons_self
        omega
      · rename_i hkeep
        obtain ⟨w, hw, hmem, hmin⟩ := ih b
        obtain ⟨hb, hxs⟩ := List.forall_mem_cons.mp hmin
        refine ⟨w, hw, ?_, List.forall_mem_cons.mpr ⟨hb, List.forall_mem_cons.mpr ⟨?_, hxs⟩⟩⟩
        · exact (List.mem_cons.mp hmem).elim (fun h => h ▸ List.mem_cons_self)
            fun h => List.mem_cons_of_mem b (List.mem_cons_of_mem x h)
        · omega

/-- A queue that is not empty has a worst member. -/
theorem worst_spec (hne : 0 < pool.length) :
    ∃ i, i < pool.length ∧
      pool.worst = some (i, pool.packageRate i, (pool.ancestorPackageScore i).1) ∧
      ∀ j < pool.length, pool.packageRate i < pool.packageRate j ∨
        pool.packageRate i = pool.packageRate j ∧
          (pool.ancestorPackageScore i).1 ≤ (pool.ancestorPackageScore j).1 := by
  obtain ⟨n, hn⟩ := Nat.exists_eq_add_of_lt hne
  have hrange : List.range pool.length = 0 :: (List.range n).map Nat.succ := by
    rw [hn, Nat.zero_add, List.range_succ_eq_map]
  obtain ⟨w, hw, hmem, hmin⟩ := foldl_keepLower
    (((List.range n).map Nat.succ).map fun i => (i, pool.packageRate i, (pool.ancestorPackageScore i).1))
    (0, pool.packageRate 0, (pool.ancestorPackageScore 0).1)
  have hall : (0, pool.packageRate 0, (pool.ancestorPackageScore 0).1) :: ((List.range n).map Nat.succ).map
      (fun i => (i, pool.packageRate i, (pool.ancestorPackageScore i).1))
      = (List.range pool.length).map fun i =>
        (i, pool.packageRate i, (pool.ancestorPackageScore i).1) := by
    rw [hrange]
    rfl
  rw [hall] at hmem hmin
  obtain ⟨i, hi, rfl⟩ := List.mem_map.mp hmem
  refine ⟨i, List.mem_range.mp hi, ?_, fun j hj => ?_⟩
  · rw [worst, hrange, List.map_cons, List.foldl_cons, keepLower, hw]
  · exact hmin _ (List.mem_map_of_mem (List.mem_range.mpr hj))

end Eviction

end UtxoPool

/-! ### The preview -/

section Preview

variable [Crypto] {st : ChainState} {P : UtxoSet × Accounts → Prop} {skip : List Nat}

/-- What every queued spend keeps when it applies, the preview keeps. -/
theorem ChainState.preview_induction (hstep : ∀ tx ∈ UtxoPool.without st.utxoMempool skip, ∀ s s' fee,
      P s → applyUtxoTx s.1 s.2 tx st.selectedTipBlueScore = (s', .ok fee) → P s')
    (hlive : P (st.live.utxo, st.live.accounts)) : P (st.utxoMempoolPreview skip) := by
  refine Worklist.retry_induction (fun tx htx s s' hs happly => ?_) hlive
  split at happly
  · rename_i s'' fee hrun
    exact hstep tx htx s s' fee hs (Option.some.inj happly ▸ hrun)
  · cases happly

/-- A spend that takes other outpoints and creates none of this name leaves an output
where it is. -/
theorem applied_agree {u : UtxoSet} {accounts : Accounts} {tx : UtxoTx} {mediaBlue fee : Nat}
    {s : UtxoSet × Accounts} {op : OutPoint}
    (h : applyUtxoTx u accounts tx mediaBlue = (s, .ok fee))
    (hinputs : op ∉ tx.inputs.map (·.previous)) (hname : op.txid ≠ tx.txHash) : u.Agree s.1 op := by
  obtain ⟨-, u₁, hentries, hspent, hrun⟩ := UtxoTx.applied_split h
  rw [outputs_set hrun]
  have hkept : u₁.Agree (createOutputs tx.txHash mediaBlue tx.outputs.zipIdx u₁) op :=
    createOutputs_agree fun _ _ heq => hname (congrArg OutPoint.txid heq).symm
  refine ⟨?_, ?_⟩
  · rw [hkept.live, hentries, if_neg hinputs]
  · rw [hkept.spent, hspent]
    exact or_iff_left hinputs

/-- The preview keeps an output that no queued spend takes or renames. -/
theorem ChainState.preview_holds {op : OutPoint} {out : TxOut} (hlive : st.live.utxo.Holds op out)
    (hother : ∀ tx ∈ UtxoPool.without st.utxoMempool skip,
      op ∉ tx.inputs.map (·.previous) ∧ op.txid ≠ tx.txHash) :
    (st.utxoMempoolPreview skip).1.Holds op out := by
  refine ChainState.preview_induction (P := fun s => s.1.Holds op out) ?_ hlive
  intro tx htx s s' fee hs happly
  have hagree := applied_agree happly (hother tx htx).1 (hother tx htx).2
  exact ⟨hagree.live.trans hs.live, fun hin => hs.unspent (hagree.spent.mp hin)⟩

end Preview

/-! ### The tests -/

/-- What a submission has shown when it passed the tests. -/
structure ChainState.Vetted [Crypto] (st : ChainState) (tx : UtxoTx) (vetted : VettedUtxo) : Prop where
  form : tx.validateForm = .ok ()
  chainId : tx.chainId = st.chainId
  verify : tx.verify = true
  fresh : ∀ t ∈ st.utxoMempool, t.txid ≠ tx.txid
  conflictIdxs : vetted.conflictIdxs = UtxoPool.conflictIdxs st.utxoMempool tx
  applies : ∃ st' fee, applyUtxoTx (st.utxoMempoolPreview vetted.conflictIdxs).1
    (st.utxoMempoolPreview vetted.conflictIdxs).2 tx st.selectedTipBlueScore = (st', .ok fee)
  packageCount : (UtxoPool.ancestorIdxs st.utxoMempool tx vetted.conflictIdxs).length + 1 ≤ maxUtxoPackageCount
  packageBytes : UtxoPool.sumBytes (UtxoPool.pick st.utxoMempool
    (UtxoPool.ancestorIdxs st.utxoMempool tx vetted.conflictIdxs)) + tx.relayBytes ≤ maxUtxoPackageBytes

theorem ChainState.vetUtxo_ok [Crypto] {st : ChainState} {tx : UtxoTx} {vetted : VettedUtxo}
    (h : st.vetUtxo tx = .ok vetted) : st.Vetted tx vetted := by
  obtain ⟨hform, h⟩ := Except.seq_eq_ok h
  obtain ⟨hchain, h⟩ := Except.seq_eq_ok h
  obtain ⟨hverify, h⟩ := Except.seq_eq_ok h
  obtain ⟨hfresh, h⟩ := Except.seq_eq_ok h
  obtain ⟨fee, happlies, h⟩ := Except.bind_eq_ok h
  obtain ⟨hcount, h⟩ := Except.seq_eq_ok h
  obtain ⟨hbytes, h⟩ := Except.seq_eq_ok h
  obtain ⟨-, h⟩ := Except.seq_eq_ok h
  obtain rfl := Except.ok.inj h
  refine ⟨hform, ?_, ensure_eq_ok.mp hverify, fun t ht heq => ?_, rfl, ⟨_, fee, Prod.ext rfl happlies⟩,
    ?_, ?_⟩
  · simpa using hchain
  · have hnone := ensure_eq_ok.mp hfresh
    rw [Bool.not_eq_true', List.any_eq_false] at hnone
    exact hnone t ht (by simp [heq])
  · simpa using hcount
  · simpa using hbytes

/-! ### The rest of the chain state -/

namespace ChainState

/-- Two states that differ at most in the queue. -/
def UpToQueue (st st' : ChainState) : Prop := st' = { st with utxoMempool := st'.utxoMempool }

variable {st st' st'' : ChainState}

theorem UpToQueue.refl (st : ChainState) : st.UpToQueue st := rfl

theorem UpToQueue.queue (st : ChainState) (pool : List UtxoTx) :
    st.UpToQueue { st with utxoMempool := pool } := rfl

theorem UpToQueue.trans (h : st.UpToQueue st') (h' : st'.UpToQueue st'') : st.UpToQueue st'' := by
  rw [UpToQueue] at h h' ⊢
  rw [h', h]

theorem UpToQueue.live (h : st.UpToQueue st') : st'.live = st.live := by
  rw [UpToQueue] at h
  rw [h]

end ChainState

namespace Mempool

variable [Crypto] {m : Mempool} {tx : UtxoTx} {rate : Nat} {idxs : List Nat}

/-! ### Removal -/

omit [Crypto] in
@[simp] theorem withPool_pool (m : Mempool) (pool : UtxoPool) : (m.withPool pool).pool = pool := rfl

theorem removeAt_pool (m : Mempool) (i : Nat) : (m.removeAt i).pool = m.pool.eraseIdx i := by
  rw [removeAt]
  split
  · rename_i hnone
    exact (List.eraseIdx_of_length_le (List.getElem?_eq_none_iff.mp hnone)).symm
  · rfl

theorem removeAll_pool (hnodup : idxs.Nodup) (hrange : ∀ i ∈ idxs, i < m.pool.length) :
    (m.removeAll idxs).pool = m.pool.without idxs := by
  have hfold : ∀ (ys : List Nat) (m : Mempool),
      (ys.foldl removeAt m).pool = ys.foldl List.eraseIdx m.pool := by
    intro ys
    induction ys with
    | nil => exact fun _ => rfl
    | cons i ys ih =>
        intro m
        rw [List.foldl_cons, ih, removeAt_pool, List.foldl_cons]
  rw [removeAll, hfold, UtxoPool.foldl_eraseIdx_mergeSort hnodup hrange]

theorem removeAll_nil (m : Mempool) : m.removeAll [] = m := by
  rw [removeAll, List.mergeSort_nil, List.foldl_nil]

/-- The removals touch nothing but the queue and the two records. -/
theorem removeAt_chain (m : Mempool) (i : Nat) : m.chain.UpToQueue (m.removeAt i).chain := by
  rw [removeAt]
  split
  · exact .refl _
  · exact .queue _ _

theorem removeAll_chain (m : Mempool) (idxs : List Nat) : m.chain.UpToQueue (m.removeAll idxs).chain := by
  have hfold : ∀ (ys : List Nat) (m : Mempool), m.chain.UpToQueue (ys.foldl removeAt m).chain := by
    intro ys
    induction ys with
    | nil => exact fun m => .refl _
    | cons i ys ih => exact fun m => (removeAt_chain m i).trans (ih _)
  exact hfold _ m

/-! ### Making room -/

/-- The submission does not fit beside the queued spends that pay at least its
package rate. -/
def TooBig (m : Mempool) (tx : UtxoTx) (rate : Nat) : Prop :=
  maxMempoolBytes < UtxoPool.sumBytes (m.pool.pick (m.pool.payers rate)) + tx.relayBytes

/-- The queue has no place left and nobody in it pays less than the submission. -/
def Full (m : Mempool) (tx : UtxoTx) (rate : Nat) : Prop :=
  maxMempoolSize ≤ m.pool.length ∧ ∀ i < m.pool.length, rate < m.pool.packageRate i ∨
    rate = m.pool.packageRate i ∧ tx.fee ≤ (m.pool.ancestorPackageScore i).1

/-- What the byte budget takes out. -/
theorem byteVictims_spec (m : Mempool) (tx : UtxoTx) (rate : Nat) :
    (m.byteVictims tx rate).1.Nodup ∧
    (∀ i ∈ (m.byteVictims tx rate).1, i < m.pool.length ∧ m.pool.packageRate i < rate) ∧
    (m.byteVictims tx rate).2 = UtxoPool.sumBytes (m.pool.without (m.byteVictims tx rate).1) ∧
    ((m.byteVictims tx rate).2 + tx.relayBytes ≤ maxMempoolBytes ↔ ¬ m.TooBig tx rate) := by
  obtain ⟨taken, hnodup, hlow, hrun, hall⟩ := m.pool.evictBytes_ranked tx.relayBytes rate
  have hsplit := @UtxoPool.sumBytes_without m.pool _ hnodup
  rw [UtxoPool.sumBytes_pick] at hsplit
  rw [byteVictims, hrun]
  have hused : UtxoPool.sumBytes m.pool - (taken.map m.pool.bytesAt).sum
      = UtxoPool.sumBytes (m.pool.without taken) := by omega
  refine ⟨hnodup, hlow, hused, ?_⟩
  -- those that pay enough and those that do not
  have hparts := ((List.filter_append_perm (fun i => decide (rate ≤ m.pool.packageRate i))
    (List.range m.pool.length)).map m.pool.bytesAt).sum_eq
  rw [List.map_append, List.sum_append, ← UtxoPool.sumBytes_eq] at hparts
  rw [TooBig, UtxoPool.sumBytes_pick, UtxoPool.payers, Nat.not_lt]
  have htaken : (taken.map m.pool.bytesAt).sum ≤ (((List.range m.pool.length).filter fun i =>
      !decide (rate ≤ m.pool.packageRate i)).map m.pool.bytesAt).sum := by
    have hsub : taken.Subperm ((List.range m.pool.length).filter fun i =>
        !decide (rate ≤ m.pool.packageRate i)) := by
      refine hnodup.subperm fun i hi => List.mem_filter.mpr ⟨List.mem_range.mpr (hlow i hi).1, ?_⟩
      rw [decide_eq_false (Nat.not_le.mpr (hlow i hi).2)]
      rfl
    obtain ⟨part, hperm, hpart⟩ := hsub
    rw [← (hperm.map _).sum_eq]
    exact (hpart.map _).sum_le_sum fun _ _ => Nat.zero_le _
  constructor
  · intro hfits
    omega
  · intro hroom
    by_contra hover
    have hevery : (((List.range m.pool.length).filter fun i =>
        !decide (rate ≤ m.pool.packageRate i)).map m.pool.bytesAt).sum
        ≤ (taken.map m.pool.bytesAt).sum := by
      have hsub : ((List.range m.pool.length).filter fun i =>
          !decide (rate ≤ m.pool.packageRate i)).Subperm taken := by
        refine (List.nodup_range.filter _).subperm fun i hi => ?_
        obtain ⟨hi, hbelow⟩ := List.mem_filter.mp hi
        refine hall (Nat.not_le.mp hover) i (List.mem_range.mp hi) ?_
        simpa using hbelow
      obtain ⟨part, hperm, hpart⟩ := hsub
      rw [← (hperm.map _).sum_eq]
      exact (hpart.map _).sum_le_sum fun _ _ => Nat.zero_le _
    omega

/-- The queue after the byte budget. -/
def trimmed (m : Mempool) (tx : UtxoTx) (rate : Nat) : Mempool :=
  if maxMempoolBytes < UtxoPool.sumBytes m.pool + tx.relayBytes then m.removeAll (m.byteVictims tx rate).1
  else m

theorem makeByteRoom_cases (m : Mempool) (tx : UtxoTx) (rate : Nat) :
    (m.TooBig tx rate ∧ makeByteRoom tx rate m = (m, .error "UTXO mempool byte budget exceeded")) ∨
    (¬ m.TooBig tx rate ∧ makeByteRoom tx rate m = (m.trimmed tx rate, .ok ())) := by
  obtain ⟨-, -, -, hfits⟩ := m.byteVictims_spec tx rate
  rw [makeByteRoom, InPlace.read_bind, trimmed]
  by_cases hover : maxMempoolBytes < UtxoPool.sumBytes m.pool + tx.relayBytes
  · rw [if_pos hover, if_pos hover, InPlace.check_bind]
    by_cases hbig : m.TooBig tx rate
    · rw [if_neg (mt hfits.mp (not_not.mpr hbig))]
      exact Or.inl ⟨hbig, rfl⟩
    · rw [if_pos (hfits.mpr hbig)]
      exact Or.inr ⟨hbig, rfl⟩
  · rw [if_neg hover, if_neg hover]
    refine Or.inr ⟨fun hbig => hover (hbig.trans_le ?_), rfl⟩
    have hpayers : (m.pool.payers rate).Nodup := List.nodup_range.filter _
    have hsplit := @UtxoPool.sumBytes_without m.pool _ hpayers
    omega

/-- The queue after the count limit. -/
def thinned (m : Mempool) : Mempool :=
  if maxMempoolSize ≤ m.pool.length then m.pool.worst.elim m fun w => m.removeAt w.1 else m

theorem makeCountRoom_cases (m : Mempool) (tx : UtxoTx) (rate : Nat) :
    (m.Full tx rate ∧ makeCountRoom tx rate m = (m, .error "UTXO mempool is full")) ∨
    (¬ m.Full tx rate ∧ makeCountRoom tx rate m = (m.thinned, .ok ())) := by
  rw [makeCountRoom, InPlace.read_bind, thinned]
  by_cases hlong : maxMempoolSize ≤ m.pool.length
  · have hsize : 0 < maxMempoolSize := by decide
    obtain ⟨i, hi, hworst, hlowest⟩ := m.pool.worst_spec (hsize.trans_le hlong)
    rw [if_pos hlong, if_pos hlong, hworst]
    simp only [InPlace.check_bind, Option.elim_some]
    split
    · rename_i hpays
      refine Or.inr ⟨fun hfull => ?_, rfl⟩
      have hi := hfull.2 i hi
      omega
    · rename_i hpays
      refine Or.inl ⟨⟨hlong, fun j hj => ?_⟩, rfl⟩
      have hj := hlowest j hj
      omega
  · rw [if_neg hlong, if_neg hlong]
    exact Or.inr ⟨fun hfull => hlong hfull.1, rfl⟩

/-! ### The whole call -/

/-- The queue after its conflicts and, with them, the evicted ones are gone. -/
def cleared (m : Mempool) (tx : UtxoTx) (vetted : VettedUtxo) : Mempool :=
  (m.removeAll vetted.conflictIdxs).trimmed tx vetted.packageRate

/-- The node after a submission was queued. -/
def queued (m : Mempool) (env : Env) (tx : UtxoTx) : Mempool :=
  (recordFirstSeen env tx.txid m).withPool ((recordFirstSeen env tx.txid m).pool ++ [tx])

omit [Crypto] in
/-- The records are all it changes. -/
theorem recordFirstSeen_chain (env : Env) (txHash : Hash) (m : Mempool) :
    (recordFirstSeen env txHash m).chain = m.chain := by
  rw [recordFirstSeen]
  dsimp only
  split
  · split
    · rfl
    · rfl
  · rfl

theorem queued_chain (m : Mempool) (env : Env) (tx : UtxoTx) :
    (m.queued env tx).chain = { m.chain with utxoMempool := m.pool ++ [tx] } := by
  rw [queued, withPool, pool, recordFirstSeen_chain]
  rfl

theorem queued_upToQueue (m : Mempool) (env : Env) (tx : UtxoTx) :
    m.chain.UpToQueue (m.queued env tx).chain := by
  rw [queued_chain]
  exact .queue _ _

theorem queued_pool (m : Mempool) (env : Env) (tx : UtxoTx) :
    (m.queued env tx).pool = m.pool ++ [tx] := by
  rw [pool, queued_chain]

theorem run_concat (m : Mempool) (calls : List Call) (call : Call) :
    m.run (calls ++ [call]) = (m.run calls).step call := by
  rw [run, List.foldl_append]
  rfl

/-- **How a submission ends**: it fails a test and nothing happens, one of the two
limits refuses what is left after the removals before it, or it is queued. -/
theorem admit_cases (env : Env) (tx : UtxoTx) (m : Mempool) :
    (∃ e, m.chain.vetUtxo tx = .error e ∧ admitUtxoToMempool env tx m = (m, .error e)) ∨
    ∃ vetted, m.chain.vetUtxo tx = .ok vetted ∧
      (((m.removeAll vetted.conflictIdxs).TooBig tx vetted.packageRate ∧ admitUtxoToMempool env tx m
          = (m.removeAll vetted.conflictIdxs, .error "UTXO mempool byte budget exceeded")) ∨
       ¬ (m.removeAll vetted.conflictIdxs).TooBig tx vetted.packageRate ∧
        (((m.cleared tx vetted).Full tx vetted.packageRate ∧ admitUtxoToMempool env tx m
            = (m.cleared tx vetted, .error "UTXO mempool is full")) ∨
         (¬ (m.cleared tx vetted).Full tx vetted.packageRate ∧
          admitUtxoToMempool env tx m = ((m.cleared tx vetted).thinned.queued env tx, .ok ())))) := by
  cases hvet : m.chain.vetUtxo tx with
  | error e =>
      refine Or.inl ⟨e, rfl, ?_⟩
      rw [admitUtxoToMempool, InPlace.read_bind, hvet, InPlace.lift_bind_error]
  | ok vetted =>
      refine Or.inr ⟨vetted, rfl, ?_⟩
      rw [admitUtxoToMempool, InPlace.read_bind, hvet, InPlace.lift_bind_ok, InPlace.write_bind]
      rcases (m.removeAll vetted.conflictIdxs).makeByteRoom_cases tx vetted.packageRate with
        ⟨hbig, hbytes⟩ | ⟨hbig, hbytes⟩
      · exact Or.inl ⟨hbig, by rw [InPlace.bind_error hbytes]⟩
      · refine Or.inr ⟨hbig, ?_⟩
        rw [InPlace.bind_ok hbytes, ← cleared]
        rcases (m.cleared tx vetted).makeCountRoom_cases tx vetted.packageRate with
          ⟨hfull, hcount⟩ | ⟨hfull, hcount⟩
        · exact Or.inl ⟨hfull, by rw [InPlace.bind_error hcount]⟩
        · refine Or.inr ⟨hfull, ?_⟩
          rw [InPlace.bind_ok hcount]
          rfl

/-! ### What stays -/

theorem trimmed_sublist (m : Mempool) (tx : UtxoTx) (rate : Nat) :
    (m.trimmed tx rate).pool.Sublist m.pool := by
  rw [trimmed]
  split
  · obtain ⟨hnodup, hlow, -, -⟩ := m.byteVictims_spec tx rate
    rw [removeAll_pool hnodup fun i hi => (hlow i hi).1]
    exact UtxoPool.without_sublist _ _
  · exact List.Sublist.refl _

/-- After the byte budget there is room for the submission. -/
theorem trimmed_fits (hroom : ¬ m.TooBig tx rate) :
    UtxoPool.sumBytes (m.trimmed tx rate).pool + tx.relayBytes ≤ maxMempoolBytes := by
  rw [trimmed]
  split
  · obtain ⟨hnodup, hlow, hleft, hfits⟩ := m.byteVictims_spec tx rate
    rw [removeAll_pool hnodup fun i hi => (hlow i hi).1, ← hleft]
    exact hfits.mpr hroom
  · omega

theorem thinned_sublist (m : Mempool) : m.thinned.pool.Sublist m.pool := by
  rw [thinned]
  split
  · cases m.pool.worst with
    | none => exact List.Sublist.refl _
    | some w =>
        rw [Option.elim_some, removeAt_pool]
        exact List.eraseIdx_sublist _ _
  · exact List.Sublist.refl _

/-- After the count limit there is a place. -/
theorem length_thinned_lt (hlen : m.pool.length ≤ maxMempoolSize) :
    m.thinned.pool.length < maxMempoolSize := by
  have hsize : 0 < maxMempoolSize := by decide
  rw [thinned]
  split
  · rename_i hfull
    obtain ⟨i, hi, hworst, -⟩ := m.pool.worst_spec (hsize.trans_le hfull)
    rw [hworst, Option.elim_some, removeAt_pool, List.length_eraseIdx_of_lt hi]
    omega
  · omega

theorem trimmed_chain (m : Mempool) (tx : UtxoTx) (rate : Nat) :
    m.chain.UpToQueue (m.trimmed tx rate).chain := by
  rw [trimmed]
  split
  · exact removeAll_chain m _
  · exact .refl _

theorem thinned_chain (m : Mempool) : m.chain.UpToQueue m.thinned.chain := by
  rw [thinned]
  split
  · cases m.pool.worst with
    | none => exact .refl _
    | some w => exact removeAt_chain m w.1
  · exact .refl _

theorem cleared_chain (m : Mempool) (tx : UtxoTx) (vetted : VettedUtxo) :
    m.chain.UpToQueue (m.cleared tx vetted).chain :=
  (removeAll_chain m _).trans (trimmed_chain _ tx _)

/-- **A submission, seen from the queue**: some of the queued spends stay, in order; if
the submission is queued it comes last, no conflict is left, and both limits hold. -/
theorem admit_pool (env : Env) (tx : UtxoTx) (m : Mempool) :
    m.chain.UpToQueue (admitUtxoToMempool env tx m).1.chain ∧
    ((admitUtxoToMempool env tx m).1.pool.Sublist m.pool ∨
      ∃ vetted, m.chain.vetUtxo tx = .ok vetted ∧ ∃ kept,
        (admitUtxoToMempool env tx m).1.pool = kept ++ [tx] ∧
        kept.Sublist (m.pool.without vetted.conflictIdxs) ∧
        UtxoPool.sumBytes kept + tx.relayBytes ≤ maxMempoolBytes ∧
        (m.pool.length ≤ maxMempoolSize → kept.length < maxMempoolSize)) := by
  rcases m.admit_cases env tx with ⟨e, -, hrun⟩ | ⟨vetted, hvet, hend⟩
  · rw [hrun]
    exact ⟨.refl _, Or.inl (List.Sublist.refl _)⟩
  · have hremoved : (m.removeAll vetted.conflictIdxs).pool = m.pool.without vetted.conflictIdxs := by
      have heq := (ChainState.vetUtxo_ok hvet).conflictIdxs
      rw [heq]
      exact removeAll_pool (UtxoPool.nodup_conflictIdxs _ _) fun i hi => UtxoPool.lt_of_mem_conflictIdxs hi
    have hkept := trimmed_sublist (m.removeAll vetted.conflictIdxs) tx vetted.packageRate
    rw [← cleared, hremoved] at hkept
    have hsub : (m.cleared tx vetted).pool.Sublist m.pool :=
      hkept.trans (UtxoPool.without_sublist m.pool vetted.conflictIdxs)
    have hlast : (m.cleared tx vetted).thinned.pool.Sublist (m.cleared tx vetted).pool :=
      thinned_sublist _
    rcases hend with ⟨-, hrun⟩ | ⟨hroom, ⟨-, hrun⟩ | ⟨-, hrun⟩⟩
    · rw [hrun]
      refine ⟨removeAll_chain m _, Or.inl ?_⟩
      rw [hremoved]
      exact UtxoPool.without_sublist _ _
    · simp only [hrun]
      exact ⟨cleared_chain m tx vetted, Or.inl hsub⟩
    · rw [hrun]
      refine ⟨?_, Or.inr ⟨vetted, hvet, (m.cleared tx vetted).thinned.pool, queued_pool _ _ _, ?_, ?_, ?_⟩⟩
      · exact ((cleared_chain m tx vetted).trans (thinned_chain _)).trans (queued_upToQueue _ env tx)
      · exact hlast.trans hkept
      · exact (Nat.add_le_add_right (UtxoPool.sumBytes_sublist hlast) _).trans (trimmed_fits hroom)
      · exact fun hlen => length_thinned_lt (hsub.length_le.trans hlen)

/-! ### Refused submissions -/

theorem length_removeAll (hnodup : idxs.Nodup) (hrange : ∀ i ∈ idxs, i < m.pool.length) :
    (m.removeAll idxs).pool.length + idxs.length = m.pool.length := by
  rw [removeAll_pool hnodup hrange, UtxoPool.length_without hnodup hrange]

/-- Somebody is evicted when the queue is over its budget. -/
theorem byteVictims_ne_nil (hover : maxMempoolBytes < UtxoPool.sumBytes m.pool + tx.relayBytes)
    (hroom : ¬ m.TooBig tx rate) : (m.byteVictims tx rate).1 ≠ [] := by
  obtain ⟨-, -, hleft, hfits⟩ := m.byteVictims_spec tx rate
  intro hnone
  have hfit := hfits.mpr hroom
  rw [hleft, hnone, UtxoPool.without_nil] at hfit
  omega

variable {vetted : VettedUtxo}

/-- A conflict or a full budget makes the queue shorter. -/
theorem length_cleared_lt (hnodup : vetted.conflictIdxs.Nodup)
    (hrange : ∀ i ∈ vetted.conflictIdxs, i < m.pool.length)
    (hgone : vetted.conflictIdxs ≠ [] ∨ maxMempoolBytes < UtxoPool.sumBytes m.pool + tx.relayBytes)
    (hroom : ¬ (m.removeAll vetted.conflictIdxs).TooBig tx vetted.packageRate) :
    (m.cleared tx vetted).pool.length < m.pool.length := by
  have hremoved := length_removeAll hnodup hrange
  by_cases hsome : vetted.conflictIdxs = []
  · have hover := hgone.resolve_left (not_not.mpr hsome)
    rw [cleared, hsome, removeAll_nil, trimmed, if_pos hover]
    rw [hsome, removeAll_nil] at hroom
    obtain ⟨hnodup', hlow, -, -⟩ := m.byteVictims_spec tx vetted.packageRate
    have hlen := length_removeAll hnodup' fun i hi => (hlow i hi).1
    have hpos := List.length_pos_iff.mpr (byteVictims_ne_nil hover hroom)
    omega
  · have hle := (trimmed_sublist (m.removeAll vetted.conflictIdxs) tx vetted.packageRate).length_le
    have hpos := List.length_pos_iff.mpr hsome
    rw [← cleared] at hle
    omega

/-- Without either nobody leaves. -/
theorem cleared_eq (hnone : vetted.conflictIdxs = [])
    (hfits : ¬ maxMempoolBytes < UtxoPool.sumBytes m.pool + tx.relayBytes) : m.cleared tx vetted = m := by
  rw [cleared, hnone, removeAll_nil, trimmed, if_neg hfits]

/-- The queue and its two records are the same. -/
structure SameQueue (m m' : Mempool) : Prop where
  utxoMempool : m'.chain.utxoMempool = m.chain.utxoMempool
  txFirstSeenMs : m'.txFirstSeenMs = m.txFirstSeenMs
  txFirstSeenBlue : m'.txFirstSeenBlue = m.txFirstSeenBlue

/-- A submission that passes every test, for which somebody leaves (a conflict, or
the queue is over its byte budget), and which one of the two limits then refuses:
those that pay at least its package rate leave no room for it, or as many stay as the
queue may hold and none of them pays less. -/
def RefusedLate (m : Mempool) (tx : UtxoTx) : Prop :=
  ∃ vetted, m.chain.vetUtxo tx = .ok vetted ∧
    (vetted.conflictIdxs ≠ [] ∧ (m.removeAll vetted.conflictIdxs).TooBig tx vetted.packageRate ∨
      (vetted.conflictIdxs ≠ [] ∨ maxMempoolBytes < UtxoPool.sumBytes m.pool + tx.relayBytes) ∧
      ¬ (m.removeAll vetted.conflictIdxs).TooBig tx vetted.packageRate ∧
      (m.cleared tx vetted).Full tx vetted.packageRate)

/-- **When a refused submission leaves the queue alone**: exactly unless it is refused
late. -/
theorem refused_unchanged_iff (env : Env) (tx : UtxoTx) (m : Mempool) :
    (∀ e, (admitUtxoToMempool env tx m).2 = .error e → m.SameQueue (admitUtxoToMempool env tx m).1) ↔
      ¬ m.RefusedLate tx := by
  have hsame : m.SameQueue m := ⟨rfl, rfl, rfl⟩
  have hlength : ∀ {m' : Mempool}, m'.pool.length < m.pool.length → ¬ m.SameQueue m' :=
    fun hlt h => hlt.ne (congrArg List.length h.utxoMempool)
  rcases m.admit_cases env tx with ⟨e, hvet, hrun⟩ | ⟨vetted, hvet, hend⟩
  · rw [hrun]
    refine ⟨fun _ hlate => ?_, fun _ _ _ => hsame⟩
    obtain ⟨vetted, hok, -⟩ := hlate
    rw [hvet] at hok
    cases hok
  · have hset : vetted.conflictIdxs.Nodup ∧ ∀ i ∈ vetted.conflictIdxs, i < m.pool.length := by
      rw [(ChainState.vetUtxo_ok hvet).conflictIdxs]
      exact ⟨UtxoPool.nodup_conflictIdxs _ _, fun i hi => UtxoPool.lt_of_mem_conflictIdxs hi⟩
    have hremoved := length_removeAll hset.1 hset.2
    have hlate : m.RefusedLate tx ↔ vetted.conflictIdxs ≠ [] ∧
        (m.removeAll vetted.conflictIdxs).TooBig tx vetted.packageRate ∨
        (vetted.conflictIdxs ≠ [] ∨ maxMempoolBytes < UtxoPool.sumBytes m.pool + tx.relayBytes) ∧
        ¬ (m.removeAll vetted.conflictIdxs).TooBig tx vetted.packageRate ∧
        (m.cleared tx vetted).Full tx vetted.packageRate := by
      constructor
      · intro h
        obtain ⟨vetted', hok, h⟩ := h
        obtain rfl := Except.ok.inj (hvet.symm.trans hok)
        exact h
      · exact fun h => ⟨vetted, hvet, h⟩
    rw [hlate]
    rcases hend with ⟨hbig, hrun⟩ | ⟨hroom, ⟨hfull, hrun⟩ | ⟨hfree, hrun⟩⟩
    · -- the byte budget refuses: what is gone are the conflicts
      rw [hrun]
      by_cases hnone : vetted.conflictIdxs = []
      · rw [hnone, removeAll_nil] at hbig ⊢
        refine ⟨fun _ h => ?_, fun _ _ _ => hsame⟩
        exact h.elim (fun h => h.1 rfl) fun h => h.2.1 hbig
      · have hpos := List.length_pos_iff.mpr hnone
        have hlt : (m.removeAll vetted.conflictIdxs).pool.length < m.pool.length := by omega
        exact ⟨fun h => absurd (h _ rfl) (hlength hlt), fun h => absurd (Or.inl ⟨hnone, hbig⟩) h⟩
    · -- the count limit refuses: the evicted ones are gone as well
      simp only [hrun]
      by_cases hgone : vetted.conflictIdxs ≠ [] ∨
          maxMempoolBytes < UtxoPool.sumBytes m.pool + tx.relayBytes
      · have hlt := length_cleared_lt hset.1 hset.2 hgone hroom
        exact ⟨fun h => absurd (h _ rfl) (hlength hlt), fun h => absurd (Or.inr ⟨hgone, hroom, hfull⟩) h⟩
      · obtain ⟨hnone, hfits⟩ := not_or.mp hgone
        rw [cleared_eq (not_not.mp hnone) hfits]
        refine ⟨fun _ h => ?_, fun _ _ _ => hsame⟩
        exact h.elim (fun h => hnone h.1) fun h => hgone h.1
    · rw [hrun]
      refine ⟨fun _ h => ?_, fun _ e he => by cases he⟩
      exact h.elim (fun h => hroom h.2) fun h => hfree h.2.2

end Mempool

end HassanNode
