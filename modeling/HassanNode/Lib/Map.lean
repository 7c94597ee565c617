import Mathlib

/-!
# HassanNode.Lib.Map

Finite maps, in general: lookups after an insertion, and sums over the values:
what inserting, overwriting and erasing one key does to the sum. Every conservation argument of the ledger
is an instance of `sumBy_insert` and `sumBy_erase`.
-/

namespace HassanNode

open Std (ExtTreeMap)

namespace Map

variable {κ β : Type} [Ord κ] [Std.TransOrd κ] [Std.LawfulEqOrd κ]

/-- The sum of `f` over the values of a map. -/
def sumBy (f : β → Nat) (m : ExtTreeMap κ β) : Nat := (m.toList.map fun p => f p.2).sum

/-- What one key contributes to a sum: nothing when it is absent. -/
def valueAt (f : β → Nat) (m : ExtTreeMap κ β) (k : κ) : Nat := (m[k]?.map f).getD 0

/-- What a lookup finds after an insertion: the new value, or an old one. -/
theorem insert_eq_some {m : ExtTreeMap κ β} {k k' : κ} {v w : β} :
    (m.insert k v)[k']? = some w ↔ k = k' ∧ v = w ∨ k ≠ k' ∧ m[k']? = some w := by
  rw [ExtTreeMap.getElem?_insert]
  by_cases hk : k = k'
  · simp [hk]
  · simp [hk]

/-- A second write under one key. -/
theorem insert_insert (m : ExtTreeMap κ β) (k : κ) (v w : β) :
    (m.insert k v).insert k w = m.insert k w := by
  refine ExtTreeMap.ext_getElem? fun k' => ?_
  rw [ExtTreeMap.getElem?_insert, ExtTreeMap.getElem?_insert, ExtTreeMap.getElem?_insert]
  split
  · rfl
  · rfl

omit [Std.LawfulEqOrd κ] in
theorem mem_of_getElem? {m : ExtTreeMap κ β} {k : κ} {v : β} (h : m[k]? = some v) : k ∈ m :=
  ExtTreeMap.mem_iff_isSome_getElem?.mpr (by rw [h]; rfl)

theorem nodup_toList (m : ExtTreeMap κ β) : m.toList.Nodup := by
  have h := m.distinct_keys_toList
  refine h.imp ?_
  rintro a b hab rfl
  exact hab Std.ReflOrd.compare_self

/-- Maps with the same keys have the same size. -/
theorem size_eq_of_mem_iff {γ : Type} {m : ExtTreeMap κ β} {m' : ExtTreeMap κ γ}
    (h : ∀ k, k ∈ m' ↔ k ∈ m) : m'.size = m.size := by
  have hperm : m'.keys.Perm m.keys := by
    refine (List.perm_ext_iff_of_nodup ExtTreeMap.nodup_keys ExtTreeMap.nodup_keys).mpr fun k => ?_
    rw [ExtTreeMap.mem_keys, ExtTreeMap.mem_keys]
    exact h k
  rw [← ExtTreeMap.length_keys, ← ExtTreeMap.length_keys]
  exact hperm.length_eq

/-- The entries of `m`, with the one at `k` pulled to the front. -/
theorem toList_perm_of_getElem? {m : ExtTreeMap κ β} {k : κ} {v : β} (h : m[k]? = some v) :
    m.toList.Perm ((k, v) :: (m.erase k).toList) := by
  refine (List.perm_ext_iff_of_nodup (nodup_toList m) ?_).mpr ?_
  · refine List.nodup_cons.mpr ⟨?_, nodup_toList _⟩
    intro hmem
    rw [ExtTreeMap.mem_toList_iff_getElem?_eq_some] at hmem
    simp at hmem
  · rintro ⟨k', v'⟩
    rw [List.mem_cons, ExtTreeMap.mem_toList_iff_getElem?_eq_some,
      ExtTreeMap.mem_toList_iff_getElem?_eq_some, ExtTreeMap.getElem?_erase]
    by_cases hk : k = k'
    · subst hk
      simp [h, eq_comm]
    · simp [hk, Ne.symm hk]

omit [Std.LawfulEqOrd κ] in
@[simp] theorem sumBy_empty (f : β → Nat) : sumBy f (∅ : ExtTreeMap κ β) = 0 := by
  have : (∅ : ExtTreeMap κ β).toList = [] := by
    rw [← List.isEmpty_iff, ExtTreeMap.isEmpty_toList]
    simp
  simp [sumBy, this]

/-- Erasing a key takes its value out of the sum. -/
theorem sumBy_erase (f : β → Nat) (m : ExtTreeMap κ β) (k : κ) :
    sumBy f (m.erase k) + valueAt f m k = sumBy f m := by
  cases h : m[k]? with
  | none =>
      have : m.erase k = m := by
        refine ExtTreeMap.ext_getElem? fun k' => ?_
        rw [ExtTreeMap.getElem?_erase]
        split <;> simp_all
      simp [valueAt, h, this]
  | some v =>
      have hp := (toList_perm_of_getElem? h).map fun p : κ × β => f p.2
      simp only [sumBy, valueAt, h, Option.map_some, Option.getD_some]
      rw [hp.sum_eq, List.map_cons, List.sum_cons, Nat.add_comm]

/-- Inserting at a key replaces its value in the sum. -/
theorem sumBy_insert (f : β → Nat) (m : ExtTreeMap κ β) (k : κ) (v : β) :
    sumBy f (m.insert k v) + valueAt f m k = sumBy f m + f v := by
  have he : (m.insert k v).erase k = m.erase k := by
    refine ExtTreeMap.ext_getElem? fun k' => ?_
    simp only [ExtTreeMap.getElem?_erase, ExtTreeMap.getElem?_insert]
    split <;> rfl
  have h₁ := sumBy_erase f (m.insert k v) k
  have h₂ := sumBy_erase f m k
  have hv : valueAt f (m.insert k v) k = f v := by simp [valueAt]
  rw [he, hv] at h₁
  omega

/-- One value is at most the whole sum. -/
theorem valueAt_le_sumBy (f : β → Nat) (m : ExtTreeMap κ β) (k : κ) :
    valueAt f m k ≤ sumBy f m := by
  have := sumBy_erase f m k
  omega

end Map

end HassanNode
