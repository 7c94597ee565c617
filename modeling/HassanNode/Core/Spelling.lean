import Mathlib
import HassanNode.Core.Address

/-!
# HassanNode.Core.Spelling

Spellings of one address. `addresses_equivalent` is an equivalence relation, so
a list of addresses has a first member for every spelling of one of them, and
the first members of different classes are not equivalent.
-/

namespace HassanNode

namespace Address

variable {a b c : Address}

theorem equivalent_iff : equivalent a b = true ↔
    a = b ∨ ∃ fp, fingerprint a = some fp ∧ fingerprint b = some fp := by
  unfold equivalent
  by_cases hab : a = b
  · simp [hab]
  · cases ha : fingerprint a <;> cases hb : fingerprint b <;> simp [hab, eq_comm]

@[simp] theorem equivalent_refl (a : Address) : equivalent a a = true :=
  equivalent_iff.mpr (Or.inl rfl)

theorem equivalent_symm (h : equivalent a b = true) : equivalent b a = true := by
  rcases equivalent_iff.mp h with rfl | ⟨fp, ha, hb⟩
  · exact equivalent_refl a
  · exact equivalent_iff.mpr (Or.inr ⟨fp, hb, ha⟩)

theorem equivalent_trans (hab : equivalent a b = true) (hbc : equivalent b c = true) :
    equivalent a c = true := by
  rcases equivalent_iff.mp hab with rfl | ⟨fp, ha, hb⟩
  · exact hbc
  · rcases equivalent_iff.mp hbc with rfl | ⟨fp', hb', hc⟩
    · exact hab
    · obtain rfl := Option.some.inj (hb.symm.trans hb')
      exact equivalent_iff.mpr (Or.inr ⟨fp, ha, hc⟩)

/-- Equivalent addresses are interchangeable in a test. -/
theorem equivalent_congr (h : equivalent b c = true) (a : Address) : equivalent a b = equivalent a c := by
  rw [Bool.eq_iff_iff]
  exact ⟨fun hab => equivalent_trans hab h, fun hac => equivalent_trans hac (equivalent_symm h)⟩

/-! ### The first member of a class -/

/-- The first of `addresses` that is equivalent to `a`: the key under which a
member is counted. -/
def canon (addresses : List Address) (a : Address) : Option Address := addresses.find? (equivalent · a)

variable {addresses : List Address}

theorem canon_mem (h : canon addresses a = some b) : b ∈ addresses := List.mem_of_find?_eq_some h

theorem canon_equivalent (h : canon addresses a = some b) : equivalent b a = true :=
  List.find?_some (p := fun b => equivalent b a) h

theorem canon_congr (h : equivalent a b = true) : canon addresses a = canon addresses b := by
  have hsame : (equivalent · a) = (equivalent · b) := funext fun c => equivalent_congr h c
  rw [canon, canon, hsame]

theorem canon_isSome (hb : b ∈ addresses) (h : equivalent b a = true) : ∃ k, canon addresses a = some k :=
  Option.isSome_iff_exists.mp (List.find?_isSome.mpr ⟨b, hb, h⟩)

/-- Equivalent first members are the same one. -/
theorem canon_unique {k k' : Address} (h : canon addresses a = some k) (h' : canon addresses b = some k')
    (heq : equivalent k k' = true) : k = k' := by
  have hab : equivalent a b = true := equivalent_trans
    (equivalent_trans (equivalent_symm (canon_equivalent h)) heq) (canon_equivalent h')
  rw [canon_congr hab] at h
  exact Option.some.inj (h.symm.trans h')

end Address

end HassanNode
