import Mathlib

/-!
# HassanNode.Lib.Cluster

Clusters of bounded conflict. In a `k`-cluster every member is in conflict with
at most `k` members. A greedy rule that looks only at the newcomer and at the
members it is in conflict with keeps the cluster (`Cluster.insert`), and a
newcomer without conflicts is always welcome (`Cluster.insert_free`).
-/

namespace HassanNode

variable {α : Type} [DecidableEq α]

/-- The members in conflict with `x`. -/
def conflicts (conflict : α → α → Bool) (members : List α) (x : α) : List α :=
  members.filter fun y => conflict y x

/-- Every member is in conflict with at most `k` members. -/
def Cluster (conflict : α → α → Bool) (k : Nat) (members : List α) : Prop :=
  ∀ x ∈ members, (conflicts conflict members x).length ≤ k

namespace Cluster

variable {conflict conflict' : α → α → Bool} {k : Nat} {members members' : List α} {c : α}

omit [DecidableEq α] in
theorem conflicts_congr (h : ∀ x ∈ members, ∀ y ∈ members, conflict x y = conflict' x y) {x : α}
    (hx : x ∈ members) : conflicts conflict members x = conflicts conflict' members x :=
  List.filter_congr fun y hy => h y hy x hx

omit [DecidableEq α] in
theorem congr (h : ∀ x ∈ members, ∀ y ∈ members, conflict x y = conflict' x y)
    (hc : Cluster conflict k members) : Cluster conflict' k members := by
  intro x hx
  rw [← conflicts_congr h hx]
  exact hc x hx

omit [DecidableEq α] in
theorem perm (h : members.Perm members') (hc : Cluster conflict k members) :
    Cluster conflict k members' := by
  intro x hx
  have := hc x (h.mem_iff.mpr hx)
  rwa [conflicts, (h.filter _).length_eq] at this

omit [DecidableEq α] in
theorem singleton (hirrefl : conflict c c = false) : Cluster conflict k [c] := by
  intro x hx
  obtain rfl := List.mem_singleton.mp hx
  simp [conflicts, hirrefl]

omit [DecidableEq α] in
/-- **The greedy rule.** A newcomer with at most `k` conflicts, each with a member
that has room for one more. -/
theorem cons (hsymm : ∀ x y, conflict x y = conflict y x) (hirrefl : conflict c c = false)
    (hc : Cluster conflict k members) (hnew : (conflicts conflict members c).length ≤ k)
    (hroom : ∀ d ∈ conflicts conflict members c, (conflicts conflict members d).length < k) :
    Cluster conflict k (c :: members) := by
  intro x hx
  rcases List.mem_cons.mp hx with rfl | hx
  · simpa [conflicts, hirrefl] using hnew
  · by_cases hcx : conflict c x = true
    · have hmem : x ∈ conflicts conflict members c := by
        rw [conflicts, List.mem_filter, hsymm]
        exact ⟨hx, hcx⟩
      have := hroom x hmem
      simp only [conflicts, List.filter_cons, hcx, if_true, List.length_cons] at this ⊢
      omega
    · have := hc x hx
      simpa [conflicts, List.filter_cons, hcx] using this

/-- The greedy rule, for a newcomer that may be a member already. -/
theorem insert (hsymm : ∀ x y, conflict x y = conflict y x) (hirrefl : conflict c c = false)
    (hc : Cluster conflict k members) (hnew : (conflicts conflict members c).length ≤ k)
    (hroom : ∀ d ∈ conflicts conflict members c, (conflicts conflict members d).length < k) :
    Cluster conflict k (members.insert c) := by
  by_cases hmem : c ∈ members
  · rwa [List.insert_of_mem hmem]
  · rw [List.insert_of_not_mem hmem]
    exact hc.cons hsymm hirrefl hnew hroom

omit [DecidableEq α] in
/-- A newcomer that is in conflict with nobody. -/
theorem cons_free (hirrefl : conflict c c = false) (hsymm : ∀ x y, conflict x y = conflict y x)
    (hc : Cluster conflict k members) (hfree : ∀ x ∈ members, conflict x c = false) :
    Cluster conflict k (c :: members) := by
  have hnone : conflicts conflict members c = [] := by
    refine List.filter_eq_nil_iff.mpr fun x hx => ?_
    simp [hfree x hx]
  exact hc.cons hsymm hirrefl (by simp [hnone]) (by simp [hnone])

end Cluster

end HassanNode
