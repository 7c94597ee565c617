import Mathlib

/-!
# HassanNode.Lib.Search

Graph search with an explicit stack, in general, in the shape iterative code
has it: pop a node, skip it if it is blocked or already seen, else mark it and
push its successors.

`mem_explore` says exactly what the search finds. The fuel counts pops; it is
enough when it covers the stack and every edge of the graph (`budget`), since
each node pushes its successors at most once.
-/

namespace HassanNode

open Std (ExtTreeSet)

namespace Search

variable {κ : Type} [Ord κ] [Std.TransOrd κ] [Std.LawfulEqOrd κ]

/-- The search loop. The last successor pushed is the first one popped. -/
def explore (succ : κ → List κ) (blocked : κ → Bool) :
    (fuel : Nat) → (stack : List κ) → (seen : ExtTreeSet κ) → ExtTreeSet κ
  | 0, _, seen => seen
  | _ + 1, [], seen => seen
  | fuel + 1, x :: stack, seen =>
    if blocked x || seen.contains x then explore succ blocked fuel stack seen
    else explore succ blocked fuel ((succ x).reverse ++ stack) (seen.insert x)

/-- Reachable from the seeds through admissible nodes only. -/
inductive Reach (succ : κ → List κ) (ok : κ → Prop) (seeds : List κ) : κ → Prop
  | root {x : κ} (hok : ok x) (hx : x ∈ seeds) : Reach succ ok seeds x
  | edge {x y : κ} (hx : Reach succ ok seeds x) (hok : ok y) (hy : y ∈ succ x) :
      Reach succ ok seeds y

omit [Ord κ] [Std.TransOrd κ] [Std.LawfulEqOrd κ] in
theorem Reach.ok {succ : κ → List κ} {ok : κ → Prop} {seeds : List κ} {y : κ}
    (h : Reach succ ok seeds y) : ok y := by
  cases h with
  | root hok _ => exact hok
  | edge _ hok _ => exact hok

omit [Ord κ] [Std.TransOrd κ] [Std.LawfulEqOrd κ] in
theorem Reach.mono {succ : κ → List κ} {ok ok' : κ → Prop} {seeds seeds' : List κ}
    (hok : ∀ x, ok x → ok' x) (hseeds : ∀ x ∈ seeds, Reach succ ok' seeds' x ∨ ¬ ok x) {y : κ}
    (h : Reach succ ok seeds y) : Reach succ ok' seeds' y := by
  induction h with
  | root hx hmem =>
      rcases hseeds _ hmem with hreach | hnot
      · exact hreach
      · exact absurd hx hnot
  | edge _ hy hmem ih => exact .edge ih (hok _ hy) hmem

omit [Ord κ] [Std.TransOrd κ] [Std.LawfulEqOrd κ] in
/-- Visiting an admissible seed: everything else it leads to is reachable from
its successors and the other seeds, without it. -/
theorem Reach.visit {succ : κ → List κ} {ok : κ → Prop} {stack : List κ} {x y : κ}
    (h : Reach succ ok (x :: stack) y) (hne : y ≠ x) :
    Reach succ (fun z => ok z ∧ z ≠ x) ((succ x).reverse ++ stack) y := by
  induction h with
  | root hok hmem =>
      rcases List.mem_cons.mp hmem with rfl | hmem
      · exact absurd rfl hne
      · exact .root ⟨hok, hne⟩ (List.mem_append_right _ hmem)
  | @edge z y hz hok hmem ih =>
      by_cases hzx : z = x
      · subst hzx
        exact .root ⟨hok, hne⟩ (List.mem_append_left _ (List.mem_reverse.mpr hmem))
      · exact .edge (ih hzx) ⟨hok, hne⟩ hmem

/-- The edges that have not been pushed yet, over the `nodes` that can
have successors at all. -/
def budget (succ : κ → List κ) (nodes : List κ) (seen : ExtTreeSet κ) : Nat :=
  ((nodes.filter fun x => !seen.contains x).map fun x => (succ x).length).sum

/-- Marking an unseen node releases its edges from the budget. -/
theorem budget_insert {succ : κ → List κ} {nodes : List κ} (hnodup : nodes.Nodup)
    (hleaf : ∀ x, x ∉ nodes → succ x = []) {seen : ExtTreeSet κ} {x : κ}
    (hx : seen.contains x = false) :
    budget succ nodes (seen.insert x) + (succ x).length = budget succ nodes seen := by
  by_cases hmem : x ∈ nodes
  · clear hleaf
    unfold budget
    induction nodes with
    | nil => simp at hmem
    | cons y nodes ih =>
        obtain ⟨hy, hnodes⟩ := List.nodup_cons.mp hnodup
        have hsame : x ∉ nodes → nodes.filter (fun z => !(seen.insert x).contains z)
            = nodes.filter fun z => !seen.contains z := by
          intro hnot
          refine List.filter_congr fun z hz => ?_
          have hne : x ≠ z := fun h => hnot (h ▸ hz)
          simp [ExtTreeSet.contains_insert, hne]
        rcases List.mem_cons.mp hmem with rfl | hmem
        · rw [List.filter_cons_of_neg (by simp), List.filter_cons_of_pos (by simp [hx]), hsame hy,
            List.map_cons, List.sum_cons, Nat.add_comm]
        · have hne : x ≠ y := fun h => hy (h ▸ hmem)
          have hih := ih hnodes hmem
          by_cases hyseen : seen.contains y = true
          · simp only [List.filter_cons, ExtTreeSet.contains_insert, hyseen]
            simpa using hih
          · simp only [List.filter_cons, ExtTreeSet.contains_insert, hyseen]
            simp [hne] at hih ⊢
            omega
  · have hsame : nodes.filter (fun z => !(seen.insert x).contains z)
        = nodes.filter fun z => !seen.contains z := by
      refine List.filter_congr fun z hz => ?_
      have hne : x ≠ z := fun h => hmem (h ▸ hz)
      simp [ExtTreeSet.contains_insert, hne]
    rw [budget, budget, hsame, hleaf x hmem, List.length_nil, Nat.add_zero]

/-- **What a search finds**: what was marked before, and what can be reached
from the stack through nodes that are neither blocked nor marked. -/
theorem mem_explore {succ : κ → List κ} {blocked : κ → Bool} {nodes : List κ}
    (hnodup : nodes.Nodup) (hleaf : ∀ x, x ∉ nodes → succ x = []) {fuel : Nat} {stack : List κ}
    {seen : ExtTreeSet κ} (hfuel : stack.length + budget succ nodes seen ≤ fuel) (y : κ) :
    y ∈ explore succ blocked fuel stack seen ↔
      y ∈ seen ∨ Reach succ (fun z => blocked z = false ∧ z ∉ seen) stack y := by
  have hnil : ∀ {ok : κ → Prop} {z : κ}, ¬ Reach succ ok [] z := by
    intro ok z h
    induction h with
    | root _ hmem => simp at hmem
    | edge _ _ _ ih => exact ih
  induction fuel generalizing stack seen with
  | zero =>
      obtain rfl : stack = [] := List.length_eq_zero_iff.mp (by omega)
      simp [explore, hnil]
  | succ fuel ih =>
      cases stack with
      | nil => simp [explore, hnil]
      | cons x stack =>
          simp only [explore]
          split
          · -- blocked or seen: `x` is not admissible, so it reaches nothing
            rename_i hskip
            have hfuel' : stack.length + budget succ nodes seen ≤ fuel := by
              simp only [List.length_cons] at hfuel
              omega
            refine (ih hfuel').trans ?_
            refine or_congr_right ⟨fun h => ?_, fun h => ?_⟩
            · exact h.mono (fun _ h => h) fun z hz => by
                by_cases hok : blocked z = false ∧ z ∉ seen
                · exact Or.inl (.root hok (List.mem_cons_of_mem x hz))
                · exact Or.inr hok
            · refine h.mono (fun _ h => h) fun z hz => ?_
              by_cases hok : blocked z = false ∧ z ∉ seen
              · rcases List.mem_cons.mp hz with rfl | hz
                · rw [Bool.or_eq_true, hok.1, ExtTreeSet.contains_iff_mem] at hskip
                  exact absurd (hskip.resolve_left (by simp)) hok.2
                · exact Or.inl (.root hok hz)
              · exact Or.inr hok
          · rename_i hvisit
            simp only [Bool.or_eq_true, not_or, Bool.not_eq_true] at hvisit
            obtain ⟨hblocked, hseen⟩ := hvisit
            have hbudget := budget_insert hnodup hleaf hseen
            have hxok : blocked x = false ∧ x ∉ seen := by
              refine ⟨hblocked, ?_⟩
              rw [← ExtTreeSet.contains_iff_mem, hseen]
              simp
            have hok : (fun z => blocked z = false ∧ z ∉ seen.insert x)
                = fun z => (blocked z = false ∧ z ∉ seen) ∧ z ≠ x := by
              funext z
              simp only [ExtTreeSet.mem_insert, Std.LawfulEqCmp.compare_eq_iff_eq, not_or,
                eq_iff_iff, ne_eq, @eq_comm _ z x]
              tauto
            have hfuel' : ((succ x).reverse ++ stack).length + budget succ nodes (seen.insert x)
                ≤ fuel := by
              simp only [List.length_cons, List.length_append, List.length_reverse] at hfuel ⊢
              omega
            refine (ih hfuel').trans ?_
            rw [hok, ExtTreeSet.mem_insert, Std.LawfulEqCmp.compare_eq_iff_eq]
            constructor
            · rintro ((rfl | hmem) | hreach)
              · exact Or.inr (.root hxok (by simp))
              · exact Or.inl hmem
              · refine Or.inr (hreach.mono (fun _ h => h.1) fun z hz => ?_)
                by_cases hzok : blocked z = false ∧ z ∉ seen
                · rcases List.mem_append.mp hz with hz | hz
                  · exact Or.inl (.edge (.root hxok (by simp)) hzok (List.mem_reverse.mp hz))
                  · exact Or.inl (.root hzok (List.mem_cons_of_mem x hz))
                · exact Or.inr fun h => hzok h.1
            · rintro (hmem | hreach)
              · exact Or.inl (Or.inr hmem)
              · by_cases hyx : y = x
                · exact Or.inl (Or.inl hyx.symm)
                · exact Or.inr (hreach.visit hyx)

end Search

end HassanNode
