import Mathlib

/-!
# HassanNode.Lib.Chunks

Cutting a list into pieces of a size, in general: no piece is empty or too long, and
together they are the list.
-/

namespace HassanNode

variable {α : Type*} {size : Nat} {xs : List α}

/-- Pieces of `size` elements, the last one shorter if it has to be. -/
def chunks (size : Nat) : List α → List (List α)
  | [] => []
  | x :: xs => (x :: xs.take (size - 1)) :: chunks size (xs.drop (size - 1))
  termination_by xs => xs.length
  decreasing_by simp

@[simp] theorem chunks_nil : chunks size ([] : List α) = [] := by rw [chunks]

theorem chunks_cons (x : α) :
    chunks size (x :: xs) = (x :: xs.take (size - 1)) :: chunks size (xs.drop (size - 1)) := by rw [chunks]

@[simp] theorem flatten_chunks : (chunks size xs).flatten = xs := by
  fun_induction chunks size xs with
  | case1 => rfl
  | case2 x xs ih => rw [List.flatten_cons, ih, List.cons_append, List.take_append_drop]

theorem ne_nil_of_mem_chunks {c : List α} (h : c ∈ chunks size xs) : c ≠ [] := by
  fun_induction chunks size xs with
  | case1 => cases h
  | case2 x xs ih =>
      rcases List.mem_cons.mp h with rfl | h
      · exact List.cons_ne_nil _ _
      · exact ih h

theorem length_le_of_mem_chunks (hsize : 0 < size) {c : List α} (h : c ∈ chunks size xs) : c.length ≤ size := by
  fun_induction chunks size xs with
  | case1 => cases h
  | case2 x xs ih =>
      rcases List.mem_cons.mp h with rfl | h
      · have htake := List.length_take_le (size - 1) xs
        rw [List.length_cons]
        omega
      · exact ih h

end HassanNode
