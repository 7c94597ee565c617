import Mathlib

/-!
# HassanNode.Lib.ExecutionTrace

Execution traces under algebraic constraints, in general. A trace is one column of
field elements. A constraint system asks that a polynomial vanishes on every pair of
neighbouring rows, and that some cells have given values.

Where the polynomial vanishes exactly on the steps of a machine, the traces that
satisfy the constraints are the runs of that machine from its first cell
(`satisfied_iff_run`); so a trace of a given length exists exactly when every asserted
cell is on the run that starts in the asserted first one (`satisfiable_iff`).
-/

namespace HassanNode

/-- Constraints on the traces of one column: `transition` must vanish on neighbouring
rows, and `assertions` lists the given cells of a trace with that many rows. -/
structure ConstraintSystem (F : Type) where
  transition : (current next : F) → F
  assertions : (rows : Nat) → List (Nat × F)

namespace ConstraintSystem

variable {F : Type} [Zero F] {c : ConstraintSystem F} {f : F → F} {column : List F} {a : F}

structure Satisfied (c : ConstraintSystem F) (column : List F) : Prop where
  transitions : column.IsChain fun current next => c.transition current next = 0
  assertions : ∀ cell ∈ c.assertions column.length, column[cell.1]? = some cell.2

/-- The transition constraint vanishes exactly on the steps of `f`. -/
def Describes (c : ConstraintSystem F) (f : F → F) : Prop := ∀ x y, c.transition x y = 0 ↔ y = f x

/-- A list in which every element is the step of the one before is a run. -/
theorem isChain_step_iff {F : Type} {f : F → F} {a : F} {rest : List F} :
    (a :: rest).IsChain (fun x y => y = f x) ↔ a :: rest = List.iterate f a (rest.length + 1) := by
  induction rest generalizing a with
  | nil => simp [List.iterate]
  | cons b rest ih =>
      rw [List.isChain_cons_cons, ih]
      constructor
      · intro ⟨hb, hrest⟩
        show a :: b :: rest = a :: List.iterate f (f a) (rest.length + 1)
        rw [hrest, hb]
      · intro h
        have htail : b :: rest = List.iterate f (f a) (rest.length + 1) := (List.cons.inj h).2
        have hb : b = f a := (List.cons.inj htail).1
        refine ⟨hb, ?_⟩
        rw [hb] at htail ⊢
        exact htail

omit [Zero F] in
theorem iterate_getElem? (f : F → F) (a : F) {rows i : Nat} (hi : i < rows) :
    (List.iterate f a rows)[i]? = some (f^[i] a) := List.getElem?_iterate f a rows i hi

/-- **A column that satisfies the constraints is a run from its asserted first cell.** -/
theorem satisfied_iff_run (hdesc : c.Describes f) (hne : column ≠ []) (hfirst : (0, a) ∈ c.assertions column.length) :
    c.Satisfied column ↔ column = List.iterate f a column.length ∧
      ∀ cell ∈ c.assertions column.length, cell.1 < column.length ∧ cell.2 = f^[cell.1] a := by
  obtain ⟨b, rest, rfl⟩ := List.exists_cons_of_ne_nil hne
  have hchain : (b :: rest).IsChain (fun x y => c.transition x y = 0) ↔
      b :: rest = List.iterate f b (rest.length + 1) := by
    rw [← isChain_step_iff]
    exact ⟨fun h => h.imp fun x y hxy => (hdesc x y).mp hxy, fun h => h.imp fun x y hxy => (hdesc x y).mpr hxy⟩
  constructor
  · intro s
    -- the first cell is the asserted one, so the chain starts there
    obtain rfl : b = a := Option.some.inj (s.assertions _ hfirst)
    have hrun := hchain.mp s.transitions
    refine ⟨hrun, fun cell hcell => ?_⟩
    have hget := s.assertions cell hcell
    have hlt : cell.1 < (b :: rest).length := (List.getElem?_eq_some_iff.mp hget).1
    refine ⟨hlt, ?_⟩
    rw [hrun, List.length_iterate] at hlt
    rw [hrun, iterate_getElem? f b hlt] at hget
    exact (Option.some.inj hget).symm
  · intro ⟨hrun, hcells⟩
    obtain rfl : b = a := (List.cons.inj hrun).1
    refine ⟨hchain.mpr hrun, fun cell hcell => ?_⟩
    obtain ⟨hlt, hvalue⟩ := hcells cell hcell
    rw [hrun, iterate_getElem? f b hlt, hvalue]

/-- **There is a column of a given length exactly when the asserted cells are on the run.** -/
theorem satisfiable_iff (hdesc : c.Describes f) {rows : Nat} (hrows : 0 < rows) (hfirst : (0, a) ∈ c.assertions rows) :
    (∃ column, column.length = rows ∧ c.Satisfied column) ↔
      ∀ cell ∈ c.assertions rows, cell.1 < rows ∧ cell.2 = f^[cell.1] a := by
  constructor
  · intro ⟨column, hlen, s⟩
    subst hlen
    have hne : column ≠ [] := List.length_pos_iff.mp hrows
    exact ((satisfied_iff_run hdesc hne hfirst).mp s).2
  · intro hcells
    have hlen : (List.iterate f a rows).length = rows := List.length_iterate f a rows
    have hne : List.iterate f a rows ≠ [] := List.length_pos_iff.mp (hlen.symm ▸ hrows)
    refine ⟨_, hlen, (satisfied_iff_run hdesc hne (hlen.symm ▸ hfirst)).mpr ⟨?_, ?_⟩⟩
    · rw [hlen]
    · rw [hlen]
      exact hcells

end ConstraintSystem

end HassanNode
