import Mathlib

/-!
# HassanNode.Lib.Fallible

Fallible computations, in general: tests, inversion of a successful `Except`, and
the two ways to run a list of fallible state updates. `skipEach` goes on after a
failure (keeping whatever the failed update did to the state), `strictEach`
stops at the first one. Where the strict run succeeds the two agree
(`skipEach_of_strictEach`), and an invariant of one update is an invariant of
both runs.
-/

namespace HassanNode

namespace Except

variable {ε α β : Type}

theorem bind_eq_ok {x : Except ε α} {f : α → Except ε β} {b : β} (h : (x >>= f) = .ok b) :
    ∃ a, x = .ok a ∧ f a = .ok b := by
  cases x with
  | error e => cases h
  | ok a => exact ⟨a, rfl, h⟩

/-- The same for a test, which returns nothing. -/
theorem seq_eq_ok {x : Except ε Unit} {f : Unit → Except ε β} {b : β} (h : (x >>= f) = .ok b) :
    x = .ok () ∧ f () = .ok b := by
  cases x with
  | error e => cases h
  | ok a => exact ⟨rfl, h⟩

theorem then_ok_iff {x : Except ε Unit} {y : Except ε β} {b : β} :
    (do x; y) = .ok b ↔ x = .ok () ∧ y = .ok b := by
  cases x <;> simp [bind, Except.bind]

theorem map_eq_ok {x : Except ε α} {f : α → β} {b : β} (h : x.map f = .ok b) :
    ∃ a, x = .ok a ∧ b = f a := by
  cases x with
  | error e => cases h
  | ok a =>
      cases h
      exact ⟨a, rfl, rfl⟩

/-- A loop of checks that passes has passed every check. -/
theorem forM_eq_ok {xs : List α} {f : α → Except ε Unit} (h : xs.forM f = .ok ()) :
    ∀ x ∈ xs, f x = .ok () := by
  induction xs with
  | nil => simp
  | cons x xs ih =>
      obtain ⟨hx, hxs⟩ := seq_eq_ok (x := f x) (f := fun _ => xs.forM f) h
      intro y hy
      rcases List.mem_cons.mp hy with rfl | hy
      · exact hx
      · exact ih hxs y hy

end Except

/-- Fail with `e` unless a test passes. -/
def ensure {ε : Type} (test : Bool) (e : ε) : Except ε Unit := if test then .ok () else .error e

@[simp] theorem ensure_eq_ok {ε : Type} {test : Bool} {e : ε} {u : Unit} :
    ensure test e = .ok u ↔ test = true := by
  cases test <;> simp [ensure]

section Runs

variable {ε σ α : Type}

/-- Run every update, ignoring failures. -/
def skipEach (step : σ → α → σ × Except ε Unit) (s : σ) (xs : List α) : σ :=
  xs.foldl (fun s x => (step s x).1) s

/-- Run updates up to the first failure, which is returned. -/
def strictEach (step : σ → α → σ × Except ε Unit) (s : σ) : List α → Except ε σ
  | [] => .ok s
  | x :: xs =>
    match step s x with
    | (s', .ok ()) => strictEach step s' xs
    | (_, .error e) => .error e

/-- A strict run that succeeds ends where the skipping run does. -/
theorem skipEach_of_strictEach {step : σ → α → σ × Except ε Unit} {s s' : σ} {xs : List α}
    (h : strictEach step s xs = .ok s') : skipEach step s xs = s' := by
  induction xs generalizing s with
  | nil =>
      cases h
      rfl
  | cons x xs ih =>
      simp only [strictEach] at h
      split at h
      · rename_i s₁ hx
        have := ih h
        simpa [skipEach, hx] using this
      · cases h

/-- An update that only fails more often runs to the same state, if at all. -/
theorem strictEach_imp {step step' : σ → α → σ × Except ε Unit} {s s' : σ} {xs : List α}
    (himp : ∀ s x t, step s x = (t, .ok ()) → step' s x = (t, .ok ()))
    (h : strictEach step s xs = .ok s') : strictEach step' s xs = .ok s' := by
  induction xs generalizing s with
  | nil => exact h
  | cons x xs ih =>
      simp only [strictEach] at h
      split at h
      · rename_i s₁ hx
        simp only [strictEach, himp s x s₁ hx]
        exact ih h
      · cases h

/-- A strict run that succeeds goes through each of its updates. -/
theorem strictEach_split {step : σ → α → σ × Except ε Unit} {s s' : σ} {xs : List α} {x : α}
    (h : strictEach step s xs = .ok s') (hx : x ∈ xs) :
    ∃ t t' rest, step t x = (t', .ok ()) ∧ (∀ y ∈ rest, y ∈ xs) ∧ strictEach step t' rest = .ok s' := by
  induction xs generalizing s with
  | nil => cases hx
  | cons y xs ih =>
      simp only [strictEach] at h
      split at h
      · rename_i s₁ hy
        rcases List.mem_cons.mp hx with rfl | hx
        · exact ⟨s, s₁, xs, hy, fun z hz => List.mem_cons_of_mem x hz, h⟩
        · obtain ⟨t, t', rest, hstep, hrest, hrun⟩ := ih h hx
          exact ⟨t, t', rest, hstep, fun z hz => List.mem_cons_of_mem y (hrest z hz), hrun⟩
      · cases h

/-- So every update succeeded, from some state. -/
theorem ok_of_strictEach {step : σ → α → σ × Except ε Unit} {s s' : σ} {xs : List α}
    (h : strictEach step s xs = .ok s') : ∀ x ∈ xs, ∃ t, (step t x).2 = .ok () := by
  intro x hx
  obtain ⟨t, t', -, hstep, -⟩ := strictEach_split h hx
  exact ⟨t, by rw [hstep]⟩

/-- An invariant of every update is an invariant of the skipping run. -/
theorem skipEach_induction {step : σ → α → σ × Except ε Unit} (Inv : σ → Prop) {s : σ}
    {xs : List α} (hs : Inv s) (hstep : ∀ x ∈ xs, ∀ s, Inv s → Inv (step s x).1) :
    Inv (skipEach step s xs) := by
  induction xs generalizing s with
  | nil => exact hs
  | cons x xs ih =>
      refine ih (hstep x (by simp) s hs) ?_
      intro y hy
      exact hstep y (List.mem_cons_of_mem x hy)

end Runs

end HassanNode
