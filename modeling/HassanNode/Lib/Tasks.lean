import Mathlib
import HassanNode.Lib.Worklist

/-!
# HassanNode.Lib.Tasks

Items that wait for each other, in general. An item may fail until others are done, but
once those are done it succeeds, in whatever order they were (`Tasks`). Then an order runs
through exactly when every item comes behind those it waits for (`Tasks.runs_iff`), one
pass that skips what fails takes everything exactly when its order does
(`takeEach_eq_self_iff`), and rounds that try again take everything as soon as there is
one such order (`Tasks.retry_all`).
-/

namespace HassanNode

namespace Worklist

variable {σ α : Type} {attempt : σ → α → Option σ}

/-! ### One pass -/

/-- Try each in order, and keep those that succeed. -/
def takeEach (attempt : σ → α → Option σ) : List α → σ → σ × List α
  | [], s => (s, [])
  | x :: xs, s =>
    match attempt s x with
    | some s' => ((takeEach attempt xs s').1, x :: (takeEach attempt xs s').2)
    | none => takeEach attempt xs s

theorem takeEach_sublist (xs : List α) (s : σ) : (takeEach attempt xs s).2.Sublist xs := by
  induction xs generalizing s with
  | nil => exact List.Sublist.refl []
  | cons x xs ih =>
      rw [takeEach]
      split
      · exact (ih _).cons_cons x
      · exact (ih s).cons x

/-- Whatever is taken has succeeded somewhere on the way. -/
theorem takeEach_taken {xs : List α} {s : σ} {x : α} (h : x ∈ (takeEach attempt xs s).2) :
    ∃ s₀ s₁, attempt s₀ x = some s₁ := by
  induction xs generalizing s with
  | nil => cases h
  | cons y xs ih =>
      rw [takeEach] at h
      split at h
      · rename_i s' hy
        rcases List.mem_cons.mp h with heq | h
        · exact ⟨s, s', heq ▸ hy⟩
        · exact ih h
      · exact ih h

/-- What a pass takes runs through. -/
theorem takeEach_run (xs : List α) (s : σ) :
    (takeEach attempt xs s).2.foldlM attempt s = some (takeEach attempt xs s).1 := by
  induction xs generalizing s with
  | nil => rfl
  | cons x xs ih =>
      rw [takeEach]
      split
      · rename_i s' hx
        rw [List.foldlM_cons, hx]
        exact ih s'
      · exact ih s

/-- A pass takes everything if and only if its order runs through. -/
theorem takeEach_eq_self_iff {xs : List α} {s : σ} :
    (takeEach attempt xs s).2 = xs ↔ ∃ s', xs.foldlM attempt s = some s' := by
  constructor
  · intro h
    have hrun : (takeEach attempt xs s).2.foldlM attempt s = some (takeEach attempt xs s).1 := takeEach_run xs s
    rw [h] at hrun
    exact ⟨_, hrun⟩
  · intro h
    obtain ⟨s', hrun⟩ := h
    induction xs generalizing s with
    | nil => rfl
    | cons x xs ih =>
        rw [List.foldlM_cons] at hrun
        obtain ⟨s₁, hx, hrest⟩ := Option.bind_eq_some_iff.mp hrun
        rw [takeEach, hx]
        exact congrArg (x :: ·) (ih hrest)

/-- What a round of tries has done. -/
theorem retryPass_run (pending : List α) (s : σ) : ∃ applied,
    (applied ++ (retryPass attempt pending s).2).Perm pending ∧
      applied.foldlM attempt s = some (retryPass attempt pending s).1 := by
  induction pending generalizing s with
  | nil => exact ⟨[], List.Perm.refl [], rfl⟩
  | cons x xs ih =>
      rw [retryPass]
      split
      · rename_i s' hx
        obtain ⟨applied, hperm, hrun⟩ := ih s'
        refine ⟨x :: applied, hperm.cons x, ?_⟩
        rw [List.foldlM_cons, hx]
        exact hrun
      · obtain ⟨applied, hperm, hrun⟩ := ih s
        exact ⟨applied, List.perm_middle.trans (hperm.cons x), hrun⟩

/-- Where a round took nothing, nothing can be done. -/
theorem retryPass_stuck {pending : List α} {s : σ}
    (h : (retryPass attempt pending s).2.length = pending.length) : ∀ x ∈ pending, attempt s x = none := by
  induction pending with
  | nil => exact fun x hx => absurd hx List.not_mem_nil
  | cons x xs ih =>
      rw [retryPass] at h
      split at h
      · rename_i s' hx
        have hsub : (retryPass attempt xs s').2.Sublist xs := retryPass_sublist xs s'
        have hle := hsub.length_le
        rw [List.length_cons] at h
        omega
      · rename_i hx
        exact List.forall_mem_cons.mpr ⟨hx, ih (Nat.succ.inj h)⟩

/-- A single item that can be done is done. -/
theorem retry_singleton {x : α} {s s' : σ} (h : attempt s x = some s') (fuel : Nat) :
    retry attempt (fuel + 1) [x] s = s' := by
  have hpass : retryPass attempt [x] s = (s', []) := by
    rw [retryPass, h]
    rfl
  rw [retry, hpass, if_neg (by simp)]
  cases fuel with
  | zero => rfl
  | succ fuel => rfl

/-! ### Items that wait for each other -/

/-- An order in which every item is ready when those before it are done. -/
def ReadyOrder (ready : List α → α → Prop) (order : List α) : Prop :=
  ∀ pre x post, order = pre ++ x :: post → ready pre x

/-- Items that succeed exactly when they are ready, and then stay so, whatever the order
was of those that are done. -/
structure Tasks (attempt : σ → α → Option σ) (start : σ) (pool : List α) (ready : List α → α → Prop) : Prop where
  nodup : pool.Nodup
  mono : ∀ {done done' : List α} {x : α}, done ⊆ done' → ready done x → ready done' x
  step_iff : ∀ {done : List α} {x : α} {s : σ}, (done ++ [x]).Subperm pool → done.foldlM attempt start = some s →
    ((∃ s', attempt s x = some s') ↔ ready done x)

/-- Items that no kept one waits for can be left out. -/
theorem ReadyOrder.filter {ready : List α → α → Prop} {order : List α} {p : α → Bool} (h : ReadyOrder ready order)
    (hkeep : ∀ done x, p x = true → done ++ [x] <+: order → ready done x → ready (done.filter p) x) :
    ReadyOrder ready (order.filter p) := by
  intro pre x post hsplit
  obtain ⟨front, back, rfl, rfl, hback⟩ := List.filter_eq_append_iff.mp hsplit
  obtain ⟨skipped, rest, rfl, hskipped, hx, -⟩ := List.filter_eq_cons_iff.mp hback
  have hnone : skipped.filter p = [] := List.filter_eq_nil_iff.mpr hskipped
  have hkept := hkeep (front ++ skipped) x hx ⟨rest, by simp⟩ (h (front ++ skipped) x rest (by simp))
  rwa [List.filter_append, hnone, List.append_nil] at hkept

namespace Tasks

variable {start : σ} {pool order todo : List α} {ready : List α → α → Prop}

/-- **An order runs through** if and only if every item is ready when it comes. -/
theorem runs_iff (h : Tasks attempt start pool ready) (hsub : order.Subperm pool) :
    (∃ s, order.foldlM attempt start = some s) ↔ ReadyOrder ready order := by
  constructor
  · rintro ⟨s, hrun⟩ pre x post rfl
    rw [List.foldlM_append] at hrun
    obtain ⟨s₁, hpre, hrest⟩ := Option.bind_eq_some_iff.mp hrun
    rw [List.foldlM_cons] at hrest
    obtain ⟨s₂, hx, -⟩ := Option.bind_eq_some_iff.mp hrest
    have hfront : (pre ++ [x]).Sublist (pre ++ x :: post) :=
      (List.Sublist.refl pre).append ((List.nil_sublist post).cons_cons x)
    exact (h.step_iff (hfront.subperm.trans hsub) hpre).mp ⟨s₂, hx⟩
  · intro hready
    induction order using List.reverseRecOn with
    | nil => exact ⟨start, rfl⟩
    | append_singleton order x ih =>
        have hshort : order.Subperm pool := (List.sublist_append_left order [x]).subperm.trans hsub
        obtain ⟨s, hrun⟩ := ih hshort fun pre y post hsplit => hready pre y (post ++ [x]) (by rw [hsplit]; simp)
        obtain ⟨s', hx⟩ := (h.step_iff hsub hrun).mpr (hready order x [] rfl)
        refine ⟨s', ?_⟩
        rw [List.foldlM_append, hrun]
        show (do let s' ← attempt s x; [].foldlM attempt s') = some s'
        rw [hx]
        rfl

/-- As long as something is left of such an order, something of it is ready. -/
theorem exists_ready (h : Tasks attempt start pool ready) (hready : ReadyOrder ready order)
    (hsub : order.Subperm pool) {done pending : List α} (hperm : (done ++ pending).Perm order)
    (hleft : pending ≠ []) : ∃ x ∈ pending, ready done x := by
  classical
  have hnodup : (done ++ pending).Nodup := by
    obtain ⟨l, hl, hlsub⟩ := hsub
    exact (hperm.trans hl.symm).nodup_iff.mpr (h.nodup.sublist hlsub)
  obtain ⟨y, hy⟩ := List.exists_mem_of_ne_nil pending hleft
  have hfirst : order.find? (fun x => decide (x ∉ done)) ≠ none := by
    intro hnone
    have hdone := List.find?_eq_none.mp hnone y (hperm.mem_iff.mp (List.mem_append_right done hy))
    have hin : y ∈ done := not_not.mp (by simpa using hdone)
    exact (List.nodup_append.mp hnodup).2.2 y hin y hy rfl
  obtain ⟨x, hx⟩ := Option.ne_none_iff_exists'.mp hfirst
  obtain ⟨hnew, pre, post, hsplit, hbefore⟩ := List.find?_eq_some_iff_append.mp hx
  have hpre : pre ⊆ done := fun z hz => by simpa using hbefore z hz
  have hmem : x ∈ done ++ pending := hperm.mem_iff.mpr (by rw [hsplit]; simp)
  refine ⟨x, (List.mem_append.mp hmem).resolve_left (by simpa using hnew), ?_⟩
  exact h.mono hpre (hready pre x post hsplit)

/-- Rounds take everything that can be done in some order. -/
theorem retry_all (h : Tasks attempt start pool ready) (hready : ReadyOrder ready order) (hsub : order.Subperm pool)
    {fuel : Nat} {done pending : List α} {s : σ} (hperm : (done ++ pending).Perm order)
    (hrun : done.foldlM attempt start = some s) (hfuel : pending.length < fuel) :
    ∃ applied : List α, applied.Perm order ∧ applied.foldlM attempt start = some (retry attempt fuel pending s) := by
  induction fuel generalizing done pending s with
  | zero => exact absurd hfuel (Nat.not_lt_zero _)
  | succ fuel ih =>
      obtain ⟨applied, hpass, happlied⟩ := @retryPass_run _ _ attempt pending s
      have hboth : (done ++ applied).foldlM attempt start = some (retryPass attempt pending s).1 := by
        rw [List.foldlM_append, hrun]
        exact happlied
      have hall : ((done ++ applied) ++ (retryPass attempt pending s).2).Perm order := by
        rw [List.append_assoc]
        exact (hpass.append_left done).trans hperm
      rw [retry]
      split
      · rename_i hstuck
        -- a round without progress comes only when nothing is pending
        have hnone : pending = [] := by
          by_contra hleft
          obtain ⟨x, hx, hxready⟩ := h.exists_ready hready hsub hperm hleft
          have hone : (done ++ [x]).Subperm pool :=
            ((List.singleton_sublist.mpr hx).append_left done).subperm.trans (hperm.subperm.trans hsub)
          obtain ⟨s', hsome⟩ := (h.step_iff hone hrun).mpr hxready
          rw [retryPass_stuck hstuck x hx] at hsome
          cases hsome
        subst hnone
        exact ⟨done ++ applied, by simpa [retryPass] using hall, hboth⟩
      · rename_i hprogress
        have hfewer : (retryPass attempt pending s).2.Sublist pending := retryPass_sublist pending s
        have hle := hfewer.length_le
        exact ih hall hboth (by omega)

end Tasks

end Worklist

end HassanNode
