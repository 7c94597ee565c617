import Mathlib

/-!
# HassanNode.Lib.Worklist

Three loops that grow something until nothing more can be added, in general: a walk
over what was found so far that stops at a cap (`walk`), rounds over all candidates
until a round adds none (`passes`), and rounds that try again what failed before
(`retry`). What they find is closed (`walk_closed`, `passes_closed`), and what every
successful try keeps, the rounds keep (`retry_induction`).
-/

namespace HassanNode

namespace Worklist

section Closures

variable {κ : Type} [DecidableEq κ]

/-- Append what is not there yet, one after the other. -/
def pushNew (found : List κ) (ys : List κ) : List κ :=
  ys.foldl (fun found y => if y ∈ found then found else found ++ [y]) found

/-- Take the found ones in turn and append what each leads to, until all were taken
or there are `cap` of them. -/
def walk (succ : κ → List κ) (cap : Nat) : (fuel next : Nat) → (found : List κ) → List κ
  | 0, _, found => found
  | fuel + 1, next, found =>
    match found[next]? with
    | none => found
    | some x =>
      if cap ≤ (pushNew found (succ x)).length then pushNew found (succ x)
      else walk succ cap fuel (next + 1) (pushNew found (succ x))

/-- Rounds over all candidates: append those that what was found before the round
calls for, until a round appends none. -/
def passes (calls : List κ → κ → Bool) (nodes : List κ) : (fuel : Nat) → (found : List κ) → List κ
  | 0, found => found
  | fuel + 1, found =>
    match nodes.filter fun x => !found.contains x && calls found x with
    | [] => found
    | more => passes calls nodes fuel (found ++ more)

theorem mem_pushNew {found ys : List κ} {z : κ} : z ∈ pushNew found ys ↔ z ∈ found ∨ z ∈ ys := by
  induction ys generalizing found with
  | nil => simp [pushNew]
  | cons y ys ih =>
      rw [pushNew, List.foldl_cons, ← pushNew, ih, List.mem_cons]
      split
      · rename_i hy
        constructor
        · intro h
          exact h.imp id Or.inr
        · intro h
          rcases h with h | rfl | h
          · exact Or.inl h
          · exact Or.inl hy
          · exact Or.inr h
      · rw [List.mem_append, List.mem_singleton, or_assoc]

theorem prefix_pushNew (found ys : List κ) : found <+: pushNew found ys := by
  induction ys generalizing found with
  | nil => exact List.prefix_refl found
  | cons y ys ih =>
      rw [pushNew, List.foldl_cons, ← pushNew]
      split
      · exact ih found
      · exact (List.prefix_append found [y]).trans (ih _)

theorem nodup_pushNew {found ys : List κ} (h : found.Nodup) : (pushNew found ys).Nodup := by
  induction ys generalizing found with
  | nil => exact h
  | cons y ys ih =>
      rw [pushNew, List.foldl_cons, ← pushNew]
      split
      · exact ih h
      · rename_i hy
        exact ih (List.nodup_append.mpr ⟨h, List.nodup_singleton y, fun a ha b hb hab =>
          hy (List.mem_singleton.mp hb ▸ hab ▸ ha)⟩)

section Walk

variable {succ : κ → List κ} {cap : Nat}

theorem prefix_walk (fuel next : Nat) (found : List κ) : found <+: walk succ cap fuel next found := by
  induction fuel generalizing next found with
  | zero => exact List.prefix_refl found
  | succ fuel ih =>
      rw [walk]
      split
      · exact List.prefix_refl found
      · split
        · exact prefix_pushNew found _
        · exact (prefix_pushNew found _).trans (ih _ _)

/-- Where nothing leads on there is nothing to add. -/
theorem walk_leaf {fuel : Nat} {x : κ} (h : succ x = []) (hcap : 1 < cap) :
    walk succ cap fuel 0 [x] = [x] := by
  cases fuel with
  | zero => rfl
  | succ fuel =>
      rw [walk]
      simp only [List.getElem?_cons_zero, h, pushNew, List.foldl_nil, List.length_singleton,
        if_neg (Nat.not_le.mpr hcap)]
      cases fuel with
      | zero => rfl
      | succ fuel =>
          rw [walk]
          rfl

/-- What passes on along the way, every found one has. -/
theorem walk_induction {P : κ → Prop} (hstep : ∀ x y, P x → y ∈ succ x → P y) {fuel next : Nat}
    {found : List κ} (hfound : ∀ x ∈ found, P x) : ∀ x ∈ walk succ cap fuel next found, P x := by
  induction fuel generalizing next found with
  | zero => exact hfound
  | succ fuel ih =>
      rw [walk]
      split
      · exact hfound
      · rename_i x hx
        have hpush : ∀ y ∈ pushNew found (succ x), P y := fun y hy =>
          (mem_pushNew.mp hy).elim (hfound y) (hstep x y (hfound x (List.mem_of_getElem? hx)))
        split
        · exact hpush
        · exact ih hpush

theorem nodup_walk {fuel next : Nat} {found : List κ} (h : found.Nodup) :
    (walk succ cap fuel next found).Nodup := by
  induction fuel generalizing next found with
  | zero => exact h
  | succ fuel ih =>
      rw [walk]
      split
      · exact h
      · split
        · exact nodup_pushNew h
        · exact ih (nodup_pushNew h)

theorem walk_subset {nodes : List κ} (hsucc : ∀ x, succ x ⊆ nodes) {fuel next : Nat} {found : List κ}
    (h : found ⊆ nodes) : walk succ cap fuel next found ⊆ nodes := by
  have hpush : ∀ {found : List κ}, found ⊆ nodes → ∀ x, pushNew found (succ x) ⊆ nodes := by
    intro found h x z hz
    exact (mem_pushNew.mp hz).elim (fun hz => h hz) fun hz => hsucc x hz
  induction fuel generalizing next found with
  | zero => exact h
  | succ fuel ih =>
      rw [walk]
      split
      · exact h
      · split
        · exact hpush h _
        · exact ih (hpush h _)

/-- **A walk that stays below its cap has found everything**: what each found one
leads to was found. The fuel is enough when it covers the candidates. -/
theorem walk_closed {nodes : List κ} (hsucc : ∀ x, succ x ⊆ nodes) {fuel next : Nat} {found : List κ}
    (hnodup : found.Nodup) (hnodes : found ⊆ nodes) (hfuel : nodes.length ≤ fuel + next)
    (hdone : ∀ x ∈ found.take next, succ x ⊆ found)
    (hcap : (walk succ cap fuel next found).length < cap) :
    ∀ x ∈ walk succ cap fuel next found, succ x ⊆ walk succ cap fuel next found := by
  induction fuel generalizing next found with
  | zero =>
      intro x hx
      have hlen := (hnodup.subperm hnodes).length_le
      rw [walk] at hx ⊢
      rw [List.take_of_length_le (by omega)] at hdone
      exact hdone x hx
  | succ fuel ih =>
      rw [walk] at hcap ⊢
      split at hcap
      · rename_i hend
        rw [List.take_of_length_le (List.getElem?_eq_none_iff.mp hend)] at hdone
        exact hdone
      · rename_i x hx
        split at hcap
        · omega
        · rename_i hbelow
          simp only [if_neg hbelow]
          obtain ⟨hlt, hget⟩ := List.getElem?_eq_some_iff.mp hx
          obtain ⟨tail, htail⟩ := prefix_pushNew found (succ x)
          have htake : (pushNew found (succ x)).take (next + 1) = found.take next ++ [x] := by
            rw [← htail, List.take_append_of_le_length hlt, List.take_add_one, hx]
            rfl
          refine ih (nodup_pushNew hnodup) (fun z hz => (mem_pushNew.mp hz).elim
            (fun h => hnodes h) fun h => hsucc x h) (by omega) ?_ hcap
          -- those taken before, and the one taken now
          intro y hy z hz
          rw [htake] at hy
          rcases List.mem_append.mp hy with hy | hy
          · exact mem_pushNew.mpr (Or.inl (hdone y hy hz))
          · rw [List.mem_singleton.mp hy] at hz
            exact mem_pushNew.mpr (Or.inr hz)

end Walk

section Passes

variable {calls : List κ → κ → Bool} {nodes : List κ}

theorem subset_passes (fuel : Nat) (found : List κ) : found ⊆ passes calls nodes fuel found := by
  induction fuel generalizing found with
  | zero => exact List.Subset.refl found
  | succ fuel ih =>
      rw [passes]
      split
      · exact List.Subset.refl found
      · exact List.Subset.trans (List.subset_append_left found _) (ih _)

/-- Nobody is called for, and nobody comes. -/
theorem passes_eq_self {fuel : Nat} {found : List κ} (h : ∀ x ∈ nodes, calls found x = false) :
    passes calls nodes fuel found = found := by
  cases fuel with
  | zero => rfl
  | succ fuel =>
      rw [passes, List.filter_eq_nil_iff.mpr fun x hx => by rw [h x hx, Bool.and_false]; simp]

theorem passes_subset {fuel : Nat} {found : List κ} (h : found ⊆ nodes) :
    passes calls nodes fuel found ⊆ nodes := by
  induction fuel generalizing found with
  | zero => exact h
  | succ fuel ih =>
      rw [passes]
      split
      · exact h
      · rename_i hmore
        refine ih (List.append_subset.mpr ⟨h, ?_⟩)
        exact List.filter_subset_self _

/-- A round keeps the found ones apart. -/
theorem nodup_round (hnodes : nodes.Nodup) {found : List κ} (h : found.Nodup) :
    (found ++ nodes.filter fun x => !found.contains x && calls found x).Nodup := by
  refine List.nodup_append.mpr ⟨h, hnodes.filter _, fun a ha b hb hab => ?_⟩
  have hnew := (List.mem_filter.mp hb).2
  rw [Bool.and_eq_true, Bool.not_eq_true', ← hab, List.contains_iff_mem.mpr ha] at hnew
  cases hnew.1

theorem nodup_passes (hnodes : nodes.Nodup) {fuel : Nat} {found : List κ} (h : found.Nodup) :
    (passes calls nodes fuel found).Nodup := by
  induction fuel generalizing found with
  | zero => exact h
  | succ fuel ih =>
      rw [passes]
      split
      · exact h
      · exact ih (nodup_round hnodes h)

/-- What every call passes on, every found one has. -/
theorem passes_induction {P : κ → Prop} (hstep : ∀ found x, (∀ y ∈ found, P y) → x ∈ nodes → calls found x = true → P x)
    {fuel : Nat} {found : List κ} (hfound : ∀ x ∈ found, P x) : ∀ x ∈ passes calls nodes fuel found, P x := by
  induction fuel generalizing found with
  | zero => exact hfound
  | succ fuel ih =>
      rw [passes]
      split
      · exact hfound
      · refine ih fun x hx => ?_
        rcases List.mem_append.mp hx with hold | hnew
        · exact hfound x hold
        · obtain ⟨hmem, hcalls⟩ := List.mem_filter.mp hnew
          rw [Bool.and_eq_true] at hcalls
          exact hstep found x hfound hmem hcalls.2

/-- **The rounds find everything**: no candidate is left that what was found calls
for. As many rounds as there are candidates are enough. -/
theorem passes_closed (hnodes : nodes.Nodup) {fuel : Nat} {found : List κ} (hnodup : found.Nodup)
    (hsub : found ⊆ nodes) (hfuel : nodes.length ≤ fuel + found.length) :
    ∀ x ∈ nodes, calls (passes calls nodes fuel found) x = true → x ∈ passes calls nodes fuel found := by
  induction fuel generalizing found with
  | zero =>
      intro x hx _
      have hperm := (hnodup.subperm hsub).perm_of_length_le (by omega)
      exact hperm.mem_iff.mpr hx
  | succ fuel ih =>
      rw [passes]
      split
      · rename_i hnone
        intro x hx hcalls
        by_contra hnot
        have hmem : x ∈ nodes.filter fun x => !found.contains x && calls found x := by
          refine List.mem_filter.mpr ⟨hx, ?_⟩
          rw [hcalls, Bool.and_true, Bool.not_eq_true', ← Bool.not_eq_true, List.contains_iff_mem]
          exact hnot
        rw [hnone] at hmem
        cases hmem
      · rename_i hmore
        refine ih (nodup_round hnodes hnodup) (List.append_subset.mpr ⟨hsub, List.filter_subset_self _⟩) ?_
        have hpos := List.length_pos_iff.mpr hmore
        rw [List.length_append]
        omega

end Passes

end Closures

/-! ### Trying again -/

section Retry

variable {σ α : Type}

/-- One round: try each of the pending ones in order, keep the effect of those that
succeed, and return those that failed. -/
def retryPass (attempt : σ → α → Option σ) : List α → σ → σ × List α
  | [], s => (s, [])
  | x :: xs, s =>
    match attempt s x with
    | some s' => retryPass attempt xs s'
    | none => ((retryPass attempt xs s).1, x :: (retryPass attempt xs s).2)

/-- Rounds over those that failed before, until a round makes no progress. -/
def retry (attempt : σ → α → Option σ) : (fuel : Nat) → List α → σ → σ
  | 0, _, s => s
  | fuel + 1, pending, s =>
    if (retryPass attempt pending s).2.length = pending.length then (retryPass attempt pending s).1
    else retry attempt fuel (retryPass attempt pending s).2 (retryPass attempt pending s).1

variable {attempt : σ → α → Option σ} {P : σ → Prop}

theorem retryPass_sublist (pending : List α) (s : σ) :
    (retryPass attempt pending s).2.Sublist pending := by
  induction pending generalizing s with
  | nil => exact List.Sublist.refl []
  | cons x xs ih =>
      rw [retryPass]
      split
      · exact (ih _).cons x
      · exact (ih s).cons_cons x

theorem retryPass_induction {pending : List α} {s : σ}
    (hstep : ∀ x ∈ pending, ∀ s s', P s → attempt s x = some s' → P s') (hs : P s) :
    P (retryPass attempt pending s).1 := by
  induction pending generalizing s with
  | nil => exact hs
  | cons x xs ih =>
      have htail := fun {s : σ} (hs : P s) => ih (fun y hy => hstep y (List.mem_cons_of_mem x hy)) hs
      rw [retryPass]
      split
      · rename_i s' hx
        exact htail (hstep x List.mem_cons_self s s' hs hx)
      · exact htail hs

/-- **What every successful try keeps, the rounds keep.** -/
theorem retry_induction {fuel : Nat} {pending : List α} {s : σ}
    (hstep : ∀ x ∈ pending, ∀ s s', P s → attempt s x = some s' → P s') (hs : P s) :
    P (retry attempt fuel pending s) := by
  induction fuel generalizing pending s with
  | zero => exact hs
  | succ fuel ih =>
      rw [retry]
      split
      · exact retryPass_induction hstep hs
      · exact ih (fun x hx => hstep x ((retryPass_sublist pending s).subset hx))
          (retryPass_induction hstep hs)

end Retry

end Worklist

end HassanNode
