import Mathlib

/-!
# HassanNode.Lib.OneShot

An abstract machine for things that happen at most once. A key is created once
and spent once, in this order; a counter gives out each of its values once,
until it reaches its ceiling. `View.Run` says that a list of events is enabled
step by step. What follows from it is stated about the whole list: no key is
created twice or spent twice, live and dead keys stay apart, and no counter
value below the ceiling is consumed twice.

A concrete store refines this machine when each of its operations is a run
(`Run.append` composes them).
-/

namespace HassanNode

namespace OneShot

variable {κ ι : Type} [DecidableEq ι]

/-- What can happen. -/
inductive Event (κ ι : Type)
  | create (k : κ)
  | spend (k : κ)
  | consume (i : ι) (n : Nat)

/-- The state of every key and every counter. -/
@[ext] structure View (κ ι : Type) where
  live : Set κ
  dead : Set κ
  counter : ι → Nat

namespace View

/-- The effect of an event; counters stop at `top`. -/
def apply (top : Nat) (v : View κ ι) : Event κ ι → View κ ι
  | .create k => { v with live := insert k v.live }
  | .spend k => { v with live := v.live \ {k}, dead := insert k v.dead }
  | .consume i n => { v with counter := Function.update v.counter i (min (n + 1) top) }

/-- When an event may happen. -/
def Enabled (v : View κ ι) : Event κ ι → Prop
  | .create k => k ∉ v.live ∧ k ∉ v.dead
  | .spend k => k ∈ v.live
  | .consume i n => v.counter i = n

/-- A list of events, each enabled where it happens. -/
inductive Run (top : Nat) : View κ ι → List (Event κ ι) → View κ ι → Prop
  | nil (v : View κ ι) : Run top v [] v
  | cons {v v' : View κ ι} {e : Event κ ι} {es : List (Event κ ι)} (he : v.Enabled e)
      (hes : Run top (v.apply top e) es v') : Run top v (e :: es) v'

end View

/-- The keys created by a list of events. -/
def created : List (Event κ ι) → List κ
  | [] => []
  | .create k :: es => k :: created es
  | _ :: es => created es

/-- The keys spent by a list of events. -/
def spent : List (Event κ ι) → List κ
  | [] => []
  | .spend k :: es => k :: spent es
  | _ :: es => spent es

/-- The counter values consumed by a list of events, below the ceiling. -/
def consumed (top : Nat) : List (Event κ ι) → List (ι × Nat)
  | [] => []
  | .consume i n :: es => if n < top then (i, n) :: consumed top es else consumed top es
  | _ :: es => consumed top es

namespace View.Run

variable {top : Nat} {v v' v'' : View κ ι} {es es' : List (Event κ ι)}

theorem append (h : Run top v es v') (h' : Run top v' es' v'') : Run top v (es ++ es') v'' := by
  induction h with
  | nil => exact h'
  | cons he _ ih => exact .cons he (ih h')

/-- A run splits where its events do. -/
theorem split (h : Run top v (es ++ es') v'') : ∃ v', Run top v es v' ∧ Run top v' es' v'' := by
  induction es generalizing v with
  | nil => exact ⟨v, .nil v, h⟩
  | cons e es ih =>
      cases h with
      | cons he hes =>
          obtain ⟨v', h₁, h₂⟩ := ih hes
          exact ⟨v', .cons he h₁, h₂⟩

/-- Distinct live keys can be spent one after the other. -/
theorem spends {ks : List κ} (hnodup : ks.Nodup) (hlive : ∀ k ∈ ks, k ∈ v.live) :
    Run top v (ks.map .spend)
      { v with live := v.live \ {k | k ∈ ks}, dead := v.dead ∪ {k | k ∈ ks} } := by
  induction ks generalizing v with
  | nil => simpa using (Run.nil v : Run top v [] v)
  | cons k ks ih =>
      obtain ⟨hk, hks⟩ := List.nodup_cons.mp hnodup
      have hlive' : ∀ k' ∈ ks, k' ∈ (v.apply top (.spend k)).live := by
        intro k' hk'
        exact ⟨hlive k' (List.mem_cons_of_mem k hk'), fun h => hk (h ▸ hk')⟩
      refine .cons (hlive k (by simp)) ?_
      convert ih hks hlive' using 1
      ext x
      · simp [apply]
        tauto
      · simp [apply]
        tauto
      · rfl

/-- Distinct unknown keys can be created one after the other. -/
theorem creates {ks : List κ} (hnodup : ks.Nodup)
    (hfresh : ∀ k ∈ ks, k ∉ v.live ∧ k ∉ v.dead) :
    Run top v (ks.map .create) { v with live := v.live ∪ {k | k ∈ ks} } := by
  induction ks generalizing v with
  | nil => simpa using (Run.nil v : Run top v [] v)
  | cons k ks ih =>
      obtain ⟨hk, hks⟩ := List.nodup_cons.mp hnodup
      have hfresh' : ∀ k' ∈ ks, k' ∉ (v.apply top (.create k)).live ∧
          k' ∉ (v.apply top (.create k)).dead := by
        intro k' hk'
        obtain ⟨hlive, hdead⟩ := hfresh k' (List.mem_cons_of_mem k hk')
        refine ⟨?_, hdead⟩
        rintro (heq | hmem)
        · exact hk (heq ▸ hk')
        · exact hlive hmem
      refine .cons (hfresh k (by simp)) ?_
      convert ih hks hfresh' using 1
      ext x
      · simp [apply]
        tauto
      · rfl
      · rfl

/-- Live and dead keys stay apart. -/
theorem disjoint (h : Run top v es v') (hv : Disjoint v.live v.dead) :
    Disjoint v'.live v'.dead := by
  induction h with
  | nil => exact hv
  | @cons v _ e _ he _ ih =>
      refine ih ?_
      cases e with
      | create k => exact Set.disjoint_insert_left.mpr ⟨he.2, hv⟩
      | spend k =>
          refine Set.disjoint_insert_right.mpr ⟨?_, ?_⟩
          · exact fun hk => hk.2 rfl
          · exact hv.mono_left Set.sdiff_subset
      | consume i n => exact hv

/-- **No key is created twice**, nor one that was already known. -/
theorem nodup_created (h : Run top v es v') :
    (created es).Nodup ∧ ∀ k ∈ created es, k ∉ v.live ∧ k ∉ v.dead := by
  induction h with
  | nil => simp [created]
  | @cons v _ e es he _ ih =>
      obtain ⟨hnodup, hfresh⟩ := ih
      cases e with
      | create k =>
          refine ⟨List.nodup_cons.mpr ⟨?_, hnodup⟩, ?_⟩
          · exact fun hk => (hfresh k hk).1 (Set.mem_insert k v.live)
          · intro k' hk'
            rcases List.mem_cons.mp hk' with rfl | hk'
            · exact he
            · obtain ⟨hlive, hdead⟩ := hfresh k' hk'
              exact ⟨fun h => hlive (Set.mem_insert_of_mem k h), hdead⟩
      | spend k =>
          refine ⟨hnodup, ?_⟩
          intro k' hk'
          obtain ⟨hlive, hdead⟩ := hfresh k' hk'
          refine ⟨fun h => ?_, fun h => hdead (Set.mem_insert_of_mem k h)⟩
          by_cases heq : k' = k
          · exact hdead (heq ▸ Set.mem_insert k v.dead)
          · exact hlive ⟨h, heq⟩
      | consume i n => exact ⟨hnodup, hfresh⟩

/-- **No key is spent twice**, nor one that was already dead. -/
theorem nodup_spent (h : Run top v es v') (hv : Disjoint v.live v.dead) :
    (spent es).Nodup ∧ ∀ k ∈ spent es, k ∉ v.dead := by
  induction h with
  | nil => simp [spent]
  | @cons v v' e es he hes ih =>
      have hv' := (Run.cons he (.nil (v.apply top e))).disjoint hv
      obtain ⟨hnodup, hdead⟩ := ih hv'
      cases e with
      | create k => exact ⟨hnodup, hdead⟩
      | spend k =>
          refine ⟨List.nodup_cons.mpr ⟨?_, hnodup⟩, ?_⟩
          · exact fun hk => hdead k hk (Set.mem_insert k v.dead)
          · intro k' hk'
            rcases List.mem_cons.mp hk' with rfl | hk'
            · exact Set.disjoint_left.mp hv he
            · exact fun h => hdead k' hk' (Set.mem_insert_of_mem k h)
      | consume i n => exact ⟨hnodup, hdead⟩

/-- **No counter value below the ceiling is consumed twice**, nor one the
counter had passed. -/
theorem nodup_consumed (h : Run top v es v') :
    (consumed top es).Nodup ∧ ∀ p ∈ consumed top es, v.counter p.1 ≤ p.2 := by
  induction h with
  | nil => simp [consumed]
  | @cons v _ e es he _ ih =>
      obtain ⟨hnodup, hle⟩ := ih
      cases e with
      | create k => exact ⟨hnodup, hle⟩
      | spend k => exact ⟨hnodup, hle⟩
      | consume i n =>
          have hold : ∀ p ∈ consumed top es, v.counter p.1 ≤ p.2 := by
            intro p hp
            have hp' := hle p hp
            by_cases hi : p.1 = i
            · -- the counter moved up from `n`, and values below the ceiling are in range
              subst hi
              have hn : v.counter p.1 = n := he
              simp only [apply, Function.update_self] at hp'
              have hlt := consumed_lt hp
              omega
            · simpa [apply, Function.update_of_ne hi] using hp'
          simp only [consumed]
          split
          · rename_i hn
            refine ⟨List.nodup_cons.mpr ⟨?_, hnodup⟩, ?_⟩
            · intro hmem
              have := hle _ hmem
              simp only [apply, Function.update_self] at this
              omega
            · intro p hp
              rcases List.mem_cons.mp hp with rfl | hp
              · exact le_of_eq he
              · exact hold p hp
          · exact ⟨hnodup, hold⟩
where
  consumed_lt {top : Nat} {es : List (Event κ ι)} {p : ι × Nat} (hp : p ∈ consumed top es) :
      p.2 < top := by
    induction es with
    | nil => simp [consumed] at hp
    | cons e es ih =>
        cases e with
        | create k => exact ih hp
        | spend k => exact ih hp
        | consume i n =>
            simp only [consumed] at hp
            split at hp
            · rename_i hn
              rcases List.mem_cons.mp hp with rfl | hp
              · exact hn
              · exact ih hp
            · exact ih hp

end View.Run

end OneShot

end HassanNode
