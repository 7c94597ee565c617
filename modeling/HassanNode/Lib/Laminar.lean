import Mathlib

/-!
# HassanNode.Lib.Laminar

Forests whose nodes carry nested intervals, in general.

A node's interval lies inside its parent's and ends before it; nodes with the
same parent (roots among themselves included) have disjoint intervals. Then
containment of intervals is ancestry in the forest (`above_iff_contains`), and
in a list of pairwise disjoint intervals sorted from left to right the only
candidate for a cover is the last one that starts early enough (`cover_iff`).
-/

namespace HassanNode

variable {κ : Type}

/-- `Above parent a b`: following parents from `b` reaches `a`. -/
inductive Above (parent : κ → Option κ) : κ → κ → Prop
  | refl (a : κ) : Above parent a a
  | step {a p b : κ} (hp : parent b = some p) (h : Above parent a p) : Above parent a b

namespace Above

variable {parent : κ → Option κ} {a b c : κ}

theorem cases_step (h : Above parent a b) : a = b ∨ ∃ p, parent b = some p ∧ Above parent a p := by
  cases h with
  | refl => exact Or.inl rfl
  | step hp h => exact Or.inr ⟨_, hp, h⟩

theorem trans (hab : Above parent a b) (hbc : Above parent b c) : Above parent a c := by
  induction hbc with
  | refl => exact hab
  | step hp _ ih => exact .step hp ih

/-- Two ancestors of one node are on one branch. -/
theorem comparable (hac : Above parent a c) (hbc : Above parent b c) : Above parent a b ∨ Above parent b a := by
  induction hac with
  | refl => exact Or.inr hbc
  | @step p c hp hap ih =>
      rcases hbc.cases_step with rfl | ⟨q, hq, hbq⟩
      · exact Or.inl (.step hp hap)
      · obtain rfl := Option.some.inj (hp.symm.trans hq)
        exact ih hbq

/-- A strict ancestor is an ancestor of a child that leads down. -/
theorem split (h : Above parent a b) : a = b ∨ ∃ c, parent c = some a ∧ Above parent c b := by
  induction h with
  | refl => exact Or.inl rfl
  | @step p b hp _ ih =>
      rcases ih with rfl | ⟨c, hc, hcp⟩
      · exact Or.inr ⟨b, hp, .refl b⟩
      · exact Or.inr ⟨c, hc, .step hp hcp⟩

theorem mono {parent' : κ → Option κ} (h : Above parent a b)
    (hparent : ∀ x p, Above parent x b → parent x = some p → parent' x = some p) :
    Above parent' a b := by
  induction h with
  | refl => exact .refl _
  | @step p b hp _ ih =>
      exact .step (hparent b p (.refl b) hp)
        (ih fun x q hx hq => hparent x q (hx.trans (.step hp (.refl p))) hq)

end Above

/-- A forest on the nodes `D` labelled with intervals `[lo, hi]` below `top`. -/
structure Laminar (D : κ → Prop) (parent : κ → Option κ) (lo hi : κ → Nat) (top : Nat) :
    Prop where
  parent_mem : ∀ {h p}, D h → parent h = some p → D p
  le : ∀ {h}, D h → lo h ≤ hi h
  nest : ∀ {h p}, D h → parent h = some p → lo p ≤ lo h ∧ hi h < hi p
  apart : ∀ {h h'}, D h → D h' → h ≠ h' → parent h = parent h' → hi h < lo h' ∨ hi h' < lo h
  bounded : ∀ {h}, D h → hi h < top

namespace Laminar

variable {D : κ → Prop} {parent : κ → Option κ} {lo hi : κ → Nat} {top : Nat} {a b : κ}

theorem mem_of_above (w : Laminar D parent lo hi top) (h : Above parent a b) (hb : D b) : D a := by
  induction h with
  | refl => exact hb
  | step hp _ ih => exact ih (w.parent_mem hb hp)

theorem contains_of_above (w : Laminar D parent lo hi top) (h : Above parent a b) (hb : D b) :
    lo a ≤ lo b ∧ hi b ≤ hi a := by
  induction h with
  | refl => exact ⟨le_rfl, le_rfl⟩
  | step hp _ ih =>
      have hnest := w.nest hb hp
      have hup := ih (w.parent_mem hb hp)
      omega

/-- A strict ancestor ends strictly later. -/
theorem lt_of_above (w : Laminar D parent lo hi top) (h : Above parent a b) (hb : D b)
    (hne : a ≠ b) : hi b < hi a := by
  cases h with
  | refl => exact absurd rfl hne
  | step hp hup =>
      have hnest := w.nest hb hp
      have hcontains := w.contains_of_above hup (w.parent_mem hb hp)
      omega

/-- Two intervals that share a point belong to one branch. -/
theorem comparable (w : Laminar D parent lo hi top) {t : Nat} (ha : D a) (hb : D b)
    (hat : lo a ≤ t ∧ t ≤ hi a) (hbt : lo b ≤ t ∧ t ≤ hi b) :
    Above parent a b ∨ Above parent b a := by
  -- go up from either node; the ends grow, so their distance to `top` shrinks
  induction hn : (top - hi a) + (top - hi b) using Nat.strong_induction_on generalizing a b with
  | _ n ih =>
      cases hpa : parent a with
      | some p =>
          have hp := w.parent_mem ha hpa
          have hnest := w.nest ha hpa
          have hlt : (top - hi p) + (top - hi b) < n := by
            have := w.bounded hp
            omega
          rcases ih _ hlt hp hb ⟨by omega, by omega⟩ hbt rfl with hup | hdown
          · rcases hup.split with rfl | ⟨c, hc, hcb⟩
            · exact Or.inr (.step hpa (.refl p))
            · -- `a` and `c` are siblings with a common point
              have hcD := w.mem_of_above hcb hb
              have hin := w.contains_of_above hcb hb
              by_cases hac : a = c
              · exact Or.inl (hac ▸ hcb)
              · have := w.apart ha hcD hac (hpa.trans hc.symm)
                omega
          · exact Or.inr (.step hpa hdown)
      | none =>
          cases hpb : parent b with
          | none =>
              by_cases hab : a = b
              · exact Or.inl (hab ▸ .refl a)
              · have := w.apart ha hb hab (hpa.trans hpb.symm)
                omega
          | some q =>
              have hq := w.parent_mem hb hpb
              have hnest := w.nest hb hpb
              have hlt : (top - hi a) + (top - hi q) < n := by
                have := w.bounded hq
                omega
              rcases ih _ hlt ha hq hat ⟨by omega, by omega⟩ rfl with hup | hdown
              · exact Or.inl (.step hpb hup)
              · cases hdown with
                | refl => exact Or.inl (.step hpb (.refl a))
                | step hp _ => simp [hpa] at hp

/-- **Containment of intervals is ancestry.** -/
theorem above_iff_contains (w : Laminar D parent lo hi top) (ha : D a) (hb : D b) :
    Above parent a b ↔ lo a ≤ lo b ∧ hi b ≤ hi a := by
  refine ⟨fun h => w.contains_of_above h hb, fun h => ?_⟩
  have hle := w.le hb
  rcases w.comparable (t := hi b) ha hb ⟨by omega, by omega⟩ ⟨hle, le_rfl⟩ with hab | hba
  · exact hab
  · by_cases hne : b = a
    · exact hne ▸ .refl b
    · have := w.lt_of_above hba ha hne
      omega

/-- Nodes of different branches have disjoint intervals. -/
theorem apart_of_incomparable (w : Laminar D parent lo hi top) (ha : D a) (hb : D b)
    (hab : ¬ Above parent a b) (hba : ¬ Above parent b a) : hi a < lo b ∨ hi b < lo a := by
  by_contra hmeet
  have hleA := w.le ha
  have hleB := w.le hb
  have hor := w.comparable (t := max (lo a) (lo b)) ha hb ⟨by omega, by omega⟩ ⟨by omega, by omega⟩
  exact hor.elim hab hba

/-- Disjoint intervals are of different branches. -/
theorem incomparable_of_lt (w : Laminar D parent lo hi top) (ha : D a) (hb : D b)
    (hlt : hi a < lo b) : ¬ Above parent a b ∧ ¬ Above parent b a := by
  have hleA := w.le ha
  have hleB := w.le hb
  constructor
  · intro h
    have := w.contains_of_above h hb
    omega
  · intro h
    have := w.contains_of_above h ha
    omega

/-! ### Sorted antichains -/

/-- The entries that start no later than `t`, of a list sorted by start. -/
def startingBy (lo : κ → Nat) (t : Nat) (xs : List κ) : List κ := xs.takeWhile fun m => lo m ≤ t

/-- Pairwise disjoint, from left to right. -/
abbrev LeftToRight (lo hi : κ → Nat) (xs : List κ) : Prop := xs.Pairwise fun m m' => hi m < lo m'

/-- An entry that starts by `t` is in the prefix that a search cuts off. -/
theorem mem_startingBy {xs : List κ} (hle : ∀ m ∈ xs, lo m ≤ hi m) (hxs : LeftToRight lo hi xs)
    {m : κ} {t : Nat} (hm : m ∈ xs) (hmt : lo m ≤ t) : m ∈ startingBy lo t xs := by
  induction xs with
  | nil => simp at hm
  | cons x xs ih =>
      obtain ⟨hx, hrest⟩ := List.pairwise_cons.mp hxs
      have hxt : lo x ≤ t := by
        rcases List.mem_cons.mp hm with rfl | hm
        · exact hmt
        · have := hx m hm
          have := hle x (by simp)
          omega
      rw [startingBy, List.takeWhile_cons_of_pos (by simpa using hxt)]
      rcases List.mem_cons.mp hm with rfl | hm
      · exact List.mem_cons_self
      · exact List.mem_cons_of_mem x (ih (fun m hm => hle m (List.mem_cons_of_mem x hm)) hrest hm)

/-- **The predecessor search is complete**: some entry is an ancestor of `b`
exactly when the last one that starts by `lo b` contains it. -/
theorem cover_iff (w : Laminar D parent lo hi top) {xs : List κ} (hxs : LeftToRight lo hi xs)
    (hD : ∀ m ∈ xs, D m) (hb : D b) :
    (∃ m, (startingBy lo (lo b) xs).getLast? = some m ∧ lo m ≤ lo b ∧ hi b ≤ hi m) ↔
      ∃ m ∈ xs, Above parent m b := by
  have hpre : startingBy lo (lo b) xs <+: xs := List.takeWhile_prefix _
  constructor
  · rintro ⟨m, hlast, hcontains⟩
    have hm : m ∈ xs := hpre.subset (List.mem_of_getLast? hlast)
    exact ⟨m, hm, (w.above_iff_contains (hD m hm) hb).mpr hcontains⟩
  · rintro ⟨m, hm, habove⟩
    have hcontains := w.contains_of_above habove hb
    have hmem := mem_startingBy (fun m hm => w.le (hD m hm)) hxs hm hcontains.1
    rcases List.eq_nil_or_concat (startingBy lo (lo b) xs) with hnil | ⟨ys, c, hys⟩
    · simp [hnil] at hmem
    · -- entries between `m` and the last one would start inside `m`
      rw [List.concat_eq_append] at hys
      have hclo : lo c ≤ lo b := by
        have hc : c ∈ startingBy lo (lo b) xs := by simp [hys]
        simpa using List.mem_takeWhile_imp hc
      have hsorted : LeftToRight lo hi (ys ++ [c]) := hys ▸ hxs.sublist hpre.sublist
      have hlast : m = c := by
        rw [hys, List.mem_append, List.mem_singleton] at hmem
        rcases hmem with hmys | hmc
        · have hlt := (List.pairwise_append.mp hsorted).2.2 m hmys c (by simp)
          have := w.le hb
          omega
        · exact hmc
      exact ⟨c, by simp [hys], hclo, hlast ▸ hcontains.2⟩

/-- Inserting a disjoint interval at its search position keeps the list sorted. -/
theorem leftToRight_insert {xs : List κ} {n : κ} (hxs : LeftToRight lo hi xs)
    (hle : ∀ m ∈ xs, lo m ≤ hi m) (hn : lo n ≤ hi n)
    (hapart : ∀ m ∈ xs, hi m < lo n ∨ hi n < lo m) :
    LeftToRight lo hi (startingBy lo (lo n) xs ++ n :: xs.drop (startingBy lo (lo n) xs).length) := by
  have hsplit : startingBy lo (lo n) xs ++ xs.drop (startingBy lo (lo n) xs).length = xs := by
    have hpre : startingBy lo (lo n) xs <+: xs := List.takeWhile_prefix _
    exact List.prefix_iff_eq_append.mp hpre
  have hsorted := hxs
  rw [← hsplit] at hsorted
  obtain ⟨hl, hr, hlr⟩ := List.pairwise_append.mp hsorted
  have hleft : ∀ m ∈ startingBy lo (lo n) xs, hi m < lo n := by
    intro m hm
    have hmlo : lo m ≤ lo n := by simpa using List.mem_takeWhile_imp hm
    have hmxs : m ∈ xs := (List.takeWhile_prefix _).subset hm
    have := hapart m hmxs
    have := hle m hmxs
    omega
  have hright : ∀ m ∈ xs.drop (startingBy lo (lo n) xs).length, hi n < lo m := by
    intro m hm
    have hmxs : m ∈ xs := List.mem_of_mem_drop hm
    rcases hapart m hmxs with hbefore | hafter
    · -- it would have been in the prefix, and so before itself
      have hpre := mem_startingBy hle hxs hmxs (t := lo n) (by have := hle m hmxs; omega)
      have := hlr m hpre m hm
      have := hle m hmxs
      omega
    · exact hafter
  refine List.pairwise_append.mpr ⟨hl, List.pairwise_cons.mpr ⟨hright, hr⟩, ?_⟩
  intro m hm m' hm'
  rcases List.mem_cons.mp hm' with rfl | hm'
  · exact hleft m hm
  · exact hlr m hm m' hm'

/-- Sorting pairwise disjoint intervals by start orders them left to right. -/
theorem leftToRight_of_sorted {xs : List κ} (hsorted : xs.Pairwise fun m m' => lo m ≤ lo m')
    (hle : ∀ m ∈ xs, lo m ≤ hi m)
    (hapart : xs.Pairwise fun m m' => hi m < lo m' ∨ hi m' < lo m) : LeftToRight lo hi xs := by
  refine (hsorted.and hapart).imp_of_mem ?_
  intro m m' hm hm' h
  have := hle m' hm'
  omega

end Laminar

end HassanNode
