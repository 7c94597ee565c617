import Mathlib

/-!
# HassanNode.Lib.Mirror

An index by height of a chain that changes, in general.

The index walks along the chain. An entry that it has is left alone, at the first
entry that differs it drops everything from there on, and an entry that it lacks is
added. The chain may have lost its front; what the index has there stays. After a walk
the index has the entries of the chain and no others (`walk_mirrors`), unless the new
chain ends inside the old one: then nothing differs, and the rest of the old chain
would stay.
-/

namespace HassanNode

namespace Mirror

variable {κ : Type} [DecidableEq κ]

/-- The entries below a height. -/
def trim (m : Nat → Option κ) (height : Nat) : Nat → Option κ := fun h => if height ≤ h then none else m h

/-- One step of the walk. -/
def visit (m : Nat → Option κ) (height : Nat) (x : κ) : Nat → Option κ :=
  match m height with
  | none => Function.update m height (some x)
  | some y => if y = x then m else Function.update (trim m height) height (some x)

/-- The walk along a chain whose first entry is at height `base`. -/
def walk (base : Nat) (m : Nat → Option κ) (chain : List κ) : Nat → Option κ :=
  chain.zipIdx.foldl (fun m p => visit m (base + p.2) p.1) m

/-- From `base` on, the index has the entries of the chain. -/
def Mirrors (m : Nat → Option κ) (base : Nat) (chain : List κ) : Prop := ∀ h, base ≤ h → m h = chain[h - base]?

variable {m m' : Nat → Option κ} {base base' height : Nat} {x : κ} {xs chain chain' : List κ}

theorem walk_concat : walk base m (xs ++ [x]) = visit (walk base m xs) (base + xs.length) x := by
  rw [walk, List.zipIdx_append, List.foldl_append, Nat.zero_add]
  rfl

theorem visit_self : visit m height x height = some x := by
  unfold visit
  cases hm : m height with
  | none => exact Function.update_self ..
  | some y =>
      dsimp only
      split
      · rename_i heq
        exact heq ▸ hm
      · exact Function.update_self ..

/-- Below the height that is visited nothing changes. -/
theorem visit_below {h : Nat} (hh : h < height) : visit m height x h = m h := by
  unfold visit
  cases m height with
  | none => exact Function.update_of_ne hh.ne _ _
  | some y =>
      dsimp only
      split
      · rfl
      · rw [Function.update_of_ne hh.ne, trim, if_neg (Nat.not_le.mpr hh)]

/-- Above it either nothing changes, as the index has the entry or nothing there, or
all is gone. -/
theorem visit_above (m : Nat → Option κ) (height : Nat) (x : κ) :
    ((∀ y, m height = some y → y = x) ∧ ∀ h, height < h → visit m height x h = m h) ∨
      ∀ h, height < h → visit m height x h = none := by
  unfold visit
  cases hm : m height with
  | none => exact Or.inl ⟨(fun y hy => nomatch hy), fun h hh => Function.update_of_ne hh.ne' _ _⟩
  | some y =>
      dsimp only
      split
      · rename_i heq
        exact Or.inl ⟨fun z hz => (Option.some.inj hz) ▸ heq, fun h _ => rfl⟩
      · refine Or.inr fun h hh => ?_
        rw [Function.update_of_ne hh.ne', trim, if_pos hh.le]

/-- After part of a walk: the index has the entries so far, and above them it has
nothing, or what it had before and all entries so far have matched. -/
structure Walked (base : Nat) (m m' : Nat → Option κ) (xs : List κ) : Prop where
  done : ∀ i x, xs[i]? = some x → m' (base + i) = some x
  ahead : (∀ h, base + xs.length ≤ h → m' h = none) ∨
    (∀ h, base + xs.length ≤ h → m' h = m h) ∧ ∀ i x y, xs[i]? = some x → m (base + i) = some y → y = x

theorem Walked.visit (w : Walked base m m' xs) (x : κ) :
    Walked base m (Mirror.visit m' (base + xs.length) x) (xs ++ [x]) := by
  have hsplit : ∀ i y, (xs ++ [x])[i]? = some y → xs[i]? = some y ∨ i = xs.length ∧ y = x := by
    intro i y hy
    rcases Nat.lt_or_ge i xs.length with hlt | hge
    · exact Or.inl ((List.getElem?_append_left hlt).symm.trans hy)
    · rw [List.getElem?_append_right hge, List.getElem?_singleton] at hy
      split at hy
      · exact Or.inr ⟨by omega, (Option.some.inj hy).symm⟩
      · cases hy
  have hlength : base + (xs ++ [x]).length = base + xs.length + 1 := by
    rw [List.length_append, List.length_singleton, Nat.add_assoc]
  refine ⟨fun i y hy => ?_, ?_⟩
  · rcases hsplit i y hy with hold | ⟨rfl, rfl⟩
    · have hi := (List.getElem?_eq_some_iff.mp hold).1
      rw [visit_below (by omega)]
      exact w.done i y hold
    · exact visit_self
  · rw [hlength]
    rcases visit_above m' (base + xs.length) x with ⟨hmatch, hsame⟩ | hnone
    · rcases w.ahead with hgone | ⟨hkept, hmatched⟩
      · exact Or.inl fun h hh => (hsame h hh).trans (hgone h (by omega))
      · refine Or.inr ⟨fun h hh => (hsame h hh).trans (hkept h (by omega)), fun i z y hz hy => ?_⟩
        rcases hsplit i z hz with hold | ⟨rfl, rfl⟩
        · exact hmatched i z y hold hy
        · exact hmatch y ((hkept _ le_rfl).trans hy)
    · exact Or.inl fun h hh => hnone h hh

theorem walk_walked (base : Nat) (m : Nat → Option κ) (chain : List κ) : Walked base m (walk base m chain) chain := by
  induction chain using List.reverseRecOn with
  | nil => exact ⟨(fun i x hx => nomatch hx), Or.inr ⟨fun h _ => rfl, (fun i x y hx => nomatch hx)⟩⟩
  | append_singleton xs x ih =>
      rw [walk_concat]
      exact ih.visit x

/-- **A walk makes the index mirror the new chain**, whose front may be gone and whose
last entry is not inside the old one. -/
theorem walk_mirrors (h : Mirrors m base chain) (hbase : base ≤ base') (hne : chain' ≠ [])
    (hlast : ∀ i, i + 1 < chain.length → chain[i]? ≠ chain'.getLast?) : Mirrors (walk base' m chain') base' chain' := by
  have w := walk_walked base' m chain'
  have hpos : 0 < chain'.length := List.length_pos_of_ne_nil hne
  intro k hk
  rcases Nat.lt_or_ge (k - base') chain'.length with hlt | hge
  · rw [List.getElem?_eq_getElem hlt]
    have hdone := w.done (k - base') _ (List.getElem?_eq_getElem hlt)
    rwa [Nat.add_sub_cancel' hk] at hdone
  · rw [List.getElem?_eq_none hge]
    rcases w.ahead with hgone | ⟨hkept, hmatched⟩
    · exact hgone k (by omega)
    · -- nothing has differed, so the old chain would go on after the new one's last entry
      rw [hkept k (by omega), h k (hbase.trans hk)]
      refine List.getElem?_eq_none (Nat.le_of_not_lt fun hlonger => ?_)
      have hin : base' + (chain'.length - 1) - base < chain.length := by omega
      have hold := h (base' + (chain'.length - 1)) (by omega)
      rw [List.getElem?_eq_getElem hin] at hold
      have hend : chain'[chain'.length - 1]? = some chain'[chain'.length - 1] := List.getElem?_eq_getElem (by omega)
      refine hlast (base' + (chain'.length - 1) - base) (by omega) ?_
      rw [List.getLast?_eq_getElem?, hend, List.getElem?_eq_getElem hin, hmatched _ _ _ hend hold]

end Mirror

end HassanNode
