import Mathlib
import HassanNode.Lib.Fallible

/-!
# HassanNode.Lib.Checked

Checks that may reject their input and must not panic, in general: an index out
of range, an unwrap of nothing or an overflow is the fault `panicked`, apart from
`rejected`. `Sat x Q` says that `x` does not panic and that what it returns has
`Q`, `Runs x Q` that it does return something, with `Q`; the rules below prove
either by going through a check in order, with an invariant for each loop.
-/

namespace HassanNode

/-- How a check can end other than well. -/
inductive Fault
  | rejected (message : String)
  | panicked
  deriving DecidableEq

/-- A result with rejections and panics. -/
abbrev Checked := Except Fault

namespace Checked

variable {α β σ : Type}

/-- Reject unless a test passes. -/
def require (test : Bool) (message : String) : Checked Unit := ensure test (.rejected message)

/-- An element of a list, which must be there. -/
def get (xs : List α) (i : Nat) : Checked α :=
  match xs[i]? with
  | some x => .ok x
  | none => .error .panicked

/-- The last element of a list, which must not be empty. -/
def last (xs : List α) : Checked α :=
  match xs.getLast? with
  | some x => .ok x
  | none => .error .panicked

/-- A number that must not exceed a bound. -/
def fit (bound n : Nat) : Checked Nat := if n ≤ bound then .ok n else .error .panicked

/-- A loop over a list with a running state. -/
def loop (body : σ → α → Checked σ) (s : σ) : List α → Checked σ
  | [] => .ok s
  | x :: xs => do
    let s ← body s x
    loop body s xs

/-- No panic, and a result with `Q`. -/
def Sat (x : Checked α) (Q : α → Prop) : Prop := x ≠ .error .panicked ∧ ∀ a, x = .ok a → Q a

namespace Sat

variable {x : Checked α} {f : α → Checked β} {P Q : α → Prop} {R : β → Prop}

theorem ok {a : α} (h : Q a) : Sat (.ok a) Q :=
  ⟨by simp, fun _ heq => Except.ok.inj heq ▸ h⟩

theorem mono (h : Sat x P) (himp : ∀ a, P a → Q a) : Sat x Q := ⟨h.1, fun a ha => himp a (h.2 a ha)⟩

theorem bind (h : Sat x P) (hf : ∀ a, P a → Sat (f a) R) : Sat (x >>= f) R := by
  cases x with
  | error e =>
      refine ⟨fun heq => h.1 ?_, fun b hb => by cases hb⟩
      exact congrArg Except.error (Except.error.inj heq)
  | ok a => exact hf a (h.2 a rfl)

theorem require {test : Bool} {message : String} : Sat (require test message) fun _ => test = true := by
  constructor
  · cases test <;> simp [Checked.require, ensure]
  · intro u hu
    exact ensure_eq_ok.mp hu

theorem get {xs : List α} {i : Nat} (hi : i < xs.length) : Sat (get xs i) fun a => xs[i]? = some a := by
  rw [Checked.get, List.getElem?_eq_getElem hi]
  exact ok rfl

theorem last {xs : List α} (hne : xs ≠ []) : Sat (last xs) fun a => xs.getLast? = some a := by
  rw [Checked.last, List.getLast?_eq_getLast_of_ne_nil hne]
  exact ok rfl

theorem fit {bound n : Nat} (hn : n ≤ bound) : Sat (fit bound n) fun a => a = n := by
  rw [Checked.fit, if_pos hn]
  exact ok rfl

/-- A loop keeps an invariant about what it has gone through. -/
theorem loop {body : σ → α → Checked σ} {I : List α → σ → Prop} {s : σ} {xs : List α} (hs : I [] s)
    (hbody : ∀ done y rest t, xs = done ++ y :: rest → I done t → Sat (body t y) (I (done ++ [y]))) :
    Sat (loop body s xs) (I xs) := by
  have haux : ∀ done rest t, xs = done ++ rest → I done t → Sat (Checked.loop body t rest) (I xs) := by
    intro done rest
    induction rest generalizing done with
    | nil =>
        intro t hxs ht
        rw [List.append_nil] at hxs
        exact ok (hxs ▸ ht)
    | cons y rest ih =>
        intro t hxs ht
        refine (hbody done y rest t hxs ht).bind fun t' ht' => ih (done ++ [y]) t' ?_ ht'
        rw [hxs, List.append_assoc]
        rfl
  exact haux [] xs s rfl hs

end Sat

/-- A result, with `Q`. -/
def Runs (x : Checked α) (Q : α → Prop) : Prop := ∃ a, x = .ok a ∧ Q a

namespace Runs

variable {x : Checked α} {f : α → Checked β} {P Q : α → Prop} {R : β → Prop}

theorem ok {a : α} (h : Q a) : Runs (.ok a) Q := ⟨a, rfl, h⟩

theorem bind (h : Runs x P) (hf : ∀ a, P a → Runs (f a) R) : Runs (x >>= f) R := by
  obtain ⟨a, rfl, ha⟩ := h
  exact hf a ha

theorem require {test : Bool} {message : String} (h : test = true) :
    Runs (require test message) fun _ => True := ⟨(), ensure_eq_ok.mpr h, trivial⟩

theorem get {xs : List α} {i : Nat} {a : α} (h : xs[i]? = some a) : Runs (get xs i) (· = a) :=
  ⟨a, by rw [Checked.get, h], rfl⟩

theorem last {xs : List α} {a : α} (h : xs.getLast? = some a) : Runs (last xs) (· = a) :=
  ⟨a, by rw [Checked.last, h], rfl⟩

theorem fit {bound n : Nat} (h : n ≤ bound) : Runs (fit bound n) (· = n) :=
  ⟨n, by rw [Checked.fit, if_pos h], rfl⟩

/-- A loop whose body always runs keeps its invariant to the end. -/
theorem loop {body : σ → α → Checked σ} {I : List α → σ → Prop} {s : σ} {xs : List α} (hs : I [] s)
    (hbody : ∀ done y rest t, xs = done ++ y :: rest → I done t → Runs (body t y) (I (done ++ [y]))) :
    Runs (loop body s xs) (I xs) := by
  have haux : ∀ done rest t, xs = done ++ rest → I done t → Runs (Checked.loop body t rest) (I xs) := by
    intro done rest
    induction rest generalizing done with
    | nil =>
        intro t hxs ht
        rw [List.append_nil] at hxs
        exact ok (hxs ▸ ht)
    | cons y rest ih =>
        intro t hxs ht
        refine (hbody done y rest t hxs ht).bind fun t' ht' => ih (done ++ [y]) t' ?_ ht'
        rw [hxs, List.append_assoc]
        rfl
  exact haux [] xs s rfl hs

end Runs

end Checked

end HassanNode
