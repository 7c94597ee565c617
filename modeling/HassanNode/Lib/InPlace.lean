import Mathlib

/-!
# HassanNode.Lib.InPlace

Computations that update a state in place and may fail, in general. What such a
computation wrote before it failed stays written, so a failed call leaves the
state alone (`Atomic`) only if its writes come after its last failing test. The
rules below prove that by going through a body in order: reads and tests first
(`Atomic.bind_reads`), then writes that cannot fail (`Atomic.bind_succeeds`).
-/

namespace HassanNode

/-- A computation on a state `σ`: the state it leaves, and a result or an error. -/
def InPlace (ε σ α : Type) := σ → σ × Except ε α

namespace InPlace

variable {ε σ α β : Type}

instance : Monad (InPlace ε σ) where
  pure a := fun s => (s, .ok a)
  bind m f := fun s =>
    match m s with
    | (s', .ok a) => f a s'
    | (s', .error e) => (s', .error e)

/-- The state. -/
def read : InPlace ε σ σ := fun s => (s, .ok s)

/-- Update the state. -/
def write (f : σ → σ) : InPlace ε σ Unit := fun s => (f s, .ok ())

/-- Stop. -/
def fail (e : ε) : InPlace ε σ α := fun s => (s, .error e)

/-- Stop unless a test passes. -/
def check (p : Prop) [Decidable p] (e : ε) : InPlace ε σ Unit := if p then pure () else fail e

/-- A result that was computed without the state. -/
def lift (x : Except ε α) : InPlace ε σ α := fun s => (s, x)

/-- A value that must be there. -/
def need (x : Option α) (e : ε) : InPlace ε σ α := lift (x.elim (.error e) .ok)

@[simp] theorem pure_apply (a : α) (s : σ) : (pure a : InPlace ε σ α) s = (s, .ok a) := rfl

@[simp] theorem read_apply (s : σ) : (read : InPlace ε σ σ) s = (s, .ok s) := rfl

@[simp] theorem write_apply (f : σ → σ) (s : σ) : (write f : InPlace ε σ Unit) s = (f s, .ok ()) := rfl

@[simp] theorem fail_apply (e : ε) (s : σ) : (fail e : InPlace ε σ α) s = (s, .error e) := rfl

@[simp] theorem lift_apply (x : Except ε α) (s : σ) : (lift x : InPlace ε σ α) s = (s, x) := rfl

theorem bind_ok {m : InPlace ε σ α} {f : α → InPlace ε σ β} {s s' : σ} {a : α}
    (h : m s = (s', .ok a)) : (m >>= f) s = f a s' := by
  show (match m s with | (s', .ok a) => f a s' | (s', .error e) => (s', .error e)) = _
  rw [h]

theorem bind_error {m : InPlace ε σ α} {f : α → InPlace ε σ β} {s s' : σ} {e : ε}
    (h : m s = (s', .error e)) : (m >>= f) s = (s', .error e) := by
  show (match m s with | (s', .ok a) => f a s' | (s', .error e) => (s', .error e)) = _
  rw [h]

@[simp] theorem pure_bind (a : α) (f : α → InPlace ε σ β) (s : σ) : (pure a >>= f) s = f a s := rfl

@[simp] theorem read_bind (f : σ → InPlace ε σ β) (s : σ) : (read >>= f) s = f s s := rfl

@[simp] theorem write_bind (g : σ → σ) (f : Unit → InPlace ε σ β) (s : σ) :
    (write g >>= f) s = f () (g s) := rfl

@[simp] theorem lift_bind_ok (a : α) (f : α → InPlace ε σ β) (s : σ) :
    (lift (.ok a) >>= f) s = f a s := rfl

@[simp] theorem lift_bind_error (e : ε) (f : α → InPlace ε σ β) (s : σ) :
    (lift (.error e) >>= f) s = (s, .error e) := rfl

@[simp] theorem fail_bind (e : ε) (f : α → InPlace ε σ β) (s : σ) :
    (fail e >>= f) s = (s, .error e) := rfl

@[simp] theorem need_bind_some (a : α) (e : ε) (f : α → InPlace ε σ β) (s : σ) :
    (need (some a) e >>= f) s = f a s := rfl

@[simp] theorem need_bind_none (e : ε) (f : α → InPlace ε σ β) (s : σ) :
    (need none e >>= f) s = (s, .error e) := rfl

@[simp] theorem check_bind (p : Prop) [Decidable p] (e : ε) (f : Unit → InPlace ε σ β) (s : σ) :
    (check p e >>= f) s = if p then f () s else (s, .error e) := by
  rw [check]
  split
  · rfl
  · rfl

theorem bind_assoc {γ : Type} (m : InPlace ε σ α) (f : α → InPlace ε σ β) (g : β → InPlace ε σ γ) :
    (m >>= f) >>= g = m >>= fun a => f a >>= g := by
  funext s
  cases hresult : (m s).2 with
  | error e =>
      have hrun : m s = ((m s).1, .error e) := Prod.ext rfl hresult
      rw [bind_error hrun, bind_error (bind_error hrun)]
  | ok a =>
      have hrun : m s = ((m s).1, .ok a) := Prod.ext rfl hresult
      rw [bind_ok hrun]
      show (match (m >>= f) s with | (s', .ok b) => g b s' | (s', .error e) => (s', .error e)) = _
      rw [bind_ok hrun]
      rfl

/-! ### What a computation may do to its state -/

/-- It writes nothing. -/
def Reads (m : InPlace ε σ α) : Prop := ∀ s, (m s).1 = s

/-- It does not fail. -/
def Succeeds (m : InPlace ε σ α) : Prop := ∀ s, ∃ a, (m s).2 = .ok a

/-- If it fails, it has written nothing. -/
def Atomic (m : InPlace ε σ α) : Prop := ∀ s e, (m s).2 = .error e → (m s).1 = s

theorem Reads.atomic {m : InPlace ε σ α} (h : Reads m) : Atomic m := fun s _ _ => h s

theorem Succeeds.atomic {m : InPlace ε σ α} (h : Succeeds m) : Atomic m := by
  intro s e herror
  obtain ⟨a, ha⟩ := h s
  rw [ha] at herror
  cases herror

theorem reads_pure (a : α) : Reads (pure a : InPlace ε σ α) := fun _ => rfl

theorem reads_read : Reads (read : InPlace ε σ σ) := fun _ => rfl

theorem reads_fail (e : ε) : Reads (fail e : InPlace ε σ α) := fun _ => rfl

theorem reads_lift (x : Except ε α) : Reads (lift x : InPlace ε σ α) := fun _ => rfl

theorem reads_need (x : Option α) (e : ε) : Reads (need x e : InPlace ε σ α) := fun _ => rfl

theorem reads_check (p : Prop) [Decidable p] (e : ε) : Reads (check p e : InPlace ε σ Unit) := by
  intro s
  rw [check]
  split
  · exact reads_pure () s
  · exact reads_fail e s

theorem Reads.bind {m : InPlace ε σ α} {f : α → InPlace ε σ β} (hm : Reads m)
    (hf : ∀ a, Reads (f a)) : Reads (m >>= f) := by
  intro s
  have hstate := hm s
  cases hresult : (m s).2 with
  | error e =>
      have hrun : m s = (s, .error e) := Prod.ext hstate hresult
      rw [bind_error hrun]
  | ok a =>
      have hrun : m s = (s, .ok a) := Prod.ext hstate hresult
      rw [bind_ok hrun]
      exact hf a s

theorem succeeds_pure (a : α) : Succeeds (pure a : InPlace ε σ α) := fun _ => ⟨a, rfl⟩

theorem succeeds_read : Succeeds (read : InPlace ε σ σ) := fun s => ⟨s, rfl⟩

theorem succeeds_write (f : σ → σ) : Succeeds (write f : InPlace ε σ Unit) := fun _ => ⟨(), rfl⟩

theorem Succeeds.bind {m : InPlace ε σ α} {f : α → InPlace ε σ β} (hm : Succeeds m)
    (hf : ∀ a, Succeeds (f a)) : Succeeds (m >>= f) := by
  intro s
  obtain ⟨a, ha⟩ := hm s
  have hrun : m s = ((m s).1, .ok a) := Prod.ext rfl ha
  rw [bind_ok hrun]
  exact hf a _

theorem Succeeds.ite {p : Prop} [Decidable p] {m n : InPlace ε σ α} (hm : Succeeds m)
    (hn : Succeeds n) : Succeeds (if p then m else n) := by
  split
  · exact hm
  · exact hn

/-- Reads and tests before an atomic rest. -/
theorem Atomic.bind_reads {m : InPlace ε σ α} {f : α → InPlace ε σ β} (hm : Reads m)
    (hf : ∀ a, Atomic (f a)) : Atomic (m >>= f) := by
  intro s e herror
  have hstate := hm s
  cases hresult : (m s).2 with
  | error e' =>
      have hrun : m s = (s, .error e') := Prod.ext hstate hresult
      rw [bind_error hrun]
  | ok a =>
      have hrun : m s = (s, .ok a) := Prod.ext hstate hresult
      rw [bind_ok hrun] at herror ⊢
      exact hf a s e herror

/-- An atomic computation before writes that cannot fail. -/
theorem Atomic.bind_succeeds {m : InPlace ε σ α} {f : α → InPlace ε σ β} (hm : Atomic m)
    (hf : ∀ a, Succeeds (f a)) : Atomic (m >>= f) := by
  intro s e herror
  cases hresult : (m s).2 with
  | error e' =>
      have hrun : m s = ((m s).1, .error e') := Prod.ext rfl hresult
      rw [bind_error hrun]
      exact hm s e' hresult
  | ok a =>
      have hrun : m s = ((m s).1, .ok a) := Prod.ext rfl hresult
      rw [bind_ok hrun] at herror
      obtain ⟨b, hb⟩ := hf a (m s).1
      rw [hb] at herror
      cases herror

end InPlace

end HassanNode
