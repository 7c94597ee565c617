import Mathlib

/-!
# HassanNode.Lib.Digits

Digits of a fixed width, in general: the number that a list of digits spells, the
highest first, and the lowest digits of a number, as many as asked for. The digits of a
number in one width are the digits of what its digits in another width spell, which is
what regrouping bits comes down to.
-/

namespace HassanNode

/-- The `m` lowest digits of `w` bits, the highest first. -/
def digitsBE (w : Nat) : (m : Nat) → (n : Nat) → List Nat
  | 0, _ => []
  | m + 1, n => n / 2 ^ (w * m) % 2 ^ w :: digitsBE w m n

/-- Append digits of `w` bits to a number. -/
def pushDigits (w n : Nat) (ds : List Nat) : Nat := ds.foldl (fun n d => n * 2 ^ w + d) n

section Digits

variable {w m k n : Nat} {ds : List Nat}

@[simp] theorem length_digitsBE (w m n : Nat) : (digitsBE w m n).length = m := by
  induction m with
  | zero => rfl
  | succ m ih => rw [digitsBE, List.length_cons, ih]

theorem digitsBE_lt {d : Nat} (hd : d ∈ digitsBE w m n) : d < 2 ^ w := by
  induction m with
  | zero => cases hd
  | succ m ih =>
      rcases List.mem_cons.mp hd with rfl | hd
      · exact Nat.mod_lt _ (Nat.two_pow_pos w)
      · exact ih hd

theorem digitsBE_add (w m k n : Nat) : digitsBE w (m + k) n = digitsBE w m (n / 2 ^ (w * k)) ++ digitsBE w k n := by
  induction m with
  | zero => rw [Nat.zero_add, digitsBE, List.nil_append]
  | succ m ih =>
      have hshift : w * (m + k) = w * k + w * m := by rw [Nat.mul_add, Nat.add_comm]
      rw [Nat.add_right_comm, digitsBE, digitsBE, ih, List.cons_append, Nat.div_div_eq_div_mul, ← pow_add, hshift]

/-- A digit reads only the bits below its end. -/
theorem mod_div_mod {a : Nat} (h : a + w ≤ k) : n % 2 ^ k / 2 ^ a % 2 ^ w = n / 2 ^ a % 2 ^ w := by
  obtain ⟨j, rfl⟩ := Nat.exists_eq_add_of_le h
  have hsplit : 2 ^ (a + w + j) = 2 ^ a * 2 ^ (w + j) := by rw [← pow_add, Nat.add_assoc]
  rw [hsplit, Nat.mod_mul_right_div_self, Nat.mod_mod_of_dvd]
  exact pow_dvd_pow 2 (Nat.le_add_right w j)

/-- So the digits read only the bits below theirs. -/
theorem digitsBE_mod {r : Nat} (h : w * m + r ≤ k) : digitsBE w m (n % 2 ^ k / 2 ^ r) = digitsBE w m (n / 2 ^ r) := by
  induction m with
  | zero => rfl
  | succ m ih =>
      rw [Nat.mul_add, Nat.mul_one] at h
      have hhead : n % 2 ^ k / 2 ^ r / 2 ^ (w * m) % 2 ^ w = n / 2 ^ r / 2 ^ (w * m) % 2 ^ w := by
        rw [Nat.div_div_eq_div_mul, Nat.div_div_eq_div_mul, ← pow_add]
        exact mod_div_mod (by omega)
      rw [digitsBE, digitsBE, hhead, ih (by omega)]

@[simp] theorem pushDigits_nil (w n : Nat) : pushDigits w n [] = n := rfl

@[simp] theorem pushDigits_cons (w n d : Nat) (ds : List Nat) :
    pushDigits w n (d :: ds) = pushDigits w (n * 2 ^ w + d) ds := rfl

theorem pushDigits_append (w n : Nat) (ds ds' : List Nat) :
    pushDigits w n (ds ++ ds') = pushDigits w (pushDigits w n ds) ds' := List.foldl_append

/-- What was there stays above the digits. -/
theorem pushDigits_eq (w n : Nat) (ds : List Nat) :
    pushDigits w n ds = n * 2 ^ (w * ds.length) + pushDigits w 0 ds := by
  induction ds generalizing n with
  | nil => simp
  | cons d ds ih =>
      rw [pushDigits_cons, pushDigits_cons, ih, ih (0 * 2 ^ w + d), List.length_cons, Nat.mul_add, Nat.mul_one, pow_add]
      ring

theorem pushDigits_lt (h : ∀ d ∈ ds, d < 2 ^ w) : pushDigits w 0 ds < 2 ^ (w * ds.length) := by
  induction ds with
  | nil => simp
  | cons d ds ih =>
      have hd := h d List.mem_cons_self
      have hds := ih fun x hx => h x (List.mem_cons_of_mem d hx)
      have hstep : (d + 1) * 2 ^ (w * ds.length) ≤ 2 ^ w * 2 ^ (w * ds.length) := Nat.mul_le_mul_right _ hd
      rw [pushDigits_cons, pushDigits_eq, Nat.zero_mul, Nat.zero_add, List.length_cons, Nat.mul_add, Nat.mul_one,
        pow_add, Nat.mul_comm (2 ^ (w * ds.length))]
      rw [Nat.add_mul, Nat.one_mul] at hstep
      omega

/-- The digits of a number spell its lower part. -/
theorem pushDigits_digitsBE (w m n : Nat) : pushDigits w 0 (digitsBE w m n) = n % 2 ^ (w * m) := by
  induction m with
  | zero => simp [digitsBE, Nat.mod_one]
  | succ m ih =>
      rw [digitsBE, pushDigits_cons, pushDigits_eq, length_digitsBE, ih, Nat.mul_add, Nat.mul_one, pow_add,
        Nat.mod_mul]
      ring

/-- Digits are the digits of what they spell. -/
theorem digitsBE_pushDigits (h : ∀ d ∈ ds, d < 2 ^ w) : digitsBE w ds.length (pushDigits w 0 ds) = ds := by
  induction ds with
  | nil => rfl
  | cons d ds ih =>
      have hds := fun x hx => h x (List.mem_cons_of_mem d hx)
      have hlt := pushDigits_lt hds
      have hspell : pushDigits w 0 (d :: ds) = d * 2 ^ (w * ds.length) + pushDigits w 0 ds := by
        rw [pushDigits_cons, pushDigits_eq, Nat.zero_mul, Nat.zero_add]
      have hhead : pushDigits w 0 (d :: ds) / 2 ^ (w * ds.length) % 2 ^ w = d := by
        rw [hspell, Nat.mul_comm d, Nat.mul_add_div (Nat.two_pow_pos _), Nat.div_eq_of_lt hlt, Nat.add_zero,
          Nat.mod_eq_of_lt (h d List.mem_cons_self)]
      have htail : digitsBE w ds.length (pushDigits w 0 (d :: ds)) = digitsBE w ds.length (pushDigits w 0 ds) := by
        have hlow := @digitsBE_mod w ds.length (w * ds.length) (pushDigits w 0 (d :: ds)) 0 (Nat.le_refl _)
        rw [pow_zero, Nat.div_one, Nat.div_one, hspell, Nat.mul_comm d, Nat.mul_add_mod, Nat.mod_eq_of_lt hlt] at hlow
        rw [hspell, Nat.mul_comm d, hlow]
      rw [List.length_cons, digitsBE, hhead, htail, ih hds]

end Digits

end HassanNode
