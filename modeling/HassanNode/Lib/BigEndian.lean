import Mathlib
import HassanNode.Lib.Bytes

/-!
# HassanNode.Lib.BigEndian

Big-endian byte strings, in general: the number a string spells, the shortest
string that spells a number, padding with zeros on the left. On strings of one
length the lexicographic order is the order of the numbers.
-/

namespace HassanNode

namespace Bytes

/-- The number a big-endian byte string spells. -/
def toNatBE : Bytes → Nat
  | [] => 0
  | b :: bs => b.toNat * 256 ^ bs.length + toNatBE bs

/-- The shortest big-endian spelling of a number, one zero byte for zero. -/
def ofNatBE (n : Nat) : Bytes :=
  if n = 0 then [0] else ((Nat.digits 256 n).map UInt8.ofNat).reverse

/-- The last `width` bytes, with zeros on the left if there are fewer. -/
def padLeft (width : Nat) (bs : Bytes) : Bytes :=
  let copyLen := min bs.length width
  List.replicate (width - copyLen) 0 ++ bs.drop (bs.length - copyLen)

theorem toNatBE_append (xs ys : Bytes) : toNatBE (xs ++ ys) = toNatBE xs * 256 ^ ys.length + toNatBE ys := by
  induction xs with
  | nil => simp [toNatBE]
  | cons x xs ih =>
      rw [List.cons_append, toNatBE, toNatBE, ih, List.length_append, pow_add]
      ring

/-- Read from the other end. -/
theorem toNatBE_reverse (bs : Bytes) : toNatBE bs.reverse = toNatLE bs := by
  induction bs with
  | nil => rfl
  | cons b bs ih =>
      rw [List.reverse_cons, toNatBE_append, ih, toNatLE]
      simp [toNatBE]
      ring

theorem toNatBE_lt (bs : Bytes) : toNatBE bs < 256 ^ bs.length := by
  have h := toNatLE_lt bs.reverse
  rwa [← toNatBE_reverse, List.reverse_reverse, List.length_reverse] at h

theorem toNatBE_replicate_zero (n : Nat) : toNatBE (List.replicate n 0) = 0 := by
  induction n with
  | zero => rfl
  | succ n ih => simp [List.replicate_succ, toNatBE, ih]

theorem toNatLE_map_ofNat {ds : List Nat} (h : ∀ d ∈ ds, d < 256) :
    toNatLE (ds.map UInt8.ofNat) = Nat.ofDigits 256 ds := by
  induction ds with
  | nil => rfl
  | cons d ds ih =>
      have hd : (UInt8.ofNat d).toNat = d := by
        rw [UInt8.toNat_ofNat', Nat.mod_eq_of_lt (h d List.mem_cons_self)]
      rw [List.map_cons, toNatLE, hd, ih fun x hx => h x (List.mem_cons_of_mem d hx), Nat.ofDigits_cons]

theorem toNatBE_ofNatBE (n : Nat) : toNatBE (ofNatBE n) = n := by
  unfold ofNatBE
  split
  · rename_i h
    rw [h]
    rfl
  · rw [toNatBE_reverse, toNatLE_map_ofNat fun d hd => Nat.digits_lt_base (by norm_num) hd, Nat.ofDigits_digits]

@[simp] theorem length_padLeft (width : Nat) (bs : Bytes) : (padLeft width bs).length = width := by
  simp only [padLeft, List.length_append, List.length_replicate, List.length_drop]
  omega

/-- Padding keeps the number, up to what does not fit. -/
theorem toNatBE_padLeft (width : Nat) (bs : Bytes) : toNatBE (padLeft width bs) = toNatBE bs % 256 ^ width := by
  unfold padLeft
  simp only [toNatBE_append, toNatBE_replicate_zero, Nat.zero_mul, Nat.zero_add]
  have hsplit := congrArg toNatBE (List.take_append_drop (bs.length - min bs.length width) bs)
  rw [toNatBE_append] at hsplit
  have hlt := toNatBE_lt (bs.drop (bs.length - min bs.length width))
  have hlen : (bs.drop (bs.length - min bs.length width)).length = min bs.length width := by
    rw [List.length_drop]
    omega
  rw [hlen] at hsplit hlt
  rcases Nat.le_total bs.length width with hle | hle
  · have hwhole : bs.length - min bs.length width = 0 := by omega
    rw [hwhole, List.drop_zero, Nat.mod_eq_of_lt]
    exact lt_of_lt_of_le (toNatBE_lt bs) (Nat.pow_le_pow_right (by norm_num) hle)
  · rw [min_eq_right hle] at hsplit hlt ⊢
    rw [← hsplit, Nat.mul_comm, Nat.mul_add_mod, Nat.mod_eq_of_lt hlt]

/-- **Byte order is number order** on strings of one length. -/
theorem lt_iff_toNatBE_lt {xs ys : Bytes} (hlen : xs.length = ys.length) : xs < ys ↔ toNatBE xs < toNatBE ys := by
  induction xs generalizing ys with
  | nil =>
      obtain rfl := List.length_eq_zero_iff.mp hlen.symm
      simp
  | cons x xs ih =>
      obtain ⟨y, ys, rfl⟩ := List.exists_cons_of_length_pos (l := ys) (by simp at hlen; omega)
      have hlen' : xs.length = ys.length := by simpa using hlen
      have hxs := toNatBE_lt xs
      have hys := toNatBE_lt ys
      rw [List.cons_lt_cons_iff, toNatBE, toNatBE, hlen', ih hlen', UInt8.lt_iff_toNat_lt]
      rw [hlen'] at hxs
      constructor
      · rintro (hlt | ⟨rfl, hlt⟩)
        · have hstep : (x.toNat + 1) * 256 ^ ys.length ≤ y.toNat * 256 ^ ys.length := Nat.mul_le_mul_right _ hlt
          rw [Nat.add_mul, Nat.one_mul] at hstep
          omega
        · omega
      · intro hlt
        rcases Nat.lt_trichotomy x.toNat y.toNat with h | h | h
        · exact Or.inl h
        · rw [h] at hlt
          exact Or.inr ⟨UInt8.toNat_inj.mp h, by omega⟩
        · have hstep : (y.toNat + 1) * 256 ^ ys.length ≤ x.toNat * 256 ^ ys.length := Nat.mul_le_mul_right _ h
          rw [Nat.add_mul, Nat.one_mul] at hstep
          omega

end Bytes

end HassanNode
