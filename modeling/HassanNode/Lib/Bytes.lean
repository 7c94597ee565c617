import Mathlib

/-!
# HassanNode.Lib.Bytes

Little-endian byte strings, in general: encoding a natural number on a fixed
number of bytes, reading it back, and the injectivity facts a proof about a
concatenation of fixed-width fields needs. Nothing here knows what the bytes
are for.
-/

namespace HassanNode

/-- A byte string. -/
abbrev Bytes := List UInt8

namespace Bytes

/-- The `width` low bytes of `n`, least significant first. -/
def ofNatLE : (width : Nat) → (n : Nat) → Bytes
  | 0, _ => []
  | width + 1, n => UInt8.ofNat n :: ofNatLE width (n / 256)

/-- The number a little-endian byte string spells. -/
def toNatLE : Bytes → Nat
  | [] => 0
  | b :: bs => b.toNat + 256 * toNatLE bs

@[simp] theorem length_ofNatLE (width n : Nat) : (ofNatLE width n).length = width := by
  induction width generalizing n with
  | zero => rfl
  | succ width ih => simp [ofNatLE, ih]

/-- Reading back an encoding gives the number modulo `256 ^ width`. -/
theorem toNatLE_ofNatLE (width n : Nat) : toNatLE (ofNatLE width n) = n % 256 ^ width := by
  induction width generalizing n with
  | zero => simp [ofNatLE, toNatLE, Nat.mod_one]
  | succ width ih =>
      have hb : (UInt8.ofNat n).toNat = n % 256 := by simp
      rw [ofNatLE, toNatLE, ih, hb, Nat.pow_succ', Nat.mod_mul]

theorem toNatLE_lt (bs : Bytes) : toNatLE bs < 256 ^ bs.length := by
  induction bs with
  | nil => simp [toNatLE]
  | cons b bs ih =>
      have := b.toNat_lt
      rw [toNatLE, List.length_cons, Nat.pow_succ]
      omega

/-- On numbers that fit, the encoding is injective. -/
theorem ofNatLE_inj {width m n : Nat} (hm : m < 256 ^ width) (hn : n < 256 ^ width)
    (h : ofNatLE width m = ofNatLE width n) : m = n := by
  have := congrArg toNatLE h
  rwa [toNatLE_ofNatLE, toNatLE_ofNatLE, Nat.mod_eq_of_lt hm, Nat.mod_eq_of_lt hn] at this

/-- Two runs of equally many fields of one fixed width, each followed by
something, agree field by field. -/
theorem flatMap_append_inj {α : Type} {f : α → Bytes} {width : Nat}
    (hwidth : ∀ x, (f x).length = width) {xs ys : List α} (hlen : xs.length = ys.length)
    {rest rest' : Bytes} (h : xs.flatMap f ++ rest = ys.flatMap f ++ rest') :
    xs.map f = ys.map f ∧ rest = rest' := by
  induction xs generalizing ys with
  | nil =>
      obtain rfl := List.length_eq_zero_iff.mp hlen.symm
      exact ⟨rfl, h⟩
  | cons x xs ih =>
      obtain ⟨y, ys, rfl⟩ := List.exists_cons_of_length_pos (l := ys) (by simp at hlen; omega)
      simp only [List.flatMap_cons, List.append_assoc] at h
      obtain ⟨hhead, htail⟩ := List.append_inj h (by rw [hwidth, hwidth])
      obtain ⟨hmap, hrest⟩ := ih (by simpa using hlen) htail
      exact ⟨by rw [List.map_cons, List.map_cons, hhead, hmap], hrest⟩

/-! ### Self-delimiting encodings -/

/-- On the values of `ok`, a reader of `f x` finds its end: two encodings with
anything behind them agree only if the values and the rest do. -/
def SelfDelimiting {α : Type} (ok : α → Prop) (f : α → Bytes) : Prop :=
  ∀ ⦃x y⦄, ok x → ok y → ∀ ⦃rest rest'⦄, f x ++ rest = f y ++ rest' → x = y ∧ rest = rest'

/-- Fields of one width are self-delimiting if they are injective. -/
theorem selfDelimiting_of_width {α : Type} {ok : α → Prop} {f : α → Bytes} {width : Nat}
    (hwidth : ∀ x, (f x).length = width) (hinj : ∀ ⦃x y⦄, ok x → ok y → f x = f y → x = y) :
    SelfDelimiting ok f := by
  intro x y hx hy rest rest' h
  obtain ⟨hhead, htail⟩ := List.append_inj h (by rw [hwidth, hwidth])
  exact ⟨hinj hx hy hhead, htail⟩

theorem selfDelimiting_ofNatLE (width : Nat) :
    SelfDelimiting (· < 256 ^ width) (ofNatLE width) :=
  selfDelimiting_of_width (length_ofNatLE width) fun _ _ => ofNatLE_inj

/-- Words with different first bytes are self-delimiting, whatever their lengths. -/
theorem selfDelimiting_of_take {α : Type} {f : α → Bytes} (n : Nat) (hlong : ∀ x, n ≤ (f x).length)
    (hinj : ∀ x y, (f x).take n = (f y).take n → x = y) : SelfDelimiting (fun _ => True) f := by
  intro x y _ _ rest rest' h
  have htake := congrArg (List.take n) h
  rw [List.take_append_of_le_length (hlong x), List.take_append_of_le_length (hlong y)] at htake
  obtain rfl := hinj x y htake
  exact ⟨rfl, List.append_cancel_left h⟩

namespace SelfDelimiting

variable {α : Type} {ok : α → Prop} {f : α → Bytes}

/-- A sequence of known length. -/
theorem flatMap_append (hf : SelfDelimiting ok f) {xs ys : List α} (hxs : ∀ x ∈ xs, ok x)
    (hys : ∀ y ∈ ys, ok y) (hlen : xs.length = ys.length) {rest rest' : Bytes}
    (h : xs.flatMap f ++ rest = ys.flatMap f ++ rest') : xs = ys ∧ rest = rest' := by
  induction xs generalizing ys with
  | nil =>
      obtain rfl := List.length_eq_zero_iff.mp hlen.symm
      exact ⟨rfl, h⟩
  | cons x xs ih =>
      obtain ⟨y, ys, rfl⟩ := List.exists_cons_of_length_pos (l := ys) (by simp at hlen; omega)
      simp only [List.flatMap_cons, List.append_assoc] at h
      obtain ⟨rfl, htail⟩ := hf (hxs x (by simp)) (hys y (by simp)) h
      obtain ⟨rfl, hrest⟩ := ih (fun z hz => hxs z (List.mem_cons_of_mem x hz))
        (fun z hz => hys z (List.mem_cons_of_mem x hz)) (by simpa using hlen) htail
      exact ⟨rfl, hrest⟩

/-- A sequence that runs to the end of the message. -/
theorem flatMap_inj (hf : SelfDelimiting ok f) (hne : ∀ x, f x ≠ []) {xs ys : List α}
    (hxs : ∀ x ∈ xs, ok x) (hys : ∀ y ∈ ys, ok y) (h : xs.flatMap f = ys.flatMap f) : xs = ys := by
  induction xs generalizing ys with
  | nil =>
      cases ys with
      | nil => rfl
      | cons y ys => simp [hne y] at h
  | cons x xs ih =>
      cases ys with
      | nil => simp [hne x] at h
      | cons y ys =>
          simp only [List.flatMap_cons] at h
          obtain ⟨rfl, htail⟩ := hf (hxs x (by simp)) (hys y (by simp)) h
          rw [ih (fun z hz => hxs z (List.mem_cons_of_mem x hz))
            (fun z hz => hys z (List.mem_cons_of_mem x hz)) htail]

end SelfDelimiting

end Bytes

end HassanNode
