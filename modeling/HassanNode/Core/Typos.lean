import Mathlib
import HassanNode.Core.Codec

/-!
# HassanNode.Core.Typos

Mistyped addresses (`Address.mistyped_rejected`): one or two wrong characters after
`hsn1` are always caught.

The checksum is linear, so the wrong characters are caught when their differences from
the right ones, with zeros everywhere else, do not cancel in it. A round without input
loses nothing (`polymodStep_zero`), so one difference never does. A second one can only
cancel the first if that has come back to a single value by then, and within the length
of an address it has not (`rounds_apart`).
-/

namespace HassanNode

namespace Address

/-! ### Rounds without input -/

/-- A round without input loses nothing. -/
theorem polymodStep_zero {c : Nat} (hc : c < 2 ^ 30) (h : polymodStep c 0 = 0) : c = 0 := by
  have hlow : ∀ b : Fin 32, feedback generators.zipIdx b % 32 = 0 → b = 0 := by decide
  have hmask : c &&& 0x1ffffff = c % 2 ^ 25 := Nat.and_two_pow_sub_one_eq_mod c 25
  rw [polymodStep_eq, hmask, Nat.xor_zero, Nat.shiftLeft_eq, Nat.shiftRight_eq_div_pow] at h
  have hsame : c % 2 ^ 25 * 2 ^ 5 = feedback generators.zipIdx (c / 2 ^ 25) := Nat.xor_eq_zero_iff.mp h
  have htop : c / 2 ^ 25 < 32 := by omega
  have hnone : c / 2 ^ 25 = 0 := by
    have hzero := hlow ⟨c / 2 ^ 25, htop⟩ (by rw [← hsame]; omega)
    exact congrArg Fin.val hzero
  have hfed : feedback generators.zipIdx 0 = 0 := by decide
  rw [hnone, hfed] at hsame
  omega

/-- `n` rounds without input. -/
def rounds (n c : Nat) : Nat := (polymodStep · 0)^[n] c

theorem rounds_succ (n c : Nat) : rounds (n + 1) c = polymodStep (rounds n c) 0 :=
  Function.iterate_succ_apply' _ _ _

/-- Whether the next `n` rounds all leave more than a single value. -/
def apartFor : (n c : Nat) → Bool
  | 0, _ => true
  | n + 1, c => decide (32 ≤ polymodStep c 0) && apartFor n (polymodStep c 0)

theorem le_rounds_of_apartFor {n k c : Nat} (h : apartFor n c = true) (hk : k < n) : 32 ≤ rounds (k + 1) c := by
  induction n generalizing k c with
  | zero => exact absurd hk (Nat.not_lt_zero k)
  | succ n ih =>
      obtain ⟨hnext, hrest⟩ := Bool.and_eq_true_iff.mp h
      cases k with
      | zero => exact of_decide_eq_true hnext
      | succ k =>
          show 32 ≤ rounds (k + 1) (polymodStep c 0)
          exact ih hrest (Nat.lt_of_succ_lt_succ hk)

/-- **A single value does not come back** within the length of an address. -/
theorem rounds_apart {x k : Nat} (hx : x < 32) (hpos : x ≠ 0) (hk : k < 57) : 32 ≤ rounds (k + 1) x := by
  have hall : ∀ x : Fin 32, x.val ≠ 0 → apartFor 57 x.val = true := by decide +kernel
  exact le_rounds_of_apartFor (hall ⟨x, hx⟩ hpos) hk

/-! ### Differences -/

/-- How many values are not zero. -/
def weight (es : List Nat) : Nat := es.countP (· ≠ 0)

/-- Zeros do not cancel what is there. -/
theorem foldl_of_weight_zero {c : Nat} {es : List Nat} (hc : c < 2 ^ 30) (hne : c ≠ 0) (hes : weight es = 0) :
    es.foldl polymodStep c ≠ 0 := by
  induction es generalizing c with
  | nil => exact hne
  | cons e es ih =>
      have hzero : e = 0 := by
        have hall := List.countP_eq_zero.mp hes e List.mem_cons_self
        simpa using hall
      subst hzero
      have hrest : weight es = 0 := List.countP_eq_zero.mpr fun x hx =>
        List.countP_eq_zero.mp hes x (List.mem_cons_of_mem 0 hx)
      exact ih (polymodStep_lt c (by norm_num)) (fun h => hne (polymodStep_zero hc h)) hrest

/-- Nor does one more value, when a single one went in a few rounds before. -/
theorem foldl_of_weight_one {x n : Nat} {es : List Nat} (hx : x < 32) (hpos : x ≠ 0) (hes : ∀ e ∈ es, e < 32)
    (hlen : n + es.length ≤ 57) (hweight : weight es ≤ 1) : es.foldl polymodStep (rounds n x) ≠ 0 := by
  have hlt : rounds n x < 2 ^ 30 := by
    cases n with
    | zero => exact hx.trans (by norm_num)
    | succ n =>
        rw [rounds_succ]
        exact polymodStep_lt _ (by norm_num)
  have hne : rounds n x ≠ 0 := by
    cases n with
    | zero => exact hpos
    | succ n => exact Nat.ne_zero_of_lt (rounds_apart hx hpos (by omega))
  induction es generalizing n with
  | nil => exact hne
  | cons e es ih =>
      rw [List.length_cons] at hlen
      have hfar : 32 ≤ rounds (n + 1) x := rounds_apart hx hpos (by omega)
      have hnext : rounds (n + 1) x < 2 ^ 30 := by
        rw [rounds_succ]
        exact polymodStep_lt _ (by norm_num)
      have hrest : ∀ e' ∈ es, e' < 32 := fun e' h => hes e' (List.mem_cons_of_mem e h)
      by_cases he : e = 0
      · subst he
        have hless : weight es ≤ 1 := hweight
        rw [List.foldl_cons, ← rounds_succ]
        exact ih hrest (by omega) hless hnext (Nat.ne_zero_of_lt hfar)
      · have hnone : weight es = 0 := by
          rw [weight, List.countP_cons_of_pos (by simpa using he)] at hweight
          exact Nat.le_zero.mp (Nat.le_of_succ_le_succ hweight)
        have hin : polymodStep (rounds n x) e = rounds (n + 1) x ^^^ e := by
          rw [rounds_succ, polymodStep_eq, polymodStep_eq, Nat.xor_zero, Nat.xor_right_comm]
        have hsmall : e < 32 := hes e List.mem_cons_self
        rw [List.foldl_cons, hin]
        refine foldl_of_weight_zero (Nat.xor_lt_two_pow hnext (hsmall.trans (by norm_num))) (fun h => ?_) hnone
        rw [Nat.xor_eq_zero_iff.mp h] at hfar
        omega

/-- **One or two differences do not cancel.** -/
theorem foldl_of_weight_two {es : List Nat} (hes : ∀ e ∈ es, e < 32) (hlen : es.length ≤ 58)
    (hpos : 1 ≤ weight es) (hweight : weight es ≤ 2) : es.foldl polymodStep 0 ≠ 0 := by
  induction es with
  | nil => exact absurd hpos (by decide)
  | cons e es ih =>
      rw [List.length_cons] at hlen
      have hrest : ∀ e' ∈ es, e' < 32 := fun e' h => hes e' (List.mem_cons_of_mem e h)
      have hsmall : e < 32 := hes e List.mem_cons_self
      rw [List.foldl_cons, polymodStep_short (by norm_num) hsmall, Nat.zero_mul, Nat.zero_add]
      by_cases he : e = 0
      · subst he
        exact ih hrest (by omega) hpos hweight
      · rw [weight, List.countP_cons_of_pos (by simpa using he)] at hweight
        exact foldl_of_weight_one (n := 0) hsmall he hrest (by omega) (Nat.le_of_succ_le_succ hweight)

/-! ### Mistyped addresses -/

/-- `typed` is `addr` with one or two of the characters after `hsn1` replaced by others of
the charset. -/
structure Mistyped (addr typed : Address) : Prop where
  length : typed.length = addr.length
  front : typed.take 4 = addr.take 4
  chars : ∀ b ∈ typed.drop 4, b ∈ charset
  some_differ : 1 ≤ (addr.zip typed).countP fun p => decide (p.1 ≠ p.2)
  few_differ : (addr.zip typed).countP (fun p => decide (p.1 ≠ p.2)) ≤ 2

/-- Characters differ where their values do. -/
theorem weight_zipWith {vs ws : List Nat} (hvs : ∀ v ∈ vs, v < 2 ^ 5) (hws : ∀ w ∈ ws, w < 2 ^ 5) :
    weight (List.zipWith (· ^^^ ·) vs ws)
      = ((vs.map charAt).zip (ws.map charAt)).countP fun p => decide (p.1 ≠ p.2) := by
  induction vs generalizing ws with
  | nil => rfl
  | cons v vs ih =>
      cases ws with
      | nil => rfl
      | cons w ws =>
          have hrest := ih (fun x hx => hvs x (List.mem_cons_of_mem v hx)) fun x hx => hws x (List.mem_cons_of_mem w hx)
          have hv := (charset_charAt (hvs v List.mem_cons_self)).1
          have hw := (charset_charAt (hws w List.mem_cons_self)).1
          have hsame : v ^^^ w ≠ 0 ↔ charAt v ≠ charAt w := by
            rw [not_iff_not, Nat.xor_eq_zero_iff]
            refine ⟨congrArg charAt, fun h => ?_⟩
            rw [h] at hv
            exact Option.some.inj (hv.symm.trans hw)
          rw [weight] at hrest ⊢
          rw [List.zipWith_cons_cons, List.countP_cons, hrest, List.map_cons, List.map_cons, List.zip_cons_cons,
            List.countP_cons]
          simp only [hsame]

/-- Two strings of values that complete the same checksum do not differ in one or two. -/
theorem weight_of_polymod {front vs ws : List Nat} (hvs : ∀ v ∈ vs, v < 2 ^ 5) (hws : ∀ w ∈ ws, w < 2 ^ 5)
    (hlen : vs.length = ws.length) (hshort : vs.length ≤ 58) (hsum : polymod (front ++ vs) = polymod (front ++ ws))
    (hpos : 1 ≤ weight (List.zipWith (· ^^^ ·) vs ws)) : 2 < weight (List.zipWith (· ^^^ ·) vs ws) := by
  have hdiffs : ∀ e ∈ List.zipWith (· ^^^ ·) vs ws, e < 32 := by
    intro e he
    rw [← List.map_uncurry_zip_eq_zipWith] at he
    obtain ⟨p, hp, rfl⟩ := List.mem_map.mp he
    obtain ⟨hv, hw⟩ := List.of_mem_zip hp
    exact Nat.xor_lt_two_pow (n := 5) (hvs _ hv) (hws _ hw)
  have hcancel : (List.zipWith (· ^^^ ·) vs ws).foldl polymodStep 0 = 0 := by
    have hside := foldl_polymodStep_xor (polymod front) (polymod front) vs ws hlen
    have hboth : vs.foldl polymodStep (polymod front) = ws.foldl polymodStep (polymod front) := by
      rw [polymod, polymod, List.foldl_append, List.foldl_append] at hsum
      exact hsum
    rwa [Nat.xor_self, hboth, Nat.xor_self] at hside
  by_contra hfew
  refine foldl_of_weight_two hdiffs ?_ hpos (Nat.not_lt.mp hfew) hcancel
  rw [List.length_zipWith]
  omega

/-- A lower-case string that `decode_address` reads is `hsn1` and characters of values. -/
theorem values_of_decodeAddress {addr : Address} {p : List Nat} (h : decodeAddress addr = some p)
    (hlower : addr.any isUpper = false) : ∃ values, (∀ v ∈ values, v < 2 ^ 5) ∧
      addr = [104, 115, 110, 49] ++ values.map charAt ∧ polymod (hrpExpand (utf8 "hsn") ++ values) = bech32mConst := by
  obtain ⟨data, hdecode, -, -⟩ := decodeAddress_eq_some h
  obtain ⟨-, values, hvalues, hspelled, hsum, -, -⟩ := decode_eq_some hdecode
  rw [map_toLower_of_lower hlower, utf8_hsn] at hspelled
  exact ⟨values, hvalues, hspelled, hsum⟩

/-- The address of a digest is in lower case. -/
theorem encodeHash_lower (h : Hash) : (encodeHash h).any isUpper = false := by
  have hcase := (map_toLower_of_decodeAddress (decodeAddress_encodeHash h)).1
  have hletter : (encodeHash h).any isLower = true := by
    rw [encodeHash, encode, utf8_hsn]
    simp [isLower]
  rwa [hletter, Bool.and_true] at hcase

/-- What starts with `hsn1` is no legacy address. -/
theorem decodeLegacyHex_of_separator (rest : Bytes) : decodeLegacyHex ([104, 115, 110, 49] ++ rest) = none := by
  have hfront : utf8 "hsn:" = [104, 115, 110, 58] := rfl
  rw [decodeLegacyHex, hfront]
  rfl

/-- **Mistyped addresses are caught**: neither decoder accepts the address of a digest with
one or two of its characters replaced. -/
theorem mistyped_rejected {h : Hash} {typed : Address} (htyped : Mistyped (encodeHash h) typed) :
    decodeAddress typed = none ∧ isValid typed = false := by
  obtain ⟨vs, hvs, hspelled, hsum⟩ := values_of_decodeAddress (decodeAddress_encodeHash h) (encodeHash_lower h)
  have hfront : typed = [104, 115, 110, 49] ++ typed.drop 4 := by
    have htake : (encodeHash h).take 4 = [104, 115, 110, 49] := by rw [hspelled]; rfl
    rw [← htake, ← htyped.front, List.take_append_drop]
  have hlower : typed.any isUpper = false := by
    have hcharset : ∀ b ∈ charset, isUpper b = false := by simp [charset_eq, isUpper]
    rw [hfront, List.any_append]
    refine Bool.or_eq_false_iff.mpr ⟨by simp [isUpper], ?_⟩
    exact List.any_eq_false.mpr fun b hb => Bool.eq_false_iff.mp (hcharset b (htyped.chars b hb))
  have hnone : decodeAddress typed = none := by
    refine Option.eq_none_iff_forall_ne_some.mpr fun p hread => ?_
    obtain ⟨ws, hws, hspelled', hsum'⟩ := values_of_decodeAddress hread hlower
    have hlong : vs.length = 58 ∧ ws.length = 58 := by
      have haddr := length_encodeHash h
      have hsame := htyped.length
      rw [hspelled, List.length_append, List.length_map] at haddr hsame
      rw [hspelled', List.length_append, List.length_map] at hsame
      simp only [List.length_cons, List.length_nil] at haddr hsame
      omega
    have hdiffer : ((encodeHash h).zip typed).countP (fun p => decide (p.1 ≠ p.2))
        = weight (List.zipWith (· ^^^ ·) vs ws) := by
      rw [weight_zipWith hvs hws, hspelled, hspelled', List.zip_append rfl, List.countP_append]
      simp
    have hsome := htyped.some_differ
    have hfew := htyped.few_differ
    rw [hdiffer] at hsome hfew
    exact absurd hfew (Nat.not_le.mpr
      (weight_of_polymod hvs hws (by omega) (by omega) (hsum.trans hsum'.symm) hsome))
  refine ⟨hnone, ?_⟩
  rw [isValid, isBech32m, hnone, hfront, decodeLegacyHex_of_separator]
  rfl

/-- One character of the address of the zero digest, replaced. -/
theorem retyped_rejected : decodeAddress ((encodeHash Hash.zero).set 30 112) = none ∧
    isValid ((encodeHash Hash.zero).set 30 112) = false := by
  have htyped : Mistyped (encodeHash Hash.zero) ((encodeHash Hash.zero).set 30 112) :=
    ⟨List.length_set, by decide +kernel, by decide +kernel, by decide +kernel, by decide +kernel⟩
  exact mistyped_rejected htyped

end Address

end HassanNode
