import Mathlib
import HassanNode.Lib.Digits
import HassanNode.Core.Spelling

/-!
# HassanNode.Core.Bech32m

The round trip of an address: what `encode_hash` writes, `decode_address` reads back
(`Address.decodeAddress_encodeHash`), so the address of every key is a bech32m
address (`Address.isBech32m_ofPubkey`).

Two things make it so. The checksum polynomial is linear over exclusive or, and so the
six characters that `encode` appends bring it to its constant. And regrouping eight bits
by five, filled up with zeros, and five by eight again gives the bytes back: in both
directions the groups are digits of one number (`convertLoop_eq`).
-/

namespace HassanNode

namespace Address

/-! ### The checksum -/

/-- What the generators fold back in for the bits that fell off the top. -/
def feedback (gens : List (Nat × Nat)) (b : Nat) : Nat :=
  gens.foldl (fun c g => if (b >>> g.2) &&& 1 = 1 then c ^^^ g.1 else c) 0

theorem foldl_feedback (gens : List (Nat × Nat)) (b x : Nat) :
    gens.foldl (fun c g => if (b >>> g.2) &&& 1 = 1 then c ^^^ g.1 else c) x = x ^^^ feedback gens b := by
  induction gens generalizing x with
  | nil => simp [feedback]
  | cons g gens ih =>
      have hcons : feedback (g :: gens) b = (if (b >>> g.2) &&& 1 = 1 then 0 ^^^ g.1 else 0) ^^^ feedback gens b := ih _
      rw [List.foldl_cons, ih, hcons]
      split
      · rw [Nat.zero_xor, Nat.xor_assoc]
      · rw [Nat.zero_xor]

theorem shiftRight_and_one (b i : Nat) : (b >>> i) &&& 1 = 1 ↔ b.testBit i = true := by
  rw [Nat.testBit, Nat.and_comm]
  have hbit := Nat.and_one_is_mod (b >>> i)
  rw [Nat.and_comm] at hbit
  have hlt := Nat.mod_lt (b >>> i) Nat.two_pos
  rw [hbit]
  rcases Nat.mod_two_eq_zero_or_one (b >>> i) with h | h <;> simp [h]

theorem feedback_xor (gens : List (Nat × Nat)) (a b : Nat) :
    feedback gens (a ^^^ b) = feedback gens a ^^^ feedback gens b := by
  induction gens with
  | nil => simp [feedback]
  | cons g gens ih =>
      have hcons : ∀ x, feedback (g :: gens) x = (if x.testBit g.2 then g.1 else 0) ^^^ feedback gens x := by
        intro x
        rw [feedback, List.foldl_cons, foldl_feedback]
        simp only [shiftRight_and_one, Nat.zero_xor]
      rw [hcons, hcons, hcons, ih, Nat.testBit_xor]
      cases a.testBit g.2 <;> cases b.testBit g.2 <;> simp [Nat.xor_assoc, Nat.xor_left_comm]

theorem polymodStep_eq (chk value : Nat) : polymodStep chk value
    = ((chk &&& 0x1ffffff) <<< 5) ^^^ value ^^^ feedback generators.zipIdx (chk >>> 25) := foldl_feedback _ _ _

/-- **The checksum is linear.** -/
theorem polymodStep_xor (a b v w : Nat) :
    polymodStep (a ^^^ b) (v ^^^ w) = polymodStep a v ^^^ polymodStep b w := by
  have hlow : (a ^^^ b) &&& 0x1ffffff = (a &&& 0x1ffffff) ^^^ (b &&& 0x1ffffff) := Nat.and_xor_distrib_right
  rw [polymodStep_eq, polymodStep_eq, polymodStep_eq, hlow, Nat.shiftLeft_xor_distrib, Nat.shiftRight_xor_distrib,
    feedback_xor]
  simp only [Nat.xor_assoc, Nat.xor_comm, Nat.xor_left_comm]

theorem feedback_lt (b : Nat) : feedback generators.zipIdx b < 2 ^ 30 := by
  have hgens : ∀ g ∈ generators.zipIdx, g.1 < 2 ^ 30 := by decide
  have hfold : ∀ (gens : List (Nat × Nat)) (c : Nat), (∀ g ∈ gens, g.1 < 2 ^ 30) → c < 2 ^ 30 →
      gens.foldl (fun c g => if (b >>> g.2) &&& 1 = 1 then c ^^^ g.1 else c) c < 2 ^ 30 := by
    intro gens
    induction gens with
    | nil => exact fun c _ hc => hc
    | cons g gens ih =>
        intro c hgens hc
        refine ih _ (fun g' hg' => hgens g' (List.mem_cons_of_mem g hg')) ?_
        dsimp only
        split
        · exact Nat.xor_lt_two_pow hc (hgens g List.mem_cons_self)
        · exact hc
  exact hfold _ 0 hgens (by norm_num)

/-- The checksum has thirty bits. -/
theorem polymodStep_lt (chk : Nat) {value : Nat} (hvalue : value < 2 ^ 30) : polymodStep chk value < 2 ^ 30 := by
  have hlow : (chk &&& 0x1ffffff) <<< 5 < 2 ^ 30 := by
    have hmask : chk &&& 0x1ffffff = chk % 2 ^ 25 := Nat.and_two_pow_sub_one_eq_mod chk 25
    rw [hmask, Nat.shiftLeft_eq]
    omega
  rw [polymodStep_eq]
  exact Nat.xor_lt_two_pow (Nat.xor_lt_two_pow hlow hvalue) (feedback_lt _)

/-- A short checksum takes in a value as its last digit. -/
theorem polymodStep_short {chk value : Nat} (hchk : chk < 2 ^ 25) (hvalue : value < 2 ^ 5) :
    polymodStep chk value = chk * 2 ^ 5 + value := by
  have hmask : chk &&& 0x1ffffff = chk := Nat.and_two_pow_sub_one_of_lt_two_pow hchk
  have hover : chk >>> 25 = 0 := by
    rw [Nat.shiftRight_eq_div_pow]
    exact Nat.div_eq_of_lt hchk
  have hnone : feedback generators.zipIdx 0 = 0 := by decide
  have hdisjoint : (chk <<< 5) &&& value = 0 := by
    refine Nat.eq_of_testBit_eq fun i => ?_
    rw [Nat.testBit_and, Nat.testBit_shiftLeft, Nat.zero_testBit]
    by_cases hi : 5 ≤ i
    · rw [Nat.testBit_lt_two_pow (lt_of_lt_of_le hvalue (Nat.pow_le_pow_right (by norm_num) hi)), Bool.and_false]
    · rw [decide_eq_false hi, Bool.false_and, Bool.false_and]
  have hxor : (chk <<< 5) ^^^ value = (chk <<< 5) ||| value := by
    refine Nat.eq_of_testBit_eq fun i => ?_
    have hbit := congrArg (Nat.testBit · i) hdisjoint
    simp only [Nat.testBit_and, Nat.zero_testBit] at hbit
    rw [Nat.testBit_xor, Nat.testBit_or]
    revert hbit
    cases (chk <<< 5).testBit i <;> cases value.testBit i <;> simp
  rw [polymodStep_eq, hmask, hover, hnone, Nat.xor_zero, hxor, ← Nat.shiftLeft_add_eq_or_of_lt hvalue,
    Nat.shiftLeft_eq]

/-- So from nothing it takes in the digits of a number. -/
theorem foldl_polymodStep_digits {m n : Nat} (hm : 5 * m ≤ 30) (hn : n < 2 ^ (5 * m)) :
    (digitsBE 5 m n).foldl polymodStep 0 = n := by
  have hpush : ∀ (ds : List Nat) (c : Nat), (∀ d ∈ ds, d < 2 ^ 5) → c * 2 ^ (5 * ds.length) + 2 ^ (5 * ds.length) ≤ 2 ^ 30 →
      ds.foldl polymodStep c = pushDigits 5 c ds := by
    intro ds
    induction ds with
    | nil => exact fun c _ _ => rfl
    | cons d ds ih =>
        intro c hds hc
        have hd := hds d List.mem_cons_self
        have hpow : 2 ^ (5 * (d :: ds).length) = 2 ^ 5 * 2 ^ (5 * ds.length) := by
          rw [List.length_cons, Nat.mul_add, Nat.mul_one, pow_add, Nat.mul_comm]
        have hpos : 1 ≤ 2 ^ (5 * ds.length) := Nat.one_le_two_pow
        rw [hpow] at hc
        have hshort : c < 2 ^ 25 := by nlinarith
        rw [List.foldl_cons, polymodStep_short hshort hd, pushDigits_cons]
        refine ih _ (fun x hx => hds x (List.mem_cons_of_mem d hx)) ?_
        nlinarith
  rw [hpush _ 0 (fun d hd => digitsBE_lt hd), pushDigits_digitsBE, Nat.mod_eq_of_lt hn]
  rw [length_digitsBE, Nat.zero_mul, Nat.zero_add]
  exact Nat.pow_le_pow_right (by norm_num) hm

/-- Values from two sources go in side by side. -/
theorem foldl_polymodStep_xor (a b : Nat) : ∀ vs ws : List Nat, vs.length = ws.length →
    (List.zipWith (· ^^^ ·) vs ws).foldl polymodStep (a ^^^ b) = vs.foldl polymodStep a ^^^ ws.foldl polymodStep b := by
  intro vs
  induction vs generalizing a b with
  | nil =>
      intro ws hlen
      obtain rfl := List.length_eq_zero_iff.mp hlen.symm
      rfl
  | cons v vs ih =>
      intro ws hlen
      obtain ⟨w, ws, rfl⟩ := List.exists_cons_of_length_pos (l := ws) (by rw [← hlen]; exact Nat.succ_pos _)
      rw [List.zipWith_cons_cons, List.foldl_cons, List.foldl_cons, List.foldl_cons, polymodStep_xor]
      exact ih _ _ ws (Nat.succ.inj hlen)

/-- The last six values only add their number. -/
theorem polymod_check {values check : List Nat} (hlen : check.length = 6) (hcheck : ∀ d ∈ check, d < 2 ^ 5) :
    polymod (values ++ check) = polymod (values ++ [0, 0, 0, 0, 0, 0]) ^^^ pushDigits 5 0 check := by
  have hdigits : digitsBE 5 6 (pushDigits 5 0 check) = check := hlen ▸ digitsBE_pushDigits hcheck
  have hlt : pushDigits 5 0 check < 2 ^ (5 * 6) := hlen ▸ pushDigits_lt hcheck
  have hzeros : List.zipWith (· ^^^ ·) [0, 0, 0, 0, 0, 0] check = check := by
    rw [← hdigits]
    simp [digitsBE]
  have hside := foldl_polymodStep_xor (polymod values) 0 [0, 0, 0, 0, 0, 0] check hlen.symm
  have hspell := foldl_polymodStep_digits (by norm_num) hlt
  rw [hdigits] at hspell
  rw [hzeros, Nat.xor_zero, hspell] at hside
  rw [polymod, polymod, List.foldl_append, List.foldl_append]
  exact hside

theorem polymod_lt (values : List Nat) : polymod (values ++ [0, 0, 0, 0, 0, 0]) < 2 ^ 30 := by
  have hlast : values ++ [0, 0, 0, 0, 0, 0] = (values ++ [0, 0, 0, 0, 0]) ++ [0] := by simp
  rw [hlast, polymod, List.foldl_append]
  exact polymodStep_lt _ (by norm_num)

/-- **The appended characters complete the checksum**, and no others do. -/
theorem polymod_eq_const_iff {values check : List Nat} (hlen : check.length = 6) (hcheck : ∀ d ∈ check, d < 2 ^ 5) :
    polymod (values ++ check) = bech32mConst ↔
      check = digitsBE 5 6 (polymod (values ++ [0, 0, 0, 0, 0, 0]) ^^^ bech32mConst) := by
  have hdigits : digitsBE 5 6 (pushDigits 5 0 check) = check := hlen ▸ digitsBE_pushDigits hcheck
  have hsum : polymod (values ++ [0, 0, 0, 0, 0, 0]) ^^^ bech32mConst < 2 ^ (5 * 6) :=
    Nat.xor_lt_two_pow (polymod_lt values) (by decide)
  rw [polymod_check hlen hcheck]
  constructor
  · intro h
    rw [← h, ← Nat.xor_assoc, Nat.xor_self, Nat.zero_xor, hdigits]
  · intro h
    have hspell : pushDigits 5 0 check = polymod (values ++ [0, 0, 0, 0, 0, 0]) ^^^ bech32mConst := by
      rw [h, pushDigits_digitsBE, Nat.mod_eq_of_lt hsum]
    rw [hspell, ← Nat.xor_assoc, Nat.xor_self, Nat.zero_xor]

/-! ### Regrouping -/

/-- The inner loop emits the digits above what stays. -/
theorem emitGroups_eq {toBits m r : Nat} (acc : Nat) (hr : r < toBits) {fuel : Nat}
    (hfuel : m ≤ fuel) : emitGroups acc toBits fuel (toBits * m + r) = (digitsBE toBits m (acc / 2 ^ r), r) := by
  induction m generalizing fuel with
  | zero =>
      cases fuel with
      | zero => simp [emitGroups, digitsBE]
      | succ fuel => rw [emitGroups, if_neg (by omega), Nat.mul_zero, Nat.zero_add, digitsBE]
  | succ m ih =>
      obtain ⟨fuel, rfl⟩ : ∃ f, fuel = f + 1 := ⟨fuel - 1, by omega⟩
      have hless : toBits * (m + 1) + r - toBits = toBits * m + r := by
        rw [Nat.mul_add, Nat.mul_one]
        omega
      have hdigit : (acc >>> (toBits * m + r)) &&& (1 <<< toBits - 1) = acc / 2 ^ r / 2 ^ (toBits * m) % 2 ^ toBits := by
        rw [Nat.one_shiftLeft, Nat.and_two_pow_sub_one_eq_mod, Nat.shiftRight_eq_div_pow, Nat.div_div_eq_div_mul,
          ← pow_add, Nat.add_comm r]
      rw [emitGroups, if_pos (by rw [Nat.mul_add, Nat.mul_one]; omega), hless]
      simp only [ih (Nat.le_of_succ_le_succ hfuel), hdigit, digitsBE]

/-- **Regrouping writes digits.** What the loop emits are the digits, in the new width, of
the number that the data spells behind the accumulator, down to the bits that stay. -/
theorem convertLoop_eq {fromBits toBits : Nat} (hto : 0 < toBits) (hwidth : fromBits + toBits ≤ 32) :
    ∀ (data : List Nat) (x r m r' : Nat), (∀ d ∈ data, d < 2 ^ fromBits) → r < toBits → r' < toBits →
      r + fromBits * data.length = toBits * m + r' →
      convertLoop fromBits toBits data (x % 2 ^ 32) r
        = some (digitsBE toBits m (pushDigits fromBits x data / 2 ^ r'), pushDigits fromBits x data % 2 ^ 32, r') := by
  intro data
  induction data with
  | nil =>
      intro x r m r' _ hr hr' hlen
      rw [List.length_nil, Nat.mul_zero, Nat.add_zero] at hlen
      have hm : m = 0 := by
        by_contra hne
        have hmul : toBits * 1 ≤ toBits * m := Nat.mul_le_mul_left _ (Nat.one_le_iff_ne_zero.mpr hne)
        omega
      subst hm
      rw [Nat.mul_zero, Nat.zero_add] at hlen
      rw [hlen]
      rfl
  | cons v data ih =>
      intro x r m r' hdata hr hr' hlen
      have hv : v < 2 ^ fromBits := hdata v List.mem_cons_self
      have hfits : ¬ v >>> fromBits ≠ 0 := by
        rw [Nat.shiftRight_eq_div_pow, Nat.div_eq_of_lt hv]
        exact not_not.mpr rfl
      have hacc : (((x % 2 ^ 32) <<< fromBits) ||| v) % 2 ^ 32 = (x * 2 ^ fromBits + v) % 2 ^ 32 := by
        rw [← Nat.shiftLeft_add_eq_or_of_lt hv, Nat.shiftLeft_eq, Nat.add_mod, Nat.mod_mul_mod, ← Nat.add_mod]
      -- the bits at hand split into groups and a rest
      obtain ⟨m₁, r₁, hr₁, hsplit⟩ : ∃ m₁ r₁, r₁ < toBits ∧ r + fromBits = toBits * m₁ + r₁ :=
        ⟨(r + fromBits) / toBits, (r + fromBits) % toBits, Nat.mod_lt _ hto, (Nat.div_add_mod _ _).symm⟩
      rw [List.length_cons, Nat.mul_add, Nat.mul_one] at hlen
      obtain ⟨m₂, rfl⟩ : ∃ m₂, m = m₁ + m₂ := by
        refine Nat.exists_eq_add_of_le (Nat.le_of_lt_succ (Nat.lt_of_mul_lt_mul_left (a := toBits) ?_))
        rw [Nat.mul_succ]
        omega
      rw [Nat.mul_add] at hlen
      have hrest := ih (x * 2 ^ fromBits + v) r₁ m₂ r' (fun d hd => hdata d (List.mem_cons_of_mem v hd)) hr₁ hr' (by omega)
      have hfuel : m₁ ≤ r + fromBits := by
        rw [hsplit]
        exact le_add_right (Nat.le_mul_of_pos_left m₁ hto)
      have hemit := emitGroups_eq ((x * 2 ^ fromBits + v) % 2 ^ 32) hr₁ hfuel
      rw [← hsplit, digitsBE_mod (by omega)] at hemit
      have hhigh : (x * 2 ^ fromBits + v) / 2 ^ r₁
          = pushDigits fromBits (x * 2 ^ fromBits + v) data / 2 ^ r' / 2 ^ (toBits * m₂) := by
        rw [Nat.div_div_eq_div_mul, ← pow_add, Nat.add_comm r', ← (by omega : r₁ + fromBits * data.length = toBits * m₂ + r'),
          Nat.add_comm r₁, pow_add, ← Nat.div_div_eq_div_mul, pushDigits_eq]
        have hlow := pushDigits_lt fun d hd => hdata d (List.mem_cons_of_mem v hd)
        rw [Nat.mul_comm _ (2 ^ (fromBits * data.length)), Nat.mul_add_div (Nat.two_pow_pos _), Nat.div_eq_of_lt hlow,
          Nat.add_zero]
      rw [convertLoop, if_neg hfits]
      simp only [hacc, hemit, hrest, Option.map_some, pushDigits_cons]
      rw [digitsBE_add, hhigh]

/-- Thirty-two bytes, by five bits, are the digits of their number with four zeros. -/
theorem convertBits_bytes {data : List Nat} (hlen : data.length = 32) (hdata : ∀ d ∈ data, d < 2 ^ 8) :
    convertBits data 8 5 true = some (digitsBE 5 52 (pushDigits 8 0 data * 2 ^ 4)) := by
  have hloop := @convertLoop_eq 8 5 (by norm_num) (by norm_num) data 0 0 51 1 hdata
    (by norm_num) (by norm_num) (by rw [hlen])
  have hbit : pushDigits 8 0 data * 2 ^ 4 / 2 ^ (5 * 1) = pushDigits 8 0 data / 2 ^ 1 := by omega
  have htail : ((pushDigits 8 0 data % 2 ^ 32) <<< (5 - 1) % 2 ^ 32) &&& (1 <<< 5 - 1)
      = pushDigits 8 0 data * 2 ^ 4 / 2 ^ (5 * 0) % 2 ^ 5 := by
    rw [Nat.one_shiftLeft, Nat.and_two_pow_sub_one_eq_mod, Nat.shiftLeft_eq]
    omega
  rw [Nat.zero_mod] at hloop
  rw [convertBits, hloop]
  simp only [if_true, htail]
  rw [if_pos (by norm_num), digitsBE_add 5 51 1, hbit]
  rfl

/-- And by eight bits again the bytes themselves. -/
theorem convertBits_digits {data : List Nat} (hlen : data.length = 32) (hdata : ∀ d ∈ data, d < 2 ^ 8) :
    convertBits (digitsBE 5 52 (pushDigits 8 0 data * 2 ^ 4)) 5 8 false = some data := by
  have hlt : pushDigits 8 0 data < 2 ^ (8 * 32) := hlen ▸ pushDigits_lt hdata
  have hspell : pushDigits 5 0 (digitsBE 5 52 (pushDigits 8 0 data * 2 ^ 4)) = pushDigits 8 0 data * 2 ^ 4 := by
    rw [pushDigits_digitsBE, Nat.mod_eq_of_lt]
    omega
  have hloop := @convertLoop_eq 5 8 (by norm_num) (by norm_num)
    (digitsBE 5 52 (pushDigits 8 0 data * 2 ^ 4)) 0 0 32 4 (fun d hd => digitsBE_lt hd)
    (by norm_num) (by norm_num) (by rw [length_digitsBE])
  rw [hspell, Nat.mul_div_cancel _ (by norm_num)] at hloop
  have hdigits : digitsBE 8 32 (pushDigits 8 0 data) = data := hlen ▸ digitsBE_pushDigits hdata
  have htail : ((pushDigits 8 0 data * 2 ^ 4 % 2 ^ 32) <<< (8 - 4) % 2 ^ 32) &&& (1 <<< 8 - 1) = 0 := by
    rw [Nat.one_shiftLeft, Nat.and_two_pow_sub_one_eq_mod, Nat.shiftLeft_eq]
    omega
  rw [Nat.zero_mod] at hloop
  rw [convertBits, hloop]
  simp only [htail, hdigits]
  rfl

/-! ### The characters -/

theorem utf8_hsn : utf8 "hsn" = [104, 115, 110] := rfl
theorem utf8_one : utf8 "1" = [49] := rfl

theorem charset_eq : charset = [113, 112, 122, 114, 121, 57, 120, 56, 103, 102, 50, 116, 118, 100, 119, 48, 115,
    51, 106, 110, 53, 52, 107, 104, 99, 101, 54, 109, 117, 97, 55, 108] := rfl

theorem charset_charAt {d : Nat} (hd : d < 2 ^ 5) : charset.idxOf? (charAt d) = some d ∧
    toLower (charAt d) = charAt d ∧ isUpper (charAt d) = false ∧ charAt d ≠ 49 := by
  have hall : ∀ d : Fin 32, charset.idxOf? (charAt d) = some d.val ∧
      toLower (charAt d) = charAt d ∧ isUpper (charAt d) = false ∧ charAt d ≠ 49 := by
    simp only [charAt, charset_eq]
    decide
  exact hall ⟨d, hd⟩

theorem mapM_idxOf_charAt {ds : List Nat} (hds : ∀ d ∈ ds, d < 2 ^ 5) :
    (ds.map charAt).mapM charset.idxOf? = some ds := by
  induction ds with
  | nil => rfl
  | cons d ds ih =>
      rw [List.map_cons, List.mapM_cons, (charset_charAt (hds d List.mem_cons_self)).1,
        ih fun x hx => hds x (List.mem_cons_of_mem d hx)]
      rfl

/-- The last separator stands before a text without one. -/
theorem rsplitOnce_append {front back : Bytes} (hback : 49 ∉ back) :
    rsplitOnce (front ++ 49 :: back) = some (front, back) := by
  have hidx : (front ++ 49 :: back).reverse.idxOf? 49 = some back.length := by
    have hnone : back.reverse.findIdx? (· == 49) = none := by
      refine List.findIdx?_eq_none_iff.mpr fun b hb => beq_eq_false_iff_ne.mpr fun h => hback ?_
      exact h ▸ List.mem_reverse.mp hb
    rw [List.reverse_append, List.reverse_cons, List.append_assoc, List.idxOf?, List.findIdx?_append, hnone]
    simp [List.findIdx?_cons]
  have hlen : (front ++ 49 :: back).length = front.length + (back.length + 1) := by simp
  rw [rsplitOnce, hidx]
  simp only [hlen]
  rw [Nat.add_sub_cancel]
  have hdrop : front.length + (back.length + 1) - back.length = front.length + 1 := by omega
  rw [hdrop]
  simp

/-- **What is encoded is decoded**, for a part in front that is in lower case. -/
theorem decode_encode {hrp : Bytes} {data : List Nat} (hne : hrp ≠ []) (hlower : ∀ b ∈ hrp, toLower b = b ∧ isUpper b = false)
    (hdata : ∀ d ∈ data, d < 2 ^ 5) : decode (encode hrp data) = some (hrp, data) := by
  obtain ⟨check, hcheck⟩ : ∃ check, check = digitsBE 5 6
      (polymod (hrpExpand hrp ++ data ++ [0, 0, 0, 0, 0, 0]) ^^^ bech32mConst) := ⟨_, rfl⟩
  have hspelled : encode hrp data = hrp ++ 49 :: (data ++ check).map charAt := by
    have hgroups : ∀ n : Nat, (List.range 6).map (fun i => charAt ((n >>> (5 * (5 - i))) &&& 31))
        = (digitsBE 5 6 n).map charAt := by
      intro n
      have hgroup : ∀ k : Nat, (n >>> k) &&& 31 = n / 2 ^ k % 2 ^ 5 := by
        intro k
        rw [Nat.shiftRight_eq_div_pow]
        exact Nat.and_two_pow_sub_one_eq_mod _ 5
      simp only [hgroup]
      rfl
    rw [encode, hgroups, hcheck, utf8_one, List.map_append]
    simp
  have hvalues : ∀ d ∈ data ++ check, d < 2 ^ 5 := by
    intro d hd
    rcases List.mem_append.mp hd with hd | hd
    · exact hdata d hd
    · rw [hcheck] at hd
      exact digitsBE_lt hd
  have hchars : ∀ b ∈ hrp ++ 49 :: (data ++ check).map charAt, toLower b = b ∧ isUpper b = false := by
    intro b hb
    rcases List.mem_append.mp hb with hb | hb
    · exact hlower b hb
    · rcases List.mem_cons.mp hb with rfl | hb
      · decide
      · obtain ⟨d, hd, rfl⟩ := List.mem_map.mp hb
        exact ⟨(charset_charAt (hvalues d hd)).2.1, (charset_charAt (hvalues d hd)).2.2.1⟩
  have hcase : (encode hrp data).any isUpper = false := by
    rw [hspelled]
    exact List.any_eq_false.mpr fun b hb => by rw [(hchars b hb).2]; decide
  have hsame : (encode hrp data).map toLower = hrp ++ 49 :: (data ++ check).map charAt := by
    rw [hspelled]
    exact (List.map_congr_left fun b hb => (hchars b hb).1).trans (List.map_id' _)
  have hsplit : rsplitOnce ((encode hrp data).map toLower) = some (hrp, (data ++ check).map charAt) := by
    rw [hsame]
    refine rsplitOnce_append fun hmem => ?_
    obtain ⟨d, hd, heq⟩ := List.mem_map.mp hmem
    exact (charset_charAt (hvalues d hd)).2.2.2 heq
  have hsix : check.length = 6 := by rw [hcheck, length_digitsBE]
  have hlong : ¬ (hrp = [] ∨ ((data ++ check).map charAt).length < 6) := by
    rw [List.length_map, List.length_append, hsix]
    rintro (h | h)
    · exact hne h
    · omega
  have hsum : polymod (hrpExpand hrp ++ (data ++ check)) = bech32mConst := by
    rw [← List.append_assoc]
    exact (polymod_eq_const_iff hsix fun d hd => hvalues d (List.mem_append_right _ hd)).mpr hcheck
  have htake : (data ++ check).take ((data ++ check).length - 6) = data := by
    rw [List.length_append, hsix, Nat.add_sub_cancel, List.take_left]
  rw [decode, hcase, Bool.false_and, if_neg (by decide), hsplit]
  simp only [Option.bind_eq_bind, Option.bind_some, if_neg hlong, mapM_idxOf_charAt hvalues, hsum, ne_eq, not_true,
    if_false, htake]

/-- **The address of a digest reads back.** -/
theorem decodeAddress_encodeHash (h : Hash) :
    decodeAddress (encodeHash h) = some ((h.asBytes.take payloadLen).map UInt8.toNat) := by
  obtain ⟨data, hdata⟩ : ∃ data, data = (h.asBytes.take payloadLen).map UInt8.toNat := ⟨_, rfl⟩
  have hlen : data.length = 32 := by
    rw [hdata, List.length_map, List.length_take, Hash.length_asBytes]
    rfl
  have hbytes : ∀ d ∈ data, d < 2 ^ 8 := by
    intro d hd
    rw [hdata] at hd
    obtain ⟨b, -, rfl⟩ := List.mem_map.mp hd
    exact b.toNat_lt
  have hlower : ∀ b ∈ utf8 "hsn", toLower b = b ∧ isUpper b = false := by
    simp [utf8_hsn, toLower, isUpper]
  have hread := @decode_encode (utf8 "hsn") (digitsBE 5 52 (pushDigits 8 0 data * 2 ^ 4)) (by simp [utf8_hsn]) hlower
    fun d hd => digitsBE_lt hd
  rw [encodeHash, ← hdata, convertBits_bytes hlen hbytes, Option.getD_some, decodeAddress, hread]
  simp only [Option.bind_eq_bind, Option.bind_some, ne_eq, not_true, if_false, convertBits_digits hlen hbytes]
  exact if_neg (not_not.mpr hlen)

/-- **Every key has a bech32m address.** -/
theorem isBech32m_ofPubkey [Crypto] (pubkey : Bytes) : isBech32m (ofPubkey pubkey) = true := by
  rw [isBech32m, ofPubkey, decodeAddress_encodeHash]
  rfl

theorem length_encodeHash (h : Hash) : (encodeHash h).length = 62 := by
  have hlen : ((h.asBytes.take payloadLen).map UInt8.toNat).length = 32 := by
    rw [List.length_map, List.length_take, Hash.length_asBytes]
    rfl
  have hbytes : ∀ d ∈ (h.asBytes.take payloadLen).map UInt8.toNat, d < 2 ^ 8 := by
    intro d hd
    obtain ⟨b, -, rfl⟩ := List.mem_map.mp hd
    exact b.toNat_lt
  have hfront : (utf8 "hsn" ++ utf8 "1").length = 4 := by rw [utf8_hsn, utf8_one]; rfl
  rw [encodeHash, convertBits_bytes hlen hbytes, Option.getD_some, encode, List.length_append,
    List.length_append, hfront, List.length_map, length_digitsBE, List.length_map, List.length_range]

theorem length_ofPubkey [Crypto] (pubkey : Bytes) : (ofPubkey pubkey).length = 62 := length_encodeHash _

/-- Two keys' addresses are equivalent when the parts of their digests that an address holds agree. -/
theorem equivalent_ofPubkey [Crypto] {k k' : Bytes} : equivalent (ofPubkey k) (ofPubkey k') = true ↔
    (addressHash k).asBytes.take payloadLen = (addressHash k').asBytes.take payloadLen := by
  have hprint : ∀ k, fingerprint (ofPubkey k) = some (((addressHash k).asBytes.take payloadLen).map UInt8.toNat) :=
    fun k => by rw [fingerprint, ofPubkey, decodeAddress_encodeHash]
  constructor
  · intro h
    rcases equivalent_iff.mp h with heq | ⟨fp, hk, hk'⟩
    · have hsame := Option.some.inj ((hprint k).symm.trans ((congrArg fingerprint heq).trans (hprint k')))
      exact List.map_injective_iff.mpr (fun _ _ => UInt8.toNat_inj.mp) hsame
    · have hsame := ((hprint k).symm.trans hk).trans (hk'.symm.trans (hprint k'))
      exact List.map_injective_iff.mpr (fun _ _ => UInt8.toNat_inj.mp) (Option.some.inj hsame)
  · intro h
    exact equivalent_iff.mpr (Or.inr ⟨_, hprint k, h ▸ hprint k'⟩)

theorem isValid_of_isBech32m {a : Address} (h : isBech32m a = true) : isValid a = true := by
  rw [isValid, h, Bool.true_or]

end Address

end HassanNode
