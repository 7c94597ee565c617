import Mathlib
import HassanNode.Consensus.SuperProof

/-!
# HassanNode.Consensus.Issuance

The issuance schedule of `genesis.rs`, block by block (`block_subsidy`) and era by
era (`cumulative_issuance`). The two agree for every number of blocks, and the
saturating operations and the cap of the second never act: it runs as well with
every one of them turned into a fault (`issuanceChecked`).
-/

namespace HassanNode

open Params

/-! ### Eras -/

/-- The cut-off at 128 halvings changes nothing: the reward is gone by then. -/
theorem blockSubsidy_eq (j : Nat) : blockSubsidy j = blockReward >>> (j / halvingInterval) := by
  unfold blockSubsidy
  dsimp only
  split
  · rename_i h
    have hreward : blockReward < 2 ^ 128 := by decide
    rw [Nat.shiftRight_eq_div_pow, Nat.div_eq_of_lt]
    exact hreward.trans_le (Nat.pow_le_pow_right (by norm_num) h)
  · rfl

/-- Within one era the subsidy is the same. -/
theorem blockSubsidy_era {e i : Nat} (hi : i < halvingInterval) :
    blockSubsidy (e * halvingInterval + i) = blockReward >>> e := by
  have hpos : 0 < halvingInterval := by decide
  rw [blockSubsidy_eq, Nat.mul_comm, Nat.mul_add_div hpos, Nat.div_eq_of_lt hi, Nat.add_zero]

/-- What is issued before block `n`, block by block. -/
def scheduled (n : Nat) : Nat := ∑ j ∈ Finset.range n, blockSubsidy j

theorem scheduled_succ (n : Nat) : scheduled (n + 1) = scheduled n + blockSubsidy n :=
  Finset.sum_range_succ blockSubsidy n

theorem scheduled_mono : Monotone scheduled :=
  monotone_nat_of_le_succ fun n => scheduled_succ n ▸ Nat.le_add_right _ _

/-- A part of an era adds its number of blocks times the reward. -/
theorem scheduled_era {e i : Nat} (hi : i ≤ halvingInterval) :
    scheduled (e * halvingInterval + i) = scheduled (e * halvingInterval) + (blockReward >>> e) * i := by
  induction i with
  | zero => rw [Nat.mul_zero, Nat.add_zero, Nat.add_zero]
  | succ i ih =>
      rw [← Nat.add_assoc, scheduled_succ, ih (by omega), blockSubsidy_era (by omega), Nat.add_assoc, ← Nat.mul_succ]

/-- The whole eras before era `e`: a truncated geometric sum. -/
theorem scheduled_eras (e : Nat) :
    scheduled (e * halvingInterval) = (∑ i ∈ Finset.range e, blockReward / 2 ^ i) * halvingInterval := by
  induction e with
  | zero => simp [scheduled]
  | succ e ih =>
      rw [Finset.sum_range_succ, Nat.add_mul, Nat.add_mul, ← ih, Nat.one_mul, scheduled_era (le_refl _),
        Nat.shiftRight_eq_div_pow]

/-- **The schedule stays within the cap.** -/
theorem scheduled_le (n : Nat) : scheduled n ≤ maxSupply := by
  have hwhole : n ≤ n * halvingInterval := Nat.le_mul_of_pos_right n (by decide)
  have hsum : ∑ i ∈ Finset.range n, blockReward / 2 ^ i ≤ blockReward * 2 := by
    simpa using Nat.geom_sum_le (le_refl 2) blockReward n
  have hcap : blockReward * 2 * halvingInterval = maxSupply := by decide
  calc scheduled n ≤ scheduled (n * halvingInterval) := scheduled_mono hwhole
    _ = (∑ i ∈ Finset.range n, blockReward / 2 ^ i) * halvingInterval := scheduled_eras n
    _ ≤ blockReward * 2 * halvingInterval := Nat.mul_le_mul_right _ hsum
    _ = maxSupply := hcap

/-- Once the reward is gone nothing is added. -/
theorem scheduled_over {e : Nat} (he : blockReward >>> e = 0) (n : Nat) :
    scheduled (e * halvingInterval + n) = scheduled (e * halvingInterval) := by
  induction n with
  | zero => rw [Nat.add_zero]
  | succ n ih =>
      have hera : e ≤ (e * halvingInterval + n) / halvingInterval :=
        (Nat.le_div_iff_mul_le (by decide)).mpr (Nat.le_add_right _ _)
      have hgone : blockReward >>> ((e * halvingInterval + n) / halvingInterval) = 0 := by
        rw [Nat.shiftRight_eq_div_pow] at he ⊢
        exact Nat.eq_zero_of_le_zero (he ▸ Nat.div_le_div_left (Nat.pow_le_pow_right (by norm_num) hera) (by positivity))
      rw [← Nat.add_assoc, scheduled_succ, ih, blockSubsidy_eq, hgone, Nat.add_zero]

/-! ### The loop -/

/-- `issuanceLoop` where a saturation is a fault. -/
def issuanceLoopChecked : (fuel remaining reward total : Nat) → Checked Nat
  | 0, _, _, total => .ok total
  | fuel + 1, remaining, reward, total => do
    if remaining > 0 ∧ reward > 0 then
      let take := min remaining halvingInterval
      let mint ← Checked.fit u128Max (reward * take)
      let next ← Checked.fit u128Max (total + mint)
      issuanceLoopChecked fuel (remaining - take) (reward >>> 1) next
    else .ok total

/-- `cumulative_issuance` where a saturation is a fault, and so is a sum above the cap. -/
def issuanceChecked (upToBlue : Nat) : Checked Nat := do
  let total ← issuanceLoopChecked 128 upToBlue blockReward 0
  Checked.fit maxSupply total

/-- With no blocks left the loop ends. -/
theorem issuanceLoop_done (fuel reward total : Nat) :
    issuanceLoop fuel 0 reward total = total ∧ issuanceLoopChecked fuel 0 reward total = .ok total := by
  cases fuel with
  | zero => exact ⟨rfl, rfl⟩
  | succ fuel => exact ⟨if_neg fun h => Nat.lt_irrefl 0 h.1, if_neg fun h => Nat.lt_irrefl 0 h.1⟩

/-- A round of the loop while there are blocks left and a reward to pay. -/
theorem issuanceLoop_round {fuel remaining reward total : Nat} (hpays : remaining > 0 ∧ reward > 0) :
    issuanceLoop (fuel + 1) remaining reward total
      = issuanceLoop fuel (remaining - min remaining halvingInterval) (reward >>> 1)
          (satAdd128 total (satMul128 reward (min remaining halvingInterval))) := by
  rw [issuanceLoop]
  exact if_pos hpays

/-- The same round where nothing saturates. -/
theorem issuanceLoopChecked_round {fuel remaining reward total : Nat} (hpays : remaining > 0 ∧ reward > 0)
    (hmint : reward * min remaining halvingInterval ≤ u128Max)
    (hnext : total + reward * min remaining halvingInterval ≤ u128Max) :
    issuanceLoopChecked (fuel + 1) remaining reward total
      = issuanceLoopChecked fuel (remaining - min remaining halvingInterval) (reward >>> 1)
          (total + reward * min remaining halvingInterval) := by
  have hfit : ∀ {n}, n ≤ u128Max → Checked.fit u128Max n = .ok n := fun hn => if_pos hn
  rw [issuanceLoopChecked, if_pos hpays]
  simp only [hfit hmint, bind, Except.bind, hfit hnext]

/-- From the start of an era the loop adds what the schedule adds, and no operation
saturates. After 128 eras there is nothing left to add, so the loop is not cut short. -/
theorem issuanceLoop_spec {fuel e remaining : Nat} (hfuel : 128 ≤ fuel + e) :
    issuanceLoop fuel remaining (blockReward >>> e) (scheduled (e * halvingInterval))
        = scheduled (e * halvingInterval + remaining) ∧
      issuanceLoopChecked fuel remaining (blockReward >>> e) (scheduled (e * halvingInterval))
        = .ok (scheduled (e * halvingInterval + remaining)) := by
  induction fuel generalizing e remaining with
  | zero =>
      have hgone : blockReward >>> e = 0 := by
        rw [Nat.shiftRight_eq_div_pow, Nat.div_eq_of_lt]
        exact lt_of_lt_of_le (by decide : blockReward < 2 ^ 128) (Nat.pow_le_pow_right (by norm_num) (by omega))
      rw [scheduled_over hgone]
      exact ⟨rfl, rfl⟩
  | succ fuel ih =>
      by_cases hpays : remaining > 0 ∧ blockReward >>> e > 0
      · -- what this era adds is within the schedule, which is within the cap
        have htake := scheduled_era (e := e) (min_le_right remaining halvingInterval)
        have hcap := scheduled_le (e * halvingInterval + min remaining halvingInterval)
        have hwide : maxSupply ≤ u128Max := by decide
        have hmint : blockReward >>> e * min remaining halvingInterval ≤ u128Max := by omega
        have hnext : scheduled (e * halvingInterval) + blockReward >>> e * min remaining halvingInterval ≤ u128Max := by
          omega
        rw [issuanceLoop_round hpays, issuanceLoopChecked_round hpays hmint hnext, satMul128, min_eq_left hmint,
          satAdd128, min_eq_left hnext, ← htake, ← Nat.shiftRight_add]
        rcases Nat.lt_or_ge remaining halvingInterval with hlast | hwhole
        · rw [min_eq_left hlast.le, Nat.sub_self]
          exact issuanceLoop_done _ _ _
        · have hsum : (e + 1) * halvingInterval + (remaining - halvingInterval) = e * halvingInterval + remaining := by
            rw [Nat.add_mul, Nat.one_mul]
            omega
          have hera : e * halvingInterval + halvingInterval = (e + 1) * halvingInterval := by
            rw [Nat.add_mul, Nat.one_mul]
          rw [min_eq_right hwhole, hera, ← hsum]
          exact ih (by omega)
      · rw [issuanceLoop, issuanceLoopChecked, if_neg hpays, if_neg hpays]
        have hover : scheduled (e * halvingInterval + remaining) = scheduled (e * halvingInterval) := by
          rcases Nat.eq_zero_or_pos remaining with rfl | hpos
          · rw [Nat.add_zero]
          · exact scheduled_over (Nat.eq_zero_of_not_pos fun h => hpays ⟨hpos, h⟩) remaining
        rw [hover]
        exact ⟨rfl, rfl⟩

/-- **The closed form is the schedule**: for every number of blocks it is their
subsidies added up, it grows with the number of blocks and stays within the cap, and
neither the saturating operations nor the final `min` ever act. -/
theorem cumulativeIssuance_is_schedule (n : Nat) :
    cumulativeIssuance n = ∑ j ∈ Finset.range n, blockSubsidy j ∧
      (∀ m, n ≤ m → cumulativeIssuance n ≤ cumulativeIssuance m) ∧
      cumulativeIssuance n ≤ maxSupply ∧
      issuanceChecked n = .ok (cumulativeIssuance n) := by
  have hloop : ∀ n, issuanceLoop 128 n blockReward 0 = scheduled n ∧
      issuanceLoopChecked 128 n blockReward 0 = .ok (scheduled n) := by
    intro n
    have h := @issuanceLoop_spec 128 0 n (le_refl _)
    rwa [Nat.zero_mul, Nat.zero_add, Nat.shiftRight_zero] at h
  have hclosed : ∀ n, cumulativeIssuance n = scheduled n := by
    intro n
    rw [cumulativeIssuance, (hloop n).1, min_eq_left (scheduled_le n)]
  refine ⟨hclosed n, fun m hm => ?_, ?_, ?_⟩
  · rw [hclosed, hclosed]
    exact scheduled_mono hm
  · rw [hclosed]
    exact scheduled_le n
  · rw [issuanceChecked, (hloop n).2, hclosed]
    exact if_pos (scheduled_le n)

end HassanNode
