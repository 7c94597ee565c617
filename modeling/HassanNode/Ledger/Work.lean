import Mathlib
import HassanNode.Lib.BigEndian
import HassanNode.Ledger.Block

/-!
# HassanNode.Ledger.Work

Proof of work as `lib.rs` computes it, on bytes: the target of a difficulty, the
comparison of a hash with it, and the level of a hash that is luckier than its
difficulty asks for. Both are one product of numbers against `MAX_TARGET`
(`proof_of_work`).
-/

namespace HassanNode

/-- The digest with these 64 bytes. -/
def Hash.ofBytes (bs : Bytes) : Hash := Hash.ofNat bs.toNatBE

theorem Hash.toNatBE_asBytes (h : Hash) : h.asBytes.toNatBE = h.toNat := by
  rw [Hash.asBytes, Bytes.toNatBE_reverse, Bytes.toNatLE_ofNatLE, Nat.mod_eq_of_lt h.isLt]

theorem Hash.toNat_ofBytes {bs : Bytes} (hlen : bs.length = 64) : (Hash.ofBytes bs).toNat = bs.toNatBE := by
  have hlt := Bytes.toNatBE_lt bs
  rw [hlen] at hlt
  exact Nat.mod_eq_of_lt hlt

/-! ### Targets -/

/-- The bytes of `MAX_TARGET`. -/
def maxTargetBytes : Bytes := List.replicate 64 255

/-- `pow_target`: the quotient, written big-endian and copied into 64 bytes. -/
def powTarget (difficulty : UInt64) : Hash :=
  let max := maxTargetBytes.toNatBE
  let target := max / Max.max difficulty.toNat 1
  Hash.ofBytes (Bytes.padLeft 64 (Bytes.ofNatBE target))

/-- `hash_meets_target`: byte by byte, the first difference decides. -/
def hashMeetsTarget (hash target : Hash) : Bool := decide (hash.asBytes < target.asBytes)

theorem toNatBE_maxTargetBytes : maxTargetBytes.toNatBE = maxTarget := by decide +kernel

theorem powTarget_toNat (difficulty : UInt64) : (powTarget difficulty).toNat = maxTarget / max difficulty.toNat 1 := by
  have hle : maxTarget / max difficulty.toNat 1 ≤ maxTarget := Nat.div_le_self _ _
  have hmax : maxTarget < 256 ^ 64 := Nat.sub_lt (by positivity) Nat.one_pos
  rw [powTarget, Hash.toNat_ofBytes (Bytes.length_padLeft _ _), Bytes.toNatBE_padLeft, Bytes.toNatBE_ofNatBE,
    toNatBE_maxTargetBytes, Nat.mod_eq_of_lt (by omega)]

theorem hashMeetsTarget_iff (hash target : Hash) : hashMeetsTarget hash target = true ↔ hash.toNat < target.toNat := by
  rw [hashMeetsTarget, decide_eq_true_iff, Bytes.lt_iff_toNatBE_lt (by simp), Hash.toNatBE_asBytes,
    Hash.toNatBE_asBytes]

/-- `verify_pow` is the comparison with the target. -/
theorem verifyPow_eq (hash : Hash) (difficulty : UInt64) :
    verifyPow hash difficulty = hashMeetsTarget hash (powTarget difficulty) := by
  rw [Bool.eq_iff_iff, hashMeetsTarget_iff, powTarget_toNat, verifyPow, decide_eq_true_iff]

/-- A quotient as a product. -/
theorem verifyPow_iff (hash : Hash) (difficulty : UInt64) :
    verifyPow hash difficulty = true ↔ (hash.toNat + 1) * max difficulty.toNat 1 ≤ maxTarget := by
  rw [verifyPow, decide_eq_true_iff, Nat.lt_iff_add_one_le, Nat.le_div_iff_mul_le (by omega)]

theorem verifyPow_antitone {hash : Hash} {d d' : UInt64} (hle : d ≤ d') (h : verifyPow hash d' = true) :
    verifyPow hash d = true := by
  rw [verifyPow_iff] at h ⊢
  have hle' : max d.toNat 1 ≤ max d'.toNat 1 := max_le_max_right 1 (UInt64.le_iff_toNat_le.mp hle)
  exact (Nat.mul_le_mul_left _ hle').trans h

/-! ### Levels -/

/-- `superblock_level` on the bytes, with the bit length of the ratio. -/
theorem superblockLevel_bytes (hash : Hash) (difficulty : UInt64) : superblockLevel hash difficulty =
    if hash.asBytes.toNatBE = 0 then 63
    else
      let achieved := maxTargetBytes.toNatBE / hash.asBytes.toNatBE
      let required := max difficulty.toNat 1
      if achieved ≤ required then 0 else min (Nat.size (achieved / required) - 1) 63 := by
  rw [superblockLevel, Hash.toNatBE_asBytes, toNatBE_maxTargetBytes]
  split
  · rfl
  · dsimp only
    split
    · rfl
    · rename_i h
      have hpos : maxTarget / hash.toNat / max difficulty.toNat 1 ≠ 0 :=
        (Nat.div_pos (Nat.le_of_lt (Nat.not_le.mp h)) (by omega)).ne'
      -- the bit length is one more than the logarithm
      have hsize : Nat.size (maxTarget / hash.toNat / max difficulty.toNat 1)
          = Nat.log2 (maxTarget / hash.toNat / max difficulty.toNat 1) + 1 := by
        refine le_antisymm (Nat.size_le.mpr ?_) (Nat.lt_size.mpr ?_)
        · exact (Nat.log2_lt hpos).mp (Nat.lt_succ_self _)
        · exact (Nat.le_log2 hpos).mp (le_refl _)
      rw [hsize, Nat.add_sub_cancel]

/-- The hash does `2 ^ L` times better than its difficulty asks for. -/
def Reaches (hash : Hash) (difficulty : UInt64) (L : Nat) : Prop :=
  hash.toNat * max difficulty.toNat 1 * 2 ^ L ≤ maxTarget

theorem reaches_iff {hash : Hash} {difficulty : UInt64} {L : Nat} (hpos : 0 < hash.toNat) :
    Reaches hash difficulty L ↔ 2 ^ L ≤ maxTarget / hash.toNat / max difficulty.toNat 1 := by
  have hrequired : 0 < max difficulty.toNat 1 := by omega
  rw [Nat.div_div_eq_div_mul, Nat.le_div_iff_mul_le (Nat.mul_pos hpos hrequired), Reaches, Nat.mul_comm (2 ^ L)]

/-- **The level is the greatest one the hash reaches**, up to 63. -/
theorem superblockLevel_spec {hash : Hash} {difficulty : UInt64} (hpos : 0 < hash.toNat) :
    (∀ L ≤ 63, Reaches hash difficulty L → L ≤ superblockLevel hash difficulty) ∧
      superblockLevel hash difficulty ≤ 63 ∧
      (superblockLevel hash difficulty = 0 ∨ Reaches hash difficulty (superblockLevel hash difficulty)) := by
  have hrequired : 0 < max difficulty.toNat 1 := by omega
  rw [superblockLevel, if_neg hpos.ne']
  dsimp only
  split
  · rename_i hle
    refine ⟨fun L _ hreach => ?_, Nat.zero_le _, Or.inl rfl⟩
    -- a ratio of at most one
    rw [reaches_iff hpos] at hreach
    have hone : maxTarget / hash.toNat / max difficulty.toNat 1 ≤ 1 :=
      Nat.div_le_of_le_mul (by omega)
    exact Nat.le_of_lt_succ ((Nat.lt_pow_self (by norm_num)).trans_le (hreach.trans hone) |>.trans_le (by omega))
  · rename_i hlt
    have hne : maxTarget / hash.toNat / max difficulty.toNat 1 ≠ 0 :=
      (Nat.div_pos (Nat.le_of_lt (Nat.not_le.mp hlt)) hrequired).ne'
    refine ⟨fun L hL hreach => ?_, min_le_right _ _, Or.inr ?_⟩
    · exact le_min ((Nat.le_log2 hne).mpr ((reaches_iff hpos).mp hreach)) hL
    · exact (reaches_iff hpos).mpr ((Nat.le_log2 hne).mp (min_le_left _ _))

end HassanNode
