import Mathlib
import HassanNode.Consensus.Values
import HassanNode.Consensus.SuperProofSound

/-!
# HassanNode.Consensus.Difficulty

The ranges of the difficulty rules of `lib.rs`. The rule for the next block stays
within a quarter of the selected parent's difficulty and above the era floor, on any
chain state and whatever the window holds (`expected_difficulty_bounded`). Its two
helpers compute in 128 bits and cast to 64 at the end: the bounds for an omitted hop
and the retarget formula are well formed exactly when the cast drops nothing, or when
the floor hides it (`difficulty_ranges_iff`).
-/

namespace HassanNode

open Std (ExtTreeMap)
open Params

/-! ### A quarter up -/

/-- The upper clamp: a quarter more, at least one more. -/
def quarterUp (x : Nat) : Nat := max (x * 5 / 4) (x + 1)

/-- The lower clamp: a quarter less, at least the floor. -/
def quarterDown (floor x : Nat) : Nat := max (x * 3 / 4) floor

theorem lt_quarterUp (x : Nat) : x < quarterUp x := lt_max_of_lt_right (Nat.lt_succ_self x)

theorem quarterUp_iterate_mono (base : Nat) : Monotone fun k => quarterUp^[k] base :=
  monotone_nat_of_le_succ fun k => by
    rw [Function.iterate_succ_apply']
    exact (lt_quarterUp _).le

/-- One step past the 64-bit range lands below where it started. -/
theorem quarterUp_wraps {x : Nat} (hx : x < 2 ^ 64) (hwide : 2 ^ 64 ≤ quarterUp x) : quarterUp x % 2 ^ 64 < x := by
  have hstep : quarterUp x - 2 ^ 64 < x ∧ quarterUp x < 2 * 2 ^ 64 := by
    unfold quarterUp at hwide ⊢
    omega
  rw [Nat.mod_eq_sub_mod hwide, Nat.mod_eq_of_lt (by omega)]
  exact hstep.1

theorem quarterDown_iterate (floor k : Nat) {base : Nat} (hbase : floor ≤ base) :
    floor ≤ (quarterDown floor)^[k] base ∧ (quarterDown floor)^[k] base ≤ base := by
  induction k with
  | zero => exact ⟨hbase, le_refl _⟩
  | succ k ih =>
      rw [Function.iterate_succ_apply', quarterDown]
      omega

/-! ### Bounds for an omitted hop -/

/-- How often the bounds of a hop are widened. -/
def hopWindows (heightGap : Nat) : Nat := min ((heightGap - 1) / daaWindow + 1) 64

/-- **The bounds of a hop**, before and after the cast. -/
theorem hopDifficultyBounds_eq {olderDiff heightGap floor : Nat} (hdiff : olderDiff < 2 ^ 64)
    (hfloor : floor < 2 ^ 64) : hopDifficultyBounds olderDiff heightGap floor
      = .ok ((quarterDown floor)^[hopWindows heightGap] (max olderDiff floor),
          quarterUp^[hopWindows heightGap] (max olderDiff floor) % 2 ^ 64) := by
  have hbase : max olderDiff floor < 2 ^ 64 := by omega
  have hlen : ∀ {done rest : List Nat} {w : Nat},
      List.range (hopWindows heightGap) = done ++ w :: rest → done.length < 64 := by
    intro done rest w hxs
    have hcount := congrArg List.length hxs
    simp only [List.length_range, List.length_append, List.length_cons, hopWindows] at hcount
    omega
  -- each window widens both bounds once
  have hloop : Checked.Runs (Checked.loop (widenBounds floor) (max olderDiff floor, max olderDiff floor)
      (List.range (hopWindows heightGap))) fun b =>
      BoundsFit (max olderDiff floor) floor (List.range (hopWindows heightGap)).length b ∧
        b = ((quarterDown floor)^[(List.range (hopWindows heightGap)).length] (max olderDiff floor),
          quarterUp^[(List.range (hopWindows heightGap)).length] (max olderDiff floor)) := by
    refine @Checked.Runs.loop _ _ _ (fun done b => BoundsFit (max olderDiff floor) floor done.length b ∧
      b = ((quarterDown floor)^[done.length] (max olderDiff floor), quarterUp^[done.length] (max olderDiff floor)))
      _ _ ⟨⟨le_max_left _ _, by simp, le_refl _⟩, rfl⟩ ?_
    rintro done w rest b hxs ⟨hb, rfl⟩
    rw [List.length_append, List.length_singleton]
    refine ⟨_, widenBounds_eq (hlen hxs).le hbase hfloor hb, hb.widen, ?_⟩
    rw [Function.iterate_succ_apply', Function.iterate_succ_apply']
    rfl
  obtain ⟨b, hrun, -, rfl⟩ := hloop
  rw [List.length_range] at hrun
  have hlow := quarterDown_iterate floor (hopWindows heightGap) (le_max_right olderDiff floor)
  unfold hopDifficultyBounds
  change (Checked.loop (widenBounds floor) _ (List.range (hopWindows heightGap)) >>= _) = _
  rw [hrun]
  change Except.ok (max (_ % 2 ^ 64) floor, _) = _
  rw [Nat.mod_eq_of_lt (by omega), max_eq_left hlow.1]

theorem hopWindows_mono : Monotone hopWindows := fun g g' h => by
  have hdiv : (g - 1) / daaWindow ≤ (g' - 1) / daaWindow := Nat.div_le_div_right (Nat.sub_le_sub_right h 1)
  unfold hopWindows
  omega

/-- A gap of just so many windows. -/
theorem hopWindows_gap {k : Nat} (hk : k < 64) : hopWindows (k * daaWindow + 1) = k + 1 := by
  rw [hopWindows, Nat.add_sub_cancel, Nat.mul_div_cancel k (by decide)]
  omega

/-- Well-formed bounds for all gaps up to `limit`: around the older difficulty, above
the floor, and the upper one no smaller for a larger gap. -/
structure HopBoundsFormed (olderDiff floor limit : UInt64) : Prop where
  around : ∀ gap ≤ limit, ∃ lo hi, hopDifficultyBounds olderDiff.toNat gap.toNat floor.toNat = .ok (lo, hi) ∧
    floor.toNat ≤ lo ∧ lo ≤ max olderDiff.toNat floor.toNat ∧ max olderDiff.toNat floor.toNat ≤ hi
  grows : ∀ gap gap' : UInt64, gap ≤ gap' → gap' ≤ limit → ∀ lo hi lo' hi',
    hopDifficultyBounds olderDiff.toNat gap.toNat floor.toNat = .ok (lo, hi) →
    hopDifficultyBounds olderDiff.toNat gap'.toNat floor.toNat = .ok (lo', hi') → hi ≤ hi'

/-- The upper bound fits without the cast. -/
def HopBoundFits (olderDiff floor limit : UInt64) : Prop :=
  quarterUp^[hopWindows limit.toNat] (max olderDiff.toNat floor.toNat) < 2 ^ 64

/-- **The bounds of a hop are well formed up to a gap exactly when the upper one fits
there.** The first window that leaves the range wraps around to less than the bound
of the window before. -/
theorem hopBoundsFormed_iff (olderDiff floor limit : UInt64) :
    HopBoundsFormed olderDiff floor limit ↔ HopBoundFits olderDiff floor limit := by
  have hbase : max olderDiff.toNat floor.toNat < 2 ^ 64 := max_lt olderDiff.toNat_lt floor.toNat_lt
  have heq : ∀ gap : UInt64, hopDifficultyBounds olderDiff.toNat gap.toNat floor.toNat = _ :=
    fun gap => hopDifficultyBounds_eq olderDiff.toNat_lt floor.toNat_lt
  have hmono := quarterUp_iterate_mono (max olderDiff.toNat floor.toNat)
  constructor
  · intro h
    by_contra hwide
    rw [HopBoundFits, Nat.not_lt] at hwide
    -- the first number of windows that leaves the range
    obtain ⟨k, hk, hbefore, hafter⟩ : ∃ k, k + 1 ≤ hopWindows limit.toNat ∧
        quarterUp^[k] (max olderDiff.toNat floor.toNat) < 2 ^ 64 ∧
        2 ^ 64 ≤ quarterUp^[k + 1] (max olderDiff.toNat floor.toNat) := by
      have hexists : ∃ k, 2 ^ 64 ≤ quarterUp^[k] (max olderDiff.toNat floor.toNat) := ⟨_, hwide⟩
      have hfirst := Nat.find_spec hexists
      have hleast := Nat.find_min' hexists hwide
      have hsmaller := fun k => @Nat.find_min _ _ hexists k
      generalize Nat.find hexists = j at *
      cases j with
      | zero => exact absurd hfirst (by simpa using hbase)
      | succ k => exact ⟨k, hleast, Nat.not_le.mp (hsmaller k (Nat.lt_succ_self k)), hfirst⟩
    have hwraps := quarterUp_wraps hbefore (by rwa [← Function.iterate_succ_apply' quarterUp])
    rw [← Function.iterate_succ_apply' quarterUp] at hwraps
    cases k with
    | zero =>
        -- already the first window: below the older difficulty
        obtain ⟨lo, hi, hrun, -, -, hle⟩ := h.around 0 UInt64.zero_le
        rw [heq 0] at hrun
        obtain ⟨-, rfl⟩ := Prod.mk.inj (Except.ok.inj hrun)
        exact absurd hle (Nat.not_le.mpr hwraps)
    | succ j =>
        have hlimit := limit.toNat_lt
        have hroom : (j + 1) * daaWindow + 1 ≤ limit.toNat ∧ j + 1 < 64 := by
          have hdiv : j + 1 ≤ (limit.toNat - 1) / daaWindow := by
            unfold hopWindows at hk
            omega
          have hmul := (Nat.le_div_iff_mul_le (by decide)).mp hdiv
          have hpos : 0 < (j + 1) * daaWindow := Nat.mul_pos (Nat.succ_pos j) (by decide)
          unfold hopWindows at hk
          omega
        have hstep : j * daaWindow + 1 ≤ (j + 1) * daaWindow + 1 := by
          rw [Nat.add_mul]
          omega
        have hgap : (UInt64.ofNat (j * daaWindow + 1)).toNat = j * daaWindow + 1 := by
          rw [UInt64.toNat_ofNat', Nat.mod_eq_of_lt (by omega)]
        have hgap' : (UInt64.ofNat ((j + 1) * daaWindow + 1)).toNat = (j + 1) * daaWindow + 1 := by
          rw [UInt64.toNat_ofNat', Nat.mod_eq_of_lt (by omega)]
        have hgrows := h.grows (UInt64.ofNat (j * daaWindow + 1)) (UInt64.ofNat ((j + 1) * daaWindow + 1))
          (by rw [UInt64.le_iff_toNat_le, hgap, hgap']; exact hstep)
          (by rw [UInt64.le_iff_toNat_le, hgap']; exact hroom.1) _ _ _ _ (heq _) (heq _)
        rw [hgap, hgap', hopWindows_gap (by omega), hopWindows_gap hroom.2, Nat.mod_eq_of_lt hbefore] at hgrows
        exact absurd hgrows (Nat.not_le.mpr hwraps)
  · intro hfits
    have hunder : ∀ gap ≤ limit, quarterUp^[hopWindows gap.toNat] (max olderDiff.toNat floor.toNat) < 2 ^ 64 :=
      fun gap hgap => (hmono (hopWindows_mono (UInt64.le_iff_toNat_le.mp hgap))).trans_lt hfits
    refine ⟨fun gap hgap => ⟨_, _, heq gap, ?_⟩, fun gap gap' hle hgap' lo hi lo' hi' h h' => ?_⟩
    · rw [Nat.mod_eq_of_lt (hunder gap hgap)]
      have hdown := quarterDown_iterate floor.toNat (hopWindows gap.toNat) (le_max_right olderDiff.toNat floor.toNat)
      exact ⟨hdown.1, hdown.2, hmono (Nat.zero_le (hopWindows gap.toNat))⟩
    · rw [heq] at h h'
      obtain ⟨-, rfl⟩ := Prod.mk.inj (Except.ok.inj h)
      obtain ⟨-, rfl⟩ := Prod.mk.inj (Except.ok.inj h')
      rw [Nat.mod_eq_of_lt (hunder gap (UInt64.le_trans hle hgap')), Nat.mod_eq_of_lt (hunder gap' hgap')]
      exact hmono (hopWindows_mono (UInt64.le_iff_toNat_le.mp hle))

/-! ### The retarget formula -/

/-- The window's rate: the difficulty at which it would have taken its time. -/
def windowRate (base newestTs oldestTs : Nat) : Nat :=
  base * (daaWindow * targetBlockTimeMs) / max (newestTs - oldestTs) 1

/-- `retarget_difficulty` before the cast. -/
theorem retargetDifficulty_eq {base newestTs oldestTs floor : Nat} (hbase : base < 2 ^ 64) (hfloor : floor < 2 ^ 64) :
    ChainState.retargetDifficulty base newestTs oldestTs floor =
      max (max (quarterDown floor (max base floor))
        (min (quarterUp (max base floor)) (windowRate (max base floor) newestTs oldestTs)) % 2 ^ 64) floor := by
  have hwide : max base floor * (daaWindow * targetBlockTimeMs) ≤ u128Max := by
    have hspan : daaWindow * targetBlockTimeMs ≤ 2 ^ 32 := by decide
    calc max base floor * (daaWindow * targetBlockTimeMs) ≤ 2 ^ 64 * 2 ^ 32 :=
          Nat.mul_le_mul (max_lt hbase hfloor).le hspan
      _ ≤ u128Max := by decide
  simp only [ChainState.retargetDifficulty, satMul128, min_eq_left hwide]
  rfl

/-- The result is between the clamps, as far as 64 bits go. -/
def RetargetFormed (base floor d : Nat) : Prop :=
  quarterDown floor (max base floor) ≤ d ∧ d ≤ min (quarterUp (max base floor)) (2 ^ 64 - 1)

/-- The clamped value fits without the cast, or the floor is high enough to hide what
the cast leaves. -/
def RetargetFits (base newestTs oldestTs floor : Nat) : Prop :=
  min (quarterUp (max base floor)) (windowRate (max base floor) newestTs oldestTs) < 2 ^ 64 ∨
    max base floor * 3 / 4 ≤ floor

/-- A clamped value past the 64-bit range leaves less than three quarters of the base. -/
theorem clamp_wraps {floor b clamped : Nat} (hfloor : floor < 2 ^ 64) (hb : b < 2 ^ 64) (hup : clamped ≤ quarterUp b) (hwide : 2 ^ 64 ≤ clamped) :
    clamped < 2 * 2 ^ 64 ∧ clamped - 2 ^ 64 < b * 3 / 4 ∧ quarterDown floor b < 2 ^ 64 := by
  unfold quarterUp at hup
  unfold quarterDown
  have hlarge : 2 ^ 63 ≤ b := by omega
  exact ⟨by omega, by omega, by omega⟩

/-- **The retarget formula is well formed exactly when its clamped value fits**, or
the floor is above the lower clamp anyway. -/
theorem retargetFormed_iff {base newestTs oldestTs floor : Nat} (hbase : base < 2 ^ 64) (hfloor : floor < 2 ^ 64) :
    RetargetFormed base floor (ChainState.retargetDifficulty base newestTs oldestTs floor) ↔
      RetargetFits base newestTs oldestTs floor := by
  have hle : floor ≤ max base floor := le_max_right base floor
  have hlt : max base floor < 2 ^ 64 := max_lt hbase hfloor
  rw [retargetDifficulty_eq hbase hfloor, RetargetFormed, RetargetFits]
  generalize max base floor = b at *
  generalize windowRate b newestTs oldestTs = rate
  rcases Nat.lt_or_ge (min (quarterUp b) rate) (2 ^ 64) with hfits | hwide
  · -- the cast drops nothing
    have hin : quarterDown floor b ≤ b ∧ b < quarterUp b := ⟨by unfold quarterDown; omega, lt_quarterUp b⟩
    have hkeep : max (quarterDown floor b) (min (quarterUp b) rate) < 2 ^ 64 := max_lt (by omega) hfits
    have hover : floor ≤ quarterDown floor b := le_max_right _ _
    rw [Nat.mod_eq_of_lt hkeep, max_eq_left (hover.trans (le_max_left _ _))]
    exact ⟨fun _ => Or.inl hfits, fun _ => ⟨le_max_left _ _, by omega⟩⟩
  · -- what the cast leaves is below three quarters
    obtain ⟨htwice, hleft, hdown⟩ := clamp_wraps hfloor hlt (min_le_left _ rate) hwide
    have hclamp : max (quarterDown floor b) (min (quarterUp b) rate) = min (quarterUp b) rate :=
      max_eq_right (hdown.le.trans hwide)
    rw [hclamp, Nat.mod_eq_sub_mod hwide, Nat.mod_eq_of_lt (by omega)]
    generalize min (quarterUp b) rate = clamped at *
    constructor
    · rintro ⟨hlow, -⟩
      have hthree : b * 3 / 4 ≤ quarterDown floor b := le_max_left _ _
      exact Or.inr (by omega)
    · intro h
      have hfree := h.resolve_left (Nat.not_lt.mpr hwide)
      have hsame : max (clamped - 2 ^ 64) floor = floor := max_eq_right (by omega)
      rw [hsame]
      exact ⟨max_le hfree (le_refl floor), le_min (hle.trans (lt_quarterUp b).le) (Nat.le_sub_one_of_lt hfloor)⟩

/-- **The ranges of the two helpers**, for all 64-bit arguments. Neither panics; the
bounds of a hop are well formed up to a gap exactly when the upper one fits 64 bits
there; the retargeted difficulty is in range exactly when its clamped value fits or
the floor is at least three quarters of the base. -/
theorem difficulty_ranges_iff (olderDiff hopFloor limit base newestTs oldestTs floor : UInt64) :
    (HopBoundsFormed olderDiff hopFloor limit ↔ HopBoundFits olderDiff hopFloor limit) ∧
      ∃ d, retargetChecked base.toNat newestTs.toNat oldestTs.toNat floor.toNat = .ok d ∧
        (RetargetFormed base.toNat floor.toNat d ↔
          RetargetFits base.toNat newestTs.toNat oldestTs.toNat floor.toNat) :=
  ⟨hopBoundsFormed_iff olderDiff hopFloor limit,
    ⟨_, retargetChecked_eq _ _ _ _, retargetFormed_iff base.toNat_lt floor.toNat_lt⟩⟩

/-- At the top of the range the upper bound of a hop is below the older difficulty. -/
theorem ranges_wrap : ¬ ((∀ olderDiff floor : UInt64, HopBoundsFormed olderDiff floor 18446744073709551615) ∧
    ∀ base newestTs oldestTs floor : UInt64, RetargetFormed base.toNat floor.toNat
      (ChainState.retargetDifficulty base.toNat newestTs.toNat oldestTs.toNat floor.toNat)) := by
  intro h
  obtain ⟨lo, hi, hrun, -, -, hle⟩ := (h.1 18446744073709551615 0).around 1 (by decide +kernel)
  have hwindow : hopWindows (1 : UInt64).toNat = 1 := by decide
  rw [hopDifficultyBounds_eq (UInt64.toNat_lt _) (UInt64.toNat_lt _), hwindow, Function.iterate_one,
    Function.iterate_one] at hrun
  obtain ⟨-, rfl⟩ := Prod.mk.inj (Except.ok.inj hrun)
  have hwraps : quarterUp (max 18446744073709551615 0) % 2 ^ 64 < max 18446744073709551615 0 :=
    quarterUp_wraps (by norm_num) (by norm_num [quarterUp])
  exact absurd hle (Nat.not_le.mpr hwraps)

/-! ### The rule for the next block -/

/-- A clamp, which panics on crossed bounds. -/
def clampChecked (low high x : Nat) : Checked Nat :=
  if low ≤ high then .ok (max low (min high x)) else .error .panicked

/-- A quotient, which panics on a zero divisor. -/
def divChecked (x y : Nat) : Checked Nat := if y = 0 then .error .panicked else .ok (x / y)

/-- The full-window branch of `expected_difficulty_at`. -/
def windowDifficultyChecked (samples : List (Nat × Nat)) (spDifficulty floor : Nat) : Checked Nat := do
  let newest := ((samples.map Prod.fst).max?).getD 0
  let oldest := ((samples.map Prod.fst).min?).getD 0
  let work ← Checked.loop (fun work diff => Checked.fit u128Max (work + diff)) 0 (samples.map Prod.snd)
  let avg ← divChecked work samples.length
  let scaled ← retargetChecked (max (avg % 2 ^ 64) floor) newest oldest floor
  let wide ← Checked.fit u128Max (spDifficulty * 5)
  let next ← Checked.fit u128Max (spDifficulty + 1)
  let narrow ← Checked.fit u128Max (spDifficulty * 3)
  let clamped ← clampChecked (max (narrow / 4) floor) (max (wide / 4) next) scaled
  return clamped % 2 ^ 64

namespace ChainState

variable {st : ChainState}

/-- The difficulty of the selected parent, as the rule takes it. -/
def selectedDifficulty (st : ChainState) (easy : Bool) (floor : Nat) (sp : Hash) : Nat :=
  max ((st.dag[sp]?.map (·.difficulty.toNat)).getD (effectiveMinDifficulty easy)) floor

/-- `expected_difficulty_at` with every operation that could panic, and a walk of at
most `steps` blocks along the selected chain. -/
def expectedDifficultyChecked (st : ChainState) (easy : Bool) (steps : Nat) (parents : List Hash)
    (timestampMs : Nat) : Checked Nat := do
  let floor := eraMinDifficulty easy st.live.mintedSupply timestampMs
  match st.ghostdag.selectParent parents with
  | none => return floor
  | some sp =>
    let spDifficulty := st.selectedDifficulty easy floor sp
    let samples := (st.daaWalk steps sp ([], ∅)).1
    let daa ← if samples.length < daaWindow then pure spDifficulty
      else windowDifficultyChecked samples spDifficulty floor
    return max daa floor

/-! ### The samples -/

/-- What sampling a block keeps, the whole walk keeps. -/
theorem daaWalk_keeps {I : DaaSamples → Prop} (hadd : ∀ acc blue, I acc → I (st.addSample acc blue))
    (fuel : Nat) (h : Hash) {acc : DaaSamples} (hacc : I acc) : I (st.daaWalk fuel h acc) := by
  have hblues : ∀ (blues : List Hash) {acc}, I acc → I (blues.foldl st.addSample acc) := by
    intro blues
    induction blues with
    | nil => exact id
    | cons blue blues ih => exact fun hacc => ih (hadd _ blue hacc)
  induction fuel generalizing h acc with
  | zero => exact hacc
  | succ fuel ih =>
      rw [daaWalk]
      split
      · exact hacc
      · split
        · exact hacc
        · rename_i gd _
          have hsolo : I (if gd.mergesetBlues.isEmpty then st.addSample (gd.mergesetBlues.foldl st.addSample acc) h
              else gd.mergesetBlues.foldl st.addSample acc) := by
            split
            · exact hadd _ h (hblues _ hacc)
            · exact hblues _ hacc
          dsimp only
          split
          · exact hsolo
          · exact ih _ hsolo

/-- A window of 64-bit difficulties. -/
def WindowFits (acc : DaaSamples) : Prop := acc.1.length ≤ daaWindow ∧ ∀ s ∈ acc.1, s.2 < 2 ^ 64

theorem WindowFits.addSample (acc : DaaSamples) (blue : Hash) (h : WindowFits acc) :
    WindowFits (st.addSample acc blue) := by
  unfold ChainState.addSample
  split
  · exact h
  · rename_i hroom
    have hlen : acc.1.length < daaWindow := by
      rw [Bool.or_eq_true, not_or, decide_eq_true_iff] at hroom
      exact Nat.not_le.mp hroom.1
    split
    · exact h
    · rename_i b _
      refine ⟨by rwa [List.length_append, List.length_singleton], fun s hs => ?_⟩
      obtain hs | hs := List.mem_append.mp hs
      · exact h.2 s hs
      · rw [List.mem_singleton.mp hs]
        exact max_lt b.difficulty.toNat_lt (by norm_num)

theorem windowFits_daaWalk (steps : Nat) (sp : Hash) : WindowFits (st.daaWalk steps sp ([], ∅)) :=
  daaWalk_keeps WindowFits.addSample steps sp ⟨Nat.zero_le _, fun _ hs => absurd hs List.not_mem_nil⟩

/-- Steps beyond the score change nothing: the walk has ended by then. -/
theorem daaWalk_stable (hd : st.ghostdag.Descends) {fuel fuel' : Nat} {h : Hash} {acc : DaaSamples}
    (hf : st.ghostdag.scoreOf h < fuel) (hf' : st.ghostdag.scoreOf h < fuel') :
    st.daaWalk fuel h acc = st.daaWalk fuel' h acc := by
  induction fuel generalizing fuel' h acc with
  | zero => exact absurd hf (Nat.not_lt_zero _)
  | succ fuel ih =>
      obtain ⟨fuel', rfl⟩ := Nat.exists_eq_succ_of_ne_zero (by omega : fuel' ≠ 0)
      rw [daaWalk, daaWalk]
      cases hgd : st.ghostdag[h]? with
      | none => rfl
      | some gd =>
          cases hp : gd.selectedParent with
          | none => simp only [hp]
          | some p =>
              have hlt := hd h gd p hgd hp
              have hrest := fun acc => @ih fuel' p acc (by omega) (by omega)
              simp only [hp, hrest]

end ChainState

/-- A sum of 64-bit numbers, at most a window of them, is a 128-bit one. -/
theorem sumChecked_eq {xs : List Nat} (hlen : xs.length ≤ daaWindow) (hxs : ∀ x ∈ xs, x < 2 ^ 64) :
    Checked.loop (fun work diff => Checked.fit u128Max (work + diff)) 0 xs = .ok xs.sum := by
  obtain ⟨total, hrun, rfl⟩ := @Checked.Runs.loop _ _ (fun work diff => Checked.fit u128Max (work + diff))
    (fun done work => work = done.sum) 0 xs rfl (by
      rintro done x rest work rfl rfl
      have hpart : (done ++ [x]).sum ≤ (done ++ [x]).length • 2 ^ 64 :=
        List.sum_le_card_nsmul _ _ fun y hy => (hxs y (by
          rw [List.append_cons]
          exact List.mem_append_left rest hy)).le
      have hshort : (done ++ [x]).length ≤ daaWindow := by
        refine le_trans ?_ hlen
        rw [List.append_cons done x rest, @List.length_append _ (done ++ [x]) rest]
        exact Nat.le_add_right _ _
      have hfit : (done ++ [x]).sum ≤ u128Max := by
        refine hpart.trans ?_
        rw [smul_eq_mul]
        exact (Nat.mul_le_mul_right _ hshort).trans (by decide)
      rw [List.sum_append, List.sum_singleton] at hfit ⊢
      exact Checked.Runs.fit hfit)
  exact hrun

/-- The full-window branch runs, and its value is between the clamps. -/
theorem windowDifficultyChecked_eq {samples : List (Nat × Nat)} {spDifficulty floor : Nat}
    (hfull : ¬ samples.length < daaWindow) (hlen : samples.length ≤ daaWindow) (hsamples : ∀ s ∈ samples, s.2 < 2 ^ 64)
    (hsp : spDifficulty < 2 ^ 64) (hfloor : floor ≤ spDifficulty) :
    windowDifficultyChecked samples spDifficulty floor
      = .ok (max (quarterDown floor spDifficulty) (min (quarterUp spDifficulty)
          (ChainState.retargetDifficulty (max ((samples.map Prod.snd).sum / samples.length % 2 ^ 64) floor)
            (((samples.map Prod.fst).max?).getD 0) (((samples.map Prod.fst).min?).getD 0) floor)) % 2 ^ 64) := by
  have hsum : Checked.loop (fun work diff => Checked.fit u128Max (work + diff)) 0 (samples.map Prod.snd)
      = .ok (samples.map Prod.snd).sum := by
    refine sumChecked_eq (by rwa [List.length_map]) fun x hx => ?_
    obtain ⟨s, hs, rfl⟩ := List.mem_map.mp hx
    exact hsamples s hs
  have hne : samples.length ≠ 0 := by
    intro h
    rw [h] at hfull
    exact hfull (by decide)
  have hcross : max (spDifficulty * 3 / 4) floor ≤ max (spDifficulty * 5 / 4) (spDifficulty + 1) := by omega
  have hfit : ∀ {n}, n ≤ 2 ^ 64 * 5 → Checked.fit u128Max n = .ok n :=
    fun h => if_pos (h.trans (by decide))
  unfold windowDifficultyChecked divChecked clampChecked
  simp only [hsum, bind, Except.bind, if_neg hne, retargetChecked_eq, pure, Except.pure,
    hfit (show spDifficulty * 5 ≤ 2 ^ 64 * 5 by omega), hfit (show spDifficulty + 1 ≤ 2 ^ 64 * 5 by omega),
    hfit (show spDifficulty * 3 ≤ 2 ^ 64 * 5 by omega), if_pos hcross]
  rfl

/-! ### The bounds -/

/-- The result of the rule against the floor and the selected parent's difficulty. -/
structure DifficultyBounded (floor spDifficulty d : Nat) : Prop where
  floor_le : floor ≤ d
  down_le : quarterDown floor spDifficulty ≤ d
  le_up : d ≤ quarterUp spDifficulty
  lt : d < 2 ^ 64

/-- A difficulty between the clamps keeps its bounds through the last cast. -/
theorem DifficultyBounded.clamped {floor spDifficulty scaled : Nat} (hfloor : floor ≤ spDifficulty)
    (hsp : spDifficulty < 2 ^ 64) (hscaled : scaled < 2 ^ 64) : DifficultyBounded floor spDifficulty
      (max (max (quarterDown floor spDifficulty) (min (quarterUp spDifficulty) scaled) % 2 ^ 64) floor) := by
  have hdown : quarterDown floor spDifficulty ≤ spDifficulty := by
    unfold quarterDown
    omega
  have hover : floor ≤ quarterDown floor spDifficulty := le_max_right _ _
  have hup := lt_quarterUp spDifficulty
  have hfits : max (quarterDown floor spDifficulty) (min (quarterUp spDifficulty) scaled) < 2 ^ 64 :=
    max_lt (hdown.trans_lt hsp) ((min_le_right _ _).trans_lt hscaled)
  rw [Nat.mod_eq_of_lt hfits, max_eq_left (hover.trans (le_max_left _ _))]
  exact ⟨hover.trans (le_max_left _ _), le_max_left _ _, max_le (hdown.trans hup.le) (min_le_left _ _), hfits⟩

theorem retargetDifficulty_lt {floor : Nat} (hfloor : floor < 2 ^ 64) (base newestTs oldestTs : Nat) :
    ChainState.retargetDifficulty base newestTs oldestTs floor < 2 ^ 64 :=
  max_lt (Nat.mod_lt _ (by norm_num)) hfloor

namespace ChainState

variable {st : ChainState}

theorem selectedDifficulty_lt (easy : Bool) {floor : Nat} (hfloor : floor < 2 ^ 64) (sp : Hash) :
    st.selectedDifficulty easy floor sp < 2 ^ 64 := by
  refine max_lt ?_ hfloor
  cases st.dag[sp]? with
  | none => exact eraMinDifficulty_lt easy 0 genesisTimestampMs.toNat
  | some b => exact b.difficulty.toNat_lt

/-- The rule runs to a bounded difficulty, however far the walk goes. -/
theorem expectedDifficultyChecked_runs (easy : Bool) (steps timestampMs : Nat) {parents : List Hash} {sp : Hash}
    (hsp : st.ghostdag.selectParent parents = some sp) :
    (st.expectedDifficultyChecked easy steps parents timestampMs).Runs
      (DifficultyBounded (eraMinDifficulty easy st.live.mintedSupply timestampMs)
        (st.selectedDifficulty easy (eraMinDifficulty easy st.live.mintedSupply timestampMs) sp)) := by
  have hfloor := eraMinDifficulty_lt easy st.live.mintedSupply timestampMs
  unfold expectedDifficultyChecked
  simp only [hsp]
  generalize eraMinDifficulty easy st.live.mintedSupply timestampMs = floor at *
  have hlt := st.selectedDifficulty_lt easy hfloor sp
  have hle : floor ≤ st.selectedDifficulty easy floor sp := le_max_right _ _
  have hwindow := @windowFits_daaWalk st steps sp
  split
  next =>
    -- a window that is not full keeps the selected parent's difficulty
    refine Checked.Runs.ok ?_
    rw [max_eq_left hle]
    have hup := lt_quarterUp (st.selectedDifficulty easy floor sp)
    exact ⟨hle, by unfold quarterDown; omega, hup.le, hlt⟩
  next hfull =>
    rw [windowDifficultyChecked_eq hfull hwindow.1 hwindow.2 hlt hle]
    exact Checked.Runs.ok (DifficultyBounded.clamped hle hlt (retargetDifficulty_lt hfloor _ _ _))

/-- A walk that has ended computes the rule of the chain state. -/
theorem expectedDifficultyChecked_eq (easy : Bool) {steps : Nat} {parents : List Hash} {sp : Hash} (timestampMs : Nat)
    (hsp : st.ghostdag.selectParent parents = some sp) (hd : st.ghostdag.Descends)
    (hsteps : st.ghostdag.scoreOf sp < steps) :
    st.expectedDifficultyChecked easy steps parents timestampMs
      = .ok (st.expectedDifficultyAt easy parents timestampMs) := by
  have hfloor := eraMinDifficulty_lt easy st.live.mintedSupply timestampMs
  unfold expectedDifficultyChecked expectedDifficultyAt collectDaaBlueSamples
  simp only [hsp, @daaWalk_stable st hd _ _ sp ([], ∅) hsteps (Nat.lt_succ_self _)]
  have hwindow := @windowFits_daaWalk st (st.ghostdag.scoreOf sp + 1) sp
  split
  next => rfl
  next hfull =>
    rw [windowDifficultyChecked_eq hfull hwindow.1 hwindow.2 (selectedDifficulty_lt easy hfloor sp) (le_max_right _ _)]
    rfl

/-- **The rule for the next block is bounded**, on every chain state and for every
timestamp: it never panics, and it stays within a quarter of the selected parent's
difficulty and above the era floor, however far the walk goes. On every node its walk
ends, within the selected parent's score. -/
theorem expected_difficulty_bounded [Crypto] :
    (∀ (st : ChainState) (easy : Bool) (steps timestampMs : Nat) (parents : List Hash) (sp : Hash),
      st.ghostdag.selectParent parents = some sp →
      ∃ d, st.expectedDifficultyChecked easy steps parents timestampMs = .ok d ∧
        DifficultyBounded (eraMinDifficulty easy st.live.mintedSupply timestampMs)
          (st.selectedDifficulty easy (eraMinDifficulty easy st.live.mintedSupply timestampMs) sp) d) ∧
      ∀ (easy archival : Bool) (seed : Ledger) (calls : List (Env × Block)) (lab : Bool) (steps timestampMs : Nat)
        (parents : List Hash) (sp : Hash),
        let st := (ChainState.seeded easy archival seed).run calls
        st.ghostdag.selectParent parents = some sp → st.ghostdag.scoreOf sp < steps →
        st.expectedDifficultyChecked lab steps parents timestampMs
          = .ok (st.expectedDifficultyAt lab parents timestampMs) := by
  constructor
  · intro st easy steps timestampMs parents sp hsp
    exact expectedDifficultyChecked_runs easy steps timestampMs hsp
  · intro easy archival seed calls lab steps timestampMs parents sp st hsp hsteps
    exact expectedDifficultyChecked_eq lab timestampMs hsp (Consistent.run easy archival seed calls).descends hsteps

end ChainState

end HassanNode
