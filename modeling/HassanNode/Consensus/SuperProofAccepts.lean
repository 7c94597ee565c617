import Mathlib
import HassanNode.Consensus.LinearProof
import HassanNode.Consensus.SuperProofSound

/-!
# HassanNode.Consensus.SuperProofAccepts

When `verify_multilevel_pruning_proof` accepts: a well-formed proof whose headers
are all at the bootstrap floor verifies exactly when the verifier's own rules ask
for no more than the floor.
-/

namespace HassanNode

open Params

namespace MultiLevelPruningProof

variable [Crypto]

/-! ### What the verifier accepts -/

section Accepts

variable {easy : Bool} {now : Nat} {p : MultiLevelPruningProof} {boundary genesis : Block}

theorem checkHop_runs {hops : List Block} {seen : List Hash} {hop : Block} {i : Nat}
    (hnew : hop.hash ∉ seen) (hfits : HopFits hops i hop) :
    Checked.Runs (checkHop easy hops seen (hop, i)) (· = hop.hash :: seen) := by
  unfold checkHop
  dsimp only
  refine (Checked.Runs.require (by simpa using hnew)).bind fun _ _ => ?_
  refine (Checked.Runs.require (by simpa [eraMinDifficulty_zero] using hfits.floor)).bind fun _ _ => ?_
  split
  next hlt =>
    obtain ⟨older, holder⟩ : ∃ b, hops[i + 1]? = some b := ⟨_, List.getElem?_eq_getElem hlt⟩
    obtain ⟨hheight, htime⟩ := hfits.older older holder
    refine (Checked.Runs.get holder).bind fun o ho => ?_
    subst ho
    refine (Checked.Runs.require (decide_eq_true hheight)).bind fun _ _ => ?_
    exact (Checked.Runs.require (decide_eq_true htime)).bind fun _ _ => Checked.Runs.ok rfl
  next => exact Checked.Runs.ok rfl

theorem checkRecent_runs {seenHops seen : List Hash} {cur : Block} {recent : List Block} {i : Nat}
    (hi : i < recent.length) (hhops : cur.hash ∉ seenHops) (hnew : cur.hash ∉ seen)
    (hfits : RecentFits boundary recent i cur) :
    Checked.Runs (checkRecent easy seenHops boundary recent seen (cur, i)) (· = cur.hash :: seen) := by
  have hheight : cur.height.toNat = satAdd64 (satAdd64 boundary.height.toNat 1) i := by
    rw [hfits.height]
    unfold satAdd64
    omega
  unfold checkRecent
  dsimp only
  refine (Checked.Runs.require (by simp [hhops, hnew])).bind fun _ _ => ?_
  refine (Checked.Runs.require (by simpa [eraMinDifficulty_zero] using hfits.floor)).bind fun _ _ => ?_
  refine (Checked.Runs.require (beq_iff_eq.mpr hheight)).bind fun _ _ => ?_
  split
  next hpos =>
    obtain ⟨before, hbefore⟩ : ∃ b, recent[i - 1]? = some b := ⟨_, List.getElem?_eq_getElem (by omega)⟩
    obtain ⟨hparent, htime⟩ := hfits.linked before hpos hbefore
    refine (Checked.Runs.get hbefore).bind fun b hb => ?_
    subst hb
    refine (Checked.Runs.require (List.contains_iff_mem.mpr hparent)).bind fun _ _ => ?_
    exact (Checked.Runs.require (decide_eq_true htime)).bind fun _ _ => Checked.Runs.ok rfl
  next hzero =>
    refine (Checked.Runs.require (decide_eq_true (hfits.first (by omega)))).bind fun _ _ => ?_
    exact Checked.Runs.ok rfl

/-- In a list of distinct hashes an entry is not among those before it. -/
theorem hash_notMem_done {xs : List Block} {done rest : List (Block × Nat)} {b : Block} {i : Nat}
    (hnodup : (xs.map (·.hash)).Nodup) (hsplit : xs.zipIdx = done ++ (b, i) :: rest) :
    b.hash ∉ done.map (·.1.hash) := by
  rw [← map_hash_zipIdx, hsplit, List.map_append, List.map_cons, List.nodup_append] at hnodup
  exact fun hmem => hnodup.2.2 _ hmem _ (List.mem_cons_self ..) rfl

/-- A structured proof passes the structural pass. -/
theorem validateStructure_runs (h : p.Structured boundary genesis) :
    Checked.Runs (p.validateStructure easy) fun _ => True := by
  have hhops := h.hops_le
  have hrecent := h.recent_le
  have hpos := List.length_pos_iff.mpr h.recent_ne
  obtain ⟨hhash, hparents, hzero⟩ := h.anchor
  unfold validateStructure
  refine (Checked.Runs.require (by simpa using h.recent_ne)).bind fun _ _ => ?_
  refine (Checked.Runs.require (by simpa using h.hops_ne)).bind fun _ _ => ?_
  refine (Checked.Runs.require (decide_eq_true hhops)).bind fun _ _ => ?_
  refine (Checked.Runs.require (decide_eq_true hrecent)).bind fun _ _ => ?_
  refine (Checked.Runs.require (decide_eq_true (by unfold maxMultilevelHeaders; omega))).bind fun _ _ => ?_
  refine (Checked.Runs.last h.oldest).bind fun g hg => ?_
  subst hg
  refine (Checked.Runs.require (by simp [hhash, hparents])).bind fun _ _ => ?_
  refine (Checked.Runs.require (by simp [hzero])).bind fun _ _ => ?_
  refine (Checked.Runs.loop (I := Seen) Seen.nil ?_).bind fun seenHops hseenHops => ?_
  · intro done entry rest seen hsplit hseen
    obtain ⟨hop, i⟩ := entry
    obtain ⟨-, hget⟩ := zipIdx_split hsplit
    have hnew : hop.hash ∉ seen := fun hmem =>
      hash_notMem_done h.hops_nodup hsplit ((hseen.mem _).mp hmem)
    obtain ⟨_, heq, rfl⟩ := checkHop_runs hnew (h.hopFits i hop hget)
    exact ⟨_, heq, hseen.concat i hnew⟩
  refine (Checked.Runs.get h.newest).bind fun b hb => ?_
  subst hb
  obtain ⟨first, hfirst⟩ : ∃ b, p.recentHeaders[0]? = some b := ⟨_, List.getElem?_eq_getElem hpos⟩
  refine (Checked.Runs.get hfirst).bind fun f hf => ?_
  subst hf
  refine (Checked.Runs.require (List.contains_iff_mem.mpr (h.bridge f hfirst))).bind fun _ _ => ?_
  refine (Checked.Runs.loop (I := Seen) Seen.nil ?_).bind fun _ _ => Checked.Runs.ok trivial
  intro done entry rest seen hsplit hseen
  obtain ⟨cur, i⟩ := entry
  obtain ⟨-, hget⟩ := zipIdx_split hsplit
  have hi := (List.getElem?_eq_some_iff.mp hget).1
  have hnew : cur.hash ∉ seen := fun hmem =>
    hash_notMem_done h.recent_nodup hsplit ((hseen.mem _).mp hmem)
  have hhop : cur.hash ∉ seenHops := by
    rw [hseenHops.mem, map_hash_zipIdx]
    intro hmem
    obtain ⟨b, hb, heq⟩ := List.mem_map.mp hmem
    exact h.disjoint b hb cur (List.mem_of_getElem? hget) heq
  obtain ⟨_, heq, rfl⟩ := checkRecent_runs hi hhop hnew (h.recentFits i cur hget)
  exact ⟨_, heq, hseen.concat i hnew⟩

/-! ### Proofs at the floor -/

/-- A proof whose headers all have the bootstrap floor for their difficulty, and
their work. -/
structure FloorWork (now : Nat) (p : MultiLevelPruningProof) (genesis : Block) : Prop where
  genesis_pow : verifyPow genesis.hash genesis.difficulty = true
  genesis_difficulty : genesis.difficulty = genesisDifficulty
  hops : ∀ (i : Nat) (cur : Block), i + 1 < p.hops.length → p.hops[i]? = some cur →
    cur.difficulty.toNat = bootstrapMinDifficulty ∧ verifyPow cur.hash cur.difficulty = true
  links : ∀ (i : Nat) (cur older : Block), p.hops[i]? = some cur → p.hops[i + 1]? = some older →
    older.hash ∈ cur.interlinks
  recent : ∀ (i : Nat) (cur : Block), p.recentHeaders[i]? = some cur →
    cur.difficulty.toNat = bootstrapMinDifficulty ∧ verifyPow cur.hash cur.difficulty = true ∧
      cur.timestamp.toNat ≤ satAdd64 now maxFutureDriftMs
  unclaimed : p.claimedVerifiedWork = none

/-- The verifier asks such a proof for no more than the floor: the supply it
reads off every height is in the bootstrap era, and every full window of recent
headers is unhurried. -/
structure Paced (easy : Bool) (p : MultiLevelPruningProof) : Prop where
  hops : ∀ (i : Nat) (cur : Block), i + 1 < p.hops.length → p.hops[i]? = some cur →
    InBootstrap easy (cumulativeIssuance cur.height.toNat)
  recent : ∀ (i : Nat) (cur : Block), p.recentHeaders[i]? = some cur →
    InBootstrap easy (cumulativeIssuance cur.height.toNat)
  window : ∀ (i : Nat), daaWindow ≤ i → i < p.recentHeaders.length → ∀ before oldest,
    p.recentHeaders[i - 1]? = some before → p.recentHeaders[i - daaWindow]? = some oldest →
      Unhurried before.timestamp.toNat oldest.timestamp.toNat

/-- No hop is above the floor, genesis included. -/
theorem FloorWork.hop_le (hfloor : FloorWork now p genesis) (h : p.Structured boundary genesis) {i : Nat}
    {b : Block} (hb : p.hops[i]? = some b) : b.difficulty.toNat ≤ bootstrapMinDifficulty := by
  have hi := (List.getElem?_eq_some_iff.mp hb).1
  rcases Nat.lt_or_ge (i + 1) p.hops.length with hlt | hge
  · exact (hfloor.hops i b hlt hb).1.le
  · have hlast := h.oldest
    rw [List.getLast?_eq_getElem?, show p.hops.length - 1 = i by omega, hb] at hlast
    rw [Option.some.inj hlast, hfloor.genesis_difficulty]
    decide

omit [Crypto] in
theorem eraMinDifficulty_bootstrap {minted : Nat} (h : InBootstrap easy minted) (ts : Nat) :
    eraMinDifficulty easy minted ts = bootstrapMinDifficulty := by
  rcases eraMinDifficulty_cases easy minted ts with ⟨-, heq⟩ | ⟨hout, -⟩
  · exact heq
  · exact absurd h hout

omit [Crypto] in
theorem inBootstrap_of_le {minted ts : Nat} (h : eraMinDifficulty easy minted ts ≤ bootstrapMinDifficulty) :
    InBootstrap easy minted := by
  have hlt : bootstrapMinDifficulty < hardEraMinDifficulty := by decide
  rcases eraMinDifficulty_cases easy minted ts with ⟨hin, -⟩ | ⟨-, heq⟩
  · exact hin
  · omega

omit [Crypto] in
/-- At the floor the clamp lets the floor through. -/
theorem hopDifficultyBounds_floor {olderDiff gap : Nat} (h : olderDiff ≤ bootstrapMinDifficulty) :
    Checked.Runs (hopDifficultyBounds olderDiff gap bootstrapMinDifficulty) fun b =>
      b.1 ≤ bootstrapMinDifficulty ∧ bootstrapMinDifficulty ≤ b.2 := by
  have hfloor : bootstrapMinDifficulty = 7000 := rfl
  have hruns := @hopDifficultyBounds_runs olderDiff gap bootstrapMinDifficulty (by omega) (by omega)
  obtain ⟨b, heq, bounds, k, hk, hfit, rfl⟩ := hruns
  refine ⟨_, heq, ?_⟩
  have hup := hfit.upper_le hk
  have hlow := hfit.low
  have hbase := hfit.base_le
  rw [max_eq_right h] at hup hlow hbase
  have hlt : bounds.2 < 2 ^ 64 := by omega
  rw [Nat.mod_eq_of_lt hlt]
  simp only
  omega

theorem verifyHop_runs (h : p.Structured boundary genesis) (hfloor : FloorWork now p genesis)
    (hpaced : p.Paced easy) {i : Nat} (hi : i + 1 < p.hops.length) {work : Nat × Nat} :
    Checked.Runs (verifyHop easy p.hops work i) fun w =>
      w.1 = satAdd128 work.1 bootstrapMinDifficulty := by
  obtain ⟨cur, hcur⟩ : ∃ b, p.hops[i]? = some b := ⟨_, List.getElem?_eq_getElem (by omega)⟩
  obtain ⟨older, holder⟩ : ∃ b, p.hops[i + 1]? = some b := ⟨_, List.getElem?_eq_getElem hi⟩
  obtain ⟨hdiff, hpow⟩ := hfloor.hops i cur hi hcur
  have hera := eraMinDifficulty_bootstrap (hpaced.hops i cur hi hcur) cur.timestamp.toNat
  have holderDiff := hfloor.hop_le h holder
  unfold verifyHop
  refine (Checked.Runs.get hcur).bind fun c hc => (Checked.Runs.get holder).bind fun o ho => ?_
  subst hc ho
  refine (Checked.Runs.require hpow).bind fun _ _ => ?_
  rw [hera]
  refine (Checked.Runs.require (decide_eq_true hdiff.ge)).bind fun _ _ => ?_
  refine (hopDifficultyBounds_floor holderDiff).bind fun bounds hb => ?_
  refine (Checked.Runs.require (by simp [hdiff, hb.1, hb.2])).bind fun _ _ => ?_
  refine (Checked.Runs.require (by simp [hfloor.links i c o hcur holder])).bind fun _ _ => ?_
  exact Checked.Runs.ok (by rw [hdiff])

theorem checkRecentDifficulty_runs (hfloor : FloorWork now p genesis) (hpaced : p.Paced easy)
    (hboundary : boundary.difficulty.toNat ≤ bootstrapMinDifficulty) {i : Nat} {cur : Block}
    (hcur : p.recentHeaders[i]? = some cur) :
    Checked.Runs (checkRecentDifficulty boundary p.recentHeaders bootstrapMinDifficulty cur i)
      fun _ => True := by
  have hi := (List.getElem?_eq_some_iff.mp hcur).1
  have hdiff := (hfloor.recent i cur hcur).1
  unfold checkRecentDifficulty
  split
  next =>
    refine (hopDifficultyBounds_floor (by omega)).bind fun bounds hb => ?_
    exact Checked.Runs.require (by simp [hdiff, hb.1, hb.2])
  next hfull =>
    have hpos : 0 < daaWindow := by decide
    obtain ⟨before, hbefore⟩ : ∃ b, p.recentHeaders[i - 1]? = some b :=
      ⟨_, List.getElem?_eq_getElem (by omega)⟩
    obtain ⟨oldest, holdest⟩ : ∃ b, p.recentHeaders[i - daaWindow]? = some b :=
      ⟨_, List.getElem?_eq_getElem (by omega)⟩
    have hslow := hpaced.window i (by omega) hi before oldest hbefore holdest
    refine (Checked.Runs.get hbefore).bind fun b hb => (Checked.Runs.get holdest).bind fun o ho => ?_
    subst hb ho
    rw [(hfloor.recent _ b hbefore).1, max_self, retargetChecked_eq, retargetDifficulty_floor.mpr hslow]
    exact Checked.Runs.require (by simp [hdiff])

theorem verifyRecent_runs (h : p.Structured boundary genesis) (hfloor : FloorWork now p genesis)
    (hpaced : p.Paced easy) (hboundary : boundary.difficulty.toNat ≤ bootstrapMinDifficulty) {i : Nat}
    (hi : i < p.recentHeaders.length) {work : Nat × Nat} :
    Checked.Runs (verifyRecent easy now p.hops p.recentHeaders work i) fun w =>
      w.1 = satAdd128 work.1 bootstrapMinDifficulty := by
  obtain ⟨cur, hcur⟩ : ∃ b, p.recentHeaders[i]? = some b := ⟨_, List.getElem?_eq_getElem hi⟩
  obtain ⟨hdiff, hpow, hdrift⟩ := hfloor.recent i cur hcur
  have hera := eraMinDifficulty_bootstrap (hpaced.recent i cur hcur) cur.timestamp.toNat
  unfold verifyRecent
  refine (Checked.Runs.get hcur).bind fun c hc => (Checked.Runs.get h.newest).bind fun b hb => ?_
  subst hc hb
  rw [hera]
  refine (checkRecentDifficulty_runs hfloor hpaced hboundary hcur).bind fun _ _ => ?_
  refine (Checked.Runs.require hpow).bind fun _ _ => ?_
  exact (Checked.Runs.require (decide_eq_true hdrift)).bind fun _ _ => Checked.Runs.ok (by rw [hdiff])

theorem FloorWork.headerWork_eq (hfloor : FloorWork now p genesis) (h : p.Structured boundary genesis) :
    p.headerWork = genesis.difficulty.toNat
      + bootstrapMinDifficulty * (p.hops.length - 1 + p.recentHeaders.length) := by
  have hhops : p.hops = p.hops.dropLast ++ [genesis] := by
    rw [List.dropLast_append_getLast? genesis h.oldest]
  have hconst : ∀ {xs : List Block}, (∀ b ∈ xs, b.difficulty.toNat = bootstrapMinDifficulty) →
      (xs.map (·.difficulty.toNat)).sum = xs.length * bootstrapMinDifficulty := by
    intro xs hxs
    rw [List.sum_eq_card_nsmul _ bootstrapMinDifficulty, List.length_map, smul_eq_mul]
    intro d hd
    obtain ⟨b, hb, rfl⟩ := List.mem_map.mp hd
    exact hxs b hb
  have hdrop : (p.hops.dropLast.map (·.difficulty.toNat)).sum
      = (p.hops.length - 1) * bootstrapMinDifficulty := by
    rw [hconst, List.length_dropLast]
    intro b hb
    obtain ⟨i, hi⟩ := List.mem_iff_getElem?.mp hb
    rw [List.getElem?_dropLast] at hi
    split at hi
    · exact (hfloor.hops i b (by omega) hi).1
    · cases hi
  have hrecent : (p.recentHeaders.map (·.difficulty.toNat)).sum
      = p.recentHeaders.length * bootstrapMinDifficulty := by
    refine hconst fun b hb => ?_
    obtain ⟨i, hi⟩ := List.mem_iff_getElem?.mp hb
    exact (hfloor.recent i b hi).1
  rw [headerWork, List.map_append, List.sum_append, hrecent]
  nth_rewrite 1 [hhops]
  rw [List.map_append, List.sum_append, hdrop, List.map_singleton, List.sum_singleton, Nat.mul_add,
    Nat.mul_comm bootstrapMinDifficulty, Nat.mul_comm bootstrapMinDifficulty]
  omega

theorem FloorWork.minIncludedWork_le (hfloor : FloorWork now p genesis)
    (h : p.Structured boundary genesis) : p.minIncludedWork easy ≤ p.headerWork := by
  refine List.sum_le_sum fun b hb => ?_
  have heasy : effectiveMinDifficulty easy = bootstrapMinDifficulty := eraMinDifficulty_zero easy _
  have hone : genesisDifficulty.toNat = 1 := rfl
  have hlow : genesisDifficulty.toNat ≤ bootstrapMinDifficulty := by decide
  have hge : b.difficulty.toNat = bootstrapMinDifficulty ∨ b = genesis := by
    obtain hhop | hrecent := List.mem_append.mp hb
    · obtain ⟨i, hi⟩ := List.mem_iff_getElem?.mp hhop
      rcases Nat.lt_or_ge (i + 1) p.hops.length with hlt | hge
      · exact Or.inl (hfloor.hops i b hlt hi).1
      · have hlen := (List.getElem?_eq_some_iff.mp hi).1
        have hlast := h.oldest
        rw [List.getLast?_eq_getElem?, show p.hops.length - 1 = i by omega, hi] at hlast
        exact Or.inr (Option.some.inj hlast)
    · obtain ⟨i, hi⟩ := List.mem_iff_getElem?.mp hrecent
      exact Or.inl (hfloor.recent i b hi).1
  rcases hge with hdiff | rfl
  · rw [hdiff, heasy]
    split
    · exact hlow
    · exact le_refl _
  · rw [h.anchor.2.1, hfloor.genesis_difficulty]
    simp

theorem verify_of_paced (h : p.Structured boundary genesis) (hfloor : FloorWork now p genesis)
    (hpaced : p.Paced easy) {pp : Hash} (hlast : p.recentHeaders.getLast?.map (·.hash) = some pp) :
    ∃ s, p.verify easy now = .ok s ∧ s.pruningPoint = pp := by
  have hboundary := hfloor.hop_le h h.newest
  have hhops := h.hops_le
  have hrecent := h.recent_le
  unfold maxMultilevelHops at hhops
  unfold maxMultilevelRecent at hrecent
  have hgenesis := genesis.difficulty.toNat_lt
  have hmin : bootstrapMinDifficulty = 7000 := rfl
  have hadd : ∀ {n : Nat}, n ≤ 10000 → satAdd128 (genesis.difficulty.toNat + bootstrapMinDifficulty * n)
      bootstrapMinDifficulty = genesis.difficulty.toNat + bootstrapMinDifficulty * (n + 1) := by
    intro n hn
    rw [hmin, satAdd128_eq (by unfold u128Max; omega)]
    omega
  unfold verify
  refine (validateStructure_runs h).bind fun _ _ => ?_
  refine (Checked.Runs.last h.oldest).bind fun g hg => ?_
  subst hg
  refine (Checked.Runs.require hfloor.genesis_pow).bind fun _ _ => ?_
  refine (Checked.Runs.loop (I := fun done w => w.1 = g.difficulty.toNat + bootstrapMinDifficulty * done.length)
    ?_ ?_).bind fun hopWork hhopWork => ?_
  · simp only [List.length_nil, Nat.mul_zero, Nat.add_zero]
    rw [satAdd128_eq (by unfold u128Max; omega), Nat.zero_add]
  · intro done i rest work hsplit hwork
    have hi : i ∈ (List.range (p.hops.length - 1)).reverse := by rw [hsplit]; simp
    have hlen := congrArg List.length hsplit
    simp only [List.length_reverse, List.length_range, List.length_append, List.length_cons] at hlen
    rw [List.mem_reverse, List.mem_range] at hi
    obtain ⟨w, heq, hw⟩ := verifyHop_runs h hfloor hpaced (i := i) (by omega)
    refine ⟨w, heq, hw.trans ?_⟩
    rw [hwork, hadd (by omega), List.length_append, List.length_singleton]
  rw [List.length_reverse, List.length_range] at hhopWork
  refine (Checked.Runs.loop (I := fun done w => w.1 = g.difficulty.toNat
    + bootstrapMinDifficulty * (p.hops.length - 1 + done.length)) ?_ ?_).bind fun work hwork => ?_
  · rw [hhopWork, List.length_nil, Nat.add_zero]
  · intro done i rest work hsplit hwork
    obtain ⟨rfl, hi⟩ := range_split hsplit
    obtain ⟨w, heq, hw⟩ := verifyRecent_runs h hfloor hpaced hboundary hi
    refine ⟨w, heq, hw.trans ?_⟩
    rw [hwork, hadd (by omega), List.length_append, List.length_singleton, Nat.add_assoc]
  rw [List.length_range, ← hfloor.headerWork_eq h] at hwork
  refine (Checked.Runs.fit (h.sum_le fun b => b.difficulty.toNat_lt)).bind fun total htotal => ?_
  change total = p.headerWork at htotal
  refine (Checked.Runs.require (by rw [hwork, htotal, beq_self_eq_true])).bind fun _ _ => ?_
  refine (Checked.Runs.require (by rw [hfloor.unclaimed]; rfl)).bind fun _ _ => ?_
  rw [List.getLast?_eq_getElem?] at hlast
  obtain ⟨tip, htip, hhash⟩ := Option.map_eq_some_iff.mp hlast
  refine (Checked.Runs.get htip).bind fun t ht => ?_
  subst ht
  refine (Checked.Runs.fit (h.sum_le fun b => ?_)).bind fun minWork hminWork => ?_
  · split
    · exact genesisDifficulty.toNat_lt
    · exact eraMinDifficulty_lt _ _ _
  change minWork = p.minIncludedWork easy at hminWork
  have hle : p.minIncludedWork easy ≤ p.headerWork := hfloor.minIncludedWork_le h
  refine (Checked.Runs.require ?_).bind fun _ _ => Checked.Runs.ok hhash
  rw [hwork, hminWork, Bool.not_eq_true', Bool.and_eq_false_iff]
  exact Or.inr (decide_eq_false (by omega))

theorem paced_of_verify (hfloor : FloorWork now p genesis) {s : MultiLevelProofSummary}
    (hok : p.verify easy now = .ok s) : p.Paced easy := by
  have v := (verify_sat easy now p).2 s hok
  refine ⟨fun i cur hi hcur => ?_, fun i cur hcur => ?_, fun i hfull hi before oldest hbefore holdest => ?_⟩
  · exact inBootstrap_of_le ((hfloor.hops i cur hi hcur).1 ▸ (v.hops i hi).floor cur hcur)
  · exact inBootstrap_of_le ((hfloor.recent i cur hcur).1 ▸ (v.recent i cur hcur).floor)
  · obtain ⟨cur, hcur⟩ : ∃ b, p.recentHeaders[i]? = some b := ⟨_, List.getElem?_eq_getElem hi⟩
    have hdiff := (hfloor.recent i cur hcur).1
    have hin := inBootstrap_of_le (hdiff ▸ (v.recent i cur hcur).floor)
    have hwindow := (v.recent i cur hcur).window hfull before oldest hbefore holdest
    rw [hdiff, windowDifficulty, eraMinDifficulty_bootstrap hin, (hfloor.recent _ before hbefore).1,
      max_self] at hwindow
    have hge : bootstrapMinDifficulty ≤ ChainState.retargetDifficulty bootstrapMinDifficulty
        before.timestamp.toNat oldest.timestamp.toNat bootstrapMinDifficulty := le_max_right _ _
    rw [max_eq_left hge] at hwindow
    exact retargetDifficulty_floor.mp hwindow.symm

end Accepts

end MultiLevelPruningProof

end HassanNode
