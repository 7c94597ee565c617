import Mathlib
import HassanNode.Consensus.SuperProof

/-!
# HassanNode.Consensus.SuperProofSound

What the verifier of multi-level pruning proofs guarantees about a proof it
accepts, whoever made it, and that it never panics.

Each check has one spec (`checkHop_sat`, `verifyRecent_sat`, ...) in terms of
`Checked.Sat`; the passes over hops and recent headers are loops whose invariant
collects what the specs say.
-/

namespace HassanNode

open Params

/-! ### Bounds stay in range -/

/-- What the bounds keep to: from a base a quarter more with each of at most 64
windows, and never below the floor. -/
structure BoundsFit (base floor k : Nat) (bounds : Nat × Nat) : Prop where
  low : bounds.1 ≤ max base floor
  high : (bounds.2 + 4) * 4 ^ k ≤ (base + 4) * 5 ^ k
  base_le : base ≤ bounds.2

theorem BoundsFit.upper_le {base floor k : Nat} {bounds : Nat × Nat} (h : BoundsFit base floor k bounds)
    (hk : k ≤ 64) : bounds.2 * 4 ^ 64 ≤ (base + 4) * 5 ^ 64 := by
  have hsplit : 4 ^ 64 = 4 ^ k * 4 ^ (64 - k) := by rw [← pow_add]; congr 1; omega
  have hgrow : 5 ^ k * 4 ^ (64 - k) ≤ 5 ^ 64 := by
    calc 5 ^ k * 4 ^ (64 - k) ≤ 5 ^ k * 5 ^ (64 - k) := by gcongr; omega
      _ = 5 ^ 64 := by rw [← pow_add]; congr 1; omega
  calc bounds.2 * 4 ^ 64 ≤ (bounds.2 + 4) * 4 ^ k * 4 ^ (64 - k) := by
        rw [hsplit, mul_assoc]; exact Nat.mul_le_mul_right _ (Nat.le_add_right _ _)
    _ ≤ (base + 4) * 5 ^ k * 4 ^ (64 - k) := Nat.mul_le_mul_right _ h.high
    _ ≤ (base + 4) * 5 ^ 64 := by rw [mul_assoc]; gcongr

theorem BoundsFit.widen {base floor k : Nat} {bounds : Nat × Nat} (h : BoundsFit base floor k bounds) :
    BoundsFit base floor (k + 1)
      (max (bounds.1 * 3 / 4) floor, max (bounds.2 * 5 / 4) (bounds.2 + 1)) := by
  have hlow := h.low
  have hbase := h.base_le
  refine ⟨by simp only; omega, ?_, by simp only; omega⟩
  have hstep : (max (bounds.2 * 5 / 4) (bounds.2 + 1) + 4) * 4 ≤ (bounds.2 + 4) * 5 := by omega
  calc (max (bounds.2 * 5 / 4) (bounds.2 + 1) + 4) * 4 ^ (k + 1)
      = (max (bounds.2 * 5 / 4) (bounds.2 + 1) + 4) * 4 * 4 ^ k := by rw [pow_succ]; ring
    _ ≤ (bounds.2 + 4) * 5 * 4 ^ k := by gcongr
    _ = (bounds.2 + 4) * 4 ^ k * 5 := by ring
    _ ≤ (base + 4) * 5 ^ k * 5 := Nat.mul_le_mul_right 5 h.high
    _ = (base + 4) * 5 ^ (k + 1) := by rw [pow_succ]; ring

/-- One window, from bounds in range. -/
theorem widenBounds_eq {base floor k w : Nat} {bounds : Nat × Nat} (hk : k ≤ 64) (hbase : base < 2 ^ 64)
    (hfloor : floor < 2 ^ 64) (h : BoundsFit base floor k bounds) : widenBounds floor bounds w
      = .ok (max (bounds.1 * 3 / 4) floor, max (bounds.2 * 5 / 4) (bounds.2 + 1)) := by
  have hup := h.upper_le hk
  have hlow := h.low
  have hfit : ∀ {n}, n ≤ u128Max → Checked.fit u128Max n = .ok n := fun hn => if_pos hn
  unfold widenBounds
  rw [hfit (by unfold u128Max; omega), hfit (by unfold u128Max; omega), hfit (by unfold u128Max; omega)]
  rfl

/-- The bounds never overflow, so they are never a panic. -/
theorem hopDifficultyBounds_runs {olderDiff heightGap floor : Nat} (hdiff : olderDiff < 2 ^ 64)
    (hfloor : floor < 2 ^ 64) :
    Checked.Runs (hopDifficultyBounds olderDiff heightGap floor) fun b => ∃ bounds k, k ≤ 64 ∧
      BoundsFit (max olderDiff floor) floor k bounds ∧
        b = (max (bounds.1 % 2 ^ 64) floor, bounds.2 % 2 ^ 64) := by
  unfold hopDifficultyBounds
  have hlen : ∀ {done rest : List Nat} {w : Nat},
      List.range (min ((heightGap - 1) / daaWindow + 1) 64) = done ++ w :: rest → done.length < 64 := by
    intro done rest w hxs
    have := congrArg List.length hxs
    simp only [List.length_range, List.length_append, List.length_cons] at this
    omega
  refine (Checked.Runs.loop (I := fun done b => BoundsFit (max olderDiff floor) floor done.length b)
    ?_ ?_).bind fun b hb => Checked.Runs.ok ⟨b, _, ?_, hb, rfl⟩
  · exact ⟨le_max_left _ _, by simp, le_refl _⟩
  · intro done w rest b hxs hb
    rw [List.length_append, List.length_singleton]
    exact ⟨_, widenBounds_eq (hlen hxs).le (by omega) hfloor hb, hb.widen⟩
  · rw [List.length_range]
    omega

theorem hopDifficultyBounds_sat {olderDiff heightGap floor : Nat} (hdiff : olderDiff < 2 ^ 64)
    (hfloor : floor < 2 ^ 64) :
    Checked.Sat (hopDifficultyBounds olderDiff heightGap floor) fun b => floor ≤ b.1 := by
  obtain ⟨b, heq, bounds, k, -, -, rfl⟩ := hopDifficultyBounds_runs hdiff hfloor
  rw [heq]
  exact Checked.Sat.ok (le_max_right _ _)

/-! ### Loops by index -/

theorem zipIdx_split {α : Type} {xs : List α} {done rest : List (α × Nat)} {x : α} {i : Nat}
    (h : xs.zipIdx = done ++ (x, i) :: rest) : i = done.length ∧ xs[i]? = some x := by
  have hget : xs.zipIdx[done.length]? = some (x, i) := by rw [h]; simp
  rw [List.getElem?_zipIdx, Option.map_eq_some_iff] at hget
  obtain ⟨y, hy, heq⟩ := hget
  simp only [Nat.zero_add, Prod.mk.injEq] at heq
  exact ⟨heq.2.symm, by rw [← heq.2, ← heq.1, hy]⟩

theorem range_split {n i : Nat} {done rest : List Nat} (h : List.range n = done ++ i :: rest) :
    i = done.length ∧ i < n := by
  have hget : (List.range n)[done.length]? = some i := by rw [h]; simp
  obtain ⟨hlt, heq⟩ := List.getElem?_eq_some_iff.mp hget
  rw [List.length_range] at hlt
  rw [List.getElem_range] at heq
  omega

namespace MultiLevelPruningProof

variable [Crypto]

/-! ### The structural pass -/

/-- What the structural pass asks of the hop at an index. -/
structure HopFits (hops : List Block) (i : Nat) (hop : Block) : Prop where
  floor : i + 1 = hops.length ∨ bootstrapMinDifficulty ≤ hop.difficulty.toNat
  older : ∀ older, hops[i + 1]? = some older → older.height < hop.height ∧ older.timestamp ≤ hop.timestamp

theorem checkHop_sat {easy : Bool} {hops : List Block} {seen : List Hash} {hop : Block} {i : Nat} :
    Checked.Sat (checkHop easy hops seen (hop, i)) fun seen' =>
      hop.hash ∉ seen ∧ HopFits hops i hop ∧ seen' = hop.hash :: seen := by
  unfold checkHop
  dsimp only
  refine Checked.Sat.require.bind fun _ hnew => Checked.Sat.require.bind fun _ hfloor => ?_
  rw [eraMinDifficulty_zero] at hfloor
  have hnew' : hop.hash ∉ seen := by simpa using hnew
  have hfloor' : i + 1 = hops.length ∨ bootstrapMinDifficulty ≤ hop.difficulty.toNat := by
    simpa using hfloor
  split
  next hlt =>
    refine (Checked.Sat.get hlt).bind fun older holder => ?_
    refine Checked.Sat.require.bind fun _ hheight => Checked.Sat.require.bind fun _ hts => ?_
    refine Checked.Sat.ok ⟨hnew', ⟨hfloor', fun o ho => ?_⟩, rfl⟩
    obtain rfl : older = o := Option.some.inj (holder.symm.trans ho)
    exact ⟨of_decide_eq_true hheight, of_decide_eq_true hts⟩
  next hge =>
    refine Checked.Sat.ok ⟨hnew', ⟨hfloor', fun o ho => ?_⟩, rfl⟩
    exact absurd (List.getElem?_eq_some_iff.mp ho).1 hge

/-- What it asks of the recent header at an index, above the boundary. -/
structure RecentFits (boundary : Block) (recent : List Block) (i : Nat) (cur : Block) : Prop where
  floor : bootstrapMinDifficulty ≤ cur.difficulty.toNat
  height : cur.height.toNat = min (boundary.height.toNat + 1 + i) u64Max
  first : i = 0 → boundary.timestamp ≤ cur.timestamp
  linked : ∀ before, 0 < i → recent[i - 1]? = some before →
    before.hash ∈ cur.parents ∧ before.timestamp ≤ cur.timestamp

theorem checkRecent_sat {easy : Bool} {seenHops seen : List Hash} {boundary cur : Block}
    {recent : List Block} {i : Nat} (hi : i < recent.length) :
    Checked.Sat (checkRecent easy seenHops boundary recent seen (cur, i)) fun seen' =>
      cur.hash ∉ seenHops ∧ cur.hash ∉ seen ∧ RecentFits boundary recent i cur ∧
        seen' = cur.hash :: seen := by
  unfold checkRecent
  dsimp only
  refine Checked.Sat.require.bind fun _ hnew => Checked.Sat.require.bind fun _ hfloor => ?_
  refine Checked.Sat.require.bind fun _ hheight => ?_
  rw [eraMinDifficulty_zero] at hfloor
  obtain ⟨hhops, hseen⟩ : cur.hash ∉ seenHops ∧ cur.hash ∉ seen := by simpa using hnew
  have hheight' : cur.height.toNat = min (boundary.height.toNat + 1 + i) u64Max := by
    have heq : cur.height.toNat = satAdd64 (satAdd64 boundary.height.toNat 1) i := by simpa using hheight
    unfold satAdd64 at heq
    omega
  split
  next hpos =>
    refine (Checked.Sat.get (by omega)).bind fun before hbefore => ?_
    refine Checked.Sat.require.bind fun _ hparent => Checked.Sat.require.bind fun _ hts => ?_
    refine Checked.Sat.ok ⟨hhops, hseen, ⟨of_decide_eq_true hfloor, hheight', by omega, ?_⟩, rfl⟩
    intro b _ hb
    obtain rfl : before = b := Option.some.inj (hbefore.symm.trans hb)
    exact ⟨List.contains_iff_mem.mp hparent, of_decide_eq_true hts⟩
  next hzero =>
    refine Checked.Sat.require.bind fun _ hts => ?_
    refine Checked.Sat.ok ⟨hhops, hseen, ⟨of_decide_eq_true hfloor, hheight', ?_, by omega⟩, rfl⟩
    exact fun _ => of_decide_eq_true hts

/-- The hashes a pass has seen are those it went through, without repetition. -/
structure Seen (done : List (Block × Nat)) (seen : List Hash) : Prop where
  mem : ∀ h, h ∈ seen ↔ h ∈ done.map (·.1.hash)
  nodup : (done.map (·.1.hash)).Nodup

theorem Seen.nil : Seen [] [] := ⟨by simp, by simp⟩

theorem Seen.concat {done : List (Block × Nat)} {seen : List Hash} (h : Seen done seen) {b : Block}
    (i : Nat) (hb : b.hash ∉ seen) : Seen (done ++ [(b, i)]) (b.hash :: seen) := by
  refine ⟨fun x => by simp [h.mem, or_comm], ?_⟩
  rw [List.map_append, List.map_singleton, List.nodup_append]
  refine ⟨h.nodup, List.nodup_singleton _, fun x hx y hy hxy => hb ?_⟩
  rw [h.mem]
  exact List.mem_singleton.mp hy ▸ hxy ▸ hx

/-- What the structural pass guarantees. -/
structure Structured (p : MultiLevelPruningProof) (boundary genesis : Block) : Prop where
  hops_le : p.hops.length ≤ maxMultilevelHops
  recent_le : p.recentHeaders.length ≤ maxMultilevelRecent
  recent_ne : p.recentHeaders ≠ []
  newest : p.hops[0]? = some boundary
  oldest : p.hops.getLast? = some genesis
  anchor : genesis.hash = genesisBlock.hash ∧ genesis.parents = [] ∧ genesis.height = 0
  hopFits : ∀ i hop, p.hops[i]? = some hop → HopFits p.hops i hop
  recentFits : ∀ i cur, p.recentHeaders[i]? = some cur → RecentFits boundary p.recentHeaders i cur
  bridge : ∀ first, p.recentHeaders[0]? = some first → boundary.hash ∈ first.parents
  hops_nodup : (p.hops.map (·.hash)).Nodup
  recent_nodup : (p.recentHeaders.map (·.hash)).Nodup
  disjoint : ∀ b ∈ p.hops, ∀ c ∈ p.recentHeaders, b.hash ≠ c.hash

theorem map_hash_zipIdx (xs : List Block) : xs.zipIdx.map (·.1.hash) = xs.map (·.hash) := by
  calc xs.zipIdx.map (·.1.hash) = (xs.zipIdx.map Prod.fst).map (·.hash) := by rw [List.map_map]; rfl
    _ = xs.map (·.hash) := by rw [List.zipIdx_map_fst]

theorem validateStructure_sat (easy : Bool) (p : MultiLevelPruningProof) :
    Checked.Sat (p.validateStructure easy) fun _ => ∃ boundary genesis, p.Structured boundary genesis := by
  unfold validateStructure
  refine Checked.Sat.require.bind fun _ hrecent => Checked.Sat.require.bind fun _ hhops => ?_
  refine Checked.Sat.require.bind fun _ hhopsLe => Checked.Sat.require.bind fun _ hrecentLe => ?_
  refine Checked.Sat.require.bind fun _ _ => ?_
  have hrecentNe : p.recentHeaders ≠ [] := by simpa using hrecent
  have hhopsNe : p.hops ≠ [] := by simpa using hhops
  refine (Checked.Sat.last hhopsNe).bind fun genesis hgenesis => ?_
  refine Checked.Sat.require.bind fun _ hanchor => Checked.Sat.require.bind fun _ hzero => ?_
  refine (Checked.Sat.loop (I := fun done seen => Seen done seen ∧
    ∀ e ∈ done, HopFits p.hops e.2 e.1) ⟨Seen.nil, by simp⟩ ?_).bind fun seenHops hseenHops => ?_
  · intro done entry rest seen _ hinv
    obtain ⟨hop, i⟩ := entry
    refine checkHop_sat.mono fun seen' hok => ?_
    obtain ⟨hnew, hfits, rfl⟩ := hok
    refine ⟨hinv.1.concat i hnew, fun e he => ?_⟩
    obtain he | he := List.mem_append.mp he
    · exact hinv.2 e he
    · exact List.mem_singleton.mp he ▸ hfits
  refine (Checked.Sat.get (List.length_pos_iff.mpr hhopsNe)).bind fun boundary hboundary => ?_
  refine (Checked.Sat.get (List.length_pos_iff.mpr hrecentNe)).bind fun first hfirst => ?_
  refine Checked.Sat.require.bind fun _ hbridge => ?_
  refine (Checked.Sat.loop (I := fun done seen => Seen done seen ∧
    ∀ e ∈ done, e.1.hash ∉ seenHops ∧ RecentFits boundary p.recentHeaders e.2 e.1)
    ⟨Seen.nil, by simp⟩ ?_).bind fun seenRecent hseenRecent => ?_
  · intro done entry rest seen hsplit hinv
    obtain ⟨cur, i⟩ := entry
    have hi := (List.getElem?_eq_some_iff.mp (zipIdx_split hsplit).2).1
    refine (checkRecent_sat hi).mono fun seen' hok => ?_
    obtain ⟨hhop, hnew, hfits, rfl⟩ := hok
    refine ⟨hinv.1.concat i hnew, fun e he => ?_⟩
    obtain he | he := List.mem_append.mp he
    · exact hinv.2 e he
    · exact List.mem_singleton.mp he ▸ ⟨hhop, hfits⟩
  have hmem : ∀ {xs : List Block} {i : Nat} {b : Block}, xs[i]? = some b → (b, i) ∈ xs.zipIdx :=
    fun h => List.mem_zipIdx_iff_getElem?.mpr h
  have hanchor' : genesis.hash = genesisBlock.hash ∧ genesis.parents = [] := by simpa using hanchor
  refine Checked.Sat.ok ⟨boundary, genesis, {
    hops_le := of_decide_eq_true hhopsLe, recent_le := of_decide_eq_true hrecentLe
    recent_ne := hrecentNe, newest := hboundary, oldest := hgenesis
    anchor := ⟨hanchor'.1, hanchor'.2, by simpa using hzero⟩
    hopFits := fun i hop h => hseenHops.2 (hop, i) (hmem h)
    recentFits := fun i cur h => (hseenRecent.2 (cur, i) (hmem h)).2
    bridge := ?_
    hops_nodup := map_hash_zipIdx p.hops ▸ hseenHops.1.nodup
    recent_nodup := map_hash_zipIdx p.recentHeaders ▸ hseenRecent.1.nodup
    disjoint := ?_ }⟩
  · intro f hf
    obtain rfl : first = f := Option.some.inj (hfirst.symm.trans hf)
    exact List.contains_iff_mem.mp hbridge
  · intro b hb c hc heq
    obtain ⟨i, hi⟩ := List.mem_iff_getElem?.mp hc
    refine (hseenRecent.2 (c, i) (hmem hi)).1 ?_
    rw [hseenHops.1.mem, map_hash_zipIdx]
    exact List.mem_map.mpr ⟨b, hb, heq⟩

/-! ### The verifier -/

/-- What the verifier asks of the hop at an index, besides its structure. -/
structure HopVerified (easy : Bool) (hops : List Block) (i : Nat) : Prop where
  pow : ∀ cur, hops[i]? = some cur → verifyPow cur.hash cur.difficulty = true
  floor : ∀ cur, hops[i]? = some cur →
    eraMinDifficulty easy (cumulativeIssuance cur.height.toNat) cur.timestamp.toNat ≤ cur.difficulty.toNat
  linked : ∀ cur older, hops[i]? = some cur → hops[i + 1]? = some older →
    older.hash ∈ cur.parents ∨ older.hash ∈ cur.interlinks

theorem verifyHop_sat {easy : Bool} {hops : List Block} {work : Nat × Nat} {i : Nat}
    (hi : i + 1 < hops.length) :
    Checked.Sat (verifyHop easy hops work i) fun _ => HopVerified easy hops i := by
  unfold verifyHop
  refine (Checked.Sat.get (by omega)).bind fun cur hcur => ?_
  refine (Checked.Sat.get hi).bind fun older holder => ?_
  refine Checked.Sat.require.bind fun _ hpow => Checked.Sat.require.bind fun _ hfloor => ?_
  refine (hopDifficultyBounds_sat older.difficulty.toNat_lt (eraMinDifficulty_lt _ _ _)).bind fun _ _ => ?_
  refine Checked.Sat.require.bind fun _ _ => Checked.Sat.require.bind fun _ hlink => ?_
  refine Checked.Sat.ok ⟨fun c hc => ?_, fun c hc => ?_, fun c o hc ho => ?_⟩
  · obtain rfl : cur = c := Option.some.inj (hcur.symm.trans hc)
    exact hpow
  · obtain rfl : cur = c := Option.some.inj (hcur.symm.trans hc)
    exact of_decide_eq_true hfloor
  · obtain rfl : cur = c := Option.some.inj (hcur.symm.trans hc)
    obtain rfl : older = o := Option.some.inj (holder.symm.trans ho)
    have hor : older.hash ∈ cur.interlinks ∨ older.hash ∈ cur.parents := by simpa using hlink
    exact hor.symm

/-- The difficulty a full window of recent headers asks for. -/
def windowDifficulty (floor : Nat) (before oldest : Block) : Nat :=
  max (ChainState.retargetDifficulty (max before.difficulty.toNat floor) before.timestamp.toNat
    oldest.timestamp.toNat floor) floor

omit [Crypto] in
theorem checkRecentDifficulty_sat {boundary cur : Block} {recent : List Block} {floor i : Nat}
    (hi : i < recent.length) (hfloor : floor < 2 ^ 64) :
    Checked.Sat (checkRecentDifficulty boundary recent floor cur i) fun _ =>
      floor ≤ cur.difficulty.toNat ∧ (daaWindow ≤ i → ∀ before oldest, recent[i - 1]? = some before →
        recent[i - daaWindow]? = some oldest →
          cur.difficulty.toNat = windowDifficulty floor before oldest) := by
  have hboundary := boundary.difficulty.toNat_lt
  unfold checkRecentDifficulty
  split
  next hshort =>
    refine (hopDifficultyBounds_sat (by omega) hfloor).bind fun bounds hlow => ?_
    refine Checked.Sat.require.mono fun _ hin => ⟨?_, fun hfull => by omega⟩
    rw [Bool.and_eq_true, decide_eq_true_eq, decide_eq_true_eq] at hin
    exact hlow.trans hin.1
  next =>
    refine (Checked.Sat.get (by omega)).bind fun before hbefore => ?_
    refine (Checked.Sat.get (by omega)).bind fun oldest holdest => ?_
    rw [retargetChecked_eq]
    refine Checked.Sat.require.mono fun _ heq => ?_
    rw [beq_iff_eq] at heq
    refine ⟨heq ▸ le_max_right _ _, fun _ b o hb ho => ?_⟩
    obtain rfl := Option.some.inj (hbefore.symm.trans hb)
    obtain rfl := Option.some.inj (holdest.symm.trans ho)
    exact heq

/-- What the verifier asks of the recent header at an index, besides its
structure. -/
structure RecentVerified (easy : Bool) (recent : List Block) (i : Nat) (cur : Block) : Prop where
  pow : verifyPow cur.hash cur.difficulty = true
  floor : eraMinDifficulty easy (cumulativeIssuance cur.height.toNat) cur.timestamp.toNat
    ≤ cur.difficulty.toNat
  window : daaWindow ≤ i → ∀ before oldest, recent[i - 1]? = some before →
    recent[i - daaWindow]? = some oldest → cur.difficulty.toNat = windowDifficulty
      (eraMinDifficulty easy (cumulativeIssuance cur.height.toNat) cur.timestamp.toNat) before oldest

theorem verifyRecent_sat {easy : Bool} {now : Nat} {hops recent : List Block} {work : Nat × Nat}
    {i : Nat} (hhops : hops ≠ []) (hi : i < recent.length) :
    Checked.Sat (verifyRecent easy now hops recent work i) fun _ =>
      ∀ cur, recent[i]? = some cur → RecentVerified easy recent i cur := by
  unfold verifyRecent
  refine (Checked.Sat.get hi).bind fun cur hcur => ?_
  refine (Checked.Sat.get (List.length_pos_iff.mpr hhops)).bind fun boundary _ => ?_
  refine (checkRecentDifficulty_sat hi (eraMinDifficulty_lt _ _ _)).bind fun _ hdiff => ?_
  refine Checked.Sat.require.bind fun _ hpow => Checked.Sat.require.bind fun _ _ => ?_
  refine Checked.Sat.ok fun c hc => ?_
  obtain rfl : cur = c := Option.some.inj (hcur.symm.trans hc)
  exact ⟨hpow, hdiff.1, hdiff.2⟩

/-- What an accepted proof is, whoever made it: a chain of distinct headers from
genesis to the pruning point, each with its own work. -/
structure Sound (p : MultiLevelPruningProof) (s : MultiLevelProofSummary) : Prop where
  distinct : (p.headersGenesisFirst.map (·.hash)).Nodup
  genesis : ∃ g, p.headersGenesisFirst.head? = some g ∧ g.hash = genesisBlock.hash ∧
    g.parents = [] ∧ g.height = 0
  linked : p.headersGenesisFirst.IsChain fun older newer =>
    older.hash ∈ newer.parents ∨ older.hash ∈ newer.interlinks
  worked : ∀ b ∈ p.headersGenesisFirst.tail,
    verifyPow b.hash b.difficulty = true ∧ bootstrapMinDifficulty ≤ b.difficulty.toNat
  recentHeight : ∀ boundary, p.hops.head? = some boundary → ∀ i b, p.recentHeaders[i]? = some b →
    b.height.toNat = min (boundary.height.toNat + 1 + i) u64Max
  hopHeights : p.hops.reverse.Pairwise fun older newer => older.height < newer.height
  timestamps : p.headersGenesisFirst.Pairwise fun older newer => older.timestamp ≤ newer.timestamp
  work : s.verifiedWork = (p.headersGenesisFirst.map (·.difficulty.toNat)).sum
  pruningPoint : p.headersGenesisFirst.getLast?.map (·.hash) = some s.pruningPoint
  claimed : ∀ w, p.claimedVerifiedWork = some w → w ≤ s.verifiedWork

variable {p : MultiLevelPruningProof} {boundary genesis : Block}

namespace Structured

/-- A relation between neighbours holds along the whole list when it holds
along the hops, along the window and from one to the other. -/
theorem isChain {R : Block → Block → Prop} (h : p.Structured boundary genesis)
    (hhops : ∀ i cur older, p.hops[i]? = some cur → p.hops[i + 1]? = some older → R older cur)
    (hbridge : ∀ first, p.recentHeaders[0]? = some first → R boundary first)
    (hrecent : ∀ i before cur, p.recentHeaders[i]? = some before →
      p.recentHeaders[i + 1]? = some cur → R before cur) :
    p.headersGenesisFirst.IsChain R := by
  rw [headersGenesisFirst, List.isChain_append]
  refine ⟨?_, ?_, ?_⟩
  · rw [List.isChain_reverse, List.isChain_iff_getElem]
    intro i hi
    exact hhops i _ _ (List.getElem?_eq_getElem _) (List.getElem?_eq_getElem hi)
  · rw [List.isChain_iff_getElem]
    intro i hi
    exact hrecent i _ _ (List.getElem?_eq_getElem _) (List.getElem?_eq_getElem hi)
  · intro b hb first hfirst
    rw [List.getLast?_reverse, List.head?_eq_getElem?, h.newest] at hb
    rw [List.head?_eq_getElem?] at hfirst
    exact Option.some.inj hb ▸ hbridge first hfirst

/-- Genesis comes first, and the rest are the other hops and the window. -/
theorem headers_eq (h : p.Structured boundary genesis) :
    p.headersGenesisFirst = genesis :: (p.hops.dropLast.reverse ++ p.recentHeaders) := by
  have hsplit : p.hops = p.hops.dropLast ++ [genesis] := by
    rw [List.dropLast_append_getLast? genesis h.oldest]
  rw [headersGenesisFirst]
  nth_rewrite 1 [hsplit]
  simp

theorem mem_tail (h : p.Structured boundary genesis) {b : Block} (hb : b ∈ p.headersGenesisFirst.tail) :
    (∃ i, i + 1 < p.hops.length ∧ p.hops[i]? = some b) ∨ ∃ i : Nat, p.recentHeaders[i]? = some b := by
  rw [h.headers_eq, List.tail_cons, List.mem_append, List.mem_reverse] at hb
  refine hb.imp (fun hhop => ?_) List.mem_iff_getElem?.mp
  obtain ⟨i, hi⟩ := List.mem_iff_getElem?.mp hhop
  rw [List.getElem?_dropLast] at hi
  split at hi
  · exact ⟨i, by omega, hi⟩
  · cases hi

theorem nodup (h : p.Structured boundary genesis) : (p.headersGenesisFirst.map (·.hash)).Nodup := by
  rw [headersGenesisFirst, List.map_append, List.nodup_append]
  refine ⟨by rw [List.map_reverse, List.nodup_reverse]; exact h.hops_nodup, h.recent_nodup, ?_⟩
  intro x hx y hy
  obtain ⟨b, hb, rfl⟩ := List.mem_map.mp hx
  obtain ⟨c, hc, rfl⟩ := List.mem_map.mp hy
  exact h.disjoint b (List.mem_reverse.mp hb) c hc

theorem isChain_linked {easy : Bool} (h : p.Structured boundary genesis)
    (hhops : ∀ i, i + 1 < p.hops.length → HopVerified easy p.hops i) :
    p.headersGenesisFirst.IsChain fun older newer =>
      older.hash ∈ newer.parents ∨ older.hash ∈ newer.interlinks := by
  refine h.isChain (fun i cur older hcur holder => ?_) (fun first hfirst => .inl (h.bridge first hfirst))
    fun i before cur hbefore hcur => ?_
  · exact (hhops i (List.getElem?_eq_some_iff.mp holder).1).linked cur older hcur holder
  · exact .inl ((h.recentFits (i + 1) cur hcur).linked before (by omega) hbefore).1

theorem timestamps (h : p.Structured boundary genesis) :
    p.headersGenesisFirst.Pairwise fun older newer => older.timestamp ≤ newer.timestamp := by
  have htrans : IsTrans Block fun older newer => older.timestamp ≤ newer.timestamp :=
    ⟨fun _ _ _ => UInt64.le_trans⟩
  rw [← List.isChain_iff_pairwise]
  refine h.isChain (fun i cur older hcur holder => ?_) (fun first hfirst => ?_)
    fun i before cur hbefore hcur => ?_
  · exact ((h.hopFits i cur hcur).older older holder).2
  · exact (h.recentFits 0 first hfirst).first rfl
  · exact ((h.recentFits (i + 1) cur hcur).linked before (by omega) hbefore).2

theorem hopHeights (h : p.Structured boundary genesis) :
    p.hops.reverse.Pairwise fun older newer => older.height < newer.height := by
  have htrans : IsTrans Block fun older newer => older.height < newer.height := ⟨fun _ _ _ => UInt64.lt_trans⟩
  rw [← List.isChain_iff_pairwise, List.isChain_reverse, List.isChain_iff_getElem]
  intro i hi
  exact ((h.hopFits i _ (List.getElem?_eq_getElem _)).older _ (List.getElem?_eq_getElem hi)).1

/-- With a bounded number of headers no sum over them overflows. -/
theorem sum_le {f : Block → Nat} (h : p.Structured boundary genesis) (hf : ∀ b, f b < 2 ^ 64) :
    ((p.hops ++ p.recentHeaders).map f).sum ≤ u128Max := by
  have hlen := h.hops_le
  have hlen' := h.recent_le
  unfold maxMultilevelHops at hlen
  unfold maxMultilevelRecent at hlen'
  have hsum := List.sum_le_card_nsmul ((p.hops ++ p.recentHeaders).map f) (2 ^ 64) (by
    intro x hx
    obtain ⟨b, -, rfl⟩ := List.mem_map.mp hx
    exact (hf b).le)
  rw [List.length_map, List.length_append, smul_eq_mul] at hsum
  unfold u128Max
  omega

end Structured

omit [Crypto] in
theorem headerWork_eq (p : MultiLevelPruningProof) :
    p.headerWork = (p.headersGenesisFirst.map (·.difficulty.toNat)).sum := by
  simp [headerWork, headersGenesisFirst, List.sum_append, List.sum_reverse]

theorem Structured.hops_ne (h : p.Structured boundary genesis) : p.hops ≠ [] := by
  intro hnil
  have hnewest := h.newest
  simp [hnil] at hnewest

/-- What the verifier has checked of a proof it accepts. -/
structure Verified (easy : Bool) (p : MultiLevelPruningProof) (s : MultiLevelProofSummary) : Prop where
  structured : ∃ boundary genesis, p.Structured boundary genesis
  hops : ∀ i, i + 1 < p.hops.length → HopVerified easy p.hops i
  recent : ∀ i cur, p.recentHeaders[i]? = some cur → RecentVerified easy p.recentHeaders i cur
  work : s.verifiedWork = p.headerWork
  claimed : ∀ w, p.claimedVerifiedWork = some w → w ≤ p.headerWork
  pruningPoint : p.recentHeaders.getLast?.map (·.hash) = some s.pruningPoint

theorem verify_sat (easy : Bool) (now : Nat) (p : MultiLevelPruningProof) :
    Checked.Sat (p.verify easy now) (p.Verified easy) := by
  unfold verify
  refine (validateStructure_sat easy p).bind fun _ hstructured => ?_
  obtain ⟨boundary, genesis, h⟩ := hstructured
  refine (Checked.Sat.last h.hops_ne).bind fun _ _ => Checked.Sat.require.bind fun _ _ => ?_
  refine (Checked.Sat.loop (I := fun done _ => ∀ i ∈ done, HopVerified easy p.hops i) (by simp) ?_).bind
    fun hopWork hhops => ?_
  · intro done i rest work hsplit hdone
    have hi : i ∈ (List.range (p.hops.length - 1)).reverse := by rw [hsplit]; simp
    rw [List.mem_reverse, List.mem_range] at hi
    refine (verifyHop_sat (by omega)).mono fun _ hhop j hj => ?_
    obtain hj | hj := List.mem_append.mp hj
    · exact hdone j hj
    · exact List.mem_singleton.mp hj ▸ hhop
  refine (Checked.Sat.loop (I := fun done _ => ∀ i ∈ done, ∀ cur, p.recentHeaders[i]? = some cur →
    RecentVerified easy p.recentHeaders i cur) (by simp) ?_).bind fun work hrecent => ?_
  · intro done i rest work hsplit hdone
    refine (verifyRecent_sat h.hops_ne (range_split hsplit).2).mono fun _ hpow j hj => ?_
    obtain hj | hj := List.mem_append.mp hj
    · exact hdone j hj
    · exact List.mem_singleton.mp hj ▸ hpow
  refine (Checked.Sat.fit (h.sum_le fun b => b.difficulty.toNat_lt)).bind fun total htotal => ?_
  change total = p.headerWork at htotal
  refine Checked.Sat.require.bind fun _ hwork => Checked.Sat.require.bind fun _ hclaimed => ?_
  have hlast : p.recentHeaders.length - 1 < p.recentHeaders.length :=
    Nat.sub_one_lt (List.length_pos_iff.mpr h.recent_ne).ne'
  refine (Checked.Sat.get hlast).bind fun tip htip => ?_
  refine (Checked.Sat.fit (h.sum_le fun b => ?_)).bind fun _ _ => Checked.Sat.require.bind fun _ _ => ?_
  · split
    · exact genesisDifficulty.toNat_lt
    · exact eraMinDifficulty_lt _ _ _
  refine Checked.Sat.ok ⟨⟨boundary, genesis, h⟩, fun i hi => ?_, fun i cur hcur => ?_,
    by simpa [htotal] using hwork, fun w hw => ?_, ?_⟩
  · exact hhops i (List.mem_reverse.mpr (List.mem_range.mpr (by omega)))
  · exact hrecent i (List.mem_range.mpr (List.getElem?_eq_some_iff.mp hcur).1) cur hcur
  · rw [hw] at hclaimed
    rw [← htotal]
    exact of_decide_eq_true hclaimed
  · rw [List.getLast?_eq_getElem?, htip]
    rfl

theorem Verified.sound {easy : Bool} {s : MultiLevelProofSummary} (v : p.Verified easy s) : p.Sound s := by
  obtain ⟨boundary, genesis, h⟩ := v.structured
  refine ⟨h.nodup, ⟨genesis, by rw [h.headers_eq]; rfl, h.anchor⟩, h.isChain_linked v.hops, fun b hb => ?_,
    ?_, h.hopHeights, h.timestamps, v.work.trans p.headerWork_eq, ?_, fun w hw => ?_⟩
  · obtain ⟨i, hi, hget⟩ | ⟨i, hget⟩ := h.mem_tail hb
    · exact ⟨(v.hops i hi).pow b hget, (h.hopFits i b hget).floor.resolve_left (by omega)⟩
    · exact ⟨(v.recent i b hget).pow, (h.recentFits i b hget).floor⟩
  · intro b hb i cur hcur
    rw [List.head?_eq_getElem?, h.newest] at hb
    exact Option.some.inj hb ▸ (h.recentFits i cur hcur).height
  · rw [headersGenesisFirst, List.getLast?_append_of_ne_nil _ h.recent_ne]
    exact v.pruningPoint
  · rw [v.work]
    exact v.claimed w hw

/-- **Soundness.** The verifier never panics, and whatever proof it accepts is
sound. -/
theorem verify_sound (easy : Bool) (now : Nat) (p : MultiLevelPruningProof) :
    p.verify easy now ≠ .error .panicked ∧ ∀ s, p.verify easy now = .ok s → p.Sound s :=
  ⟨(verify_sat easy now p).1, fun s hs => ((verify_sat easy now p).2 s hs).sound⟩

end MultiLevelPruningProof

end HassanNode
