import Mathlib
import HassanNode.Consensus.SuperProof
import HassanNode.Consensus.ServedChain

/-!
# HassanNode.Consensus.LinearProof

The linear pruning proof: its verifier (`verify_pruning_proof`), and when it
accepts what an archival node serves. The verifier recomputes the difficulty of
every header from the chain alone (`expected_difficulty_linear`), with other
window bounds and another base than the rule blocks are admitted by. The two
agree on a chain that stays at the bootstrap floor.
-/

namespace HassanNode

open Std (ExtTreeMap ExtTreeSet)
open Params

def maxPruningProofHeaders : Nat := 1000000

structure PruningProofSummary where
  pruningPoint : Hash
  cumulativeWork : Nat
  headerCount : Nat

section Verify

variable [Crypto]

/-- `expected_difficulty_linear`. -/
def expectedDifficultyLinear (easy : Bool) (headers : List Block) (i : Nat) : Checked Nat := do
  let cur ← Checked.get headers i
  let floor := eraMinDifficulty easy (cumulativeIssuance i) cur.timestamp.toNat
  let before ← Checked.get headers (i - 1)
  let spDifficulty := max before.difficulty.toNat floor
  if i < daaWindow then
    return max spDifficulty floor
  else
    let oldest ← Checked.get headers (i - daaWindow)
    let expected ← retargetChecked spDifficulty before.timestamp.toNat oldest.timestamp.toNat floor
    return max expected floor

/-- One header of `verify_pruning_proof`, with the work so far. -/
def verifyHeader (easy : Bool) (now : Nat) (headers : List Block) (work i : Nat) : Checked Nat := do
  let cur ← Checked.get headers i
  let before ← Checked.get headers (i - 1)
  Checked.require (cur.parents.contains before.hash) s!"broken chain linkage at header {i}"
  let expected ← expectedDifficultyLinear easy headers i
  Checked.require (cur.difficulty.toNat == expected) s!"header {i} claims a non-DAA difficulty"
  Checked.require (verifyPow cur.hash cur.difficulty) s!"header {i} fails its proof-of-work"
  Checked.require (before.timestamp ≤ cur.timestamp) s!"header {i} timestamp predates its parent"
  Checked.require (cur.timestamp.toNat ≤ satAdd64 now maxFutureDriftMs)
    s!"header {i} timestamp is too far in the future"
  return satAdd128 work cur.difficulty.toNat

/-- `verify_pruning_proof`. -/
def verifyPruningProof (easy : Bool) (now : Nat) (headers : List Block) :
    Checked PruningProofSummary := do
  Checked.require (!headers.isEmpty) "empty pruning proof"
  Checked.require (headers.length ≤ maxPruningProofHeaders) "pruning proof exceeds the header limit"
  let first ← Checked.get headers 0
  Checked.require (first.hash == genesisBlock.hash) "pruning proof does not start at genesis"
  Checked.require first.parents.isEmpty "genesis header must have no parents"
  let work ← Checked.loop (verifyHeader easy now headers) first.difficulty.toNat
    (List.range' 1 (headers.length - 1))
  let last ← Checked.get headers (headers.length - 1)
  return { pruningPoint := last.hash, cumulativeWork := work, headerCount := headers.length }

end Verify

/-! ### The difficulty rules at the floor -/

/-- A window that is not faster than the target: retargeting at the bootstrap
floor stays there. -/
def Unhurried (newest oldest : Nat) : Prop :=
  bootstrapMinDifficulty * (daaWindow * targetBlockTimeMs)
    < (bootstrapMinDifficulty + 1) * max (newest - oldest) 1

theorem retargetDifficulty_floor {newest oldest : Nat} :
    ChainState.retargetDifficulty bootstrapMinDifficulty newest oldest bootstrapMinDifficulty
      = bootstrapMinDifficulty ↔ Unhurried newest oldest := by
  have hraw : bootstrapMinDifficulty * (daaWindow * targetBlockTimeMs) / max (newest - oldest) 1
      < bootstrapMinDifficulty + 1 ↔ Unhurried newest oldest := by
    rw [Nat.div_lt_iff_lt_mul (by omega)]
    rfl
  have hsat : satMul128 bootstrapMinDifficulty (daaWindow * targetBlockTimeMs)
      = bootstrapMinDifficulty * (daaWindow * targetBlockTimeMs) := by decide
  rw [← hraw]
  simp only [ChainState.retargetDifficulty, max_self, hsat]
  generalize bootstrapMinDifficulty * (daaWindow * targetBlockTimeMs) / max (newest - oldest) 1 = raw
  unfold bootstrapMinDifficulty
  omega

/-- The era of a supply is the bootstrap era, or the lab has switched it off. -/
def InBootstrap (easy : Bool) (minted : Nat) : Prop := easy = true ∨ minted < bootstrapEraEnd

theorem eraMinDifficulty_cases (easy : Bool) (minted ts : Nat) :
    InBootstrap easy minted ∧ eraMinDifficulty easy minted ts = bootstrapMinDifficulty ∨
      ¬ InBootstrap easy minted ∧ eraMinDifficulty easy minted ts = hardEraMinDifficulty := by
  unfold InBootstrap eraMinDifficulty
  by_cases h : easy = true ∨ minted < bootstrapEraEnd <;> simp [h]

/-- The verifier's rule at one header asks for no more than the floor: its
supply model is in the bootstrap era and the window, if full, is unhurried. -/
structure PacedAt (easy : Bool) (headers : List Block) (i : Nat) : Prop where
  era : InBootstrap easy (cumulativeIssuance i)
  window : daaWindow ≤ i → ∀ before oldest, headers[i - 1]? = some before →
    headers[i - daaWindow]? = some oldest → Unhurried before.timestamp.toNat oldest.timestamp.toNat

/-- Its rule asks for no more than the floor at every header after genesis. -/
def Paced (easy : Bool) (headers : List Block) : Prop :=
  ∀ i, 1 ≤ i → i < headers.length → PacedAt easy headers i

theorem expectedDifficultyLinear_floor {easy : Bool} {headers : List Block} {i : Nat} {before : Block}
    (hi : i < headers.length) (hbefore : headers[i - 1]? = some before)
    (hfloor : before.difficulty.toNat ≤ bootstrapMinDifficulty) :
    Checked.Runs (expectedDifficultyLinear easy headers i) fun d =>
      d = bootstrapMinDifficulty ↔ PacedAt easy headers i := by
  have hlt : bootstrapMinDifficulty < hardEraMinDifficulty := by decide
  unfold expectedDifficultyLinear
  refine (Checked.Runs.get (List.getElem?_eq_getElem hi)).bind fun cur _ => ?_
  refine (Checked.Runs.get hbefore).bind fun b hb => ?_
  subst hb
  dsimp only
  split
  next hshort =>
    refine Checked.Runs.ok ?_
    rcases eraMinDifficulty_cases easy (cumulativeIssuance i) cur.timestamp.toNat with ⟨hera, hmin⟩ | ⟨hera, hmin⟩
    · rw [hmin]
      refine ⟨fun _ => ⟨hera, fun hge => by omega⟩, fun _ => by omega⟩
    · rw [hmin]
      exact ⟨fun heq => by omega, fun hp => absurd hp.era hera⟩
  next hfull =>
    have hold : i - daaWindow < headers.length := by omega
    refine (Checked.Runs.get (List.getElem?_eq_getElem hold)).bind fun oldest holdest => ?_
    rw [retargetChecked_eq]
    refine Checked.Runs.ok ?_
    rcases eraMinDifficulty_cases easy (cumulativeIssuance i) cur.timestamp.toNat with ⟨hera, hmin⟩ | ⟨hera, hmin⟩
    · have hge : bootstrapMinDifficulty ≤ ChainState.retargetDifficulty bootstrapMinDifficulty
          b.timestamp.toNat oldest.timestamp.toNat bootstrapMinDifficulty := le_max_right _ _
      rw [hmin, max_eq_right hfloor, max_eq_left hge, retargetDifficulty_floor]
      refine ⟨fun hslow => ⟨hera, fun _ b' o hb ho => ?_⟩, fun hp => ?_⟩
      · obtain rfl := Option.some.inj (hbefore.symm.trans hb)
        rw [List.getElem?_eq_getElem hold] at ho
        rw [← Option.some.inj ho, ← holdest]
        exact hslow
      · exact hp.window (by omega) b oldest hbefore (by rw [List.getElem?_eq_getElem hold, holdest])
    · rw [hmin]
      exact ⟨fun heq => by omega, fun hp => absurd hp.era hera⟩

/-! ### The verifier on served headers -/

section Served

variable [Crypto] {easy : Bool} {now : Nat} {headers : List Block}

/-- Headers that were all admitted at the bootstrap floor. -/
def AtFloor (headers : List Block) : Prop :=
  ∀ (i : Nat) (b : Block), headers[i + 1]? = some b → b.difficulty.toNat = bootstrapMinDifficulty

theorem AtFloor.le (hserved : ChainState.Served now headers) (hfloor : AtFloor headers) {i : Nat}
    {b : Block} (hb : headers[i]? = some b) : b.difficulty.toNat ≤ bootstrapMinDifficulty := by
  cases i with
  | zero =>
      obtain rfl := Option.some.inj (hserved.genesis.symm.trans hb)
      decide
  | succ i => exact (hfloor i b hb).le

/-- One served header passes exactly when the verifier asks it for the floor. -/
theorem verifyHeader_served (hserved : ChainState.Served now headers) (hfloor : AtFloor headers)
    {i work : Nat} (hi : i + 1 < headers.length) :
    (PacedAt easy headers (i + 1) →
        Checked.Runs (verifyHeader easy now headers work (i + 1)) fun _ => True) ∧
      Checked.Sat (verifyHeader easy now headers work (i + 1)) fun _ => PacedAt easy headers (i + 1) := by
  obtain ⟨before, hbefore⟩ : ∃ b, headers[i]? = some b := ⟨_, List.getElem?_eq_getElem (by omega)⟩
  obtain ⟨cur, hcur⟩ : ∃ b, headers[i + 1]? = some b := ⟨_, List.getElem?_eq_getElem hi⟩
  obtain ⟨hparent, -, htime⟩ := hserved.linked i before cur hbefore hcur
  obtain ⟨hpow, hdrift⟩ := hserved.worked i cur hcur
  have hdiff := hfloor i cur hcur
  obtain ⟨d, hd, hiff⟩ := expectedDifficultyLinear_floor hi hbefore
    (AtFloor.le hserved hfloor hbefore)
  constructor
  · intro hpaced
    unfold verifyHeader
    rw [Nat.add_sub_cancel]
    refine (Checked.Runs.get hcur).bind fun c hc => (Checked.Runs.get hbefore).bind fun b hb => ?_
    subst hc hb
    refine (Checked.Runs.require (List.contains_iff_mem.mpr hparent)).bind fun _ _ => ?_
    rw [hd]
    refine (Checked.Runs.require ?_).bind fun _ _ => (Checked.Runs.require hpow).bind fun _ _ => ?_
    · rw [hdiff, hiff.mpr hpaced, beq_self_eq_true]
    refine (Checked.Runs.require (decide_eq_true htime)).bind fun _ _ => ?_
    exact (Checked.Runs.require (decide_eq_true hdrift)).bind fun _ _ => Checked.Runs.ok trivial
  · unfold verifyHeader
    rw [Nat.add_sub_cancel]
    refine (Checked.Sat.get hi).bind fun c hc => (Checked.Sat.get (by omega)).bind fun b _ => ?_
    obtain rfl := Option.some.inj (hcur.symm.trans hc)
    refine Checked.Sat.require.bind fun _ _ => ?_
    rw [hd]
    refine Checked.Sat.require.bind fun _ heq => Checked.Sat.require.bind fun _ _ => ?_
    refine Checked.Sat.require.bind fun _ _ => Checked.Sat.require.bind fun _ _ => Checked.Sat.ok ?_
    rw [hdiff, beq_iff_eq] at heq
    exact hiff.mp heq.symm

omit [Crypto] in
/-- An index of the verifier's loop, which starts after genesis. -/
theorem range'_split {n i : Nat} {done rest : List Nat} (h : List.range' 1 n = done ++ i :: rest) :
    ∃ j, i = j + 1 ∧ j < n := by
  have hmem : i ∈ List.range' 1 n := by rw [h]; simp
  rw [List.mem_range'_1] at hmem
  exact ⟨i - 1, by omega, by omega⟩

/-- Served headers at the floor only verify where the verifier's own rule stays
at the floor. -/
theorem paced_of_verify (hserved : ChainState.Served now headers) (hfloor : AtFloor headers)
    {s : PruningProofSummary} (hok : verifyPruningProof easy now headers = .ok s) :
    Paced easy headers := by
  have hpos : 0 < headers.length := (List.getElem?_eq_some_iff.mp hserved.genesis).1
  have hsat : Checked.Sat (verifyPruningProof easy now headers) fun _ => Paced easy headers := by
    unfold verifyPruningProof
    refine Checked.Sat.require.bind fun _ _ => Checked.Sat.require.bind fun _ _ => ?_
    refine (Checked.Sat.get hpos).bind fun _ _ => ?_
    refine Checked.Sat.require.bind fun _ _ => Checked.Sat.require.bind fun _ _ => ?_
    refine (Checked.Sat.loop (I := fun done _ => ∀ i ∈ done, PacedAt easy headers i) (by simp) ?_).bind
      fun _ hpaced => (Checked.Sat.get (by omega)).bind fun _ _ => Checked.Sat.ok fun i hi hlt => ?_
    · intro done i rest work hsplit hdone
      obtain ⟨j, rfl, hj⟩ := range'_split hsplit
      refine (verifyHeader_served hserved hfloor (by omega)).2.mono fun _ hpaced k hk => ?_
      obtain hk | hk := List.mem_append.mp hk
      · exact hdone k hk
      · exact List.mem_singleton.mp hk ▸ hpaced
    · exact hpaced i (List.mem_range'_1.mpr (by omega))
  exact hsat.2 s hok

/-- There they do verify. -/
theorem verify_of_paced (hserved : ChainState.Served now headers) (hfloor : AtFloor headers)
    (hlen : headers.length ≤ maxPruningProofHeaders) (hpaced : Paced easy headers) {pp : Hash}
    (hlast : headers.getLast?.map Block.hash = some pp) :
    ∃ s, verifyPruningProof easy now headers = .ok s ∧ s.pruningPoint = pp := by
  have hgenesis := hserved.genesis
  have hne : headers ≠ [] := by
    rintro rfl
    cases hlast
  unfold verifyPruningProof
  refine (Checked.Runs.require (by simpa using hne)).bind fun _ _ => ?_
  refine (Checked.Runs.require (decide_eq_true hlen)).bind fun _ _ => ?_
  refine (Checked.Runs.get hgenesis).bind fun first hfirst => ?_
  subst hfirst
  refine (Checked.Runs.require (by simp)).bind fun _ _ => ?_
  refine (Checked.Runs.require rfl).bind fun _ _ => ?_
  refine (Checked.Runs.loop (I := fun _ _ => True) trivial ?_).bind fun work _ => ?_
  · intro done i rest work hsplit _
    obtain ⟨j, rfl, hj⟩ := range'_split hsplit
    exact (verifyHeader_served hserved hfloor (by omega)).1 (hpaced _ (by omega) (by omega))
  · rw [List.getLast?_eq_getElem?] at hlast
    obtain ⟨last, hget, hhash⟩ := Option.map_eq_some_iff.mp hlast
    exact (Checked.Runs.get hget).bind fun b hb => Checked.Runs.ok (hb ▸ hhash)

end Served

/-! ### The live rule at the floor -/

namespace ChainState

variable {st : ChainState}

/-- The blocks of a node that has never asked for more than the floor. -/
def Low (st : ChainState) : Prop :=
  ∀ (h : Hash) (b : Block), st.dag[h]? = some b → b.difficulty.toNat ≤ bootstrapMinDifficulty

theorem Low.addSample (hlow : st.Low) {acc : DaaSamples} (hacc : ∀ s ∈ acc.1, s.2 ≤ bootstrapMinDifficulty)
    (blue : Hash) : ∀ s ∈ (st.addSample acc blue).1, s.2 ≤ bootstrapMinDifficulty := by
  unfold ChainState.addSample
  split
  · exact hacc
  · split
    · exact hacc
    · rename_i b hb
      intro s hs
      obtain hs | hs := List.mem_append.mp hs
      · exact hacc s hs
      · rw [List.mem_singleton.mp hs]
        exact max_le (hlow blue b hb) (by decide)

theorem Low.foldl_addSample (hlow : st.Low) (blues : List Hash) {acc : DaaSamples}
    (hacc : ∀ s ∈ acc.1, s.2 ≤ bootstrapMinDifficulty) :
    ∀ s ∈ (blues.foldl st.addSample acc).1, s.2 ≤ bootstrapMinDifficulty := by
  induction blues generalizing acc with
  | nil => exact hacc
  | cons blue blues ih => exact ih (hlow.addSample hacc blue)

theorem Low.daaWalk (hlow : st.Low) (fuel : Nat) (h : Hash) {acc : DaaSamples}
    (hacc : ∀ s ∈ acc.1, s.2 ≤ bootstrapMinDifficulty) :
    ∀ s ∈ (st.daaWalk fuel h acc).1, s.2 ≤ bootstrapMinDifficulty := by
  induction fuel generalizing h acc with
  | zero => exact hacc
  | succ fuel ih =>
      unfold ChainState.daaWalk
      split
      · exact hacc
      · split
        · exact hacc
        · rename_i gd _
          have hblues := hlow.foldl_addSample gd.mergesetBlues hacc
          have hsolo : ∀ s ∈ (if gd.mergesetBlues.isEmpty then
              st.addSample (gd.mergesetBlues.foldl st.addSample acc) h
              else gd.mergesetBlues.foldl st.addSample acc).1, s.2 ≤ bootstrapMinDifficulty := by
            split
            · exact hlow.addSample hblues h
            · exact hblues
          dsimp only
          split
          · exact hsolo
          · exact ih _ hsolo

/-- The live window at a selected parent asks for no more than the floor: it is
not full, or it is unhurried. -/
def WindowAtFloor (st : ChainState) (sp : Hash) : Prop :=
  (st.collectDaaBlueSamples sp).length < daaWindow ∨
    Unhurried ((((st.collectDaaBlueSamples sp).map Prod.fst).max?).getD 0)
      ((((st.collectDaaBlueSamples sp).map Prod.fst).min?).getD 0)

theorem expectedDifficultyAt_floor (hlow : st.Low) {easy : Bool} {parents : List Hash} {ts : Nat}
    {sp : Hash} {c : Block} (hsp : st.ghostdag.selectParent parents = some sp)
    (hc : st.dag[sp]? = some c) (hera : InBootstrap easy st.live.mintedSupply)
    (hwindow : st.WindowAtFloor sp) :
    st.expectedDifficultyAt easy parents ts = bootstrapMinDifficulty := by
  have hmin : eraMinDifficulty easy st.live.mintedSupply ts = bootstrapMinDifficulty := by
    rcases eraMinDifficulty_cases easy st.live.mintedSupply ts with ⟨-, h⟩ | ⟨h, -⟩
    · exact h
    · exact absurd hera h
  have hsample : ∀ s ∈ st.collectDaaBlueSamples sp, s.2 ≤ bootstrapMinDifficulty :=
    hlow.daaWalk _ sp (by simp)
  have hparent : max c.difficulty.toNat bootstrapMinDifficulty = bootstrapMinDifficulty :=
    max_eq_right (hlow sp c hc)
  simp only [expectedDifficultyAt, hsp, hmin, hc, Option.map_some, Option.getD_some, hparent]
  split
  next => exact max_self _
  next hfull =>
    have hslow := hwindow.resolve_left hfull
    -- no sample is above the floor, so their average is the floor
    have havg : max (((st.collectDaaBlueSamples sp).map Prod.snd).sum
        / (st.collectDaaBlueSamples sp).length % 2 ^ 64) bootstrapMinDifficulty
        = bootstrapMinDifficulty := by
      refine max_eq_right ((Nat.mod_le _ _).trans ?_)
      have hsum := List.sum_le_card_nsmul ((st.collectDaaBlueSamples sp).map Prod.snd)
        bootstrapMinDifficulty (by
          intro x hx
          obtain ⟨s, hs, rfl⟩ := List.mem_map.mp hx
          exact hsample s hs)
      rw [List.length_map, smul_eq_mul] at hsum
      exact Nat.div_le_of_le_mul hsum
    rw [havg, retargetDifficulty_floor.mpr hslow]
    decide

/-! ### Runs at the floor -/

section Run

variable [Crypto]

/-- The block of a call, if it is accepted after these, is accepted in the
bootstrap era of the live supply and with a live window at the floor. -/
def FloorDemanded (start : ChainState) (before : List (Env × Block)) (call : Env × Block) : Prop :=
  ∀ gd sp, (start.run before).Admitted call.1 call.2 gd sp →
    InBootstrap call.1.labEasyPow (start.run before).live.mintedSupply ∧
      (start.run before).WindowAtFloor sp

theorem difficulty_run (easy : Bool) (seed : Ledger) {calls : List (Env × Block)}
    (hall : AllCalls (ChainState.seeded easy true seed).FloorDemanded calls) {h : Hash} {b : Block}
    (hb : ((ChainState.seeded easy true seed).run calls).dag[h]? = some b)
    (hne : h ≠ genesisBlock.hash) : b.difficulty.toNat = bootstrapMinDifficulty := by
  refine Archival.each_block (Q := fun _ _ b => b.difficulty.toNat = bootstrapMinDifficulty)
    easy seed ?_ (fun _ _ _ h => h) hall hb hne
  intro calls env block gd sp hfloor _ hold a
  have hlow : ((ChainState.seeded easy true seed).run calls).Low := by
    intro h b hb
    by_cases hh : h = genesisBlock.hash
    · subst hh
      obtain rfl := Option.some.inj ((archival_genesis easy seed calls).1.symm.trans hb)
      decide
    · exact (hold h b hb hh).le
  obtain ⟨c, hc⟩ := DagInv.exists_block (a.parents_mem sp a.isBest.mem)
  obtain ⟨hera, hwindow⟩ := hfloor gd sp a
  rw [a.difficulty]
  exact expectedDifficultyAt_floor hlow a.selected hc hera hwindow

theorem atFloor_run (easy : Bool) (seed : Ledger) {calls : List (Env × Block)}
    (hall : AllCalls (ChainState.seeded easy true seed).FloorDemanded calls) {headers : List Block}
    (hblocks : ∀ (i : Nat) (b : Block), headers[i + 1]? = some b → ∃ (h : Hash) (b₀ : Block),
      ((ChainState.seeded easy true seed).run calls).dag[h]? = some b₀ ∧ h ≠ genesisBlock.hash ∧
        b = b₀.headerOnly) : AtFloor headers := by
  intro i b hb
  obtain ⟨h, b₀, hb₀, hne, rfl⟩ := hblocks i b hb
  change b₀.difficulty.toNat = bootstrapMinDifficulty
  exact difficulty_run easy seed hall hb₀ hne

/-- **Linear proofs of an archival node.** In a run whose blocks were all asked
for the floor, the proof of a pruning point verifies exactly when the verifier's
rule stays at the floor along it. -/
theorem pruning_proof_verifies_iff_paced (easy easy' : Bool) (seed : Ledger) (now : Nat)
    (calls : List (Env × Block)) (pp : Hash) (headers : List Block)
    (hclock : AllCalls (ClockedBy now) calls)
    (hfloor : AllCalls (ChainState.seeded easy true seed).FloorDemanded calls)
    (hbuild : (((ChainState.seeded easy true seed).run calls).atPoint pp).buildPruningProof = some headers)
    (hlen : headers.length ≤ maxPruningProofHeaders) :
    (∃ s, verifyPruningProof easy' now headers = .ok s ∧ s.pruningPoint = pp) ↔ Paced easy' headers := by
  obtain ⟨hserved, hlast, hblocks⟩ := served_run easy seed hclock hbuild
  have hheaders := atFloor_run easy seed hfloor hblocks
  constructor
  · rintro ⟨s, hok, -⟩
    exact paced_of_verify hserved hheaders hok
  · intro hpaced
    exact verify_of_paced hserved hheaders hlen hpaced hlast

end Run

end ChainState

namespace Sample

open ChainState (AllCalls ClockedBy DaaSamples)

/-! ### A chain of blocks, call by call -/

/-- The calls that mine a chain of `n` blocks. -/
def chainCalls : Nat → List (Env × Block)
  | 0 => []
  | n + 1 => chainCalls n ++ [(env, mined (built true (chain n)) (hashes [n]) (n + 1) 0)]

theorem run_chainCalls (n : Nat) : (ChainState.seeded false true {}).run (chainCalls n) = built true (chain n) := by
  induction n with
  | zero => rfl
  | succ n ih =>
      rw [chainCalls, ChainState.run_concat, ih, chain_succ, built_append, length_chain]

theorem clockedBy_chainCalls (n : Nat) : AllCalls (ClockedBy env.now) (chainCalls n) := by
  induction n with
  | zero => exact fun k call hk => by cases hk
  | succ n ih =>
      rw [chainCalls]
      exact ChainState.allCalls_concat.mpr ⟨ih, le_refl env.now⟩

/-! ### Its difficulty window -/

theorem addSample_seen {st : ChainState} {acc : DaaSamples} {x : Hash}
    (h : x ∈ acc.2 ∨ daaWindow ≤ acc.1.length) : st.addSample acc x = acc := by
  rw [ChainState.addSample, if_pos]
  rcases h with h | h
  · simp [h]
  · simp [h]

theorem addSample_le {st : ChainState} (acc : DaaSamples) (x : Hash) :
    (st.addSample acc x).1.length ≤ acc.1.length + 1 ∧
      (x ∈ (st.addSample acc x).2 ∨ daaWindow ≤ (st.addSample acc x).1.length) := by
  unfold ChainState.addSample
  split
  next hskip =>
    refine ⟨Nat.le_succ _, ?_⟩
    rw [Bool.or_eq_true, decide_eq_true_eq, ExtTreeSet.contains_iff_mem] at hskip
    exact hskip.symm
  next =>
    split
    · exact ⟨Nat.le_succ _, Or.inl (by simp)⟩
    · exact ⟨by simp, Or.inl (by simp)⟩

theorem Followed.exists_ghostdag {archival : Bool} {plan : List (List Nat)} {st : ChainState}
    (f : Followed archival plan st) {i : Nat} (hi : i ≤ plan.length) :
    ∃ d, st.ghostdag[blockHash i 0]? = some d := by
  have hmem := (f.numbered.whole.dagInv.known _).mpr (f.mem hi)
  exact Option.isSome_iff_exists.mp (ExtTreeMap.mem_iff_isSome_getElem?.mp hmem)

section Window

variable {n : Nat} {st : ChainState} (f : Followed true (chain n) st)

include f

/-- One step of the walk adds the block before. -/
theorem daaWalk_chain {i : Nat} (hi : i < n) (fuel : Nat) {acc : DaaSamples}
    (hroom : ¬ daaWindow ≤ acc.1.length) :
    st.daaWalk (fuel + 1) (blockHash (i + 1) 0) acc
      = st.daaWalk fuel (blockHash i 0) (st.addSample acc (blockHash i 0)) := by
  have hs := spine_chain n
  obtain ⟨d, hd⟩ := f.exists_ghostdag (i := i + 1) (by rw [length_chain]; omega)
  have hblues := (f.bluesOf_spine hs hi).1
  have hsp := f.spOf_spine hs hi
  simp only [GhostdagMap.bluesOf, GhostdagMap.spOf, hd, Option.map_some, Option.getD_some,
    Option.bind_some] at hblues hsp
  rw [ChainState.daaWalk, if_neg hroom, hd]
  simp only [hblues, hsp, List.foldl_cons, List.foldl_nil, List.isEmpty_cons, Bool.false_eq_true, if_false]

theorem daaWalk_genesis (fuel : Nat) {acc : DaaSamples} (hroom : ¬ daaWindow ≤ acc.1.length) :
    st.daaWalk (fuel + 1) (blockHash 0 0) acc = st.addSample acc (blockHash 0 0) := by
  obtain ⟨d, hd⟩ := f.exists_ghostdag (i := 0) (Nat.zero_le _)
  have hblues := f.numbered.whole.dagInv.bluesOf_root (f.mem (Nat.zero_le _)) f.spOf_genesis
  have hsp := f.spOf_genesis
  simp only [GhostdagMap.bluesOf, GhostdagMap.spOf, hd, Option.map_some, Option.getD_some,
    Option.bind_some] at hblues hsp
  rw [ChainState.daaWalk, if_neg hroom, hd]
  simp only [hblues, hsp, List.foldl_nil, List.isEmpty_nil, if_true]

/-- Along a chain each block adds one sample, the block before it. -/
theorem length_daaWalk_chain {i : Nat} (hi : i ≤ n) (fuel : Nat) (acc : DaaSamples)
    (hseen : blockHash i 0 ∈ acc.2 ∨ daaWindow ≤ acc.1.length) :
    (st.daaWalk fuel (blockHash i 0) acc).1.length ≤ acc.1.length + i := by
  induction i generalizing fuel acc with
  | zero =>
      cases fuel with
      | zero => exact Nat.le_refl _
      | succ fuel =>
          by_cases hfull : daaWindow ≤ acc.1.length
          · rw [ChainState.daaWalk, if_pos hfull]
            omega
          · rw [daaWalk_genesis f fuel hfull, addSample_seen hseen]
            omega
  | succ i ih =>
      cases fuel with
      | zero =>
          rw [ChainState.daaWalk]
          omega
      | succ fuel =>
          by_cases hfull : daaWindow ≤ acc.1.length
          · rw [ChainState.daaWalk, if_pos hfull]
            omega
          · obtain ⟨hle, hseen'⟩ := addSample_le acc (blockHash i 0)
            have hrest := ih (by omega) fuel (st.addSample acc (blockHash i 0)) hseen'
            rw [daaWalk_chain f (by omega) fuel hfull]
            omega

theorem length_samples_chain {i : Nat} (hi : i ≤ n) :
    (st.collectDaaBlueSamples (blockHash i 0)).length ≤ max i 1 := by
  have hroom : ¬ daaWindow ≤ (([], ∅) : DaaSamples).1.length := by decide
  unfold ChainState.collectDaaBlueSamples
  cases i with
  | zero =>
      rw [daaWalk_genesis f _ hroom]
      exact (addSample_le _ _).1
  | succ i =>
      obtain ⟨hle, hseen⟩ := addSample_le ([], ∅) (blockHash i 0)
      have hrest := length_daaWalk_chain f (i := i) (by omega)
        (st.ghostdag.scoreOf (blockHash (i + 1) 0)) (st.addSample ([], ∅) (blockHash i 0)) hseen
      rw [daaWalk_chain f (by omega) _ hroom]
      rw [List.length_nil] at hle
      omega

end Window

/-- The first blocks of a chain are asked for the floor. -/
theorem floorDemanded_chainCalls {n : Nat} (hn : n ≤ daaWindow) :
    AllCalls (ChainState.seeded false true {}).FloorDemanded (chainCalls n) := by
  induction n with
  | zero => exact fun k call hk => by cases hk
  | succ n ih =>
      rw [chainCalls]
      refine ChainState.allCalls_concat.mpr ⟨ih (by omega), fun gd sp a => ?_⟩
      have hsmall : n < 661 := hn
      have hfinal : n ≤ finalityDepth := by
        have : finalityDepth = 432000 := rfl
        omega
      have f := followed_chain true hfinal
      have inv := ChainState.Archival.run false {} (chainCalls n)
      rw [run_chainCalls] at a inv ⊢
      have hminted : (built true (chain n)).live.mintedSupply = n * blockReward := by
        rw [inv.live f.selectedTip_chain]
        refine f.mintedSupply_chain (le_refl n) ?_ ?_
        · unfold halvingInterval
          omega
        · unfold blockReward maxSupply Params.coin
          omega
      have hb := planned_chain (n + 1) n [n] (by simp [chain])
      have hnumbered := f.numbered
      rw [length_chain] at hnumbered
      obtain ⟨_, _, _, _, hparents, _⟩ := hnumbered.admitted hb (hnumbered.shallow (by omega))
      have hsp := a.isBest.mem
      rw [hparents, hashes, List.map_singleton, List.mem_singleton] at hsp
      subst hsp
      refine ⟨Or.inr ?_, Or.inl ?_⟩
      · rw [hminted]
        unfold blockReward bootstrapEraEnd Params.coin
        omega
      · have hle := length_samples_chain f (le_refl n)
        unfold daaWindow
        omega

theorem selectedChain_chain {n : Nat} {st : ChainState} (f : Followed true (chain n) st) {i j : Nat}
    (hi : i ≤ n) (hj : j ≤ i) : (st.ghostdag.selectedChain (blockHash i 0))[j]? = some (blockHash j 0) ∧
      (st.ghostdag.selectedChain (blockHash i 0)).length = i + 1 := by
  have hd := f.numbered.whole.dagInv.descends
  induction i generalizing j with
  | zero =>
      obtain rfl : j = 0 := by omega
      rw [GhostdagMap.selectedChain_root f.spOf_genesis]
      exact ⟨rfl, rfl⟩
  | succ i ih =>
      have hlen := (ih (by omega) (Nat.le_refl i)).2
      rw [GhostdagMap.selectedChain_step hd (f.spOf_spine (spine_chain n) (by omega)), List.length_append, hlen]
      refine ⟨?_, rfl⟩
      rcases Nat.lt_or_eq_of_le hj with hlt | rfl
      · rw [List.getElem?_append_left (by omega)]
        exact (ih (by omega) (by omega)).1
      · rw [List.getElem?_append_right (by omega), hlen, Nat.sub_self]
        rfl

/-- The proof of a chain for its tip has all its headers. -/
theorem exists_proof_chain {n : Nat} (hn : n ≤ finalityDepth) : ∃ headers,
    (((ChainState.seeded false true {}).run (chainCalls n)).atPoint (blockHash n 0)).buildPruningProof
      = some headers ∧ headers.length = n + 1 ∧
    ∀ i b, headers[i]? = some b → b.timestamp.toNat = time i := by
  have f := followed_chain true hn
  have hnumbered := f.numbered
  rw [length_chain] at hnumbered
  have w := hnumbered.whole
  rw [run_chainCalls]
  obtain ⟨headers, hbuild⟩ := w.exists_buildPruningProof f.selectedTip_chain (.refl _)
  obtain ⟨tip, hbuilt⟩ := ChainState.buildPruningProof_eq (w.of_core (ChainState.atPoint_core _ _)) rfl hbuild
  obtain rfl : blockHash n 0 = tip := Option.some.inj (f.selectedTip_chain.symm.trans hbuilt.selected)
  have hentry : ∀ i b, headers[i]? = some b → i ≤ n ∧ b.hash = blockHash i 0 ∧ b.timestamp.toNat = time i := by
    intro i b hb
    obtain ⟨h, b₀, hh, hb₀, rfl⟩ := hbuilt.blocks i b hb
    change ((built true (chain n)).ghostdag.selectedChain (blockHash n 0))[i]? = some h at hh
    have hlt := (List.getElem?_eq_some_iff.mp hh).1
    rw [(selectedChain_chain f (Nat.le_refl n) (Nat.zero_le n)).2] at hlt
    obtain rfl := Option.some.inj (hh.symm.trans (selectedChain_chain f (Nat.le_refl n) (by omega)).1)
    have hhash : b₀.hash = blockHash i 0 := w.dagInv.keyed hb₀
    exact ⟨by omega, hhash, (hnumbered.block i b₀ hb₀ hlt).1⟩
  refine ⟨headers, hbuild, ?_, fun i b hb => (hentry i b hb).2.2⟩
  obtain ⟨last, hlast, hhash⟩ := Option.map_eq_some_iff.mp hbuilt.last
  have hne : headers ≠ [] := by
    rintro rfl
    cases hlast
  have hpos := List.length_pos_iff.mpr hne
  rw [List.getLast?_eq_getElem?] at hlast
  obtain ⟨hle, hhash', -⟩ := hentry _ _ hlast
  have hsmall := hnumbered.small
  have := (blockHash_inj (by omega) (by omega) (by omega) (by omega) (hhash'.symm.trans hhash)).1
  omega

/-- **A fast chain**: the block that fills the verifier's window was admitted at
the floor, and the verifier asks it for a quarter more. -/
theorem fast_chain_fails_its_proof : ∃ (calls : List (Env × Block)) (pp : Hash) (headers : List Block)
    (now : Nat), AllCalls (ClockedBy now) calls ∧
    (((ChainState.seeded false true {}).run calls).atPoint pp).buildPruningProof = some headers ∧
    headers.length ≤ maxPruningProofHeaders ∧ ∀ s, verifyPruningProof false now headers ≠ .ok s := by
  have hfinal : daaWindow ≤ finalityDepth := by decide
  obtain ⟨headers, hbuild, hlen, htime⟩ := exists_proof_chain hfinal
  have hclock := clockedBy_chainCalls daaWindow
  obtain ⟨hserved, hlast, hblocks⟩ := ChainState.served_run false {} hclock hbuild
  have hfloor := ChainState.atFloor_run false {} (floorDemanded_chainCalls (Nat.le_refl _)) hblocks
  have hmax : headers.length ≤ maxPruningProofHeaders := by
    rw [hlen]
    decide
  refine ⟨chainCalls daaWindow, blockHash daaWindow 0, headers, env.now, hclock, hbuild, hmax, fun s hs => ?_⟩
  have hpaced := paced_of_verify hserved hfloor hs
  obtain ⟨before, hbefore⟩ : ∃ b, headers[daaWindow - 1]? = some b :=
    ⟨_, List.getElem?_eq_getElem (by omega)⟩
  obtain ⟨oldest, holdest⟩ : ∃ b, headers[daaWindow - daaWindow]? = some b :=
    ⟨_, List.getElem?_eq_getElem (by omega)⟩
  have hslow := (hpaced daaWindow (by decide) (by omega)).window (Nat.le_refl _) before oldest hbefore holdest
  rw [htime _ _ hbefore, htime _ _ holdest] at hslow
  unfold Unhurried at hslow
  revert hslow
  decide

/-- The proof of a chain of one block. -/
theorem proof_verifies_first : ∃ (calls : List (Env × Block)) (headers : List Block),
    AllCalls (ClockedBy env.now) calls ∧
    AllCalls (ChainState.seeded false true {}).FloorDemanded calls ∧
    (((ChainState.seeded false true {}).run calls).atPoint (blockHash 1 0)).buildPruningProof = some headers ∧
    headers.length ≤ maxPruningProofHeaders ∧
    ((∃ s, verifyPruningProof false env.now headers = .ok s ∧ s.pruningPoint = blockHash 1 0) ↔
      Paced false headers) := by
  obtain ⟨headers, hbuild, hlen, -⟩ := exists_proof_chain (n := 1) (by decide)
  have hclock := clockedBy_chainCalls 1
  have hfloor := floorDemanded_chainCalls (n := 1) (by decide)
  have hmax : headers.length ≤ maxPruningProofHeaders := by
    rw [hlen]
    decide
  exact ⟨chainCalls 1, headers, hclock, hfloor, hbuild, hmax,
    ChainState.pruning_proof_verifies_iff_paced false false {} env.now _ _ headers hclock hfloor hbuild hmax⟩

end Sample

end HassanNode
