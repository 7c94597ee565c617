import Mathlib
import HassanNode.Consensus.Values

/-!
# HassanNode.Consensus.History

The true block DAG: everything a node has accepted, with the bodies and the
GHOSTDAG data of the time, whatever the node has pruned since (`history`). A node
only ever knows selected-parent links of this DAG (`Logged`). So the finality
rule holds in it for every block the index lets the node check.
-/

namespace HassanNode

open Std (ExtTreeMap ExtTreeSet)
open Params

/-- All accepted blocks and their data at admission. -/
structure History where
  dag : Dag
  ghostdag : GhostdagMap

def History.add [Crypto] (F : History) (block : Block) (gd : GhostdagData) : History :=
  ⟨F.dag.insert block.hash block, F.ghostdag.insert block.hash gd⟩

namespace ChainState

section History

variable [Crypto]

/-- One call, with the history so far. -/
def logStep (s : ChainState × History) (call : Env × Block) : ChainState × History :=
  match s.1.admission call.1 call.2 with
  | .error _ => s
  | .ok gd => (s.1.accept call.1 call.2 gd, s.2.add call.2 gd)

/-- A run of calls with its history. -/
def logRun (st : ChainState) (calls : List (Env × Block)) : ChainState × History :=
  calls.foldl logStep (st, ⟨st.dag, st.ghostdag⟩)

/-- Everything accepted in a run. -/
def history (st : ChainState) (calls : List (Env × Block)) : History := (st.logRun calls).2

theorem logStep_cases (s : ChainState × History) (call : Env × Block) :
    logStep s call = s ∨ ∃ gd sp, s.1.Admitted call.1 call.2 gd sp ∧
      logStep s call = (s.1.accept call.1 call.2 gd, s.2.add call.2 gd) := by
  unfold logStep
  split
  · exact Or.inl rfl
  · rename_i gd h
    obtain ⟨sp, ha⟩ := admission_eq_ok.mp h
    exact Or.inr ⟨gd, sp, ha, rfl⟩

theorem logStep_fst (s : ChainState × History) (call : Env × Block) :
    (logStep s call).1 = s.1.step call := by
  rw [logStep, step, addBlock]
  cases s.1.admission call.1 call.2 <;> rfl

/-- The history is only written. -/
theorem logRun_fst (st : ChainState) (calls : List (Env × Block)) :
    (st.logRun calls).1 = st.run calls := by
  have hfold : ∀ s : ChainState × History, (calls.foldl logStep s).1 = s.1.run calls := by
    induction calls with
    | nil => exact fun s => rfl
    | cons call calls ih =>
        intro s
        rw [List.foldl_cons, ih, logStep_fst]
        rfl
  exact hfold _

theorem history_concat {st : ChainState} {calls : List (Env × Block)} {env : Env} {block : Block}
    {gd : GhostdagData} {sp : Hash} (a : (st.run calls).Admitted env block gd sp) :
    st.history (calls ++ [(env, block)]) = (st.history calls).add block gd := by
  have hlast : st.history (calls ++ [(env, block)]) = (logStep (st.logRun calls) (env, block)).2 := by
    simp only [history, logRun, List.foldl_append, List.foldl_cons, List.foldl_nil]
  rw [hlast, logStep, logRun_fst, admission_eq_ok.mpr ⟨sp, a⟩]
  rfl

/-- An invariant of a node and its history, kept by acceptance. -/
theorem logRun_induction {st : ChainState} {P : ChainState → History → Prop}
    (hst : P st ⟨st.dag, st.ghostdag⟩)
    (haccept : ∀ {s F env block gd sp}, P s F → s.Admitted env block gd sp →
      P (s.accept env block gd) (F.add block gd)) (calls : List (Env × Block)) :
    P (st.run calls) (st.history calls) := by
  have hfold : ∀ s : ChainState × History, P s.1 s.2 →
      P (calls.foldl logStep s).1 (calls.foldl logStep s).2 := by
    induction calls with
    | nil => exact fun s hs => hs
    | cons call calls ih =>
        intro s hs
        refine ih (logStep s call) ?_
        rcases logStep_cases s call with heq | ⟨gd, sp, ha, heq⟩
        · rw [heq]
          exact hs
        · rw [heq]
          exact haccept hs ha
  rw [← logRun_fst]
  exact hfold _ hst

/-- A node whose links are links of the history. -/
structure Logged (st : ChainState) (F : History) : Prop where
  consistent : st.Consistent
  links : ∀ {h p}, st.ghostdag.spOf h = some p → F.ghostdag.spOf h = some p
  roots : ∀ {h b}, st.dag[h]? = some b → b.parents = [] → F.ghostdag.spOf h = none

variable {st : ChainState} {F : History} {env : Env} {block : Block} {gd : GhostdagData} {sp : Hash}

/-- The links of an accepted state are old ones or the new block's. -/
theorem accept_spOf (c : st.Consistent) (a : st.Admitted env block gd sp) {h p : Hash}
    (hp : (st.accept env block gd).ghostdag.spOf h = some p) :
    h = block.hash ∧ p = sp ∨ h ≠ block.hash ∧ st.ghostdag.spOf h = some p := by
  obtain ⟨mid, floor, hcleared, -, -, hpruned⟩ := accept_pruned c a
  have hmid := (hpruned.spOf.mp hp).2.1
  rw [hcleared.ghostdag, (st.acceptFull_core env block gd).ghostdag] at hmid
  by_cases hh : h = block.hash
  · subst hh
    exact Or.inl ⟨rfl, Option.some.inj (hmid.symm.trans (spOf_insertBlock a))⟩
  · refine Or.inr ⟨hh, ?_⟩
    rwa [insertBlock, spOf_insert_ne (Ne.symm hh)] at hmid

theorem Logged.accept (l : Logged st F) (a : st.Admitted env block gd sp) :
    Logged (st.accept env block gd) (F.add block gd) := by
  refine ⟨l.consistent.accept a, fun {h p} hp => ?_, fun {h b} hb hroot => ?_⟩
  · rw [History.add]
    rcases accept_spOf l.consistent a hp with ⟨rfl, rfl⟩ | ⟨hh, hold⟩
    · exact spOf_insert_self.trans a.computed.selectedParent
    · exact (spOf_insert_ne (Ne.symm hh)).trans (l.links hold)
  · -- an admitted block has parents, so this is an old block
    obtain ⟨b₀, hor, hclr⟩ := accept_getElem? hb
    have hroot₀ : b₀.parents = [] := by rcases hclr with rfl | rfl <;> exact hroot
    rcases hor with ⟨rfl, -⟩ | hb₀
    · exact absurd hroot₀ a.parents_ne
    · have hne : block.hash ≠ h := fun heq => a.new (heq ▸ DagInv.mem_of_getElem? hb₀)
      rw [History.add]
      exact (spOf_insert_ne hne).trans (l.roots hb₀ hroot₀)

theorem Logged.run (easy archival : Bool) (seed : Ledger) (calls : List (Env × Block)) :
    Logged ((seeded easy archival seed).run calls) ((seeded easy archival seed).history calls) :=
  logRun_induction ⟨(whole_seeded easy archival seed).consistent, id, fun {h b} hb _ => by
    rw [(seeded_get easy archival seed hb).1]
    simp [GhostdagMap.spOf, seeded_ghostdag, GhostdagData.genesis]⟩ (fun l a => l.accept a) calls

/-! ### The finality rule -/

/-- The forest of an archival node is its selected-parent tree. -/
theorem archival_parentOf (easy : Bool) (seed : Ledger) (calls : List (Env × Block)) {h p : Hash}
    (hp : ((seeded easy true seed).run calls).ghostdag.spOf h = some p) :
    ((seeded easy true seed).run calls).reachability.parentOf h = some p := by
  refine (run_induction (P := fun s => Archival seed s ∧ ∀ h p, s.ghostdag.spOf h = some p →
    s.reachability.parentOf h = some p) ⟨.seeded easy seed, fun h p hp => ?_⟩ ?_ calls).2 h p hp
  · obtain ⟨hh, hsp⟩ := (whole_seeded easy true seed).dagInv.spOf_mem hp
    have hparent := (whole_seeded easy true seed).dagInv.spOf_parent hp
    simp [seeded_parentsOf] at hparent
  · rintro s env block gd sp ⟨inv, hall⟩ a
    have hspi := inv.full sp (a.parents_mem sp a.isBest.mem)
    have hadded := inv.whole.added_insertBlock a hspi
    refine ⟨inv.accept a, fun h p hp => ?_⟩
    rw [accept_archival s env block gd inv.archival] at hp ⊢
    have hcore := s.acceptFull_core env block gd
    rw [hcore.ghostdag] at hp
    rw [hcore.reachability]
    by_cases hh : h = block.hash
    · subst hh
      rw [spOf_insertBlock a] at hp
      rw [hadded.parent_new, hp]
    · rw [insertBlock, spOf_insert_ne (Ne.symm hh)] at hp
      rw [hadded.parent_old h hh]
      exact hall h p hp

/-- The index can check the finality rule for a block: it has the finality
point and the block's selected parent. -/
def FinalityIndexed (st : ChainState) (block : Block) : Prop :=
  ∀ fp sp, st.finalityPoint = some fp → st.ghostdag.selectParent block.parents = some sp →
    fp ∈ st.reachability.nodes ∧ sp ∈ st.reachability.nodes

/-- On an archival node it always can. -/
theorem Archival.finalityIndexed {seed : Ledger} (inv : Archival seed st) (block : Block) :
    st.FinalityIndexed block := by
  intro fp sp hfp hsp
  have hknown := (GhostdagMap.selectBest_eq_some.mp hsp).known
  exact ⟨inv.full fp (inv.frontier_mem (inv.frontier.trans hfp)).2,
    inv.full sp ((inv.whole.dagInv.known sp).mp hknown)⟩

/-- An admitted block that could be checked builds on the finality point. -/
theorem Consistent.above_selectedParent (c : st.Consistent) (a : st.Admitted env block gd sp)
    {fp : Hash} (hfp : st.finalityPoint = some fp) (hindexed : st.FinalityIndexed block) :
    Above st.ghostdag.spOf fp sp := by
  obtain ⟨hfpi, hspi⟩ := hindexed fp sp hfp a.selected
  have hchain := a.chain hfp (Reachability.isChainAncestor_isSome hfpi hspi)
  have habove := ((c.index.isChainAncestor_eq hchain).2.2).mp rfl
  exact habove.mono fun _ _ _ hp => c.links hp

/-- **The finality rule**, for every node mode: an accepted block that the index
could check reaches the finality point along selected parents, in the DAG of
everything the node has accepted. On an archival node every block is checked. -/
theorem accepted_reaches_finality_point (easy archival : Bool) (seed : Ledger)
    (calls : List (Env × Block)) (env : Env) (block : Block) :
    let st := (seeded easy archival seed).run calls
    let F := (seeded easy archival seed).history (calls ++ [(env, block)])
    ∀ st' fp, st.addBlock env block = .ok st' → st.finalityPoint = some fp →
      (archival = true ∨ st.FinalityIndexed block) → Above F.ghostdag.spOf fp block.hash := by
  intro st F st' fp hok hfp hcond
  obtain ⟨gd, sp, a, rfl⟩ := addBlock_eq_ok.mp hok
  have l : Logged st ((seeded easy archival seed).history calls) := .run easy archival seed calls
  have hF : F = ((seeded easy archival seed).history calls).add block gd := history_concat a
  have hindexed : st.FinalityIndexed block := by
    rcases hcond with harch | hindexed
    · subst harch
      exact (Archival.run easy seed calls).finalityIndexed block
    · exact hindexed
  have habove := l.consistent.above_selectedParent a hfp hindexed
  have hspmem := a.parents_mem sp a.isBest.mem
  rw [hF, History.add]
  refine .step (spOf_insert_self.trans a.computed.selectedParent) (habove.mono fun x p hx hp => ?_)
  -- the chain of an old block does not meet the new one
  have hne : block.hash ≠ x := fun heq => a.new (heq ▸ l.consistent.above_mem hspmem hx)
  exact (spOf_insert_ne hne).trans (l.links hp)

end History

end ChainState

/-! ### A block that the index cannot check -/

namespace Sample

/-- A chain that is one block too short for a finality point, a side block on
the genesis block, and then the block that makes block `1` final. -/
def sidelined : List (List Nat) := chain finalityDepth ++ [[0]] ++ [[finalityDepth]]

theorem sidelined_spine : Followed.Spine sidelined finalityDepth := by
  intro i hi
  have hlen := length_chain finalityDepth
  rw [sidelined, List.append_assoc, List.getElem?_append_left (by omega)]
  exact spine_chain finalityDepth i hi

theorem sidelined_side : sidelined[finalityDepth]? = some [0] := by
  have hlen := length_chain finalityDepth
  rw [sidelined, List.append_assoc, List.getElem?_append_right (by omega), hlen, Nat.sub_self]
  rfl

theorem sidelined_last : sidelined[finalityDepth + 1]? = some [finalityDepth] := by
  have hlen := length_chain finalityDepth
  rw [sidelined, List.append_assoc, List.getElem?_append_right (by omega), hlen,
    Nat.add_sub_cancel_left]
  rfl

theorem length_sidelined : sidelined.length = finalityDepth + 2 := by
  simp [sidelined, length_chain]

theorem finalityDepth_small : finalityDepth + 8 < 2 ^ 40 := by decide

namespace Followed

variable {archival : Bool} {plan : List (List Nat)} {st : ChainState}

section Side

variable (f : Followed archival plan st) (hs : Spine plan finalityDepth)
  (hside : plan[finalityDepth]? = some [0])

include f hs hside

theorem scoreOf_side : st.ghostdag.scoreOf (blockHash (finalityDepth + 1) 0) = 1 := by
  rw [(f.bluesOf_only hside).2, f.scoreOf_spine hs (Nat.zero_le _)]

/-- Before the last block nothing is deep. -/
theorem shallow_side (hlen : plan.length = finalityDepth + 1) : Numbered.Shallow st := by
  intro x hx
  obtain ⟨i, hi, rfl⟩ := (f.numbered.mem x).mp hx
  rcases Nat.lt_or_ge finalityDepth i with hgt | hle
  · obtain rfl : i = finalityDepth + 1 := by omega
    rw [f.scoreOf_side hs hside]
    decide
  · rw [f.scoreOf_spine hs hle]
    exact hle

end Side

variable (f : Followed archival sidelined st)

include f

theorem scoreOf_last : st.ghostdag.scoreOf (blockHash (finalityDepth + 2) 0) = finalityDepth + 1 := by
  rw [(f.bluesOf_only sidelined_last).2, f.scoreOf_spine sidelined_spine (le_refl _)]

theorem selectedTip_sidelined : st.selectedTip = some (blockHash (finalityDepth + 2) 0) := by
  have hlen := length_sidelined
  have w := f.numbered.whole
  obtain ⟨tip, htip⟩ := w.selected
  have hbest := ChainState.selectedTip_isBest htip
  obtain ⟨hdag, hchildless⟩ := (w.tips tip).mp hbest.mem
  obtain ⟨i, hi, rfl⟩ := (f.numbered.mem tip).mp hdag
  rcases Nat.lt_trichotomy i (finalityDepth + 1) with hlt | rfl | hgt
  · -- a block of the chain has a child
    rcases Nat.lt_succ_iff_lt_or_eq.mp hlt with hlt | rfl
    · exact absurd (by rw [f.parentsOf_spine sidelined_spine hlt]; simp) (hchildless (blockHash (i + 1) 0))
    · refine absurd ?_ (hchildless (blockHash (finalityDepth + 1 + 1) 0))
      rw [f.parents _ _ sidelined_last]
      simp [hashes]
  · have hlast : blockHash (finalityDepth + 2) 0 ∈ st.tips := by
      refine (w.tips _).mpr ⟨f.mem (by omega), fun k hk => ?_⟩
      have hkmem : k ∈ st.dag := by
        by_contra hout
        simp [Dag.parentsOf_eq_nil hout] at hk
      have hpast := w.dagInv.score_lt_past (.of_parent hk (Or.inl rfl)) hkmem
      obtain ⟨j, hj, rfl⟩ := (f.numbered.mem k).mp hkmem
      rw [f.scoreOf_last] at hpast
      rcases Nat.lt_trichotomy j (finalityDepth + 1) with hlt | rfl | hgt
      · rw [f.scoreOf_spine sidelined_spine (by omega)] at hpast
        omega
      · rw [f.scoreOf_side sidelined_spine sidelined_side] at hpast
        omega
      · obtain rfl : j = finalityDepth + 2 := by omega
        rw [f.scoreOf_last] at hpast
        omega
    have hrank := GhostdagMap.score_le_of_rankLe
      (hbest.best _ hlast ((w.dagInv.known _).mpr (f.mem (by omega))))
    rw [f.scoreOf_last, f.scoreOf_side sidelined_spine sidelined_side] at hrank
    have : finalityDepth = 432000 := rfl
    omega
  · obtain rfl : i = finalityDepth + 2 := by omega
    exact htip

/-- Block `1` is final. -/
theorem finalityPoint_sidelined : st.finalityPoint = some (blockHash 1 0) := by
  have hlen := length_sidelined
  have w := f.numbered.whole
  have htip := f.selectedTip_sidelined
  have hknown := (w.dagInv.known _).mpr (f.mem (i := finalityDepth + 2) (by omega))
  have habove : Above st.ghostdag.spOf (blockHash 1 0) (blockHash (finalityDepth + 2) 0) :=
    .step (f.spOf_only sidelined_last) (f.above_spine sidelined_spine (by decide) (le_refl _))
  have hscore := f.scoreOf_spine sidelined_spine (i := 1) (by decide)
  obtain ⟨fp, hfp⟩ := ChainState.lastBelow_isSome w.dagInv.descends w.linked_ghostdag hknown habove
    hscore.le
  have hlast := ChainState.lastBelow_spec w.dagInv.descends w.linked_ghostdag hknown hfp
  rw [ChainState.finalityPoint_eq htip, f.scoreOf_last, if_neg (by omega), Nat.add_sub_cancel_left, hfp]
  -- the chain has one block of each score, and block `1` is below `fp`
  have hbelow := hlast.last _ habove hscore.le
  have heq : st.ghostdag.scoreOf fp = 1 :=
    le_antisymm hlast.low (hscore ▸ w.dagInv.descends.score_le hbelow)
  rcases w.dagInv.past_of_above hbelow with rfl | hpast
  · rfl
  · have hfpmem := w.dagInv.above_mem hlast.above (f.mem (i := finalityDepth + 2) (by omega))
    have := w.dagInv.score_lt_past hpast hfpmem
    omega

end Followed

/-- The side block of that plan, on a node in either mode. -/
theorem Followed.accept_side {archival : Bool} {st : ChainState}
    (f : Followed archival (chain finalityDepth) st) : ∃ (b : Block) (gd : GhostdagData) (sp : Hash),
      st.Admitted env b gd sp ∧ Followed archival (chain finalityDepth ++ [[0]]) (st.accept env b gd) ∧
      Numbered.Shallow (st.accept env b gd) ∧
      (st.accept env b gd).dag[blockHash (finalityDepth + 1) 0]? = some b := by
  have hsmall := finalityDepth_small
  have hlen := length_chain finalityDepth
  have hlen' : (chain finalityDepth ++ [[0]]).length = finalityDepth + 1 := by
    rw [List.length_append, hlen, List.length_singleton]
  have hspine : Spine (chain finalityDepth ++ [[0]]) finalityDepth := by
    intro i hi
    rw [List.getElem?_append_left (by omega)]
    exact spine_chain finalityDepth i hi
  have hside : (chain finalityDepth ++ [[0]])[finalityDepth]? = some [0] := by
    rw [List.getElem?_append_right (by omega), hlen, Nat.sub_self]
    rfl
  have hbuild : Numbered.Buildable ((chain finalityDepth).length + 1) [0] :=
    ⟨by simp, by decide, by simp, fun i hi => by rw [List.mem_singleton.mp hi]; omega,
      Or.inr ⟨0, rfl⟩⟩
  have hlow := f.numbered.shallow (by omega)
  obtain ⟨-, -, -, hhash, -⟩ := f.numbered.admitted hbuild hlow
  obtain ⟨gd, sp, a, f'⟩ := f.acceptFull (by omega) hlow hbuild
  have hlow' := f'.shallow_side hspine hside hlen'
  have hnumbered := f'.numbered
  rw [List.length_append, List.length_singleton] at hnumbered
  have heq := hnumbered.accept_eq (Or.inr (Or.inr hlow'))
  rw [← heq] at f' hlow'
  refine ⟨_, gd, sp, a, f', hlow', ?_⟩
  rw [heq, (ChainState.acceptFull_core _ _ _ _).dag]
  have hnumber : blockHash (finalityDepth + 1) 0 = blockHash ((chain finalityDepth).length + 1) 0 := by
    rw [hlen]
  rw [hnumber, ← hhash]
  exact ChainState.getElem?_insertBlock

/-- The last block of that plan is admitted, in either mode. -/
theorem exists_sidelined (archival : Bool) :
    ∃ (calls : List (Env × Block)) (b : Block) (gd : GhostdagData) (sp : Hash),
    ((ChainState.seeded false archival {}).run calls).Admitted env b gd sp ∧
      Followed archival sidelined (((ChainState.seeded false archival {}).run calls).acceptFull env b gd) ∧
      ∃ c, (((ChainState.seeded false archival {}).run calls).acceptFull env b gd
        ).dag[blockHash (finalityDepth + 1) 0]? = some c ∧ c.starkProof ≠ [] := by
  have hsmall := finalityDepth_small
  have hlen : (chain finalityDepth ++ [[0]]).length = finalityDepth + 1 := by
    rw [List.length_append, length_chain, List.length_singleton]
  obtain ⟨calls, hcalls⟩ := built_run archival (chain finalityDepth)
  have f := followed_chain archival (le_refl finalityDepth)
  rw [hcalls] at f
  obtain ⟨b, gd, sp, a, f', hlow, hside⟩ := f.accept_side
  rw [← a.step, ← ChainState.run_concat] at f' hlow hside
  have hbuild : Numbered.Buildable ((chain finalityDepth ++ [[0]]).length + 1) [finalityDepth] :=
    ⟨by simp, by simp [maxBlockParents], by simp, by rw [hlen]; simp, Or.inr ⟨_, rfl⟩⟩
  obtain ⟨gd', sp', a', f''⟩ := f'.acceptFull (by omega) hlow hbuild
  refine ⟨calls ++ [(env, b)], _, gd', sp', a', f'', b, ?_, a.starkProof_ne⟩
  rw [(ChainState.acceptFull_core _ _ _ _).dag, (ChainState.extends_insertBlock a').dag _
    (DagInv.mem_of_getElem? hside), hside]

/-- A pruning node after that plan: the side block is out of its index. -/
structure Sidelined (u : ChainState) : Prop where
  mem : ∀ h, h ∈ u.dag ↔ ∃ i < finalityDepth + 3, h = blockHash i 0
  known : ∀ h, h ∈ u.ghostdag ↔ h ∈ u.dag
  block : ∀ i b, u.dag[blockHash i 0]? = some b → i < finalityDepth + 3 →
    b.timestamp.toNat = time i ∧ b.interlinks.length ≤ 64
  genesis : ∃ b, u.dag[blockHash 0 0]? = some b ∧ b.parents = []
  link : u.ghostdag.spOf (blockHash (finalityDepth + 1) 0) = some (blockHash 0 0)
  point : u.finalityPoint = some (blockHash 1 0)
  dropped : blockHash (finalityDepth + 1) 0 ∉ u.reachability.nodes

section Accept

variable {st : ChainState} {b : Block} {gd : GhostdagData}

/-- That far, only bodies are pruned. -/
theorem Followed.accept_sidelined (f : Followed false sidelined (st.acceptFull env b gd)) :
    st.accept env b gd = (st.acceptFull env b gd).pruneBodies env := by
  have hcleared := (st.acceptFull env b gd).pruneBodies_spec env
  have htip := hcleared.selectedTip.trans f.selectedTip_sidelined
  have hdeep : ((st.acceptFull env b gd).pruneBodies env).ghostdag.scoreOf
      (blockHash (finalityDepth + 2) 0) ≤ pruningDepth := by
    rw [hcleared.ghostdag, f.scoreOf_last]
    decide
  rw [ChainState.accept, ChainState.pruneHistory, htip]
  simp [hdeep]

/-- The body of the side block is one of them. -/
theorem Followed.side_toPrune {c : Block} (f : Followed false sidelined (st.acceptFull env b gd))
    (hc : (st.acceptFull env b gd).dag[blockHash (finalityDepth + 1) 0]? = some c)
    (hproof : c.starkProof ≠ []) :
    blockHash (finalityDepth + 1) 0 ∈ (st.acceptFull env b gd).toPrune env := by
  have hlen := length_sidelined
  have hscore : (st.acceptFull env b gd).selectedTipBlueScore = finalityDepth + 1 := by
    rw [ChainState.selectedTipBlueScore, f.selectedTip_sidelined]
    exact f.scoreOf_last
  have hside := (f.numbered.whole.dagInv.known _).mpr (f.mem (i := finalityDepth + 1) (by omega))
  rw [ChainState.toPrune, f.mode, hscore, if_neg (by simp)]
  refine List.mem_filter.mpr ⟨?_, ?_⟩
  · change blockHash (finalityDepth + 1) 0 ∈ (st.acceptFull env b gd).dag.keys
    exact ExtTreeMap.mem_keys.mpr (f.mem (by omega))
  · rw [ChainState.scoreOrMax_eq hside, f.scoreOf_side sidelined_spine sidelined_side, hc]
    simp [Block.isBodyEmpty, hproof]

end Accept

theorem Sidelined.of_followed {st : ChainState} {b : Block} {gd : GhostdagData} {c : Block}
    (f : Followed false sidelined (st.acceptFull env b gd))
    (hc : (st.acceptFull env b gd).dag[blockHash (finalityDepth + 1) 0]? = some c)
    (hproof : c.starkProof ≠ []) : Sidelined (st.accept env b gd) := by
  have hlen := length_sidelined
  have hsmall := finalityDepth_small
  have w := f.numbered.whole
  have hspine := sidelined_spine
  have hcleared := (st.acceptFull env b gd).pruneBodies_spec env
  rw [← f.accept_sidelined] at hcleared
  have hprune := f.side_toPrune hc hproof
  refine ⟨fun h => ?_, fun h => ?_, fun i b' hb' hi => ?_, ?_, ?_, ?_, ?_⟩
  · rw [hcleared.mem, f.numbered.mem, hlen]
  · rw [hcleared.ghostdag, hcleared.mem]
    exact w.dagInv.known h
  · rw [hcleared.dag] at hb'
    split at hb'
    · obtain ⟨b₀, hb₀, rfl⟩ := Option.map_eq_some_iff.mp hb'
      exact f.numbered.block i b₀ hb₀ (by omega)
    · exact f.numbered.block i b' hb' (by omega)
  · obtain ⟨g, hg⟩ := DagInv.exists_block (f.mem (i := 0) (Nat.zero_le _))
    have hroot : g.parents = [] := by rw [← Dag.parentsOf_eq hg, f.genesis]
    rw [hcleared.dag, hg]
    split
    · exact ⟨g.clearBody, rfl, hroot⟩
    · exact ⟨g, rfl, hroot⟩
  · rw [hcleared.ghostdag]
    exact f.spOf_only sidelined_side
  · rw [ChainState.finalityPoint_congr hcleared.ghostdag hcleared.tips]
    exact f.finalityPoint_sidelined
  · rw [hcleared.index]
    refine Reachability.foldl_dropLeaf_notMem w.covers.wf hprune fun k hk => ?_
    -- no block was built on the side block
    have hparent := w.dagInv.spOf_parent (w.linked k _ hk)
    have hkmem : k ∈ (st.acceptFull env b gd).dag := by
      by_contra hout
      simp [Dag.parentsOf_eq_nil hout] at hparent
    obtain ⟨j, hj, rfl⟩ := (f.numbered.mem k).mp hkmem
    have hne : ∀ {i}, i ≤ finalityDepth → blockHash (finalityDepth + 1) 0 ≠ blockHash i 0 := fun hi =>
      blockHash_ne (by omega) (by omega) (by omega)
    cases j with
    | zero => simp [f.genesis] at hparent
    | succ j =>
        rcases Nat.lt_trichotomy j finalityDepth with hlt | rfl | hgt
        · rw [f.parentsOf_spine hspine hlt, List.mem_singleton] at hparent
          exact hne hlt.le hparent
        · rw [f.parents _ _ sidelined_side, hashes, List.map_singleton, List.mem_singleton] at hparent
          exact hne (Nat.zero_le _) hparent
        · obtain rfl : j = finalityDepth + 1 := by omega
          rw [f.parents _ _ sidelined_last, hashes, List.map_singleton, List.mem_singleton] at hparent
          exact hne (le_refl _) hparent

/-- The next block can be mined on any block that the index does not rule out. -/
theorem admitted_on {st : ChainState} {n p : Nat} (hsmall : n < 2 ^ 40)
    (hmem : ∀ h, h ∈ st.dag ↔ ∃ i < n, h = blockHash i 0) (hknown : ∀ h, h ∈ st.ghostdag ↔ h ∈ st.dag)
    (hblock : ∀ i b, st.dag[blockHash i 0]? = some b → i < n →
      b.timestamp.toNat = time i ∧ b.interlinks.length ≤ 64) (hp : p < n)
    (hfinality : ∀ fp, st.finalityPoint = some fp →
      st.reachability.isChainAncestor fp (blockHash p 0) ≠ some false) :
    ∃ (b : Block) (gd : GhostdagData), st.Admitted env b gd (blockHash p 0) ∧
      b.hash = blockHash n 0 := by
  have hpmem := (hmem (blockHash p 0)).mpr ⟨p, hp, rfl⟩
  have hpknown := (hknown _).mpr hpmem
  have hdata : st.computeGhostdag [blockHash p 0] = .ok _ := tryCompute_onlyParent hpknown
  have hlinks : ∀ (h : Hash) (b : Block), st.dag[h]? = some b → b.interlinks.length ≤ 64 := by
    intro h b hb
    obtain ⟨i, hi, rfl⟩ := (hmem h).mp (DagInv.mem_of_getElem? hb)
    exact (hblock i b hb hi).2
  have hahead : st.AheadOf (time n) (blockHash p 0) := by
    intro c b _ hb
    obtain ⟨i, hi, rfl⟩ := (hmem c).mp (DagInv.mem_of_getElem? hb)
    rw [(hblock i b hb hi).1, time, time]
    omega
  have hfresh : blockHash n 0 ∉ st.dag := by
    intro hin
    obtain ⟨i, hi, heq⟩ := (hmem _).mp hin
    exact blockHash_ne (by omega) (by omega) (by omega) heq
  have hsealed := mined_sealed hsmall (by norm_num) hfresh (List.cons_ne_nil _ _) (by simp [maxBlockParents])
    (List.nodup_singleton _) (by simpa using ⟨hpmem, hpknown⟩) hlinks (by simpa using hahead)
    hfinality hdata rfl
  obtain ⟨gd, sp, a⟩ := hsealed.admitted
  have hparents : (mined st [blockHash p 0] n 0).parents = [blockHash p 0] := by
    rw [mined_eq hdata rfl]
    rfl
  obtain rfl : sp = blockHash p 0 := by
    have hsp := a.isBest.mem
    rwa [hparents, List.mem_singleton] at hsp
  exact ⟨_, gd, a, mined_hash _ _ (by omega) (by norm_num) hdata rfl⟩

/-- A block on the side block is admitted, since the index has nothing to say. -/
theorem Sidelined.admitted {u : ChainState} (s : Sidelined u) : ∃ (b : Block) (gd : GhostdagData),
    u.Admitted env b gd (blockHash (finalityDepth + 1) 0) ∧
      b.hash = blockHash (finalityDepth + 3) 0 := by
  have hsmall := finalityDepth_small
  refine admitted_on (by omega) s.mem s.known s.block (by omega) fun fp _ => ?_
  rw [Reachability.isChainAncestor_eq_none s.dropped]
  simp

/-- The selected chain of such a block: itself, the side block, the genesis
block. -/
theorem Sidelined.avoids {u : ChainState} {F : History} (s : Sidelined u) (l : u.Logged F) {b : Block}
    {gd : GhostdagData} (a : u.Admitted env b gd (blockHash (finalityDepth + 1) 0))
    (hhash : b.hash = blockHash (finalityDepth + 3) 0) :
    ¬ Above (F.add b gd).ghostdag.spOf (blockHash 1 0) b.hash := by
  have hsmall := finalityDepth_small
  have hne : ∀ {i j : Nat}, i ≠ j → i < finalityDepth + 4 → j < finalityDepth + 4 →
      blockHash i 0 ≠ blockHash j 0 := fun hij hi hj => blockHash_ne (by omega) (by omega) hij
  have hold : ∀ {i}, i < finalityDepth + 3 →
      (F.add b gd).ghostdag.spOf (blockHash i 0) = F.ghostdag.spOf (blockHash i 0) := by
    intro i hi
    refine ChainState.spOf_insert_ne ?_
    rw [hhash]
    exact hne (by omega) (by omega) (by omega)
  have htop : (F.add b gd).ghostdag.spOf b.hash = some (blockHash (finalityDepth + 1) 0) :=
    ChainState.spOf_insert_self.trans a.computed.selectedParent
  obtain ⟨g, hg, hroot⟩ := s.genesis
  have hdeep : 1 < finalityDepth := by decide
  intro habove
  rcases habove.cases_step with heq | ⟨p, hp, habove⟩
  · rw [hhash] at heq
    exact hne (by omega) (by omega) (by omega) heq
  · obtain rfl := Option.some.inj (hp.symm.trans htop)
    rcases habove.cases_step with heq | ⟨p, hp, habove⟩
    · exact hne (by omega) (by omega) (by omega) heq
    · rw [hold (by omega), l.links s.link] at hp
      obtain rfl := Option.some.inj hp
      rcases habove.cases_step with heq | ⟨p, hp, -⟩
      · exact hne (by omega) (by omega) (by omega) heq
      · rw [hold (by omega), l.roots hg hroot] at hp
        cases hp

/-- A pruning node accepts a block whose selected chain avoids the finality
point. -/
theorem side_block_avoids_finality_point :
    ¬ ∀ (easy archival : Bool) (seed : Ledger) (calls : List (Env × Block)) (env : Env) (block : Block),
      let st := (ChainState.seeded easy archival seed).run calls
      let F := (ChainState.seeded easy archival seed).history (calls ++ [(env, block)])
      ∀ st' fp, st.addBlock env block = .ok st' → st.finalityPoint = some fp →
        Above F.ghostdag.spOf fp block.hash := by
  intro hall
  obtain ⟨calls, b, gd, sp, a, f, c, hc, hproof⟩ := exists_sidelined false
  have s := Sidelined.of_followed f hc hproof
  rw [← a.step, ← ChainState.run_concat] at s
  obtain ⟨b', gd', a', hhash⟩ := s.admitted
  have habove := hall false false {} (calls ++ [(env, b)]) env b' _ _
    (ChainState.addBlock_eq_ok.mpr ⟨gd', _, a', rfl⟩) s.point
  rw [ChainState.history_concat a'] at habove
  exact s.avoids (.run false false {} _) a' hhash habove

/-- The rule on an archival node that follows the plan: the next block on the
chain reaches block `1`. -/
theorem finality_reached_sidelined : ∃ (calls : List (Env × Block)) (block : Block),
    let F := (ChainState.seeded false true {}).history (calls ++ [(env, block)])
    ((ChainState.seeded false true {}).run calls).finalityPoint = some (blockHash 1 0) ∧
      Above F.ghostdag.spOf (blockHash 1 0) block.hash := by
  have hsmall := finalityDepth_small
  have hlen := length_sidelined
  obtain ⟨calls, b, gd, sp, a, f, -⟩ := exists_sidelined true
  have inv : ChainState.Archival {} ((ChainState.seeded false true {}).run calls) := .run false {} calls
  have inv' : ChainState.Archival {} ((ChainState.seeded false true {}).run (calls ++ [(env, b)])) :=
    .run false {} _
  have hlinks : ∀ {h p}, ((ChainState.seeded false true {}).run (calls ++ [(env, b)])).ghostdag.spOf h
      = some p → ((ChainState.seeded false true {}).run (calls ++ [(env, b)])).reachability.parentOf h
        = some p := fun hp => ChainState.archival_parentOf false {} _ hp
  rw [← ChainState.accept_archival _ _ _ _ inv.archival, ← a.step, ← ChainState.run_concat] at f
  have hpoint := f.finalityPoint_sidelined
  have habove : Above ((ChainState.seeded false true {}).run (calls ++ [(env, b)])).ghostdag.spOf
      (blockHash 1 0) (blockHash (finalityDepth + 2) 0) :=
    .step (f.spOf_only sidelined_last) (f.above_spine sidelined_spine (by decide) (le_refl _))
  obtain ⟨block, gd', a', -⟩ := admitted_on (p := finalityDepth + 2) f.numbered.small f.numbered.mem
    f.numbered.whole.dagInv.known f.numbered.block (by omega) fun fp hfp hfalse => by
      obtain rfl := Option.some.inj (hpoint.symm.trans hfp)
      have hiff := (f.numbered.whole.covers.wf.isChainAncestor_eq hfalse).2.2
      exact Bool.false_ne_true (hiff.mpr (habove.mono fun _ _ _ hp => hlinks hp))
  exact ⟨calls ++ [(env, b)], block, hpoint, ChainState.accepted_reaches_finality_point false true {}
    (calls ++ [(env, b)]) env block _ _ (ChainState.addBlock_eq_ok.mpr ⟨gd', _, a', rfl⟩) hpoint
    (Or.inl rfl)⟩

end Sample

end HassanNode
