import Mathlib
import HassanNode.Ledger.Supply
import HassanNode.Consensus.AccountRuns
import HassanNode.Consensus.MempoolRuns

/-!
# HassanNode.Consensus.SupplyRuns

The supply identity along the runs of a node, archival or not. Every ledger a node keeps
is a replay on its finalized base, so a run keeps the identity in every state and after
every step of its replays, as long as the blocks are counted on the ledgers they meet
(`supply_kept`). Twins are not: the second mint takes the place of the first.
-/

namespace HassanNode

open Std (ExtTreeMap)
open Params

namespace ChainState

section Runs

variable [Crypto] {P : UtxoTx → Prop} {st st₀ : ChainState} {calls : List (Env × Block)}
  {env : Env} {block : Block} {gd : GhostdagData} {sp : Hash}

/-! ### The replays of a run -/

/-- The identity holds after a part of a replay, on the state itself and in a throwaway one. -/
def SupplyOkAfter (st : ChainState) (done : List Hash) : Prop :=
  (st.applyAll st.simBase done).supplyInvariantOk = true ∧
    (done.foldl st.simStep (st.simBase, ∅)).1.supplyInvariantOk = true

/-- These blocks are counted on the ledgers they meet when the node replays them on its base. -/
def ReplayCounted (st : ChainState) (hs : List Hash) : Prop :=
  st.simBase.CountedReplay st.chainId (st.blocksAt hs)

/-- A spend of an accepted block. -/
def Spends (st₀ : ChainState) (calls : List (Env × Block)) (tx : UtxoTx) : Prop :=
  ∃ b, st₀.Accepts calls b ∧ tx ∈ b.utxoTxs

/-- The ids of the spends in accepted blocks do not collide. -/
def SpentIdsDistinct (st₀ : ChainState) (calls : List (Env × Block)) : Prop :=
  ∀ tx tx', st₀.Spends calls tx → st₀.Spends calls tx' → tx.txHash = tx'.txHash → tx.hashBytes = tx'.hashBytes

theorem goodTxs_spends (hids : st₀.SpentIdsDistinct calls) : GoodTxs (st₀.Spends calls) := by
  have hformed : ∀ tx, st₀.Spends calls tx → tx.validateForm = .ok () ∧ tx.CreditsAddressed := by
    intro tx htx
    obtain ⟨b, ⟨pre, env, -, st', haccept⟩, hmem⟩ := htx
    obtain ⟨gd, sp, a, -⟩ := addBlock_eq_ok.mp haccept
    exact a.formed tx hmem
  refine ⟨fun tx tx' htx htx' heq => ?_, fun tx htx => (hformed tx htx).2⟩
  obtain ⟨-, -, hlen, -⟩ := UtxoTx.validateForm_ok (hformed tx htx).1
  obtain ⟨-, -, hlen', -⟩ := UtxoTx.validateForm_ok (hformed tx' htx').1
  exact UtxoTx.inputs_eq_of_hashBytes hlen hlen' (hids tx tx' htx htx' heq)

/-! ### The ledgers of a node -/

/-- The spends of the node are in the population, and its ledgers are sound, with empty
escrows. -/
structure SuppliedBy (P : UtxoTx → Prop) (st : ChainState) : Prop where
  blocks : ∀ (h : Hash) (b : Block), st.dag[h]? = some b → ∀ tx ∈ b.utxoTxs, P tx
  live : st.live.Supplied P
  base : st.simBase.Supplied P

namespace SuppliedBy

theorem replayed (s : SuppliedBy P st) (hP : GoodTxs P) {hs done rest : List Hash} (hcounted : st.ReplayCounted hs)
    (hsplit : hs = done ++ rest) : (st.simBase.replay st.chainId (st.blocksAt done)).Supplied P := by
  refine s.base.replay hP (fun p hp tx htx => ?_) hcounted (hsplit ▸ blocksAt_append st done rest)
  obtain ⟨h, -, hb, -⟩ := mem_blocksAt.mp hp
  exact s.blocks h p.1 hb tx htx

theorem supplyOkAfter (s : SuppliedBy P st) (hP : GoodTxs P) (k : st.Keyed) {done : List Hash}
    (hcounted : st.ReplayCounted done) : st.SupplyOkAfter done := by
  have hdone := (s.replayed hP hcounted (List.append_nil done).symm).supplyInvariantOk
  rw [SupplyOkAfter, k.applyAll, k.foldl_simStep]
  exact ⟨hdone, hdone⟩

theorem inserted (s : SuppliedBy P st) (htxs : ∀ tx ∈ block.utxoTxs, P tx) :
    SuppliedBy P (st.inserted env block gd) := by
  obtain ⟨-, hbase, hcaptured, -⟩ := inserted_value st env block gd
  have hlive : (st.inserted env block gd).live = st.live := by
    unfold ChainState.inserted captureBase orderMainChain
    split <;> split <;> rfl
  refine ⟨fun h b hb => ?_, hlive ▸ s.live, ?_⟩
  · rcases inserted_getElem? hb with ⟨rfl, -⟩ | hb
    · exact htxs
    · exact s.blocks h b hb
  · rw [simBase, if_pos hcaptured, hbase]
    exact s.base

/-- **Step.** Accepting a block, where the replay with the new block is counted. -/
theorem accept (s : SuppliedBy P st) (hP : GoodTxs P) (c : st.Consistent) (a : st.Admitted env block gd sp)
    (htxs : ∀ tx ∈ block.utxoTxs, P tx)
    (hcounted : (st.inserted env block gd).ReplayCounted (st.inserted env block gd).pending) :
    SuppliedBy P (st.accept env block gd) := by
  have sᵢ : SuppliedBy P (st.inserted env block gd) := s.inserted htxs
  have hkeyed : (st.inserted env block gd).Keyed :=
    ((c.insertBlock a).of_core (st.inserted_core env block gd)).keyed
  obtain ⟨-, hbase, hcaptured, -⟩ := inserted_value st env block gd
  have hsim : (st.inserted env block gd).simBase = (st.inserted env block gd).base := by
    rw [simBase, if_pos hcaptured]
  obtain ⟨mid, floor, hcleared, -, -, hpruned⟩ := accept_pruned c a
  obtain ⟨hfullBase, -, hfullCaptured, -, -⟩ := acceptFull_ledger st env block gd
  have hlive : (st.accept env block gd).live.Supplied P := by
    rw [accept_live c a, hkeyed.applyAll, ← hbase, ← hsim]
    exact sᵢ.replayed hP hcounted (List.append_nil _).symm
  refine ⟨fun h b hb => ?_, hlive, ?_⟩
  · obtain ⟨b₀, hor, hclear⟩ := accept_getElem? hb
    have hold : ∀ tx ∈ b₀.utxoTxs, P tx := by
      rcases hor with ⟨rfl, -⟩ | hb₀
      · exact htxs
      · exact s.blocks h b₀ hb₀
    rcases hclear with rfl | rfl
    · exact hold
    · intro tx htx
      cases htx
  · -- the new base is a part of the replay
    have hadvanced : (st.inserted env block gd).advanceFinalizedBase.base.Supplied P ∧
        (st.inserted env block gd).advanceFinalizedBase.baseCaptured = true := by
      rcases (st.inserted env block gd).advanceFinalizedBase_cases with heq | ⟨fp, -, -, -, -, heq⟩
      · rw [heq, ← hsim]
        exact ⟨sᵢ.base, hcaptured⟩
      · rw [heq]
        refine ⟨?_, hcaptured⟩
        change ((st.inserted env block gd).applyAll _ _).Supplied P
        rw [hkeyed.applyAll, ← hsim]
        exact sᵢ.replayed hP hcounted (List.take_append_drop _ _).symm
    rw [simBase, hpruned.baseCaptured, hcleared.baseCaptured, hfullCaptured, if_pos hadvanced.2, hpruned.base,
      hcleared.base, hfullBase]
    exact hadvanced.1

end SuppliedBy

/-- The replay of every accepted block of a run is counted. -/
def RunCounted (st₀ : ChainState) (calls : List (Env × Block)) : Prop :=
  ∀ pre env block gd sp, pre ++ [(env, block)] <+: calls → (st₀.run pre).Admitted env block gd sp →
    ((st₀.run pre).inserted env block gd).ReplayCounted ((st₀.run pre).inserted env block gd).pending

theorem SuppliedBy.run {easy archival : Bool} (hids : (seeded easy archival {}).SpentIdsDistinct calls)
    (hcounted : (seeded easy archival {}).RunCounted calls) {pre : List (Env × Block)} (hpre : pre <+: calls) :
    SuppliedBy ((seeded easy archival {}).Spends calls) ((seeded easy archival {}).run pre) := by
  induction pre using List.reverseRecOn with
  | nil =>
      refine ⟨fun h b hb tx htx => ?_, .empty _, .empty _⟩
      rw [(seeded_get easy archival {} hb).2] at htx
      cases htx
  | append_singleton pre call ih =>
      have hbefore := ih ((List.prefix_append pre [call]).trans hpre)
      rw [run_concat]
      rcases ((seeded easy archival {}).run pre).step_cases call with heq | ⟨gd, sp, a, heq⟩
      · rw [heq]
        exact hbefore
      · rw [heq]
        refine hbefore.accept (goodTxs_spends hids) (Consistent.run easy archival {} pre) a (fun tx htx => ?_)
          (hcounted pre call.1 call.2 gd sp hpre a)
        exact ⟨call.2, ⟨pre, call.1, hpre, _, addBlock_eq_ok.mpr ⟨gd, sp, a, rfl⟩⟩, htx⟩

/-- **The supply identity is kept** along every run from genesis, in either mode, whose
replays are counted: in every state, after every step of the replay of every accepted
block, and after any other replay of a state that is counted. -/
theorem supply_kept (easy archival : Bool) (calls : List (Env × Block))
    (hids : (seeded easy archival {}).SpentIdsDistinct calls) (hcounted : (seeded easy archival {}).RunCounted calls) :
    (∀ pre, pre <+: calls → ((seeded easy archival {}).run pre).supplyInvariantOk = true ∧
      ∀ done, ((seeded easy archival {}).run pre).ReplayCounted done →
        ((seeded easy archival {}).run pre).SupplyOkAfter done) ∧
    ∀ pre env block gd sp, pre ++ [(env, block)] <+: calls →
      ((seeded easy archival {}).run pre).Admitted env block gd sp →
      ∀ done rest, (((seeded easy archival {}).run pre).inserted env block gd).pending = done ++ rest →
        (((seeded easy archival {}).run pre).inserted env block gd).SupplyOkAfter done := by
  have hP := goodTxs_spends hids
  refine ⟨fun pre hpre => ?_, fun pre env block gd sp hpre a done rest hsplit => ?_⟩
  · have s := SuppliedBy.run hids hcounted hpre
    exact ⟨s.live.supplyInvariantOk, fun done hdone =>
      s.supplyOkAfter hP (Consistent.run easy archival {} pre).keyed hdone⟩
  · have hbefore := SuppliedBy.run hids hcounted ((List.prefix_append pre _).trans hpre)
    have s : SuppliedBy _ (((seeded easy archival {}).run pre).inserted env block gd) := hbefore.inserted fun tx htx =>
      ⟨block, ⟨pre, env, hpre, _, addBlock_eq_ok.mpr ⟨gd, sp, a, rfl⟩⟩, htx⟩
    have hkeyed := ((Consistent.run easy archival {} pre).insertBlock a).of_core (inserted_core _ env block gd) |>.keyed
    refine s.supplyOkAfter hP hkeyed ?_
    have hall := hcounted pre env block gd sp hpre a
    rw [ReplayCounted, hsplit, blocksAt_append] at hall
    exact hall.prefix

/-- An archival node holds every block that it has accepted. -/
theorem Accepts.held {easy : Bool} {b : Block} (h : (seeded easy true {}).Accepts calls b) :
    ((seeded easy true {}).run calls).dag[b.hash]? = some b := by
  obtain ⟨pre, env, ⟨rest, rfl⟩, st', haccept⟩ := h
  obtain ⟨gd, sp, a, -⟩ := addBlock_eq_ok.mp haccept
  have inv := Archival.run easy {} pre
  have hnew := a.getElem?_step inv.archival
  have hlater := ((Archival.run easy {} (pre ++ [(env, b)])).later rest).blocks
  rw [← run_concat] at hnew
  rw [run, List.foldl_append]
  exact (hlater.dag _ (DagInv.mem_of_getElem? hnew)).trans hnew

end Runs

end ChainState

namespace Sample

theorem spentIdsDistinct_of_empty {easy archival : Bool} {calls : List (Env × Block)}
    (hempty : ∀ b, (ChainState.seeded easy archival {}).Accepts calls b → b.items = []) :
    (ChainState.seeded easy archival {}).SpentIdsDistinct calls := by
  intro tx tx' htx
  obtain ⟨b, hb, htx⟩ := htx
  have hitem := Block.mem_items_utxo.mpr htx
  rw [hempty b hb] at hitem
  cases hitem

/-! ### One block -/

theorem replay_roots {l : Ledger} {chainId : Nat} {bs : List (Block × Nat)} (hroots : ∀ p ∈ bs, p.1.parents = []) :
    l.replay chainId bs = l := by
  induction bs with
  | nil => rfl
  | cons p bs ih =>
      rw [Ledger.replay, List.foldl_cons, Ledger.applyBlockEffects, if_pos (hroots p List.mem_cons_self)]
      exact ih fun q hq => hroots q (List.mem_cons_of_mem _ hq)

/-- The replay of a node with one block is counted. -/
theorem First.counted {call : Env × Block} (f : First call.2 ((ChainState.seeded false true {}).run [call])) :
    (ChainState.seeded false true {}).RunCounted [call] := by
  intro pre env block gd sp hpre a
  obtain ⟨rfl, hcall⟩ : pre = [] ∧ (env, block) = call := by
    obtain ⟨rest, hrest⟩ := hpre
    cases pre with
    | nil => exact ⟨rfl, (List.cons.inj hrest).1⟩
    | cons c pre => simp at hrest
  subst hcall
  have hcore := ((ChainState.seeded false true {}).run []).inserted_core env block gd
  have hblock : ∀ h c, (((ChainState.seeded false true {}).run []).inserted env block gd).dag[h]? = some c ↔
      h = blockHash 0 0 ∧ c = genesisBlock ∨ h = blockHash 1 0 ∧ c = block := by
    intro h c
    have hrun := f.block h c
    rw [← List.nil_append [(env, block)], ChainState.run_concat, a.step, ChainState.accept_archival _ env block gd rfl, (ChainState.acceptFull_core _ env block gd).dag] at hrun
    rw [hcore.dag]
    exact hrun
  have hnodup : (((ChainState.seeded false true {}).run []).inserted env block gd).pending.Nodup := by
    refine List.Nodup.sublist (List.drop_sublist _ _) ?_
    rw [ChainState.canonicalOrder]
    split
    · exact List.nodup_nil
    · exact ChainState.nodup_canonicalOrderAt _ _
  intro done p rest hsplit hne
  obtain ⟨hs, hs', hpending, hdone, hrest⟩ := List.filterMap_eq_append_iff.mp hsplit
  have hold : p ∈ (((ChainState.seeded false true {}).run []).inserted env block gd).blocksAt hs' := by
    rw [ChainState.blocksAt, hrest]
    exact List.mem_cons_self
  obtain ⟨h, hh, hp, -⟩ := ChainState.mem_blocksAt.mp hold
  obtain ⟨rfl, hblockEq⟩ := ((hblock h p.1).mp hp).resolve_left fun hgenesis => hne (by rw [hgenesis.2]; rfl)
  have hroots : ∀ q ∈ done, q.1.parents = [] := by
    intro q hq
    rw [← hdone] at hq
    obtain ⟨k, hk, hq, -⟩ := ChainState.mem_blocksAt.mp hq
    rcases (hblock k q.1).mp hq with ⟨-, hgenesis⟩ | ⟨rfl, -⟩
    · rw [hgenesis]
      rfl
    · rw [hpending] at hnodup
      exact absurd hh ((List.nodup_append.mp hnodup).2.2 _ hk _ · rfl)
  obtain ⟨-, hbase, hcaptured, -⟩ := ChainState.inserted_value ((ChainState.seeded false true {}).run []) env block gd
  rw [ChainState.simBase, if_pos hcaptured, hbase, replay_roots hroots, hblockEq]
  have hbody : block.items = [] := f.mined.body
  refine ⟨fun items op later heq => ?_, fun _ => ?_⟩
  · rw [hbody] at heq
    simp at heq
  · rw [Ledger.afterBody, hbody]
    change _ ∉ ({} : Ledger).utxo.entries ∧ _ ∉ ({} : Ledger).utxo.spent
    exact ⟨ExtTreeMap.not_mem_empty, Std.ExtTreeSet.not_mem_empty⟩

/-- One block keeps the identity. -/
theorem supply_kept_first : ∃ call : Env × Block, First call.2 ((ChainState.seeded false true {}).run [call]) ∧
    ((ChainState.seeded false true {}).run [call]).supplyInvariantOk = true := by
  obtain ⟨call, f⟩ := exists_first
  have hids : (ChainState.seeded false true {}).SpentIdsDistinct [call] := by
    refine spentIdsDistinct_of_empty fun b hb => ?_
    rcases (f.block _ b).mp hb.held with ⟨-, rfl⟩ | ⟨-, rfl⟩
    · rfl
    · exact f.mined.body
  exact ⟨call, f, ((ChainState.supply_kept false true [call] hids f.counted).1 [call] List.prefix_rfl).1⟩

/-! ### Twins that are merged -/

/-- Far from the halving and the cap a block without a body mints one full reward, in place
of what its outpoint held. -/
theorem reward_full {l : Ledger} {b : Block} {score : Nat} (hscore : score < halvingInterval)
    (hcap : l.mintedSupply + blockReward ≤ maxSupply) :
    (l.applyBlockReward b score 0).utxo.totalValue + Map.valueAt TxOut.value l.utxo.entries (.coinbase b.coinbaseTxid)
        = l.utxo.totalValue + blockReward ∧
      Map.valueAt TxOut.value (l.applyBlockReward b score 0).utxo.entries (.coinbase b.coinbaseTxid) = blockReward ∧
      l.applyBlockReward b score 0 = { l with
        mintedSupply := l.mintedSupply + blockReward
        utxo := (l.applyBlockReward b score 0).utxo } := by
  have hsup := maxSupply_le
  have hsubsidy : blockSubsidy score = blockReward := by simp [blockSubsidy, Nat.div_eq_of_lt hscore]
  have hmin : min blockReward (maxSupply - l.mintedSupply) = blockReward := min_eq_left (by omega)
  have hpos : 0 < blockReward := by decide
  have heq : l.applyBlockReward b score 0 = { l with
      mintedSupply := l.mintedSupply + blockReward
      utxo := l.utxo.insert (.coinbase b.coinbaseTxid)
        ⟨blockReward, .payToAddress (Address.encodeHash b.miner), score⟩ } := by
    rw [Ledger.applyBlockReward, hsubsidy, hmin, satAdd128_eq (by omega), Nat.add_zero,
      if_neg (Nat.pos_iff_ne_zero.mp hpos), if_pos hpos, satAdd128_eq (by omega)]
  rw [heq]
  refine ⟨Map.sumBy_insert TxOut.value l.utxo.entries _ _, ?_, rfl⟩
  simp [UtxoSet.insert, Map.valueAt]

/-- A node with two twins on the genesis block and a block that merges them. -/
structure Merged (b b' top : Block) (st : ChainState) : Prop where
  archival : ChainState.Archival {} st
  first : MinedOn [blockHash 0 0] 1 0 b
  second : MinedOn [blockHash 0 0] 1 1 b'
  last : MinedOn [blockHash 1 0, blockHash 1 1] 2 0 top
  block : ∀ h c, st.dag[h]? = some c ↔ h = blockHash 0 0 ∧ c = genesisBlock ∨
    h = blockHash 1 0 ∧ c = b ∨ h = blockHash 1 1 ∧ c = b' ∨ h = blockHash 2 0 ∧ c = top

theorem twinHash_ne : blockHash 1 0 ≠ blockHash 1 1 := by
  intro heq
  have := (blockHash_inj (by norm_num) (by norm_num) (by norm_num) (by norm_num) heq).2
  omega

/-- The twins can be merged. -/
theorem Twins.merge {b b' : Block} {st : ChainState} (t : Twins b b' st) :
    ∃ top, Merged b b' top (st.step (env, top)) := by
  have w := t.archival.whole
  have hfirst : st.dag[blockHash 1 0]? = some b := (t.block _ _).mpr (Or.inr (Or.inl ⟨rfl, rfl⟩))
  have hsecond : st.dag[blockHash 1 1]? = some b' := (t.block _ _).mpr (Or.inr (Or.inr ⟨rfl, rfl⟩))
  have hall : ∀ x ∈ st.dag, x ∈ [blockHash 0 0, blockHash 1 0, blockHash 1 1] := by
    intro x hx
    obtain ⟨c, hc⟩ := DagInv.exists_block hx
    rcases (t.block x c).mp hc with ⟨rfl, -⟩ | ⟨rfl, -⟩ | ⟨rfl, -⟩ <;> simp
  have hmem : ∀ p ∈ [blockHash 1 0, blockHash 1 1], p ∈ st.dag := by
    intro p hp
    rcases List.mem_pair.mp hp with rfl | rfl
    · exact DagInv.mem_of_getElem? hfirst
    · exact DagInv.mem_of_getElem? hsecond
  have hlow : Numbered.Shallow st := by
    intro x hx
    have hlt := w.dagInv.score_lt_length hall hx
    have : finalityDepth = 432000 := rfl
    simp only [List.length_cons, List.length_nil] at hlt
    omega
  have hcap : ∀ sp ∈ [blockHash 1 0, blockHash 1 1],
      (st.dag.mergeset [blockHash 1 0, blockHash 1 1] sp).length ≤ maxMergesetSize := by
    intro sp _
    have hsub : st.dag.mergeset [blockHash 1 0, blockHash 1 1] sp ⊆ [blockHash 0 0, blockHash 1 0, blockHash 1 1] := by
      intro x hx
      obtain ⟨⟨p, hp, hxp⟩, -⟩ := Dag.mem_mergeset.mp hx
      refine hall x ?_
      rcases hxp with rfl | hpast
      · exact hmem x hp
      · exact w.dagInv.past_mem hpast (hmem p hp)
    exact (Dag.nodup_mergeset.subperm hsub).length_le.trans (by decide)
  obtain ⟨gd, sp, hdata, hsp⟩ := exists_data w (List.cons_ne_nil _ _) hmem hcap
  have hlinks : ∀ (h : Hash) (c : Block), st.dag[h]? = some c → c.interlinks.length ≤ 64 := by
    intro h c hc
    rcases (t.block h c).mp hc with ⟨-, rfl⟩ | ⟨-, rfl⟩ | ⟨-, rfl⟩
    · exact Nat.zero_le _
    · exact t.first.links
    · exact t.second.links
  have hahead : ∀ p ∈ [blockHash 1 0, blockHash 1 1], st.AheadOf (time 2) p := by
    intro p _ c d _ hd
    rcases (t.block c d).mp hd with ⟨-, rfl⟩ | ⟨-, rfl⟩ | ⟨-, rfl⟩
    · exact Nat.lt_add_of_pos_right (by norm_num)
    · rw [t.first.time, time, time]
      omega
    · rw [t.second.time, time, time]
      omega
  have hfresh : blockHash 2 0 ∉ st.dag := by
    intro hin
    rcases List.mem_cons.mp (hall _ hin) with heq | hin
    · have := (blockHash_inj (by norm_num) (by norm_num) (by norm_num) (by norm_num) heq).1
      omega
    · rcases List.mem_pair.mp hin with heq | heq
      · have := (blockHash_inj (by norm_num) (by norm_num) (by norm_num) (by norm_num) heq).1
        omega
      · have := (blockHash_inj (by norm_num) (by norm_num) (by norm_num) (by norm_num) heq).1
        omega
  have hsealed := mined_sealed (by norm_num) (by norm_num) hfresh (List.cons_ne_nil _ _) (by decide)
    (by simpa using twinHash_ne) (fun p hp => ⟨hmem p hp, (w.dagInv.known p).mpr (hmem p hp)⟩) hlinks hahead
    (fun fp hfp => by simp [hlow.finalityPoint_eq_none w] at hfp) hdata hsp
  obtain ⟨gd', sp', a⟩ := hsealed.admitted
  have htop : MinedOn [blockHash 1 0, blockHash 1 1] 2 0 (mined st [blockHash 1 0, blockHash 1 1] 2 0) :=
    minedOn (by norm_num) (by norm_num) hlinks hdata hsp
  refine ⟨_, ?_, t.first, t.second, htop, fun h c => ?_⟩
  · rw [a.step]
    exact t.archival.accept a
  · rw [getElem?_step_archival a t.archival.archival, htop.hash, t.block]
    constructor
    · rintro (hnew | ⟨-, hold | hold | hold⟩)
      · exact Or.inr (Or.inr (Or.inr hnew))
      · exact Or.inl hold
      · exact Or.inr (Or.inl hold)
      · exact Or.inr (Or.inr (Or.inl hold))
    · have hne : ∀ x, st.dag[x]? ≠ none → x ≠ blockHash 2 0 := by
        intro x hx heq
        exact hx (ExtTreeMap.getElem?_eq_none (heq ▸ hfresh))
      rintro (hold | hold | hold | hnew)
      · exact Or.inr ⟨hne h (by rw [(t.block h c).mpr (Or.inl hold)]; simp), Or.inl hold⟩
      · exact Or.inr ⟨hne h (by rw [(t.block h c).mpr (Or.inr (Or.inl hold))]; simp), Or.inr (Or.inl hold)⟩
      · exact Or.inr ⟨hne h (by rw [(t.block h c).mpr (Or.inr (Or.inr hold))]; simp), Or.inr (Or.inr hold)⟩
      · exact Or.inl hnew

namespace Merged

variable {b b' top : Block} {st : ChainState}

theorem parents (m : Merged b b' top st) : st.dag.parentsOf (blockHash 0 0) = [] ∧
    st.dag.parentsOf (blockHash 1 0) = [blockHash 0 0] ∧ st.dag.parentsOf (blockHash 1 1) = [blockHash 0 0] ∧
    st.dag.parentsOf (blockHash 2 0) = [blockHash 1 0, blockHash 1 1] := by
  refine ⟨?_, ?_, ?_, ?_⟩
  · rw [Dag.parentsOf_eq ((m.block _ _).mpr (Or.inl ⟨rfl, rfl⟩))]
    rfl
  · rw [Dag.parentsOf_eq ((m.block _ _).mpr (Or.inr (Or.inl ⟨rfl, rfl⟩))), m.first.parents]
  · rw [Dag.parentsOf_eq ((m.block _ _).mpr (Or.inr (Or.inr (Or.inl ⟨rfl, rfl⟩)))), m.second.parents]
  · rw [Dag.parentsOf_eq ((m.block _ _).mpr (Or.inr (Or.inr (Or.inr ⟨rfl, rfl⟩)))), m.last.parents]

theorem selectedTip (m : Merged b b' top st) : st.selectedTip = some (blockHash 2 0) := by
  have w := m.archival.whole
  obtain ⟨tip, htip⟩ := w.selected
  obtain ⟨hmem, hlast⟩ := (w.tips tip).mp (GhostdagMap.selectBest_eq_some.mp htip).mem
  obtain ⟨c, hc⟩ := DagInv.exists_block hmem
  obtain ⟨-, hfirst, -, htop⟩ := m.parents
  rcases (m.block tip c).mp hc with ⟨rfl, -⟩ | ⟨rfl, -⟩ | ⟨rfl, -⟩ | ⟨rfl, -⟩
  · exact absurd (hfirst ▸ List.mem_singleton_self _) (hlast (blockHash 1 0))
  · exact absurd (htop ▸ List.mem_cons_self) (hlast (blockHash 2 0))
  · exact absurd (htop ▸ List.mem_cons_of_mem _ List.mem_cons_self) (hlast (blockHash 2 0))
  · exact htip

/-- The replay goes over the genesis block, the twins and the block on top. -/
theorem order (m : Merged b b' top st) : ∃ x y,
    (x = blockHash 1 0 ∧ y = blockHash 1 1 ∨ x = blockHash 1 1 ∧ y = blockHash 1 0) ∧
      st.canonicalOrderAt (blockHash 2 0) = [blockHash 0 0, x, y, blockHash 2 0] := by
  have inv := m.archival.whole.dagInv
  obtain ⟨hgenesis, hfirst, hsecond, htop⟩ := m.parents
  have hroot : ∀ x, ¬ Past st.dag x (blockHash 0 0) := by
    intro x hpast
    obtain ⟨p, hp, -⟩ := hpast.cases_parent
    rw [hgenesis] at hp
    cases hp
  have hpast : ∀ z, st.dag.parentsOf z = [blockHash 0 0] → ∀ x, Past st.dag x z ↔ x = blockHash 0 0 := by
    intro z hz x
    constructor
    · intro hx
      obtain ⟨p, hp, hxp⟩ := hx.cases_parent
      rw [hz, List.mem_singleton] at hp
      exact (hp ▸ hxp).resolve_right (hroot x)
    · rintro rfl
      exact .of_parent (hz ▸ List.mem_singleton_self _) (Or.inl rfl)
  have hchain : ∀ z, st.dag.parentsOf z = [blockHash 0 0] → st.canonicalOrderAt z = [blockHash 0 0, z] := by
    intro z hz
    obtain ⟨hsp, hmerged⟩ := inv.only_parent hz
    rw [ChainState.canonicalOrderAt_step inv hsp, hmerged,
      ChainState.canonicalOrderAt_root inv (inv.spOf_mem hsp).2 (inv.spOf_eq_none hgenesis)]
    rfl
  -- what the block on top does not select it merges
  have hmerge : ∀ sp y, st.ghostdag.spOf (blockHash 2 0) = some sp → (∀ p, p ∈ st.dag.parentsOf (blockHash 2 0) ↔ p = sp ∨ p = y) →
      y ≠ sp → st.dag.parentsOf sp = [blockHash 0 0] → st.dag.parentsOf y = [blockHash 0 0] →
      st.canonicalOrderAt (blockHash 2 0) = [blockHash 0 0, sp, y, blockHash 2 0] := by
    intro sp y hsp hboth hne hspParents hyParents
    have hmem : ∀ x, x ∈ st.ghostdag.mergedOf (blockHash 2 0) ↔ x ∈ [y] := by
      intro x
      rw [inv.mem_mergedOf hsp, hpast sp hspParents, List.mem_singleton]
      constructor
      · rintro ⟨hx, hout⟩
        obtain ⟨p, hp, hxp⟩ := hx.cases_parent
        rcases (hboth p).mp hp with rfl | rfl
        · exact absurd (hxp.imp_right (hpast p hspParents x).mp) hout
        · exact hxp.resolve_right fun h => hout (Or.inr ((hpast p hyParents x).mp h))
      · rintro rfl
        refine ⟨.of_parent ((hboth x).mpr (Or.inr rfl)) (Or.inl rfl), ?_⟩
        rintro (heq | rfl)
        · exact hne heq
        · rw [hgenesis] at hyParents
          cases hyParents
    have hmerged : st.ghostdag.mergedOf (blockHash 2 0) = [y] :=
      List.perm_singleton.mp ((List.perm_ext_iff_of_nodup (inv.nodup_mergedOf hsp) (List.nodup_singleton y)).mpr hmem)
    rw [ChainState.canonicalOrderAt_step inv hsp, hmerged, hchain sp hspParents]
    rfl
  cases hsp : st.ghostdag.spOf (blockHash 2 0) with
  | none =>
      obtain ⟨c, hc⟩ : ∃ c, st.dag[blockHash 2 0]? = some c := ⟨_, (m.block _ top).mpr (by simp)⟩
      rw [inv.parentsOf_of_root (DagInv.mem_of_getElem? hc) hsp] at htop
      cases htop
  | some sp =>
      have hparent := inv.spOf_parent hsp
      rw [htop] at hparent
      rcases List.mem_pair.mp hparent with rfl | rfl
      · refine ⟨_, _, Or.inl ⟨rfl, rfl⟩, hmerge _ _ hsp (fun p => ?_) twinHash_ne.symm hfirst hsecond⟩
        rw [htop, List.mem_pair]
      · refine ⟨_, _, Or.inr ⟨rfl, rfl⟩, hmerge _ _ hsp (fun p => ?_) twinHash_ne hsecond hfirst⟩
        rw [htop, List.mem_pair, or_comm]

theorem score_lt (m : Merged b b' top st) {x : Hash} (hx : x ∈ st.dag) : st.ghostdag.scoreOf x < halvingInterval := by
  have hall : ∀ y ∈ st.dag, y ∈ [blockHash 0 0, blockHash 1 0, blockHash 1 1, blockHash 2 0] := by
    intro y hy
    obtain ⟨c, hc⟩ := DagInv.exists_block hy
    rcases (m.block y c).mp hc with ⟨rfl, -⟩ | ⟨rfl, -⟩ | ⟨rfl, -⟩ | ⟨rfl, -⟩ <;> simp
  have hlt := m.archival.whole.dagInv.score_lt_length hall hx
  exact hlt.trans (by decide)

/-- The live ledger has three mints, two of them of one outpoint. -/
theorem live (m : Merged b b' top st) : ∃ c c' s s' s'', c.coinbaseTxid = c'.coinbaseTxid ∧ s < halvingInterval ∧ s' < halvingInterval ∧ s'' < halvingInterval ∧
    st.live = ((({} : Ledger).applyBlockReward c s 0).applyBlockReward c' s' 0).applyBlockReward top s'' 0 := by
  obtain ⟨x, y, hxy, horder⟩ := m.order
  have hgenesis : st.dag[blockHash 0 0]? = some genesisBlock := (m.block _ _).mpr (Or.inl ⟨rfl, rfl⟩)
  have hlast : st.dag[blockHash 2 0]? = some top := (m.block _ _).mpr (Or.inr (Or.inr (Or.inr ⟨rfl, rfl⟩)))
  obtain ⟨c, c', n, n', hc, hc', first, second⟩ : ∃ c c' n n', st.dag[x]? = some c ∧ st.dag[y]? = some c' ∧
      MinedOn [blockHash 0 0] 1 n c ∧ MinedOn [blockHash 0 0] 1 n' c' := by
    have hfirst : st.dag[blockHash 1 0]? = some b := (m.block _ _).mpr (Or.inr (Or.inl ⟨rfl, rfl⟩))
    have hsecond : st.dag[blockHash 1 1]? = some b' := (m.block _ _).mpr (Or.inr (Or.inr (Or.inl ⟨rfl, rfl⟩)))
    rcases hxy with ⟨rfl, rfl⟩ | ⟨rfl, rfl⟩
    · exact ⟨b, b', 0, 1, hfirst, hsecond, m.first, m.second⟩
    · exact ⟨b', b, 1, 0, hsecond, hfirst, m.second, m.first⟩
  refine ⟨c, c', st.ghostdag.scoreOf x, st.ghostdag.scoreOf y, st.ghostdag.scoreOf (blockHash 2 0), ?_,
    m.score_lt (DagInv.mem_of_getElem? hc), m.score_lt (DagInv.mem_of_getElem? hc'),
    m.score_lt (DagInv.mem_of_getElem? hlast), ?_⟩
  · rw [Block.coinbaseTxid, Block.coinbaseTxid, Block.coinbaseBytes_eq_of_fields (first.twin second)]
  · have hparents : c.parents ≠ [] ∧ c'.parents ≠ [] ∧ top.parents ≠ [] := by
      rw [first.parents, second.parents, m.last.parents]
      simp
    rw [m.archival.live m.selectedTip, horder, ChainState.fold, ChainState.blocksAt]
    simp only [List.filterMap_cons, List.filterMap_nil, hgenesis, hc, hc', hlast, Option.map_some, Ledger.replay,
      List.foldl_cons, List.foldl_nil]
    rw [applyBlockEffects_empty m.last.body hparents.2.2, applyBlockEffects_empty second.body hparents.2.1,
      applyBlockEffects_empty first.body hparents.1, Ledger.applyBlockEffects,
      if_pos (show genesisBlock.parents = [] from rfl)]

theorem supply (m : Merged b b' top st) : st.supplyInvariantOk = false := by
  obtain ⟨c, c', s, s', s'', htwins, hs, hs', hs'', hlive⟩ := m.live
  obtain ⟨l₁, hl₁⟩ : ∃ l, l = ({} : Ledger).applyBlockReward c s 0 := ⟨_, rfl⟩
  obtain ⟨l₂, hl₂⟩ : ∃ l, l = l₁.applyBlockReward c' s' 0 := ⟨_, rfl⟩
  obtain ⟨l₃, hl₃⟩ : ∃ l, l = l₂.applyBlockReward top s'' 0 := ⟨_, rfl⟩
  rw [ChainState.supplyInvariantOk, hlive, ← hl₁, ← hl₂, ← hl₃]
  obtain ⟨hvalue₁, hat₁, heq₁⟩ := reward_full (b := c) hs (show ({} : Ledger).mintedSupply + blockReward ≤ maxSupply by decide)
  rw [← hl₁] at hvalue₁ hat₁ heq₁
  have hminted₁ : l₁.mintedSupply = blockReward := by
    rw [heq₁]
    exact Nat.zero_add _
  obtain ⟨hvalue₂, -, heq₂⟩ := reward_full (b := c') hs' (show l₁.mintedSupply + blockReward ≤ maxSupply by rw [hminted₁]; decide)
  rw [← hl₂] at hvalue₂ heq₂
  have hminted₂ : l₂.mintedSupply = blockReward + blockReward := by rw [heq₂, hminted₁]
  obtain ⟨hvalue₃, -, heq₃⟩ := reward_full (b := top) hs'' (show l₂.mintedSupply + blockReward ≤ maxSupply by rw [hminted₂]; decide)
  rw [← hl₃] at hvalue₃ heq₃
  have hminted₃ : l₃.mintedSupply = blockReward + blockReward + blockReward := by rw [heq₃, hminted₂]
  -- the second twin's output takes the place of the first one's
  rw [← htwins, hat₁] at hvalue₂
  have hempty : ({} : Ledger).utxo.totalValue = 0 := by simp [UtxoSet.totalValue]
  have hutxo : l₃.utxo.totalValue ≤ blockReward + blockReward := by omega
  have hrest : l₃.accountsTotal = 0 ∧ l₃.stakedTotal = 0 ∧ l₃.feesBurned = 0 := by
    rw [heq₃, heq₂, heq₁]
    simp [Ledger.accountsTotal, Ledger.stakedTotal]
  obtain ⟨haccounts, hstaked, hburned⟩ := hrest
  have hpos : 0 < blockReward := by decide
  rw [Ledger.supplyInvariantOk, haccounts, hstaked, hburned, hminted₃, beq_eq_false_iff_ne, satAdd128, satAdd128, satAdd128]
  omega

end Merged

/-- **Twins break the identity**: a node that merges them holds less than it minted. -/
theorem twins_break_supply : ¬ ∀ (easy archival : Bool) (calls : List (Env × Block)),
    (ChainState.seeded easy archival {}).SpentIdsDistinct calls →
      ((ChainState.seeded easy archival {}).run calls).supplyInvariantOk = true := by
  intro hall
  obtain ⟨calls, b, b', t⟩ := exists_twins
  obtain ⟨top, m⟩ := t.merge
  rw [← ChainState.run_concat] at m
  have hok := hall false true (calls ++ [(env, top)]) ?_
  · rw [m.supply] at hok
    cases hok
  · refine spentIdsDistinct_of_empty fun c hc => ?_
    rcases (m.block _ c).mp hc.held with ⟨-, rfl⟩ | ⟨-, rfl⟩ | ⟨-, rfl⟩ | ⟨-, rfl⟩
    · rfl
    · exact m.first.body
    · exact m.second.body
    · exact m.last.body

end Sample

end HassanNode
