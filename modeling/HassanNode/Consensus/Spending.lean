import Mathlib
import HassanNode.Consensus.ArchivalRuns
import HassanNode.Consensus.Heights
import HassanNode.Consensus.Values
import HassanNode.Consensus.Views

/-!
# HassanNode.Consensus.Spending

A node that spends. The coin the sample miner earns with its first block stays
on the ledger as long as its chain has no bodies (`unspent_chain`), and a block
that carries one spend is admitted on any block of the chain where the spend
applies (`Numbered.admitted_spend`).
-/

namespace HassanNode

open Std (ExtTreeMap)
open Params Bincode

theorem OutPoint.coinbase_inj {a b : Hash} (h : OutPoint.coinbase a = OutPoint.coinbase b) : a = b := by
  simpa [OutPoint.coinbase] using h

namespace Sample

/-! ### Mined blocks -/

theorem mined_body (st : ChainState) (parents : List Hash) (number nonce : Nat) :
    (mined st parents number nonce).items = [] ∧ (mined st parents number nonce).miner = addressHash minerKey := by
  unfold mined
  cases h : st.bindParentCommitments (draft st parents number nonce) with
  | error e => exact ⟨rfl, rfl⟩
  | ok b =>
    obtain ⟨gd, -, h⟩ := Except.bind_eq_ok h
    cases hsp : gd.selectedParent with
    | none =>
      rw [hsp] at h
      cases h
    | some sp =>
      simp only [hsp] at h
      obtain ⟨root, -, h⟩ := Except.bind_eq_ok h
      cases h
      exact ⟨rfl, rfl⟩

/-- The blocks of a plan have no bodies and pay the sample miner. -/
theorem built_block {archival : Bool} {plan : List (List Nat)} {h : Hash} {b : Block}
    (hb : (built archival plan).dag[h]? = some b) :
    b.items = [] ∧ (b.parents ≠ [] → b.miner = addressHash minerKey) := by
  induction plan using List.reverseRecOn generalizing h b with
  | nil =>
      rw [(ChainState.seeded_get false archival {} hb).2]
      exact ⟨rfl, fun hne => absurd rfl hne⟩
  | append_singleton plan numbers ih =>
      rw [built_append] at hb
      rcases (built archival plan).step_cases
        (env, mined (built archival plan) (hashes numbers) (plan.length + 1) 0) with heq | ⟨gd, sp, a, heq⟩
      · rw [heq] at hb
        exact ih hb
      · rw [heq] at hb
        obtain ⟨b₀, hor, hclr⟩ := ChainState.accept_getElem? hb
        have hb₀ : b₀.items = [] ∧ (b₀.parents ≠ [] → b₀.miner = addressHash minerKey) := by
          rcases hor with ⟨rfl, -⟩ | hold
          · have hmined := mined_body (built archival plan) (hashes numbers) (plan.length + 1) 0
            exact ⟨hmined.1, fun _ => hmined.2⟩
          · exact ih hold
        rcases hclr with rfl | rfl
        · exact hb₀
        · exact ⟨rfl, hb₀.2⟩

/-! ### A coin -/

/-- A ledger where the first coin of the sample miner is still there, and nobody
has an account. -/
structure Unspent (op : OutPoint) (l : Ledger) : Prop where
  accounts : l.accounts = ∅
  coin : l.utxo.entries[op]? = some ⟨blockReward, .payToAddress (Address.ofPubkey minerKey), 1⟩
  unspent : op ∉ l.utxo.spent

theorem applyBlockEffects_empty {l : Ledger} {b : Block} (hbody : b.items = []) (hne : b.parents ≠ [])
    (chainId tipScore score : Nat) :
    l.applyBlockEffects chainId tipScore (some score) b = l.applyBlockReward b score 0 := by
  simp only [Ledger.applyBlockEffects, if_neg hne, hbody, skipEach, List.foldl_nil, Option.getD_some]

theorem Unspent.reward {op : OutPoint} {l : Ledger} (h : Unspent op l) {b : Block} {blueScore fees : Nat}
    (hne : op ≠ .coinbase b.coinbaseTxid) : Unspent op (l.applyBlockReward b blueScore fees) := by
  unfold Ledger.applyBlockReward
  dsimp only
  split
  · exact h
  · refine ⟨h.accounts, ?_, ?_⟩
    · simp [UtxoSet.insert, ExtTreeMap.getElem?_insert, Ne.symm hne, h.coin]
    · simp [UtxoSet.insert, h.unspent]

/-- The first coin of a chain stays. -/
theorem unspent_chain {archival : Bool} {n : Nat} (hn : n ≤ 1000) {b₁ : Block}
    (hb₁ : (built archival (chain n)).dag[blockHash 1 0]? = some b₁) {i : Nat} (hpos : 1 ≤ i) (hi : i ≤ n) :
    Unspent (.coinbase b₁.coinbaseTxid)
      ((built archival (chain n)).fold {} ((built archival (chain n)).canonicalOrderAt (blockHash i 0))) := by
  have hdeep : finalityDepth = 432000 := rfl
  have f := followed_chain archival (n := n) (by omega)
  have hlen : (chain n).length = n := length_chain n
  have hheight₁ : b₁.height.toNat = 1 := f.numbered.height (by omega) hb₁
  induction i, hpos using Nat.le_induction with
  | base =>
    obtain ⟨hbody, hminer⟩ := built_block hb₁
    have hne := f.parents_ne hi hb₁
    rw [f.fold_succ {} hi hb₁, f.fold_genesis, applyBlockEffects_empty hbody hne]
    have hsubsidy : min (blockSubsidy 1) (maxSupply - 0) = blockReward := by decide
    have htotal : satAdd128 blockReward 0 = blockReward := by decide
    have hpos : blockReward ≠ 0 := by decide
    simp only [Ledger.applyBlockReward, hsubsidy, htotal, if_neg hpos, hminer hne]
    refine ⟨rfl, ?_, ?_⟩
    · simp [UtxoSet.insert, Address.ofPubkey]
    · simp [UtxoSet.insert]
  | succ i hpos ih =>
    obtain ⟨b, hb⟩ := DagInv.exists_block (f.mem (i := i + 1) (by omega))
    have hheight : b.height.toNat = i + 1 := f.numbered.height (by omega) hb
    rw [f.fold_succ {} hi hb, applyBlockEffects_empty (built_block hb).1 (f.parents_ne hi hb)]
    refine (ih (by omega)).reward fun heq => ?_
    have hheights : b₁.height.toNat % 2 ^ 16 ≠ b.height.toNat % 2 ^ 16 := by
      rw [hheight₁, hheight]
      omega
    exact coinbaseTxid_ne hheights (OutPoint.coinbase_inj heq)

/-! ### A block that spends -/

theorem mergesetVirtual_nil (st : ChainState) (p : Hash) : st.mergesetVirtual p [] = st.virtualStateAt p := rfl

/-- Where nothing is final a body is tried on the replay of its parent's order. -/
theorem mergesetVirtual_shallow {st : ChainState} {seed : Ledger} (hlow : Numbered.Shallow st)
    (inv : ChainState.Archival seed st) {p : Hash} (hp : p ∈ st.dag) :
    (st.mergesetVirtual p []).1 = st.fold seed (st.canonicalOrderAt p) := by
  have hfinal : st.finalityPoint = none := hlow.finalityPoint_eq_none inv.whole
  rw [mergesetVirtual_nil, ChainState.virtualStateAt_eq inv.whole inv.base hp fun g hg => ?_]
  rw [inv.frontier, hfinal] at hg
  cases hg

section Block

variable {b : Block} {tx : UtxoTx}

/-- A body of one spend of one coin is valid if the spend is. -/
theorem validate_spend {st : ChainState} {tin : TxIn} (hchain : st.chainId = chainId)
    (hbody : b.transparentTxs = [] ∧ b.utxoTxs = [tx] ∧ b.registryOps = [] ∧ b.custodyOps = [])
    (hform : tx.validateForm = .ok ()) (hid : tx.chainId = chainId) (hinput : tx.inputs = [tin])
    (hverify : tx.verify = true) : st.validateBlockTransactions b = .ok () := by
  obtain ⟨htransparent, hutxo, hregistry, hcustody⟩ := hbody
  have haccounts : st.validateAccountForms b.transparentTxs = .ok () := by
    rw [htransparent]
    rfl
  have hforms : st.validateUtxoForms b.utxoTxs = .ok () := by
    simp [ChainState.validateUtxoForms, ChainState.noteUtxoTxs, ChainState.noteInputs, hutxo, hform, hid, hchain,
      hinput, hverify, ensure, Except.mapError, bind, Except.bind]
  have hops : st.validateRegistryOps b = .ok () := by
    rw [ChainState.validateRegistryOps, hregistry]
    rfl
  have hcertificates : st.validateCustodyOps b = .ok () := by
    rw [ChainState.validateCustodyOps, hcustody]
    rfl
  simp [ChainState.validateBlockTransactions, haccounts, hforms, hops, hcertificates, bind, Except.bind]

/-- Admission runs the spend. -/
theorem simulate_spend {l : Ledger} {u : UtxoSet} {accounts : Accounts} {score fee : Nat}
    (hbody : b.items = [.utxo tx]) (hid : tx.chainId = chainId)
    (happlies : applyUtxoTx l.utxo l.accounts tx score = ((u, accounts), .ok fee)) :
    l.simulateApplyBlockBody chainId 0 score b
      = .ok ({ l with utxo := u, accounts := accounts }, satAdd128 0 fee) := by
  have hctx : (Ledger.itemCtx chainId 0 score b).chainId = chainId ∧
      (Ledger.itemCtx chainId 0 score b).mediaBlue = score := ⟨rfl, rfl⟩
  simp [Ledger.simulateApplyBlockBody, hbody, strictEach, Ledger.admitItem, Ledger.applyItem, hctx, hid, happlies,
    Except.mapError]

omit tx in
/-- A block that carries the commitments admission computes keeps them. -/
theorem bind_self {st : ChainState} {gd : GhostdagData} {sp : Hash} {l : Ledger} {fees : Nat}
    (hdata : st.computeGhostdag b.parents = .ok gd) (hsp : gd.selectedParent = some sp)
    (hlinks : b.interlinks = (st.dag[sp]?.map computeInterlinks).getD [])
    (hbody : (st.mergesetVirtual sp gd.merged).1.simulateApplyBlockBody st.chainId 0 gd.blueScore b = .ok (l, fees))
    (hroot : b.stateRoot = (l.applyBlockReward b gd.blueScore fees).merkleRoot) :
    st.bindParentCommitments b = .ok b := by
  have hlinked : { b with interlinks := (st.dag[sp]?.map computeInterlinks).getD [] } = b := by rw [← hlinks]
  simp only [ChainState.bindParentCommitments, hdata, hsp, ChainState.postMergesetStateRoot, hlinked, hbody,
    bind, Except.bind, pure, Except.pure, ← hroot]

omit tx in
/-- A reward depends on what its mint commits to. -/
theorem applyBlockReward_congr {b' : Block} (l : Ledger) (blueScore fees : Nat)
    (hmint : b.coinbaseBytes = b'.coinbaseBytes) (hminer : b.miner = b'.miner) :
    l.applyBlockReward b blueScore fees = l.applyBlockReward b' blueScore fees := by
  simp only [Ledger.applyBlockReward, Block.coinbaseTxid, hmint, hminer]

omit b in
/-- **A block of one spend is admitted** on any block of a node where nothing is
final, if the spend applies there. -/
theorem Numbered.admitted_spend {n : Nat} {st : ChainState} (h : Numbered n st) (hlow : Shallow st) {p : Hash}
    (hp : p ∈ st.dag) (hspends : (encode [tx]).length ≤ 10000)
    (hvalid : ∀ b : Block, b.transparentTxs = [] ∧ b.utxoTxs = [tx] ∧ b.registryOps = [] ∧ b.custodyOps = [] →
      st.validateBlockTransactions b = .ok ())
    {l : Ledger} {fees : Nat} (hbody : ∀ b : Block, b.items = [.utxo tx] →
      (st.mergesetVirtual p []).1.simulateApplyBlockBody st.chainId 0 (st.ghostdag.scoreOf p + 1) b = .ok (l, fees)) :
    ∃ b, st.Admitted env b (onlyParent st.ghostdag p) p ∧ b.items = [.utxo tx] ∧ b.hash = blockHash n 0 ∧
      b.parents = [p] := by
  have hknown := (h.whole.dagInv.known p).mpr hp
  have hdata : st.computeGhostdag [p] = .ok (onlyParent st.ghostdag p) := tryCompute_onlyParent hknown
  have hsmall := h.small
  -- the commitments, as variables: neither the body root nor the reward depends on those bound after it
  obtain ⟨links, hlinks⟩ : ∃ links, links = (st.dag[p]?.map computeInterlinks).getD [] := ⟨_, rfl⟩
  obtain ⟨body, hroot⟩ : ∃ body, body = (bound st [p] n 0 [tx] Hash.zero [] Hash.zero).bodyRoot := ⟨_, rfl⟩
  obtain ⟨root, hstate⟩ : ∃ root, root = (l.applyBlockReward (bound st [p] n 0 [tx] body [] Hash.zero)
    (st.ghostdag.scoreOf p + 1) fees).merkleRoot := ⟨_, rfl⟩
  have hcommitted : body = (bound st [p] n 0 [tx] body links root).bodyRoot := hroot
  have hreward : l.applyBlockReward (bound st [p] n 0 [tx] body links root) (st.ghostdag.scoreOf p + 1) fees
      = l.applyBlockReward (bound st [p] n 0 [tx] body [] Hash.zero) (st.ghostdag.scoreOf p + 1) fees :=
    applyBlockReward_congr l _ fees rfl rfl
  have hlinksLength : links.length ≤ 64 := by
    rw [hlinks]
    cases hb : st.dag[p]? with
    | none => simp
    | some b =>
      obtain ⟨i, hi, rfl⟩ := (h.mem p).mp hp
      exact ChainState.length_computeInterlinks b (h.block i b hb hi).2
  have hself : st.bindParentCommitments (bound st [p] n 0 [tx] body links root)
      = .ok (bound st [p] n 0 [tx] body links root) :=
    bind_self hdata rfl hlinks (hbody _ rfl) (hstate.trans (congrArg Ledger.merkleRoot hreward.symm))
  have hsealed : st.Sealed env (bound st [p] n 0 [tx] body links root) := by
    refine bound_sealed hsmall (by positivity) h.fresh (List.cons_ne_nil _ _) (by simp [maxBlockParents])
      (List.nodup_singleton p) (fun q hq => ?_) hlinksLength (fun q _ => h.ahead q)
      (fun fp hfp => by simp [hlow.finalityPoint_eq_none h.whole] at hfp) hdata rfl hspends hcommitted
      (hvalid _ ⟨rfl, rfl, rfl, rfl⟩) hself
    rw [List.mem_singleton.mp hq]
    exact ⟨hp, hknown⟩
  obtain ⟨gd, sp, a⟩ := hsealed.admitted
  obtain rfl : gd = onlyParent st.ghostdag p := (Except.ok.inj (hdata.symm.trans a.data)).symm
  obtain rfl : sp = p := (Option.some.inj a.computed.selectedParent).symm
  refine ⟨_, a, rfl, ?_, rfl⟩
  rw [hash_eq]
  change blockHash (UInt64.ofNat n).toNat (UInt64.ofNat 0).toNat = _
  rw [UInt64.toNat_ofNat', UInt64.toNat_ofNat', Nat.mod_eq_of_lt (by omega), Nat.zero_mod]

end Block

/-- A block on the last block of a chain becomes the selected tip. -/
theorem Followed.selectedTip_next {n : Nat} {st : ChainState} (f : Followed true (chain n) st)
    (inv : ChainState.Archival {} st) {b : Block} {gd : GhostdagData}
    (a : st.Admitted env b gd (blockHash n 0)) (hparents : b.parents = [blockHash n 0]) :
    (st.accept env b gd).selectedTip = some b.hash := by
  have inv' := inv.accept a
  have hlen : (chain n).length = n := length_chain n
  obtain ⟨tip, htip⟩ := inv'.whole.selected
  obtain ⟨hmem, hchildless⟩ := (inv'.whole.tips tip).mp (GhostdagMap.selectBest_eq_some.mp htip).mem
  have hdag : (st.accept env b gd).dag = (st.insertBlock env b gd).dag := by
    rw [ChainState.accept_archival st env b gd inv.archival, (st.acceptFull_core env b gd).dag]
  rw [hdag] at hmem hchildless
  rcases ChainState.mem_insertBlock.mp hmem with rfl | hold
  · exact htip
  · -- every block of the chain has a child
    obtain ⟨i, hi, rfl⟩ := (f.numbered.mem tip).mp hold
    rcases Nat.lt_or_ge i n with hlt | hge
    · refine absurd ?_ (hchildless (blockHash (i + 1) 0))
      rw [(ChainState.extends_insertBlock a).parentsOf (f.mem (by omega)), f.parentsOf_spine (spine_chain n) hlt]
      exact List.mem_singleton_self _
    · obtain rfl : i = n := by omega
      refine absurd ?_ (hchildless b.hash)
      rw [ChainState.parentsOf_insertBlock, hparents]
      exact List.mem_singleton_self _

end Sample

end HassanNode
