import Mathlib
import HassanNode.Lib.Tasks
import HassanNode.Consensus.MempoolRuns

/-!
# HassanNode.Consensus.Queues

The queues of registry operations and custody certificates (`lib.rs`): admission, and
which of the queued ones go into a block template. With them a node has all the calls
that change its state (`NodeCall`); account transfers are refused before they reach a
queue. The invariant of a run is that whatever is queued passes the tests of a block
(`Stocked`), and keeps passing them as the node goes on.
-/

namespace HassanNode

open Std (ExtTreeMap)
open Params Worklist

namespace ChainState

section Queues

variable [Crypto]

/-- How many operations a queue holds. -/
def opQueueCap (publicMode : Bool) : Nat := if publicMode then 256 else 10000

/-- `account_nonce`. -/
def accountNonce (st : ChainState) (addr : Address) : Nat := (st.live.accounts.entry addr).nonce

/-! ### Registry operations -/

/-- `admit_registry_to_mempool`. -/
def admitRegistryToMempool (st : ChainState) (publicMode : Bool) (op : RegistryOp) : Except String ChainState := do
  ensure (op.chainId == st.chainId) "Wrong chain_id"
  ensure op.verify "Invalid signature"
  ensure (st.registryMempool.length < opQueueCap publicMode) "Registry mempool full"
  ensure (st.accountNonce op.signerAddress ≤ op.nonce) "Stale nonce"
  ensure (!st.registryMempool.any fun o => o.signerAddress == op.signerAddress && o.nonce == op.nonce)
    "Duplicate registry op"
  return { st with registryMempool := st.registryMempool ++ [op] }

/-- The dry run behind `select_valid_registry_ops`: the nonces, accounts and titles so far. -/
abbrev RegistryDryRun := ExtTreeMap Address Nat × Accounts × RegistryState

/-- One candidate of `select_valid_registry_ops`, on a shell of a block. -/
def tryRegistryOp (st : ChainState) (run : RegistryDryRun) (op : RegistryOp) : Option RegistryDryRun :=
  if op.chainId ≠ st.chainId || !op.verify then none
  else
    let signer := op.signerAddress
    let cur := run.1[signer]?.getD (st.accountNonce signer)
    if op.nonce ≠ cur then none
    else
      match run.2.2.applyOp run.2.1 op
          { timestamp := genesisBlock.timestamp, height := genesisBlock.height,
            settlementIdHex := utf8 "select-dry-run", blueScore := st.selectedTipBlueScore } with
      | ((registry, accounts), .ok _) => some (run.1.insert signer (satAdd64 cur 1), accounts, registry)
      | (_, .error _) => none

/-- `select_valid_registry_ops`. -/
def selectValidRegistryOps (st : ChainState) (ops : List RegistryOp) : List RegistryOp :=
  (takeEach st.tryRegistryOp ops (∅, st.live.accounts, st.live.registry)).2

/-! ### Custody certificates -/

/-- The block that a certificate names is a full one of this DAG, and the certificate is its. -/
def checkAnchor (st : ChainState) (op : CustodyCertificate) : Except String Unit :=
  match st.dag[op.blockHash]? with
  | none => .error "Custody: anchor block unknown"
  | some anchor => do
    ensure (!anchor.starkProof.isEmpty && !anchor.birthCertificate.isEmpty)
      "Custody: anchor block has no consensus witnesses"
    ensure (op.settlementId == Address.hexEncode anchor.settlementId)
      "Custody: settlement_id does not match anchor block"
    ensure (op.issuerPubkey == anchor.creatorPubkey)
      "Custody: issuer_pubkey does not match anchor block"
    ensure (op.birthCertificate == anchor.birthCertificate)
      "Custody: birth certificate does not match anchor block"

/-- `admit_custody_to_mempool`. -/
def admitCustodyToMempool (st : ChainState) (publicMode : Bool) (op : CustodyCertificate) :
    Except String ChainState := do
  ensure (op.kind != .bridgeExit && op.kind != .bridgeEnter)
    "Bridge exit/enter disabled until a real cross-chain bridge ships"
  ensure (op.chainId == st.chainId) "Wrong chain_id"
  ensure (op.amount != 0) "Custody amount must be > 0"
  let sid ← op.settlementBytes
  op.verify sid
  st.checkAnchor op
  ensure (st.accountNonce op.owner ≤ op.nonce) "Stale custody nonce"
  ensure (!st.custodyMempool.any fun o => o.owner == op.owner && o.nonce == op.nonce && o.kind == op.kind)
    "Duplicate custody op"
  ensure (st.custodyMempool.length < opQueueCap publicMode) "Custody mempool full"
  return { st with custodyMempool := st.custodyMempool ++ [op] }

/-- `select_valid_custody_ops`: one after another on an overlay without titles. -/
def selectValidCustodyOps (st : ChainState) (ops : List CustodyCertificate) : List CustodyCertificate :=
  (takeEach (fun (l : Ledger) op => (l.applyCustodyOp st.chainId op).toOption) ops
    { st.live with registry := {} }).2

end Queues

end ChainState

/-! ### Runs -/

/-- What can happen to a node: a submission to one of its queues, or a block. -/
inductive NodeCall
  | submitUtxo (env : Env) (tx : UtxoTx)
  | submitRegistry (publicMode : Bool) (op : RegistryOp)
  | submitCustody (publicMode : Bool) (op : CustodyCertificate)
  | addBlock (env : Env) (block : Block)

namespace Mempool

section Runs

variable [Crypto]

/-- One call, whatever its result. -/
def take (m : Mempool) : NodeCall → Mempool
  | .submitUtxo env tx => (admitUtxoToMempool env tx m).1
  | .submitRegistry publicMode op =>
    match m.chain.admitRegistryToMempool publicMode op with
    | .ok chain => { m with chain }
    | .error _ => m
  | .submitCustody publicMode op =>
    match m.chain.admitCustodyToMempool publicMode op with
    | .ok chain => { m with chain }
    | .error _ => m
  | .addBlock env block => m.addBlock env block

/-- A run of calls. -/
def takeAll (m : Mempool) (calls : List NodeCall) : Mempool := calls.foldl take m

end Runs

end Mempool

/-! ### What a call does to the chain -/

namespace ChainState

/-- The same node with other queues. -/
def UpToQueues (st st' : ChainState) : Prop :=
  st' = { st with
    utxoMempool := st'.utxoMempool, registryMempool := st'.registryMempool, custodyMempool := st'.custodyMempool }

variable {st st' : ChainState}

theorem UpToQueue.queues (h : st.UpToQueue st') : st.UpToQueues st' := by
  rw [UpToQueue] at h
  rw [h]
  rfl

theorem UpToQueues.core (h : st.UpToQueues st') : st.SameCore st' := by
  rw [UpToQueues] at h
  rw [h]
  exact ⟨rfl, rfl, rfl, rfl, rfl, rfl⟩

theorem UpToQueues.transparent (h : st.UpToQueues st') : st'.transparentMempool = st.transparentMempool := by
  rw [UpToQueues] at h
  rw [h]

variable [Crypto] {seed : Ledger}

theorem Archival.of_queues (inv : Archival seed st) (h : st.UpToQueues st') : Archival seed st' := by
  rw [UpToQueues] at h
  rw [h]
  exact ⟨inv.archival, inv.whole.of_core ⟨rfl, rfl, rfl, rfl, rfl, rfl⟩, inv.full, inv.mainChain, inv.frontier,
    inv.base, inv.live⟩

omit [Crypto] in
theorem Later.refl (st : ChainState) : Later st st := ⟨.refl st, fun f hf => ⟨f, hf, .refl f⟩⟩

omit [Crypto] in
theorem Later.of_queues (h : st.UpToQueues st') : Later st st' := by
  refine ⟨.of_core h.core, fun f hf => ⟨f, ?_, .refl f⟩⟩
  rw [h.core.finalityPoint, hf]

theorem Later.trans {st'' : ChainState} (inv' : Archival seed st') (h : Later st st') (h' : Later st' st'') :
    Later st st'' := by
  refine ⟨h.blocks.trans h'.blocks, fun f hf => ?_⟩
  obtain ⟨g, hg, habove⟩ := h.point f hf
  obtain ⟨g', hg', habove'⟩ := h'.point g hg
  have hgmem := (inv'.frontier_mem (inv'.frontier.trans hg)).2
  exact ⟨g', hg', ((h'.blocks.above inv'.whole.dagInv hgmem).mpr habove).trans habove'⟩

theorem validateCustodyOp_eq (st : ChainState) (op : CustodyCertificate) : st.validateCustodyOp op = (do
    ensure (op.kind != .bridgeExit && op.kind != .bridgeEnter)
      "Bridge exit/enter disabled until a real cross-chain bridge ships"
    ensure (op.chainId == st.chainId) "Wrong chain_id on custody op"
    ensure (op.amount != 0) "Custody amount must be > 0"
    ensure (Address.isValid op.owner) "Invalid custody owner address"
    let sid ← op.settlementBytes
    (op.verify sid).mapError ("Custody: " ++ ·)
    st.checkAnchor op) := rfl

/-- What passes goes on passing: the tests read the DAG only at the anchor, which stays. -/
theorem Extends.validateCustodyOp {op : CustodyCertificate} (e : st.Extends st') (hchain : st'.chainId = st.chainId)
    (h : st.validateCustodyOp op = .ok ()) : st'.validateCustodyOp op = .ok () := by
  have hanchor : st'.checkAnchor op = st.checkAnchor op ∨ ∃ e, st.checkAnchor op = .error e := by
    unfold checkAnchor
    cases hget : st.dag[op.blockHash]? with
    | none => exact Or.inr ⟨_, rfl⟩
    | some anchor =>
        rw [e.dag op.blockHash (DagInv.mem_of_getElem? hget), hget]
        exact Or.inl rfl
  rw [validateCustodyOp_eq] at h ⊢
  rw [hchain]
  rcases hanchor with hsame | ⟨err, hfails⟩
  · rwa [hsame]
  · -- the last test is the anchor's, so it passed
    obtain ⟨-, h⟩ := Except.seq_eq_ok h
    obtain ⟨-, h⟩ := Except.seq_eq_ok h
    obtain ⟨-, h⟩ := Except.seq_eq_ok h
    obtain ⟨-, h⟩ := Except.seq_eq_ok h
    obtain ⟨sid, -, h⟩ := Except.bind_eq_ok h
    obtain ⟨-, h⟩ := Except.seq_eq_ok h
    rw [hfails] at h
    cases h

/-- A certificate that is admitted passes the tests of a block, if its owner has a valid
address: this test is left to the executors. -/
theorem admitCustodyToMempool_ok {publicMode : Bool} {op : CustodyCertificate}
    (h : st.admitCustodyToMempool publicMode op = .ok st') :
    st' = { st with custodyMempool := st.custodyMempool ++ [op] } ∧
      (Address.isValid op.owner = true → st.validateCustodyOp op = .ok ()) := by
  obtain ⟨hkind, h⟩ := Except.seq_eq_ok h
  obtain ⟨hchain, h⟩ := Except.seq_eq_ok h
  obtain ⟨hamount, h⟩ := Except.seq_eq_ok h
  obtain ⟨sid, hsid, h⟩ := Except.bind_eq_ok h
  obtain ⟨hverify, h⟩ := Except.seq_eq_ok h
  obtain ⟨hanchor, h⟩ := Except.seq_eq_ok h
  obtain ⟨-, h⟩ := Except.seq_eq_ok h
  obtain ⟨-, h⟩ := Except.seq_eq_ok h
  obtain ⟨-, h⟩ := Except.seq_eq_ok h
  refine ⟨(Except.ok.inj h).symm, fun howner => ?_⟩
  rw [ensure_eq_ok] at hkind hchain hamount
  rw [validateCustodyOp_eq]
  simp only [hkind, hchain, hamount, howner, hsid, hverify, hanchor, ensure, if_true, bind, Except.bind,
    Except.mapError]

theorem admitRegistryToMempool_ok {publicMode : Bool} {op : RegistryOp}
    (h : st.admitRegistryToMempool publicMode op = .ok st') :
    st' = { st with registryMempool := st.registryMempool ++ [op] } := by
  obtain ⟨-, h⟩ := Except.seq_eq_ok h
  obtain ⟨-, h⟩ := Except.seq_eq_ok h
  obtain ⟨-, h⟩ := Except.seq_eq_ok h
  obtain ⟨-, h⟩ := Except.seq_eq_ok h
  obtain ⟨-, h⟩ := Except.seq_eq_ok h
  exact (Except.ok.inj h).symm

/-! ### What is queued -/

/-- The tests of a block that a queue can promise. -/
structure Queued (st : ChainState) : Prop where
  transparent : st.transparentMempool = []
  utxo : ∀ tx ∈ st.utxoMempool, tx.validateForm = .ok () ∧ tx.chainId = st.chainId ∧ tx.verify = true
  within : UtxoPool.Within st.utxoMempool
  custody : ∀ op ∈ st.custodyMempool, Address.isValid op.owner = true → st.validateCustodyOp op = .ok ()

/-- A block takes transactions out of the queues, and puts none in. -/
theorem accept_queues (st : ChainState) (env : Env) (block : Block) (gd : GhostdagData) (h : st.archival = true) :
    (st.accept env block gd).transparentMempool.Sublist st.transparentMempool ∧
      (st.accept env block gd).custodyMempool.Sublist st.custodyMempool := by
  let queues (s : ChainState) := (s.transparentMempool, s.custodyMempool)
  have horder : ∀ s : ChainState, queues s.orderMainChain = queues s := by
    intro s
    simp only [queues, orderMainChain]
    split <;> rfl
  have hadvanced : ∀ s : ChainState, queues s.advanceFinalizedBase = queues s := by
    intro s
    rcases s.advanceFinalizedBase_cases with heq | ⟨fp, -, -, -, -, heq⟩
    · rw [heq]
    · rw [heq]
  have hcaptured : ∀ s : ChainState, queues s.captureBase = queues s := by
    intro s
    simp only [queues, captureBase]
    split <;> rfl
  have hall : queues (st.insertBlock env block gd).orderMainChain.captureBase.advanceFinalizedBase = queues st := by
    rw [hadvanced, hcaptured, horder]
    rfl
  obtain ⟨htransparent, hcustody⟩ := Prod.mk.inj hall
  rw [accept_archival st env block gd h]
  constructor
  · show (List.filter _ (st.insertBlock env block gd).orderMainChain.captureBase.advanceFinalizedBase.transparentMempool
      ).Sublist _
    rw [htransparent]
    exact List.filter_sublist
  · show (List.filter _ (st.insertBlock env block gd).orderMainChain.captureBase.advanceFinalizedBase.custodyMempool
      ).Sublist _
    rw [hcustody]
    exact List.filter_sublist

/-- The queues after a submission: whatever is new in them has passed its tests. -/
structure Requeued (st st' : ChainState) : Prop where
  same : st.UpToQueues st'
  utxo : ∀ tx ∈ st'.utxoMempool, tx ∈ st.utxoMempool ∨
    tx.validateForm = .ok () ∧ tx.chainId = st.chainId ∧ tx.verify = true
  within : UtxoPool.Within st.utxoMempool → UtxoPool.Within st'.utxoMempool
  custody : ∀ op ∈ st'.custodyMempool, op ∈ st.custodyMempool ∨
    (Address.isValid op.owner = true → st.validateCustodyOp op = .ok ())

theorem Requeued.refl (st : ChainState) : st.Requeued st := ⟨rfl, fun _ h => Or.inl h, id, fun _ h => Or.inl h⟩

theorem Queued.requeued (h : st.Queued) (hqueues : st.Requeued st') : st'.Queued := by
  have hcore := hqueues.same.core
  refine ⟨hqueues.same.transparent.trans h.transparent, fun tx htx => ?_, hqueues.within h.within,
    fun op hop howner => ?_⟩
  · rw [hcore.chainId]
    exact (hqueues.utxo tx htx).elim (h.utxo tx) id
  · refine (Extends.of_core hcore).validateCustodyOp hcore.chainId ?_
    exact (hqueues.custody op hop).elim (fun hold => h.custody op hold howner) fun hnew => hnew howner

theorem Queued.accept (h : st.Queued) {env : Env} {block : Block} {gd : GhostdagData} (harchival : st.archival = true)
    (hblocks : st.Extends (st.accept env block gd)) (hchain : (st.accept env block gd).chainId = st.chainId) :
    (st.accept env block gd).Queued := by
  obtain ⟨htransparent, hcustody⟩ := accept_queues st env block gd harchival
  refine ⟨?_, fun tx htx => ?_, ?_, fun op hop howner => ?_⟩
  · rw [h.transparent] at htransparent
    exact List.sublist_nil.mp htransparent
  · rw [accept_utxoMempool] at htx
    rw [hchain]
    exact h.utxo tx (List.mem_filter.mp htx).1
  · rw [accept_utxoMempool]
    exact h.within.sublist List.filter_sublist
  · exact hblocks.validateCustodyOp hchain (h.custody op (hcustody.subset hop) howner)

omit [Crypto] in
theorem nodup_nextTips {tips parents : List Hash} {hash : Hash} (h : tips.Nodup) (hnew : hash ∉ tips) :
    (nextTips tips parents hash).Nodup := by
  have hsub : ∀ tips : List Hash, (parents.foldl (fun tips p => tips.filter (· ≠ p)) tips).Sublist tips := by
    induction parents with
    | nil => exact fun tips => List.Sublist.refl tips
    | cons p parents ih => exact fun tips => (ih _).trans List.filter_sublist
  refine List.nodup_append.mpr ⟨h.sublist (hsub tips), List.nodup_singleton hash, fun x hx y hy => ?_⟩
  obtain rfl := List.mem_singleton.mp hy
  exact fun heq => hnew (heq ▸ (hsub tips).subset hx)

end ChainState

namespace Mempool

variable [Crypto] {seed : Ledger} {m : Mempool}

/-- The invariant of an archival node: its chain, its tips and its queues. -/
structure Stocked (seed : Ledger) (m : Mempool) : Prop where
  archival : ChainState.Archival seed m.chain
  tips : m.chain.tips.Nodup
  queued : m.chain.Queued

/-- **What a call does.** It changes the queues, or it is a block that is accepted. -/
theorem take_cases (m : Mempool) (call : NodeCall) :
    m.chain.Requeued (m.take call).chain ∨
      ∃ env block gd sp, m.chain.Admitted env block gd sp ∧ (m.take call).chain = m.chain.accept env block gd := by
  cases call with
  | submitUtxo env tx =>
      obtain ⟨hqueue, hpool⟩ := admit_pool env tx m
      refine Or.inl ⟨hqueue.queues, fun t ht => ?_, within_admit env tx, fun op hop => Or.inl ?_⟩
      · rcases hpool with hsub | ⟨vetted, hvet, kept, hpool, hsub, -⟩
        · exact Or.inl (hsub.subset ht)
        · replace ht : t ∈ kept ++ [tx] := hpool ▸ ht
          rcases List.mem_append.mp ht with hkept | hnew
          · exact Or.inl ((hsub.trans (UtxoPool.without_sublist _ _)).subset hkept)
          · obtain rfl := List.mem_singleton.mp hnew
            have hv := ChainState.vetUtxo_ok hvet
            exact Or.inr ⟨hv.form, hv.chainId, hv.verify⟩
      · rw [ChainState.UpToQueue] at hqueue
        rw [take, hqueue] at hop
        exact hop
  | submitRegistry publicMode op =>
      rw [take]
      cases hadmit : m.chain.admitRegistryToMempool publicMode op with
      | error e => exact Or.inl (.refl _)
      | ok chain =>
          obtain rfl := ChainState.admitRegistryToMempool_ok hadmit
          exact Or.inl ⟨rfl, fun _ ht => Or.inl ht, id, fun _ hop => Or.inl hop⟩
  | submitCustody publicMode op =>
      rw [take]
      cases hadmit : m.chain.admitCustodyToMempool publicMode op with
      | error e => exact Or.inl (.refl _)
      | ok chain =>
          obtain ⟨rfl, hpasses⟩ := ChainState.admitCustodyToMempool_ok hadmit
          refine Or.inl ⟨rfl, fun _ ht => Or.inl ht, id, fun op' hop => ?_⟩
          rcases List.mem_append.mp hop with hold | hnew
          · exact Or.inl hold
          · obtain rfl := List.mem_singleton.mp hnew
            exact Or.inr hpasses
  | addBlock env block =>
      rw [take, addBlock]
      cases hadd : m.chain.addBlock env block with
      | error e => exact Or.inl (.refl _)
      | ok chain =>
          obtain ⟨gd, sp, a, rfl⟩ := ChainState.addBlock_eq_ok.mp hadd
          exact Or.inr ⟨env, block, gd, sp, a, rfl⟩

/-- **Step.** -/
theorem Stocked.take (h : m.Stocked seed) (call : NodeCall) :
    (m.take call).Stocked seed ∧ ChainState.Later m.chain (m.take call).chain ∧
      (m.take call).chain.chainId = m.chain.chainId := by
  rcases m.take_cases call with hqueues | ⟨env, block, gd, sp, a, haccept⟩
  · have hcore := hqueues.same.core
    exact ⟨⟨h.archival.of_queues hqueues.same, by rw [hcore.tips]; exact h.tips, h.queued.requeued hqueues⟩,
      .of_queues hqueues.same, hcore.chainId⟩
  · have hchain : (m.chain.accept env block gd).chainId = m.chain.chainId := by
      rw [ChainState.accept_archival _ _ _ _ h.archival.archival]
      exact (m.chain.acceptFull_core env block gd).chainId
    have hlater := h.archival.later_accept a
    refine ⟨⟨?_, ?_, ?_⟩, ?_, ?_⟩
    · rw [haccept]
      exact h.archival.accept a
    · rw [haccept, ChainState.accept_archival _ _ _ _ h.archival.archival,
        (m.chain.acceptFull_core env block gd).tips]
      exact ChainState.nodup_nextTips h.tips fun hmem => a.new ((h.archival.whole.tips _).mp hmem).1
    · rw [haccept]
      exact h.queued.accept h.archival.archival hlater.blocks hchain
    · rw [haccept]
      exact hlater
    · rw [haccept, hchain]

theorem takeAll_concat (m : Mempool) (calls : List NodeCall) (call : NodeCall) :
    m.takeAll (calls ++ [call]) = (m.takeAll calls).take call := by
  rw [takeAll, List.foldl_append, List.foldl_cons, List.foldl_nil]
  rfl

/-- **Run.** -/
theorem Stocked.takeAll (h : m.Stocked seed) (calls : List NodeCall) :
    (m.takeAll calls).Stocked seed ∧ ChainState.Later m.chain (m.takeAll calls).chain ∧
      (m.takeAll calls).chain.chainId = m.chain.chainId := by
  induction calls using List.reverseRecOn with
  | nil => exact ⟨h, .refl _, rfl⟩
  | append_singleton calls call ih =>
      obtain ⟨hs, hlater, hchain⟩ := ih
      obtain ⟨hs', hlater', hchain'⟩ := hs.take call
      rw [takeAll_concat]
      exact ⟨hs', hlater.trans hs.archival hlater', hchain'.trans hchain⟩

theorem stocked_newNode (easy : Bool) (seed : Ledger) : (newNode easy true seed).Stocked seed where
  archival := .seeded easy seed
  tips := List.nodup_singleton _
  queued := ⟨rfl, fun _ htx => absurd htx List.not_mem_nil,
    ⟨List.Pairwise.nil, List.nodup_nil, Nat.zero_le _, Nat.zero_le _⟩, fun _ hop => absurd hop List.not_mem_nil⟩

end Mempool

end HassanNode
