import Mathlib
import HassanNode.Consensus.Mining
import HassanNode.Consensus.MempoolSteps

/-!
# HassanNode.Consensus.Submissions

A submission that has nothing to do with the queue: it takes no input and spends no
output of a queued spend. If it applies and there is room, it is queued
(`Mempool.admit_unrelated`). With the sample primitives this fills a queue, one
unrelated spend after the other (`Sample.crowd`).

A full queue is where a refusal costs somebody else: a spend that outbids a smaller
one takes its place away and is then refused for its own size
(`Sample.refused_for_size`).
-/

namespace HassanNode

open Std (ExtTreeMap ExtTreeSet)
open Params Bincode

section Unrelated

variable [Crypto] {st : ChainState} {tx : UtxoTx}

/-- A spend that shares no input with the queue and spends none of its outputs. -/
structure Unrelated (pool : UtxoPool) (tx : UtxoTx) : Prop where
  txid : ∀ q ∈ pool, q.txid ≠ tx.txid
  inputs : ∀ q ∈ pool, UtxoPool.conflicts tx q = false
  parents : ∀ q ∈ pool, UtxoPool.spendsFrom [q.txHash] tx = false

omit [Crypto] in
theorem indicesOf_eq_nil {pool : UtxoPool} {test : UtxoTx → Bool} (h : ∀ q ∈ pool, test q = false) :
    pool.indicesOf test = [] := by
  refine List.eq_nil_iff_forall_not_mem.mpr fun i hi => ?_
  obtain ⟨t, ht, htest⟩ := UtxoPool.mem_indicesOf.mp hi
  rw [h t (List.mem_of_getElem? ht)] at htest
  cases htest

/-- Where nobody spends from anybody the conflict set is what shares an input. -/
theorem conflictIdxs_eq {pool : UtxoPool}
    (h : ∀ txs : List UtxoTx, ∀ q ∈ pool, UtxoPool.spendsFrom (txs.map UtxoTx.txHash) q = false) :
    pool.conflictIdxs tx = pool.indicesOf (UtxoPool.conflicts tx) := by
  refine Worklist.passes_eq_self fun i hi => ?_
  rw [List.getElem?_eq_getElem (List.mem_range.mp hi)]
  exact h _ _ (List.getElem_mem _)

/-- Who shares no input with the queue has no conflicts. -/
theorem conflictIdxs_eq_nil {pool : UtxoPool} (h : ∀ q ∈ pool, UtxoPool.conflicts tx q = false) :
    pool.conflictIdxs tx = [] := by
  rw [UtxoPool.conflictIdxs, indicesOf_eq_nil h]
  refine Worklist.passes_eq_self fun i hi => ?_
  rw [List.getElem?_eq_getElem (List.mem_range.mp hi)]
  exact List.any_eq_false.mpr fun _ _ => by simp [UtxoPool.pick]

theorem ancestorIdxs_eq_nil {pool : UtxoPool}
    (h : ∀ q ∈ pool, UtxoPool.spendsFrom [q.txHash] tx = false) (skip : List Nat) :
    pool.ancestorIdxs tx skip = [] := by
  rw [UtxoPool.ancestorIdxs, UtxoPool.directParents, indicesOf_eq_nil h, List.filter_nil]
  cases List.length pool with
  | zero => rfl
  | succ n => rfl

/-- What a submission brings: it is valid on its own and not too large. -/
structure Submittable (st : ChainState) (tx : UtxoTx) : Prop where
  form : tx.validateForm = .ok ()
  chainId : tx.chainId = st.chainId
  verify : tx.verify = true
  size : tx.relayBytes ≤ maxUtxoPackageBytes

/-- The feerate of a spend on its own. -/
def soleRate (tx : UtxoTx) : Nat := satAdd128 0 tx.fee / max tx.relayBytes 1

/-- A submission passes the tests if it applies without its conflicts, its package is
within the limits and it outbids the conflicts. -/
theorem vetUtxo_eq (hvalid : Submittable st tx) (hfresh : ∀ q ∈ st.utxoMempool, q.txid ≠ tx.txid)
    {idxs ancestors : List Nat} (hconflicts : UtxoPool.conflictIdxs st.utxoMempool tx = idxs)
    {s : UtxoSet × Accounts} {fee : Nat} (happlies : applyUtxoTx (st.utxoMempoolPreview idxs).1
      (st.utxoMempoolPreview idxs).2 tx st.selectedTipBlueScore = (s, .ok fee))
    (hancestors : UtxoPool.ancestorIdxs st.utxoMempool tx idxs = ancestors)
    (hcount : ancestors.length + 1 ≤ maxUtxoPackageCount)
    (hbytes : UtxoPool.sumBytes (UtxoPool.pick st.utxoMempool ancestors) + tx.relayBytes ≤ maxUtxoPackageBytes)
    (hbid : (idxs.isEmpty || UtxoPool.outbids st.utxoMempool tx idxs) = true) :
    st.vetUtxo tx = .ok ⟨idxs, satAdd128 (UtxoPool.sumFees (UtxoPool.pick st.utxoMempool ancestors)) tx.fee
      / max (UtxoPool.sumBytes (UtxoPool.pick st.utxoMempool ancestors) + tx.relayBytes) 1⟩ := by
  have hfresh' : (!st.utxoMempool.any fun t => t.txid == tx.txid) = true := by
    rw [Bool.not_eq_true', List.any_eq_false]
    exact fun q hq => by simpa using hfresh q hq
  simp [ChainState.vetUtxo, hvalid.form, hvalid.chainId, hvalid.verify, hconflicts, hancestors, happlies, hfresh',
    hbid, hcount, hbytes, bind, Except.bind, ensure, pure, Except.pure]

/-- So it does without queued parents, if it is not too large. -/
theorem vetUtxo_orphan (hvalid : Submittable st tx) (hfresh : ∀ q ∈ st.utxoMempool, q.txid ≠ tx.txid)
    (hparents : ∀ q ∈ st.utxoMempool, UtxoPool.spendsFrom [q.txHash] tx = false) {idxs : List Nat}
    (hconflicts : UtxoPool.conflictIdxs st.utxoMempool tx = idxs) {s : UtxoSet × Accounts} {fee : Nat}
    (happlies : applyUtxoTx (st.utxoMempoolPreview idxs).1 (st.utxoMempoolPreview idxs).2 tx
      st.selectedTipBlueScore = (s, .ok fee))
    (hbid : (idxs.isEmpty || UtxoPool.outbids st.utxoMempool tx idxs) = true) :
    st.vetUtxo tx = .ok ⟨idxs, soleRate tx⟩ := by
  have hnone : UtxoPool.sumBytes (UtxoPool.pick st.utxoMempool []) = 0 := rfl
  have hvet := vetUtxo_eq hvalid hfresh hconflicts happlies (ancestorIdxs_eq_nil hparents idxs) (by decide)
    (by rw [hnone, Nat.zero_add]; exact hvalid.size) hbid
  rw [hvet, hnone, Nat.zero_add]
  rfl

theorem vetUtxo_unrelated (hvalid : Submittable st tx) (hunrelated : Unrelated st.utxoMempool tx)
    {s : UtxoSet × Accounts} {fee : Nat} (happlies : applyUtxoTx (st.utxoMempoolPreview []).1
      (st.utxoMempoolPreview []).2 tx st.selectedTipBlueScore = (s, .ok fee)) :
    st.vetUtxo tx = .ok ⟨[], soleRate tx⟩ :=
  vetUtxo_orphan hvalid hunrelated.txid hunrelated.parents (conflictIdxs_eq_nil hunrelated.inputs) happlies rfl

/-- A submission that passed the tests without conflicts is queued if there is room for
it. -/
theorem Mempool.admit_vetted (env : Env) {m : Mempool} {rate : Nat} (hvet : m.chain.vetUtxo tx = .ok ⟨[], rate⟩)
    (hbytes : UtxoPool.sumBytes m.pool + tx.relayBytes ≤ maxMempoolBytes)
    (hcount : m.pool.length < maxMempoolSize) :
    admitUtxoToMempool env tx m = (m.queued env tx, .ok ()) := by
  have hbytes' : makeByteRoom tx rate m = (m, .ok ()) := by
    rw [makeByteRoom, InPlace.read_bind, if_neg (Nat.not_lt.mpr hbytes)]
    rfl
  have hcount' : makeCountRoom tx rate m = (m, .ok ()) := by
    rw [makeCountRoom, InPlace.read_bind, if_neg (Nat.not_le.mpr hcount)]
    rfl
  rw [admitUtxoToMempool, InPlace.read_bind, hvet, InPlace.lift_bind_ok, InPlace.write_bind,
    Mempool.removeAll_nil, InPlace.bind_ok hbytes', InPlace.bind_ok hcount']
  rfl

/-- **An unrelated submission is queued**, if it applies and there is room for it. -/
theorem Mempool.admit_unrelated (env : Env) {m : Mempool} (hvalid : Submittable m.chain tx)
    (hunrelated : Unrelated m.pool tx) {s : UtxoSet × Accounts} {fee : Nat}
    (happlies : applyUtxoTx (m.chain.utxoMempoolPreview []).1 (m.chain.utxoMempoolPreview []).2 tx
      m.chain.selectedTipBlueScore = (s, .ok fee))
    (hbytes : UtxoPool.sumBytes m.pool + tx.relayBytes ≤ maxMempoolBytes)
    (hcount : m.pool.length < maxMempoolSize) :
    admitUtxoToMempool env tx m = (m.queued env tx, .ok ()) :=
  admit_vetted env (vetUtxo_unrelated hvalid hunrelated happlies) hbytes hcount

end Unrelated

/-! ### Sample spends -/

namespace Sample

/-- A spend of a coin of the sample miner into one output. -/
def spendInto (op : OutPoint) (witness : UnlockWitness) (tag value : Nat) (predicate : Predicate) (fee : Nat) :
    UtxoTx where
  inputs := [⟨op, 0, witness⟩]
  outputs := [⟨value, predicate, 0⟩]
  lockBlueScore := 0
  fee := fee
  chainId := chainId
  fromPubkey := minerKey
  signature := List.replicate (pqSignatureSize - 20) 0 ++ (u64 tag ++ List.replicate 12 0)

section Into

variable {op : OutPoint} {witness : UnlockWitness} {tag value fee : Nat} {predicate : Predicate}

theorem length_spendInto_signature :
    (spendInto op witness tag value predicate fee).signature.length = pqSignatureSize := by
  change (List.replicate (pqSignatureSize - 20) (0 : UInt8) ++ (u64 tag ++ List.replicate 12 0)).length = _
  rw [List.length_append, List.length_append, List.length_replicate, length_u64, List.length_replicate]
  rfl

theorem relayBytes_spendInto : (spendInto op witness tag value predicate fee).relayBytes
    = 7379 + witness.toBytes.length + predicate.toBytes.length := by
  have hinput : (encode (⟨op, 0, witness⟩ : TxIn)).length = 72 + witness.toBytes.length := by
    change (op.txid.asBytes ++ u32 op.vout.toNat ++ u32 (0 : UInt32).toNat ++ witness.toBytes).length = _
    simp only [List.length_append, Hash.length_asBytes, length_u32]
  have houtput : (encode (⟨value, predicate, 0⟩ : TxOut)).length = 24 + predicate.toBytes.length := by
    change (u128 value ++ predicate.toBytes ++ u64 0).length = _
    simp only [List.length_append, length_u128, length_u64]
    omega
  rw [UtxoTx.relayBytes, if_neg (not_not.mpr length_spendInto_signature)]
  change (encode [(⟨op, 0, witness⟩ : TxIn)] ++ encode [(⟨value, predicate, 0⟩ : TxOut)] ++ u64 0 ++ u128 fee
    ++ u64 chainId ++ Bincode.bytes minerKey
    ++ Bincode.bytes (spendInto op witness tag value predicate fee).signature).length = _
  simp only [List.length_append, length_encode_list, List.map_cons, List.map_nil, List.sum_cons,
    List.sum_nil, hinput, houtput, length_u64, length_u128, length_bytes, length_spendInto_signature,
    minerKey, List.length_replicate, pqPublicKeySize, pqSignatureSize]
  omega

theorem spendInto_form (hout : UtxoTx.validateOutput ⟨value, predicate, 0⟩ = .ok ())
    (hfee : (spendInto op witness tag value predicate fee).relayBytes ≤ fee) :
    (spendInto op witness tag value predicate fee).validateForm = .ok () := by
  have hkey : (spendInto op witness tag value predicate fee).fromPubkey.length = pqPublicKeySize :=
    List.length_replicate
  have hsig : (spendInto op witness tag value predicate fee).signature.length = pqSignatureSize :=
    length_spendInto_signature
  have hpaid : ¬ (spendInto op witness tag value predicate fee).fee
      < (spendInto op witness tag value predicate fee).minFeeRequired := by
    rw [UtxoTx.minFeeRequired]
    have hsize : 7379 ≤ (spendInto op witness tag value predicate fee).relayBytes := by
      rw [relayBytes_spendInto]
      omega
    have hprice : satMul128 (spendInto op witness tag value predicate fee).relayBytes minFeePerByte
        ≤ (spendInto op witness tag value predicate fee).relayBytes :=
      (min_le_left _ _).trans (Nat.mul_one _).le
    have hfloor : minTxFee = 1000 := rfl
    change ¬ fee < _
    refine Nat.not_lt.mpr (max_le (hprice.trans hfee) ?_)
    omega
  have hinputs : (spendInto op witness tag value predicate fee).inputs = [⟨op, 0, witness⟩] := rfl
  have houtputs : (spendInto op witness tag value predicate fee).outputs = [⟨value, predicate, 0⟩] := rfl
  simp [UtxoTx.validateForm, hkey, hsig, hpaid, hinputs, houtputs, hout, bind, Except.bind, pure, Except.pure]

theorem spendInto_verify : (spendInto op witness tag value predicate fee).verify = true :=
  verifyPq512_sample _ _ List.length_replicate length_spendInto_signature

theorem spendInto_submittable {st : ChainState} (hchain : st.chainId = chainId)
    (hout : UtxoTx.validateOutput ⟨value, predicate, 0⟩ = .ok ())
    (hfee : (spendInto op witness tag value predicate fee).relayBytes ≤ fee)
    (hsize : (spendInto op witness tag value predicate fee).relayBytes ≤ maxUtxoPackageBytes) :
    Submittable st (spendInto op witness tag value predicate fee) where
  form := spendInto_form hout hfee
  chainId := hchain.symm
  verify := spendInto_verify
  size := hsize

/-- The spend applies wherever its coin is, once the coin is mature. -/
theorem spendInto_applies {u : UtxoSet} {accounts : Accounts} {media created : Nat}
    (hheld : u.Holds op ⟨value + fee, .payToAddress (Address.ofPubkey minerKey), created⟩)
    (hmature : op.isCoinbase = true → satAdd64 created coinbaseMaturityBlues ≤ media)
    (hwitness : witness = .signature ∨ ∃ items, witness = .stack items)
    (hout : UtxoTx.validateOutput ⟨value, predicate, 0⟩ = .ok ()) (hplain : predicate.isAccountCredit = false)
    (hfee : (spendInto op witness tag value predicate fee).relayBytes ≤ fee) (hsum : value + fee ≤ u128Max) :
    ∃ s, applyUtxoTx u accounts (spendInto op witness tag value predicate fee) media = (s, .ok fee) := by
  have hopen : evaluateFull (.payToAddress (Address.ofPubkey minerKey)) witness
      (spendInto op witness tag value predicate fee).fromAddress media created
      (some (spendInto op witness tag value predicate fee).signingBytes) = .ok () := by
    have howner : (spendInto op witness tag value predicate fee).fromAddress = Address.ofPubkey minerKey := rfl
    rw [howner]
    rcases hwitness with rfl | ⟨items, rfl⟩
    · simp [evaluateFull, Predicate.depth, maxPredDepth, evalInner, checkOwner, bind, Except.bind]
    · simp [evaluateFull, Predicate.depth, maxPredDepth, evalInner, checkOwner, bind, Except.bind]
  have hbinds : assertExactValueBinds (value + fee) (.payToAddress (Address.ofPubkey minerKey)) = .ok () := rfl
  have hripe : ¬ (op.isCoinbase = true ∧ media < satAdd64 created coinbaseMaturityBlues) :=
    fun h => Nat.not_lt.mpr (hmature h.1) h.2
  have hlock : ¬ (0 : UInt32) < 0 := by decide
  have hinput : checkInput u (spendInto op witness tag value predicate fee) media ⟨op, 0, witness⟩
      = .ok (value + fee) := by
    simp [checkInput, hheld.live, hripe, hopen, hbinds, bind, Except.bind]
  have hinputs : checkInputs u (spendInto op witness tag value predicate fee) media
      (spendInto op witness tag value predicate fee).inputs 0 = .ok (value + fee) := by
    change checkInputs _ _ _ [⟨op, 0, witness⟩] 0 = _
    simp [checkInputs, hinput, checkedAdd128, hsum, bind, Except.bind]
  have houtputs : sumOutputs (spendInto op witness tag value predicate fee).outputs
      (spendInto op witness tag value predicate fee).fee = .ok (value + fee) := by
    change sumOutputs [⟨value, predicate, 0⟩] fee = _
    simp [sumOutputs, checkedAdd128, Nat.add_comm fee, hsum]
  have hunlocked : (spendInto op witness tag value predicate fee).lockBlueScore = 0 := rfl
  have hcheck : checkUtxoTx u (spendInto op witness tag value predicate fee) media = .ok () := by
    simp [checkUtxoTx, spendInto_form hout hfee, spendInto_verify, hinputs, houtputs, hunlocked, bind, Except.bind]
  have hspend : u.spend op = .ok { entries := u.entries.erase op, spent := u.spent.insert op } := by
    simp [UtxoSet.spend, hheld.unspent, hheld.live]
  have heffects : (spendInto op witness tag value predicate fee).effects media = [.spend op,
      .create ⟨(spendInto op witness tag value predicate fee).txHash, UInt32.ofNat 0⟩
        ⟨value, predicate, media⟩] := by
    change [UtxoEffect.spend op, outputEffect _ media (⟨value, predicate, 0⟩, 0)] = _
    rw [outputEffect, if_neg (by rw [hplain]; decide)]
  have hfee' : (spendInto op witness tag value predicate fee).fee = fee := rfl
  simp [applyUtxoTx, hcheck, heffects, UtxoEffect.applyAll, UtxoEffect.apply, hspend, hfee', bind, Except.bind]

end Into

/-- A spend of a coin of the sample miner into one output of a given size. -/
def coinSpend (op : OutPoint) (tag size value fee : Nat) : UtxoTx :=
  spendInto op .signature tag value (.multiSig 1 [List.replicate size 0]) fee

variable {op op' : OutPoint} {tag tag' size size' value value' fee fee' : Nat}

theorem relayBytes_coinSpend : (coinSpend op tag size value fee).relayBytes = 7404 + size := by
  have hwitness : UnlockWitness.signature.toBytes.length = 4 := by simp [UnlockWitness.toBytes]
  have hpredicate : (Predicate.multiSig 1 [List.replicate size 0]).toBytes.length = 21 + size := by
    simp [Predicate.toBytes]
    omega
  rw [coinSpend, relayBytes_spendInto, hwitness, hpredicate]
  omega

theorem length_encode_coinSpend :
    (encode (coinSpend op tag size value fee)).length = 7404 + size := by
  have hsig : (coinSpend op tag size value fee).signature.length = pqSignatureSize := length_spendInto_signature
  have hrelay : (coinSpend op tag size value fee).relayBytes = 7404 + size := relayBytes_coinSpend
  rwa [UtxoTx.relayBytes, if_neg (not_not.mpr hsig)] at hrelay

/-- An output that is not dust and locks nothing to one address. -/
theorem validateOutput_multiSig (hdust : utxoDust ≤ value) :
    UtxoTx.validateOutput ⟨value, .multiSig 1 [List.replicate size 0], 0⟩ = .ok () := by
  have hpos : value ≠ 0 := (Nat.lt_of_lt_of_le (by decide) hdust).ne'
  simp [UtxoTx.validateOutput, Predicate.isAccountCredit, Predicate.lockedAddress, hpos, hdust]

theorem coinSpend_submittable {st : ChainState} (hchain : st.chainId = chainId) (hdust : utxoDust ≤ value)
    (hfee : 7404 + size ≤ fee) (hsize : 7404 + size ≤ maxUtxoPackageBytes) :
    Submittable st (coinSpend op tag size value fee) :=
  spendInto_submittable hchain (validateOutput_multiSig hdust) (relayBytes_coinSpend.le.trans hfee)
    (relayBytes_coinSpend.le.trans hsize)

theorem coinSpend_applies {u : UtxoSet} {accounts : Accounts} {media created : Nat}
    (hheld : u.Holds op ⟨value + fee, .payToAddress (Address.ofPubkey minerKey), created⟩)
    (hmature : op.isCoinbase = true → satAdd64 created coinbaseMaturityBlues ≤ media)
    (hdust : utxoDust ≤ value) (hfee : 7404 + size ≤ fee) (hsum : value + fee ≤ u128Max) :
    ∃ s, applyUtxoTx u accounts (coinSpend op tag size value fee) media = (s, .ok fee) :=
  spendInto_applies hheld hmature (Or.inl rfl) (validateOutput_multiSig hdust) rfl
    (relayBytes_coinSpend.le.trans hfee) hsum

/-! ### Their ids -/

/-- Messages that end in different tags have different digests. -/
theorem tagged_digest_ne (htag : tag < 2 ^ 64) (htag' : tag' < 2 ^ 64) (hne : tag ≠ tag')
    (front front' : Bytes) :
    Crypto.blake3 (front ++ (u64 tag ++ List.replicate 12 0))
      ≠ Crypto.blake3 (front' ++ (u64 tag' ++ List.replicate 12 0)) := by
  refine sample_digest_ne (length_u64 tag) (length_u64 tag') List.length_replicate List.length_replicate ?_
  rw [u64, u64, Bytes.toNatLE_ofNatLE, Bytes.toNatLE_ofNatLE, Nat.mod_eq_of_lt (by omega),
    Nat.mod_eq_of_lt (by omega)]
  exact hne

/-- Spends with different tags have different ids. -/
theorem spendInto_txid_ne {witness witness' : UnlockWitness} {predicate predicate' : Predicate}
    (htag : tag < 2 ^ 64) (htag' : tag' < 2 ^ 64) (hne : tag ≠ tag') :
    (spendInto op witness tag value predicate fee).txid
      ≠ (spendInto op' witness' tag' value' predicate' fee').txid := by
  have hdigest : ∀ (op : OutPoint) (witness : UnlockWitness) (tag value : Nat) (predicate : Predicate)
      (fee : Nat), (spendInto op witness tag value predicate fee).txid
      = Crypto.blake3 ((utf8 "hassan-pq-512-v1" ++ utf8 "utxo-txid"
        ++ (spendInto op witness tag value predicate fee).signingBytes ++ List.replicate (pqSignatureSize - 20) 0)
        ++ (u64 tag ++ List.replicate 12 0)) := by
    intro op witness tag value predicate fee
    have hsig : (spendInto op witness tag value predicate fee).signature
        = List.replicate (pqSignatureSize - 20) 0 ++ (u64 tag ++ List.replicate 12 0) := rfl
    rw [UtxoTx.txid, digest512, hsig]
    simp only [List.append_assoc]
  rw [hdigest, hdigest]
  exact tagged_digest_ne htag htag' hne _ _

theorem coinSpend_txid_ne (htag : tag < 2 ^ 64) (htag' : tag' < 2 ^ 64) (hne : tag ≠ tag') :
    (coinSpend op tag size value fee).txid ≠ (coinSpend op' tag' size' value' fee').txid :=
  spendInto_txid_ne htag htag' hne

/-- The id that the sample coins carry. -/
def mintId : Hash := Hash.ofNat 1

/-- No digest is that id: the sample digest writes the upper half only. -/
theorem txHash_ne_mintId (tx : UtxoTx) : mintId ≠ tx.txHash := by
  intro h
  have hnat := congrArg Hash.toNat h
  have hone : mintId.toNat = 1 := rfl
  have hupper : ∃ x, tx.txHash = Hash.ofNat (x * 2 ^ 256) := ⟨_, rfl⟩
  obtain ⟨x, hx⟩ := hupper
  rw [hone, hx, Hash.ofNat] at hnat
  simp only [] at hnat
  omega

/-! ### A crowded queue -/

/-- The coins of the sample miner. -/
def spot (i : Nat) : OutPoint := ⟨mintId, UInt32.ofNat i⟩

/-- What each of them is worth. -/
def worth : TxOut := ⟨1101000, .payToAddress (Address.ofPubkey minerKey), 0⟩

/-- The first `n` of them. -/
def minted (n : Nat) : UtxoSet where
  entries := (List.range n).foldl (fun entries i => entries.insert (spot i) worth) ∅

theorem spot_inj {i j : Nat} (hi : i < 2 ^ 32) (hj : j < 2 ^ 32) (h : spot i = spot j) : i = j := by
  have hvout : (UInt32.ofNat i).toNat = (UInt32.ofNat j).toNat :=
    congrArg (fun op : OutPoint => op.vout.toNat) h
  simp only [UInt32.toNat_ofNat'] at hvout
  omega

theorem minted_holds {n i : Nat} (hi : i < n) : (minted n).Holds (spot i) worth := by
  have hfold : ∀ (xs : List Nat) (entries : ExtTreeMap OutPoint TxOut), i ∈ xs ∨
      entries[spot i]? = some worth →
      (xs.foldl (fun entries i => entries.insert (spot i) worth) entries)[spot i]? = some worth := by
    intro xs
    induction xs with
    | nil => exact fun _ h => h.resolve_left List.not_mem_nil
    | cons x xs ih =>
        intro entries h
        refine ih _ ?_
        by_cases hx : spot x = spot i
        · refine Or.inr ?_
          simp only [hx, ExtTreeMap.getElem?_insert_self]
        · rcases h with h | h
          · refine Or.inl ((List.mem_cons.mp h).resolve_left fun heq => hx (heq ▸ rfl))
          · refine Or.inr ?_
            rw [ExtTreeMap.getElem?_insert, if_neg (by simpa [Std.LawfulEqCmp.compare_eq_iff_eq] using hx), h]
  exact ⟨hfold _ _ (Or.inl (List.mem_range.mpr hi)), by simp [minted]⟩

/-- A node with 67 coins and an empty queue. -/
def start : Mempool where
  chain := ChainState.seeded false false { utxo := minted 67 }

/-- A small spend of the first coin, which pays the least it can. -/
def low : UtxoTx := coinSpend (spot 0) 0 0 1093596 7404

/-- Large spends of the other coins, one each. -/
def filler (i : Nat) : UtxoTx := coinSpend (spot (i + 1)) (i + 1) 500596 1000 1100000

/-- A larger spend of the first coin, which pays more. -/
def high : UtxoTx := coinSpend (spot 0) 1000 30000 1021000 80000

/-- The queue with the small spend and `n` large ones. -/
def crowd (n : Nat) : UtxoPool := low :: (List.range n).map filler

theorem sumBytes_fillers (n : Nat) : UtxoPool.sumBytes ((List.range n).map filler) = n * 508000 := by
  have hsize : UtxoTx.relayBytes ∘ filler = fun _ => 508000 := funext fun _ => relayBytes_coinSpend
  rw [UtxoPool.sumBytes, List.map_map, hsize, List.map_const', List.sum_replicate, List.length_range,
    smul_eq_mul]

theorem sumBytes_crowd (n : Nat) : UtxoPool.sumBytes (crowd n) = 7404 + n * 508000 := by
  have hlow : low.relayBytes = 7404 := relayBytes_coinSpend
  rw [crowd, UtxoPool.sumBytes, List.map_cons, List.sum_cons, hlow, ← sumBytes_fillers]
  rfl

/-- The queued ones are spends of sample coins. -/
theorem mem_crowd {n : Nat} {q : UtxoTx} (hq : q ∈ crowd n) :
    ∃ i ≤ n, ∃ size value fee, q = coinSpend (spot i) i size value fee := by
  rcases List.mem_cons.mp hq with rfl | hq
  · exact ⟨0, Nat.zero_le n, 0, 1093596, 7404, rfl⟩
  · obtain ⟨i, hi, rfl⟩ := List.mem_map.mp hq
    exact ⟨i + 1, List.mem_range.mp hi, 500596, 1000, 1100000, rfl⟩

/-- Spends of sample coins spend from no spend. -/
theorem spendsFrom_coinSpend (txs : List UtxoTx) (i : Nat) :
    UtxoPool.spendsFrom (txs.map UtxoTx.txHash) (coinSpend (spot i) tag size value fee) = false := by
  refine List.any_eq_false.mpr fun tin htin => ?_
  rw [List.contains_iff_mem]
  intro hmem
  obtain ⟨tx, -, hid⟩ := List.mem_map.mp hmem
  have hinputs : tin ∈ [(⟨spot i, 0, .signature⟩ : TxIn)] := htin
  rw [List.mem_singleton.mp hinputs] at hid
  exact txHash_ne_mintId tx hid.symm

theorem conflicts_coinSpend {i j : Nat} (hi : i < 2 ^ 32) (hj : j < 2 ^ 32) (hne : i ≠ j) :
    UtxoPool.conflicts (coinSpend (spot i) tag size value fee)
      (coinSpend (spot j) tag' size' value' fee') = false := by
  rw [← Bool.not_eq_true, UtxoPool.conflicts_eq_true]
  intro h
  obtain ⟨tin, htin, q, hq, heq⟩ := h
  have htin' : tin ∈ [(⟨spot i, 0, .signature⟩ : TxIn)] := htin
  have hq' : q ∈ [(⟨spot j, 0, .signature⟩ : TxIn)] := hq
  rw [List.mem_singleton.mp htin', List.mem_singleton.mp hq'] at heq
  exact hne (spot_inj hi hj heq.symm)

/-- The coin of a spend that the queue does not take stays in the preview. -/
theorem preview_spot {st : ChainState} {skip : List Nat} {i : Nat} (hi : i < 67)
    (hlive : st.live.utxo = minted 67)
    (hother : ∀ q ∈ UtxoPool.without st.utxoMempool skip, ∃ j < 67, j ≠ i ∧
      ∃ tag size value fee, q = coinSpend (spot j) tag size value fee) :
    (st.utxoMempoolPreview skip).1.Holds (spot i) worth := by
  refine ChainState.preview_holds (hlive ▸ minted_holds hi) fun q hq => ?_
  obtain ⟨j, hj, hne, tag, size, value, fee, rfl⟩ := hother q hq
  refine ⟨fun hin => ?_, txHash_ne_mintId _⟩
  have hin' : spot i ∈ [spot j] := hin
  exact hne (spot_inj (by omega) (by omega) (List.mem_singleton.mp hin')).symm

theorem spot_isCoinbase {i : Nat} (hi : i < 67) : (spot i).isCoinbase = false := by
  rw [OutPoint.isCoinbase, ← Bool.not_eq_true, beq_iff_eq]
  intro h
  have hnat := congrArg UInt32.toNat h
  have hlow : (spot i).vout.toNat = i % 2 ^ 32 := UInt32.toNat_ofNat'
  rw [hlow] at hnat
  have htop : (0xffffffff : UInt32).toNat = 4294967295 := rfl
  omega

/-- A spend of a coin that nobody in the queue spends is queued. -/
theorem admit_spot {m : Mempool} {i : Nat} (hchain : m.chain = { start.chain with utxoMempool := m.pool })
    (hi : i < 67) (htag : tag < 2 ^ 64)
    (hothers : ∀ q ∈ m.pool, ∃ j < 67, j ≠ i ∧ ∃ tag' < 2 ^ 64, tag' ≠ tag ∧
      ∃ size value fee, q = coinSpend (spot j) tag' size value fee)
    (hdust : utxoDust ≤ value) (hfee : 7404 + size ≤ fee) (hworth : value + fee = 1101000)
    (hsize : 7404 + size ≤ maxUtxoPackageBytes)
    (hbytes : UtxoPool.sumBytes m.pool + (7404 + size) ≤ maxMempoolBytes)
    (hcount : m.pool.length < maxMempoolSize) :
    Mempool.admitUtxoToMempool env (coinSpend (spot i) tag size value fee) m
      = (m.queued env (coinSpend (spot i) tag size value fee), .ok ()) := by
  have hunrelated : Unrelated m.pool (coinSpend (spot i) tag size value fee) := by
    refine ⟨fun q hq => ?_, fun q hq => ?_, fun q hq => spendsFrom_coinSpend [q] i⟩
    · obtain ⟨j, hj, hne, tag', htag', hne', size', value', fee', rfl⟩ := hothers q hq
      exact coinSpend_txid_ne htag' htag hne'
    · obtain ⟨j, hj, hne, tag', htag', hne', size', value', fee', rfl⟩ := hothers q hq
      exact conflicts_coinSpend (by omega) (by omega) hne.symm
  have hlive : m.chain.live.utxo = minted 67 := by rw [hchain]; rfl
  have hmempool : m.chain.utxoMempool = m.pool := rfl
  have hheld := @preview_spot m.chain [] i hi hlive fun q hq => by
    rw [hmempool, UtxoPool.without_nil] at hq
    obtain ⟨j, hj, hne, tag', -, -, size', value', fee', rfl⟩ := hothers q hq
    exact ⟨j, hj, hne, tag', size', value', fee', rfl⟩
  rw [worth, ← hworth] at hheld
  have hsum : value + fee ≤ u128Max := by
    rw [hworth]
    decide
  obtain ⟨s, happlies⟩ := @coinSpend_applies (spot i) tag size value fee _ (m.chain.utxoMempoolPreview []).2
    m.chain.selectedTipBlueScore _ hheld (fun h => by rw [spot_isCoinbase hi] at h; cases h) hdust hfee hsum
  refine Mempool.admit_unrelated env (coinSpend_submittable ?_ hdust hfee hsize) hunrelated happlies ?_ hcount
  · rw [hchain]
    rfl
  · rw [relayBytes_coinSpend]
    exact hbytes

/-- The node after the first `n + 1` submissions. -/
theorem run_crowd {n : Nat} (hn : n ≤ 66) : ∃ calls : List Mempool.Call,
    (start.run calls).pool = crowd n ∧
      (start.run calls).chain = { start.chain with utxoMempool := crowd n } := by
  have hbudget : maxMempoolBytes = 33554432 := rfl
  have hlimit : maxUtxoPackageBytes = 524288 := rfl
  have hplaces : maxMempoolSize = 10000 := rfl
  have hdust : utxoDust = 546 := rfl
  have hstep : ∀ {calls : List Mempool.Call} {tx : UtxoTx},
      (start.run calls).chain = { start.chain with utxoMempool := (start.run calls).pool } →
      Mempool.admitUtxoToMempool env tx (start.run calls) = ((start.run calls).queued env tx, .ok ()) →
      (start.run (calls ++ [.submit env tx])).pool = (start.run calls).pool ++ [tx] ∧
      (start.run (calls ++ [.submit env tx])).chain
        = { start.chain with utxoMempool := (start.run calls).pool ++ [tx] } := by
    intro calls tx hchain hqueued
    have hrun : start.run (calls ++ [.submit env tx]) = (start.run calls).queued env tx := by
      rw [Mempool.run_concat, Mempool.step, hqueued]
    rw [hrun, Mempool.queued_pool, Mempool.queued_chain, hchain]
    exact ⟨rfl, rfl⟩
  induction n with
  | zero =>
      have hqueued : Mempool.admitUtxoToMempool env (coinSpend (spot 0) 0 0 1093596 7404) start
          = (start.queued env (coinSpend (spot 0) 0 0 1093596 7404), .ok ()) :=
        admit_spot rfl (by omega) (by omega) (fun q hq => by cases hq) (by omega) (by omega) (by omega) (by omega)
          (by change 0 + _ ≤ _; omega) (by change 0 < _; omega)
      exact ⟨[.submit env low], @hstep [] _ rfl hqueued⟩
  | succ n ih =>
      obtain ⟨calls, hpool, hchain⟩ := ih (by omega)
      have hqueued : Mempool.admitUtxoToMempool env (coinSpend (spot (n + 1)) (n + 1) 500596 1000 1100000)
          (start.run calls)
          = ((start.run calls).queued env (coinSpend (spot (n + 1)) (n + 1) 500596 1000 1100000), .ok ()) := by
        refine admit_spot (hpool ▸ hchain) (by omega) (by omega) (fun q hq => ?_) (by omega) (by omega) (by omega)
          (by omega) ?_ ?_
        · obtain ⟨j, hj, size, value, fee, rfl⟩ := mem_crowd (hpool ▸ hq)
          exact ⟨j, by omega, by omega, j, by omega, by omega, size, value, fee, rfl⟩
        · rw [hpool, sumBytes_crowd]
          omega
        · rw [hpool, crowd, List.length_cons, List.length_map, List.length_range]
          omega
      have hnext : crowd (n + 1) = (start.run calls).pool ++ [filler n] := by
        rw [hpool, crowd, crowd, List.range_succ, List.map_append]
        rfl
      rw [hnext]
      exact ⟨calls ++ [.submit env (filler n)], hstep (hpool ▸ hchain) hqueued⟩

/-! ### A replacement refused for its size -/

/-- The higher bid conflicts with the small spend alone. -/
theorem high_conflictIdxs {n : Nat} (hn : n ≤ 66) : UtxoPool.conflictIdxs (crowd n) high = [0] := by
  have hspends : ∀ txs : List UtxoTx, ∀ q ∈ crowd n,
      UtxoPool.spendsFrom (txs.map UtxoTx.txHash) q = false := by
    intro txs q hq
    obtain ⟨i, -, size, value, fee, rfl⟩ := mem_crowd hq
    exact spendsFrom_coinSpend txs i
  rw [conflictIdxs_eq hspends]
  refine List.perm_singleton.mp ((List.perm_ext_iff_of_nodup (UtxoPool.nodup_indicesOf _ _)
    (List.nodup_singleton 0)).mpr fun i => ?_)
  rw [UtxoPool.mem_indicesOf, List.mem_singleton]
  constructor
  · intro h
    obtain ⟨q, hq, hconflict⟩ := h
    by_contra hne
    obtain ⟨j, rfl⟩ := Nat.exists_eq_succ_of_ne_zero hne
    rw [crowd, List.getElem?_cons_succ, List.getElem?_map, Option.map_eq_some_iff] at hq
    obtain ⟨k, hk, rfl⟩ := hq
    have hlt := List.mem_range.mp (List.mem_of_getElem? hk)
    rw [high, filler, conflicts_coinSpend (by omega) (by omega) (by omega)] at hconflict
    cases hconflict
  · intro h
    refine ⟨low, by rw [h]; rfl, UtxoPool.conflicts_eq_true.mpr ⟨⟨spot 0, 0, .signature⟩, ?_,
      ⟨spot 0, 0, .signature⟩, ?_, rfl⟩⟩
    · exact List.mem_singleton_self _
    · exact List.mem_singleton_self _

/-- Who stays when the small spend leaves. -/
theorem crowd_without {n : Nat} : UtxoPool.without (crowd n) [0] = (List.range n).map filler := by
  have hzip : (crowd n).zipIdx = (low, 0) :: ((List.range n).map filler).zipIdx 1 := rfl
  rw [UtxoPool.without, hzip, List.filter_cons_of_neg (by simp), List.filter_eq_self.mpr fun x hx => ?_,
    List.zipIdx_map_fst]
  have hle := (List.mem_zipIdx hx).1
  simp only [List.contains_cons, List.contains_nil, Bool.or_false, Bool.not_eq_true', beq_eq_false_iff_ne]
  omega

/-- The higher bid passes every test. -/
theorem high_vetUtxo {n : Nat} (hn : n ≤ 66) {st : ChainState}
    (hst : st = { start.chain with utxoMempool := crowd n }) : st.vetUtxo high = .ok ⟨[0], 2⟩ := by
  have hdust : utxoDust = 546 := rfl
  have hpool : st.utxoMempool = crowd n := by rw [hst]
  have hchain : st.chainId = chainId := by rw [hst]; rfl
  have hlive : st.live.utxo = minted 67 := by rw [hst]; rfl
  have hrate : soleRate high = 2 := by
    have hsize : high.relayBytes = 37404 := relayBytes_coinSpend
    rw [soleRate, hsize]
    decide
  have hheld := @preview_spot st [0] 0 (by omega) hlive fun q hq => by
    rw [hpool, crowd_without] at hq
    obtain ⟨j, hj, rfl⟩ := List.mem_map.mp hq
    have hlt := List.mem_range.mp hj
    exact ⟨j + 1, by omega, by omega, j + 1, 500596, 1000, 1100000, rfl⟩
  obtain ⟨s, happlies⟩ := @coinSpend_applies (spot 0) 1000 30000 1021000 80000 _ (st.utxoMempoolPreview [0]).2
    st.selectedTipBlueScore _ hheld (fun h => by rw [spot_isCoinbase (by omega)] at h; cases h) (by omega) (by omega)
    (by decide)
  rw [← hrate]
  refine vetUtxo_orphan (coinSpend_submittable hchain (by omega) (by omega) (by decide)) ?_ ?_
    (hpool ▸ high_conflictIdxs hn) happlies ?_
  · rw [hpool]
    intro q hq
    obtain ⟨i, hi, size, value, fee, rfl⟩ := mem_crowd hq
    exact coinSpend_txid_ne (by omega) (by omega) (by omega)
  · exact fun q _ => spendsFrom_coinSpend [q] 0
  · have hlow : UtxoPool.pick (crowd n) [0] = [low] := rfl
    have hsize : low.relayBytes = 7404 := relayBytes_coinSpend
    rw [hpool, UtxoPool.outbids, hlow, UtxoPool.sumFees, UtxoPool.sumRated, relayBytes_coinSpend]
    simp only [List.map_cons, List.map_nil, hsize, List.foldl_cons, List.foldl_nil]
    decide

/-- No large spend has a queued parent, and each pays the rate of the higher bid. -/
theorem filler_packageRate {n i : Nat} (hi : i < n) :
    UtxoPool.packageRate ((List.range n).map filler) i = 2 := by
  have hget : ((List.range n).map filler)[i]? = some (filler i) := by
    rw [List.getElem?_map, List.getElem?_range hi]
    rfl
  have hleaf : UtxoPool.parentsAt ((List.range n).map filler) [] i = [] := by
    have hnone : ∀ q ∈ (List.range n).map filler, UtxoPool.spendsFrom [q.txHash] (filler i) = false :=
      fun q _ => spendsFrom_coinSpend [q] (i + 1)
    rw [UtxoPool.parentsAt, hget]
    change UtxoPool.directParents _ (filler i) [] = []
    rw [UtxoPool.directParents, indicesOf_eq_nil hnone, List.filter_nil]
  have hpick : UtxoPool.pick ((List.range n).map filler) [i] = [filler i] := by
    rw [UtxoPool.pick, List.filterMap_cons, hget]
    rfl
  have hsize : (filler i).relayBytes = 508000 := relayBytes_coinSpend
  have hfee : (filler i).fee = 1100000 := rfl
  rw [UtxoPool.packageRate, UtxoPool.ancestorPackageScore, Worklist.walk_leaf hleaf (by decide), hpick,
    UtxoPool.sumFees, UtxoPool.sumRated]
  simp only [List.map_cons, List.map_nil, List.foldl_cons, List.foldl_nil, hsize, hfee]
  decide

/-- The large spends leave no room for the higher bid. -/
theorem high_tooBig {m : Mempool} (hpool : m.pool = (List.range 66).map filler) : m.TooBig high 2 := by
  have hall : UtxoPool.payers ((List.range 66).map filler) 2 = List.range 66 := by
    rw [UtxoPool.payers, List.length_map, List.length_range]
    refine List.filter_eq_self.mpr fun i hi => ?_
    rw [filler_packageRate (List.mem_range.mp hi)]
    rfl
  have hsum := sumBytes_fillers 66
  rw [UtxoPool.sumBytes_eq, List.length_map, List.length_range] at hsum
  have hsize : high.relayBytes = 37404 := relayBytes_coinSpend
  have hbudget : maxMempoolBytes = 33554432 := rfl
  rw [Mempool.TooBig, hpool, hall, UtxoPool.sumBytes_pick, hsum, hsize, hbudget]
  omega

/-- **A refused bid takes a queued spend away**: on a node reached by submissions
alone, a valid spend that outbids another one is refused for the byte budget, and the
other one is gone. -/
theorem refused_for_size : ∃ (calls : List Mempool.Call) (e : String),
    (start.run calls).pool = crowd 66 ∧
    (Mempool.admitUtxoToMempool env high (start.run calls)).2 = .error e ∧
    (Mempool.admitUtxoToMempool env high (start.run calls)).1.pool = (List.range 66).map filler := by
  obtain ⟨calls, hpool, hchain⟩ := run_crowd (le_refl 66)
  refine ⟨calls, "UTXO mempool byte budget exceeded", hpool, ?_⟩
  have hvet := high_vetUtxo (le_refl 66) hchain
  have hkept : ((start.run calls).removeAll [0]).pool = (List.range 66).map filler := by
    rw [Mempool.removeAll_pool (List.nodup_singleton 0), hpool, crowd_without]
    intro i hi
    rw [List.mem_singleton.mp hi, hpool, crowd]
    exact Nat.succ_pos _
  rcases (start.run calls).admit_cases env high with ⟨e, herror, -⟩ | ⟨vetted, hok, hend⟩
  · rw [hvet] at herror
    cases herror
  · obtain rfl := Except.ok.inj (hvet.symm.trans hok)
    rcases hend with ⟨-, hrun⟩ | ⟨hroom, -⟩
    · rw [hrun]
      exact ⟨rfl, hkept⟩
    · exact absurd (high_tooBig hkept) hroom

/-- So a refusal does not leave the queue alone. -/
theorem refused_changes_queue : ¬ ∀ (env : Env) (tx : UtxoTx) (m : Mempool) (e : String),
    (Mempool.admitUtxoToMempool env tx m).2 = .error e →
      m.SameQueue (Mempool.admitUtxoToMempool env tx m).1 := by
  intro hall
  obtain ⟨calls, e, hpool, herror, hafter⟩ := refused_for_size
  have hsame := congrArg List.length (hall env high (start.run calls) e herror).utxoMempool
  change List.length (Mempool.pool _) = List.length (Mempool.pool _) at hsame
  rw [hpool, hafter, crowd, List.length_cons] at hsame
  omega

end Sample

end HassanNode
