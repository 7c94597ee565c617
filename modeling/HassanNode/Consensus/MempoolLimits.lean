import Mathlib
import HassanNode.Ledger.Ids
import HassanNode.Ledger.Moves
import HassanNode.Consensus.Values
import HassanNode.Consensus.Submissions

/-!
# HassanNode.Consensus.MempoolLimits

The limits of the queue, over any sequence of submissions on one chain state.

Inputs and ids stay apart, and the two sizes stay within their bounds, whatever the
chain state is. An ancestor package is measured when its last member is admitted, and
it stays within its bounds because it cannot grow afterwards: parents are named by
`tx_hash`, so a parent that leaves and comes back is the one that was measured
(`Measured`). That rests on one thing the call does not test, that the live set knows
no output of a spend that can still be admitted (`Sourced`). It is so on an archival
node whose blocks mint different coins (`archival_sourced`). Where a coin is minted
twice a parent can come after its child (`Sample.parent_after_child`).
-/

namespace HassanNode

open Std (ExtTreeMap ExtTreeSet)
open Params Bincode

/-! ### Packages -/

/-- A list whose entries, told apart by a key, all have an entry of another list with
the same key and weight is no longer and no heavier. -/
theorem length_sum_le_of_keys {α κ : Type} {key : α → κ} {weight : α → Nat} {xs ys : List α}
    (hnodup : (xs.map key).Nodup)
    (h : ∀ x ∈ xs, ∃ y ∈ ys, key y = key x ∧ weight y = weight x) :
    xs.length ≤ ys.length ∧ (xs.map weight).sum ≤ (ys.map weight).sum := by
  induction xs generalizing ys with
  | nil => exact ⟨Nat.zero_le _, Nat.zero_le _⟩
  | cons x xs ih =>
      obtain ⟨y, hy, hkey, hweight⟩ := h x List.mem_cons_self
      obtain ⟨front, back, rfl⟩ := List.append_of_mem hy
      rw [List.map_cons, List.nodup_cons] at hnodup
      have hothers : ∀ z ∈ xs, ∃ w ∈ front ++ back, key w = key z ∧ weight w = weight z := by
        intro z hz
        obtain ⟨w, hw, hkey', hweight'⟩ := h z (List.mem_cons_of_mem x hz)
        refine ⟨w, ?_, hkey', hweight'⟩
        have hne : w ≠ y := by
          intro heq
          refine hnodup.1 (List.mem_map.mpr ⟨z, hz, ?_⟩)
          rw [← hkey', heq, hkey]
        simp only [List.mem_append, List.mem_cons] at hw ⊢
        tauto
      have hrest := ih hnodup.2 hothers
      simp only [List.length_append, List.length_cons, List.map_append, List.map_cons, List.sum_append,
        List.sum_cons] at hrest ⊢
      omega

namespace UtxoPool

section Packages

variable [Crypto]

/-- A queued spend takes an output of another one. -/
def ParentIn (pool : UtxoPool) (child parent : UtxoTx) : Prop :=
  parent ∈ pool ∧ ∃ tin ∈ child.inputs, tin.previous.txid = parent.txHash

open Classical in
/-- A queued spend with its transitive queued parents. -/
noncomputable def package (pool : UtxoPool) (tx : UtxoTx) : List UtxoTx :=
  pool.filter fun t => decide (Relation.ReflTransGen pool.ParentIn tx t)

/-- Inputs and ids are apart, and the queue is within its two limits. -/
structure Within (pool : UtxoPool) : Prop where
  inputs : pool.Pairwise fun a b => ∀ i ∈ a.inputs, ∀ j ∈ b.inputs, i.previous ≠ j.previous
  txids : (pool.map UtxoTx.txid).Nodup
  count : pool.length ≤ maxMempoolSize
  bytes : sumBytes pool ≤ maxMempoolBytes

/-- Every ancestor package is within its two limits. -/
structure PackagesWithin (pool : UtxoPool) : Prop where
  count : ∀ tx ∈ pool, (pool.package tx).length ≤ maxUtxoPackageCount
  bytes : ∀ tx ∈ pool, sumBytes (pool.package tx) ≤ maxUtxoPackageBytes

theorem Within.sublist {pool pool' : UtxoPool} (h : pool.Within) (hsub : pool'.Sublist pool) :
    pool'.Within where
  inputs := h.inputs.sublist hsub
  txids := h.txids.sublist (hsub.map _)
  count := hsub.length_le.trans h.count
  bytes := (sumBytes_sublist hsub).trans h.bytes

end Packages

end UtxoPool

/-! ### What a digest tells of a spend -/

section Digest

variable [Crypto] {tx tx' : UtxoTx}

/-- A spend with its form and its signature in order. -/
structure WellSigned (tx : UtxoTx) : Prop where
  form : tx.validateForm = .ok ()
  verify : tx.verify = true

theorem WellSigned.lengths (h : WellSigned tx) :
    tx.fromPubkey.length = pqPublicKeySize ∧ tx.signature.length = pqSignatureSize := by
  have hverify := h.verify
  rw [UtxoTx.verify, verifyPq512, verifySignature, Bool.and_eq_true, Bool.and_eq_true, beq_iff_eq,
    beq_iff_eq] at hverify
  exact hverify.1

/-- The size of a spend is that of its hashed bytes and of what they leave out. -/
theorem WellSigned.relayBytes (h : WellSigned tx) :
    tx.relayBytes = tx.hashBytes.length + 8 * tx.outputs.length + 2616 := by
  obtain ⟨hkey, hsig⟩ := h.lengths
  have hin : ∀ inputs : List TxIn, (inputs.map fun i => (encode i).length).sum
      = (inputs.flatMap UtxoTx.inputSigningBytes).length
        + (inputs.flatMap fun i => encode i.witness).length := by
    intro inputs
    induction inputs with
    | nil => rfl
    | cons i inputs ih =>
        have hone : (encode i).length = (UtxoTx.inputSigningBytes i).length + (encode i.witness).length := by
          change ((i.previous.txid.asBytes ++ u32 i.previous.vout.toNat) ++ u32 i.relativeLockBlues.toNat
            ++ encode i.witness).length = _
          rw [List.length_append, UtxoTx.inputSigningBytes]
        rw [List.map_cons, List.sum_cons, ih, hone, List.flatMap_cons, List.flatMap_cons, List.length_append,
          List.length_append]
        omega
  have hout : ∀ outputs : List TxOut, (outputs.map fun o => (encode o).length).sum
      = (outputs.flatMap fun o => u128 o.value ++ encode o.predicate).length + 8 * outputs.length := by
    intro outputs
    induction outputs with
    | nil => rfl
    | cons o outputs ih =>
        have hone : (encode o).length = (u128 o.value ++ encode o.predicate).length + 8 := by
          change (u128 o.value ++ encode o.predicate ++ u64 o.createdBlue).length = _
          rw [List.length_append, length_u64]
        rw [List.map_cons, List.sum_cons, ih, hone, List.flatMap_cons]
        simp only [List.length_append, List.length_cons]
        omega
  rw [UtxoTx.relayBytes, if_neg (not_not.mpr hsig)]
  change (encode tx.inputs ++ encode tx.outputs ++ u64 tx.lockBlueScore ++ u128 tx.fee ++ u64 tx.chainId
    ++ Bincode.bytes tx.fromPubkey ++ Bincode.bytes tx.signature).length = _
  rw [UtxoTx.hashBytes, UtxoTx.signingBytes]
  simp only [List.length_append, length_encode_list, length_u64, length_u32, length_u128, length_bytes,
    hkey, hsig, hin, hout, pqPublicKeySize, pqSignatureSize]
  omega

/-- Equal hashed bytes: the same inputs and the same size. -/
theorem WellSigned.same_size (h : WellSigned tx) (h' : WellSigned tx')
    (heq : tx.hashBytes = tx'.hashBytes) : tx.relayBytes = tx'.relayBytes := by
  obtain ⟨-, hout, hin, -⟩ := UtxoTx.validateForm_ok h.form
  obtain ⟨-, hout', hin', -⟩ := UtxoTx.validateForm_ok h'.form
  have hbytes := heq
  simp only [UtxoTx.hashBytes, UtxoTx.signingBytes, List.append_assoc] at heq
  obtain ⟨-, heq⟩ := List.append_inj heq (by simp)
  obtain ⟨-, heq⟩ := List.append_inj heq (by simp)
  obtain ⟨-, heq⟩ := List.append_inj heq (by simp)
  obtain ⟨hcount, heq⟩ := List.append_inj heq (by simp)
  have hcount := Bytes.ofNatLE_inj (by omega) (by omega) hcount
  obtain ⟨-, heq⟩ := Bytes.flatMap_append_inj UtxoTx.length_inputSigningBytes hcount heq
  obtain ⟨hcount', -⟩ := List.append_inj heq (by simp)
  have hcount' := Bytes.ofNatLE_inj (by omega) (by omega) hcount'
  rw [h.relayBytes, h'.relayBytes, hbytes, hcount']

theorem WellSigned.same_inputs (h : WellSigned tx) (h' : WellSigned tx')
    (heq : tx.hashBytes = tx'.hashBytes) : tx.inputs.map (·.previous) = tx'.inputs.map (·.previous) :=
  UtxoTx.inputs_eq_of_hashBytes (UtxoTx.validateForm_ok h.form).2.2.1 (UtxoTx.validateForm_ok h'.form).2.2.1 heq

end Digest

/-! ### Where the preview comes from -/

section Sources

variable [Crypto]

/-- The set and these spends fit together: a well-formed spend whose outputs the set
has seen has its inputs marked spent. -/
def Sourced (submitted : List UtxoTx) (u : UtxoSet) : Prop :=
  ∀ tx ∈ submitted, tx.validateForm = .ok () → u.Known tx.txHash → ∀ tin ∈ tx.inputs, tin.previous ∈ u.spent

/-- How a set comes from the live one by some spends: they move it, and they take what
is live or created by them. -/
structure Sources (live : UtxoSet) (applied : List UtxoTx) (u : UtxoSet) : Prop where
  moves : live.Moves (fun op => ∃ t ∈ applied, t.Takes op) (fun op => ∃ t ∈ applied, op ∈ t.created) u
  inputs : ∀ t ∈ applied, ∀ tin ∈ t.inputs,
    tin.previous ∈ live.entries ∨ ∃ p ∈ applied, tin.previous.txid = p.txHash

variable {live u : UtxoSet} {applied : List UtxoTx} {tx : UtxoTx}

theorem Sources.entries (h : Sources live applied u) {op : OutPoint} (hop : op ∈ u.entries) :
    op ∈ live.entries ∨ ∃ t ∈ applied, op.txid = t.txHash := by
  refine (h.moves.entries_of op hop).imp id fun hnew => ?_
  obtain ⟨t, ht, hcreated⟩ := hnew
  exact ⟨t, ht, UtxoTx.txid_of_mem_created hcreated⟩

theorem Sources.spent (h : Sources live applied u) {op : OutPoint} (hop : op ∈ live.spent) :
    op ∈ u.spent ∨ ∃ t ∈ applied, op.txid = t.txHash := by
  refine (h.moves.spent_keep op hop).imp id fun hnew => ?_
  obtain ⟨⟨t, ht, hcreated⟩, -⟩ := hnew
  exact ⟨t, ht, UtxoTx.txid_of_mem_created hcreated⟩

theorem Sources.apply (h : Sources live applied u) {accounts : Accounts} {mediaBlue fee : Nat}
    {s : UtxoSet × Accounts} (happly : applyUtxoTx u accounts tx mediaBlue = (s, .ok fee)) :
    Sources live (tx :: applied) s.1 := by
  have hmore : ∀ {p : UtxoTx → Prop}, (∃ t ∈ applied, p t) → ∃ t ∈ tx :: applied, p t := by
    intro p hsome
    obtain ⟨t, ht, hp⟩ := hsome
    exact ⟨t, List.mem_cons_of_mem tx ht, hp⟩
  have hstep := applied_moves happly
  refine ⟨(h.moves.mono (fun _ => hmore) fun _ => hmore).trans
    (hstep.mono (fun _ hop => ⟨tx, List.mem_cons_self, hop⟩) fun _ hop => ⟨tx, List.mem_cons_self, hop⟩),
    fun t ht tin htin => ?_⟩
  rcases List.mem_cons.mp ht with rfl | ht
  · exact (h.entries (applied_inputs happly tin htin).1).imp id hmore
  · exact (h.inputs t ht tin htin).imp id hmore

/-- The preview comes from the live set by some of the queued spends. -/
theorem preview_sources (st : ChainState) (skip : List Nat) :
    ∃ applied, (∀ t ∈ applied, t ∈ UtxoPool.without st.utxoMempool skip) ∧
      Sources st.live.utxo applied (st.utxoMempoolPreview skip).1 := by
  refine ChainState.preview_induction (P := fun s => ∃ applied,
    (∀ t ∈ applied, t ∈ UtxoPool.without st.utxoMempool skip) ∧ Sources st.live.utxo applied s.1) ?_ ?_
  · intro tx htx s s' fee hs happly
    obtain ⟨applied, hsub, hsources⟩ := hs
    exact ⟨tx :: applied, List.forall_mem_cons.mpr ⟨htx, hsub⟩, hsources.apply happly⟩
  · exact ⟨[], by simp, .refl _, by simp⟩

/-- A spend that applies to such a set is new to the live one, if the spends before it
are. -/
theorem Sources.fresh (h : Sources live applied u) (hnew : ∀ t ∈ applied, ¬ live.Known t.txHash)
    (hsourced : live.Known tx.txHash → ∀ tin ∈ tx.inputs, tin.previous ∈ live.spent)
    (hform : tx.validateForm = .ok ()) {accounts : Accounts} {mediaBlue fee : Nat}
    {s : UtxoSet × Accounts} (happly : applyUtxoTx u accounts tx mediaBlue = (s, .ok fee)) :
    ¬ live.Known tx.txHash := by
  intro hknown
  obtain ⟨tin, htin⟩ := List.exists_mem_of_ne_nil _ (UtxoTx.validateForm_ok hform).1
  have hspent := hsourced hknown tin htin
  rcases h.spent hspent with hmarked | ⟨t, ht, hname⟩
  · exact (applied_inputs happly tin htin).2 hmarked
  · exact hnew t ht ⟨tin.previous, hname, Or.inr hspent⟩

end Sources

/-! ### Measured packages -/

section Measured

variable [Crypto] {submitted : List UtxoTx} {live : UtxoSet} {pool : UtxoPool} {tx : UtxoTx}

/-- `tx_hash` tells these spends apart. -/
def HashApart (submitted : List UtxoTx) : Prop :=
  ∀ tx ∈ submitted, ∀ tx' ∈ submitted, tx.txHash = tx'.txHash → tx.hashBytes = tx'.hashBytes

/-- A list within both bounds that has the spend and, for each of its members, every
parent that may ever be queued. -/
structure MeasuredBy (submitted : List UtxoTx) (live : UtxoSet) (tx : UtxoTx) (package : List UtxoTx) :
    Prop where
  self : tx ∈ package
  among : ∀ a ∈ package, a ∈ submitted
  signed : ∀ a ∈ package, WellSigned a
  parents : ∀ a ∈ package, ∀ b ∈ submitted, ¬ live.Known b.txHash →
    (∃ tin ∈ a.inputs, tin.previous.txid = b.txHash) → ∃ c ∈ package, c.txHash = b.txHash
  count : package.length ≤ maxUtxoPackageCount
  bytes : UtxoPool.sumBytes package ≤ maxUtxoPackageBytes

/-- What a queued spend has shown, for good. -/
structure Measured (submitted : List UtxoTx) (live : UtxoSet) (tx : UtxoTx) : Prop where
  among : tx ∈ submitted
  signed : WellSigned tx
  fresh : ¬ live.Known tx.txHash
  package : ∃ package, MeasuredBy submitted live tx package

/-- Spends of one digest take the same outpoints. -/
theorem HashApart.inputs (hapart : HashApart submitted) {a b : UtxoTx} (ha : a ∈ submitted)
    (hb : b ∈ submitted) (hsa : WellSigned a) (hsb : WellSigned b) (h : a.txHash = b.txHash) {txid : Hash} :
    (∃ tin ∈ a.inputs, tin.previous.txid = txid) → ∃ tin ∈ b.inputs, tin.previous.txid = txid := by
  intro hsome
  obtain ⟨tin, htin, hid⟩ := hsome
  have hsame := hsa.same_inputs hsb (hapart a ha b hb h)
  have hmem : tin.previous ∈ b.inputs.map (·.previous) := hsame ▸ List.mem_map_of_mem htin
  obtain ⟨tin', htin', heq⟩ := List.mem_map.mp hmem
  exact ⟨tin', htin', heq ▸ hid⟩

/-- **A submission that passes the tests is measured**: its ancestor walk was complete,
and had every parent that can come later. -/
theorem Measured.of_vetted {st : ChainState} {vetted : VettedUtxo}
    (hapart : HashApart submitted) (hsourced : Sourced submitted st.live.utxo) (htx : tx ∈ submitted)
    (hpool : ∀ t ∈ st.utxoMempool, Measured submitted st.live.utxo t) (h : st.Vetted tx vetted) :
    Measured submitted st.live.utxo tx := by
  have hsigned : WellSigned tx := ⟨h.form, h.verify⟩
  obtain ⟨applied, happlied, hsources⟩ := preview_sources st vetted.conflictIdxs
  have hqueued : ∀ t ∈ applied, t ∈ st.utxoMempool := fun t ht =>
    (UtxoPool.without_sublist _ _).subset (happlied t ht)
  obtain ⟨s, fee, happly⟩ := h.applies
  have hfresh := hsources.fresh (fun t ht => (hpool t (hqueued t ht)).fresh) (hsourced tx htx h.form) h.form happly
  -- an output of a spend that is new to the live set comes from the preview
  have hnamed : ∀ {op : OutPoint} {txid : Hash}, op.txid = txid → ¬ st.live.utxo.Known txid →
      (op ∈ st.live.utxo.entries ∨ ∃ p ∈ applied, op.txid = p.txHash) → ∃ p ∈ applied, p.txHash = txid := by
    intro op txid hop hnew hfrom
    rcases hfrom with hlive | ⟨p, hp, hname⟩
    · exact absurd ⟨op, hop, Or.inl hlive⟩ hnew
    · exact ⟨p, hp, hname.symm.trans hop⟩
  have hparent : ∀ {txid : Hash}, ¬ st.live.utxo.Known txid → (∃ tin ∈ tx.inputs, tin.previous.txid = txid) →
      ∃ p ∈ applied, p.txHash = txid := by
    intro txid hnew hsome
    obtain ⟨tin, htin, hid⟩ := hsome
    exact hnamed hid hnew (hsources.entries (applied_inputs happly tin htin).1)
  have hgrand : ∀ {p : UtxoTx} {txid : Hash}, p ∈ applied → ¬ st.live.utxo.Known txid →
      (∃ tin ∈ p.inputs, tin.previous.txid = txid) → ∃ p' ∈ applied, p'.txHash = txid := by
    intro p txid hp hnew hsome
    obtain ⟨tin, htin, hid⟩ := hsome
    exact hnamed hid hnew (hsources.inputs p hp tin htin)
  have hsame : ∀ {p q : UtxoTx} {txid : Hash}, p ∈ applied → q ∈ st.utxoMempool → p.txHash = q.txHash →
      (∃ tin ∈ q.inputs, tin.previous.txid = txid) → ∃ tin ∈ p.inputs, tin.previous.txid = txid := by
    intro p q txid hp hq hid
    have hmp := hpool p (hqueued p hp)
    have hmq := hpool q hq
    exact hapart.inputs hmq.among hmp.among hmq.signed hmp.signed hid.symm
  have hcount : (UtxoPool.ancestorIdxs st.utxoMempool tx vetted.conflictIdxs).length < maxUtxoPackageCount :=
    h.packageCount
  obtain ⟨hdirect, hclosed⟩ := UtxoPool.ancestorIdxs_closed hcount
  -- whoever the walk finds was applied, or one of the same digest was
  have hwalked : ∀ i ∈ UtxoPool.ancestorIdxs st.utxoMempool tx vetted.conflictIdxs,
      ∃ q, st.utxoMempool[i]? = some q ∧ ∃ p ∈ applied, p.txHash = q.txHash := by
    refine Worklist.walk_induction (fun i j hi hj => ?_) fun i hi => ?_
    · obtain ⟨q, hq, p, hp, hid⟩ := hi
      obtain ⟨-, r, hr, hspends⟩ := UtxoPool.mem_directParents.mp ((UtxoPool.mem_parentsAt hq).mp hj)
      have hnew := (hpool r (List.mem_of_getElem? hr)).fresh
      exact ⟨r, hr, hgrand hp hnew (hsame hp (List.mem_of_getElem? hq) hid hspends)⟩
    · obtain ⟨-, q, hq, hspends⟩ := UtxoPool.mem_directParents.mp hi
      exact ⟨q, hq, hparent (hpool q (List.mem_of_getElem? hq)).fresh hspends⟩
  have hindex : ∀ p ∈ applied, ∃ k, k ∉ vetted.conflictIdxs ∧ st.utxoMempool[k]? = some p :=
    fun p hp => UtxoPool.mem_without.mp (happlied p hp)
  have hpicked : ∀ a ∈ UtxoPool.pick st.utxoMempool
      (UtxoPool.ancestorIdxs st.utxoMempool tx vetted.conflictIdxs), a ∈ st.utxoMempool := by
    intro a ha
    obtain ⟨i, -, hi⟩ := UtxoPool.mem_pick.mp ha
    exact List.mem_of_getElem? hi
  refine ⟨htx, hsigned, hfresh, tx :: UtxoPool.pick st.utxoMempool
    (UtxoPool.ancestorIdxs st.utxoMempool tx vetted.conflictIdxs), List.mem_cons_self, ?_, ?_, ?_, ?_, ?_⟩
  · exact List.forall_mem_cons.mpr ⟨htx, fun a ha => (hpool a (hpicked a ha)).among⟩
  · exact List.forall_mem_cons.mpr ⟨hsigned, fun a ha => (hpool a (hpicked a ha)).signed⟩
  · intro a ha b hb hnew hspends
    rcases List.mem_cons.mp ha with rfl | ha
    · obtain ⟨p, hp, hid⟩ := hparent hnew hspends
      obtain ⟨k, hskip, hk⟩ := hindex p hp
      have hmem : k ∈ UtxoPool.directParents st.utxoMempool a vetted.conflictIdxs :=
        UtxoPool.mem_directParents.mpr ⟨hskip, p, hk, hid ▸ hspends⟩
      exact ⟨p, List.mem_cons_of_mem a (UtxoPool.mem_pick.mpr ⟨k, hdirect hmem, hk⟩), hid⟩
    · obtain ⟨i, hi, ha⟩ := UtxoPool.mem_pick.mp ha
      obtain ⟨q, hq, p, hp, hid⟩ := hwalked i hi
      obtain rfl := Option.some.inj (ha.symm.trans hq)
      obtain ⟨p', hp', hid'⟩ := hgrand hp hnew (hsame hp (List.mem_of_getElem? ha) hid hspends)
      obtain ⟨k, hskip, hk⟩ := hindex p' hp'
      have hmem : k ∈ UtxoPool.parentsAt st.utxoMempool vetted.conflictIdxs i :=
        (UtxoPool.mem_parentsAt ha).mpr (UtxoPool.mem_directParents.mpr ⟨hskip, p', hk, hid' ▸ hspends⟩)
      exact ⟨p', List.mem_cons_of_mem tx (UtxoPool.mem_pick.mpr ⟨k, hclosed i hi hmem, hk⟩), hid'⟩
  · have hle : (UtxoPool.pick st.utxoMempool (UtxoPool.ancestorIdxs st.utxoMempool tx
        vetted.conflictIdxs)).length ≤ _ := List.length_filterMap_le _ _
    rw [List.length_cons]
    exact (Nat.succ_le_succ hle).trans h.packageCount
  · have hbytes := h.packageBytes
    rw [Nat.add_comm] at hbytes
    exact hbytes

/-- The queued spends have different hashes: they take different outpoints. -/
theorem nodup_txHash (hapart : HashApart submitted) (hwithin : pool.Within)
    (h : ∀ t ∈ pool, Measured submitted live t) : (pool.map UtxoTx.txHash).Nodup := by
  rw [List.Nodup, List.pairwise_map]
  refine hwithin.inputs.imp_of_mem fun {a b} ha hb hdisjoint heq => ?_
  have hma := h a ha
  have hmb := h b hb
  obtain ⟨tin, htin⟩ := List.exists_mem_of_ne_nil _ (UtxoTx.validateForm_ok hma.signed.form).1
  have hsame := hma.signed.same_inputs hmb.signed (hapart a hma.among b hmb.among heq)
  have hmem : tin.previous ∈ b.inputs.map (·.previous) := hsame ▸ List.mem_map_of_mem htin
  obtain ⟨tin', htin', hprevious⟩ := List.mem_map.mp hmem
  exact hdisjoint tin htin tin' htin' hprevious.symm

/-- Who is in the package of a measured spend is in the measured list, under its
hash. -/
theorem MeasuredBy.of_mem_package (hapart : HashApart submitted) (h : ∀ t ∈ pool, Measured submitted live t)
    (htx : tx ∈ pool) {package : List UtxoTx} (hby : MeasuredBy submitted live tx package) {t : UtxoTx}
    (ht : t ∈ pool.package tx) :
    ∃ y ∈ package, y.txHash = t.txHash ∧ y.relayBytes = t.relayBytes := by
  have hpath : Relation.ReflTransGen pool.ParentIn tx t := by
    classical
    exact of_decide_eq_true (List.mem_filter.mp ht).2
  have hfound : t ∈ pool ∧ ∃ y ∈ package, y.txHash = t.txHash := by
    clear ht
    induction hpath with
    | refl => exact ⟨htx, tx, hby.self, rfl⟩
    | @tail a b _ hstep ih =>
        obtain ⟨ha, y, hy, hid⟩ := ih
        obtain ⟨hb, hspends⟩ := hstep
        have hma := h a ha
        have hspends' := hapart.inputs hma.among (hby.among y hy) hma.signed (hby.signed y hy) hid.symm hspends
        exact ⟨hb, hby.parents y hy b (h b hb).among (h b hb).fresh hspends'⟩
  obtain ⟨ht, y, hy, hid⟩ := hfound
  have hmt := h t ht
  exact ⟨y, hy, hid,
    (hby.signed y hy).same_size hmt.signed (hapart y (hby.among y hy) t hmt.among hid)⟩

/-- A queue of measured spends has its packages within the limits. -/
theorem UtxoPool.PackagesWithin.of_measured (hapart : HashApart submitted) (hwithin : pool.Within)
    (h : ∀ t ∈ pool, Measured submitted live t) : pool.PackagesWithin := by
  have hbounds : ∀ tx ∈ pool, (pool.package tx).length ≤ maxUtxoPackageCount ∧
      UtxoPool.sumBytes (pool.package tx) ≤ maxUtxoPackageBytes := by
    intro tx htx
    obtain ⟨package, hby⟩ := (h tx htx).package
    have hnodup : ((pool.package tx).map UtxoTx.txHash).Nodup :=
      (nodup_txHash hapart hwithin h).sublist (List.filter_sublist.map _)
    obtain ⟨hlength, hsum⟩ := length_sum_le_of_keys hnodup fun t ht => hby.of_mem_package hapart h htx ht
    exact ⟨hlength.trans hby.count, hsum.trans hby.bytes⟩
  exact ⟨fun tx htx => (hbounds tx htx).1, fun tx htx => (hbounds tx htx).2⟩

end Measured

/-! ### Runs of submissions -/

namespace Mempool

section Limits

variable [Crypto] {m : Mempool} {submitted : List UtxoTx}

/-- **Step.** A submission keeps the queue within its limits. -/
theorem within_admit (env : Env) (tx : UtxoTx) (h : m.pool.Within) :
    (admitUtxoToMempool env tx m).1.pool.Within := by
  obtain ⟨-, hsub | ⟨vetted, hvet, kept, hpool, hkept, hbytes, hcount⟩⟩ := admit_pool env tx m
  · exact h.sublist hsub
  · have hvetted := ChainState.vetUtxo_ok hvet
    have hstays := h.sublist (hkept.trans (UtxoPool.without_sublist _ _))
    rw [hpool]
    refine ⟨?_, ?_, ?_, ?_⟩
    · refine List.pairwise_append.mpr ⟨hstays.inputs, List.pairwise_singleton _ _, fun a ha b hb => ?_⟩
      rw [List.mem_singleton.mp hb]
      -- who shares an input is in the conflict set
      intro i hi j hj heq
      obtain ⟨k, hskip, hk⟩ := UtxoPool.mem_without.mp (hkept.subset ha)
      have hconflict : UtxoPool.conflicts tx a = true := UtxoPool.conflicts_eq_true.mpr ⟨j, hj, i, hi, heq⟩
      refine hskip ?_
      rw [hvetted.conflictIdxs]
      exact UtxoPool.mem_conflictIdxs_of_conflicts hk hconflict
    · rw [List.map_append, List.nodup_append]
      refine ⟨hstays.txids, List.nodup_singleton _, fun a ha b hb => ?_⟩
      obtain ⟨t, ht, rfl⟩ := List.mem_map.mp ha
      rw [List.map_singleton, List.mem_singleton] at hb
      rw [hb]
      exact hvetted.fresh t ((UtxoPool.without_sublist _ _).subset (hkept.subset ht))
    · rw [List.length_append, List.length_singleton]
      exact hcount h.count
    · rw [UtxoPool.sumBytes_append]
      exact hbytes

/-- **Step.** A submission keeps the queue measured. -/
theorem measured_admit (hapart : HashApart submitted) (hsourced : Sourced submitted m.chain.live.utxo)
    (env : Env) {tx : UtxoTx} (htx : tx ∈ submitted)
    (h : ∀ t ∈ m.pool, Measured submitted m.chain.live.utxo t) :
    ∀ t ∈ (admitUtxoToMempool env tx m).1.pool, Measured submitted m.chain.live.utxo t := by
  obtain ⟨-, hsub | ⟨vetted, hvet, kept, hpool, hkept, -, -⟩⟩ := admit_pool env tx m
  · exact fun t ht => h t (hsub.subset ht)
  · rw [hpool]
    intro t ht
    rcases List.mem_append.mp ht with hold | hnew
    · exact h t ((UtxoPool.without_sublist _ _).subset (hkept.subset hold))
    · rw [List.mem_singleton.mp hnew]
      exact Measured.of_vetted hapart hsourced htx h (ChainState.vetUtxo_ok hvet)

/-- The submissions of a run. -/
def submissions (calls : List (Env × UtxoTx)) : List Call := calls.map fun c => .submit c.1 c.2

theorem run_submissions_concat (m : Mempool) (calls : List (Env × UtxoTx)) (call : Env × UtxoTx) :
    m.run (submissions (calls ++ [call]))
      = (admitUtxoToMempool call.1 call.2 (m.run (submissions calls))).1 := by
  rw [submissions, List.map_append, List.map_singleton, run_concat]
  rfl

/-- Submissions leave the rest of the chain state as it is. -/
theorem run_submissions_chain (m : Mempool) (calls : List (Env × UtxoTx)) :
    m.chain.UpToQueue (m.run (submissions calls)).chain := by
  induction calls using List.reverseRecOn with
  | nil => exact .refl _
  | append_singleton calls call ih =>
      rw [run_submissions_concat]
      exact ih.trans (admit_pool call.1 call.2 _).1

/-- Over any submissions inputs and ids stay apart and the two sizes within their bounds. -/
theorem run_within (hempty : m.pool = []) (calls : List (Env × UtxoTx)) : (m.run (submissions calls)).pool.Within := by
  induction calls using List.reverseRecOn with
  | nil =>
      change m.pool.Within
      rw [hempty]
      exact ⟨List.Pairwise.nil, List.nodup_nil, Nat.zero_le _, Nat.zero_le _⟩
  | append_singleton calls call ih =>
      rw [run_submissions_concat]
      exact within_admit call.1 call.2 ih

/-- Over submissions that the live set fits, every queued spend is measured. -/
theorem run_measured (hempty : m.pool = []) (hapart : HashApart submitted)
    (hsourced : Sourced submitted m.chain.live.utxo) {calls : List (Env × UtxoTx)}
    (hcalls : ∀ call ∈ calls, call.2 ∈ submitted) :
    ∀ t ∈ (m.run (submissions calls)).pool, Measured submitted m.chain.live.utxo t := by
  induction calls using List.reverseRecOn with
  | nil =>
      intro t ht
      change t ∈ m.pool at ht
      rw [hempty] at ht
      cases ht
  | append_singleton calls call ih =>
      have hbefore := ih fun c hc => hcalls c (List.mem_append_left _ hc)
      rw [run_submissions_concat]
      have hlive := (run_submissions_chain m calls).live
      rw [← hlive] at hsourced hbefore ⊢
      exact measured_admit hapart hsourced call.1 (hcalls call (by simp)) hbefore

/-- **The limits of the queue**, over any submissions to a node with an empty one.
Inputs and ids are apart, and count and bytes are bounded, on every chain state; the
packages are bounded when the live set fits the submissions. -/
theorem submissions_within_limits (m : Mempool) (hempty : m.pool = []) (calls : List (Env × UtxoTx)) :
    (m.run (submissions calls)).pool.Within ∧
    (HashApart (calls.map Prod.snd) → Sourced (calls.map Prod.snd) m.chain.live.utxo →
      (m.run (submissions calls)).pool.PackagesWithin) := by
  have hwithin := run_within hempty calls
  refine ⟨hwithin, fun hapart hsourced => ?_⟩
  have hmeasured := run_measured hempty hapart hsourced fun call hcall => List.mem_map_of_mem (f := Prod.snd) hcall
  exact UtxoPool.PackagesWithin.of_measured hapart hwithin hmeasured

end Limits

end Mempool

/-! ### The live set of an archival node -/

namespace ChainState

section Live

variable [Crypto] {submitted : List UtxoTx}

theorem Archival.sourced {st : ChainState} (inv : Archival {} st)
    (hformed : ∀ {h : Hash} {b : Block}, st.dag[h]? = some b → ∀ tx ∈ b.utxoTxs,
      tx.validateForm = .ok () ∧ tx.CreditsAddressed)
    (hids : st.SpendIdsDistinct) (hmints : st.MintIdsDistinct)
    (hspends : ∀ tx ∈ submitted, ∀ t, st.Carries t → t.txHash = tx.txHash → t.hashBytes = tx.hashBytes)
    (hcoins : ∀ tx ∈ submitted, ∀ (h : Hash) (b : Block), st.dag[h]? = some b → b.coinbaseTxid ≠ tx.txHash) :
    Sourced submitted st.live.utxo := by
  intro tx htx hform hknown tin htin
  obtain ⟨tip, htip⟩ := inv.whole.selected
  obtain ⟨ids, es, hreplay, -⟩ := replayPoint_inv (goodTxs hformed hids) hmints
    (.between (st.blocksAt (st.canonicalOrderAt tip)) [] (List.append_nil _).symm)
  obtain ⟨done, hdone, hutxo⟩ := hreplay.utxo
  have hempty : CoinbaseInv [] ({} : Ledger).utxo := by
    rintro id (h | h) <;> simp at h
  have hcoinbase := hempty.replay st.chainId (st.blocksAt (st.canonicalOrderAt tip))
  rw [inv.live htip] at hknown ⊢
  obtain ⟨op, hop, hseen⟩ := hknown
  rcases hutxo.source op hseen with ⟨id, -, rfl⟩ | ⟨t, ht, i, -, rfl⟩
  · -- a coinbase outpoint of one of the blocks
    have hid := hcoinbase id hseen
    rw [List.append_nil, List.mem_reverse, List.mem_map] at hid
    obtain ⟨p, hp, rfl⟩ := hid
    obtain ⟨h, -, hb, -⟩ := mem_blocksAt.mp hp
    exact absurd hop (hcoins tx htx h p.1 hb)
  · -- a spend of this hash took the same inputs
    have hsame : t.inputs.map (·.previous) = tx.inputs.map (·.previous) := by
      obtain ⟨h, b, hb, hmem⟩ := hdone t ht
      exact UtxoTx.inputs_eq_of_hashBytes (UtxoTx.validateForm_ok (hformed hb t hmem).1).2.2.1
        (UtxoTx.validateForm_ok hform).2.2.1 (hspends tx htx t (hdone t ht) hop)
    have hmem : tin.previous ∈ t.inputs.map (·.previous) := hsame ▸ List.mem_map_of_mem htin
    obtain ⟨tin', htin', hprevious⟩ := List.mem_map.mp hmem
    exact hprevious ▸ hutxo.inputs t ht tin' htin'

/-- **The live set of an archival node fits every submission**, as long as no two
blocks mint the same coinbase outpoint and ids do not collide. -/
theorem archival_sourced (easy : Bool) (calls : List (Env × Block))
    (hids : ((seeded easy true {}).run calls).SpendIdsDistinct)
    (hmints : ((seeded easy true {}).run calls).MintIdsDistinct)
    (hspends : ∀ tx ∈ submitted, ∀ t, ((seeded easy true {}).run calls).Carries t → t.txHash = tx.txHash →
      t.hashBytes = tx.hashBytes)
    (hcoins : ∀ tx ∈ submitted, ∀ (h : Hash) (b : Block), ((seeded easy true {}).run calls).dag[h]? = some b →
      b.coinbaseTxid ≠ tx.txHash) :
    Sourced submitted ((seeded easy true {}).run calls).live.utxo :=
  (Archival.run easy {} calls).sourced (fun hb => run_formed easy true {} calls hb) hids hmints hspends hcoins

end Live

end ChainState

/-! ### A parent after its child -/

namespace Sample

/-- A spend of a coin of the sample miner into another coin of his, with a witness of
a given size. -/
def padded (op : OutPoint) (tag size value fee : Nat) : UtxoTx :=
  spendInto op (.stack [.preimage (List.replicate size 0 ++ (u64 tag ++ List.replicate 12 0))]) tag value
    (.payToAddress (Address.ofPubkey minerKey)) fee

variable {op op' : OutPoint} {tag tag' size size' value value' fee fee' : Nat}

theorem minerAddress : Address.isValid (Address.ofPubkey minerKey) = true ∧
    Address.isBech32m (Address.ofPubkey minerKey) = true ∧ (Address.ofPubkey minerKey).length ≤ 200 := by
  decide +kernel

theorem validateOutput_miner (hdust : utxoDust ≤ value) :
    UtxoTx.validateOutput ⟨value, .payToAddress (Address.ofPubkey minerKey), 0⟩ = .ok () := by
  have hpos : value ≠ 0 := (Nat.lt_of_lt_of_le (by decide) hdust).ne'
  simp [UtxoTx.validateOutput, Predicate.isAccountCredit, Predicate.lockedAddress, hpos, hdust,
    minerAddress.1, minerAddress.2.1]

theorem relayBytes_padded : 7435 + size ≤ (padded op tag size value fee).relayBytes ∧
    (padded op tag size value fee).relayBytes ≤ 7635 + size := by
  have hwitness : (UnlockWitness.stack
      [.preimage (List.replicate size 0 ++ (u64 tag ++ List.replicate 12 0))]).toBytes.length = 44 + size := by
    simp [UnlockWitness.toBytes]
    omega
  have hpredicate : (Predicate.payToAddress (Address.ofPubkey minerKey)).toBytes.length
      = 12 + (Address.ofPubkey minerKey).length := by
    simp [Predicate.toBytes]
    omega
  have hlength := minerAddress.2.2
  rw [padded, relayBytes_spendInto, hwitness, hpredicate]
  omega

theorem padded_submittable {st : ChainState} (hchain : st.chainId = chainId) (hdust : utxoDust ≤ value)
    (hfee : 7635 + size ≤ fee) (hsize : 7635 + size ≤ maxUtxoPackageBytes) :
    Submittable st (padded op tag size value fee) :=
  spendInto_submittable hchain (validateOutput_miner hdust) (relayBytes_padded.2.trans hfee)
    (relayBytes_padded.2.trans hsize)

theorem padded_applies {u : UtxoSet} {accounts : Accounts} {media created : Nat}
    (hheld : u.Holds op ⟨value + fee, .payToAddress (Address.ofPubkey minerKey), created⟩)
    (hmature : op.isCoinbase = true → satAdd64 created coinbaseMaturityBlues ≤ media)
    (hdust : utxoDust ≤ value) (hfee : 7635 + size ≤ fee) (hsum : value + fee ≤ u128Max) :
    ∃ s, applyUtxoTx u accounts (padded op tag size value fee) media = (s, .ok fee) :=
  spendInto_applies hheld hmature (Or.inr ⟨_, rfl⟩) (validateOutput_miner hdust) rfl
    (relayBytes_padded.2.trans hfee) hsum

/-- Their hashes are apart as well. -/
theorem padded_txHash_ne (htag : tag < 2 ^ 64) (htag' : tag' < 2 ^ 64) (hne : tag ≠ tag') :
    (padded op tag size value fee).txHash ≠ (padded op' tag' size' value' fee').txHash := by
  have hdigest : ∀ (op : OutPoint) (tag size value fee : Nat), ∃ front, (padded op tag size value fee).txHash
      = Crypto.blake3 (front ++ (u64 tag ++ List.replicate 12 0)) := by
    intro op tag size value fee
    have hwitness : (padded op tag size value fee).inputs.flatMap (fun i => encode i.witness)
        = (u32 2 ++ u64 1 ++ (u32 1 ++ u64 (size + 20) ++ List.replicate size 0))
          ++ (u64 tag ++ List.replicate 12 0) := by
      change (UnlockWitness.stack
        [.preimage (List.replicate size 0 ++ (u64 tag ++ List.replicate 12 0))]).toBytes ++ [] = _
      simp [UnlockWitness.toBytes, Bincode.bytes]
    refine ⟨utf8 "hassan-pq-512-v1" ++ utf8 "utxo-tx-hash" ++ (padded op tag size value fee).signingBytes
      ++ (padded op tag size value fee).signature
      ++ (u32 2 ++ u64 1 ++ (u32 1 ++ u64 (size + 20) ++ List.replicate size 0)), ?_⟩
    rw [UtxoTx.txHash, digest512, UtxoTx.hashBytes, hwitness]
    simp only [List.append_assoc]
  obtain ⟨front, hfront⟩ := hdigest op tag size value fee
  obtain ⟨front', hfront'⟩ := hdigest op' tag' size' value' fee'
  rw [hfront, hfront']
  exact tagged_digest_ne htag htag' hne front front'

/-- So such spends are told apart. -/
theorem padded_apart (htag : tag < 2 ^ 64) (htag' : tag' < 2 ^ 64) (hne : tag ≠ tag') :
    HashApart [padded op tag size value fee, padded op' tag' size' value' fee'] := by
  have hhash := @padded_txHash_ne op op' tag tag' size size' value value' fee fee' htag htag' hne
  intro tx htx tx' htx' heq
  simp only [List.mem_cons, List.not_mem_nil, or_false] at htx htx'
  rcases htx with rfl | rfl <;> rcases htx' with rfl | rfl
  · rfl
  · exact absurd heq hhash
  · exact absurd heq.symm hhash
  · rfl

/-- A large spend of the first coin. -/
def parent : UtxoTx := padded (spot 0) 1 300000 791000 310000

/-- A large spend of what it creates. -/
def child : UtxoTx := padded ⟨parent.txHash, 0⟩ 2 300000 481000 310000

theorem parent_child_apart : HashApart [child, parent] := padded_apart (by omega) (by omega) (by omega)

/-- A node that has the coin and what its spend creates, both unspent. -/
def reminted : Mempool where
  chain := ChainState.seeded false false
    { utxo := (minted 1).insert ⟨parent.txHash, 0⟩ ⟨791000, .payToAddress (Address.ofPubkey minerKey), 0⟩ }

/-- The child is queued first, and then the parent. -/
theorem reminted_pool :
    (reminted.run (Mempool.submissions [(env, child), (env, parent)])).pool = [child, parent] := by
  have hbudget : maxMempoolBytes = 33554432 := rfl
  have hlimit : maxUtxoPackageBytes = 524288 := rfl
  have hplaces : maxMempoolSize = 10000 := rfl
  have hdust : utxoDust = 546 := rfl
  have hplain : (⟨parent.txHash, 0⟩ : OutPoint).isCoinbase ≠ true := by
    rw [OutPoint.isCoinbase]
    decide
  have hchild : child.relayBytes ≤ 7635 + 300000 := relayBytes_padded.2
  have hparent : parent.relayBytes ≤ 7635 + 300000 := relayBytes_padded.2
  -- the child, with an empty queue
  have hheld : (reminted.chain.utxoMempoolPreview []).1.Holds ⟨parent.txHash, 0⟩
      ⟨481000 + 310000, .payToAddress (Address.ofPubkey minerKey), 0⟩ := by
    refine ChainState.preview_holds ⟨?_, ?_⟩ fun q hq => by cases hq
    · change ((minted 1).insert _ _).entries[_]? = _
      rw [UtxoSet.insert]
      exact ExtTreeMap.getElem?_insert_self
    · change _ ∉ ((minted 1).insert _ _).spent
      simp [UtxoSet.insert]
  obtain ⟨s, happlies⟩ := @padded_applies _ 2 300000 _ _ _ (reminted.chain.utxoMempoolPreview []).2
    reminted.chain.selectedTipBlueScore _ hheld (fun h => absurd h hplain) (by omega) (by omega) (by decide)
  have hvalid : Submittable reminted.chain child := padded_submittable rfl (by omega) (by omega) (by omega)
  have hnobody : Unrelated reminted.pool child :=
    ⟨fun _ hq => absurd hq List.not_mem_nil, fun _ hq => absurd hq List.not_mem_nil,
      fun _ hq => absurd hq List.not_mem_nil⟩
  have hempty : UtxoPool.sumBytes reminted.pool = 0 ∧ reminted.pool.length = 0 := ⟨rfl, rfl⟩
  have hfirst : Mempool.admitUtxoToMempool env child reminted = (reminted.queued env child, .ok ()) :=
    Mempool.admit_unrelated env hvalid hnobody happlies (by omega) (by omega)
  -- the parent, behind its child
  have hpool : (reminted.queued env child).pool = [child] := Mempool.queued_pool _ _ _
  have hchain : (reminted.queued env child).chain = { reminted.chain with utxoMempool := [child] } :=
    Mempool.queued_chain _ _ _
  have hunrelated : Unrelated (reminted.queued env child).pool parent := by
    rw [hpool]
    refine ⟨fun q hq => ?_, fun q hq => ?_, fun q hq => ?_⟩
    all_goals rw [List.mem_singleton.mp hq]
    · exact spendInto_txid_ne (by omega) (by omega) (by omega)
    · rw [← Bool.not_eq_true, UtxoPool.conflicts_eq_true]
      rintro ⟨tin, htin, tin', htin', heq⟩
      rw [List.mem_singleton.mp htin, List.mem_singleton.mp htin'] at heq
      exact txHash_ne_mintId parent (congrArg OutPoint.txid heq).symm
    · rw [← Bool.not_eq_true, UtxoPool.spendsFrom_eq_true]
      rintro ⟨tin, htin, hid⟩
      rw [List.mem_singleton.mp htin] at hid
      exact txHash_ne_mintId child (List.mem_singleton.mp hid)
  have hheld' : ((reminted.queued env child).chain.utxoMempoolPreview []).1.Holds (spot 0)
      ⟨791000 + 310000, .payToAddress (Address.ofPubkey minerKey), 0⟩ := by
    refine ChainState.preview_holds ⟨?_, ?_⟩ fun q hq => ?_
    · rw [hchain]
      change ((minted 1).insert _ _).entries[_]? = _
      have hne : (⟨parent.txHash, 0⟩ : OutPoint) ≠ spot 0 :=
        fun h => txHash_ne_mintId parent (congrArg OutPoint.txid h).symm
      rw [UtxoSet.insert, ExtTreeMap.getElem?_insert,
        if_neg (by simpa [Std.LawfulEqCmp.compare_eq_iff_eq] using hne)]
      exact (minted_holds (by omega)).live
    · rw [hchain]
      change _ ∉ ((minted 1).insert _ _).spent
      simp [UtxoSet.insert, minted]
    · have hmempool : (reminted.queued env child).chain.utxoMempool = [child] := hpool
      rw [hmempool, UtxoPool.without_nil] at hq
      rw [List.mem_singleton.mp hq]
      refine ⟨fun hin => ?_, txHash_ne_mintId child⟩
      have hin' : spot 0 ∈ [(⟨parent.txHash, 0⟩ : OutPoint)] := hin
      exact txHash_ne_mintId parent (congrArg OutPoint.txid (List.mem_singleton.mp hin'))
  obtain ⟨s', happlies'⟩ := @padded_applies _ 1 300000 _ _ _ ((reminted.queued env child).chain.utxoMempoolPreview []).2
    (reminted.queued env child).chain.selectedTipBlueScore _ hheld' (fun h => by rw [spot_isCoinbase (by omega)] at h; cases h) (by omega) (by omega) (by decide)
  have hvalid' : Submittable (reminted.queued env child).chain parent :=
    padded_submittable (hchain ▸ rfl) (by omega) (by omega) (by omega)
  have hone : UtxoPool.sumBytes (reminted.queued env child).pool = child.relayBytes ∧
      (reminted.queued env child).pool.length = 1 := by
    rw [hpool, UtxoPool.sumBytes, List.map_singleton, List.sum_singleton, List.length_singleton]
    exact ⟨rfl, rfl⟩
  have hsecond : Mempool.admitUtxoToMempool env parent (reminted.queued env child)
      = ((reminted.queued env child).queued env parent, .ok ()) :=
    Mempool.admit_unrelated env hvalid' hunrelated happlies' (by omega) (by omega)
  have hrun : reminted.run (Mempool.submissions [(env, child), (env, parent)])
      = (Mempool.admitUtxoToMempool env parent (Mempool.admitUtxoToMempool env child reminted).1).1 := rfl
  rw [hrun, hfirst, hsecond, Mempool.queued_pool, hpool]
  rfl

/-- **A package over its limit**: the parent was measured on its own, and so was the
child, whose coin the live set had already. -/
theorem parent_after_child : ¬ ∀ (m : Mempool) (calls : List (Env × UtxoTx)), m.pool = [] →
    HashApart (calls.map Prod.snd) → (m.run (Mempool.submissions calls)).pool.PackagesWithin := by
  intro hall
  have hwithin := hall reminted [(env, child), (env, parent)] rfl parent_child_apart
  rw [reminted_pool] at hwithin
  have hbytes := hwithin.bytes child List.mem_cons_self
  have hstep : UtxoPool.ParentIn [child, parent] child parent :=
    ⟨List.mem_cons_of_mem child (List.mem_singleton_self parent), ⟨⟨parent.txHash, 0⟩, 0, _⟩,
      List.mem_singleton_self _, rfl⟩
  have hpackage : UtxoPool.package [child, parent] child = [child, parent] := by
    classical
    refine List.filter_eq_self.mpr fun t ht => decide_eq_true ?_
    rcases List.mem_cons.mp ht with rfl | ht
    · exact .refl
    · rw [List.mem_singleton.mp ht]
      exact .single hstep
  have hchild : 7435 + 300000 ≤ child.relayBytes := relayBytes_padded.1
  have hparent : 7435 + 300000 ≤ parent.relayBytes := relayBytes_padded.1
  have hlimit : maxUtxoPackageBytes = 524288 := rfl
  rw [hpackage, UtxoPool.sumBytes, List.map_cons, List.map_singleton, List.sum_cons, List.sum_singleton]
    at hbytes
  omega

/-- The coins of the sample miner carry one id. -/
theorem txid_of_mem_minted {n : Nat} {op : OutPoint} (h : op ∈ (minted n).entries) : op.txid = mintId := by
  have hfold : ∀ (xs : List Nat) (entries : ExtTreeMap OutPoint TxOut),
      (∀ op : OutPoint, op ∈ entries → op.txid = mintId) → ∀ op : OutPoint,
      op ∈ xs.foldl (fun entries i => entries.insert (spot i) worth) entries → op.txid = mintId := by
    intro xs
    induction xs with
    | nil => exact fun _ h => h
    | cons i xs ih =>
        intro entries hall
        refine ih _ fun op hop => ?_
        rcases ExtTreeMap.mem_insert.mp hop with heq | hop
        · rw [← Std.LawfulEqCmp.compare_eq_iff_eq.mp heq]
          rfl
        · exact hall op hop
  exact hfold _ ∅ (fun op hop => by simp at hop) op h

/-- Such a node knows no output of a spend. -/
theorem not_known_minted {n : Nat} (tx : UtxoTx) : ¬ (minted n).Known tx.txHash := by
  rintro ⟨op, hop, hlive | hspent⟩
  · exact txHash_ne_mintId tx ((txid_of_mem_minted hlive).symm.trans hop)
  · simp [minted] at hspent

/-- In their order both are within the limits. -/
theorem parent_before_child :
    (start.run (Mempool.submissions [(env, parent), (env, child)])).pool.Within ∧
      (start.run (Mempool.submissions [(env, parent), (env, child)])).pool.PackagesWithin := by
  obtain ⟨hwithin, hpackages⟩ := Mempool.submissions_within_limits start rfl [(env, parent), (env, child)]
  refine ⟨hwithin, hpackages (fun tx htx tx' htx' => ?_) fun tx _ _ hknown => ?_⟩
  · have hswap : ∀ {t : UtxoTx}, t ∈ [parent, child] → t ∈ [child, parent] := by
      intro t ht
      simp only [List.mem_cons, List.not_mem_nil, or_false] at ht ⊢
      exact ht.symm
    exact parent_child_apart tx (hswap htx) tx' (hswap htx')
  · exact absurd hknown (not_known_minted tx)

end Sample

end HassanNode
