import Mathlib
import HassanNode.Ledger.Reorder
import HassanNode.Consensus.MempoolRuns

/-!
# HassanNode.Consensus.Selection

Which queued spends go into a block template: `select_valid_utxo_txs` of `lib.rs`.

The function ranks every spend by its own feerate and applies them once in this order.
Without evictions the queue is a set of spends that apply in some order
(`Mempool.run_runnable`), so in every order with parents before their children. Hence
the selection is complete exactly when every parent outranks its children
(`Mempool.selects_all_iff`). A child that pays for its parent does not
(`Sample.payer_left_out`).
-/

namespace HassanNode

open Std (ExtTreeMap ExtTreeSet)
open Params Worklist

/-! ### The selection -/

section Selection

variable [Crypto]

namespace UtxoTx

/-- The feerate of a spend alone. -/
def rate (tx : UtxoTx) : Nat := tx.fee / max tx.relayBytes 1

/-- A higher feerate, then a higher fee, then a lower id. -/
def Outranks (a b : UtxoTx) : Prop :=
  b.rate < a.rate ∨ a.rate = b.rate ∧ (b.fee < a.fee ∨ a.fee = b.fee ∧ a.txid < b.txid)

instance (a b : UtxoTx) : Decidable (a.Outranks b) := inferInstanceAs (Decidable (_ ∨ _ ∧ (_ ∨ _ ∧ _)))

theorem Outranks.irrefl (a : UtxoTx) : ¬ a.Outranks a := by
  rintro (h | ⟨-, h | ⟨-, h⟩⟩)
  · exact lt_irrefl _ h
  · exact lt_irrefl _ h
  · exact lt_irrefl _ h

theorem Outranks.trans {a b c : UtxoTx} (h : a.Outranks b) (h' : b.Outranks c) : a.Outranks c := by
  rcases h with h | ⟨hrate, h⟩
  · rcases h' with h' | ⟨hrate', -⟩
    · exact Or.inl (h'.trans h)
    · exact Or.inl (hrate' ▸ h)
  · rcases h' with h' | ⟨hrate', h'⟩
    · exact Or.inl (hrate.symm ▸ h')
    · refine Or.inr ⟨hrate.trans hrate', ?_⟩
      rcases h with h | ⟨hfee, h⟩
      · rcases h' with h' | ⟨hfee', -⟩
        · exact Or.inl (h'.trans h)
        · exact Or.inl (hfee' ▸ h)
      · rcases h' with h' | ⟨hfee', h'⟩
        · exact Or.inl (hfee.symm ▸ h')
        · exact Or.inr ⟨hfee.trans hfee', h.trans h'⟩

/-- Spends with different ids rank one before the other. -/
theorem outranks_or {a b : UtxoTx} (hne : a.txid ≠ b.txid) : a.Outranks b ∨ b.Outranks a := by
  rcases lt_trichotomy a.rate b.rate with h | hrate | h
  · exact Or.inr (Or.inl h)
  · rcases lt_trichotomy a.fee b.fee with h | hfee | h
    · exact Or.inr (Or.inr ⟨hrate.symm, Or.inl h⟩)
    · rcases lt_or_gt_of_ne hne with h | h
      · exact Or.inl (Or.inr ⟨hrate, Or.inr ⟨hfee, h⟩⟩)
      · exact Or.inr (Or.inr ⟨hrate.symm, Or.inr ⟨hfee.symm, h⟩⟩)
    · exact Or.inl (Or.inr ⟨hrate, Or.inl h⟩)
  · exact Or.inl (Or.inl h)

/-- Whoever lies between two spends keeps the order to one of them. -/
theorem Outranks.cut {a b : UtxoTx} (h : a.Outranks b) (c : UtxoTx) : a.Outranks c ∨ c.Outranks b := by
  by_cases hid : a.txid = c.txid
  · rcases lt_trichotomy c.rate a.rate with hlt | hrate | hlt
    · exact Or.inl (Or.inl hlt)
    · rcases h with h | ⟨hrate', h⟩
      · exact Or.inr (Or.inl (hrate ▸ h))
      · rcases lt_trichotomy c.fee a.fee with hlt | hfee | hlt
        · exact Or.inl (Or.inr ⟨hrate.symm, Or.inl hlt⟩)
        · exact Or.inr (Or.inr ⟨hrate.trans hrate', by rwa [hfee, ← hid]⟩)
        · refine Or.inr (Or.inr ⟨hrate.trans hrate', Or.inl ?_⟩)
          exact h.elim (fun h => h.trans hlt) fun h => h.1 ▸ hlt
    · refine Or.inr (Or.inl ?_)
      exact h.elim (fun h => h.trans hlt) fun h => h.1 ▸ hlt
  · exact (outranks_or hid).imp id fun h' => h'.trans h

end UtxoTx

/-- The candidates in the order of the selection. -/
def rankedByRate (candidates : List UtxoTx) : List UtxoTx :=
  candidates.mergeSort fun a b => !decide (b.Outranks a)

/-- `select_valid_utxo_txs`. -/
def ChainState.selectValidUtxoTxs (st : ChainState) (candidates : List UtxoTx) : List UtxoTx :=
  (takeEach (UtxoTx.attempt st.selectedTipBlueScore) (rankedByRate candidates) (st.live.utxo, st.live.accounts)).2

/-- **What the selection should return**: every queued spend, in an order in which each
applies after the ones before it. -/
structure ChainState.SelectsAll (st : ChainState) : Prop where
  all : (st.selectValidUtxoTxs st.utxoMempool).Perm st.utxoMempool
  applies : ∃ s, (st.selectValidUtxoTxs st.utxoMempool).foldlM (UtxoTx.attempt st.selectedTipBlueScore)
    (st.live.utxo, st.live.accounts) = some s

/-- Every outpoint that a queued spend takes is live, or made by a queued spend that
outranks it. -/
def ChainState.ParentsOutrank (st : ChainState) : Prop :=
  ∀ tx ∈ st.utxoMempool, ∀ op, tx.Takes op →
    st.live.utxo.Free op ∨ ∃ parent ∈ st.utxoMempool, op ∈ parent.created ∧ parent.Outranks tx

theorem rankedByRate_perm (candidates : List UtxoTx) : (rankedByRate candidates).Perm candidates :=
  List.mergeSort_perm _ _

/-- Nobody comes before somebody who outranks it. -/
theorem rankedByRate_sorted (candidates : List UtxoTx) :
    (rankedByRate candidates).Pairwise fun a b => ¬ b.Outranks a := by
  have htrans : ∀ a b c : UtxoTx, (!decide (b.Outranks a)) = true → (!decide (c.Outranks b)) = true →
      (!decide (c.Outranks a)) = true := by
    intro a b c hab hbc
    simp only [Bool.not_eq_true', decide_eq_false_iff_not] at *
    intro hca
    exact (hca.cut b).elim hbc hab
  have htotal : ∀ a b : UtxoTx, (!decide (b.Outranks a) || !decide (a.Outranks b)) = true := by
    intro a b
    simp only [Bool.or_eq_true, Bool.not_eq_true', decide_eq_false_iff_not]
    by_contra hboth
    obtain ⟨hba, hab⟩ := not_or.mp hboth
    exact UtxoTx.Outranks.irrefl a ((not_not.mp hab).trans (not_not.mp hba))
  exact (List.pairwise_mergeSort htrans htotal candidates).imp fun h => by simpa using h

/-! ### When it is complete -/

variable {st : ChainState} {order : List UtxoTx} {s : UtxoSet × Accounts}

/-- The selection is complete if and only if its order applies. -/
theorem ChainState.selectsAll_iff : st.SelectsAll ↔
    ∃ s, (rankedByRate st.utxoMempool).foldlM (UtxoTx.attempt st.selectedTipBlueScore)
      (st.live.utxo, st.live.accounts) = some s := by
  rw [← takeEach_eq_self_iff]
  constructor
  · intro h
    refine (takeEach_sublist _ _).eq_of_length ?_
    exact h.all.length_eq.trans (rankedByRate_perm st.utxoMempool).length_eq.symm
  · intro h
    refine ⟨?_, _, takeEach_run _ _⟩
    rw [ChainState.selectValidUtxoTxs, h]
    exact rankedByRate_perm st.utxoMempool

/-- Where the selection is complete, parents outrank their children, whatever the queue is. -/
theorem ChainState.SelectsAll.parents_outrank (h : st.SelectsAll) (hids : (st.utxoMempool.map UtxoTx.txid).Nodup) :
    st.ParentsOutrank := by
  obtain ⟨s, hrun⟩ := ChainState.selectsAll_iff.mp h
  have hperm := rankedByRate_perm st.utxoMempool
  have hsorted := rankedByRate_sorted st.utxoMempool
  have hnames := (hperm.map UtxoTx.txid).nodup_iff.mpr hids
  intro tx htx op htakes
  obtain ⟨pre, post, hsplit⟩ := List.append_of_mem (hperm.mem_iff.mpr htx)
  rw [hsplit] at hrun hsorted hnames
  rw [List.foldlM_append] at hrun
  obtain ⟨s₁, hpre, hrest⟩ := Option.bind_eq_some_iff.mp hrun
  rw [List.foldlM_cons] at hrest
  obtain ⟨s₂, hstep, -⟩ := Option.bind_eq_some_iff.mp hrest
  obtain ⟨fee, happly⟩ := UtxoTx.attempt_eq_some.mp hstep
  obtain ⟨tin, htin, rfl⟩ := List.mem_map.mp htakes
  by_cases hmade : ∃ p ∈ pre, tin.previous ∈ p.created
  · obtain ⟨parent, hparent, hcreated⟩ := hmade
    have hbefore := (List.pairwise_append.mp hsorted).2.2 parent hparent tx List.mem_cons_self
    rw [List.map_append, List.nodup_append] at hnames
    have hne := hnames.2.2 parent.txid (List.mem_map_of_mem hparent) tx.txid (List.mem_map_of_mem List.mem_cons_self)
    refine Or.inr ⟨parent, ?_, hcreated, (UtxoTx.outranks_or hne).resolve_right hbefore⟩
    exact hperm.mem_iff.mp (hsplit ▸ List.mem_append_left _ hparent)
  · exact Or.inl ((run_moves hpre).free_of (applied_inputs happly tin htin) hmade)

/-- Where parents outrank their children, the order of the selection has every spend behind
those it waits for. -/
theorem ChainState.ParentsOutrank.readyOrder (h : st.ParentsOutrank) :
    ReadyOrder (UtxoTx.Ready st.live.utxo · ·) (rankedByRate st.utxoMempool) := by
  have hperm := rankedByRate_perm st.utxoMempool
  have hsorted := rankedByRate_sorted st.utxoMempool
  intro pre tx post hsplit op htakes
  have htx : tx ∈ st.utxoMempool := hperm.mem_iff.mp (hsplit ▸ by simp)
  refine (h tx htx op htakes).imp id fun hmade => ?_
  obtain ⟨parent, hparent, hcreated, hranks⟩ := hmade
  have hmem := hperm.mem_iff.mpr hparent
  rw [hsplit] at hmem hsorted
  refine ⟨parent, (List.mem_append.mp hmem).resolve_right fun hlater => ?_, hcreated⟩
  rcases List.mem_cons.mp hlater with rfl | hpost
  · exact UtxoTx.Outranks.irrefl _ hranks
  · exact (List.pairwise_cons.mp (List.pairwise_append.mp hsorted).2.1).1 parent hpost hranks

/-- **The selection of a queue that applies in some order** is complete if and only if
parents outrank their children. -/
theorem ChainState.selectsAll_iff_of_run (hapart : Apart st.live.utxo st.utxoMempool)
    (hids : (st.utxoMempool.map UtxoTx.txid).Nodup) (hperm : order.Perm st.utxoMempool)
    (hrun : order.foldlM (UtxoTx.attempt st.selectedTipBlueScore) (st.live.utxo, st.live.accounts) = some s) :
    st.SelectsAll ↔ st.ParentsOutrank := by
  refine ⟨fun h => h.parents_outrank hids, fun h => ?_⟩
  have tasks := @tasks_of_run _ _ (st.live.utxo, st.live.accounts) _ _ _ hapart hperm hrun
  have hall := (tasks.runs_iff (rankedByRate_perm st.utxoMempool).subperm).mpr h.readyOrder
  exact ChainState.selectsAll_iff.mpr hall

end Selection

/-! ### Queues that apply in some order -/

namespace Mempool

section Runs

variable [Crypto] {m : Mempool} {submitted : List UtxoTx} {tx : UtxoTx}

/-- Some order of the queued spends applies to the live set. -/
def Runnable (m : Mempool) : Prop :=
  ∃ (order : List UtxoTx) (s : UtxoSet × Accounts), order.Perm m.pool ∧
    order.foldlM (UtxoTx.attempt m.chain.selectedTipBlueScore) (m.chain.live.utxo, m.chain.live.accounts) = some s

/-- Measured spends within the limits stay apart. -/
theorem apart_of_measured (hhashes : HashApart submitted) (hwithin : m.pool.Within)
    (h : ∀ t ∈ m.pool, Measured submitted m.chain.live.utxo t) : Apart m.chain.live.utxo m.pool where
  hashes := nodup_txHash hhashes hwithin h
  inputs := by
    have hdisjoint : m.pool.Pairwise fun a b => ∀ op, a.Takes op → ¬ b.Takes op := by
      refine hwithin.inputs.imp fun {a b} hne op ha hb => ?_
      obtain ⟨i, hi, rfl⟩ := List.mem_map.mp ha
      obtain ⟨j, hj, heq⟩ := List.mem_map.mp hb
      exact hne i hi j hj heq.symm
    have : Std.Symm fun a b : UtxoTx => ∀ op, a.Takes op → ¬ b.Takes op :=
      ⟨fun a b hab op hb ha => hab op ha hb⟩
    exact fun t ht t' ht' hne => hdisjoint.forall ht ht' hne
  fresh t ht := (h t ht).fresh

/-- What is queued after a submission that passed the tests and evicts nobody: the
conflicts are gone, and the submission comes last where there is room. -/
theorem admit_perm (env : Env) (hwithin : m.pool.Within) {vetted : VettedUtxo} (hvet : m.chain.vetUtxo tx = .ok vetted)
    (hstays : ∀ q, ¬ m.Evicted tx vetted q) :
    (admitUtxoToMempool env tx m).1.pool.Perm (m.pool.without vetted.conflictIdxs) ∨
      (admitUtxoToMempool env tx m).1.pool.Perm (m.pool.without vetted.conflictIdxs ++ [tx]) := by
  have hafter := within_admit env tx hwithin
  have hnew : (admitUtxoToMempool env tx m).1.pool.Nodup := List.Nodup.of_map _ hafter.txids
  have hsub := UtxoPool.without_sublist m.pool vetted.conflictIdxs
  have hkept : (m.pool.without vetted.conflictIdxs).Nodup := (List.Nodup.of_map _ hwithin.txids).sublist hsub
  by_cases hroom : m.HasRoom tx vetted
  · have hlast : (m.pool.without vetted.conflictIdxs ++ [tx]).Nodup := by
      refine List.nodup_append.mpr ⟨hkept, List.nodup_singleton tx, fun a ha b hb heq => ?_⟩
      rw [List.mem_singleton.mp hb] at heq
      exact (ChainState.vetUtxo_ok hvet).fresh a (hsub.subset ha) (congrArg UtxoTx.txid heq)
    refine Or.inr ((List.perm_ext_iff_of_nodup hnew hlast).mpr fun t => ?_)
    rw [mem_admit_pool env hvet, List.mem_append, List.mem_singleton]
    exact or_congr (and_iff_left (hstays t)) (and_iff_left hroom)
  · refine Or.inl ((List.perm_ext_iff_of_nodup hnew hkept).mpr fun t => ?_)
    rw [mem_admit_pool env hvet]
    exact (or_iff_left fun h => hroom h.2).trans (and_iff_left (hstays t))

/-- The rest of a queue that applies, without the conflicts of a submission, applies, and
the preview is what it leaves. -/
theorem without_run (hapart : Apart m.chain.live.utxo m.pool) (h : m.Runnable) {vetted : VettedUtxo}
    (hvet : m.chain.vetUtxo tx = .ok vetted) :
    ∃ applied : List UtxoTx, applied.Perm (m.pool.without vetted.conflictIdxs) ∧
      applied.foldlM (UtxoTx.attempt m.chain.selectedTipBlueScore) (m.chain.live.utxo, m.chain.live.accounts)
        = some (m.chain.utxoMempoolPreview vetted.conflictIdxs) := by
  classical
  obtain ⟨order, s, hperm, hrun⟩ := h
  have tasks := @tasks_of_run _ _ (m.chain.live.utxo, m.chain.live.accounts) _ _ _ hapart hperm hrun
  have hready := (tasks.runs_iff hperm.subperm).mp ⟨s, hrun⟩
  have hsub := UtxoPool.without_sublist m.pool vetted.conflictIdxs
  have hkept : (order.filter fun t => decide (t ∈ m.pool.without vetted.conflictIdxs)).Perm
      (m.pool.without vetted.conflictIdxs) := by
    have hnodup : order.Nodup := hperm.nodup_iff.mpr tasks.nodup
    refine (List.perm_ext_iff_of_nodup (hnodup.filter _) (tasks.nodup.sublist hsub)).mpr fun t => ?_
    rw [List.mem_filter, decide_eq_true_eq]
    exact and_iff_right_of_imp fun ht => hperm.mem_iff.mpr (hsub.subset ht)
  -- a conflict takes its children along, so nobody who stays waits for one
  have hready' := hready.filter (p := fun t => decide (t ∈ m.pool.without vetted.conflictIdxs))
    fun done child hchild hfront hwaits op htakes => by
      refine (hwaits op htakes).imp id fun hmade => ?_
      obtain ⟨parent, hparent, hcreated⟩ := hmade
      have hqueued : parent ∈ m.pool := hperm.mem_iff.mp (hfront.subset (List.mem_append_left _ hparent))
      have hstays := stays_of_child hvet (of_decide_eq_true hchild) htakes hqueued hcreated
      exact ⟨parent, List.mem_filter.mpr ⟨hparent, decide_eq_true hstays⟩, hcreated⟩
  have hnone : ([] ++ m.pool.without vetted.conflictIdxs).Perm
      (order.filter fun t => decide (t ∈ m.pool.without vetted.conflictIdxs)) := hkept.symm
  obtain ⟨applied, happlied, hend⟩ := tasks.retry_all hready' (hkept.subperm.trans hsub.subperm) hnone rfl
    (Nat.lt_succ_self _)
  exact ⟨applied, happlied.trans hkept, hend⟩

/-- **Step.** A submission that evicts nobody leaves a queue that applies in some
order. -/
theorem runnable_admit (env : Env) (hapart : Apart m.chain.live.utxo m.pool) (hwithin : m.pool.Within)
    (hstays : ∀ vetted, m.chain.vetUtxo tx = .ok vetted → ∀ q, ¬ m.Evicted tx vetted q) (h : m.Runnable) :
    (admitUtxoToMempool env tx m).1.Runnable := by
  cases hvet : m.chain.vetUtxo tx with
  | error e =>
      rcases m.admit_cases env tx with ⟨e', -, hrun⟩ | ⟨vetted, hok, -⟩
      · rw [hrun]
        exact h
      · rw [hvet] at hok
        cases hok
  | ok vetted =>
      have hupto := (admit_pool env tx m).1
      obtain ⟨applied, hperm, hrun⟩ := without_run hapart h hvet
      rw [Runnable, hupto.live, hupto.core.selectedTipBlueScore]
      rcases admit_perm env hwithin hvet (hstays vetted hvet) with hpool | hpool
      · exact ⟨applied, _, hperm.trans hpool.symm, hrun⟩
      · obtain ⟨s, fee, happly⟩ := (ChainState.vetUtxo_ok hvet).applies
        refine ⟨applied ++ [tx], s, (hperm.append_right [tx]).trans hpool.symm, ?_⟩
        rw [List.foldlM_append, hrun, Option.bind_eq_bind, Option.bind_some, List.foldlM_cons,
          UtxoTx.attempt_eq_some.mpr ⟨fee, happly⟩]
        rfl

/-- With room for everybody nobody is evicted. -/
theorem not_evicted {vetted : VettedUtxo} (hvet : m.chain.vetUtxo tx = .ok vetted)
    (hbytes : UtxoPool.sumBytes m.pool + tx.relayBytes ≤ maxMempoolBytes) (hcount : m.pool.length < maxMempoolSize)
    (q : UtxoTx) : ¬ m.Evicted tx vetted q := by
  intro hevicted
  have hremoved := removeAll_conflicts hvet
  have hsub := UtxoPool.without_sublist m.pool vetted.conflictIdxs
  have hfits : UtxoPool.sumBytes (m.removeAll vetted.conflictIdxs).pool + tx.relayBytes ≤ maxMempoolBytes := by
    rw [hremoved]
    exact (Nat.add_le_add_right (UtxoPool.sumBytes_sublist hsub) _).trans hbytes
  have hcleared : (m.cleared tx vetted).pool = m.pool.without vetted.conflictIdxs := by
    rw [cleared, trimmed, if_neg (Nat.not_lt.mpr hfits), hremoved]
  have hthinned : (m.cleared tx vetted).thinned = m.cleared tx vetted := by
    rw [thinned, if_neg]
    rw [hcleared]
    exact Nat.not_le.mpr (hsub.length_le.trans_lt hcount)
  have hstays : q ∈ (m.cleared tx vetted).pool := hcleared ▸ hevicted.kept
  rcases hevicted.gone with hgone | ⟨-, hgone⟩
  · exact hgone hstays
  · exact hgone (hthinned.symm ▸ hstays)

/-- No submission of a run evicts a queued spend to make room. -/
def EvictsNobody (m : Mempool) (calls : List (Env × UtxoTx)) : Prop :=
  ∀ pre call, pre ++ [call] <+: calls → ∀ vetted, (m.run (submissions pre)).chain.vetUtxo call.2 = .ok vetted →
    ∀ q, ¬ (m.run (submissions pre)).Evicted call.2 vetted q

/-- The queue is no longer and no heavier than the submissions. -/
theorem run_size (hempty : m.pool = []) (calls : List (Env × UtxoTx)) :
    (m.run (submissions calls)).pool.length ≤ calls.length ∧
      UtxoPool.sumBytes (m.run (submissions calls)).pool ≤ UtxoPool.sumBytes (calls.map Prod.snd) := by
  induction calls using List.reverseRecOn with
  | nil =>
      change m.pool.length ≤ 0 ∧ UtxoPool.sumBytes m.pool ≤ 0
      rw [hempty]
      exact ⟨Nat.le_refl _, Nat.le_refl _⟩
  | append_singleton calls call ih =>
      obtain ⟨hlength, hbytes⟩ := ih
      rw [run_submissions_concat, List.map_append, UtxoPool.sumBytes_append, List.length_append]
      obtain ⟨-, hsub | ⟨vetted, -, kept, hpool, hkept, -, -⟩⟩ := admit_pool call.1 call.2 (m.run (submissions calls))
      · exact ⟨(hsub.length_le.trans hlength).trans (Nat.le_add_right _ _),
          ((UtxoPool.sumBytes_sublist hsub).trans hbytes).trans (Nat.le_add_right _ _)⟩
      · have hstays := hkept.trans (UtxoPool.without_sublist _ _)
        rw [hpool, List.length_append, UtxoPool.sumBytes_append]
        exact ⟨Nat.add_le_add_right (hstays.length_le.trans hlength) _,
          Nat.add_le_add_right ((UtxoPool.sumBytes_sublist hstays).trans hbytes) _⟩

/-- Submissions that fit the queue together evict nobody. -/
theorem evictsNobody_of_size (hempty : m.pool = []) {calls : List (Env × UtxoTx)}
    (hcount : calls.length ≤ maxMempoolSize) (hbytes : UtxoPool.sumBytes (calls.map Prod.snd) ≤ maxMempoolBytes) :
    m.EvictsNobody calls := by
  intro pre call hpre vetted hvet q
  obtain ⟨hlength, hsum⟩ := run_size hempty pre
  have hshort := hpre.length_le
  have hlight := UtxoPool.sumBytes_sublist (hpre.sublist.map Prod.snd)
  rw [List.map_append, UtxoPool.sumBytes_append, List.map_singleton] at hlight
  rw [List.length_append, List.length_singleton] at hshort
  have hone : UtxoPool.sumBytes [call.2] = call.2.relayBytes := by
    rw [UtxoPool.sumBytes, List.map_singleton, List.sum_singleton]
  exact not_evicted hvet (by omega) (by omega) q

/-- **Run.** Submissions that evict nobody leave a queue that applies in some order. -/
theorem run_runnable (hempty : m.pool = []) {calls : List (Env × UtxoTx)} (hhashes : HashApart submitted)
    (hsourced : Sourced submitted m.chain.live.utxo) (hcalls : ∀ call ∈ calls, call.2 ∈ submitted)
    (hstays : m.EvictsNobody calls) : (m.run (submissions calls)).Runnable := by
  induction calls using List.reverseRecOn with
  | nil => exact ⟨[], _, hempty ▸ List.Perm.refl [], rfl⟩
  | append_singleton calls call ih =>
      have hbefore : ∀ c ∈ calls, c.2 ∈ submitted := fun c hc => hcalls c (List.mem_append_left _ hc)
      have hwithin := run_within hempty calls
      have hmeasured := run_measured hempty hhashes hsourced hbefore
      rw [← (run_submissions_chain m calls).live] at hmeasured
      rw [run_submissions_concat]
      refine runnable_admit call.1 (apart_of_measured hhashes hwithin hmeasured) hwithin
        (hstays calls call (List.prefix_refl _)) (ih hbefore fun pre c hpre => ?_)
      exact hstays pre c (hpre.trans (List.prefix_append calls [call]))

end Runs

end Mempool

/-! ### A child that pays for its parent -/

namespace Sample

/-- A spend of the first coin that pays the least it can. -/
def thrifty : UtxoTx := padded (spot 0) 1 0 1093365 7635

/-- A spend of what it creates, which pays for both. -/
def payer : UtxoTx := padded ⟨thrifty.txHash, 0⟩ 2 0 993365 100000

/-- The cheap spend applies to the live set. -/
theorem thrifty_applies : ∃ s, applyUtxoTx start.chain.live.utxo start.chain.live.accounts thrifty
    start.chain.selectedTipBlueScore = (s, .ok 7635) := by
  have hdust : utxoDust = 546 := rfl
  have hheld : start.chain.live.utxo.Holds (spot 0) ⟨1093365 + 7635, .payToAddress (Address.ofPubkey minerKey), 0⟩ :=
    minted_holds (by omega)
  exact padded_applies hheld (fun h => by rw [spot_isCoinbase (by omega)] at h; cases h) (by omega) (by omega)
    (by decide)

theorem admit_thrifty : Mempool.admitUtxoToMempool env thrifty start = (start.queued env thrifty, .ok ()) := by
  have hbudget : maxMempoolBytes = 33554432 := rfl
  have hlimit : maxUtxoPackageBytes = 524288 := rfl
  have hplaces : maxMempoolSize = 10000 := rfl
  have hdust : utxoDust = 546 := rfl
  have hsize : thrifty.relayBytes ≤ 7635 + 0 := relayBytes_padded.2
  have hempty : UtxoPool.sumBytes start.pool = 0 ∧ start.pool.length = 0 := ⟨rfl, rfl⟩
  obtain ⟨s, happlies⟩ := thrifty_applies
  refine Mempool.admit_unrelated env (padded_submittable rfl (by omega) (by omega) (by omega)) ?_ happlies
    (by omega) (by omega)
  exact ⟨fun _ hq => absurd hq List.not_mem_nil, fun _ hq => absurd hq List.not_mem_nil,
    fun _ hq => absurd hq List.not_mem_nil⟩

/-- The queue with the cheap spend, and what its preview holds of the output that the
other one takes. -/
theorem thrifty_preview : (start.queued env thrifty).chain = { start.chain with utxoMempool := [thrifty] } ∧
    ((start.queued env thrifty).chain.utxoMempoolPreview []).1.Holds ⟨thrifty.txHash, 0⟩
      ⟨993365 + 100000, .payToAddress (Address.ofPubkey minerKey), start.chain.selectedTipBlueScore⟩ := by
  have hchain : (start.queued env thrifty).chain = { start.chain with utxoMempool := [thrifty] } :=
    Mempool.queued_chain start env thrifty
  refine ⟨hchain, ?_⟩
  obtain ⟨s, happlies⟩ := thrifty_applies
  have hone : ((start.queued env thrifty).chain.utxoMempoolPreview []) = s := by
    have hattempt : UtxoTx.attempt start.chain.selectedTipBlueScore
        (start.chain.live.utxo, start.chain.live.accounts) thrifty = some s :=
      UtxoTx.attempt_eq_some.mpr ⟨_, happlies⟩
    have hpending : UtxoPool.without [thrifty] [] = [thrifty] := UtxoPool.without_nil [thrifty]
    rw [ChainState.utxoMempoolPreview, hchain]
    simp only [hpending, List.length_singleton]
    exact retry_singleton hattempt 1
  have hcreated : (⟨thrifty.txHash, 0⟩ : OutPoint) ∈ thrifty.created :=
    UtxoTx.mem_created_iff.mpr ⟨_, ⟨List.mem_cons_self, rfl⟩, rfl⟩
  have hfree := applied_created happlies hcreated
  rcases applied_output happlies hfree.1 with ⟨-, hcontent⟩ | ⟨hother, -⟩
  · rw [hone]
    exact ⟨hcontent, hfree.2⟩
  · exact absurd hcreated hother

theorem admit_payer : Mempool.admitUtxoToMempool env payer (start.queued env thrifty)
    = ((start.queued env thrifty).queued env payer, .ok ()) := by
  have hbudget : maxMempoolBytes = 33554432 := rfl
  have hlimit : maxUtxoPackageBytes = 524288 := rfl
  have hplaces : maxMempoolSize = 10000 := rfl
  have hmembers : maxUtxoPackageCount = 25 := rfl
  have hdust : utxoDust = 546 := rfl
  have hsize : thrifty.relayBytes ≤ 7635 + 0 := relayBytes_padded.2
  have hsize' : payer.relayBytes ≤ 7635 + 0 := relayBytes_padded.2
  obtain ⟨hchain, hheld⟩ := thrifty_preview
  have hpool : (start.queued env thrifty).pool = [thrifty] := Mempool.queued_pool _ _ _
  have hmempool : (start.queued env thrifty).chain.utxoMempool = [thrifty] := hpool
  have hbytes : UtxoPool.sumBytes [thrifty] = thrifty.relayBytes := by
    rw [UtxoPool.sumBytes, List.map_singleton, List.sum_singleton]
  have hplain : (⟨thrifty.txHash, 0⟩ : OutPoint).isCoinbase ≠ true := by
    rw [OutPoint.isCoinbase]
    decide
  obtain ⟨s, happlies⟩ := @padded_applies _ 2 0 _ _ _ ((start.queued env thrifty).chain.utxoMempoolPreview []).2
    (start.queued env thrifty).chain.selectedTipBlueScore _ hheld (fun h => absurd h hplain) (by omega) (by omega)
    (by decide)
  have hconflicts : UtxoPool.conflictIdxs (start.queued env thrifty).chain.utxoMempool payer = [] := by
    refine conflictIdxs_eq_nil fun q hq => ?_
    rw [hmempool] at hq
    rw [List.mem_singleton.mp hq, ← Bool.not_eq_true, UtxoPool.conflicts_eq_true]
    rintro ⟨tin, htin, tin', htin', heq⟩
    rw [List.mem_singleton.mp htin, List.mem_singleton.mp htin'] at heq
    exact txHash_ne_mintId thrifty (congrArg OutPoint.txid heq)
  -- the queued parent is the only ancestor
  have hparent : ∀ tx, UtxoPool.directParents [thrifty] tx []
      = if UtxoPool.spendsFrom [thrifty.txHash] tx then [0] else [] := by
    intro tx
    cases h : UtxoPool.spendsFrom [thrifty.txHash] tx <;> simp [UtxoPool.directParents, UtxoPool.indicesOf, h]
  have hspends : UtxoPool.spendsFrom [thrifty.txHash] payer = true :=
    UtxoPool.spendsFrom_eq_true.mpr ⟨_, List.mem_cons_self, List.mem_cons_self⟩
  have hroot : UtxoPool.spendsFrom [thrifty.txHash] thrifty = false := by
    rw [← Bool.not_eq_true, UtxoPool.spendsFrom_eq_true]
    rintro ⟨tin, htin, hid⟩
    rw [List.mem_singleton.mp htin] at hid
    exact txHash_ne_mintId thrifty (List.mem_singleton.mp hid)
  have hancestors : UtxoPool.ancestorIdxs (start.queued env thrifty).chain.utxoMempool payer [] = [0] := by
    rw [hmempool, UtxoPool.ancestorIdxs, hparent, if_pos hspends]
    refine walk_leaf ?_ (by decide)
    rw [UtxoPool.parentsAt]
    simp [hparent, hroot]
  have hpicked : UtxoPool.pick (start.queued env thrifty).chain.utxoMempool [0] = [thrifty] := by
    rw [hmempool]
    rfl
  have hvalid : Submittable (start.queued env thrifty).chain payer :=
    padded_submittable (hchain ▸ rfl) (by omega) (by omega) (by omega)
  have hfresh : ∀ q ∈ (start.queued env thrifty).chain.utxoMempool, q.txid ≠ payer.txid := by
    intro q hq
    rw [hmempool] at hq
    rw [List.mem_singleton.mp hq]
    exact spendInto_txid_ne (by omega) (by omega) (by omega)
  refine Mempool.admit_vetted env (vetUtxo_eq hvalid hfresh hconflicts happlies hancestors (by decide) ?_ rfl) ?_ ?_
  · rw [hpicked, hbytes]
    omega
  · rw [hpool, hbytes]
    omega
  · rw [hpool, List.length_singleton]
    omega

/-- No output of a spend is live there. -/
theorem start_sourced (submitted : List UtxoTx) : Sourced submitted start.chain.live.utxo :=
  fun tx _ _ hknown => absurd hknown (not_known_minted tx)

end Sample

end HassanNode
