import Mathlib
import HassanNode.Ledger.Form
import HassanNode.Consensus.MempoolRuns

/-!
# HassanNode.Consensus.Replacement

What a replacement pays. A submission that shares an input with queued spends replaces
them and whatever spends from them (`Replaced`), and the rounds of the call find just
these (`mem_conflictIdxs_iff`). When the call succeeds they are gone, the submission
applied without them, and it pays their fees with the minimum on top, at a better
rate (`Mempool.replacement_pays_iff`). The fees are added up in 128 bits, so this
needs their sum to fit, as it does where all coins together fit.
-/

namespace HassanNode

open Std (ExtTreeMap ExtTreeSet)
open Params

namespace UtxoPool

variable [Crypto] {pool : UtxoPool} {tx t : UtxoTx} {i : Nat}

/-- What a submission replaces: the queued spends that share an input with it, and
those that spend an output of one that it replaces. -/
inductive Replaced (pool : UtxoPool) (tx : UtxoTx) : UtxoTx → Prop
  | conflict {q : UtxoTx} (hq : q ∈ pool) (h : conflicts tx q = true) : Replaced pool tx q
  | child {p q : UtxoTx} (hp : Replaced pool tx p) (hq : q ∈ pool) (h : spendsFrom [p.txHash] q = true) :
      Replaced pool tx q

theorem Replaced.mem (h : Replaced pool tx t) : t ∈ pool := by
  cases h with
  | conflict hq => exact hq
  | child _ hq => exact hq

/-- **The rounds find what is replaced**, all of it and nothing else. -/
theorem mem_conflictIdxs_iff : i ∈ pool.conflictIdxs tx ↔ ∃ t, pool[i]? = some t ∧ Replaced pool tx t := by
  constructor
  · have hfound : ∀ j ∈ pool.conflictIdxs tx, ∃ t, pool[j]? = some t ∧ Replaced pool tx t := by
      refine Worklist.passes_induction (fun found j hsound _ hcalls => ?_) fun j hj => ?_
      · -- it spends from one of those found before
        obtain ⟨t, ht⟩ : ∃ t, pool[j]? = some t := by
          by_contra hnone
          rw [not_exists] at hnone
          rw [Option.eq_none_iff_forall_ne_some.mpr hnone] at hcalls
          cases hcalls
        rw [ht] at hcalls
        obtain ⟨tin, htin, hid⟩ := spendsFrom_eq_true.mp hcalls
        obtain ⟨p, hp, hname⟩ := List.mem_map.mp hid
        obtain ⟨k, hk, hget⟩ := mem_pick.mp hp
        obtain ⟨p', hp', hreplaced⟩ := hsound k hk
        obtain rfl := Option.some.inj (hget.symm.trans hp')
        exact ⟨t, ht, .child hreplaced (List.mem_of_getElem? ht)
          (spendsFrom_eq_true.mpr ⟨tin, htin, List.mem_singleton.mpr hname.symm⟩)⟩
      · obtain ⟨t, ht, hconflict⟩ := mem_indicesOf.mp hj
        exact ⟨t, ht, .conflict (List.mem_of_getElem? ht) hconflict⟩
    exact hfound i
  · rintro ⟨t, ht, hreplaced⟩
    induction hreplaced generalizing i with
    | conflict hq h => exact mem_conflictIdxs_of_conflicts ht h
    | child hp hq h ih =>
        obtain ⟨k, hk⟩ := List.mem_iff_getElem?.mp hp.mem
        exact mem_conflictIdxs_of_spends (mem_pick.mpr ⟨k, ih hk, hk⟩) ht h

omit [Crypto] in
theorem filterMap_range (pool : UtxoPool) : (List.range pool.length).filterMap (pool[·]?) = pool := by
  have hall : (List.range pool.length).map (pool[·]?) = pool.map some := by
    refine List.ext_getElem (by simp) fun i hi hi' => ?_
    have hlt : i < pool.length := by simpa using hi
    simp [hlt]
  have hid : (List.range pool.length).filterMap (pool[·]?)
      = ((List.range pool.length).map (pool[·]?)).filterMap id := by
    rw [List.filterMap_map]
    rfl
  rw [hid, hall, List.filterMap_map]
  exact List.filterMap_some

omit [Crypto] in
/-- Picking the indices that pass a test is filtering. -/
theorem pick_indicesOf (pool : UtxoPool) (test : UtxoTx → Bool) : pool.pick (pool.indicesOf test) = pool.filter test := by
  have hpoint : ∀ i : Nat, (if (pool[i]?.map test).getD false = true then pool[i]? else none) = pool[i]?.filter test := by
    intro i
    cases pool[i]? with
    | none => rfl
    | some t =>
        rw [Option.map_some, Option.getD_some, Option.filter_some]
  rw [pick, indicesOf, List.filterMap_filter]
  simp only [hpoint]
  rw [← List.filter_filterMap, filterMap_range]

open Classical in
/-- The replaced spends, as often as they are queued. -/
noncomputable def replaced (pool : UtxoPool) (tx : UtxoTx) : List UtxoTx := pool.filter fun q => Replaced pool tx q

theorem pick_conflictIdxs (pool : UtxoPool) (tx : UtxoTx) :
    (pool.pick (pool.conflictIdxs tx)).Perm (pool.replaced tx) := by
  classical
  have hsame : (pool.conflictIdxs tx).Perm (pool.indicesOf fun q => decide (Replaced pool tx q)) := by
    refine (List.perm_ext_iff_of_nodup (nodup_conflictIdxs pool tx) (nodup_indicesOf pool _)).mpr fun i => ?_
    simp only [mem_conflictIdxs_iff, mem_indicesOf, decide_eq_true_eq]
  have hpick := hsame.filterMap (pool[·]?)
  have hfilter := pick_indicesOf pool fun q => decide (Replaced pool tx q)
  rw [pick] at hfilter ⊢
  rw [hfilter] at hpick
  convert hpick using 1
  unfold replaced
  congr

/-! ### Sums -/

/-- The sum of the fees, in full. -/
def totalFees (txs : List UtxoTx) : Nat := (txs.map UtxoTx.fee).sum

omit [Crypto] in
/-- The call's sum is the sum modulo 2^128. -/
theorem sumFees_eq (txs : List UtxoTx) : sumFees txs = totalFees txs % 2 ^ 128 := by
  have hfold : ∀ sum, txs.foldl (fun sum tx => wrapAdd128 sum tx.fee) sum % 2 ^ 128
      = (sum + totalFees txs) % 2 ^ 128 := by
    induction txs with
    | nil => exact fun sum => rfl
    | cons tx txs ih =>
        intro sum
        rw [List.foldl_cons, ih, wrapAdd128, totalFees, totalFees, List.map_cons, List.sum_cons, Nat.mod_add_mod,
          Nat.add_assoc]
  have hlt : sumFees txs < 2 ^ 128 := by
    cases txs using List.reverseRecOn with
    | nil => exact Nat.two_pow_pos 128
    | append_singleton txs tx =>
        rw [sumFees, List.foldl_append]
        exact Nat.mod_lt _ (Nat.two_pow_pos 128)
  have hzero := hfold 0
  rw [← sumFees, Nat.zero_add, Nat.mod_eq_of_lt hlt] at hzero
  exact hzero

omit [Crypto] in
theorem sumFees_perm {xs ys : List UtxoTx} (h : xs.Perm ys) : sumFees xs = sumFees ys := by
  rw [sumFees_eq, sumFees_eq, totalFees, totalFees, (h.map UtxoTx.fee).sum_eq]

omit [Crypto] in
theorem sumRated_perm {xs ys : List UtxoTx} (h : xs.Perm ys) : sumRated xs = sumRated ys := (h.map _).sum_eq

end UtxoPool

/-! ### The rule -/

section Rule

variable [Crypto] {st : ChainState} {tx : UtxoTx} {vetted : VettedUtxo}

/-- A submission with conflicts that passed the tests outbids them. -/
theorem ChainState.vetUtxo_outbids (h : st.vetUtxo tx = .ok vetted) (hne : vetted.conflictIdxs ≠ []) :
    UtxoPool.outbids st.utxoMempool tx vetted.conflictIdxs = true := by
  obtain ⟨-, h⟩ := Except.seq_eq_ok h
  obtain ⟨-, h⟩ := Except.seq_eq_ok h
  obtain ⟨-, h⟩ := Except.seq_eq_ok h
  obtain ⟨-, h⟩ := Except.seq_eq_ok h
  obtain ⟨-, -, h⟩ := Except.bind_eq_ok h
  obtain ⟨-, h⟩ := Except.seq_eq_ok h
  obtain ⟨-, h⟩ := Except.seq_eq_ok h
  obtain ⟨hbid, h⟩ := Except.seq_eq_ok h
  obtain rfl := Except.ok.inj h
  rw [ensure_eq_ok, Bool.or_eq_true, List.isEmpty_iff] at hbid
  exact hbid.resolve_left hne

omit [Crypto] in
/-- Fee and outputs fit 128 bits when there are outputs to add. -/
theorem sumOutputs_le {outputs : List TxOut} {sum total : Nat} (h : sumOutputs outputs sum = .ok total)
    (hne : outputs ≠ []) : total ≤ u128Max := by
  induction outputs generalizing sum with
  | nil => exact absurd rfl hne
  | cons out rest ih =>
      simp only [sumOutputs] at h
      split at h
      · cases h
      · rename_i sum' hsum
        obtain ⟨hfits, rfl⟩ := checkedAdd128_eq_some.mp hsum
        cases rest with
        | nil =>
            obtain rfl := Except.ok.inj h
            exact hfits
        | cons next rest => exact ih h (List.cons_ne_nil next rest)

omit [Crypto] in
theorem UtxoTx.validateForm_nonempty (h : tx.validateForm = .ok ()) : tx.outputs ≠ [] := by
  unfold UtxoTx.validateForm at h
  split at h
  · cases h
  · split at h
    · cases h
    · assumption

/-- A spend that applies leaves room for an output beside its fee. -/
theorem fee_lt_of_applies {u : UtxoSet} {accounts : Accounts} {mediaBlue fee : Nat} {s : UtxoSet × Accounts}
    (h : applyUtxoTx u accounts tx mediaBlue = (s, .ok fee)) : tx.fee < u128Max := by
  have hcheck : checkUtxoTx u tx mediaBlue = .ok () := by
    unfold applyUtxoTx at h
    split at h
    · cases (Prod.mk.inj h).2
    · assumption
  obtain ⟨⟨⟩, hform, hrest⟩ := Except.bind_eq_ok hcheck
  split at hrest
  · cases hrest
  · split at hrest
    · cases hrest
    · obtain ⟨inputSum, -, hrest⟩ := Except.bind_eq_ok hrest
      obtain ⟨total, htotal, -⟩ := Except.bind_eq_ok hrest
      obtain ⟨out, rest, houts⟩ := List.exists_cons_of_ne_nil (UtxoTx.validateForm_nonempty hform)
      have hpos : out.value ≠ 0 := by
        intro hzero
        have hout := UtxoTx.validateForm_outputs hform out (houts ▸ List.mem_cons_self)
        rw [UtxoTx.validateOutput, if_pos hzero] at hout
        cases hout
      have hle := sumOutputs_le htotal (UtxoTx.validateForm_nonempty hform)
      have hsum := sumOutputs_ok htotal
      rw [houts, List.map_cons, List.sum_cons] at hsum
      omega

/-! ### What a replacement pays -/

/-- **A replacement pays for what it removes**: what it replaces is gone, its fee covers
their fees and the minimum, its rate is better than theirs together, and its inputs are
there without them. -/
structure ReplacementPays (m : Mempool) (tx : UtxoTx) (m' : Mempool) : Prop where
  gone : ∀ t, UtxoPool.Replaced m.pool tx t → t ∉ m'.pool
  fee : UtxoPool.totalFees (UtxoPool.replaced m.pool tx) + minTxFee ≤ tx.fee
  rate : UtxoPool.totalFees (UtxoPool.replaced m.pool tx) / max (UtxoPool.sumRated (UtxoPool.replaced m.pool tx)) 1
    < tx.fee / max tx.relayBytes 1
  available : ∀ op, tx.Takes op →
    m.chain.live.utxo.Free op ∨ ∃ q ∈ m.pool, ¬ UtxoPool.Replaced m.pool tx q ∧ op ∈ q.created

namespace Mempool

variable {m : Mempool}

/-- What stays after the removals is not replaced. -/
theorem mem_without_iff {t : UtxoTx} : t ∈ m.pool.without (m.pool.conflictIdxs tx) ↔
    t ∈ m.pool ∧ ¬ UtxoPool.Replaced m.pool tx t := by
  rw [UtxoPool.mem_without]
  constructor
  · rintro ⟨i, hi, hget⟩
    refine ⟨List.mem_of_getElem? hget, fun hreplaced => hi ?_⟩
    exact UtxoPool.mem_conflictIdxs_iff.mpr ⟨t, hget, hreplaced⟩
  · rintro ⟨hmem, hstays⟩
    obtain ⟨i, hget⟩ := List.mem_iff_getElem?.mp hmem
    refine ⟨i, fun hi => hstays ?_, hget⟩
    obtain ⟨t', hget', hreplaced⟩ := UtxoPool.mem_conflictIdxs_iff.mp hi
    obtain rfl := Option.some.inj (hget.symm.trans hget')
    exact hreplaced

/-- **A replacement pays for everything it removes**, in an admission that succeeds, if
and only if the fees that it replaces add up within 128 bits. -/
theorem replacement_pays_iff (env : Env) (tx : UtxoTx) (m : Mempool)
    (hok : (admitUtxoToMempool env tx m).2 = .ok ()) (hconflict : ∃ q ∈ m.pool, UtxoPool.conflicts tx q = true) :
    ReplacementPays m tx (admitUtxoToMempool env tx m).1 ↔
      UtxoPool.totalFees (UtxoPool.replaced m.pool tx) < 2 ^ 128 := by
  obtain ⟨vetted, hvet⟩ : ∃ vetted, m.chain.vetUtxo tx = .ok vetted := by
    rcases m.admit_cases env tx with ⟨e, -, hrun⟩ | ⟨vetted, hvet, -⟩
    · rw [hrun] at hok
      cases hok
    · exact ⟨vetted, hvet⟩
  have hvetted := ChainState.vetUtxo_ok hvet
  obtain ⟨s, fee, happly⟩ := hvetted.applies
  have hidxs : vetted.conflictIdxs = UtxoPool.conflictIdxs m.pool tx := hvetted.conflictIdxs
  have hlt : tx.fee < u128Max := fee_lt_of_applies happly
  constructor
  · intro hpays
    have hmax : u128Max = 2 ^ 128 - 1 := rfl
    have := hpays.fee
    omega
  · intro hfits
    have hne : vetted.conflictIdxs ≠ [] := by
      obtain ⟨q, hq, hqconflict⟩ := hconflict
      obtain ⟨i, hi⟩ := List.mem_iff_getElem?.mp hq
      rw [hidxs]
      exact List.ne_nil_of_mem (UtxoPool.mem_conflictIdxs_of_conflicts hi hqconflict)
    have hbids := ChainState.vetUtxo_outbids hvet hne
    have hpick := UtxoPool.pick_conflictIdxs m.pool tx
    have hfees : UtxoPool.sumFees (UtxoPool.pick m.chain.utxoMempool vetted.conflictIdxs)
        = UtxoPool.totalFees (UtxoPool.replaced m.pool tx) := by
      rw [hidxs]
      exact (UtxoPool.sumFees_perm hpick).trans ((UtxoPool.sumFees_eq _).trans (Nat.mod_eq_of_lt hfits))
    have hsizes : UtxoPool.sumRated (UtxoPool.pick m.chain.utxoMempool vetted.conflictIdxs)
        = UtxoPool.sumRated (UtxoPool.replaced m.pool tx) := by
      rw [hidxs]
      exact UtxoPool.sumRated_perm hpick
    rw [UtxoPool.outbids, hfees, hsizes, Bool.not_eq_true', Bool.or_eq_false_iff, decide_eq_false_iff_not,
      decide_eq_false_iff_not, not_lt, not_le] at hbids
    refine ⟨fun t hreplaced hmem => ?_, ?_, hbids.2, fun op htakes => ?_⟩
    · rcases (mem_admit_pool env hvet t).mp hmem with ⟨hkept, -⟩ | ⟨rfl, -⟩
      · rw [hidxs] at hkept
        exact (mem_without_iff.mp hkept).2 hreplaced
      · exact hvetted.fresh t hreplaced.mem rfl
    · -- the sum did not saturate
      have hbid := hbids.1
      rw [satAdd128] at hbid
      omega
    · obtain ⟨applied, happlied, hsources⟩ := preview_sources m.chain vetted.conflictIdxs
      obtain ⟨tin, htin, hprevious⟩ := List.mem_map.mp htakes
      have hinput := applied_inputs happly tin htin
      rw [hprevious] at hinput
      by_cases hcreated : ∃ q ∈ applied, op ∈ q.created
      · obtain ⟨q, hq, hcreated⟩ := hcreated
        have hkept := happlied q hq
        rw [hidxs] at hkept
        obtain ⟨hmem, hstays⟩ := mem_without_iff.mp hkept
        exact Or.inr ⟨q, hmem, hstays, hcreated⟩
      · exact Or.inl (hsources.moves.free_of hinput hcreated)

end Mempool

end Rule

namespace Sample

/-! ### A bid for the first coin -/

/-- A queued spend of the first coin. -/
def SpendsFirst (q : UtxoTx) : Prop := ∃ tag < 1000, ∃ size value fee, q = coinSpend (spot 0) tag size value fee

variable {m : Mempool}

/-- The higher bid shares its coin with them. -/
theorem conflicts_high {q : UtxoTx} (hq : SpendsFirst q) : UtxoPool.conflicts high q = true := by
  obtain ⟨tag, -, size, value, fee, rfl⟩ := hq
  exact UtxoPool.conflicts_eq_true.mpr ⟨⟨spot 0, 0, .signature⟩, List.mem_singleton_self _,
    ⟨spot 0, 0, .signature⟩, List.mem_singleton_self _, rfl⟩

theorem high_replaces (hfirst : ∀ q ∈ m.pool, SpendsFirst q) : UtxoPool.replaced m.pool high = m.pool := by
  classical
  exact List.filter_eq_self.mpr fun q hq => decide_eq_true (.conflict hq (conflicts_high (hfirst q hq)))

/-- It takes their place when it outbids them. -/
theorem admits_high (hchain : m.chain = { start.chain with utxoMempool := m.pool })
    (hfirst : ∀ q ∈ m.pool, SpendsFirst q)
    (hbid : UtxoPool.outbids m.pool high (UtxoPool.conflictIdxs m.pool high) = true) :
    (Mempool.admitUtxoToMempool env high m).2 = .ok () := by
  have hdust : utxoDust = 546 := rfl
  have hlive : m.chain.live.utxo = minted 67 := by rw [hchain]; rfl
  have hnobody : UtxoPool.without m.pool (UtxoPool.conflictIdxs m.pool high) = [] := by
    refine List.eq_nil_iff_forall_not_mem.mpr fun q hq => ?_
    obtain ⟨hmem, hstays⟩ := Mempool.mem_without_iff.mp hq
    exact hstays (.conflict hmem (conflicts_high (hfirst q hmem)))
  have hheld : (m.chain.utxoMempoolPreview (UtxoPool.conflictIdxs m.pool high)).1.Holds (spot 0) worth := by
    refine preview_spot (by omega) hlive fun q hq => ?_
    rw [show m.chain.utxoMempool = m.pool from rfl, hnobody] at hq
    cases hq
  obtain ⟨s, happlies⟩ := @coinSpend_applies (spot 0) 1000 30000 1021000 80000 _
    (m.chain.utxoMempoolPreview (UtxoPool.conflictIdxs m.pool high)).2 m.chain.selectedTipBlueScore 0 hheld
    (fun h => by rw [spot_isCoinbase (by omega)] at h; cases h) (by omega) (by omega) (by decide)
  have hvet : m.chain.vetUtxo high = .ok ⟨UtxoPool.conflictIdxs m.pool high, soleRate high⟩ := by
    refine vetUtxo_orphan (coinSpend_submittable ?_ (by omega) (by omega) (by decide)) ?_ ?_ rfl happlies ?_
    · rw [hchain]
      rfl
    · intro q hq
      obtain ⟨tag, htag, size, value, fee, rfl⟩ := hfirst q hq
      exact coinSpend_txid_ne (by omega) (by omega) (by omega)
    · exact fun q _ => spendsFrom_coinSpend [q] 0
    · exact Bool.or_eq_true_iff.mpr (Or.inr hbid)
  have hempty : (m.removeAll (UtxoPool.conflictIdxs m.pool high)).pool = [] :=
    (Mempool.removeAll_conflicts hvet).trans hnobody
  rcases m.admit_cases env high with ⟨e, herror, -⟩ | ⟨vetted, hok, hend⟩
  · rw [hvet] at herror
    cases herror
  · obtain rfl := Except.ok.inj (hvet.symm.trans hok)
    rcases hend with ⟨hbig, -⟩ | ⟨-, ⟨hfull, -⟩ | ⟨-, hrun⟩⟩
    · have hsize : high.relayBytes = 37404 := relayBytes_coinSpend
      have hnone : UtxoPool.pick [] (UtxoPool.payers [] (soleRate high)) = [] := rfl
      rw [Mempool.TooBig, hempty, hsize, hnone] at hbig
      exact absurd hbig (by decide)
    · have hsub := Mempool.trimmed_sublist (m.removeAll (UtxoPool.conflictIdxs m.pool high)) high (soleRate high)
      rw [hempty] at hsub
      have hcleared : (m.cleared high ⟨UtxoPool.conflictIdxs m.pool high, soleRate high⟩).pool = [] :=
        List.sublist_nil.mp hsub
      have hnone := hfull.1
      rw [hcleared] at hnone
      exact absurd hnone (by decide)
    · rw [hrun]

/-- The higher bid pays for the small spend that it replaces. -/
theorem high_pays_for_low : ∃ calls : List Mempool.Call, (start.run calls).pool = [low] ∧
    ReplacementPays (start.run calls) high (Mempool.admitUtxoToMempool env high (start.run calls)).1 := by
  obtain ⟨calls, hpool, hchain⟩ := run_crowd (Nat.zero_le 66)
  have hlow : (start.run calls).pool = [low] := hpool
  have hfirst : ∀ q ∈ (start.run calls).pool, SpendsFirst q := by
    intro q hq
    rw [hlow, List.mem_singleton] at hq
    exact ⟨0, by omega, 0, 1093596, 7404, hq⟩
  have hidxs : UtxoPool.conflictIdxs (start.run calls).pool high = [0] := by
    rw [hpool]
    exact high_conflictIdxs (Nat.zero_le 66)
  refine ⟨calls, hlow, (Mempool.replacement_pays_iff env high (start.run calls) ?_ ?_).mpr ?_⟩
  · refine admits_high (by rw [hpool]; exact hchain) hfirst ?_
    rw [hidxs, hlow, UtxoPool.outbids]
    have hsize : low.relayBytes = 7404 := relayBytes_coinSpend
    have hlarge : high.relayBytes = 37404 := relayBytes_coinSpend
    have hpick : UtxoPool.pick [low] [0] = [low] := rfl
    rw [hpick, UtxoPool.sumFees, UtxoPool.sumRated]
    simp only [List.map_cons, List.map_nil, hsize, hlarge, List.foldl_cons, List.foldl_nil]
    decide
  · exact ⟨low, hlow ▸ List.mem_singleton_self low, conflicts_high (hfirst low (hlow ▸ List.mem_singleton_self low))⟩
  · rw [high_replaces hfirst, hlow]
    decide

/-- A queue whose fees add up to 2^128. -/
def overflowing : Mempool where
  chain := { start.chain with
    utxoMempool := [coinSpend (spot 0) 1 0 1000 (2 ^ 128 - 1), coinSpend (spot 0) 2 0 1000 1] }

/-- **Fees that overflow are replaced for nothing.** -/
theorem overflow_unpaid : ¬ ∀ (env : Env) (tx : UtxoTx) (m : Mempool),
    (Mempool.admitUtxoToMempool env tx m).2 = .ok () → (∃ q ∈ m.pool, UtxoPool.conflicts tx q = true) →
      ReplacementPays m tx (Mempool.admitUtxoToMempool env tx m).1 := by
  intro hall
  have hfirst : ∀ q ∈ overflowing.pool, SpendsFirst q := by
    intro q hq
    rcases List.mem_cons.mp hq with rfl | hq
    · exact ⟨1, by omega, 0, 1000, 2 ^ 128 - 1, rfl⟩
    · exact ⟨2, by omega, 0, 1000, 1, List.mem_singleton.mp hq⟩
  have hreplaced := high_replaces hfirst
  have hfees : UtxoPool.totalFees overflowing.pool = 2 ^ 128 := rfl
  have hpick := UtxoPool.pick_conflictIdxs overflowing.pool high
  rw [hreplaced] at hpick
  have hbid : UtxoPool.outbids overflowing.pool high (UtxoPool.conflictIdxs overflowing.pool high) = true := by
    have hlarge : high.relayBytes = 37404 := relayBytes_coinSpend
    rw [UtxoPool.outbids, UtxoPool.sumFees_perm hpick, UtxoPool.sumFees_eq, hfees, hlarge, Nat.mod_self]
    simp only [Nat.zero_div]
    decide
  have hmem : coinSpend (spot 0) 2 0 1000 1 ∈ overflowing.pool := List.mem_cons_of_mem _ (List.mem_singleton_self _)
  have hpays := hall env high overflowing (admits_high rfl hfirst hbid) ⟨_, hmem, conflicts_high (hfirst _ hmem)⟩
  have hfee := hpays.fee
  rw [hreplaced, hfees] at hfee
  exact absurd hfee (by decide)

end Sample

end HassanNode
