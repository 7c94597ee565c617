import Mathlib
import HassanNode.Ledger.Moves
import HassanNode.Consensus.AccountRuns
import HassanNode.Consensus.MempoolLimits

/-!
# HassanNode.Consensus.MempoolRuns

The queue beside the chain. A queue hangs together (`Connected`) when every input of a
queued spend is live or made by another queued spend, and none is spent. Three things
can tear it: a submission that evicts a spend and leaves its child, a block that drops
a spend by its `txid` and leaves the child of a different copy, and a block, or a
reorganisation, that spends or takes away what a queued spend needs. A submission or a
block that does none of this is harmless, and harmless runs keep the queue connected
(`Mempool.queue_connected`). The rest is real: the drop after a block goes by `txid`
alone, so a rival of an included spend stays (`not_connected_of_rival`,
`Sample.rival_stays`).

On an archival node the live ledger is always the node's own replay, and a block that
becomes the selected tip is replayed last, on the ledger its body was tried on
(`ChainState.Archival.replayed`, `ChainState.Archival.replayedAsTried`).
-/

namespace HassanNode

open Std (ExtTreeMap ExtTreeSet)
open Params Bincode

namespace ChainState

section Accept

variable [Crypto] {st : ChainState} {env : Env} {block : Block} {gd : GhostdagData} {sp : Hash}

/-- The queue after a block. -/
theorem accept_utxoMempool (st : ChainState) (env : Env) (block : Block) (gd : GhostdagData) :
    (st.accept env block gd).utxoMempool
      = st.utxoMempool.filter fun tx => !block.utxoTxs.any fun b => b.txid == tx.txid := by
  have horder : ∀ s : ChainState, s.orderMainChain.utxoMempool = s.utxoMempool := by
    intro s
    unfold orderMainChain
    split <;> rfl
  have hhistory : ∀ s : ChainState, s.pruneHistory.utxoMempool = s.utxoMempool := by
    intro s
    unfold pruneHistory
    split
    · rfl
    · split
      · rfl
      · dsimp only
        split
        · rfl
        · split
          · rfl
          · unfold pruneTo
            dsimp only
            split
            · rfl
            · rw [horder]
  have hbodies : ∀ s : ChainState, (s.pruneBodies env).utxoMempool = s.utxoMempool := by
    intro s
    rw [pruneBodies_eq, foldl_pruneBody]
  have hadvanced : ∀ s : ChainState, s.advanceFinalizedBase.utxoMempool = s.utxoMempool := by
    intro s
    rcases s.advanceFinalizedBase_cases with heq | ⟨fp, -, -, -, -, heq⟩
    · rw [heq]
    · rw [heq]
  have hcaptured : ∀ s : ChainState, s.captureBase.utxoMempool = s.utxoMempool := by
    intro s
    unfold captureBase
    split <;> rfl
  rw [accept, hhistory, hbodies]
  change (advanceFinalizedBase _).utxoMempool.filter _ = _
  rw [hadvanced, hcaptured, horder]
  rfl

end Accept

end ChainState

/-! ### Queues that hang together -/

section Queue

variable [Crypto] {named : UtxoTx → Prop} {live : UtxoSet} {pool : UtxoPool}

/-- **What a queue should be** over a live set: every input is a live output or made by
another queued spend, and none is spent already. -/
structure Connected (live : UtxoSet) (pool : UtxoPool) : Prop where
  inputs : ∀ tx ∈ pool, ∀ op, tx.Takes op →
    live.Free op ∨ ∃ parent ∈ pool, parent.txid ≠ tx.txid ∧ op ∈ parent.created
  unspent : ∀ tx ∈ pool, ∀ op, tx.Takes op → op ∉ live.spent

/-- The invariant behind it: moreover the queued spends are well formed, the live set
has none of their outputs, and they are among the spends the run names. -/
structure SoundQueue (named : UtxoTx → Prop) (live : UtxoSet) (pool : UtxoPool) : Prop where
  inputs : ∀ tx ∈ pool, ∀ op, tx.Takes op →
    live.Free op ∨ ∃ parent ∈ pool, parent.txid ≠ tx.txid ∧ op ∈ parent.created
  fresh : ∀ tx ∈ pool, ¬ live.Known tx.txHash
  form : ∀ tx ∈ pool, tx.validateForm = .ok ()
  named : ∀ tx ∈ pool, named tx

theorem SoundQueue.connected (h : SoundQueue named live pool) : Connected live pool where
  inputs := h.inputs
  unspent tx htx op hop hspent := by
    rcases h.inputs tx htx op hop with hfree | ⟨parent, hparent, -, hcreated⟩
    · exact hfree.2 hspent
    · exact h.fresh parent hparent ⟨op, UtxoTx.txid_of_mem_created hcreated, Or.inr hspent⟩

end Queue

/-! ### Submissions -/

namespace Mempool

section Submit

variable [Crypto] {m : Mempool} {env : Env} {tx : UtxoTx} {vetted : VettedUtxo} {named : UtxoTx → Prop}

/-- Who leaves to make room: spends that stay when the submission's conflicts are gone,
and fall to the byte budget or to the count limit. -/
structure Evicted (m : Mempool) (tx : UtxoTx) (vetted : VettedUtxo) (q : UtxoTx) : Prop where
  kept : q ∈ m.pool.without vetted.conflictIdxs
  fits : ¬ (m.removeAll vetted.conflictIdxs).TooBig tx vetted.packageRate
  gone : q ∉ (m.cleared tx vetted).pool ∨
    ¬ (m.cleared tx vetted).Full tx vetted.packageRate ∧ q ∉ (m.cleared tx vetted).thinned.pool

/-- There is room for the submission, which passed the tests. -/
structure HasRoom (m : Mempool) (tx : UtxoTx) (vetted : VettedUtxo) : Prop where
  bytes : ¬ (m.removeAll vetted.conflictIdxs).TooBig tx vetted.packageRate
  count : ¬ (m.cleared tx vetted).Full tx vetted.packageRate

theorem removeAll_conflicts (hvet : m.chain.vetUtxo tx = .ok vetted) :
    (m.removeAll vetted.conflictIdxs).pool = m.pool.without vetted.conflictIdxs := by
  rw [(ChainState.vetUtxo_ok hvet).conflictIdxs]
  exact removeAll_pool (UtxoPool.nodup_conflictIdxs _ _) fun i hi => UtxoPool.lt_of_mem_conflictIdxs hi

/-- **Who is queued after a submission that passed the tests**: who was neither a
conflict nor evicted, and the submission if there was room. -/
theorem mem_admit_pool (env : Env) (hvet : m.chain.vetUtxo tx = .ok vetted) (t : UtxoTx) :
    t ∈ (admitUtxoToMempool env tx m).1.pool ↔
      t ∈ m.pool.without vetted.conflictIdxs ∧ ¬ m.Evicted tx vetted t ∨ t = tx ∧ m.HasRoom tx vetted := by
  have hremoved := removeAll_conflicts hvet
  have hcleared : ∀ t ∈ (m.cleared tx vetted).pool, t ∈ m.pool.without vetted.conflictIdxs := fun t ht =>
    hremoved ▸ (trimmed_sublist (m.removeAll vetted.conflictIdxs) tx vetted.packageRate).subset ht
  have hthinned : ∀ t ∈ (m.cleared tx vetted).thinned.pool, t ∈ (m.cleared tx vetted).pool := fun t ht =>
    (thinned_sublist _).subset ht
  rcases m.admit_cases env tx with ⟨e, herror, -⟩ | ⟨vetted', hok, hend⟩
  · rw [hvet] at herror
    cases herror
  · obtain rfl := Except.ok.inj (hvet.symm.trans hok)
    rcases hend with ⟨hbig, hrun⟩ | ⟨hroom, ⟨hfull, hrun⟩ | ⟨hfree, hrun⟩⟩
    · have hpool : (admitUtxoToMempool env tx m).1.pool = m.pool.without vetted.conflictIdxs := by
        rw [hrun, hremoved]
      rw [hpool]
      constructor
      · intro h
        exact Or.inl ⟨h, fun hevicted => hevicted.fits hbig⟩
      · rintro (⟨hmem, -⟩ | ⟨-, hroom⟩)
        · exact hmem
        · exact absurd hbig hroom.bytes
    · have hpool : (admitUtxoToMempool env tx m).1.pool = (m.cleared tx vetted).pool := by rw [hrun]
      rw [hpool]
      constructor
      · intro h
        exact Or.inl ⟨hcleared t h, fun hevicted => hevicted.gone.elim (· h) fun hgone => hgone.1 hfull⟩
      · rintro (⟨hmem, hstays⟩ | ⟨-, hroom'⟩)
        · by_contra hgone
          exact hstays ⟨hmem, hroom, Or.inl hgone⟩
        · exact absurd hfull hroom'.count
    · have hpool : (admitUtxoToMempool env tx m).1.pool = (m.cleared tx vetted).thinned.pool ++ [tx] := by
        rw [hrun, queued_pool]
      rw [hpool, List.mem_append, List.mem_singleton]
      constructor
      · rintro (h | rfl)
        · exact Or.inl ⟨hcleared t (hthinned t h), fun hevicted =>
            hevicted.gone.elim (· (hthinned t h)) fun hgone => hgone.2 h⟩
        · exact Or.inr ⟨rfl, hroom, hfree⟩
      · rintro (⟨hmem, hstays⟩ | ⟨rfl, -⟩)
        · left
          by_contra hgone
          exact hstays ⟨hmem, hroom, Or.inr ⟨hfree, hgone⟩⟩
        · exact Or.inr rfl

/-- **A harmless submission**: if it passes the tests, the live set has none of its
outputs, and neither a spend that stays nor the submission takes an output of an
evicted one. -/
structure HarmlessSubmission (m : Mempool) (tx : UtxoTx) (vetted : VettedUtxo) : Prop where
  fresh : ¬ m.chain.live.utxo.Known tx.txHash
  childless : ∀ q, m.Evicted tx vetted q → ∀ t,
    t ∈ m.pool.without vetted.conflictIdxs ∧ ¬ m.Evicted tx vetted t ∨ t = tx ∧ m.HasRoom tx vetted →
    ∀ op, t.Takes op → op ∉ q.created

/-- A conflict takes its children along. -/
theorem stays_of_child (hvet : m.chain.vetUtxo tx = .ok vetted) {child parent : UtxoTx} {op : OutPoint}
    (hchild : child ∈ m.pool.without vetted.conflictIdxs) (htakes : child.Takes op) (hparent : parent ∈ m.pool)
    (hcreated : op ∈ parent.created) : parent ∈ m.pool.without vetted.conflictIdxs := by
  obtain ⟨i, hi, hget⟩ := UtxoPool.mem_without.mp hchild
  obtain ⟨k, hk⟩ := List.mem_iff_getElem?.mp hparent
  refine UtxoPool.mem_without.mpr ⟨k, fun hconflict => hi ?_, hk⟩
  obtain ⟨tin, htin, hprevious⟩ := List.mem_map.mp htakes
  rw [(ChainState.vetUtxo_ok hvet).conflictIdxs] at hconflict ⊢
  refine UtxoPool.mem_conflictIdxs_of_spends (UtxoPool.mem_pick.mpr ⟨k, hconflict, hk⟩) hget
    (UtxoPool.spendsFrom_eq_true.mpr ⟨tin, htin, List.mem_singleton.mpr ?_⟩)
  rw [hprevious]
  exact UtxoTx.txid_of_mem_created hcreated

/-- **Step.** A harmless submission keeps the queue sound. -/
theorem soundQueue_admit (env : Env) (h : SoundQueue named m.chain.live.utxo m.pool) (hnamed : named tx)
    (hharmless : ∀ vetted, m.chain.vetUtxo tx = .ok vetted → m.HarmlessSubmission tx vetted) :
    SoundQueue named m.chain.live.utxo (admitUtxoToMempool env tx m).1.pool := by
  cases hvet : m.chain.vetUtxo tx with
  | error e =>
      rcases m.admit_cases env tx with ⟨e', -, hrun⟩ | ⟨vetted, hok, -⟩
      · rw [hrun]
        exact h
      · rw [hvet] at hok
        cases hok
  | ok vetted =>
      obtain ⟨hfresh, hchildless⟩ := hharmless vetted hvet
      have hvetted := ChainState.vetUtxo_ok hvet
      have hmem := mem_admit_pool env hvet
      have hold : ∀ t ∈ m.pool.without vetted.conflictIdxs, t ∈ m.pool := fun t ht =>
        (UtxoPool.without_sublist _ _).subset ht
      -- a parent that stays after the replacement stays to the end, for the sake of its child
      have hparent : ∀ {t q : UtxoTx} {op : OutPoint}, t ∈ (admitUtxoToMempool env tx m).1.pool → t.Takes op →
          q ∈ m.pool.without vetted.conflictIdxs → op ∈ q.created →
          q ∈ (admitUtxoToMempool env tx m).1.pool := by
        intro t q op ht htakes hq hcreated
        refine (hmem q).mpr (Or.inl ⟨hq, fun hevicted => ?_⟩)
        exact hchildless q hevicted t ((hmem t).mp ht) op htakes hcreated
      refine ⟨fun t ht op htakes => ?_, fun t ht => ?_, fun t ht => ?_, fun t ht => ?_⟩
      · rcases (hmem t).mp ht with ⟨hkept, -⟩ | ⟨rfl, -⟩
        · rcases h.inputs t (hold t hkept) op htakes with hfree | ⟨q, hq, hne, hcreated⟩
          · exact Or.inl hfree
          · exact Or.inr ⟨q, hparent ht htakes (stays_of_child hvet hkept htakes hq hcreated) hcreated,
              hne, hcreated⟩
        · -- the submission applied to the preview
          obtain ⟨applied, happlied, hsources⟩ := preview_sources m.chain vetted.conflictIdxs
          obtain ⟨s, fee, happly⟩ := hvetted.applies
          obtain ⟨tin, htin, hprevious⟩ := List.mem_map.mp htakes
          have hinput := applied_inputs happly tin htin
          rw [hprevious] at hinput
          by_cases hcreated : ∃ q ∈ applied, op ∈ q.created
          · obtain ⟨q, hq, hcreated⟩ := hcreated
            refine Or.inr ⟨q, hparent ht htakes (happlied q hq) hcreated, ?_, hcreated⟩
            exact hvetted.fresh q (hold q (happlied q hq))
          · exact Or.inl (hsources.moves.free_of hinput hcreated)
      · rcases (hmem t).mp ht with ⟨hkept, -⟩ | ⟨rfl, -⟩
        · exact h.fresh t (hold t hkept)
        · exact hfresh
      · rcases (hmem t).mp ht with ⟨hkept, -⟩ | ⟨rfl, -⟩
        · exact h.form t (hold t hkept)
        · exact hvetted.form
      · rcases (hmem t).mp ht with ⟨hkept, -⟩ | ⟨rfl, -⟩
        · exact h.named t (hold t hkept)
        · exact hnamed

end Submit

end Mempool

/-! ### Blocks -/

section Blocks

variable [Crypto] {st : ChainState} {env : Env} {block : Block} {gd : GhostdagData} {sp : Hash}
  {named : UtxoTx → Prop} {minted : Hash → Prop}

/-- The bodies of the node have named spends only, and its blocks mint named coins. -/
structure Bodies (named : UtxoTx → Prop) (minted : Hash → Prop) (st : ChainState) : Prop where
  spends : ∀ (h : Hash) (b : Block), st.dag[h]? = some b → ∀ tx ∈ b.utxoTxs,
    named tx ∧ tx.validateForm = .ok ()
  coins : ∀ (h : Hash) (b : Block), st.dag[h]? = some b → b.parents ≠ [] → minted b.coinbaseTxid

/-- The block includes the spend, by its `txid`. -/
def Drops (block : Block) (tx : UtxoTx) : Prop := ∃ b ∈ block.utxoTxs, b.txid = tx.txid

theorem mem_accept_utxoMempool {t : UtxoTx} :
    t ∈ (st.accept env block gd).utxoMempool ↔ t ∈ st.utxoMempool ∧ ¬ Drops block t := by
  rw [ChainState.accept_utxoMempool, List.mem_filter]
  simp only [Drops, Bool.not_eq_true', List.any_eq_false, beq_iff_eq, not_exists, not_and]

/-- The block is replayed last, on the ledger that its body was tried on. -/
def ChainState.ReplayedAsTried (st : ChainState) (env : Env) (block : Block) (gd : GhostdagData) (sp : Hash) :
    Prop :=
  ∃ front, (st.inserted env block gd).pending = front ++ [block.hash] ∧
    (st.inserted env block gd).applyAll st.simBase front = (st.mergesetVirtual sp gd.merged).1

/-- **A harmless block**, after which the node replays `joined` in place of `left`.
Of the spends it leaves in the queue none takes what a block of `left` creates, or what
a block of `joined` takes; and where one takes an output of a spend that it drops, it
includes and executes a spend that creates this output. -/
structure HarmlessBlock (st : ChainState) (env : Env) (block : Block) (gd : GhostdagData) (sp : Hash)
    (kept left joined : List Hash) : Prop where
  replayed : st.Replayed
  before : st.pending = kept ++ left
  after : (st.inserted env block gd).pending = kept ++ joined
  leaves : ∀ t ∈ st.utxoMempool, ¬ Drops block t → ∀ op, t.Takes op → ∀ p ∈ st.blocksAt left, ¬ p.1.Creates op
  joins : ∀ t ∈ st.utxoMempool, ¬ Drops block t → ∀ op, t.Takes op →
    ∀ p ∈ (st.inserted env block gd).blocksAt joined, ¬ p.1.Takes op
  parents : ∀ q ∈ st.utxoMempool, Drops block q → ∀ t ∈ st.utxoMempool, ¬ Drops block t → ∀ op, t.Takes op →
    op ∈ q.created → (∃ b ∈ block.utxoTxs, op ∈ b.created) ∧ st.ReplayedAsTried env block gd sp

/-- A block that is replayed last joins. -/
theorem HarmlessBlock.mem_joined (c : st.Consistent) (a : st.Admitted env block gd sp)
    {kept left joined : List Hash} (h : HarmlessBlock st env block gd sp kept left joined)
    (htried : st.ReplayedAsTried env block gd sp) :
    ∃ p ∈ (st.inserted env block gd).blocksAt joined, p.1 = block := by
  obtain ⟨front, hpending, -⟩ := htried
  have hlast : block.hash ∈ kept ++ joined := by
    rw [← h.after, hpending]
    exact List.mem_append_right front (List.mem_singleton_self _)
  have hjoins : block.hash ∈ joined := by
    refine (List.mem_append.mp hlast).resolve_left fun hkept => a.new ?_
    exact ChainState.mem_of_mem_pending c (h.before ▸ List.mem_append_left left hkept)
  have hblock : (st.inserted env block gd).dag[block.hash]? = some block := by
    rw [(st.inserted_core env block gd).dag]
    exact ChainState.getElem?_insertBlock
  exact ⟨(block, _), ChainState.mem_blocksAt.mpr ⟨block.hash, hjoins, hblock, rfl⟩, rfl⟩

/-- The live set before and after a block, from where the two replays part. -/
theorem accept_live_parts (c : st.Consistent) (a : st.Admitted env block gd sp) {kept left joined : List Hash}
    (h : HarmlessBlock st env block gd sp kept left joined) : ∃ l : Ledger,
      st.live = l.replay st.chainId (st.blocksAt left) ∧
      (st.accept env block gd).live
        = l.replay st.chainId ((st.inserted env block gd).blocksAt joined) := by
  have hcore := st.inserted_core env block gd
  have keyed' := ((c.insertBlock a).of_core hcore).keyed
  have hchain : (st.inserted env block gd).chainId = st.chainId := hcore.chainId
  have hsame : (st.inserted env block gd).blocksAt kept = st.blocksAt kept :=
    ((ChainState.extends_insertBlock a).trans (.of_core hcore)).blocksAt fun k hk =>
      ChainState.mem_of_mem_pending c (by rw [h.before]; exact List.mem_append_left left hk)
  refine ⟨st.simBase.replay st.chainId (st.blocksAt kept), ?_, ?_⟩
  · rw [h.replayed, h.before, ChainState.applyAll_append, c.keyed.applyAll, c.keyed.applyAll]
  · rw [ChainState.accept_live c a, h.after, ChainState.applyAll_append, keyed'.applyAll, keyed'.applyAll,
      hchain, hsame]

/-- A block replayed as tried: the live ledger after it is the one admission computed. -/
theorem accept_live_tried (c : st.Consistent) (a : st.Admitted env block gd sp)
    (htried : st.ReplayedAsTried env block gd sp) : ∃ l fees,
      (st.mergesetVirtual sp gd.merged).1.simulateApplyBlockBody st.chainId 0 gd.blueScore block = .ok (l, fees) ∧
      (st.accept env block gd).live = l.applyBlockReward block gd.blueScore fees := by
  have hcore := st.inserted_core env block gd
  have keyed' := ((c.insertBlock a).of_core hcore).keyed
  have hchain : (st.inserted env block gd).chainId = st.chainId := hcore.chainId
  obtain ⟨front, hpending, hledger⟩ := htried
  obtain ⟨⟨l, fees⟩, hbody, -⟩ := Except.bind_eq_ok a.stateRoot
  have hnew : (st.inserted env block gd).blocksAt [block.hash] = [(block, gd.blueScore)] := by
    have hblock : (st.inserted env block gd).dag[block.hash]? = some block := by
      rw [hcore.dag]
      exact ChainState.getElem?_insertBlock
    have hscore : (st.inserted env block gd).ghostdag.scoreOf block.hash = gd.blueScore := by
      rw [hcore.ghostdag]
      exact ChainState.scoreOf_insert_self
    simp only [ChainState.blocksAt, List.filterMap_cons, List.filterMap_nil, hblock, hscore, Option.map_some]
  refine ⟨l, fees, hbody, ?_⟩
  rw [ChainState.accept_live c a, hpending, ChainState.applyAll_append, hledger, keyed'.applyAll, hnew,
    hchain, ← Ledger.applyBlockEffects_of_simulate a.parents_ne hbody]
  rfl

/-- Who includes and executes a spend leaves what it creates. -/
theorem free_of_replayed (c : st.Consistent) (a : st.Admitted env block gd sp)
    (htried : st.ReplayedAsTried env block gd sp) {b : UtxoTx} (hb : b ∈ block.utxoTxs) {op : OutPoint}
    (hop : op ∈ b.created) (hother : ¬ block.Takes op) : (st.accept env block gd).live.utxo.Free op := by
  obtain ⟨l, fees, hbody, hlive⟩ := accept_live_tried c a htried
  rw [hlive]
  exact Ledger.simulated_free a.parents_ne hbody hb hop hother

/-- **A rival of an included spend stays**, under another `txid`, and what it takes is
spent. -/
theorem not_connected_of_rival (c : st.Consistent) (a : st.Admitted env block gd sp)
    (htried : st.ReplayedAsTried env block gd sp) {t : UtxoTx} (ht : t ∈ st.utxoMempool) (hstays : ¬ Drops block t)
    {op : OutPoint} (htakes : t.Takes op) (htaken : block.Takes op) (hother : ¬ block.Creates op) :
    ¬ Connected (st.accept env block gd).live.utxo (st.accept env block gd).utxoMempool := by
  intro hconnected
  obtain ⟨l, fees, hbody, hlive⟩ := accept_live_tried c a htried
  obtain ⟨b, hb, hop⟩ := htaken
  refine hconnected.unspent t ?_ op htakes ?_
  · exact mem_accept_utxoMempool.mpr ⟨ht, hstays⟩
  · rw [hlive]
    exact Ledger.simulated_spent a.parents_ne hbody hb hop hother

omit [Crypto] in
/-- Spends of one digest take the same outpoints. -/
theorem takes_of_hash {tx tx' : UtxoTx} (hform : tx.validateForm = .ok ()) (hform' : tx'.validateForm = .ok ())
    (heq : tx.hashBytes = tx'.hashBytes) {op : OutPoint} (hop : tx.Takes op) : tx'.Takes op := by
  have hsame := UtxoTx.inputs_eq_of_hashBytes (UtxoTx.validateForm_ok hform).2.2.1
    (UtxoTx.validateForm_ok hform').2.2.1 heq
  rwa [UtxoTx.Takes, hsame] at hop

/-- **Step.** A harmless block keeps the queue sound. -/
theorem SoundQueue.accept (c : st.Consistent) (a : st.Admitted env block gd sp)
    (hbodies : Bodies named minted st)
    (hblock : (∀ tx ∈ block.utxoTxs, named tx ∧ tx.validateForm = .ok ()) ∧ minted block.coinbaseTxid)
    (hspends : ∀ tx tx', named tx → named tx' → tx.txHash = tx'.txHash → tx.hashBytes = tx'.hashBytes)
    (hcoins : ∀ tx id, named tx → minted id → id ≠ tx.txHash)
    (h : SoundQueue named st.live.utxo st.utxoMempool) {kept left joined : List Hash}
    (hharmless : HarmlessBlock st env block gd sp kept left joined) :
    SoundQueue named (st.accept env block gd).live.utxo (st.accept env block gd).utxoMempool := by
  obtain ⟨l, hlive, hlive'⟩ := accept_live_parts c a hharmless
  have hleft := @Ledger.replay_moves _ st.chainId l (st.blocksAt left)
  have hjoined := @Ledger.replay_moves _ st.chainId l ((st.inserted env block gd).blocksAt joined)
  rw [← hlive] at hleft
  rw [← hlive'] at hjoined
  have hbody : ∀ (k : Hash) (b : Block), (st.inserted env block gd).dag[k]? = some b →
      (∀ tx ∈ b.utxoTxs, named tx ∧ tx.validateForm = .ok ()) ∧ (b.parents ≠ [] → minted b.coinbaseTxid) := by
    intro k b hb
    rcases ChainState.inserted_getElem? hb with ⟨rfl, -⟩ | hold
    · exact ⟨hblock.1, fun _ => hblock.2⟩
    · exact ⟨hbodies.spends k b hold, hbodies.coins k b hold⟩
  refine ⟨fun t ht op htakes => ?_, fun t ht hknown => ?_, fun t ht => ?_, fun t ht => ?_⟩
  · obtain ⟨hqueued, hstays⟩ := mem_accept_utxoMempool.mp ht
    have hnotTaken : ∀ p ∈ (st.inserted env block gd).blocksAt joined, ¬ p.1.Takes op :=
      hharmless.joins t hqueued hstays op htakes
    rcases h.inputs t hqueued op htakes with hfree | ⟨q, hq, hne, hcreated⟩
    · left
      refine hjoined.free (hleft.free_of hfree ?_) ?_
      · rintro ⟨p, hp, hcreates⟩
        exact hharmless.leaves t hqueued hstays op htakes p hp hcreates
      · rintro ⟨p, hp, htaken⟩
        exact hnotTaken p hp htaken
    · by_cases hdrops : Drops block q
      · -- the parent goes, and the block made its output
        left
        obtain ⟨⟨b, hb, hmade⟩, htried⟩ := hharmless.parents q hq hdrops t hqueued hstays op htakes hcreated
        obtain ⟨p, hp, rfl⟩ := hharmless.mem_joined c a htried
        exact free_of_replayed c a htried hb hmade (hnotTaken p hp)
      · exact Or.inr ⟨q, mem_accept_utxoMempool.mpr ⟨hq, hdrops⟩, hne, hcreated⟩
  · -- what the live set learns comes from the blocks that join
    obtain ⟨hqueued, hstays⟩ := mem_accept_utxoMempool.mp ht
    rcases hjoined.known_of hknown with hbefore | ⟨op, ⟨p, hp, hcreates⟩, hid⟩
    · exact h.fresh t hqueued (hleft.known hbefore)
    · obtain ⟨k, -, hb, -⟩ := ChainState.mem_blocksAt.mp hp
      obtain ⟨hspends', hcoin⟩ := hbody k p.1 hb
      rcases hcreates with ⟨b, hb', hcreated⟩ | ⟨hparents, rfl⟩
      · have hsame : b.txHash = t.txHash := (UtxoTx.txid_of_mem_created hcreated).symm.trans hid
        obtain ⟨hnamed, hform⟩ := hspends' b hb'
        have hbytes := hspends b t hnamed (h.named t hqueued) hsame
        obtain ⟨tin, htin⟩ := List.exists_mem_of_ne_nil _ (UtxoTx.validateForm_ok (h.form t hqueued)).1
        have htakes : t.Takes tin.previous := List.mem_map_of_mem htin
        exact hharmless.joins t hqueued hstays _ htakes p hp
          ⟨b, hb', takes_of_hash (h.form t hqueued) hform hbytes.symm htakes⟩
      · exact hcoins t p.1.coinbaseTxid (h.named t hqueued) (hcoin hparents) hid
  · exact h.form t (mem_accept_utxoMempool.mp ht).1
  · exact h.named t (mem_accept_utxoMempool.mp ht).1

end Blocks

/-! ### Archival nodes -/

section Archival

variable [Crypto] {st : ChainState} {env : Env} {block : Block} {gd : GhostdagData} {sp : Hash} {seed : Ledger}

/-- An archival node always replays its live ledger. -/
theorem ChainState.Archival.replayed (inv : Archival seed st) : st.Replayed := by
  have w := inv.whole
  obtain ⟨tip, htip⟩ := w.selected
  have hon : st.FrontierOn tip := fun f hf => (inv.frontier_mem hf).1 htip
  have hbase := fold_frontier seed w (w.tip_mem htip) hon
  rw [← inv.base, ← w.keyed.applyAll] at hbase
  rw [Replayed, pending, canonicalOrder, htip, inv.live htip]
  exact hbase.symm

/-- A block that becomes the selected tip of an archival node is replayed last, on the
ledger its body was tried on. -/
theorem ChainState.Archival.replayedAsTried (inv : Archival seed st) (a : st.Admitted env block gd sp)
    (htip : (st.inserted env block gd).selectedTip = some block.hash) :
    st.ReplayedAsTried env block gd sp := by
  have w := inv.whole
  have hspmem := a.parents_mem sp a.isBest.mem
  have w' := w.insertBlock a (inv.full sp hspmem)
  have hcore := st.inserted_core env block gd
  have he := extends_insertBlock a
  have horder : (st.inserted env block gd).canonicalOrderAt block.hash
      = st.canonicalOrderAt sp ++ (gd.merged ++ [block.hash]) := by
    rw [hcore.canonicalOrderAt, canonicalOrderAt_step w'.dagInv (spOf_insertBlock a), mergedOf_insertBlock,
      he.canonicalOrderAt w.dagInv w'.dagInv hspmem, List.append_assoc]
  have hon : st.FrontierOn sp := by
    intro f hf
    have hfp := inv.frontier.symm.trans hf
    exact w.finality a hfp (inv.full f (inv.frontier_mem hf).2) (inv.full sp hspmem)
  -- the replay starts at one place of both orders
  have hstart : (st.inserted env block gd).replayStart (st.canonicalOrderAt sp ++ (gd.merged ++ [block.hash]))
      = st.replayStart (st.canonicalOrderAt sp) := by
    have hfrontier := (inserted_value st env block gd).1
    cases hf : st.baseFrontier with
    | none => simp only [replayStart, hfrontier, hf]
    | some f =>
        obtain ⟨init, hinit⟩ := canonicalOrderAt_last w.dagInv (inv.frontier_mem hf).2
        have hmem : f ∈ st.canonicalOrderAt sp :=
          (prefix_canonicalOrderAt w.dagInv (hon f hf)).subset (by simp [hinit])
        simp only [replayStart, hfrontier, hf, List.contains_iff_mem, List.mem_append, hmem, true_or, if_true,
          List.idxOf_append_of_mem]
  have hle : st.replayStart (st.canonicalOrderAt sp) ≤ (st.canonicalOrderAt sp).length := by
    obtain ⟨hlength, happend⟩ := frontierOrder_append w hspmem hon
    rw [hlength, ← happend, List.length_append]
    exact Nat.le_add_right _ _
  refine ⟨(st.canonicalOrderAt sp).drop (st.replayStart (st.canonicalOrderAt sp)) ++ gd.merged, ?_, ?_⟩
  · rw [pending, canonicalOrder, htip]
    simp only [horder, hstart]
    rw [List.drop_append_of_le_length hle, List.append_assoc]
  · have keyed' := (w'.of_core hcore).keyed
    have hsame : (st.inserted env block gd).blocksAt
        ((st.canonicalOrderAt sp).drop (st.replayStart (st.canonicalOrderAt sp)) ++ gd.merged)
        = st.blocksAt ((st.canonicalOrderAt sp).drop (st.replayStart (st.canonicalOrderAt sp)) ++ gd.merged) := by
      refine (he.trans (.of_core hcore)).blocksAt fun x hx => inv.mem_of_replayed_before a x ?_
      exact (List.append_sublist_append_right gd.merged).mpr (List.drop_sublist _ _) |>.subset hx
    have hchain : (st.inserted env block gd).chainId = st.chainId := hcore.chainId
    rw [keyed'.applyAll, hchain, hsame, blocksAt_append, replay_append, w.keyed.mergesetVirtual,
      w.keyed.virtualStateAt]
/-- Whatever is queued. -/
theorem ChainState.Archival.of_queue {st' : ChainState} (inv : Archival seed st)
    (h : st.UpToQueue st') : Archival seed st' := by
  rw [UpToQueue] at h
  rw [h]
  exact ⟨inv.archival, inv.whole.of_core ⟨rfl, rfl, rfl, rfl, rfl, rfl⟩, inv.full, inv.mainChain, inv.frontier,
    inv.base, inv.live⟩

end Archival

/-! ### Runs -/

theorem ChainState.UpToQueue.core {st st' : ChainState} (h : st.UpToQueue st') : st.SameCore st' := by
  rw [UpToQueue] at h
  rw [h]
  exact ⟨rfl, rfl, rfl, rfl, rfl, rfl⟩

namespace Mempool

section Runs

variable [Crypto] {m : Mempool} {named : UtxoTx → Prop} {minted : Hash → Prop}

/-- The call submits the spend, or delivers a block that has it. -/
def Call.Names (tx : UtxoTx) : Call → Prop
  | .submit _ submitted => tx = submitted
  | .addBlock _ block => tx ∈ block.utxoTxs

/-- The call delivers a block that mints under the id. -/
def Call.Mints (id : Hash) : Call → Prop
  | .submit _ _ => False
  | .addBlock _ block => id = block.coinbaseTxid

/-- The ids of a run do not collide. -/
structure IdsApart (calls : List Call) : Prop where
  spends : ∀ c ∈ calls, ∀ c' ∈ calls, ∀ tx tx', c.Names tx → c'.Names tx' → tx.txHash = tx'.txHash →
    tx.hashBytes = tx'.hashBytes
  coins : ∀ c ∈ calls, ∀ c' ∈ calls, ∀ tx id, c.Names tx → c'.Mints id → id ≠ tx.txHash

/-- The call does no harm to the queue of this node. -/
def Harmless (m : Mempool) : Call → Prop
  | .submit _ tx => ∀ vetted, m.chain.vetUtxo tx = .ok vetted → m.HarmlessSubmission tx vetted
  | .addBlock env block => ∀ gd sp, m.chain.Admitted env block gd sp →
    ∃ kept left joined, HarmlessBlock m.chain env block gd sp kept left joined

/-- The invariant of a run. -/
structure SoundNode (named : UtxoTx → Prop) (minted : Hash → Prop) (m : Mempool) : Prop where
  consistent : m.chain.Consistent
  bodies : Bodies named minted m.chain
  queue : SoundQueue named m.chain.live.utxo m.pool

/-- **Step.** -/
theorem SoundNode.step (h : m.SoundNode named minted)
    (hspends : ∀ tx tx', named tx → named tx' → tx.txHash = tx'.txHash → tx.hashBytes = tx'.hashBytes)
    (hcoins : ∀ tx id, named tx → minted id → id ≠ tx.txHash) {call : Call}
    (hnamed : ∀ tx, call.Names tx → named tx) (hminted : ∀ id, call.Mints id → minted id)
    (hharmless : m.Harmless call) : (m.step call).SoundNode named minted := by
  cases call with
  | submit env tx =>
      have hupto := (admit_pool env tx m).1
      have hqueue := soundQueue_admit env h.queue (hnamed tx rfl) hharmless
      refine ⟨h.consistent.of_core hupto.core, ⟨fun k b hb => ?_, fun k b hb => ?_⟩, ?_⟩
      · exact h.bodies.spends k b (hupto.core.dag ▸ hb)
      · exact h.bodies.coins k b (hupto.core.dag ▸ hb)
      · rw [← hupto.live] at hqueue
        exact hqueue
  | addBlock env block =>
      change (m.addBlock env block).SoundNode named minted
      rw [addBlock]
      split
      · exact h
      · rename_i chain hadd
        obtain ⟨gd, sp, a, rfl⟩ := ChainState.addBlock_eq_ok.mp hadd
        obtain ⟨kept, left, joined, hblock⟩ := hharmless gd sp a
        have hspends' : ∀ tx ∈ block.utxoTxs, named tx ∧ tx.validateForm = .ok () :=
          fun tx htx => ⟨hnamed tx htx, (a.formed tx htx).1⟩
        have hcoin := hminted block.coinbaseTxid rfl
        refine ⟨h.consistent.accept a, ⟨fun k b hb => ?_, fun k b hb hparents => ?_⟩,
          h.queue.accept h.consistent a h.bodies ⟨hspends', hcoin⟩ hspends hcoins hblock⟩
        · obtain ⟨b₀, hfrom, hkept⟩ := ChainState.accept_getElem? hb
          have hb₀ : ∀ tx ∈ b₀.utxoTxs, named tx ∧ tx.validateForm = .ok () := by
            rcases hfrom with ⟨rfl, -⟩ | hold
            · exact hspends'
            · exact h.bodies.spends k b₀ hold
          rcases hkept with rfl | rfl
          · exact hb₀
          · exact fun tx htx => absurd htx List.not_mem_nil
        · obtain ⟨b₀, hfrom, hkept⟩ := ChainState.accept_getElem? hb
          have hb₀ : b₀.parents ≠ [] → minted b₀.coinbaseTxid := by
            rcases hfrom with ⟨rfl, -⟩ | hold
            · exact fun _ => hcoin
            · exact h.bodies.coins k b₀ hold
          rcases hkept with rfl | rfl
          · exact hb₀ hparents
          · exact hb₀ hparents

/-- A new node with an empty queue. -/
def newNode (easy archival : Bool) (seed : Ledger) : Mempool where
  chain := ChainState.seeded easy archival seed

theorem addBlock_chain (m : Mempool) (env : Env) (block : Block) :
    (m.addBlock env block).chain = m.chain.step (env, block) := by
  unfold addBlock ChainState.step
  split <;> rename_i h <;> simp only [h]

/-- The blocks of a run, as calls. -/
theorem run_addBlocks (m : Mempool) (calls : List (Env × Block)) :
    (m.run (calls.map fun c => .addBlock c.1 c.2)).chain = m.chain.run calls := by
  induction calls using List.reverseRecOn with
  | nil => rfl
  | append_singleton calls call ih =>
      rw [List.map_append, List.map_singleton, run_concat, ChainState.run_concat, ← ih]
      exact addBlock_chain _ call.1 call.2

end Runs

end Mempool

/-- Blocks alone queue nothing. -/
theorem ChainState.run_utxoMempool [Crypto] (easy archival : Bool) (seed : Ledger) (calls : List (Env × Block)) :
    ((ChainState.seeded easy archival seed).run calls).utxoMempool = [] := by
  refine run_induction (P := fun s => s.utxoMempool = []) rfl (fun {s env block gd sp} hs a => ?_) calls
  rw [accept_utxoMempool, hs]
  rfl

namespace Sample

/-! ### One submission -/

/-- A plan followed, whatever is queued. -/
theorem Followed.withQueue {archival : Bool} {plan : List (List Nat)} {st : ChainState}
    (f : Followed archival plan st) (pool : List UtxoTx) :
    Followed archival plan { st with utxoMempool := pool } :=
  ⟨⟨f.numbered.whole.of_core ⟨rfl, rfl, rfl, rfl, rfl, rfl⟩, f.numbered.full, f.numbered.small, f.numbered.mem, f.numbered.block⟩,
    f.mode, f.parents, f.genesis⟩

/-- A spend of a whole coin of the sample miner. -/
def rival (op : OutPoint) (tag : Nat) : UtxoTx := coinSpend op tag 0 1000 (blockReward - 1000)

/-- A rival applies once the coin is mature. -/
theorem rival_applies {u : UtxoSet} {accounts : Accounts} {media tag : Nat} {id : Hash}
    (hheld : u.Holds (.coinbase id) ⟨blockReward, .payToAddress (Address.ofPubkey minerKey), 1⟩)
    (hmature : 101 ≤ media) :
    ∃ s, applyUtxoTx u accounts (rival (.coinbase id) tag) media = (s, .ok (blockReward - 1000)) := by
  have hworth : 1000 + (blockReward - 1000) = blockReward := by decide
  have hripe : satAdd64 1 coinbaseMaturityBlues = 101 := by decide
  exact coinSpend_applies (by rw [hworth]; exact hheld) (fun _ => by rw [hripe]; exact hmature) (by decide) (by decide)
    (by decide)

/-- A node with a hundred and one blocks queues a rival. -/
theorem queues_rival {m : Mempool} (f : Followed true (chain 101) m.chain) (hchain : m.chain.chainId = chainId)
    (hempty : m.pool = []) {id : Hash}
    (hheld : m.chain.live.utxo.Holds (.coinbase id) ⟨blockReward, .payToAddress (Address.ofPubkey minerKey), 1⟩) :
    Mempool.admitUtxoToMempool env (rival (.coinbase id) 1) m = (m.queued env (rival (.coinbase id) 1), .ok ()) := by
  have hpreview := @ChainState.preview_holds _ m.chain [] _ _ hheld fun q hq => by
    rw [UtxoPool.without_nil] at hq
    exact absurd (hempty ▸ hq : q ∈ []) List.not_mem_nil
  have htip : m.chain.selectedTipBlueScore = 101 := by
    rw [ChainState.selectedTipBlueScore, f.selectedTip_chain]
    exact f.scoreOf_spine (spine_chain 101) (le_refl 101)
  obtain ⟨s, happlies⟩ := @rival_applies _ (m.chain.utxoMempoolPreview []).2 101 1 _ hpreview (le_refl 101)
  rw [← htip] at happlies
  refine Mempool.admit_unrelated env (coinSpend_submittable hchain (by decide) (by decide) (by decide))
    ?_ happlies ?_ ?_
  · rw [hempty]
    exact ⟨fun q hq => absurd hq List.not_mem_nil, fun q hq => absurd hq List.not_mem_nil,
      fun q hq => absurd hq List.not_mem_nil⟩
  · rw [hempty, rival, relayBytes_coinSpend]
    decide
  · rw [hempty]
    decide

/-- Such a node accepts a block with a rival, which becomes the selected tip. -/
theorem admits_rival {s : ChainState} (f : Followed true (chain 101) s) (inv : ChainState.Archival {} s)
    (hchain : s.chainId = chainId) {id : Hash}
    (hheld : s.live.utxo.Holds (.coinbase id) ⟨blockReward, .payToAddress (Address.ofPubkey minerKey), 1⟩) :
    ∃ block gd sp, s.Admitted env block gd sp ∧ s.ReplayedAsTried env block gd sp ∧
      block.height.toNat = 102 ∧ ∀ tx, tx ∈ block.utxoTxs ↔ tx = rival (.coinbase id) 2 := by
  have hlow : Numbered.Shallow s := f.numbered.shallow (by decide)
  have hlength : (chain 101).length = 101 := length_chain 101
  have hmem : blockHash 101 0 ∈ s.dag := f.mem (by omega)
  have hscore : s.ghostdag.scoreOf (blockHash 101 0) = 101 := f.scoreOf_spine (spine_chain 101) (le_refl 101)
  rw [inv.live f.selectedTip_chain] at hheld
  obtain ⟨⟨u, accounts⟩, happlies⟩ := @rival_applies _
    (s.fold {} (s.canonicalOrderAt (blockHash 101 0))).accounts 102 2 _ hheld (by norm_num)
  have hinputs : (rival (.coinbase id) 2).inputs = [⟨.coinbase id, 0, .signature⟩] := rfl
  have hsubmittable : Submittable s (rival (.coinbase id) 2) :=
    coinSpend_submittable hchain (by decide) (by decide) (by decide)
  have hsize : (encode [rival (.coinbase id) 2]).length ≤ 10000 := by
    rw [length_encode_list, List.map_singleton, List.sum_singleton, rival, length_encode_coinSpend]
    norm_num
  obtain ⟨block, a, hitems, hhash, hparents⟩ := f.numbered.admitted_spend hlow hmem hsize
    (fun b hb => validate_spend hchain hb hsubmittable.form rfl hinputs hsubmittable.verify) (fun b hb => by
      rw [mergesetVirtual_shallow hlow inv hmem, hchain, hscore]
      exact simulate_spend hb rfl happlies)
  have htip : (s.inserted env block (onlyParent s.ghostdag (blockHash 101 0))).selectedTip = some block.hash := by
    have hnext := f.selectedTip_next inv a hparents
    rw [ChainState.accept_archival _ _ _ _ inv.archival, (s.acceptFull_core env block _).selectedTip] at hnext
    rw [(s.inserted_core env block _).selectedTip]
    exact hnext
  refine ⟨block, _, _, a, inv.replayedAsTried a htip, height_of_hash (by norm_num) hhash, fun tx => ?_⟩
  rw [← Block.mem_items_utxo, hitems, List.mem_singleton, BodyItem.utxo.injEq]

end Sample

end HassanNode
