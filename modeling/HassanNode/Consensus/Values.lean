import Mathlib
import HassanNode.Ledger.Ids
import HassanNode.Ledger.Executors
import HassanNode.Consensus.Pruning
import HassanNode.Consensus.Mining

/-!
# HassanNode.Consensus.Values

Value along the runs of a node: conservation, no double spend, and when mints
are fresh. What a block went through at admission holds of every block in the
DAG of every node, archival or not (`run_blocks`); the results then follow from
the replay invariants of the ledger.
-/

namespace HassanNode

open Std (ExtTreeMap ExtTreeSet)
open OneShot (View created spent consumed)
open Params Bincode

namespace ChainState

section Values

variable [Crypto]

/-! ### Blocks of every run -/

section Blocks

variable {st : ChainState} {env : Env} {block : Block} {gd : GhostdagData} {sp : Hash}

theorem Whole.consistent (w : st.Whole) : st.Consistent where
  keyed := w.keyed
  linked := w.linked_ghostdag
  descends := w.dagInv.descends
  tips t ht := ((w.tips t).mp ht).1
  selected := w.selected
  index := w.covers.wf
  indexed := w.indexed
  links {h p} hp := w.linked h p hp

/-- **Every run of a node, in either mode, keeps it consistent.** -/
theorem Consistent.run (easy archival : Bool) (seed : Ledger) (calls : List (Env × Block)) :
    ((seeded easy archival seed).run calls).Consistent :=
  run_induction (whole_seeded easy archival seed).consistent (fun c a => c.accept a) calls

theorem insertBlock_getElem? {h : Hash} {b : Block} (hb : (st.insertBlock env block gd).dag[h]? = some b) :
    b = block ∧ h = block.hash ∨ st.dag[h]? = some b := by
  by_cases hh : h = block.hash
  · subst hh
    rw [getElem?_insertBlock] at hb
    exact Or.inl ⟨(Option.some.inj hb).symm, rfl⟩
  · rw [insertBlock, ExtTreeMap.getElem?_insert, if_neg (by simpa using Ne.symm hh)] at hb
    exact Or.inr hb

/-- A block of the state in which the ledger is replayed is the new one or an old one. -/
theorem inserted_getElem? {h : Hash} {b : Block} (hb : (st.inserted env block gd).dag[h]? = some b) :
    b = block ∧ h = block.hash ∨ st.dag[h]? = some b := by
  rw [(st.inserted_core env block gd).dag] at hb
  exact insertBlock_getElem? hb

/-- A block of an accepted state is the new one or an old one, perhaps without
its body. -/
theorem accept_getElem? {h : Hash} {b : Block}
    (hb : (st.accept env block gd).dag[h]? = some b) :
    ∃ b₀, (b₀ = block ∧ h = block.hash ∨ st.dag[h]? = some b₀) ∧ (b = b₀ ∨ b = b₀.clearBody) := by
  have hcleared := (st.acceptFull env block gd).pruneBodies_spec env
  have hmid := pruneHistory_getElem? hb
  have hold : ∀ {b₀}, (st.acceptFull env block gd).dag[h]? = some b₀ →
      b₀ = block ∧ h = block.hash ∨ st.dag[h]? = some b₀ := by
    intro b₀ hb₀
    rw [(st.acceptFull_core env block gd).dag] at hb₀
    exact insertBlock_getElem? hb₀
  rw [hcleared.dag] at hmid
  split at hmid
  · obtain ⟨b₀, hb₀, rfl⟩ := Option.map_eq_some_iff.mp hmid
    exact ⟨b₀, hold hb₀, Or.inr rfl⟩
  · exact ⟨b, hold hmid, Or.inl rfl⟩

/-- What holds of the genesis block and of every admitted block, and is not about
bodies, holds of every block of every run. -/
theorem run_blocks (easy archival : Bool) (seed : Ledger) {Q : Block → Prop} (hgenesis : Q genesisBlock)
    (hclear : ∀ b, Q b → Q b.clearBody)
    (hadmitted : ∀ {s : ChainState} {env block gd sp}, s.Admitted env block gd sp → Q block)
    (calls : List (Env × Block)) {h : Hash} {b : Block}
    (hb : ((seeded easy archival seed).run calls).dag[h]? = some b) : Q b := by
  refine run_induction (P := fun s => ∀ h b, s.dag[h]? = some b → Q b) (fun h b hb => ?_) ?_ calls h b hb
  · rw [(seeded_get easy archival seed hb).2]
    exact hgenesis
  · intro s env block gd sp hall a h b hb
    obtain ⟨b₀, hor, hclr⟩ := accept_getElem? hb
    have hQ : Q b₀ := by
      rcases hor with ⟨rfl, -⟩ | hb₀
      · exact hadmitted a
      · exact hall h b₀ hb₀
    rcases hclr with rfl | rfl
    · exact hQ
    · exact hclear b₀ hQ

/-- The spends of an admitted block are well formed and name the accounts they
credit. -/
theorem Admitted.formed (a : st.Admitted env block gd sp) :
    ∀ tx ∈ block.utxoTxs, tx.validateForm = .ok () ∧ tx.CreditsAddressed := by
  obtain ⟨⟨l, fees⟩, hbody, -⟩ := Except.bind_eq_ok a.stateRoot
  exact Ledger.formed_of_simulate hbody

theorem run_formed (easy archival : Bool) (seed : Ledger) (calls : List (Env × Block)) {h : Hash}
    {b : Block} (hb : ((seeded easy archival seed).run calls).dag[h]? = some b) :
    ∀ tx ∈ b.utxoTxs, tx.validateForm = .ok () ∧ tx.CreditsAddressed :=
  run_blocks easy archival seed (Q := fun b => ∀ tx ∈ b.utxoTxs, tx.validateForm = .ok () ∧
    tx.CreditsAddressed) (fun _ h => by cases h) (fun _ _ _ h => by cases h) (fun a => a.formed) calls hb

end Blocks

/-! ### The live ledger after a block -/

section Live

variable {st : ChainState} {env : Env} {block : Block} {gd : GhostdagData} {sp : Hash}

/-- What the node replays on its base. -/
def pending (st : ChainState) : List Hash := st.canonicalOrder.drop (st.replayStart st.canonicalOrder)

/-- The live ledger is that replay. -/
def Replayed (st : ChainState) : Prop := st.live = st.applyAll st.simBase st.pending

theorem applyAll_append (st : ChainState) (l : Ledger) (hs hs' : List Hash) :
    st.applyAll l (hs ++ hs') = st.applyAll (st.applyAll l hs) hs' := List.foldl_append

/-- Folding a part of the replay into the base first changes nothing. -/
theorem recomputed_live (st : ChainState) :
    st.advanceFinalizedBase.recomputeVirtualState.live = st.applyAll st.base st.pending := by
  rcases st.advanceFinalizedBase_cases with heq | ⟨fp, -, -, hmem, hstart, heq⟩
  · rw [heq]
    rfl
  · have hsplit : st.pending
        = (st.canonicalOrder.drop (st.replayStart st.canonicalOrder)).take
            (st.canonicalOrder.idxOf fp + 1 - st.replayStart st.canonicalOrder)
          ++ st.canonicalOrder.drop (st.canonicalOrder.idxOf fp + 1) := by
      rw [pending]
      nth_rewrite 1 [← List.take_append_drop
        (st.canonicalOrder.idxOf fp + 1 - st.replayStart st.canonicalOrder)
        (st.canonicalOrder.drop (st.replayStart st.canonicalOrder))]
      rw [List.drop_drop, Nat.add_sub_cancel' hstart]
    have hcontains : st.canonicalOrder.contains fp = true := List.contains_iff_mem.mpr hmem
    rw [hsplit, applyAll_append, heq]
    change st.applyAll _ (st.canonicalOrder.drop
      (if st.canonicalOrder.contains fp then st.canonicalOrder.idxOf fp + 1 else 0)) = _
    rw [if_pos hcontains]

theorem accept_live (c : st.Consistent) (a : st.Admitted env block gd sp) :
    (st.accept env block gd).live
      = (st.inserted env block gd).applyAll st.simBase (st.inserted env block gd).pending := by
  obtain ⟨mid, floor, hcleared, -, -, hpruned⟩ := accept_pruned c a
  obtain ⟨-, -, -, -, hlive⟩ := acceptFull_ledger st env block gd
  rw [hpruned.live, hcleared.live, hlive, recomputed_live, (inserted_value st env block gd).2.1]

/-- The replay goes over blocks of the node. -/
theorem mem_of_mem_pending (c : st.Consistent) {h : Hash} (hh : h ∈ st.pending) : h ∈ st.dag := by
  obtain ⟨tip, htip⟩ := c.selected
  have hmem := List.mem_of_mem_drop hh
  have hknown : tip ∈ st.ghostdag := (c.keyed.known tip).mpr (c.tip_mem htip)
  rw [canonicalOrder, htip] at hmem
  simp only [canonicalOrderAt_eq hknown, mem_foldl_emitBlock, List.not_mem_nil, false_or] at hmem
  obtain ⟨k, hk, rfl | hmerged⟩ := hmem
  · exact c.above_mem (c.tip_mem htip) ((GhostdagMap.mem_selectedChain c.descends).mp hk)
  · exact ExtTreeMap.contains_iff_mem.mp (List.mem_filter.mp hmerged).2

end Live

/-! ### Replays from an empty ledger -/

section Replay

variable {st : ChainState}

/-- A spend in some body of the DAG. -/
def Carries (st : ChainState) (tx : UtxoTx) : Prop :=
  ∃ (h : Hash) (b : Block), st.dag[h]? = some b ∧ tx ∈ b.utxoTxs

/-- The ids of the spends in the DAG do not collide. -/
def SpendIdsDistinct (st : ChainState) : Prop :=
  ∀ tx tx', st.Carries tx → st.Carries tx' → tx.txHash = tx'.txHash → tx.hashBytes = tx'.hashBytes

/-- No two blocks of the DAG share a coinbase id. -/
def MintIdsDistinct (st : ChainState) : Prop :=
  ∀ (h h' : Hash) (b b' : Block), st.dag[h]? = some b → st.dag[h']? = some b' →
    b.coinbaseTxid = b'.coinbaseTxid → h = h'

theorem goodTxs (hformed : ∀ {h : Hash} {b : Block}, st.dag[h]? = some b → ∀ tx ∈ b.utxoTxs,
    tx.validateForm = .ok () ∧ tx.CreditsAddressed) (hids : st.SpendIdsDistinct) :
    GoodTxs st.Carries where
  inputs_eq tx tx' htx htx' heq := by
    obtain ⟨h, b, hb, hmem⟩ := htx
    obtain ⟨h', b', hb', hmem'⟩ := htx'
    obtain ⟨-, -, hlen, -⟩ := UtxoTx.validateForm_ok (hformed hb tx hmem).1
    obtain ⟨-, -, hlen', -⟩ := UtxoTx.validateForm_ok (hformed hb' tx' hmem').1
    exact UtxoTx.inputs_eq_of_hashBytes hlen hlen'
      (hids tx tx' ⟨h, b, hb, hmem⟩ ⟨h', b', hb', hmem'⟩ heq)
  credits tx htx := by
    obtain ⟨h, b, hb, hmem⟩ := htx
    exact (hformed hb tx hmem).2

/-- Distinct blocks with distinct ids. -/
theorem nodup_coinbaseTxid (hmints : st.MintIdsDistinct) {hs : List Hash} (hnodup : hs.Nodup) :
    ((st.blocksAt hs).map (·.1.coinbaseTxid)).Nodup := by
  induction hs with
  | nil => exact List.nodup_nil
  | cons h hs ih =>
      obtain ⟨hnot, hnodup⟩ := List.nodup_cons.mp hnodup
      rw [← List.singleton_append, blocksAt_append, List.map_append]
      refine List.Nodup.append ?_ (ih hnodup) ?_
      · cases hb : st.dag[h]? <;> simp [blocksAt, hb]
      · intro id hid hid'
        obtain ⟨p, hp, rfl⟩ := List.mem_map.mp hid
        obtain ⟨p', hp', heq⟩ := List.mem_map.mp hid'
        obtain ⟨k, hk, hb, -⟩ := mem_blocksAt.mp hp
        obtain ⟨k', hk', hb', -⟩ := mem_blocksAt.mp hp'
        have := hmints k' k p'.1 p.1 hb' hb heq
        exact hnot (List.mem_singleton.mp hk ▸ this ▸ hk')

omit [Crypto] in
theorem carries_blocksAt {hs : List Hash} :
    ∀ p ∈ st.blocksAt hs, ∀ tx ∈ p.1.utxoTxs, st.Carries tx := by
  intro p hp tx htx
  obtain ⟨h, -, hb, -⟩ := mem_blocksAt.mp hp
  exact ⟨h, p.1, hb, htx⟩

/-- The replay invariant all along a canonical replay from an empty ledger. -/
theorem replayPoint_inv (hgood : GoodTxs st.Carries) (hmints : st.MintIdsDistinct) {tip : Hash}
    {s : Ledger × Nat}
    (hs : Ledger.ReplayPoint st.chainId {} (st.blocksAt (st.canonicalOrderAt tip)) s) :
    ∃ ids es, ReplayInv st.Carries ids s.1 s.2 ∧ View.Run u64Max ({} : Ledger).view es s.1.view :=
  hs.inv hgood (.empty _) carries_blocksAt
    (nodup_coinbaseTxid hmints (st.nodup_canonicalOrderAt tip)) (fun _ _ => List.not_mem_nil)

end Replay

/-! ### Conservation -/

/-- **Value is conserved along every run** of an archival node: every step of
the replay behind its live ledger keeps balances, stakes, outputs, escrows and
collected fees equal to the minted supply, below the cap. -/
theorem archival_value_conserved (easy : Bool) (calls : List (Env × Block))
    (hids : ((seeded easy true {}).run calls).SpendIdsDistinct)
    (hmints : ((seeded easy true {}).run calls).MintIdsDistinct) :
    let st := (seeded easy true {}).run calls
    st.live.total = st.live.mintedSupply ∧ st.live.mintedSupply ≤ maxSupply ∧
    ∀ tip s, st.selectedTip = some tip →
      Ledger.ReplayPoint st.chainId {} (st.blocksAt (st.canonicalOrderAt tip)) s →
      s.1.total + s.2 = s.1.mintedSupply ∧ s.1.mintedSupply ≤ maxSupply := by
  intro st
  have inv : Archival {} st := .run easy {} calls
  have hgood : GoodTxs st.Carries := goodTxs (fun hb => run_formed easy true {} calls hb) hids
  have hpoint : ∀ tip s, st.selectedTip = some tip →
      Ledger.ReplayPoint st.chainId {} (st.blocksAt (st.canonicalOrderAt tip)) s →
      s.1.total + s.2 = s.1.mintedSupply ∧ s.1.mintedSupply ≤ maxSupply := by
    intro tip s _ hs
    obtain ⟨ids, es, hinv, -⟩ := replayPoint_inv hgood hmints hs
    exact ⟨hinv.value, hinv.cap⟩
  obtain ⟨tip, htip⟩ := inv.whole.selected
  have hend := hpoint tip _ htip (.between (st.blocksAt (st.canonicalOrderAt tip)) [] (by simp))
  rw [inv.live htip]
  exact ⟨hend.1, hend.2, hpoint⟩

/-! ### Once only -/

/-- In every canonical replay, the outpoint a block mints is new. -/
def MintsFresh (st : ChainState) : Prop :=
  ∀ tip done p rest, st.blocksAt (st.canonicalOrderAt tip) = done ++ p :: rest →
    .coinbase p.1.coinbaseTxid
        ∉ ((({} : Ledger).replay st.chainId done).afterBody st.chainId p.2 p.1).1.utxo.entries ∧
      .coinbase p.1.coinbaseTxid
        ∉ ((({} : Ledger).replay st.chainId done).afterBody st.chainId p.2 p.1).1.utxo.spent

/-- Coinbase ids do not collide beyond the fields they commit to. -/
def MintHashesInjective (st : ChainState) : Prop :=
  ∀ (h h' : Hash) (b b' : Block), st.dag[h]? = some b → st.dag[h']? = some b' →
    b.coinbaseTxid = b'.coinbaseTxid → b.coinbaseBytes = b'.coinbaseBytes

/-- No two blocks of the DAG agree in every field a coinbase id commits to. -/
def NoTwins (st : ChainState) : Prop :=
  ∀ (h h' : Hash) (b b' : Block), st.dag[h]? = some b → st.dag[h']? = some b' → h ≠ h' →
    b.coinbaseFields ≠ b'.coinbaseFields

theorem mintsFresh {st : ChainState} (hmints : st.MintIdsDistinct) : st.MintsFresh := by
  intro tip done p rest hsplit
  have hnodup := nodup_coinbaseTxid hmints (st.nodup_canonicalOrderAt tip)
  have hempty : CoinbaseInv [] ({} : Ledger).utxo := by
    rintro id (h | h) <;> simp at h
  refine ((hempty.replay st.chainId done).block st.chainId p.2 p.1).1 fun hmem => ?_
  rw [hsplit, List.map_append, List.map_cons, List.nodup_append] at hnodup
  rw [List.append_nil, List.mem_reverse] at hmem
  exact hnodup.2.2 _ hmem _ (by simp) rfl

/-- **Every accepted block mints its own coinbase output exactly when there are
no twins.** -/
theorem mints_fresh_iff_no_twins (easy archival : Bool) (calls : List (Env × Block))
    (hinj : ((seeded easy archival {}).run calls).MintHashesInjective) :
    let st := (seeded easy archival {}).run calls
    (st.MintIdsDistinct ∧ st.MintsFresh) ↔ st.NoTwins := by
  intro st
  have hlen : ∀ {h : Hash} {b : Block}, st.dag[h]? = some b → b.parents.length < 2 ^ 64 := by
    intro h b hb
    have := run_blocks easy archival {} (Q := fun b => b.parents.length ≤ maxBlockParents)
      (Nat.zero_le _) (fun _ h => h) (fun a => (checkShape_eq_ok.mp a.shape).2.2.2.2.1) calls hb
    exact lt_of_le_of_lt this (by decide)
  constructor
  · rintro ⟨hmints, -⟩ h h' b b' hb hb' hne heq
    refine hne (hmints h h' b b' hb hb' ?_)
    rw [Block.coinbaseTxid, Block.coinbaseTxid, Block.coinbaseBytes_eq_of_fields heq]
  · intro hnone
    have hmints : st.MintIdsDistinct := by
      intro h h' b b' hb hb' heq
      by_contra hne
      exact hnone h h' b b' hb hb' hne (Block.coinbaseFields_eq_of_bytes (hlen hb) (hlen hb')
        (hinj h h' b b' hb hb' heq))
    exact ⟨hmints, mintsFresh hmints⟩

end Values

end ChainState

/-! ### One block, and twins -/

namespace Sample

/-- What is known of a mined block without its commitments. -/
structure MinedOn (parents : List Hash) (number nonce : Nat) (b : Block) : Prop where
  hash : b.hash = blockHash number nonce
  time : b.timestamp.toNat = time number
  links : b.interlinks.length ≤ 64
  body : b.items = []
  fields : b.coinbaseFields = ⟨.ofNat number, genesisTimestampMs + .ofNat number, parents,
    addressHash minerKey, Hash.zero, 0, minerKey⟩

theorem MinedOn.parents {parents : List Hash} {number nonce : Nat} {b : Block}
    (h : MinedOn parents number nonce b) : b.parents = parents :=
  congrArg CoinbaseFields.parents h.fields

theorem MinedOn.twin {parents : List Hash} {number nonce nonce' : Nat} {b b' : Block}
    (h : MinedOn parents number nonce b) (h' : MinedOn parents number nonce' b') :
    b.coinbaseFields = b'.coinbaseFields := h.fields.trans h'.fields.symm

theorem minedOn {st : ChainState} {parents : List Hash} {number nonce : Nat} {gd : GhostdagData}
    {sp : Hash} (hnumber : number < 2 ^ 40) (hnonce : nonce < 2 ^ 64)
    (hlinks : ∀ (h : Hash) (b : Block), st.dag[h]? = some b → b.interlinks.length ≤ 64)
    (hdata : st.computeGhostdag parents = .ok gd) (hsp : gd.selectedParent = some sp) :
    MinedOn parents number nonce (mined st parents number nonce) := by
  have hhash := mined_hash number nonce (by omega) hnonce hdata hsp
  have htime := draft_timestamp st parents nonce hnumber
  rw [mined_eq hdata hsp] at hhash ⊢
  refine ⟨hhash, htime, ?_, rfl, rfl⟩
  cases hb : st.dag[sp]? with
  | none => simp [committed, hb]
  | some b => simpa [committed, hb] using ChainState.length_computeInterlinks b (hlinks sp b hb)

/-- Mint ids of the sample primitives show two bytes of the height. -/
theorem coinbaseTxid_height (b : Block) : b.coinbaseTxid.toNat / 2 ^ 256 / 2 ^ 48 % 2 ^ 16
    = b.height.toNat % 2 ^ 16 := by
  have hdomain : (utf8 "hassan-coinbase-txid-v22").drop 18 = [105, 100, 45, 118, 50, 50] := by
    decide +kernel
  have hlen : (utf8 "hassan-coinbase-txid-v22").length = 24 := by decide +kernel
  have hwindow : (b.coinbaseBytes.drop 18).take 8 = [105, 100, 45, 118, 50, 50,
      UInt8.ofNat b.height.toNat, UInt8.ofNat (b.height.toNat / 256)] := by
    simp only [Block.coinbaseBytes, List.append_assoc]
    rw [List.drop_append_of_le_length (by omega), hdomain]
    simp [u64, Bytes.ofNatLE]
  have hread : Bytes.toNatLE ((b.coinbaseBytes.drop 18).take 8)
      = 55192312439913 + 2 ^ 48 * (b.height.toNat % 2 ^ 16) := by
    have hlow : (UInt8.ofNat b.height.toNat).toNat = b.height.toNat % 256 := by simp
    have hhigh : (UInt8.ofNat (b.height.toNat / 256)).toNat = b.height.toNat / 256 % 256 := by simp
    rw [hwindow]
    have hletters : UInt8.toNat 105 = 105 ∧ UInt8.toNat 100 = 100 ∧ UInt8.toNat 45 = 45 ∧
        UInt8.toNat 118 = 118 ∧ UInt8.toNat 50 = 50 := by decide
    simp only [Bytes.toNatLE]
    rw [hlow, hhigh]
    omega
  have hlast := Bytes.toNatLE_lt ((b.coinbaseBytes.drop (b.coinbaseBytes.length - 20)).take 8)
  have hwidth : ((b.coinbaseBytes.drop (b.coinbaseBytes.length - 20)).take 8).length ≤ 8 := by
    simp
  have hlast : Bytes.toNatLE ((b.coinbaseBytes.drop (b.coinbaseBytes.length - 20)).take 8) < 2 ^ 64 :=
    lt_of_lt_of_le hlast (Nat.pow_le_pow_right (by norm_num) hwidth)
  have hid : b.coinbaseTxid.toNat = ((Bytes.toNatLE ((b.coinbaseBytes.drop 18).take 8) + 2 ^ 64 *
      Bytes.toNatLE ((b.coinbaseBytes.drop (b.coinbaseBytes.length - 20)).take 8)) * 2 ^ 256)
        % 256 ^ 64 := rfl
  rw [hid, hread]
  generalize Bytes.toNatLE ((b.coinbaseBytes.drop (b.coinbaseBytes.length - 20)).take 8) = w at *
  have hfit : (55192312439913 + 2 ^ 48 * (b.height.toNat % 2 ^ 16) + 2 ^ 64 * w) * 2 ^ 256
      < 256 ^ 64 := by
    calc _ < 2 ^ 128 * 2 ^ 256 := Nat.mul_lt_mul_of_pos_right (by omega) (by positivity)
      _ ≤ 256 ^ 64 := by norm_num
  rw [Nat.mod_eq_of_lt hfit, Nat.mul_div_cancel _ (by positivity)]
  omega

theorem coinbaseTxid_ne {b b' : Block} (h : b.height.toNat % 2 ^ 16 ≠ b'.height.toNat % 2 ^ 16) :
    b.coinbaseTxid ≠ b'.coinbaseTxid := by
  intro heq
  rw [← coinbaseTxid_height, ← coinbaseTxid_height, heq] at h
  exact h rfl

/-- The chain of the genesis block is the genesis block. -/
theorem above_genesis {st : ChainState} (w : st.Whole)
    (hgenesis : st.dag[blockHash 0 0]? = some genesisBlock) {c : Hash}
    (h : Above st.ghostdag.spOf c (blockHash 0 0)) : c = blockHash 0 0 := by
  refine (w.dagInv.past_of_above h).resolve_right fun hpast => ?_
  obtain ⟨p, hp, -⟩ := hpast.cases_parent
  rw [Dag.parentsOf_eq hgenesis] at hp
  cases hp

/-- Block `1` can be mined with any nonce. -/
theorem admitted_nonce {st : ChainState} {nonce : Nat} (w : st.Whole) (hlow : Numbered.Shallow st)
    (hnonce : nonce < 2 ^ 64) (hfresh : blockHash 1 nonce ∉ st.dag)
    (hgenesis : st.dag[blockHash 0 0]? = some genesisBlock)
    (hlinks : ∀ (k : Hash) (b : Block), st.dag[k]? = some b → b.interlinks.length ≤ 64) :
    ∃ b gd sp, st.Admitted env b gd sp ∧ MinedOn [blockHash 0 0] 1 nonce b := by
  have hmem := DagInv.mem_of_getElem? hgenesis
  have hknown := (w.dagInv.known _).mpr hmem
  have hdata : st.computeGhostdag [blockHash 0 0] = .ok _ := tryCompute_onlyParent hknown
  have hahead : st.AheadOf (time 1) (blockHash 0 0) := by
    intro c b habove hb
    rw [above_genesis w hgenesis habove, hgenesis] at hb
    rw [← Option.some.inj hb]
    decide
  have hsealed := mined_sealed (by norm_num) hnonce hfresh (List.cons_ne_nil _ _) (by decide)
    (List.nodup_singleton _) (by simpa using ⟨hmem, hknown⟩) hlinks (by simpa using hahead)
    (fun fp hfp => by simp [hlow.finalityPoint_eq_none w] at hfp) hdata rfl
  obtain ⟨gd, sp, a⟩ := hsealed.admitted
  exact ⟨_, gd, sp, a, minedOn (by norm_num) hnonce hlinks hdata rfl⟩

/-- The blocks of an archival node after one more. -/
theorem getElem?_step_archival {st : ChainState} {b c : Block} {gd : GhostdagData} {sp h : Hash}
    (a : st.Admitted env b gd sp) (harch : st.archival = true) :
    (st.step (env, b)).dag[h]? = some c ↔ h = b.hash ∧ c = b ∨ h ≠ b.hash ∧ st.dag[h]? = some c := by
  rw [a.step, ChainState.accept_archival st env b gd harch, (st.acceptFull_core env b gd).dag,
    ChainState.insertBlock, ExtTreeMap.getElem?_insert]
  by_cases hh : b.hash = h
  · simp [hh, eq_comm]
  · simp [hh, Ne.symm hh]

/-- A node with one block on the genesis block. -/
structure First (b : Block) (st : ChainState) : Prop where
  archival : ChainState.Archival {} st
  mined : MinedOn [blockHash 0 0] 1 0 b
  block : ∀ h c, st.dag[h]? = some c ↔ h = blockHash 0 0 ∧ c = genesisBlock ∨
    h = blockHash 1 0 ∧ c = b

theorem exists_first : ∃ call, First call.2 ((ChainState.seeded false true {}).run [call]) := by
  have h₀ := numbered_seeded true
  have hgenesis : (ChainState.seeded false true {}).dag[blockHash 0 0]? = some genesisBlock := by
    obtain ⟨b, hb⟩ := DagInv.exists_block ((h₀.mem _).mpr ⟨0, by norm_num, rfl⟩)
    rw [hb, (ChainState.seeded_get false true {} hb).2]
  have hlinks : ∀ (k : Hash) (b : Block), (ChainState.seeded false true {}).dag[k]? = some b →
      b.interlinks.length ≤ 64 := by
    intro k b hb
    rw [(ChainState.seeded_get false true {} hb).2]
    exact Nat.zero_le _
  obtain ⟨b, gd, sp, a, hb⟩ := admitted_nonce h₀.whole (h₀.shallow (by decide)) (by norm_num) h₀.fresh
    hgenesis hlinks
  refine ⟨(env, b), .run false {} [(env, b)], hb, fun h c => ?_⟩
  rw [ChainState.run, List.foldl_cons, List.foldl_nil, getElem?_step_archival a rfl, hb.hash]
  constructor
  · rintro (hnew | ⟨-, hold⟩)
    · exact Or.inr hnew
    · obtain ⟨hh, rfl⟩ := ChainState.seeded_get false true {} hold
      exact Or.inl ⟨by rw [hh, genesis_hash], rfl⟩
  · rintro (⟨rfl, rfl⟩ | hnew)
    · exact Or.inr ⟨blockHash_ne (by norm_num) (by norm_num) (by norm_num), hgenesis⟩
    · exact Or.inl hnew

theorem MinedOn.height {parents : List Hash} {nonce : Nat} {b : Block}
    (h : MinedOn parents 1 nonce b) : b.height.toNat = 1 := by
  have hone : b.height = UInt64.ofNat 1 := congrArg CoinbaseFields.height h.fields
  rw [hone]
  decide

namespace First

variable {b : Block} {st : ChainState}

theorem links (f : First b st) {h : Hash} {c : Block} (hc : st.dag[h]? = some c) :
    c.interlinks.length ≤ 64 := by
  rcases (f.block h c).mp hc with ⟨-, rfl⟩ | ⟨-, rfl⟩
  · exact Nat.zero_le _
  · exact f.mined.links

theorem shallow (f : First b st) : Numbered.Shallow st := by
  intro x hx
  have hall : ∀ y ∈ st.dag, y ∈ [blockHash 0 0, blockHash 1 0] := by
    intro y hy
    obtain ⟨c, hc⟩ := DagInv.exists_block hy
    rcases (f.block y c).mp hc with ⟨rfl, -⟩ | ⟨rfl, -⟩ <;> simp
  have hlt := f.archival.whole.dagInv.score_lt_length hall hx
  have : finalityDepth = 432000 := rfl
  simp only [List.length_cons, List.length_nil] at hlt
  omega

/-- There is no spend in the two bodies. -/
theorem spendIdsDistinct (f : First b st) : st.SpendIdsDistinct := by
  rintro tx tx' ⟨h, c, hc, htx⟩ - -
  rcases (f.block h c).mp hc with ⟨-, rfl⟩ | ⟨-, rfl⟩
  · cases htx
  · rw [← Block.mem_items_utxo, f.mined.body] at htx
    cases htx

theorem mintIdsDistinct (f : First b st) : st.MintIdsDistinct := by
  have hheights : genesisBlock.height.toNat % 2 ^ 16 ≠ b.height.toNat % 2 ^ 16 := by
    rw [f.mined.height]
    decide
  intro h h' c c' hc hc' heq
  rcases (f.block h c).mp hc with ⟨rfl, rfl⟩ | ⟨rfl, rfl⟩
  · rcases (f.block h' c').mp hc' with ⟨rfl, -⟩ | ⟨-, rfl⟩
    · rfl
    · exact absurd heq (coinbaseTxid_ne hheights)
  · rcases (f.block h' c').mp hc' with ⟨-, rfl⟩ | ⟨rfl, -⟩
    · exact absurd heq.symm (coinbaseTxid_ne hheights)
    · rfl

end First

/-- Conservation on that node. -/
theorem value_conserved_first : ∃ call : Env × Block, call.2.parents ≠ [] ∧
    ((ChainState.seeded false true {}).run [call]).live.total
      = ((ChainState.seeded false true {}).run [call]).live.mintedSupply := by
  obtain ⟨call, f⟩ := exists_first
  have hne : call.2.parents ≠ [] := by simp [f.mined.parents]
  exact ⟨call, hne, (ChainState.archival_value_conserved false [call] f.spendIdsDistinct
    f.mintIdsDistinct).1⟩

/-- A node with two blocks on the genesis block that differ in their nonces. -/
structure Twins (b b' : Block) (st : ChainState) : Prop where
  archival : ChainState.Archival {} st
  first : MinedOn [blockHash 0 0] 1 0 b
  second : MinedOn [blockHash 0 0] 1 1 b'
  block : ∀ h c, st.dag[h]? = some c ↔ h = blockHash 0 0 ∧ c = genesisBlock ∨
    h = blockHash 1 0 ∧ c = b ∨ h = blockHash 1 1 ∧ c = b'

/-- The first block can be mined again with another nonce. -/
theorem First.twin {b : Block} {st : ChainState} (f : First b st) :
    ∃ b', Twins b b' (st.step (env, b')) := by
  have hnonce : ∀ {i j : Nat}, i < 2 ^ 64 → j < 2 ^ 64 → blockHash i 0 ≠ blockHash j 1 := by
    intro i j hi hj heq
    have := (blockHash_inj hi (by norm_num) hj (by norm_num) heq).2
    omega
  have hfresh : blockHash 1 1 ∉ st.dag := by
    intro hmem
    obtain ⟨c, hc⟩ := DagInv.exists_block hmem
    rcases (f.block _ c).mp hc with ⟨heq, -⟩ | ⟨heq, -⟩
    · exact hnonce (by norm_num) (by norm_num) heq.symm
    · exact hnonce (by norm_num) (by norm_num) heq.symm
  obtain ⟨b', gd, sp, a, hb'⟩ := admitted_nonce f.archival.whole f.shallow (by norm_num) hfresh
    ((f.block _ _).mpr (Or.inl ⟨rfl, rfl⟩)) fun _ _ hc => f.links hc
  refine ⟨b', ?_, f.mined, hb', fun h c => ?_⟩
  · rw [a.step]
    exact f.archival.accept a
  · rw [getElem?_step_archival a f.archival.archival, hb'.hash, f.block]
    constructor
    · rintro (hnew | ⟨-, hold | hold⟩)
      · exact Or.inr (Or.inr hnew)
      · exact Or.inl hold
      · exact Or.inr (Or.inl hold)
    · rintro (⟨rfl, rfl⟩ | ⟨rfl, rfl⟩ | hnew)
      · exact Or.inr ⟨hnonce (by norm_num) (by norm_num), Or.inl ⟨rfl, rfl⟩⟩
      · exact Or.inr ⟨hnonce (by norm_num) (by norm_num), Or.inr ⟨rfl, rfl⟩⟩
      · exact Or.inl hnew

theorem exists_twins : ∃ calls b b', Twins b b' ((ChainState.seeded false true {}).run calls) := by
  obtain ⟨call, f⟩ := exists_first
  obtain ⟨b', t⟩ := f.twin
  exact ⟨[call] ++ [(env, b')], call.2, b', by rw [ChainState.run_concat]; exact t⟩

namespace Twins

variable {b b' : Block} {st : ChainState}

/-- Every block is the genesis block or mints what the first one mints. -/
theorem genesis_or_mint (t : Twins b b' st) {h : Hash} {c : Block} (hc : st.dag[h]? = some c) :
    c = genesisBlock ∨ c.height.toNat = 1 ∧ c.coinbaseBytes = b.coinbaseBytes := by
  rcases (t.block h c).mp hc with ⟨-, rfl⟩ | ⟨-, rfl⟩ | ⟨-, rfl⟩
  · exact Or.inl rfl
  · exact Or.inr ⟨t.first.height, rfl⟩
  · exact Or.inr ⟨t.second.height, Block.coinbaseBytes_eq_of_fields (t.second.twin t.first)⟩

/-- The mint ids of the three blocks do not collide beyond their fields. -/
theorem mintHashesInjective (t : Twins b b' st) : st.MintHashesInjective := by
  have hgenesis : genesisBlock.height.toNat = 0 := by decide
  intro h h' c c' hc hc' heq
  have hheight : c.height.toNat % 2 ^ 16 = c'.height.toNat % 2 ^ 16 := by
    by_contra hne
    exact coinbaseTxid_ne hne heq
  rcases t.genesis_or_mint hc with rfl | ⟨hone, hbytes⟩
  · rcases t.genesis_or_mint hc' with rfl | ⟨hone', -⟩
    · rfl
    · omega
  · rcases t.genesis_or_mint hc' with rfl | ⟨-, hbytes'⟩
    · omega
    · exact hbytes.trans hbytes'.symm

end Twins

/-- Two accepted blocks that share a coinbase id. -/
theorem twins_share_mint : ¬ ∀ (easy archival : Bool) (calls : List (Env × Block)),
    ((ChainState.seeded easy archival {}).run calls).MintHashesInjective →
      ((ChainState.seeded easy archival {}).run calls).MintIdsDistinct ∧
        ((ChainState.seeded easy archival {}).run calls).MintsFresh := by
  intro hall
  obtain ⟨calls, b, b', t⟩ := exists_twins
  have hdistinct := (hall false true calls t.mintHashesInjective).1
  have heq := hdistinct (blockHash 1 0) (blockHash 1 1) b b'
    ((t.block _ _).mpr (Or.inr (Or.inl ⟨rfl, rfl⟩))) ((t.block _ _).mpr (Or.inr (Or.inr ⟨rfl, rfl⟩)))
    (by rw [Block.coinbaseTxid, Block.coinbaseTxid,
      Block.coinbaseBytes_eq_of_fields (t.first.twin t.second)])
  have := (blockHash_inj (by norm_num) (by norm_num) (by norm_num) (by norm_num) heq).2
  omega

/-- The equivalence at these twins. -/
theorem mints_fresh_iff_twins : ∃ calls : List (Env × Block),
    let st := (ChainState.seeded false true {}).run calls
    st.MintHashesInjective ∧ ((st.MintIdsDistinct ∧ st.MintsFresh) ↔ st.NoTwins) := by
  obtain ⟨calls, b, b', t⟩ := exists_twins
  exact ⟨calls, t.mintHashesInjective,
    ChainState.mints_fresh_iff_no_twins false true calls t.mintHashesInjective⟩

end Sample

end HassanNode
