import Mathlib
import HassanNode.Ledger.ReplaySound

/-!
# HassanNode.Ledger.Ids

What the ids of spends and mints commit to.

A spend's id commits to its inputs, in order (`inputs_eq_of_hashBytes`). A
coinbase id commits to seven header fields (`CoinbaseFields`) and to nothing
else: two blocks that differ only in the nonce, the difficulty, the interlinks
or the state root share it. Since the outputs of spends never use the coinbase
index, a mint is fresh exactly when no earlier mint had its id
(`CoinbaseInv`), whatever the spends do.
-/

namespace HassanNode

open Std (ExtTreeMap ExtTreeSet)
open Params Bincode

/-! ### Spends -/

theorem UtxoTx.length_inputSigningBytes (tin : TxIn) :
    (UtxoTx.inputSigningBytes tin).length = 72 := by
  simp [UtxoTx.inputSigningBytes, u32]

theorem UtxoTx.previous_eq_of_inputSigningBytes {tin tin' : TxIn}
    (h : UtxoTx.inputSigningBytes tin = UtxoTx.inputSigningBytes tin') :
    tin.previous = tin'.previous := by
  unfold UtxoTx.inputSigningBytes at h
  obtain ⟨h, -⟩ := List.append_inj h (by simp [u32])
  obtain ⟨htxid, hvout⟩ := List.append_inj h (by simp)
  have hv := Bytes.ofNatLE_inj tin.previous.vout.toNat_lt tin'.previous.vout.toNat_lt hvout
  exact OutPoint.ext (Hash.asBytes_injective htxid) (UInt32.toNat_inj.mp hv)

/-- The bytes behind a spend's id determine its inputs. -/
theorem UtxoTx.inputs_eq_of_hashBytes {tx tx' : UtxoTx} (hlen : tx.inputs.length ≤ 64)
    (hlen' : tx'.inputs.length ≤ 64) (h : tx.hashBytes = tx'.hashBytes) :
    tx.inputs.map (·.previous) = tx'.inputs.map (·.previous) := by
  simp only [UtxoTx.hashBytes, UtxoTx.signingBytes, List.append_assoc] at h
  obtain ⟨-, h⟩ := List.append_inj h (by simp [u64])
  obtain ⟨-, h⟩ := List.append_inj h (by simp [u128])
  obtain ⟨-, h⟩ := List.append_inj h (by simp [u64])
  obtain ⟨hcount, h⟩ := List.append_inj h (by simp [u32])
  have hcount := Bytes.ofNatLE_inj (by omega) (by omega) hcount
  obtain ⟨hmap, -⟩ := Bytes.flatMap_append_inj UtxoTx.length_inputSigningBytes hcount h
  refine List.ext_getElem (by simpa using hcount) ?_
  intro i hi hi'
  have := List.getElem_of_eq hmap (i := i) (by simpa using hi)
  simp only [List.getElem_map] at this ⊢
  exact UtxoTx.previous_eq_of_inputSigningBytes this

/-! ### Mints -/

/-- The header fields a coinbase id commits to. -/
structure CoinbaseFields where
  height : UInt64
  timestamp : UInt64
  parents : List Hash
  miner : Hash
  merkleRoot : Hash
  coinbaseEntropy : UInt64
  creatorPubkey : Bytes
  deriving DecidableEq

def Block.coinbaseFields (b : Block) : CoinbaseFields where
  height := b.height
  timestamp := b.timestamp
  parents := b.parents
  miner := b.miner
  merkleRoot := b.merkleRoot
  coinbaseEntropy := b.coinbaseEntropy
  creatorPubkey := b.creatorPubkey

/-- The bytes behind a coinbase id determine the seven fields. -/
theorem Block.coinbaseFields_eq_of_bytes {b b' : Block} (hlen : b.parents.length < 2 ^ 64)
    (hlen' : b'.parents.length < 2 ^ 64) (h : b.coinbaseBytes = b'.coinbaseBytes) :
    b.coinbaseFields = b'.coinbaseFields := by
  simp only [Block.coinbaseBytes, List.append_assoc] at h
  replace h := List.append_cancel_left h
  obtain ⟨hheight, h⟩ := List.append_inj h (by simp [u64])
  obtain ⟨htime, h⟩ := List.append_inj h (by simp [u64])
  obtain ⟨hcount, h⟩ := List.append_inj h (by simp [u64])
  have hcount := Bytes.ofNatLE_inj (by omega) (by omega) hcount
  obtain ⟨hparents, h⟩ := Bytes.flatMap_append_inj Hash.length_asBytes hcount h
  obtain ⟨hminer, h⟩ := List.append_inj h (by simp)
  obtain ⟨hroot, h⟩ := List.append_inj h (by simp)
  obtain ⟨hentropy, h⟩ := List.append_inj h (by simp [u64])
  obtain ⟨-, hkey⟩ := List.append_inj h (by simp [u64])
  have hu64 : ∀ {m n : UInt64}, u64 m.toNat = u64 n.toNat → m = n := fun {m n} heq =>
    UInt64.toNat_inj.mp (Bytes.ofNatLE_inj m.toNat_lt n.toNat_lt heq)
  simp only [Block.coinbaseFields, CoinbaseFields.mk.injEq]
  exact ⟨hu64 hheight, hu64 htime, List.map_injective_iff.mpr Hash.asBytes_injective hparents,
    Hash.asBytes_injective hminer, Hash.asBytes_injective hroot, hu64 hentropy, hkey⟩

theorem Block.coinbaseBytes_eq_of_fields {b b' : Block}
    (h : b.coinbaseFields = b'.coinbaseFields) : b.coinbaseBytes = b'.coinbaseBytes := by
  simp only [Block.coinbaseFields, CoinbaseFields.mk.injEq] at h
  obtain ⟨h₁, h₂, h₃, h₄, h₅, h₆, h₇⟩ := h
  simp only [Block.coinbaseBytes, h₁, h₂, h₃, h₄, h₅, h₆, h₇]

/-! ### Mints stay fresh -/

/-- Every coinbase outpoint a set has seen is one of the mints `ids`. -/
def CoinbaseInv (ids : List Hash) (u : UtxoSet) : Prop :=
  ∀ id, .coinbase id ∈ u.entries ∨ .coinbase id ∈ u.spent → id ∈ ids

/-- A mutation that creates no coinbase outpoint. -/
def UtxoEffect.NoMint : UtxoEffect → Prop
  | .create op _ => ∀ id, op ≠ .coinbase id
  | _ => True

theorem CoinbaseInv.apply {ids : List Hash} {u u' : UtxoSet} {accounts accounts' : Accounts}
    {e : UtxoEffect} (hinv : CoinbaseInv ids u) (he : e.NoMint)
    (h : e.apply u accounts = .ok (u', accounts')) : CoinbaseInv ids u' := by
  cases e with
  | spend op =>
      obtain ⟨u₁, hspend, heq⟩ := Except.bind_eq_ok h
      cases heq
      unfold UtxoSet.spend at hspend
      split at hspend
      · cases hspend
      · split at hspend
        · cases hspend
        · rename_i hlive
          cases hspend
          have hmem : op ∈ u.entries := by
            rw [ExtTreeMap.mem_iff_isSome_getElem?]
            cases hop : u.entries[op]? <;> simp_all
          intro id hid
          simp only [ExtTreeMap.mem_erase, ExtTreeSet.mem_insert,
            Std.LawfulEqCmp.compare_eq_iff_eq] at hid
          rcases hid with ⟨-, hid⟩ | rfl | hid
          · exact hinv id (Or.inl hid)
          · exact hinv id (Or.inl hmem)
          · exact hinv id (Or.inr hid)
  | credit address value =>
      have : u' = u := by
        cases address with
        | none => cases h
        | some addr =>
            simp only [UtxoEffect.apply] at h
            split at h
            · cases h
            · cases h
              rfl
      exact this ▸ hinv
  | create op out =>
      cases h
      intro id hid
      simp only [UtxoSet.insert, ExtTreeMap.mem_insert, ExtTreeSet.mem_erase, ne_eq,
        Std.LawfulEqCmp.compare_eq_iff_eq] at hid
      rcases hid with (heq | hid) | ⟨-, hid⟩
      · exact absurd heq (he id)
      · exact hinv id (Or.inl hid)
      · exact hinv id (Or.inr hid)

theorem CoinbaseInv.applyAll {ids : List Hash} {u : UtxoSet} {accounts : Accounts}
    {es : List UtxoEffect} (hinv : CoinbaseInv ids u) (hes : ∀ e ∈ es, e.NoMint) :
    CoinbaseInv ids (UtxoEffect.applyAll es u accounts).1.1 := by
  induction es generalizing u accounts with
  | nil => exact hinv
  | cons e es ih =>
      simp only [UtxoEffect.applyAll]
      split
      · rename_i u' accounts' he
        exact ih (hinv.apply (hes e (by simp)) he) fun e' h => hes e' (List.mem_cons_of_mem e h)
      · exact hinv

section Fresh

variable [Crypto]

/-- The outputs of a well-formed spend never use the coinbase index. -/
theorem UtxoTx.noMint_effects {tx : UtxoTx} (media : Nat) (hform : tx.validateForm = .ok ()) :
    ∀ e ∈ tx.effects media, e.NoMint := by
  obtain ⟨-, hlen, -, -⟩ := UtxoTx.validateForm_ok hform
  intro e he
  rcases List.mem_append.mp he with he | he
  · obtain ⟨tin, -, rfl⟩ := List.mem_map.mp he
    trivial
  · obtain ⟨⟨out, i⟩, hmem, rfl⟩ := List.mem_map.mp he
    have hi := List.snd_lt_of_mem_zipIdx hmem
    simp only [outputEffect]
    split
    · trivial
    · intro id heq
      exact coinbase_ne_ofNat (by omega) heq.symm

/-- No operation of a body mints. -/
theorem CoinbaseInv.item {ids : List Hash} (ctx : ItemCtx) {s : Ledger × Nat} (item : BodyItem)
    (hinv : CoinbaseInv ids s.1.utxo) : CoinbaseInv ids (Ledger.applyItem ctx s item).1.1.utxo := by
  cases item with
  | transparent tx => exact hinv
  | utxo tx =>
      have hset : CoinbaseInv ids (applyUtxoTx s.1.utxo s.1.accounts tx ctx.mediaBlue).1.1 := by
        unfold applyUtxoTx
        split
        · exact hinv
        · rename_i hcheck
          obtain ⟨hform, -, -⟩ := checkUtxoTx_ok hcheck
          have hrun : CoinbaseInv ids (UtxoEffect.applyAll (tx.effects ctx.mediaBlue) s.1.utxo
              s.1.accounts).1.1 := hinv.applyAll (UtxoTx.noMint_effects ctx.mediaBlue hform)
          split <;> simp_all
      simp only [Ledger.applyItem]
      split <;> simp_all
  | registry op => exact hinv
  | custody op =>
      simp only [Ledger.applyItem]
      cases hop : s.1.applyCustodyOp ctx.chainId op with
      | error e => exact hinv
      | ok l' =>
          obtain ⟨-, balance, stake, rfl, -⟩ := applyCustodyOp_ok hop
          exact hinv

/-- The mint a block makes when it is replayed on `l`: the ledger its body
leaves is where `apply_block_reward` inserts the coinbase. -/
def Ledger.afterBody (l : Ledger) (chainId score : Nat) (b : Block) : Ledger × Nat :=
  skipEach (Ledger.applyItem (Ledger.itemCtx chainId 0 score b)) (l, 0) b.items

/-- **A mint is fresh** when no earlier mint had its id; and then every coinbase
outpoint seen is one of the earlier ids or this one. -/
theorem CoinbaseInv.block {ids : List Hash} {l : Ledger} (chainId score : Nat) (b : Block)
    (hinv : CoinbaseInv ids l.utxo) :
    (b.coinbaseTxid ∉ ids →
      .coinbase b.coinbaseTxid ∉ (l.afterBody chainId score b).1.utxo.entries ∧
      .coinbase b.coinbaseTxid ∉ (l.afterBody chainId score b).1.utxo.spent) ∧
    CoinbaseInv (b.coinbaseTxid :: ids)
      (l.applyBlockEffects chainId 0 (some score) b).utxo := by
  have hbody : CoinbaseInv ids (l.afterBody chainId score b).1.utxo :=
    skipEach_induction (fun s : Ledger × Nat => CoinbaseInv ids s.1.utxo) hinv
      fun item _ s hs => hs.item _ item
  refine ⟨fun hnew => ⟨fun h => hnew (hbody _ (Or.inl h)), fun h => hnew (hbody _ (Or.inr h))⟩, ?_⟩
  simp only [Ledger.applyBlockEffects]
  split
  · exact fun id hid => List.mem_cons_of_mem _ (hinv id hid)
  · simp only [Ledger.applyBlockReward]
    split
    · exact fun id hid => List.mem_cons_of_mem _ (hbody id hid)
    · intro id hid
      simp only [UtxoSet.insert, ExtTreeMap.mem_insert, ExtTreeSet.mem_erase, ne_eq,
        Std.LawfulEqCmp.compare_eq_iff_eq] at hid
      rcases hid with (heq | hid) | ⟨-, hid⟩
      · have : b.coinbaseTxid = id := congrArg OutPoint.txid heq
        simp [this]
      · exact List.mem_cons_of_mem _ (hbody id (Or.inl hid))
      · exact List.mem_cons_of_mem _ (hbody id (Or.inr hid))

/-- After a replay, the coinbase outpoints seen are those of the replayed
blocks. -/
theorem CoinbaseInv.replay {ids : List Hash} {l : Ledger} (chainId : Nat)
    (bs : List (Block × Nat)) (hinv : CoinbaseInv ids l.utxo) :
    CoinbaseInv ((bs.map (·.1.coinbaseTxid)).reverse ++ ids) (l.replay chainId bs).utxo := by
  induction bs generalizing l ids with
  | nil => exact hinv
  | cons p bs ih =>
      have := ih (hinv.block chainId p.2 p.1).2
      simpa [Ledger.replay] using this

end Fresh

end HassanNode
