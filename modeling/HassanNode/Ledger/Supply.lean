import Mathlib
import HassanNode.Ledger.ReplaySound
import HassanNode.Ledger.Ids

/-!
# HassanNode.Ledger.Supply

When the supply identity that the node asserts holds (`supply_invariant_ok`).

The identity leaves out what escrows hold. Value is conserved with the escrows counted
(`ReplayInv`), so on a ledger that replays have kept sound the identity says that no
escrow holds coins, and only `FundEscrow` puts coins there. Soundness needs every mint
to be new: a second mint of an outpoint replaces the first one, and both are counted as
minted.
-/

namespace HassanNode

open Std (ExtTreeMap)
open Params

section Escrows

variable [Crypto]

/-- The operation puts coins into an escrow: a `FundEscrow` of some coins that passes its
own tests on these accounts. -/
def RegistryState.Funds (r : RegistryState) (accounts : Accounts) (op : RegistryOp) : Prop :=
  op.verify = true ∧ op.nonce = (accounts.entry op.signerAddress).nonce ∧
    ∃ escrowId amount esc, op.action = .fundEscrow escrowId amount ∧ 0 < amount ∧
      r.escrows[escrowId]? = some esc ∧ op.signerAddress = esc.buyer ∧
      (esc.status = .open_ ∨ esc.status = .funded) ∧ amount ≤ (accounts.entry op.signerAddress).balance

variable {r r' : RegistryState} {accounts accounts' : Accounts} {op : RegistryOp} {ctx : RegistryCtx}

/-- Only `FundEscrow` raises what escrows hold. -/
theorem RegistryMove.escrows {signer : Address} {action : RegistryAction}
    (h : RegistryMove ctx signer r accounts action r' accounts') :
    Map.sumBy EscrowAccount.funded r'.escrows ≤ Map.sumBy EscrowAccount.funded r.escrows ∨
      ∃ escrowId amount esc, action = .fundEscrow escrowId amount ∧ 0 < amount ∧
        r.escrows[escrowId]? = some esc ∧ signer = esc.buyer ∧
        (esc.status = .open_ ∨ esc.status = .funded) ∧ amount ≤ (accounts.entry signer).balance := by
  have hinsert : ∀ (escrowId : Hash) (esc : EscrowAccount),
      esc.funded ≤ Map.valueAt EscrowAccount.funded r.escrows escrowId →
      Map.sumBy EscrowAccount.funded (r.escrows.insert escrowId esc) ≤ Map.sumBy EscrowAccount.funded r.escrows := by
    intro escrowId esc hle
    have hins := Map.sumBy_insert EscrowAccount.funded r.escrows escrowId esc
    omega
  cases h with
  | issue => exact Or.inl le_rfl
  | transfer => exact Or.inl le_rfl
  | «open» _ _ _ _ _ hzero => exact Or.inl (hinsert _ _ (hzero ▸ Nat.zero_le _))
  | @fund escrowId amount esc acct status hesc hopen hacct hbal _ hbuyer _ =>
      rcases Nat.eq_zero_or_pos amount with rfl | hpos
      · refine Or.inl (hinsert _ _ ?_)
        rw [Map.valueAt, hesc]
        exact min_le_left _ _
      · refine Or.inr ⟨escrowId, amount, esc, rfl, hpos, hesc, hbuyer, hopen, ?_⟩
        rwa [Accounts.entry, hacct, Option.getD_some]
  | release => exact Or.inl (hinsert _ _ (Nat.zero_le _))
  | refund => exact Or.inl (hinsert _ _ (Nat.zero_le _))

/-- **An operation that does not fund leaves no more in escrows** than there was. -/
theorem RegistryState.applyOp_escrows (hfunds : ¬ r.Funds accounts op) :
    Map.sumBy EscrowAccount.funded (r.applyOp accounts op ctx).1.1.escrows
      ≤ Map.sumBy EscrowAccount.funded r.escrows := by
  unfold RegistryState.applyOp
  dsimp only
  split
  · exact le_rfl
  · rename_i hverify
    split
    · exact le_rfl
    · rename_i hdue
      split
      · rename_i st hact
        refine (applyAction_move hact).escrows.resolve_right fun hfund => hfunds ⟨by simpa using hverify, not_not.mp hdue, ?_⟩
        obtain ⟨escrowId, amount, esc, haction, hpos, hesc, hbuyer, hopen, hbal⟩ := hfund
        refine ⟨escrowId, amount, esc, haction, hpos, hesc, hbuyer, hopen, ?_⟩
        -- the nonce is bumped before the arm runs, the balance is as before
        rwa [RegistryState.bumpNonce, Accounts.entry_insert, if_pos rfl] at hbal
      · exact le_rfl

end Escrows

namespace Ledger

variable [Crypto]

/-! ### Sound ledgers -/

/-- On a sound ledger the identity says that no escrow holds coins. -/
theorem supplyInvariantOk_iff {P : UtxoTx → Prop} {ids : List Hash} {l : Ledger} (hinv : ReplayInv P ids l 0) :
    l.supplyInvariantOk = true ↔ l.escrowTotal = 0 := by
  have hsup := maxSupply_le
  have hvalue := hinv.value
  have hcap := hinv.cap
  rw [Ledger.total] at hvalue
  rw [supplyInvariantOk, hinv.burned, beq_iff_eq, satAdd128_eq (a := l.accountsTotal) (by omega),
    satAdd128_eq (a := l.accountsTotal + l.stakedTotal) (by omega), satAdd128_eq (by omega)]
  omega

/-- A ledger that is sound and whose escrows are empty. -/
def Supplied (P : UtxoTx → Prop) (l : Ledger) : Prop := (∃ ids, ReplayInv P ids l 0) ∧ l.escrowTotal = 0

/-- What the identity needs of a block that is replayed on the ledger: none of its
operations funds an escrow when its turn comes, and the outpoint it mints, if it mints
anything, is neither live nor spent. -/
structure Counted (l : Ledger) (chainId score : Nat) (b : Block) : Prop where
  funds : ∀ items op later, b.items = items ++ .registry op :: later →
    ¬ (skipEach (applyItem (itemCtx chainId 0 score b)) (l, 0) items).1.registry.Funds
      (skipEach (applyItem (itemCtx chainId 0 score b)) (l, 0) items).1.accounts op
  mint : .create (.coinbase b.coinbaseTxid)
      ∈ (l.afterBody chainId score b).1.rewardEvents b score (l.afterBody chainId score b).2 →
    .coinbase b.coinbaseTxid ∉ (l.afterBody chainId score b).1.utxo.entries ∧
      .coinbase b.coinbaseTxid ∉ (l.afterBody chainId score b).1.utxo.spent

/-- Every block of a replay is counted on the ledger it meets. -/
def CountedReplay (l : Ledger) (chainId : Nat) (bs : List (Block × Nat)) : Prop :=
  ∀ done p rest, bs = done ++ p :: rest → p.1.parents ≠ [] → (l.replay chainId done).Counted chainId p.2 p.1

variable {P : UtxoTx → Prop} {ids : List Hash} {l : Ledger} {chainId score fees : Nat} {b : Block}
  {bs bs' : List (Block × Nat)}

theorem CountedReplay.prefix (h : l.CountedReplay chainId (bs ++ bs')) : l.CountedReplay chainId bs := by
  intro done p rest hsplit
  exact h done p (rest ++ bs') (by rw [hsplit, List.append_assoc, List.cons_append])

theorem Supplied.supplyInvariantOk (h : l.Supplied P) : l.supplyInvariantOk = true := by
  obtain ⟨⟨ids, hinv⟩, hescrow⟩ := h
  exact (supplyInvariantOk_iff hinv).mpr hescrow

theorem Supplied.empty (P : UtxoTx → Prop) : ({} : Ledger).Supplied P := by
  refine ⟨⟨[], .empty P⟩, ?_⟩
  simp [escrowTotal]

/-! ### One block -/

theorem applyItem_escrowTotal (ctx : ItemCtx) (s : Ledger × Nat) (item : BodyItem)
    (hfunds : ∀ op, item = .registry op → ¬ s.1.registry.Funds s.1.accounts op) :
    (applyItem ctx s item).1.1.escrowTotal ≤ s.1.escrowTotal := by
  cases item with
  | transparent tx => exact le_rfl
  | utxo tx =>
      simp only [applyItem]
      split <;> exact le_rfl
  | registry op => exact RegistryState.applyOp_escrows (hfunds op rfl)
  | custody op =>
      simp only [applyItem]
      split
      · rename_i l hl
        obtain ⟨-, balance, stake, rfl, -⟩ := applyCustodyOp_ok hl
        exact le_rfl
      · exact le_rfl

theorem escrowTotal_body {ctx : ItemCtx} {s : Ledger × Nat} {items : List BodyItem}
    (hfunds : ∀ before op later, items = before ++ .registry op :: later →
      ¬ (skipEach (applyItem ctx) s before).1.registry.Funds (skipEach (applyItem ctx) s before).1.accounts op) :
    (skipEach (applyItem ctx) s items).1.escrowTotal ≤ s.1.escrowTotal := by
  induction items generalizing s with
  | nil => exact le_rfl
  | cons item items ih =>
      have hfirst := applyItem_escrowTotal ctx s item fun op heq => hfunds [] op items (by rw [heq]; rfl)
      refine le_trans (ih fun before op later heq => ?_) hfirst
      exact hfunds (item :: before) op later (by rw [heq]; rfl)

/-- An id whose outpoint was never seen is no earlier mint. -/
theorem forget (hinv : ReplayInv P ids l fees) {id : Hash} (hlive : .coinbase id ∉ l.utxo.entries)
    (hdead : .coinbase id ∉ l.utxo.spent) : ∃ ids', ReplayInv P ids' l fees ∧ id ∉ ids' := by
  obtain ⟨⟨done, hdone, hutxo⟩, hvalue, hcap, hburned⟩ := hinv
  refine ⟨ids.filter (· ≠ id), ⟨⟨done, hdone, hutxo.disjoint, fun op hop => ?_, hutxo.inputs⟩, hvalue, hcap, hburned⟩, by simp⟩
  refine (hutxo.source op hop).imp_left fun hmint => ?_
  obtain ⟨id', hid', rfl⟩ := hmint
  refine ⟨id', List.mem_filter.mpr ⟨hid', ?_⟩, rfl⟩
  rw [decide_eq_true_iff]
  rintro rfl
  exact hop.elim hlive hdead

/-- A mint of a new outpoint, or of nothing. -/
theorem reward (hinv : ReplayInv P ids l fees) (hmint : .create (.coinbase b.coinbaseTxid) ∈ l.rewardEvents b score fees →
      .coinbase b.coinbaseTxid ∉ l.utxo.entries ∧ .coinbase b.coinbaseTxid ∉ l.utxo.spent) :
    ∃ ids', ReplayInv P ids' (l.applyBlockReward b score fees) 0 := by
  by_cases hzero : satAdd128 (min (blockSubsidy score) (maxSupply - l.mintedSupply)) fees = 0
  · have hfees : fees = 0 := by
      have hpos : 0 < u128Max := by decide
      rw [satAdd128] at hzero
      omega
    subst hfees
    rw [applyBlockReward, if_pos hzero]
    exact ⟨ids, hinv⟩
  · rw [rewardEvents, if_neg hzero] at hmint
    obtain ⟨hlive, hdead⟩ := hmint (List.mem_singleton.mpr rfl)
    obtain ⟨ids', hinv', hnew⟩ := forget hinv hlive hdead
    exact ⟨_, (hinv'.reward b score hnew).1⟩

theorem escrowTotal_reward (l : Ledger) (b : Block) (score fees : Nat) :
    (l.applyBlockReward b score fees).escrowTotal = l.escrowTotal := by
  rw [applyBlockReward]
  split <;> rfl

/-- **Step.** A counted block. -/
theorem Supplied.block (hP : GoodTxs P) (h : l.Supplied P) (htxs : ∀ tx ∈ b.utxoTxs, P tx)
    (hcounted : b.parents ≠ [] → l.Counted chainId score b) :
    (l.applyBlockEffects chainId 0 (some score) b).Supplied P := by
  obtain ⟨⟨ids, hinv⟩, hescrow⟩ := h
  by_cases hne : b.parents = []
  · rw [applyBlockEffects, if_pos hne]
    exact ⟨⟨ids, hinv⟩, hescrow⟩
  · have heq : l.applyBlockEffects chainId 0 (some score) b
        = (l.afterBody chainId score b).1.applyBlockReward b score (l.afterBody chainId score b).2 := by
      simp only [applyBlockEffects, if_neg hne, Option.getD_some, afterBody]
    have hbody : ReplayInv P ids (l.afterBody chainId score b).1 (l.afterBody chainId score b).2 :=
      (ReplayInv.body hP (itemCtx chainId 0 score b) b.items hinv fun tx htx =>
        htxs tx (Block.mem_items_utxo.mp htx)).1
    have hkept : (l.afterBody chainId score b).1.escrowTotal ≤ l.escrowTotal := escrowTotal_body (hcounted hne).funds
    rw [heq]
    refine ⟨reward hbody (hcounted hne).mint, ?_⟩
    rw [escrowTotal_reward]
    omega

/-- **Run.** Every moment of a counted replay. -/
theorem Supplied.replay (hP : GoodTxs P) (h : l.Supplied P) (htxs : ∀ p ∈ bs, ∀ tx ∈ p.1.utxoTxs, P tx)
    (hcounted : l.CountedReplay chainId bs) {done rest : List (Block × Nat)} (hsplit : bs = done ++ rest) :
    (l.replay chainId done).Supplied P := by
  induction done using List.reverseRecOn generalizing rest with
  | nil => exact h
  | append_singleton done p ih =>
      have hmid : bs = done ++ p :: rest := by rw [hsplit, List.append_assoc, List.singleton_append]
      rw [Ledger.replay, List.foldl_append, List.foldl_cons, List.foldl_nil]
      exact (ih hmid).block hP (htxs p (by rw [hmid]; simp)) (hcounted done p rest hmid)

end Ledger

end HassanNode
