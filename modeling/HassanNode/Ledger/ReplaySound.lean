import Mathlib
import HassanNode.Lib.OneShot
import HassanNode.Ledger.State
import HassanNode.Ledger.UtxoSound
import HassanNode.Ledger.RegistrySound

/-!
# HassanNode.Ledger.ReplaySound

What replaying blocks does to a ledger that started empty.

Two results, carried by one invariant (`ReplayInv`) through every operation of
every block:

* **conservation**: free balances, stakes, live outputs and escrowed coins add
  up to the minted supply, which stays below the cap;
* **refinement**: the ledger, seen as outpoints and account nonces
  (`Ledger.view`), only ever takes enabled steps of the one-shot machine of
  `Lib/OneShot.lean`. The steps an operation takes are its *events*, read off
  the code by `itemEvents`.

The replayed blocks may conflict, repeat transactions and carry operations that
fail; what is needed of them is in `GoodBlocks`.
-/

namespace HassanNode

open Std (ExtTreeMap ExtTreeSet)
open OneShot (View)
open Params

/-! ### The view and the events -/

abbrev LedgerEvent := OneShot.Event OutPoint Address

/-- The ledger as the one-shot machine sees it. -/
def Ledger.view (l : Ledger) : View OutPoint Address where
  live := {op | op ∈ l.utxo.entries}
  dead := {op | op ∈ l.utxo.spent}
  counter := fun addr => (l.accounts.entry addr).nonce

/-- The event of one mutation of the UTXO set. -/
def UtxoEffect.event : UtxoEffect → Option LedgerEvent
  | .spend op => some (.spend op)
  | .credit _ _ => none
  | .create op _ => some (.create op)

/-- The mutations that are performed before one fails. -/
def UtxoEffect.executed : List UtxoEffect → UtxoSet → Accounts → List UtxoEffect
  | [], _, _ => []
  | e :: es, u, accounts =>
    match e.apply u accounts with
    | .ok (u', accounts') => e :: executed es u' accounts'
    | .error _ => []

namespace Ledger

section Events

variable [Crypto]

/-- The events of one operation: the mutations a spend performs, and the nonce
an account operation consumes. A registry operation consumes its nonce even
when its arm fails. -/
def itemEvents (ctx : ItemCtx) (l : Ledger) : BodyItem → List LedgerEvent
  | .transparent tx =>
    match l.applyTransparentTx ctx.chainId ctx.tipScore tx with
    | .ok _ => [.consume tx.from_ tx.nonce]
    | .error _ => []
  | .utxo tx =>
    match checkUtxoTx l.utxo tx ctx.mediaBlue with
    | .ok () =>
      (UtxoEffect.executed (tx.effects ctx.mediaBlue) l.utxo l.accounts).filterMap
        UtxoEffect.event
    | .error _ => []
  | .registry op =>
    if op.verify ∧ op.nonce = (l.accounts.entry op.signerAddress).nonce then
      [.consume op.signerAddress op.nonce]
    else []
  | .custody op =>
    match l.applyCustodyOp ctx.chainId op with
    | .ok _ => [.consume op.owner op.nonce]
    | .error _ => []

/-- The events of a body, operation by operation. -/
def bodyEvents (ctx : ItemCtx) : Ledger × Nat → List BodyItem → List LedgerEvent
  | _, [] => []
  | s, item :: items =>
    itemEvents ctx s.1 item ++ bodyEvents ctx (applyItem ctx s item).1 items

/-- The events of a mint. -/
def rewardEvents (l : Ledger) (b : Block) (blueScore fees : Nat) : List LedgerEvent :=
  if satAdd128 (min (blockSubsidy blueScore) (maxSupply - l.mintedSupply)) fees = 0 then []
  else [.create (.coinbase b.coinbaseTxid)]

/-- The events of a replayed block. -/
def blockEvents (l : Ledger) (chainId : Nat) (score : Nat) (b : Block) : List LedgerEvent :=
  if b.parents = [] then []
  else
    let ctx := itemCtx chainId 0 score b
    let s := skipEach (applyItem ctx) (l, 0) b.items
    bodyEvents ctx (l, 0) b.items ++ rewardEvents s.1 b score s.2

/-- Replay scored blocks in order. -/
def replay (chainId : Nat) (l : Ledger) (bs : List (Block × Nat)) : Ledger :=
  bs.foldl (fun l p => l.applyBlockEffects chainId 0 (some p.2) p.1) l

/-- The events of a replay, block by block. -/
def replayEvents (chainId : Nat) : Ledger → List (Block × Nat) → List LedgerEvent
  | _, [] => []
  | l, p :: bs => l.blockEvents chainId p.2 p.1
      ++ replayEvents chainId (l.applyBlockEffects chainId 0 (some p.2) p.1) bs

/-- The selected tip's score plays no part in a replay: only account transfers
read it, and these are rejected first. -/
theorem applyBlockEffects_tipScore (l : Ledger) (chainId tip tip' score : Nat) (b : Block) :
    l.applyBlockEffects chainId tip (some score) b
      = l.applyBlockEffects chainId tip' (some score) b := by
  have hitem : applyItem (itemCtx chainId tip score b) = applyItem (itemCtx chainId tip' score b) := by
    funext s item
    cases item <;> rfl
  simp only [applyBlockEffects, Option.getD_some, hitem]

end Events

end Ledger

/-! ### Account operations: nonces -/

namespace RegistryMove

variable [Crypto]

/-- An arm moves no nonce. -/
theorem nonces {ctx : RegistryCtx} {signer : Address} {r r' : RegistryState}
    {accounts accounts' : Accounts} {action : RegistryAction}
    (h : RegistryMove ctx signer r accounts action r' accounts') (addr : Address) :
    (accounts'.entry addr).nonce = (accounts.entry addr).nonce := by
  have hcredit : ∀ to_ amount, (Accounts.entry
      (RegistryState.creditAccount accounts to_ amount) addr).nonce
        = (accounts.entry addr).nonce := by
    intro to_ amount
    rw [RegistryState.creditAccount, Accounts.entry_insert]
    split
    · rename_i heq
      rw [heq]
    · rfl
  cases h with
  | issue => rfl
  | transfer => rfl
  | «open» => rfl
  | fund _ _ hacct _ _ =>
      rw [Accounts.entry_insert]
      split
      · rename_i heq
        subst heq
        simp [Accounts.entry, hacct]
      · rfl
  | release => exact hcredit _ _
  | refund =>
      simp only [RegistryState.refund]
      split
      · exact hcredit _ _
      · rfl

/-- An escrow arm keeps the sum of free and escrowed coins. -/
theorem value {ctx : RegistryCtx} {signer : Address} {r r' : RegistryState}
    {accounts accounts' : Accounts} {action : RegistryAction}
    (h : RegistryMove ctx signer r accounts action r' accounts')
    (hbound : Map.sumBy Account.balance accounts + Map.sumBy EscrowAccount.funded r.escrows
      ≤ u128Max) :
    Map.sumBy Account.balance accounts' + Map.sumBy EscrowAccount.funded r'.escrows
      = Map.sumBy Account.balance accounts + Map.sumBy EscrowAccount.funded r.escrows := by
  -- closing an escrow takes its coins out, and they are paid to one account
  have hpay : ∀ {escrowId esc} (closed : EscrowAccount) (to_ : Address),
      r.escrows[escrowId]? = some esc → closed.funded = 0 →
      Map.sumBy Account.balance (RegistryState.creditAccount accounts to_ esc.funded)
          + Map.sumBy EscrowAccount.funded (r.escrows.insert escrowId closed)
        = Map.sumBy Account.balance accounts + Map.sumBy EscrowAccount.funded r.escrows := by
    intro escrowId esc closed to_ hesc hclosed
    have hsum := Accounts.sum_insert accounts to_
      { accounts.entry to_ with
        balance := satAdd128 (accounts.entry to_).balance esc.funded }
    have hins := Map.sumBy_insert EscrowAccount.funded r.escrows escrowId closed
    have hval : Map.valueAt EscrowAccount.funded r.escrows escrowId = esc.funded := by
      simp [Map.valueAt, hesc]
    have hle := Map.valueAt_le_sumBy EscrowAccount.funded r.escrows escrowId
    have hbal := Map.valueAt_le_sumBy Account.balance accounts to_
    rw [Accounts.valueAt_balance] at hbal
    rw [hval] at hle hins
    have hsat : satAdd128 (accounts.entry to_).balance esc.funded
        = (accounts.entry to_).balance + esc.funded := satAdd128_eq (by omega)
    simp only [hsat] at hsum
    simp only [RegistryState.creditAccount, hsat]
    omega
  cases h with
  | issue => rfl
  | transfer => rfl
  | @«open» _ _ _ _ _ _ seed _ esc _ _ hfresh _ _ hzero =>
      have hins := Map.sumBy_insert EscrowAccount.funded r.escrows (deriveEscrowId signer seed) esc
      have hval : Map.valueAt EscrowAccount.funded r.escrows (deriveEscrowId signer seed) = 0 := by
        rw [ExtTreeMap.mem_iff_isSome_getElem?] at hfresh
        cases hget : r.escrows[deriveEscrowId signer seed]? <;> simp_all [Map.valueAt]
      dsimp only
      omega
  | @fund escrowId amount esc acct status hesc _ hacct hbal _ =>
      have hentry : accounts.entry signer = acct := by simp [Accounts.entry, hacct]
      have hsum := Accounts.sum_insert accounts signer { acct with balance := acct.balance - amount }
      have hins := Map.sumBy_insert EscrowAccount.funded r.escrows escrowId
        { esc with funded := satAdd128 esc.funded amount, status }
      have hval : Map.valueAt EscrowAccount.funded r.escrows escrowId = esc.funded := by
        simp [Map.valueAt, hesc]
      have hle := Map.valueAt_le_sumBy EscrowAccount.funded r.escrows escrowId
      have hbal' := Map.valueAt_le_sumBy Account.balance accounts signer
      rw [Accounts.valueAt_balance, hentry] at hbal'
      rw [hval] at hle hins
      have hsat : satAdd128 esc.funded amount = esc.funded + amount := satAdd128_eq (by omega)
      rw [hentry] at hsum
      dsimp only at hsum
      simp only [hsat] at hins ⊢
      omega
  | release hesc _ => exact hpay _ _ hesc rfl
  | @refund escrowId esc _ _ hesc _ =>
      simp only [RegistryState.refund]
      split
      · exact hpay _ _ hesc rfl
      · rename_i hzero
        have hins := Map.sumBy_insert EscrowAccount.funded r.escrows escrowId
          { esc with funded := 0, status := .refunded }
        have hval : Map.valueAt EscrowAccount.funded r.escrows escrowId = esc.funded := by
          simp [Map.valueAt, hesc]
        dsimp only at hins
        omega

end RegistryMove

section AccountOps

variable [Crypto]

omit [Crypto] in
theorem RegistryState.sum_bumpNonce (accounts : Accounts) (signer : Address) :
    Map.sumBy Account.balance (RegistryState.bumpNonce accounts signer)
      = Map.sumBy Account.balance accounts := by
  have := Accounts.sum_insert accounts signer
    { accounts.entry signer with nonce := satAdd64 (accounts.entry signer).nonce 1 }
  exact Nat.add_right_cancel this

/-- **What `apply_op` does to the accounts**: it conserves value, and it
consumes the signer's nonce exactly when the operation verifies and is due. -/
theorem applyOp_accounts (r : RegistryState) (accounts : Accounts) (op : RegistryOp)
    (ctx : RegistryCtx)
    (hbound : Map.sumBy Account.balance accounts + Map.sumBy EscrowAccount.funded r.escrows
      ≤ u128Max) :
    (Map.sumBy Account.balance (r.applyOp accounts op ctx).1.2
        + Map.sumBy EscrowAccount.funded (r.applyOp accounts op ctx).1.1.escrows
      = Map.sumBy Account.balance accounts + Map.sumBy EscrowAccount.funded r.escrows) ∧
    (fun addr => ((r.applyOp accounts op ctx).1.2.entry addr).nonce)
      = if op.verify = true ∧ op.nonce = (accounts.entry op.signerAddress).nonce then
          Function.update (fun addr => (accounts.entry addr).nonce) op.signerAddress
            (min (op.nonce + 1) u64Max)
        else fun addr => (accounts.entry addr).nonce := by
  have hbumped : (fun addr => (Accounts.entry
      (RegistryState.bumpNonce accounts op.signerAddress) addr).nonce)
        = Function.update (fun addr => (accounts.entry addr).nonce) op.signerAddress
            (min ((accounts.entry op.signerAddress).nonce + 1) u64Max) := by
    funext addr
    rw [RegistryState.bumpNonce, Accounts.entry_insert]
    by_cases h : op.signerAddress = addr
    · subst h
      simp [satAdd64]
    · simp [h, Function.update_of_ne (Ne.symm h)]
  unfold RegistryState.applyOp
  dsimp only
  split
  · rename_i hverify
    simp only [Bool.not_eq_eq_eq_not, Bool.not_true] at hverify
    simp [hverify]
  · rename_i hverify
    simp only [Bool.not_eq_eq_eq_not, Bool.not_true, Bool.not_eq_false] at hverify
    split
    · -- a stale nonce leaves the signer's record as it was
      rename_i hstale
      refine ⟨?_, ?_⟩
      · have := Accounts.sum_insert accounts op.signerAddress (accounts.entry op.signerAddress)
        dsimp only
        omega
      · rw [if_neg (fun h => hstale h.2)]
        funext addr
        rw [Accounts.entry_insert]
        split
        · rename_i h
          rw [h]
        · rfl
    · rename_i hdue
      have hdue := not_not.mp hdue
      rw [if_pos ⟨hverify, hdue⟩, hdue, ← hbumped]
      have hsum := RegistryState.sum_bumpNonce accounts op.signerAddress
      cases hact : r.applyAction (RegistryState.bumpNonce accounts op.signerAddress) ctx
          op.signerAddress op.action with
      | error e =>
          refine ⟨?_, rfl⟩
          dsimp only
          omega
      | ok st =>
          have hmove := applyAction_move hact
          refine ⟨?_, funext fun addr => hmove.nonces addr⟩
          rw [← hsum]
          exact hmove.value (by omega)

/-- **Inversion of `apply_custody_op`**: a stake is locked or unlocked, and the
nonce that was due is consumed. -/
theorem applyCustodyOp_ok {l l' : Ledger} {chainId : Nat} {op : CustodyCertificate}
    (h : l.applyCustodyOp chainId op = .ok l') :
    op.nonce = (l.accounts.entry op.owner).nonce ∧
    ∃ balance stake : Nat,
      l' = { l with
        accounts := l.accounts.insert op.owner
          { l.accounts.entry op.owner with
            balance := balance, nonce := satAdd64 (l.accounts.entry op.owner).nonce 1 }
        staked := l.staked.insert op.owner stake } ∧
      ((op.amount ≤ (l.accounts.entry op.owner).balance ∧
          balance = (l.accounts.entry op.owner).balance - op.amount ∧
          stake = wrapAdd128 (l.staked[op.owner]?.getD 0) op.amount) ∨
        (op.amount ≤ l.staked[op.owner]?.getD 0 ∧
          balance = wrapAdd128 (l.accounts.entry op.owner).balance op.amount ∧
          stake = l.staked[op.owner]?.getD 0 - op.amount)) := by
  unfold Ledger.applyCustodyOp at h
  split at h
  · cases h
  · split at h
    · cases h
    · split at h
      · cases h
      · obtain ⟨sid, -, h⟩ := Except.bind_eq_ok h
        obtain ⟨_, -, h⟩ := Except.bind_eq_ok h
        dsimp only at h
        split at h
        · cases h
        · rename_i hnonce
          refine ⟨not_not.mp hnonce, ?_⟩
          split at h
          · split at h
            · cases h
            · rename_i hle
              cases h
              exact ⟨_, _, rfl, Or.inl ⟨not_lt.mp hle, rfl, rfl⟩⟩
          · split at h
            · cases h
            · rename_i hle
              cases h
              exact ⟨_, _, rfl, Or.inr ⟨not_lt.mp hle, rfl, rfl⟩⟩
          · cases h
          · cases h

omit [Crypto] in
theorem wrapAdd128_eq {a b : Nat} (h : a + b ≤ u128Max) : wrapAdd128 a b = a + b := by
  unfold u128Max at h
  exact Nat.mod_eq_of_lt (by omega)

/-- A stake operation keeps the sum of free and staked coins. -/
theorem applyCustodyOp_value {l l' : Ledger} {chainId : Nat} {op : CustodyCertificate}
    (h : l.applyCustodyOp chainId op = .ok l')
    (hbound : l.accountsTotal + l.stakedTotal ≤ u128Max) :
    l'.accountsTotal + l'.stakedTotal = l.accountsTotal + l.stakedTotal := by
  obtain ⟨-, balance, stake, rfl, hcase⟩ := applyCustodyOp_ok h
  have hacct := Accounts.sum_insert l.accounts op.owner
    { l.accounts.entry op.owner with
      balance := balance, nonce := satAdd64 (l.accounts.entry op.owner).nonce 1 }
  have hstake := Map.sumBy_insert id l.staked op.owner stake
  have hlocked : Map.valueAt id l.staked op.owner = l.staked[op.owner]?.getD 0 := by
    simp [Map.valueAt]
  have hbal := Map.valueAt_le_sumBy Account.balance l.accounts op.owner
  have hle := Map.valueAt_le_sumBy id l.staked op.owner
  rw [Accounts.valueAt_balance] at hbal
  rw [hlocked] at hle hstake
  simp only [Ledger.accountsTotal, Ledger.stakedTotal, id_eq] at *
  rcases hcase with ⟨hamount, rfl, rfl⟩ | ⟨hamount, rfl, rfl⟩
  · rw [wrapAdd128_eq (by omega)] at *
    omega
  · rw [wrapAdd128_eq (by omega)] at *
    omega

end AccountOps

/-! ### One operation -/

/-- Everything of value: free balances, stakes, live outputs and escrows. -/
def Ledger.total (l : Ledger) : Nat :=
  l.accountsTotal + l.stakedTotal + l.utxo.totalValue + l.escrowTotal

section Items

variable [Crypto]

/-- A population of spends in which an id determines the inputs and every
credit names its account. -/
structure GoodTxs (P : UtxoTx → Prop) : Prop where
  inputs_eq : ∀ tx tx', P tx → P tx' → tx.txHash = tx'.txHash →
    tx.inputs.map (·.previous) = tx'.inputs.map (·.previous)
  credits : ∀ tx, P tx → tx.CreditsAddressed

/-- **The replay invariant**, with `fees` collected and not yet minted, and the
coinbases `ids` already minted. -/
structure ReplayInv (P : UtxoTx → Prop) (ids : List Hash) (l : Ledger) (fees : Nat) : Prop where
  utxo : ∃ done, (∀ tx ∈ done, P tx) ∧ UtxoInv done ids l.utxo
  value : l.total + fees = l.mintedSupply
  cap : l.mintedSupply ≤ maxSupply
  burned : l.feesBurned = 0

omit [Crypto] in
theorem maxSupply_le : maxSupply ≤ u128Max := by decide

omit [Crypto] in
/-- Mutations that all succeed are all performed. -/
theorem executed_of_ok {es : List UtxoEffect} {u u' : UtxoSet} {accounts accounts' : Accounts}
    (h : UtxoEffect.applyAll es u accounts = ((u', accounts'), .ok ())) :
    UtxoEffect.executed es u accounts = es := by
  induction es generalizing u accounts with
  | nil => rfl
  | cons e es ih =>
      cases he : UtxoEffect.apply u accounts e with
      | error err => simp [UtxoEffect.applyAll, he] at h
      | ok r =>
          simp only [UtxoEffect.applyAll, he] at h
          simp only [UtxoEffect.executed, he]
          exact congrArg (e :: ·) (ih h)

/-- The events of a spend that takes effect are its inputs and its new
outpoints, and they are a run. -/
theorem UtxoSpend.run {l : Ledger} {tx : UtxoTx} {media : Nat} {u' : UtxoSet}
    {accounts' : Accounts} (h : UtxoSpend l.utxo l.accounts tx media u' accounts') :
    View.Run u64Max l.view
      ((UtxoEffect.executed (tx.effects media) l.utxo l.accounts).filterMap UtxoEffect.event)
      { l with utxo := u', accounts := accounts' }.view := by
  have hexec : UtxoEffect.executed (tx.effects media) l.utxo l.accounts = tx.effects media :=
    executed_of_ok h.effects
  have hevents : (tx.effects media).filterMap UtxoEffect.event
      = (tx.inputs.map (·.previous)).map .spend ++ tx.created.map .create := by
    have hins : (tx.inputs.map fun tin => UtxoEffect.spend tin.previous).filterMap
        UtxoEffect.event = (tx.inputs.map (·.previous)).map .spend := by
      rw [List.filterMap_map, List.map_map]
      exact List.filterMap_eq_map_iff_forall_eq_some.mpr fun _ _ => rfl
    have houts : (tx.outputs.zipIdx.map (outputEffect tx.txHash media)).filterMap
        UtxoEffect.event = tx.created.map .create := by
      rw [UtxoTx.created, createdOutpoints, List.map_filterMap, List.filterMap_map]
      refine List.filterMap_congr fun o _ => ?_
      obtain ⟨out, i⟩ := o
      by_cases hc : out.predicate.isAccountCredit = true <;>
        simp [outputEffect, hc, UtxoEffect.event]
    rw [UtxoTx.effects, List.filterMap_append, hins, houts]
  obtain ⟨hform, -, -⟩ := checkUtxoTx_ok h.checked
  obtain ⟨-, hlen, -, hnodup⟩ := UtxoTx.validateForm_ok hform
  have hlive : ∀ op ∈ tx.inputs.map (·.previous), op ∈ l.view.live := by
    intro op hop
    obtain ⟨tin, htin, rfl⟩ := List.mem_map.mp hop
    exact h.live tin htin
  let v : View OutPoint Address := { l.view with
    live := l.view.live \ {op | op ∈ tx.inputs.map (·.previous)},
    dead := l.view.dead ∪ {op | op ∈ tx.inputs.map (·.previous)} }
  have hspends : View.Run u64Max l.view ((tx.inputs.map (·.previous)).map .spend) v :=
    View.Run.spends hnodup hlive
  have hfresh : ∀ op ∈ tx.created, op ∉ v.live ∧ op ∉ v.dead := by
    intro op hop
    obtain ⟨hnew, hnew'⟩ := h.fresh op hop
    refine ⟨fun hmem => hnew hmem.1, ?_⟩
    rintro (hdead | hin)
    · exact hnew' hdead
    · exact hnew (hlive op hin)
  rw [hexec, hevents]
  convert hspends.append (View.Run.creates (nodup_created hlen) hfresh) using 1
  ext x
  · exact h.entries x
  · exact h.spent x
  · exact h.nonces x
/-- **Step lemma.** One operation keeps the replay invariant, and its events
are a run of the one-shot machine. -/
theorem ReplayInv.item {P : UtxoTx → Prop} (hP : GoodTxs P) {ids : List Hash} (ctx : ItemCtx)
    {s : Ledger × Nat} (item : BodyItem) (hinv : ReplayInv P ids s.1 s.2)
    (hitem : ∀ tx, item = .utxo tx → P tx) :
    ReplayInv P ids (Ledger.applyItem ctx s item).1.1 (Ledger.applyItem ctx s item).1.2 ∧
      View.Run u64Max s.1.view (Ledger.itemEvents ctx s.1 item)
        (Ledger.applyItem ctx s item).1.1.view := by
  obtain ⟨l, fees⟩ := s
  obtain ⟨⟨done, hdone, hutxo⟩, hvalue, hcap, hburned⟩ := hinv
  dsimp only at hutxo hvalue hcap hburned ⊢
  have hsup := maxSupply_le
  have hsum := hvalue
  simp only [Ledger.total, Ledger.accountsTotal, Ledger.stakedTotal, Ledger.escrowTotal] at hsum
  cases item with
  | transparent tx =>
      -- account transfers are rejected before they read anything
      exact ⟨⟨⟨done, hdone, hutxo⟩, hvalue, hcap, hburned⟩, .nil l.view⟩
  | utxo tx =>
      have htx : P tx := hitem tx rfl
      have hbound : l.utxo.totalValue + Map.sumBy Account.balance l.accounts ≤ u128Max := by
        omega
      rcases applyUtxoTx_spec ctx.mediaBlue hutxo
          (fun tx' h => hP.inputs_eq tx' tx (hdone tx' h) htx) (hP.credits tx htx) hbound with
        ⟨e, hcheck, hrun⟩ | ⟨u', accounts', hrun, hspend⟩
      · simp only [Ledger.applyItem, Ledger.itemEvents, hrun, hcheck]
        exact ⟨⟨⟨done, hdone, hutxo⟩, hvalue, hcap, hburned⟩, .nil l.view⟩
      · simp only [Ledger.applyItem, Ledger.itemEvents, hrun, hspend.checked]
        have hspent := hspend.value
        refine ⟨⟨⟨tx :: done, ?_, hutxo.spend hspend⟩, ?_, hcap, hburned⟩, hspend.run⟩
        · simpa [htx] using hdone
        · have hfee : satAdd128 fees tx.fee = fees + tx.fee := satAdd128_eq (by omega)
          simp only [Ledger.total, Ledger.accountsTotal, Ledger.stakedTotal, Ledger.escrowTotal,
            hfee]
          omega
  | registry op =>
      simp only [Ledger.applyItem, Ledger.itemEvents]
      generalize hctx : RegistryCtx.mk ctx.timestamp ctx.height ctx.settlementIdHex ctx.mediaBlue
        = rctx
      obtain ⟨hkept, hnonce⟩ := applyOp_accounts l.registry l.accounts op rctx (by omega)
      generalize l.registry.applyOp l.accounts op rctx = st at hkept hnonce ⊢
      obtain ⟨⟨r', accounts'⟩, res⟩ := st
      dsimp only at hkept hnonce ⊢
      refine ⟨⟨⟨done, hdone, hutxo⟩, ?_, hcap, hburned⟩, ?_⟩
      · simp only [Ledger.total, Ledger.accountsTotal, Ledger.stakedTotal, Ledger.escrowTotal]
        omega
      · have hview : { l with registry := r', accounts := accounts' }.view
            = { l.view with counter := fun addr => (accounts'.entry addr).nonce } := rfl
        rw [hview, hnonce]
        split
        · rename_i hdue
          exact .cons hdue.2.symm (.nil _)
        · exact .nil l.view
  | custody op =>
      simp only [Ledger.applyItem, Ledger.itemEvents]
      cases hop : l.applyCustodyOp ctx.chainId op with
      | error e => exact ⟨⟨⟨done, hdone, hutxo⟩, hvalue, hcap, hburned⟩, .nil l.view⟩
      | ok l' =>
          have hkept := applyCustodyOp_value hop (by
            simp only [Ledger.accountsTotal, Ledger.stakedTotal]
            omega)
          obtain ⟨hdue, balance, stake, rfl, -⟩ := applyCustodyOp_ok hop
          have hview : { l with
              accounts := l.accounts.insert op.owner
                { l.accounts.entry op.owner with
                  balance := balance, nonce := satAdd64 (l.accounts.entry op.owner).nonce 1 }
              staked := l.staked.insert op.owner stake }.view
                = l.view.apply u64Max (.consume op.owner op.nonce) := by
            refine View.ext rfl rfl (funext fun addr => ?_)
            simp only [Ledger.view, View.apply, Accounts.entry_insert]
            by_cases h : op.owner = addr
            · subst h
              simp [satAdd64, hdue]
            · simp [h, Function.update_of_ne (Ne.symm h)]
          refine ⟨⟨⟨done, hdone, hutxo⟩, ?_, hcap, hburned⟩, .cons hdue.symm ?_⟩
          · simp only [Ledger.total, Ledger.accountsTotal, Ledger.stakedTotal,
              Ledger.escrowTotal] at hkept ⊢
            omega
          · rw [hview]
            exact .nil _

/-- **Run lemma for a body.** -/
theorem ReplayInv.body {P : UtxoTx → Prop} (hP : GoodTxs P) {ids : List Hash} (ctx : ItemCtx)
    {s : Ledger × Nat} (items : List BodyItem) (hinv : ReplayInv P ids s.1 s.2)
    (hitems : ∀ tx, .utxo tx ∈ items → P tx) :
    ReplayInv P ids (skipEach (Ledger.applyItem ctx) s items).1
        (skipEach (Ledger.applyItem ctx) s items).2 ∧
      View.Run u64Max s.1.view (Ledger.bodyEvents ctx s items)
        (skipEach (Ledger.applyItem ctx) s items).1.view := by
  induction items generalizing s with
  | nil => exact ⟨hinv, .nil s.1.view⟩
  | cons item items ih =>
      obtain ⟨hstep, hrun⟩ := ReplayInv.item hP ctx item hinv fun tx h => hitems tx (by simp [h])
      obtain ⟨hinv', hrun'⟩ := ih hstep fun tx h => hitems tx (List.mem_cons_of_mem item h)
      exact ⟨hinv', hrun.append hrun'⟩

/-- A mint under a new id: the fees leave the executor and the subsidy enters
the supply, both into one output that was never seen. -/
theorem ReplayInv.reward {P : UtxoTx → Prop} {ids : List Hash} {l : Ledger} {fees : Nat}
    (hinv : ReplayInv P ids l fees) (b : Block) (blueScore : Nat) (hnew : b.coinbaseTxid ∉ ids) :
    ReplayInv P (b.coinbaseTxid :: ids) (l.applyBlockReward b blueScore fees) 0 ∧
      View.Run u64Max l.view (l.rewardEvents b blueScore fees)
        (l.applyBlockReward b blueScore fees).view := by
  obtain ⟨⟨done, hdone, hutxo⟩, hvalue, hcap, hburned⟩ := hinv
  have hsup := maxSupply_le
  have hsub : min (blockSubsidy blueScore) (maxSupply - l.mintedSupply)
      ≤ maxSupply - l.mintedSupply := min_le_right _ _
  simp only [Ledger.applyBlockReward, Ledger.rewardEvents]
  generalize min (blockSubsidy blueScore) (maxSupply - l.mintedSupply) = subsidy at hsub ⊢
  have htotal : satAdd128 subsidy fees = subsidy + fees := satAdd128_eq (by omega)
  rw [htotal]
  split
  · rename_i hzero
    exact ⟨⟨⟨done, hdone, hutxo.cons_id _⟩, by omega, hcap, hburned⟩, .nil l.view⟩
  · obtain ⟨⟨hlive, hdead⟩, hutxo'⟩ := hutxo.mint hnew
      { value := subsidy + fees, predicate := .payToAddress (Address.encodeHash b.miner),
        createdBlue := blueScore }
    have hminted : (if subsidy > 0 then satAdd128 l.mintedSupply subsidy else l.mintedSupply)
        = l.mintedSupply + subsidy := by
      split
      · exact satAdd128_eq (by omega)
      · omega
    have hins := Map.sumBy_insert TxOut.value l.utxo.entries (.coinbase b.coinbaseTxid)
      { value := subsidy + fees, predicate := .payToAddress (Address.encodeHash b.miner),
        createdBlue := blueScore }
    have hnone : Map.valueAt TxOut.value l.utxo.entries (.coinbase b.coinbaseTxid) = 0 := by
      rw [ExtTreeMap.mem_iff_isSome_getElem?] at hlive
      cases h : l.utxo.entries[OutPoint.coinbase b.coinbaseTxid]? <;> simp_all [Map.valueAt]
    have hview : { l with
        mintedSupply := if subsidy > 0 then satAdd128 l.mintedSupply subsidy else l.mintedSupply
        utxo := l.utxo.insert (.coinbase b.coinbaseTxid)
          { value := subsidy + fees, predicate := .payToAddress (Address.encodeHash b.miner),
            createdBlue := blueScore } }.view
          = l.view.apply u64Max (.create (.coinbase b.coinbaseTxid)) := by
      refine View.ext (Set.ext fun op => ?_) (Set.ext fun op => ?_) rfl
      · simp only [Ledger.view, View.apply, UtxoSet.insert, Set.mem_ofPred_eq,
          ExtTreeMap.mem_insert, Std.LawfulEqCmp.compare_eq_iff_eq, Set.mem_insert_iff,
          @eq_comm _ op]
      · simp only [Ledger.view, View.apply, UtxoSet.insert, Set.mem_ofPred_eq,
          ExtTreeSet.mem_erase, ne_eq, Std.LawfulEqCmp.compare_eq_iff_eq]
        exact ⟨fun h => h.2, fun h => ⟨fun heq => hdead (heq ▸ h), h⟩⟩
    refine ⟨⟨⟨done, hdone, hutxo'⟩, ?_, ?_, hburned⟩, .cons ⟨hlive, hdead⟩ ?_⟩
    · simp only [Ledger.total, Ledger.accountsTotal, Ledger.stakedTotal, Ledger.escrowTotal,
        UtxoSet.totalValue, UtxoSet.insert, hminted] at hvalue ⊢
      dsimp only at hins
      omega
    · simp only [hminted]
      omega
    · rw [hview]
      exact .nil _

end Items

/-! ### Whole replays -/

section Blocks

variable [Crypto]

omit [Crypto] in
theorem Block.mem_items_utxo {b : Block} {tx : UtxoTx} : .utxo tx ∈ b.items ↔ tx ∈ b.utxoTxs := by
  simp [Block.items]

/-- A replayed block keeps the invariant, and its events are a run. -/
theorem ReplayInv.block {P : UtxoTx → Prop} (hP : GoodTxs P) {ids : List Hash} {l : Ledger}
    (chainId score : Nat) (b : Block) (hinv : ReplayInv P ids l 0)
    (htxs : ∀ tx ∈ b.utxoTxs, P tx) (hnew : b.coinbaseTxid ∉ ids) :
    ReplayInv P (b.coinbaseTxid :: ids) (l.applyBlockEffects chainId 0 (some score) b) 0 ∧
      View.Run u64Max l.view (l.blockEvents chainId score b)
        (l.applyBlockEffects chainId 0 (some score) b).view := by
  simp only [Ledger.applyBlockEffects, Ledger.blockEvents]
  split
  · obtain ⟨⟨done, hdone, hutxo⟩, hvalue, hcap, hburned⟩ := hinv
    exact ⟨⟨⟨done, hdone, hutxo.cons_id _⟩, hvalue, hcap, hburned⟩, .nil l.view⟩
  · obtain ⟨hbody, hrun⟩ := ReplayInv.body hP (Ledger.itemCtx chainId 0 score b) (s := (l, 0)) b.items
      hinv fun tx h => htxs tx (Block.mem_items_utxo.mp h)
    obtain ⟨hreward, hrun'⟩ := hbody.reward b score hnew
    exact ⟨hreward, hrun.append hrun'⟩

/-- **Run lemma for a replay.** Blocks whose spends are good and whose coinbase
ids are new and distinct keep the invariant, and the events of the whole replay
are a run. -/
theorem ReplayInv.replay {P : UtxoTx → Prop} (hP : GoodTxs P) {ids : List Hash} {l : Ledger}
    (chainId : Nat) {bs : List (Block × Nat)} (hinv : ReplayInv P ids l 0)
    (htxs : ∀ p ∈ bs, ∀ tx ∈ p.1.utxoTxs, P tx)
    (hnodup : (bs.map (·.1.coinbaseTxid)).Nodup) (hnew : ∀ p ∈ bs, p.1.coinbaseTxid ∉ ids) :
    (∃ ids', ReplayInv P ids' (l.replay chainId bs) 0) ∧
      View.Run u64Max l.view (l.replayEvents chainId bs) (l.replay chainId bs).view := by
  induction bs generalizing l ids with
  | nil => exact ⟨⟨ids, hinv⟩, .nil l.view⟩
  | cons p bs ih =>
      rw [List.map_cons, List.nodup_cons] at hnodup
      obtain ⟨hblock, hrun⟩ := ReplayInv.block hP chainId p.2 p.1 hinv
        (htxs p (by simp)) (hnew p (by simp))
      have hnew' : ∀ q ∈ bs, q.1.coinbaseTxid ∉ p.1.coinbaseTxid :: ids := by
        intro q hq hmem
        rcases List.mem_cons.mp hmem with heq | hmem
        · exact hnodup.1 (heq ▸ List.mem_map_of_mem hq)
        · exact hnew q (List.mem_cons_of_mem p hq) hmem
      obtain ⟨hinv', hrun'⟩ := ih hblock (fun q hq => htxs q (List.mem_cons_of_mem p hq))
        hnodup.2 hnew'
      exact ⟨hinv', hrun.append hrun'⟩

theorem ReplayInv.empty (P : UtxoTx → Prop) : ReplayInv P [] {} 0 where
  utxo := ⟨[], by simp, UtxoInv.empty⟩
  value := by
    simp [Ledger.total, Ledger.accountsTotal, Ledger.stakedTotal, Ledger.escrowTotal,
      UtxoSet.totalValue]
  cap := Nat.zero_le _
  burned := rfl

end Blocks

end HassanNode
