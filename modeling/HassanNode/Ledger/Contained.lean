import Mathlib
import HassanNode.Lib.InPlace
import HassanNode.Lib.Checked
import HassanNode.Ledger.Debits
import HassanNode.Ledger.AccountKeys

/-!
# HassanNode.Ledger.Contained

What a refused operation leaves behind (`RegistryState::apply_op`,
`apply_custody_op`).

`Ledger/Registry.lean` and `Ledger/State.lean` give the two functions by their
results. Here they are once more, write by write in the order of the source, as
computations that keep what they wrote before they failed (`Lib/InPlace.lean`).
Every arm of `apply_op` tests first and writes last, so the one write that can
survive a failure is the nonce (`applyOpInPlace_contained`); a custody operation
writes nothing before its last test, and on a ledger whose coins fit the supply
none of its arithmetic overflows (`custodyInPlace_local`).
-/

namespace HassanNode

open Std (ExtTreeMap)
open Params InPlace

/-! ### Registry operations, write by write -/

namespace RegistryState

/-- A step of `apply_op`, on the registry and the accounts. -/
abbrev OpStep := InPlace String (RegistryState × Accounts)

/-- `titles.get_mut(tid).ok_or(..)`. -/
def titleMut (tid : Hash) (e : String) : OpStep TitleDeed := do
  let s ← read
  need s.1.titles[tid]? e

/-- `escrows.get_mut(escrow_id).ok_or(..)`. -/
def escrowMut (escrowId : Hash) : OpStep EscrowAccount := do
  let s ← read
  need s.1.escrows[escrowId]? "Escrow not found"

def setTitle (tid : Hash) (deed : TitleDeed) : OpStep Unit :=
  write fun s => ({ s.1 with titles := s.1.titles.insert tid deed }, s.2)

def setEscrow (escrowId : Hash) (esc : EscrowAccount) : OpStep Unit :=
  write fun s => ({ s.1 with escrows := s.1.escrows.insert escrowId esc }, s.2)

def setAccount (addr : Address) (acct : Account) : OpStep Unit :=
  write fun s => (s.1, s.2.insert addr acct)

/-- `accounts.entry(addr).or_insert(..)`, then a saturating credit. -/
def creditInPlace (addr : Address) (amount : Nat) : OpStep Unit :=
  write fun s => (s.1, creditAccount s.2 addr amount)

/-- `if let Some(deed) = titles.get_mut(tid)`. -/
def changeTitle (f : TitleDeed → TitleDeed) (tid : Option Hash) : OpStep Unit :=
  write fun s => ({ s.1 with titles := updateTitle s.1.titles f tid }, s.2)

/-- The title checks of `OpenEscrow`. -/
def checkTitleInPlace (seller : Address) : Option Hash → OpStep Unit
  | none => pure ()
  | some tid => do
    let deed ← titleMut tid "Title not found for escrow"
    check (deed.currentOwner = seller) "Escrow title must be owned by seller"
    check (deed.escrowId = none) "Title already in escrow"

/-- The tail of `RefundEscrow` and `TimeoutClaimEscrow`: close the escrow, pay the
buyer back, unlock the title. -/
def refundInPlace (escrowId : Hash) (esc : EscrowAccount) : OpStep Unit := do
  setEscrow escrowId { esc with funded := 0, status := .refunded }
  if esc.funded > 0 then creditInPlace esc.buyer esc.funded else pure ()
  changeTitle (fun deed => { deed with escrowId := none }) esc.titleId

variable [Crypto]

/-- The arms of `apply_op`. -/
def armInPlace (ctx : RegistryCtx) (signer : Address) : RegistryAction → OpStep Unit
  | .issueTitle owner assetClass description titleSeed => do
    let titleId := deriveTitleId signer titleSeed
    let s ← read
    check (titleId ∉ s.1.titles) "Title already issued"
    setTitle titleId
      { titleId, assetClass, description, currentOwner := owner, issuedAt := ctx.timestamp,
        history := [{ timestamp := ctx.timestamp, blockHeight := ctx.height,
                      settlementId := ctx.settlementIdHex, event := utf8 "issued", from_ := none,
                      to_ := owner, memo := utf8 "original issuance" }],
        escrowId := none, lienholder := none }
  | .transferTitle titleId to_ memo => do
    let deed ← titleMut titleId "Title not found"
    check (deed.currentOwner = signer) "Only the current owner can transfer title"
    check (deed.escrowId = none) "Title is locked in escrow"
    setTitle titleId (deed.moveTo ctx (utf8 "transferred") to_ memo)
  | .openEscrow buyer seller arbiter amount titleId memo escrowSeed timeoutBlue => do
    check (amount ≠ 0) "Escrow amount must be positive"
    checkTitleInPlace seller titleId
    let escrowId := deriveEscrowId signer escrowSeed
    let s ← read
    check (escrowId ∉ s.1.escrows) "Escrow already exists"
    changeTitle (fun deed => { deed with escrowId := some escrowId }) titleId
    setEscrow escrowId
      { escrowId, buyer, seller, arbiter, amount, funded := 0, status := .open_, titleId,
        openedAt := ctx.timestamp, memo, timeoutBlue }
  | .fundEscrow escrowId amount => do
    let esc ← escrowMut escrowId
    check (signer = esc.buyer) "Only the buyer can fund escrow"
    check (esc.status = .open_ ∨ esc.status = .funded) "Escrow is not open for funding"
    let s ← read
    let acct ← need s.2[signer]? "Buyer account missing"
    check (amount ≤ acct.balance) "Insufficient balance to fund escrow"
    setAccount signer { acct with balance := acct.balance - amount }
    let esc := { esc with funded := satAdd128 esc.funded amount }
    setEscrow escrowId esc
    if esc.funded ≥ esc.amount then setEscrow escrowId { esc with status := .funded } else pure ()
  | .releaseEscrow escrowId => do
    let esc ← escrowMut escrowId
    check (signer = esc.buyer)
      "Not authorized to release escrow (buyer must sign; arbiter cannot act alone)"
    check (esc.status = .funded) "Escrow must be fully funded before release"
    setEscrow escrowId { esc with funded := 0, status := .released }
    creditInPlace esc.seller esc.funded
    changeTitle (fun deed => { deed with escrowId := none }.moveTo ctx (utf8 "escrow_released")
      esc.buyer (utf8 "title cleared through escrow")) esc.titleId
  | .refundEscrow escrowId => do
    let esc ← escrowMut escrowId
    check (refundAuthorized esc signer)
      "Not authorized to refund escrow (Open→buyer; Funded→seller; no unilateral arbiter)"
    check (¬ (esc.status = .released ∨ esc.status = .refunded)) "Escrow already closed"
    refundInPlace escrowId esc
  | .timeoutClaimEscrow escrowId => do
    let esc ← escrowMut escrowId
    check (signer = esc.buyer) "Only the buyer can timeout-claim escrow"
    check (esc.status = .funded) "Escrow must be funded for timeout claim"
    check (esc.timeoutBlue ≠ 0) "Escrow has no timeout path"
    check (esc.timeoutBlue ≤ ctx.blueScore)
      s!"Timeout not reached: blue_score {ctx.blueScore} < {esc.timeoutBlue}"
    refundInPlace escrowId esc

/-- `apply_op`: the signer's account is created and its nonce advanced before the
arm runs. -/
def applyOpInPlace (op : RegistryOp) (ctx : RegistryCtx) : OpStep Unit := do
  check (op.verify = true) "Invalid registry signature"
  let signer := op.signerAddress
  write fun s => (s.1, s.2.insert signer (s.2.entry signer))
  let s ← read
  let acct := s.2.entry signer
  check (op.nonce = acct.nonce) "Stale or future nonce on registry op"
  setAccount signer { acct with nonce := satAdd64 acct.nonce 1 }
  armInPlace ctx signer op.action

/-! ### The two descriptions agree -/

omit [Crypto] in
theorem titleMut_bind {β : Type} (tid : Hash) (e : String) (f : TitleDeed → OpStep β)
    (s : RegistryState × Accounts) :
    (titleMut tid e >>= f) s = (need s.1.titles[tid]? e >>= f) s := by
  rw [titleMut, bind_assoc, read_bind]

omit [Crypto] in
theorem escrowMut_bind {β : Type} (escrowId : Hash) (f : EscrowAccount → OpStep β)
    (s : RegistryState × Accounts) :
    (escrowMut escrowId >>= f) s = (need s.1.escrows[escrowId]? "Escrow not found" >>= f) s := by
  rw [escrowMut, bind_assoc, read_bind]

omit [Crypto] in
theorem refundInPlace_eq (escrowId : Hash) (esc : EscrowAccount) (r : RegistryState)
    (accounts : Accounts) :
    refundInPlace escrowId esc (r, accounts) = (r.refund accounts escrowId esc, .ok ()) := by
  simp only [refundInPlace, setEscrow, write_bind, refund]
  split
  · simp [creditInPlace, changeTitle, unlockTitle]
  · simp [changeTitle, unlockTitle]

omit [Crypto] in
theorem checkTitleInPlace_eq (seller : Address) (titleId : Option Hash) (r : RegistryState)
    (accounts : Accounts) :
    checkTitleInPlace seller titleId (r, accounts)
      = ((r, accounts), r.checkEscrowTitle seller titleId) := by
  cases titleId with
  | none => rfl
  | some tid =>
      simp only [checkTitleInPlace, titleMut_bind, checkEscrowTitle]
      cases r.titles[tid]? with
      | none => rfl
      | some deed =>
          simp only [need_bind_some, check_bind]
          by_cases howner : deed.currentOwner = seller
          · cases hlock : deed.escrowId with
            | none => simp [howner, check]
            | some lock => simp [howner, check]
          · simp [howner]

/-- How a computed result is left behind. -/
def settle (r : RegistryState) (accounts : Accounts) :
    Except String (RegistryState × Accounts) → (RegistryState × Accounts) × Except String Unit
  | .ok st => (st, .ok ())
  | .error e => ((r, accounts), .error e)

/-- **The arms by their writes are the arms by their results.** -/
theorem armInPlace_eq (ctx : RegistryCtx) (signer : Address) (action : RegistryAction)
    (r : RegistryState) (accounts : Accounts) :
    armInPlace ctx signer action (r, accounts)
      = settle r accounts (r.applyAction accounts ctx signer action) := by
  cases action with
  | issueTitle owner cls description seed =>
      simp only [armInPlace, read_bind, check_bind, applyAction, issueTitle]
      by_cases hfresh : deriveTitleId signer seed ∈ r.titles
      · simp [hfresh, settle, Except.map]
      · simp [hfresh, settle, Except.map, setTitle]
  | transferTitle titleId to_ memo =>
      simp only [armInPlace, titleMut_bind, applyAction, transferTitle]
      cases r.titles[titleId]? with
      | none => rfl
      | some deed =>
          simp only [need_bind_some, check_bind]
          by_cases howner : deed.currentOwner = signer
          · cases hlock : deed.escrowId with
            | none => simp [howner, settle, Except.map, setTitle]
            | some lock => simp [howner, settle, Except.map]
          · simp [howner, settle, Except.map]
  | openEscrow buyer seller arbiter amount titleId memo seed timeoutBlue =>
      simp only [armInPlace, check_bind, applyAction, openEscrow]
      by_cases hpos : amount = 0
      · simp [hpos, settle, Except.map]
      · have hrun := checkTitleInPlace_eq seller titleId r accounts
        rw [if_pos hpos, if_neg hpos]
        cases hcheck : r.checkEscrowTitle seller titleId with
        | error e =>
            rw [hcheck] at hrun
            rw [bind_error hrun]
            rfl
        | ok u =>
            rw [hcheck] at hrun
            rw [bind_ok hrun, read_bind, check_bind]
            by_cases hfresh : deriveEscrowId signer seed ∈ r.escrows
            · simp [hfresh, settle, Except.map, bind, Except.bind]
            · simp [hfresh, settle, Except.map, bind, Except.bind, changeTitle, setEscrow, lockTitle,
                write]
  | fundEscrow escrowId amount =>
      simp only [armInPlace, escrowMut_bind, applyAction, fundEscrow]
      cases r.escrows[escrowId]? with
      | none => rfl
      | some esc =>
          simp only [need_bind_some, check_bind, read_bind]
          by_cases hbuyer : signer = esc.buyer
          · rw [if_pos hbuyer, if_neg (not_not.mpr hbuyer)]
            by_cases hopen : esc.status = .open_ ∨ esc.status = .funded
            · have hshut : ¬ (esc.status ≠ .open_ ∧ esc.status ≠ .funded) := by tauto
              rw [if_pos hopen, if_neg hshut]
              cases accounts[signer]? with
              | none => rfl
              | some acct =>
                  simp only [need_bind_some, check_bind]
                  by_cases hbal : amount ≤ acct.balance
                  · rw [if_pos hbal, if_neg (not_lt.mpr hbal)]
                    by_cases hlevel : satAdd128 esc.funded amount ≥ esc.amount
                    · simp [setAccount, setEscrow, hlevel, settle, Map.insert_insert]
                    · simp [setAccount, setEscrow, hlevel, settle]
                  · rw [if_neg hbal, if_pos (not_le.mp hbal)]
                    rfl
            · have hshut : esc.status ≠ .open_ ∧ esc.status ≠ .funded := by tauto
              rw [if_neg hopen, if_pos hshut]
              rfl
          · rw [if_neg hbuyer, if_pos hbuyer]
            rfl
  | releaseEscrow escrowId =>
      simp only [armInPlace, escrowMut_bind, applyAction, releaseEscrow]
      cases r.escrows[escrowId]? with
      | none => rfl
      | some esc =>
          simp only [need_bind_some, check_bind]
          by_cases hbuyer : signer = esc.buyer
          · rw [if_pos hbuyer, if_neg (not_not.mpr hbuyer)]
            by_cases hfunded : esc.status = .funded
            · rw [if_pos hfunded, if_neg (not_not.mpr hfunded)]
              rfl
            · rw [if_neg hfunded, if_pos hfunded]
              rfl
          · rw [if_neg hbuyer, if_pos hbuyer]
            rfl
  | refundEscrow escrowId =>
      simp only [armInPlace, escrowMut_bind, applyAction, refundEscrow]
      cases r.escrows[escrowId]? with
      | none => rfl
      | some esc =>
          simp only [need_bind_some, check_bind]
          cases hauth : refundAuthorized esc signer with
          | false => rfl
          | true =>
              by_cases hclosed : esc.status = .released ∨ esc.status = .refunded
              · rw [if_pos rfl, if_neg (not_not.mpr hclosed), if_neg (by decide), if_pos hclosed]
                rfl
              · rw [if_pos rfl, if_pos hclosed, if_neg (by decide), if_neg hclosed, refundInPlace_eq]
                rfl
  | timeoutClaimEscrow escrowId =>
      simp only [armInPlace, escrowMut_bind, applyAction, timeoutClaimEscrow]
      cases r.escrows[escrowId]? with
      | none => rfl
      | some esc =>
          simp only [need_bind_some, check_bind]
          by_cases hbuyer : signer = esc.buyer
          · rw [if_pos hbuyer, if_neg (not_not.mpr hbuyer)]
            by_cases hfunded : esc.status = .funded
            · rw [if_pos hfunded, if_neg (not_not.mpr hfunded)]
              by_cases htimeout : esc.timeoutBlue = 0
              · rw [if_neg (not_not.mpr htimeout), if_pos htimeout]
                rfl
              · rw [if_pos htimeout, if_neg htimeout]
                by_cases hreached : esc.timeoutBlue ≤ ctx.blueScore
                · rw [if_pos hreached, if_neg (not_lt.mpr hreached), refundInPlace_eq]
                  rfl
                · rw [if_neg hreached, if_pos (not_le.mp hreached)]
                  rfl
            · rw [if_neg hfunded, if_pos hfunded]
              rfl
          · rw [if_neg hbuyer, if_pos hbuyer]
            rfl

omit [Crypto] in
/-- Creating an account that reads as its default changes no reading. -/
theorem entry_open (accounts : Accounts) (signer : Address) :
    Accounts.entry (accounts.insert signer (accounts.entry signer)) signer = accounts.entry signer := by
  rw [Accounts.entry_insert, if_pos rfl]

omit [Crypto] in
theorem bump_open (accounts : Accounts) (signer : Address) :
    ExtTreeMap.insert (ExtTreeMap.insert accounts signer (accounts.entry signer)) signer
        { accounts.entry signer with nonce := satAdd64 (accounts.entry signer).nonce 1 }
      = bumpNonce accounts signer := Map.insert_insert _ _ _ _

/-- `apply_op` up to its arm. -/
theorem applyOpInPlace_run (op : RegistryOp) (ctx : RegistryCtx) (r : RegistryState)
    (accounts : Accounts) :
    applyOpInPlace op ctx (r, accounts) =
      if op.verify = true then
        if op.nonce = (accounts.entry op.signerAddress).nonce then
          armInPlace ctx op.signerAddress op.action (r, bumpNonce accounts op.signerAddress)
        else ((r, accounts.insert op.signerAddress (accounts.entry op.signerAddress)),
          .error "Stale or future nonce on registry op")
      else ((r, accounts), .error "Invalid registry signature") := by
  simp only [applyOpInPlace, check_bind, write_bind, read_bind, setAccount, entry_open, bump_open]

/-- **`apply_op` by its writes is `apply_op` by its result.** -/
theorem applyOpInPlace_eq (op : RegistryOp) (ctx : RegistryCtx) (r : RegistryState)
    (accounts : Accounts) : applyOpInPlace op ctx (r, accounts) = r.applyOp accounts op ctx := by
  rw [applyOpInPlace_run, applyOp]
  cases hverify : op.verify with
  | false => rfl
  | true =>
      have hpass : ¬ (!true) = true := by decide
      rw [if_pos rfl, if_neg hpass]
      by_cases hnonce : op.nonce = (accounts.entry op.signerAddress).nonce
      · simp only [if_pos hnonce, if_neg (not_not.mpr hnonce), armInPlace_eq]
        cases r.applyAction (bumpNonce accounts op.signerAddress) ctx op.signerAddress op.action with
        | ok st => rfl
        | error e => rfl
      · rw [if_neg hnonce, if_pos hnonce]

/-! ### Every arm is atomic -/

omit [Crypto] in
theorem reads_titleMut (tid : Hash) (e : String) : Reads (titleMut tid e) :=
  .bind reads_read fun _ => reads_need _ _

omit [Crypto] in
theorem reads_escrowMut (escrowId : Hash) : Reads (escrowMut escrowId) :=
  .bind reads_read fun _ => reads_need _ _

omit [Crypto] in
theorem reads_checkTitleInPlace (seller : Address) (titleId : Option Hash) :
    Reads (checkTitleInPlace seller titleId) := by
  cases titleId with
  | none => exact reads_pure ()
  | some tid =>
      exact .bind (reads_titleMut _ _) fun _ => .bind (reads_check _ _) fun _ => reads_check _ _

omit [Crypto] in
theorem succeeds_refundInPlace (escrowId : Hash) (esc : EscrowAccount) :
    Succeeds (refundInPlace escrowId esc) := by
  refine .bind (succeeds_write _) fun _ => Succeeds.ite ?_ (succeeds_write _)
  exact .bind (succeeds_write _) fun _ => succeeds_write _

/-- **An arm that fails has written nothing.** -/
theorem armInPlace_atomic (ctx : RegistryCtx) (signer : Address) (action : RegistryAction) :
    Atomic (armInPlace ctx signer action) := by
  cases action with
  | issueTitle owner cls description seed =>
      refine .bind_reads reads_read fun s => .bind_reads (reads_check _ _) fun _ => ?_
      exact (succeeds_write _).atomic
  | transferTitle titleId to_ memo =>
      refine .bind_reads (reads_titleMut _ _) fun deed => ?_
      refine .bind_reads (reads_check _ _) fun _ => .bind_reads (reads_check _ _) fun _ => ?_
      exact (succeeds_write _).atomic
  | openEscrow buyer seller arbiter amount titleId memo seed timeoutBlue =>
      refine .bind_reads (reads_check _ _) fun _ => ?_
      refine .bind_reads (reads_checkTitleInPlace _ _) fun _ => ?_
      refine .bind_reads reads_read fun s => .bind_reads (reads_check _ _) fun _ => ?_
      -- the lock and the new escrow are written together
      exact Succeeds.atomic (.bind (succeeds_write _) fun _ => succeeds_write _)
  | fundEscrow escrowId amount =>
      refine .bind_reads (reads_escrowMut _) fun esc => ?_
      refine .bind_reads (reads_check _ _) fun _ => .bind_reads (reads_check _ _) fun _ => ?_
      refine .bind_reads reads_read fun s => .bind_reads (reads_need _ _) fun acct => ?_
      refine .bind_reads (reads_check _ _) fun _ => Succeeds.atomic ?_
      refine .bind (succeeds_write _) fun _ => .bind (succeeds_write _) fun _ => ?_
      exact .ite (succeeds_write _) (succeeds_pure ())
  | releaseEscrow escrowId =>
      refine .bind_reads (reads_escrowMut _) fun esc => ?_
      refine .bind_reads (reads_check _ _) fun _ => .bind_reads (reads_check _ _) fun _ => ?_
      refine Succeeds.atomic (.bind (succeeds_write _) fun _ => ?_)
      exact .bind (succeeds_write _) fun _ => succeeds_write _
  | refundEscrow escrowId =>
      refine .bind_reads (reads_escrowMut _) fun esc => ?_
      refine .bind_reads (reads_check _ _) fun _ => .bind_reads (reads_check _ _) fun _ => ?_
      exact (succeeds_refundInPlace _ _).atomic
  | timeoutClaimEscrow escrowId =>
      refine .bind_reads (reads_escrowMut _) fun esc => ?_
      refine .bind_reads (reads_check _ _) fun _ => .bind_reads (reads_check _ _) fun _ => ?_
      refine .bind_reads (reads_check _ _) fun _ => .bind_reads (reads_check _ _) fun _ => ?_
      exact (succeeds_refundInPlace _ _).atomic

/-! ### A failed operation -/

/-- The state after a failed operation: the registry is as it was, no account has
lost or gained coins or moved its last spend, and no nonce has moved except that
the signer's may be one higher. -/
structure Contained (signer : Address) (before after : RegistryState × Accounts) : Prop where
  titles : after.1.titles = before.1.titles
  escrows : after.1.escrows = before.1.escrows
  balance : ∀ a, (after.2.entry a).balance = (before.2.entry a).balance
  lastSpendBlue : ∀ a, (after.2.entry a).lastSpendBlue = (before.2.entry a).lastSpendBlue
  nonce : ∀ a, a ≠ signer → (after.2.entry a).nonce = (before.2.entry a).nonce
  signer : (after.2.entry signer).nonce = (before.2.entry signer).nonce ∨
    (after.2.entry signer).nonce = (before.2.entry signer).nonce + 1

omit [Crypto] in
theorem Contained.refl (signer : Address) (s : RegistryState × Accounts) : Contained signer s s where
  titles := rfl
  escrows := rfl
  balance _ := rfl
  lastSpendBlue _ := rfl
  nonce _ _ := rfl
  signer := Or.inl rfl

omit [Crypto] in
/-- Writing the signer's account with at most one more nonce is contained. -/
theorem Contained.insert (signer : Address) (r : RegistryState) (accounts : Accounts) {nonce : Nat}
    (hnonce : nonce = (accounts.entry signer).nonce ∨ nonce = (accounts.entry signer).nonce + 1) :
    Contained signer (r, accounts)
      (r, ExtTreeMap.insert accounts signer { accounts.entry signer with nonce }) where
  titles := rfl
  escrows := rfl
  balance a := by
    rw [Accounts.entry_insert]
    split
    · rename_i heq
      rw [← heq]
    · rfl
  lastSpendBlue a := by
    rw [Accounts.entry_insert]
    split
    · rename_i heq
      rw [← heq]
    · rfl
  nonce a ha := by
    rw [Accounts.entry_insert, if_neg (Ne.symm ha)]
  signer := by
    rw [Accounts.entry_insert, if_pos rfl]
    exact hnonce

/-- **Failed registry operations are contained.** -/
theorem applyOpInPlace_contained (op : RegistryOp) (ctx : RegistryCtx) (r : RegistryState)
    (accounts : Accounts) (hrange : (accounts.entry op.signerAddress).nonce ≤ u64Max) (e : String)
    (h : (applyOpInPlace op ctx (r, accounts)).2 = .error e) :
    Contained op.signerAddress (r, accounts) (applyOpInPlace op ctx (r, accounts)).1 := by
  rw [applyOpInPlace_run] at h ⊢
  by_cases hverify : op.verify = true
  · rw [if_pos hverify] at h ⊢
    by_cases hnonce : op.nonce = (accounts.entry op.signerAddress).nonce
    · -- the arm ran on the bumped accounts and left them as they were
      rw [if_pos hnonce] at h ⊢
      rw [armInPlace_atomic _ _ _ _ _ h]
      refine Contained.insert op.signerAddress r accounts ?_
      unfold satAdd64
      omega
    · rw [if_neg hnonce]
      exact Contained.insert op.signerAddress r accounts (Or.inl rfl)
  · rw [if_neg hverify]
    exact Contained.refl _ _

end RegistryState

/-! ### Custody operations, write by write -/

namespace Ledger

/-- A step of `apply_custody_op`. An overflow or an unwrap of nothing is a panic. -/
abbrev CustodyStep := InPlace Fault Ledger

/-- A test made elsewhere. -/
def orReject {α : Type} (x : Except String α) : CustodyStep α := lift (x.mapError .rejected)

def setBalance (owner : Address) (balance : Nat) : CustodyStep Unit :=
  write fun l => { l with
    accounts := l.accounts.insert owner { l.accounts.entry owner with balance } }

def setNonce (owner : Address) (nonce : Nat) : CustodyStep Unit :=
  write fun l => { l with
    accounts := l.accounts.insert owner { l.accounts.entry owner with nonce } }

def setStake (owner : Address) (stake : Nat) : CustodyStep Unit :=
  write fun l => { l with staked := l.staked.insert owner stake }

/-- The `StakeLock` arm. -/
def lockInPlace (owner : Address) (amount : Nat) : CustodyStep Unit := do
  let l ← read
  let balance := (l.accounts.entry owner).balance
  check (amount ≤ balance) (.rejected "Insufficient free balance to stake")
  check (amount ≤ balance) .panicked
  setBalance owner (balance - amount)
  let stake ← need (checkedAdd128 (l.staked[owner]?.getD 0) amount) .panicked
  setStake owner stake

/-- The `StakeUnlock` arm. -/
def unlockInPlace (owner : Address) (amount : Nat) : CustodyStep Unit := do
  let l ← read
  let locked := l.staked[owner]?.getD 0
  check (amount ≤ locked) (.rejected "Insufficient staked balance")
  check (amount ≤ locked) .panicked
  let _ ← need l.staked[owner]? .panicked
  setStake owner (locked - amount)
  let balance ← need (checkedAdd128 (l.accounts.entry owner).balance amount) .panicked
  setBalance owner balance

/-- The arms of `apply_custody_op`. -/
def moveInPlace (op : CustodyCertificate) : CustodyStep Unit :=
  match op.kind with
  | .stakeLock => lockInPlace op.owner op.amount
  | .stakeUnlock => unlockInPlace op.owner op.amount
  | .bridgeExit | .bridgeEnter =>
    fail (.rejected "Bridge exit/enter disabled until a real cross-chain bridge ships")

/-- `apply_custody_op`. -/
def custodyInPlace [Crypto] (chainId : Nat) (op : CustodyCertificate) : CustodyStep Unit := do
  check (op.chainId = chainId) (.rejected "Wrong chain_id")
  check (op.amount ≠ 0) (.rejected "Custody amount must be > 0")
  check (Address.isValid op.owner = true) (.rejected "Invalid custody owner")
  let sid ← orReject op.settlementBytes
  orReject (op.verify sid)
  let l ← read
  let nonce := (l.accounts.entry op.owner).nonce
  check (op.nonce = nonce) (.rejected "Bad custody nonce")
  moveInPlace op
  setNonce op.owner (satAdd64 nonce 1)

/-! ### The two descriptions agree -/

/-- How a computed ledger is left behind. -/
def settle (l : Ledger) : Except String Ledger → Ledger × Except Fault Unit
  | .ok l' => (l', .ok ())
  | .error e => (l, .error (.rejected e))

theorem insert_balance_nonce (accounts : Accounts) (owner : Address) (balance nonce : Nat) :
    ExtTreeMap.insert (ExtTreeMap.insert accounts owner { accounts.entry owner with balance }) owner
        { Accounts.entry (accounts.insert owner { accounts.entry owner with balance }) owner with nonce }
      = ExtTreeMap.insert accounts owner { accounts.entry owner with balance, nonce } := by
  rw [Accounts.entry_insert, if_pos rfl, Map.insert_insert]

/-- A lock that has the coins. -/
theorem lockInPlace_run {l : Ledger} {owner : Address} {amount : Nat}
    (hle : amount ≤ (l.accounts.entry owner).balance)
    (hbound : (l.accounts.entry owner).balance + l.staked[owner]?.getD 0 ≤ u128Max) :
    lockInPlace owner amount l = ({ l with
      accounts := l.accounts.insert owner
        { l.accounts.entry owner with balance := (l.accounts.entry owner).balance - amount }
      staked := l.staked.insert owner (l.staked[owner]?.getD 0 + amount) }, .ok ()) := by
  have hsum : checkedAdd128 (l.staked[owner]?.getD 0) amount
      = some (l.staked[owner]?.getD 0 + amount) :=
    checkedAdd128_eq_some.mpr ⟨by omega, rfl⟩
  simp only [lockInPlace, read_bind, check_bind, if_pos hle, setBalance, write_bind, hsum,
    need_bind_some, setStake, write_apply]

/-- An unlock that has the stake. -/
theorem unlockInPlace_run {l : Ledger} {owner : Address} {amount : Nat} (hpos : amount ≠ 0)
    (hle : amount ≤ l.staked[owner]?.getD 0)
    (hbound : (l.accounts.entry owner).balance + l.staked[owner]?.getD 0 ≤ u128Max) :
    unlockInPlace owner amount l = ({ l with
      accounts := l.accounts.insert owner
        { l.accounts.entry owner with balance := (l.accounts.entry owner).balance + amount }
      staked := l.staked.insert owner (l.staked[owner]?.getD 0 - amount) }, .ok ()) := by
  have hsum : checkedAdd128 (l.accounts.entry owner).balance amount
      = some ((l.accounts.entry owner).balance + amount) :=
    checkedAdd128_eq_some.mpr ⟨by omega, rfl⟩
  -- a stake that covers a positive amount is there
  obtain ⟨stake, hstake⟩ : ∃ stake, l.staked[owner]? = some stake := by
    cases hstake : l.staked[owner]? with
    | none =>
        rw [hstake] at hle
        exact absurd (Nat.le_zero.mp hle) hpos
    | some stake => exact ⟨stake, rfl⟩
  simp only [unlockInPlace, read_bind, check_bind, if_pos hle, hsum, setBalance, setStake]
  simp only [hstake, need_bind_some, write_bind, write_apply]

/-- Where free coins and stake of the owner fit a `u128` together, **the writes of a
custody operation are its result**: nothing overflows. -/
theorem custodyInPlace_eq [Crypto] {l : Ledger} (chainId : Nat) (op : CustodyCertificate)
    (hbound : (l.accounts.entry op.owner).balance + l.staked[op.owner]?.getD 0 ≤ u128Max) :
    custodyInPlace chainId op l = settle l (l.applyCustodyOp chainId op) := by
  unfold custodyInPlace applyCustodyOp
  rw [check_bind]
  by_cases hchain : op.chainId = chainId
  · rw [if_pos hchain, if_neg (not_not.mpr hchain), check_bind]
    by_cases hamount : op.amount = 0
    · rw [if_neg (not_not.mpr hamount), if_pos hamount]
      rfl
    · rw [if_pos hamount, if_neg hamount, check_bind]
      cases hvalid : Address.isValid op.owner with
      | false => rfl
      | true =>
          have hpass : ¬ (!true) = true := by decide
          rw [if_pos rfl, if_neg hpass]
          cases hsid : op.settlementBytes with
          | error e => rfl
          | ok sid =>
              show (orReject (op.verify sid) >>= _) l = settle l (op.verify sid >>= _)
              cases hverify : op.verify sid with
              | error e => rfl
              | ok u =>
                  show (check _ _ >>= _) l = settle l (if _ then _ else _)
                  rw [check_bind]
                  by_cases hnonce : op.nonce = (l.accounts.entry op.owner).nonce
                  · rw [if_pos hnonce, if_neg (not_not.mpr hnonce)]
                    cases hkind : op.kind with
                    | stakeLock =>
                        have hmove : moveInPlace op = lockInPlace op.owner op.amount := by
                          rw [moveInPlace, hkind]
                        show (moveInPlace op >>= _) l = settle l (if _ then _ else _)
                        by_cases hle : op.amount ≤ (l.accounts.entry op.owner).balance
                        · rw [hmove, bind_ok (lockInPlace_run hle hbound), if_neg (not_lt.mpr hle),
                            wrapAdd128_eq (by omega)]
                          simp only [setNonce, write_apply, settle, insert_balance_nonce]
                        · have hshort : lockInPlace op.owner op.amount l
                              = (l, .error (.rejected "Insufficient free balance to stake")) := by
                            rw [lockInPlace, read_bind, check_bind, if_neg hle]
                          rw [hmove, bind_error hshort, if_pos (not_le.mp hle)]
                          rfl
                    | stakeUnlock =>
                        have hmove : moveInPlace op = unlockInPlace op.owner op.amount := by
                          rw [moveInPlace, hkind]
                        show (moveInPlace op >>= _) l = settle l (if _ then _ else _)
                        by_cases hle : op.amount ≤ l.staked[op.owner]?.getD 0
                        · rw [hmove, bind_ok (unlockInPlace_run hamount hle hbound),
                            if_neg (not_lt.mpr hle), wrapAdd128_eq (by omega)]
                          simp only [setNonce, write_apply, settle, insert_balance_nonce]
                        · have hshort : unlockInPlace op.owner op.amount l
                              = (l, .error (.rejected "Insufficient staked balance")) := by
                            rw [unlockInPlace, read_bind, check_bind, if_neg hle]
                          rw [hmove, bind_error hshort, if_pos (not_le.mp hle)]
                          rfl
                    | bridgeExit =>
                        rw [bind_error (by rw [moveInPlace, hkind]; rfl)]
                        rfl
                    | bridgeEnter =>
                        rw [bind_error (by rw [moveInPlace, hkind]; rfl)]
                        rfl
                  · rw [if_neg hnonce, if_pos hnonce]
                    rfl
  · rw [if_neg hchain, if_pos hchain]
    rfl

/-! ### A custody operation is atomic and local -/

/-- On a ledger within the supply, one owner's coins fit a `u128`. -/
theorem owned_le_supply {l : Ledger} (hsupply : l.total ≤ maxSupply) (owner : Address) :
    (l.accounts.entry owner).balance + l.staked[owner]?.getD 0 ≤ u128Max := by
  have hbalance := Map.valueAt_le_sumBy Account.balance l.accounts owner
  have hstake := Map.valueAt_le_sumBy id l.staked owner
  have hlocked : Map.valueAt id l.staked owner = l.staked[owner]?.getD 0 := by
    simp [Map.valueAt]
  have hmax : maxSupply ≤ u128Max := by decide
  rw [Accounts.valueAt_balance] at hbalance
  rw [hlocked] at hstake
  unfold Ledger.total Ledger.accountsTotal Ledger.stakedTotal at hsupply
  omega

/-- What a custody operation that is accepted does, from `l` to `l'`. -/
structure CustodyMove [Crypto] (chainId : Nat) (op : CustodyCertificate) (l l' : Ledger) : Prop where
  rest : l' = { l with accounts := l'.accounts, staked := l'.staked }
  accounts : ∀ a, a ≠ op.owner → l'.accounts[a]? = l.accounts[a]?
  staked : ∀ a, a ≠ op.owner → l'.staked[a]? = l.staked[a]?
  value : (l'.accounts.entry op.owner).balance + l'.staked[op.owner]?.getD 0
    = (l.accounts.entry op.owner).balance + l.staked[op.owner]?.getD 0
  amount : op.amount ≠ 0
  signed : op.Authentic
  nonce : (l.accounts.entry op.owner).nonce < u64Max →
    (l'.accounts.entry op.owner).nonce = (l.accounts.entry op.owner).nonce + 1
  once : (l.accounts.entry op.owner).nonce < u64Max →
    (custodyInPlace chainId op l').2 ≠ .ok ()

/-- An operation whose nonce is not due is refused. -/
theorem custodyInPlace_stale [Crypto] {l : Ledger} {chainId : Nat} {op : CustodyCertificate}
    (hsupply : l.total ≤ maxSupply) (hnonce : op.nonce ≠ (l.accounts.entry op.owner).nonce) :
    (custodyInPlace chainId op l).2 ≠ .ok () := by
  intro hok
  rw [custodyInPlace_eq chainId op (owned_le_supply hsupply op.owner)] at hok
  cases happly : l.applyCustodyOp chainId op with
  | error e =>
      rw [happly] at hok
      cases hok
  | ok l' => exact hnonce (applyCustodyOp_ok happly).1

/-- **Custody operations are atomic and local.** On a ledger within the supply, a
refused operation leaves the ledger alone and does not panic, and an accepted one
moves coins between the free balance and the stake of the owner who signed it. -/
theorem custodyInPlace_local [Crypto] {l : Ledger} (chainId : Nat) (op : CustodyCertificate)
    (hsupply : l.total ≤ maxSupply) :
    (∀ e, (custodyInPlace chainId op l).2 = .error e →
      e ≠ .panicked ∧ (custodyInPlace chainId op l).1 = l) ∧
    ((custodyInPlace chainId op l).2 = .ok () →
      CustodyMove chainId op l (custodyInPlace chainId op l).1) := by
  have hbound := owned_le_supply hsupply op.owner
  have hrun := custodyInPlace_eq chainId op hbound
  cases happly : l.applyCustodyOp chainId op with
  | error msg =>
      rw [hrun, happly]
      refine ⟨fun e he => ?_, fun hok => by cases hok⟩
      cases he
      exact ⟨by simp, rfl⟩
  | ok l' =>
      rw [hrun, happly]
      refine ⟨fun e he => absurd he (by simp [settle]), fun _ => ?_⟩
      show CustodyMove chainId op l l'
      have hamount := applyCustodyOp_pos happly
      have htotal : l'.total ≤ maxSupply := by
        have hutxo : l'.utxo = l.utxo ∧ l'.registry = l.registry := by
          obtain ⟨-, balance, stake, rfl, -⟩ := applyCustodyOp_ok happly
          exact ⟨rfl, rfl⟩
        have hfits : l.accountsTotal + l.stakedTotal ≤ u128Max := by
          have hmax : maxSupply ≤ u128Max := by decide
          unfold Ledger.total at hsupply
          omega
        have hvalue := applyCustodyOp_value happly hfits
        unfold Ledger.total Ledger.escrowTotal at hsupply ⊢
        rw [hutxo.1, hutxo.2]
        omega
      obtain ⟨hdue, balance, stake, rfl, hcase⟩ := applyCustodyOp_ok happly
      refine
        { rest := rfl
          accounts := fun a ha => ?_
          staked := fun a ha => ?_
          value := ?_
          amount := hamount.ne'
          signed := (applyCustodyOp_authentic happly).1
          nonce := fun hlt => ?_
          once := fun hlt => custodyInPlace_stale htotal ?_ }
      · rw [ExtTreeMap.getElem?_insert, if_neg]
        simpa [Std.LawfulEqCmp.compare_eq_iff_eq] using Ne.symm ha
      · rw [ExtTreeMap.getElem?_insert, if_neg]
        simpa [Std.LawfulEqCmp.compare_eq_iff_eq] using Ne.symm ha
      · rw [Accounts.entry_insert, if_pos rfl, ExtTreeMap.getElem?_insert_self, Option.getD_some]
        rcases hcase with ⟨hle, rfl, rfl⟩ | ⟨hle, rfl, rfl⟩
        · rw [wrapAdd128_eq (by omega)]
          show (l.accounts.entry op.owner).balance - op.amount + _ = _
          omega
        · rw [wrapAdd128_eq (by omega)]
          show (l.accounts.entry op.owner).balance + op.amount + _ = _
          omega
      · rw [Accounts.entry_insert, if_pos rfl]
        exact satAdd64_eq (by omega)
      · rw [Accounts.entry_insert, if_pos rfl, hdue]
        show (l.accounts.entry op.owner).nonce ≠ satAdd64 (l.accounts.entry op.owner).nonce 1
        rw [satAdd64_eq (by omega)]
        omega

end Ledger

/-! ### A refused release, and a nonce that cannot grow -/

namespace Sample

open RegistryRun RegistryState Ledger

/-- Party 1 releases an escrow that does not exist. -/
def releaseNothing : RegistryCall := partyCall 1 0 (.releaseEscrow Hash.zero)

/-- The refusal keeps the registry and the coins, and takes a nonce. -/
theorem release_nothing_contained :
    @Contained (@RegistryOp.signerAddress sampleCrypto releaseNothing.op) ({}, ∅)
      (@applyOpInPlace sampleCrypto releaseNothing.op releaseNothing.ctx ({}, ∅)).1 := by
  let := sampleCrypto
  have hverify : releaseNothing.op.verify = true := verify_partyCall 1 0 _
  have hnonce : releaseNothing.op.nonce
      = (Accounts.entry ∅ releaseNothing.op.signerAddress).nonce := by
    simp [releaseNothing, partyCall, Accounts.entry]
  refine applyOpInPlace_contained releaseNothing.op releaseNothing.ctx {} ∅
    (by simp [Accounts.entry]) "Escrow not found" ?_
  rw [applyOpInPlace_run, if_pos hverify, if_pos hnonce]
  show (armInPlace _ _ (.releaseEscrow Hash.zero) _).2 = _
  rw [armInPlace, escrowMut_bind]
  simp

/-- Party 1 locks one unit, under any nonce. -/
def lockUnder (nonce : Nat) : CustodyCertificate := { lockOne with nonce }

/-- A ledger where party 1 has free coins, a stake and a nonce. -/
def stakedUnder (balance stake nonce : Nat) : Ledger where
  accounts := (∅ : Accounts).insert (partyAddress 1) { balance, nonce }
  staked := (∅ : ExtTreeMap Address Nat).insert (partyAddress 1) stake

theorem lockUnder_verifies (nonce : Nat) :
    @CustodyCertificate.verify sampleCrypto (lockUnder nonce) settlementZero = .ok () := by
  let := sampleCrypto
  have hkey : (partyKey 1).length = pqPublicKeySize := List.length_replicate
  have howner : Address.matchesPubkey (partyAddress 1) (partyKey 1) = true := by
    have hself : Address.equivalent (partyAddress 1) (Address.encodeHash (addressHash (partyKey 1)))
        = true := Address.equivalent_refl _
    simp [Address.matchesPubkey, hself]
  have hsigned : ∀ msg : Bytes, verifyPq512 (utf8 "custody") msg (partyKey 1)
      (List.replicate pqSignatureSize 0) = true :=
    fun msg => verifyPq512_sample _ _ hkey List.length_replicate
  have hbirth : CustodyCertificate.verifyBirth (List.replicate pqSignatureSize 0) settlementZero
      (partyKey 1) = true := by
    simp [CustodyCertificate.verifyBirth, hkey, verifyPq512_sample _ _ hkey List.length_replicate]
  have hfields : (lockUnder nonce).fromPubkey = partyKey 1 ∧ (lockUnder nonce).owner = partyAddress 1 ∧
      (lockUnder nonce).signature = List.replicate pqSignatureSize 0 ∧
      (lockUnder nonce).dualSignature = none ∧
      Address.hexEncode settlementZero = (lockUnder nonce).settlementId ∧
      (lockUnder nonce).birthCertificate = List.replicate pqSignatureSize 0 ∧
      (lockUnder nonce).issuerPubkey = partyKey 1 := ⟨rfl, rfl, rfl, rfl, rfl, rfl, rfl⟩
  obtain ⟨hfrom, hown, hsig, hdual, hsettled, hbirth', hissuer⟩ := hfields
  simp [CustodyCertificate.verify, hfrom, hkey, hown, howner, hsig, hsigned, hdual, hsettled, hbirth',
    hissuer, hbirth]

/-- The lock applies, whatever the nonce. -/
theorem lockUnder_applies {balance stake nonce : Nat} (hpos : 0 < balance) :
    @applyCustodyOp sampleCrypto (stakedUnder balance stake nonce) chainId (lockUnder nonce)
      = .ok { stakedUnder balance stake nonce with
        accounts := (stakedUnder balance stake nonce).accounts.insert (partyAddress 1)
          { balance := balance - 1, nonce := satAdd64 nonce 1 }
        staked := (stakedUnder balance stake nonce).staked.insert (partyAddress 1)
          (wrapAdd128 stake 1) } := by
  let := sampleCrypto
  have hvalid : Address.isValid (partyAddress 1) = true :=
    Address.isValid_of_isBech32m (Address.isBech32m_ofPubkey _)
  have hbytes : lockOne.settlementBytes = .ok settlementZero := by decide +kernel
  have hid : (lockUnder nonce).settlementId = lockOne.settlementId := rfl
  have hbytes' : (lockUnder nonce).settlementBytes = .ok settlementZero := by
    rw [CustodyCertificate.settlementBytes] at hbytes ⊢
    rw [hid]
    exact hbytes
  have hentry : (stakedUnder balance stake nonce).accounts.entry (partyAddress 1)
      = { balance, nonce } := by
    simp [stakedUnder, Accounts.entry_insert]
  have hstake : (stakedUnder balance stake nonce).staked[partyAddress 1]? = some stake := by
    simp [stakedUnder]
  have hfields : (lockUnder nonce).chainId = chainId ∧ (lockUnder nonce).amount = 1 ∧
      (lockUnder nonce).owner = partyAddress 1 ∧ (lockUnder nonce).nonce = nonce ∧
      (lockUnder nonce).kind = .stakeLock := ⟨rfl, rfl, rfl, rfl, rfl⟩
  obtain ⟨hchain, hamount, howner, hnonce, hkind⟩ := hfields
  have hne : balance ≠ 0 := hpos.ne'
  simp [applyCustodyOp, hchain, hamount, howner, hvalid, hbytes', lockUnder_verifies, hentry, hstake,
    hnonce, hkind, bind, Except.bind, hne]

theorem stakedUnder_total (balance stake nonce : Nat) :
    (stakedUnder balance stake nonce).total = balance + stake := by
  have haccounts := Map.sumBy_insert Account.balance (∅ : Accounts) (partyAddress 1) { balance, nonce }
  have hstaked := Map.sumBy_insert id (∅ : ExtTreeMap Address Nat) (partyAddress 1) stake
  simp only [Map.valueAt, ExtTreeMap.getElem?_empty, Option.map_none, Option.getD_none,
    Map.sumBy_empty, Nat.add_zero, Nat.zero_add, id_eq] at haccounts hstaked
  simp only [total, accountsTotal, stakedTotal, escrowTotal, UtxoSet.totalValue, stakedUnder,
    haccounts, hstaked, Map.sumBy_empty, Nat.add_zero]

/-- One lock, on a ledger within the supply. -/
theorem lockUnder_run {balance stake nonce : Nat} (hpos : 0 < balance)
    (hsupply : balance + stake < maxSupply) :
    @custodyInPlace sampleCrypto chainId (lockUnder nonce) (stakedUnder balance stake nonce)
      = (stakedUnder (balance - 1) (stake + 1) (satAdd64 nonce 1), .ok ()) := by
  let := sampleCrypto
  have hmax : maxSupply ≤ u128Max := by decide
  have hbound := owned_le_supply (l := stakedUnder balance stake nonce)
    (by rw [stakedUnder_total]; omega) (lockUnder nonce).owner
  rw [custodyInPlace_eq chainId (lockUnder nonce) hbound, lockUnder_applies hpos,
    wrapAdd128_eq (by omega)]
  refine Prod.ext ?_ rfl
  simp only [Ledger.settle, stakedUnder, Map.insert_insert]

/-- A lock under a nonce that can grow. -/
theorem lock_is_local :
    @CustodyMove sampleCrypto chainId (lockUnder 0) (stakedUnder 1 0 0)
      (@custodyInPlace sampleCrypto chainId (lockUnder 0) (stakedUnder 1 0 0)).1 := by
  let := sampleCrypto
  have hsupply : (stakedUnder 1 0 0).total ≤ maxSupply := by
    rw [stakedUnder_total]
    decide
  refine (custodyInPlace_local chainId (lockUnder 0) hsupply).2 ?_
  rw [lockUnder_run (by decide) (by decide)]

/-- A lock under the last nonce applies twice. -/
theorem last_nonce_replays : ∃ (l : Ledger) (op : CustodyCertificate), l.total ≤ maxSupply ∧
    (@custodyInPlace sampleCrypto chainId op l).2 = .ok () ∧
    ((@custodyInPlace sampleCrypto chainId op l).1.accounts.entry op.owner).nonce
      = (l.accounts.entry op.owner).nonce ∧
    (@custodyInPlace sampleCrypto chainId op (@custodyInPlace sampleCrypto chainId op l).1).2
      = .ok () := by
  let := sampleCrypto
  have hlast : satAdd64 u64Max 1 = u64Max := by decide
  have hnonce : ∀ balance stake nonce, ((stakedUnder balance stake nonce).accounts.entry
      (partyAddress 1)).nonce = nonce := by
    intro balance stake nonce
    simp [stakedUnder, Accounts.entry_insert]
  have hfirst := @lockUnder_run 2 0 u64Max (by decide) (by decide)
  have hsecond := @lockUnder_run 1 1 u64Max (by decide) (by decide)
  rw [hlast] at hfirst hsecond
  refine ⟨stakedUnder 2 0 u64Max, lockUnder u64Max, ?_, ?_, ?_, ?_⟩
  · rw [stakedUnder_total]
    decide
  · rw [hfirst]
  · rw [hfirst]
    show ((stakedUnder _ _ _).accounts.entry (partyAddress 1)).nonce
      = ((stakedUnder _ _ _).accounts.entry (partyAddress 1)).nonce
    rw [hnonce, hnonce]
  · rw [hfirst]
    rw [hsecond]

end Sample

end HassanNode
