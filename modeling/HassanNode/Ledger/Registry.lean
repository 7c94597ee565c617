import Mathlib
import HassanNode.Ledger.Utxo

/-!
# HassanNode.Ledger.Registry

Titles and escrows (`registry.rs`): the registry state and `apply_op`.

`apply_op` first bumps the signer's nonce and only then runs the arm of the
operation, so an operation whose arm fails still consumes its nonce. No arm
mutates anything before its last check, so each arm is a function into
`Except` and `applyOp` keeps the bumped accounts when it fails.
-/

namespace HassanNode

open Std (ExtTreeMap)
open Params Bincode

/-- One entry in the public chain of title. -/
structure TitleEvent where
  timestamp : UInt64
  blockHeight : UInt64
  settlementId : Bytes
  event : Bytes
  from_ : Option Address
  to_ : Address
  memo : Bytes
  deriving DecidableEq

structure TitleDeed where
  titleId : Hash
  assetClass : AssetClass
  description : Bytes
  currentOwner : Address
  issuedAt : UInt64
  history : List TitleEvent
  escrowId : Option Hash
  lienholder : Option Address
  deriving DecidableEq

inductive EscrowStatus
  | open_ | funded | released | refunded | disputed
  deriving DecidableEq

structure EscrowAccount where
  escrowId : Hash
  buyer : Address
  seller : Address
  arbiter : Option Address
  amount : Nat
  funded : Nat
  status : EscrowStatus
  titleId : Option Hash
  openedAt : UInt64
  memo : Bytes
  timeoutBlue : Nat
  deriving DecidableEq

@[ext] structure RegistryState where
  titles : ExtTreeMap Hash TitleDeed := ∅
  escrows : ExtTreeMap Hash EscrowAccount := ∅

/-- What `apply_op` is told about the block that carries the operation. -/
structure RegistryCtx where
  timestamp : UInt64
  height : UInt64
  settlementIdHex : Bytes
  blueScore : Nat

/-- The deed after its ownership moved to `to_`, with the event recorded. -/
def TitleDeed.moveTo (deed : TitleDeed) (ctx : RegistryCtx) (event : Bytes) (to_ : Address)
    (memo : Bytes) : TitleDeed :=
  { deed with
    currentOwner := to_,
    history := deed.history ++
      [{ timestamp := ctx.timestamp, blockHeight := ctx.height,
         settlementId := ctx.settlementIdHex, event, from_ := some deed.currentOwner, to_, memo }] }

section Ids

variable [Crypto]

def deriveTitleId (issuer : Address) (seed : Hash) : Hash :=
  digest512 (utf8 "hassan-title-id-v1") (issuer ++ seed.asBytes)

def deriveEscrowId (opener : Address) (seed : Hash) : Hash :=
  digest512 (utf8 "hassan-escrow-id-v1") (opener ++ seed.asBytes)

end Ids

namespace RegistryState

/-- Credit an account, creating it if needed; the balance saturates. -/
def creditAccount (accounts : Accounts) (addr : Address) (amount : Nat) : Accounts :=
  accounts.insert addr
    { accounts.entry addr with balance := satAdd128 (accounts.entry addr).balance amount }

/-- `if let Some(deed) = titles.get_mut(tid)`: update a title that exists. -/
def updateTitle (titles : ExtTreeMap Hash TitleDeed) (f : TitleDeed → TitleDeed) :
    Option Hash → ExtTreeMap Hash TitleDeed
  | none => titles
  | some tid =>
    match titles[tid]? with
    | none => titles
    | some deed => titles.insert tid (f deed)

/-- Clear the lock of the title an escrow holds. -/
def unlockTitle (titles : ExtTreeMap Hash TitleDeed) : Option Hash → ExtTreeMap Hash TitleDeed :=
  updateTitle titles fun deed => { deed with escrowId := none }

/-- Lock a title in an escrow. -/
def lockTitle (titles : ExtTreeMap Hash TitleDeed) (escrowId : Hash) :
    Option Hash → ExtTreeMap Hash TitleDeed :=
  updateTitle titles fun deed => { deed with escrowId := some escrowId }

/-- Hand the title of a released escrow to the buyer. -/
def releaseTitle (titles : ExtTreeMap Hash TitleDeed) (ctx : RegistryCtx) (buyer : Address) :
    Option Hash → ExtTreeMap Hash TitleDeed :=
  updateTitle titles fun deed =>
    { deed with escrowId := none }.moveTo ctx (utf8 "escrow_released") buyer
      (utf8 "title cleared through escrow")

/-- Close an escrow back to the buyer: the shared tail of `RefundEscrow` and
`TimeoutClaimEscrow`. -/
def refund (r : RegistryState) (accounts : Accounts) (escrowId : Hash) (esc : EscrowAccount) :
    RegistryState × Accounts :=
  ({ titles := unlockTitle r.titles esc.titleId,
     escrows := r.escrows.insert escrowId { esc with funded := 0, status := .refunded } },
   if esc.funded > 0 then creditAccount accounts esc.buyer esc.funded else accounts)

variable [Crypto]

/-- The `IssueTitle` arm. -/
def issueTitle (r : RegistryState) (ctx : RegistryCtx) (signer : Address) (owner : Address)
    (assetClass : AssetClass) (description : Bytes) (titleSeed : Hash) :
    Except String RegistryState :=
  let titleId := deriveTitleId signer titleSeed
  let deed : TitleDeed :=
    { titleId, assetClass, description, currentOwner := owner, issuedAt := ctx.timestamp,
      history := [{ timestamp := ctx.timestamp, blockHeight := ctx.height,
                    settlementId := ctx.settlementIdHex, event := utf8 "issued", from_ := none,
                    to_ := owner, memo := utf8 "original issuance" }],
      escrowId := none, lienholder := none }
  if titleId ∈ r.titles then .error "Title already issued"
  else .ok { r with titles := r.titles.insert titleId deed }

/-- The `TransferTitle` arm. -/
def transferTitle (r : RegistryState) (ctx : RegistryCtx) (signer : Address) (titleId : Hash)
    (to_ : Address) (memo : Bytes) : Except String RegistryState :=
  match r.titles[titleId]? with
  | none => .error "Title not found"
  | some deed =>
    if deed.currentOwner ≠ signer then .error "Only the current owner can transfer title"
    else if deed.escrowId.isSome then .error "Title is locked in escrow"
    else .ok { r with
      titles := r.titles.insert titleId (deed.moveTo ctx (utf8 "transferred") to_ memo) }

/-- The title checks of `OpenEscrow`: it exists, the *named seller* owns it and
it is not locked. The signer plays no part. -/
def checkEscrowTitle (r : RegistryState) (seller : Address) : Option Hash → Except String Unit
  | none => .ok ()
  | some tid =>
    match r.titles[tid]? with
    | none => .error "Title not found for escrow"
    | some deed =>
      if deed.currentOwner ≠ seller then .error "Escrow title must be owned by seller"
      else if deed.escrowId.isSome then .error "Title already in escrow"
      else .ok ()

/-- The `OpenEscrow` arm. -/
def openEscrow (r : RegistryState) (ctx : RegistryCtx) (signer buyer seller : Address)
    (arbiter : Option Address) (amount : Nat) (titleId : Option Hash) (memo : Bytes)
    (escrowSeed : Hash) (timeoutBlue : Nat) : Except String RegistryState :=
  if amount = 0 then .error "Escrow amount must be positive"
  else do
    r.checkEscrowTitle seller titleId
    let escrowId := deriveEscrowId signer escrowSeed
    let esc : EscrowAccount :=
      { escrowId, buyer, seller, arbiter, amount, funded := 0, status := .open_, titleId,
        openedAt := ctx.timestamp, memo, timeoutBlue }
    if escrowId ∈ r.escrows then .error "Escrow already exists"
    else
      .ok { titles := lockTitle r.titles escrowId titleId, escrows := r.escrows.insert escrowId esc }

/-- The `FundEscrow` arm. -/
def fundEscrow (r : RegistryState) (accounts : Accounts) (signer : Address) (escrowId : Hash)
    (amount : Nat) : Except String (RegistryState × Accounts) :=
  match r.escrows[escrowId]? with
  | none => .error "Escrow not found"
  | some esc =>
    if signer ≠ esc.buyer then .error "Only the buyer can fund escrow"
    else if esc.status ≠ .open_ ∧ esc.status ≠ .funded then
      .error "Escrow is not open for funding"
    else
      match accounts[signer]? with
      | none => .error "Buyer account missing"
      | some acct =>
        if acct.balance < amount then .error "Insufficient balance to fund escrow"
        else
          let funded := satAdd128 esc.funded amount
          let status := if funded ≥ esc.amount then .funded else esc.status
          .ok
            ({ r with escrows := r.escrows.insert escrowId { esc with funded, status } },
             accounts.insert signer { acct with balance := acct.balance - amount })

/-- The `ReleaseEscrow` arm. -/
def releaseEscrow (r : RegistryState) (accounts : Accounts) (ctx : RegistryCtx)
    (signer : Address) (escrowId : Hash) : Except String (RegistryState × Accounts) :=
  match r.escrows[escrowId]? with
  | none => .error "Escrow not found"
  | some esc =>
    if signer ≠ esc.buyer then
      .error "Not authorized to release escrow (buyer must sign; arbiter cannot act alone)"
    else if esc.status ≠ .funded then .error "Escrow must be fully funded before release"
    else .ok
      ({ titles := releaseTitle r.titles ctx esc.buyer esc.titleId,
         escrows := r.escrows.insert escrowId { esc with funded := 0, status := .released } },
       creditAccount accounts esc.seller esc.funded)

/-- Who may refund an escrow, by its status. -/
def refundAuthorized (esc : EscrowAccount) (signer : Address) : Bool :=
  match esc.status with
  | .open_ => signer == esc.buyer
  | .funded => signer == esc.seller
  | _ => false

/-- The `RefundEscrow` arm. -/
def refundEscrow (r : RegistryState) (accounts : Accounts) (signer : Address) (escrowId : Hash) :
    Except String (RegistryState × Accounts) :=
  match r.escrows[escrowId]? with
  | none => .error "Escrow not found"
  | some esc =>
    if !refundAuthorized esc signer then
      .error "Not authorized to refund escrow (Open→buyer; Funded→seller; no unilateral arbiter)"
    else if esc.status = .released ∨ esc.status = .refunded then .error "Escrow already closed"
    else .ok (r.refund accounts escrowId esc)

/-- The `TimeoutClaimEscrow` arm. -/
def timeoutClaimEscrow (r : RegistryState) (accounts : Accounts) (ctx : RegistryCtx)
    (signer : Address) (escrowId : Hash) : Except String (RegistryState × Accounts) :=
  match r.escrows[escrowId]? with
  | none => .error "Escrow not found"
  | some esc =>
    if signer ≠ esc.buyer then .error "Only the buyer can timeout-claim escrow"
    else if esc.status ≠ .funded then .error "Escrow must be funded for timeout claim"
    else if esc.timeoutBlue = 0 then .error "Escrow has no timeout path"
    else if ctx.blueScore < esc.timeoutBlue then
      .error s!"Timeout not reached: blue_score {ctx.blueScore} < {esc.timeoutBlue}"
    else .ok (r.refund accounts escrowId esc)

/-- The arm of an operation, on accounts whose signer nonce is already bumped. -/
def applyAction (r : RegistryState) (accounts : Accounts) (ctx : RegistryCtx)
    (signer : Address) : RegistryAction → Except String (RegistryState × Accounts)
  | .issueTitle owner cls description seed =>
    (r.issueTitle ctx signer owner cls description seed).map (·, accounts)
  | .transferTitle titleId to_ memo =>
    (r.transferTitle ctx signer titleId to_ memo).map (·, accounts)
  | .openEscrow buyer seller arbiter amount titleId memo seed timeoutBlue =>
    (r.openEscrow ctx signer buyer seller arbiter amount titleId memo seed timeoutBlue).map
      (·, accounts)
  | .fundEscrow escrowId amount => r.fundEscrow accounts signer escrowId amount
  | .releaseEscrow escrowId => r.releaseEscrow accounts ctx signer escrowId
  | .refundEscrow escrowId => r.refundEscrow accounts signer escrowId
  | .timeoutClaimEscrow escrowId => r.timeoutClaimEscrow accounts ctx signer escrowId

/-- The signer's account with its nonce advanced. -/
def bumpNonce (accounts : Accounts) (signer : Address) : Accounts :=
  accounts.insert signer
    { accounts.entry signer with nonce := satAdd64 (accounts.entry signer).nonce 1 }

/-- `apply_op`. A stale nonce still leaves the signer's (default) account
behind, and a failed arm still leaves the nonce bumped. -/
def applyOp (r : RegistryState) (accounts : Accounts) (op : RegistryOp) (ctx : RegistryCtx) :
    (RegistryState × Accounts) × Except String Unit :=
  if !op.verify then ((r, accounts), .error "Invalid registry signature")
  else
    let signer := op.signerAddress
    if op.nonce ≠ (accounts.entry signer).nonce then
      ((r, accounts.insert signer (accounts.entry signer)),
        .error "Stale or future nonce on registry op")
    else
      let bumped := bumpNonce accounts signer
      match r.applyAction bumped ctx signer op.action with
      | .ok st => (st, .ok ())
      | .error e => ((r, bumped), .error e)

end RegistryState

end HassanNode
