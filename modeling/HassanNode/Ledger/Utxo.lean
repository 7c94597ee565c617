import Mathlib
import HassanNode.Lib.Map
import HassanNode.Ledger.Block

/-!
# HassanNode.Ledger.Utxo

The UTXO set (`utxo.rs`) and the executor of one spend (`apply_utxo_tx` of
`utxo_tx.rs`).

The executor has two halves: checks that read the set and mutate nothing, then
a sequence of primitive mutations. The second half is kept as an explicit list
of `UtxoEffect`s, run until the first one that fails, so that a proof can
follow the mutations one at a time and a failure in the middle keeps what was
already done, as the source does.
-/

namespace HassanNode

open Std (ExtTreeMap ExtTreeSet)
open Params Bincode

/-! ### Accounts -/

/-- One entry of the account overlay. -/
structure Account where
  balance : Nat := 0
  nonce : Nat := 0
  lastSpendBlue : Nat := 0
  codeHash : Option Hash := none
  storageRoot : Hash := Hash.zero
  deriving DecidableEq

abbrev Accounts := ExtTreeMap Address Account

/-- `accounts.entry(addr).or_default()`, as a read. -/
def Accounts.entry (accounts : Accounts) (addr : Address) : Account := accounts[addr]?.getD {}

/-- `u128` addition of the release build, where overflow wraps. -/
def wrapAdd128 (a b : Nat) : Nat := (a + b) % 2 ^ 128

/-! ### The set -/

/-- Live outputs, and the outpoints already spent. -/
@[ext] structure UtxoSet where
  entries : ExtTreeMap OutPoint TxOut := ∅
  spent : ExtTreeSet OutPoint := ∅

namespace UtxoSet

/-- `insert`: a re-created outpoint loses its spent mark. -/
def insert (u : UtxoSet) (op : OutPoint) (out : TxOut) : UtxoSet :=
  { entries := u.entries.insert op out, spent := u.spent.erase op }

/-- `spend`. -/
def spend (u : UtxoSet) (op : OutPoint) : Except String UtxoSet :=
  if op ∈ u.spent then .error "Outpoint already spent"
  else if u.entries[op]?.isNone then .error "Unknown outpoint"
  else .ok { entries := u.entries.erase op, spent := u.spent.insert op }

def totalValue (u : UtxoSet) : Nat := Map.sumBy TxOut.value u.entries

/-- `commitment`, over the outpoints in order. -/
def commitment [Crypto] (u : UtxoSet) : Hash :=
  Crypto.blake3 (utf8 "hassan-utxo-set-v1" ++ u.entries.toList.flatMap fun (op, out) =>
    op.txid.asBytes ++ u32 op.vout.toNat ++ u128 out.value ++ u64 out.createdBlue
      ++ encode out.predicate)

end UtxoSet

/-! ### Checks of a spend -/

/-- `assert_exact_value_binds`. -/
def assertExactValueBinds (value : Nat) : Predicate → Except String Unit
  | .exactValue bound inner =>
    if bound ≠ value then .error s!"ExactValue: spent {value} != covenant bound {bound}"
    else assertExactValueBinds value inner
  | .and l r | .or l r => do
    assertExactValueBinds value l
    assertExactValueBinds value r
  | _ => .ok ()

section Checks

variable [Crypto]

/-- The checks on one input; the value it brings in. -/
def checkInput (u : UtxoSet) (tx : UtxoTx) (mediaBlue : Nat) (tin : TxIn) : Except String Nat :=
  match u.entries[tin.previous]? with
  | none => .error "Unknown outpoint"
  | some out =>
    if tin.previous.isCoinbase ∧ mediaBlue < satAdd64 out.createdBlue coinbaseMaturityBlues then
      .error "Coinbase immature"
    else
      let unlockAt := satAdd64 out.createdBlue tin.relativeLockBlues.toNat
      if tin.relativeLockBlues > 0 ∧ mediaBlue < unlockAt then
        .error s!"Relative lock: media {mediaBlue} < unlock {unlockAt}"
      else do
        evaluateFull out.predicate tin.witness tx.fromAddress mediaBlue out.createdBlue
          (some tx.signingBytes)
        assertExactValueBinds out.value out.predicate
        .ok out.value

/-- The input loop: every input checks, and the values add up without overflow. -/
def checkInputs (u : UtxoSet) (tx : UtxoTx) (mediaBlue : Nat) :
    List TxIn → (inputSum : Nat) → Except String Nat
  | [], inputSum => .ok inputSum
  | tin :: rest, inputSum => do
    let value ← checkInput u tx mediaBlue tin
    match checkedAdd128 inputSum value with
    | none => .error "input value overflow"
    | some sum => checkInputs u tx mediaBlue rest sum

/-- The output loop: the fee and the outputs add up without overflow. -/
def sumOutputs : List TxOut → (outputSum : Nat) → Except String Nat
  | [], outputSum => .ok outputSum
  | out :: rest, outputSum =>
    match checkedAdd128 outputSum out.value with
    | none => .error "output value overflow"
    | some sum => sumOutputs rest sum

/-- The first half of `apply_utxo_tx`: everything that is checked before the
first mutation. -/
def checkUtxoTx (u : UtxoSet) (tx : UtxoTx) (mediaBlue : Nat) : Except String Unit := do
  tx.validateForm
  if !tx.verify then .error "Invalid UTXO signature"
  else if tx.lockBlueScore > 0 ∧ mediaBlue < tx.lockBlueScore then
    .error s!"Tx lock_blue_score {tx.lockBlueScore} not reached (media {mediaBlue})"
  else do
    let inputSum ← checkInputs u tx mediaBlue tx.inputs 0
    let outputSum ← sumOutputs tx.outputs tx.fee
    if inputSum ≠ outputSum then
      .error s!"Value imbalance: inputs {inputSum} != outputs+fee {outputSum}"
    else .ok ()

end Checks

/-! ### Mutations of a spend -/

/-- One primitive mutation of the second half of `apply_utxo_tx`. -/
inductive UtxoEffect
  /-- `utxos.spend(op)`. -/
  | spend (op : OutPoint)
  /-- Move an output's value to the account its predicate names. -/
  | credit (address : Option Address) (value : Nat)
  /-- `utxos.insert(op, out)`. -/
  | create (op : OutPoint) (out : TxOut)

namespace UtxoEffect

/-- Perform one mutation; a failed one changes nothing. -/
def apply (u : UtxoSet) (accounts : Accounts) :
    UtxoEffect → Except String (UtxoSet × Accounts)
  | .spend op => do
    let u' ← u.spend op
    .ok (u', accounts)
  | .credit none _ => .error "CreditAccount missing address"
  | .credit (some addr) value =>
    match checkedAdd128 (accounts.entry addr).balance value with
    | none => .error "account credit overflow"
    | some balance => .ok (u, accounts.insert addr { accounts.entry addr with balance })
  | .create op out => .ok (u.insert op out, accounts)

/-- Perform mutations until one fails. (An overflowing credit is to an account
that exists, so its `entry().or_default()` adds nothing.) -/
def applyAll : List UtxoEffect → UtxoSet → Accounts →
    (UtxoSet × Accounts) × Except String Unit
  | [], u, accounts => ((u, accounts), .ok ())
  | e :: es, u, accounts =>
    match e.apply u accounts with
    | .ok (u', accounts') => applyAll es u' accounts'
    | .error msg => ((u, accounts), .error msg)

end UtxoEffect

section Apply

variable [Crypto]

/-- The mutation of output `i`: a credit, or a fresh outpoint created now. -/
def outputEffect (txid : Hash) (mediaBlue : Nat) : TxOut × Nat → UtxoEffect
  | (out, i) =>
    if out.predicate.isAccountCredit then .credit out.predicate.lockedAddress out.value
    else .create ⟨txid, UInt32.ofNat i⟩ { out with createdBlue := mediaBlue }

/-- The mutations of a spend: every input, then every output. -/
def UtxoTx.effects (tx : UtxoTx) (mediaBlue : Nat) : List UtxoEffect :=
  tx.inputs.map (fun tin => .spend tin.previous)
    ++ tx.outputs.zipIdx.map (outputEffect tx.txHash mediaBlue)

/-- `apply_utxo_tx`; on success the fee is handed to the caller. -/
def applyUtxoTx (u : UtxoSet) (accounts : Accounts) (tx : UtxoTx) (mediaBlue : Nat) :
    (UtxoSet × Accounts) × Except String Nat :=
  match checkUtxoTx u tx mediaBlue with
  | .error e => ((u, accounts), .error e)
  | .ok () =>
    match UtxoEffect.applyAll (tx.effects mediaBlue) u accounts with
    | (st, .ok ()) => (st, .ok tx.fee)
    | (st, .error e) => (st, .error e)

end Apply

end HassanNode
