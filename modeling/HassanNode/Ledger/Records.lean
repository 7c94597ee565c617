import Mathlib
import HassanNode.Ledger.State

/-!
# HassanNode.Ledger.Records

A title keeps a history of its events, and each event names the settlement id of the
block that carried it. Nothing ever reads a history. So two tries of a body that differ
in the settlement id fail at the same operation or both succeed, and end in ledgers that
differ in histories only (`simulateApplyBlockBody_congr`), which the state root does not cover
(`applyBlockReward_congr`).
-/

namespace HassanNode

open Std (ExtTreeMap)
open Params

/-! ### Without histories -/

def TitleDeed.unrecorded (deed : TitleDeed) : TitleDeed := { deed with history := [] }

def RegistryState.unrecorded (r : RegistryState) : RegistryState :=
  { r with titles := r.titles.map fun _ deed => deed.unrecorded }

def Ledger.unrecorded (l : Ledger) : Ledger := { l with registry := l.registry.unrecorded }

/-- The same place for another settlement id. -/
structure SamePlace (ctx ctx' : RegistryCtx) : Prop where
  timestamp : ctx'.timestamp = ctx.timestamp
  height : ctx'.height = ctx.height
  blueScore : ctx'.blueScore = ctx.blueScore

theorem map_insert_unrecorded (titles : ExtTreeMap Hash TitleDeed) (tid : Hash) (deed : TitleDeed) :
    (titles.insert tid deed).map (fun _ d => d.unrecorded)
      = (titles.map fun _ d => d.unrecorded).insert tid deed.unrecorded := by
  refine ExtTreeMap.ext_getElem? fun k => ?_
  rw [ExtTreeMap.getElem?_map, ExtTreeMap.getElem?_insert, ExtTreeMap.getElem?_insert, ExtTreeMap.getElem?_map]
  split
  · rfl
  · rfl

theorem map_unrecorded_unrecorded (titles : ExtTreeMap Hash TitleDeed) :
    (titles.map fun _ (d : TitleDeed) => d.unrecorded).map (fun _ (d : TitleDeed) => d.unrecorded)
      = titles.map fun _ (d : TitleDeed) => d.unrecorded := by
  refine ExtTreeMap.ext_getElem? fun k => ?_
  rw [ExtTreeMap.getElem?_map, ExtTreeMap.getElem?_map, Option.map_map]
  rfl

namespace RegistryState

variable {r : RegistryState} {ctx ctx' : RegistryCtx}

theorem getElem?_unrecorded (r : RegistryState) (tid : Hash) :
    r.unrecorded.titles[tid]? = r.titles[tid]?.map TitleDeed.unrecorded := by
  rw [unrecorded, ExtTreeMap.getElem?_map]

theorem mem_unrecorded (r : RegistryState) (tid : Hash) : tid ∈ r.unrecorded.titles ↔ tid ∈ r.titles := by
  rw [unrecorded, ExtTreeMap.mem_map]

@[simp] theorem escrows_unrecorded (r : RegistryState) : r.unrecorded.escrows = r.escrows := rfl

@[simp] theorem unrecorded_unrecorded (r : RegistryState) : r.unrecorded.unrecorded = r.unrecorded := by
  exact RegistryState.ext (map_unrecorded_unrecorded r.titles) rfl

/-- A deed that is written, whatever its history. -/
theorem insert_unrecorded (r : RegistryState) (tid : Hash) {deed deed' : TitleDeed}
    (hdeed : deed'.unrecorded = deed.unrecorded) :
    ({ r.unrecorded with titles := r.unrecorded.titles.insert tid deed' } : RegistryState).unrecorded
      = ({ r with titles := r.titles.insert tid deed } : RegistryState).unrecorded := by
  refine RegistryState.ext ?_ rfl
  show (r.unrecorded.titles.insert tid deed').map (fun _ d => d.unrecorded)
    = (r.titles.insert tid deed).map fun _ d => d.unrecorded
  rw [map_insert_unrecorded, map_insert_unrecorded, hdeed]
  exact congrArg (·.insert tid deed.unrecorded) (map_unrecorded_unrecorded r.titles)

/-- An update that does not read the history. -/
theorem updateTitle_unrecorded (titles : ExtTreeMap Hash TitleDeed) {f f' : TitleDeed → TitleDeed}
    (hf : ∀ deed, (f' deed.unrecorded).unrecorded = (f deed).unrecorded) (tid : Option Hash) :
    (updateTitle (titles.map fun _ (d : TitleDeed) => d.unrecorded) f' tid).map (fun _ (d : TitleDeed) => d.unrecorded)
      = (updateTitle titles f tid).map (fun _ (d : TitleDeed) => d.unrecorded) := by
  have hidem := map_unrecorded_unrecorded titles
  cases tid with
  | none => exact hidem
  | some tid =>
      rw [updateTitle, updateTitle, ExtTreeMap.getElem?_map]
      cases titles[tid]? with
      | none => exact hidem
      | some deed =>
          show (((titles.map fun _ d => d.unrecorded).insert tid (f' deed.unrecorded)).map fun _ d => d.unrecorded)
            = (titles.insert tid (f deed)).map fun _ d => d.unrecorded
          rw [map_insert_unrecorded, map_insert_unrecorded, hidem, hf]

theorem refund_unrecorded (r : RegistryState) (accounts : Accounts) (escrowId : Hash) (esc : EscrowAccount) :
    Prod.map unrecorded id (r.unrecorded.refund accounts escrowId esc)
      = Prod.map unrecorded id (r.refund accounts escrowId esc) := by
  refine Prod.ext (RegistryState.ext ?_ ?_) rfl
  · refine updateTitle_unrecorded r.titles ?_ esc.titleId
    exact fun _ => rfl
  · rfl

/-! ### The arms -/

theorem transferTitle_unrecorded (ctx ctx' : RegistryCtx) (signer : Address) (titleId : Hash) (to_ : Address)
    (memo : Bytes) :
    (r.unrecorded.transferTitle ctx' signer titleId to_ memo).map unrecorded
      = (r.transferTitle ctx signer titleId to_ memo).map unrecorded := by
  rw [transferTitle, transferTitle, getElem?_unrecorded]
  cases r.titles[titleId]? with
  | none => rfl
  | some deed =>
      show Except.map unrecorded (if deed.currentOwner ≠ signer then _ else if deed.escrowId.isSome then _ else _)
        = Except.map unrecorded (if deed.currentOwner ≠ signer then _ else if deed.escrowId.isSome then _ else _)
      split
      · rfl
      split
      · rfl
      · exact congrArg Except.ok (insert_unrecorded r titleId rfl)

theorem checkEscrowTitle_unrecorded (r : RegistryState) (seller : Address) (titleId : Option Hash) :
    r.unrecorded.checkEscrowTitle seller titleId = r.checkEscrowTitle seller titleId := by
  cases titleId with
  | none => rfl
  | some tid =>
      rw [checkEscrowTitle, checkEscrowTitle, getElem?_unrecorded]
      cases r.titles[tid]? with
      | none => rfl
      | some deed => rfl

theorem fundEscrow_unrecorded (accounts : Accounts) (signer : Address) (escrowId : Hash) (amount : Nat) :
    (r.unrecorded.fundEscrow accounts signer escrowId amount).map (Prod.map unrecorded id)
      = (r.fundEscrow accounts signer escrowId amount).map (Prod.map unrecorded id) := by
  rw [fundEscrow, fundEscrow, escrows_unrecorded]
  cases r.escrows[escrowId]? with
  | none => rfl
  | some esc =>
      dsimp only
      split
      · rfl
      split
      · rfl
      cases accounts[signer]? with
      | none => rfl
      | some acct =>
          dsimp only
          split
          · rfl
          · refine congrArg Except.ok (Prod.ext (RegistryState.ext ?_ rfl) rfl)
            show r.unrecorded.unrecorded.titles = r.unrecorded.titles
            rw [unrecorded_unrecorded]

theorem releaseEscrow_unrecorded (accounts : Accounts) (ctx ctx' : RegistryCtx) (signer : Address) (escrowId : Hash) :
    (r.unrecorded.releaseEscrow accounts ctx' signer escrowId).map (Prod.map unrecorded id)
      = (r.releaseEscrow accounts ctx signer escrowId).map (Prod.map unrecorded id) := by
  rw [releaseEscrow, releaseEscrow, escrows_unrecorded]
  cases r.escrows[escrowId]? with
  | none => rfl
  | some esc =>
      dsimp only
      split
      · rfl
      split
      · rfl
      · refine congrArg Except.ok (Prod.ext (RegistryState.ext ?_ rfl) rfl)
        refine updateTitle_unrecorded r.titles ?_ esc.titleId
        exact fun _ => rfl

theorem refundEscrow_unrecorded (accounts : Accounts) (signer : Address) (escrowId : Hash) :
    (r.unrecorded.refundEscrow accounts signer escrowId).map (Prod.map unrecorded id)
      = (r.refundEscrow accounts signer escrowId).map (Prod.map unrecorded id) := by
  rw [refundEscrow, refundEscrow, escrows_unrecorded]
  cases r.escrows[escrowId]? with
  | none => rfl
  | some esc =>
      dsimp only
      split
      · rfl
      split
      · rfl
      · exact congrArg Except.ok (refund_unrecorded r accounts escrowId esc)

theorem timeoutClaimEscrow_unrecorded (h : SamePlace ctx ctx') (accounts : Accounts) (signer : Address)
    (escrowId : Hash) :
    (r.unrecorded.timeoutClaimEscrow accounts ctx' signer escrowId).map (Prod.map unrecorded id)
      = (r.timeoutClaimEscrow accounts ctx signer escrowId).map (Prod.map unrecorded id) := by
  rw [timeoutClaimEscrow, timeoutClaimEscrow, escrows_unrecorded, h.blueScore]
  cases r.escrows[escrowId]? with
  | none => rfl
  | some esc =>
      dsimp only
      split
      · rfl
      split
      · rfl
      split
      · rfl
      split
      · rfl
      · exact congrArg Except.ok (refund_unrecorded r accounts escrowId esc)

/-- A result that leaves the accounts alone. -/
theorem map_pair_unrecorded {x y : Except String RegistryState} (accounts : Accounts)
    (h : x.map unrecorded = y.map unrecorded) :
    (x.map (·, accounts)).map (Prod.map unrecorded id) = (y.map (·, accounts)).map (Prod.map unrecorded id) := by
  cases x with
  | error e =>
      cases y with
      | error e' => exact congrArg Except.error (Except.error.inj h)
      | ok r' => cases h
  | ok r =>
      cases y with
      | error e' => cases h
      | ok r' => exact congrArg Except.ok (Prod.ext (Except.ok.inj h) rfl)

variable [Crypto]

theorem issueTitle_unrecorded (h : SamePlace ctx ctx') (signer owner : Address) (cls : AssetClass)
    (description : Bytes) (seed : Hash) :
    (r.unrecorded.issueTitle ctx' signer owner cls description seed).map unrecorded
      = (r.issueTitle ctx signer owner cls description seed).map unrecorded := by
  simp only [issueTitle, mem_unrecorded, h.timestamp, h.height]
  split
  · rfl
  · exact congrArg Except.ok (insert_unrecorded r _ rfl)

theorem openEscrow_unrecorded (h : SamePlace ctx ctx') (signer buyer seller : Address) (arbiter : Option Address)
    (amount : Nat) (titleId : Option Hash) (memo : Bytes) (seed : Hash) (timeoutBlue : Nat) :
    (r.unrecorded.openEscrow ctx' signer buyer seller arbiter amount titleId memo seed timeoutBlue).map unrecorded
      = (r.openEscrow ctx signer buyer seller arbiter amount titleId memo seed timeoutBlue).map unrecorded := by
  simp only [openEscrow, checkEscrowTitle_unrecorded, escrows_unrecorded, h.timestamp]
  split
  · rfl
  · cases r.checkEscrowTitle seller titleId with
    | error e => rfl
    | ok u =>
        show Except.map unrecorded (if _ then _ else _) = Except.map unrecorded (if _ then _ else _)
        split
        · rfl
        · refine congrArg Except.ok (RegistryState.ext ?_ rfl)
          refine updateTitle_unrecorded r.titles ?_ titleId
          exact fun _ => rfl

theorem applyAction_unrecorded (h : SamePlace ctx ctx') (accounts : Accounts) (signer : Address)
    (action : RegistryAction) :
    (r.unrecorded.applyAction accounts ctx' signer action).map (Prod.map unrecorded id)
      = (r.applyAction accounts ctx signer action).map (Prod.map unrecorded id) := by
  cases action with
  | issueTitle owner cls description seed =>
      exact map_pair_unrecorded accounts (issueTitle_unrecorded h signer owner cls description seed)
  | transferTitle titleId to_ memo =>
      exact map_pair_unrecorded accounts (transferTitle_unrecorded ctx ctx' signer titleId to_ memo)
  | openEscrow buyer seller arbiter amount titleId memo seed timeoutBlue =>
      exact map_pair_unrecorded accounts
        (openEscrow_unrecorded h signer buyer seller arbiter amount titleId memo seed timeoutBlue)
  | fundEscrow escrowId amount => exact fundEscrow_unrecorded accounts signer escrowId amount
  | releaseEscrow escrowId => exact releaseEscrow_unrecorded accounts ctx ctx' signer escrowId
  | refundEscrow escrowId => exact refundEscrow_unrecorded accounts signer escrowId
  | timeoutClaimEscrow escrowId => exact timeoutClaimEscrow_unrecorded h accounts signer escrowId

theorem applyOp_unrecorded (h : SamePlace ctx ctx') (accounts : Accounts) (op : RegistryOp) :
    Prod.map (Prod.map unrecorded id) id (r.unrecorded.applyOp accounts op ctx')
      = Prod.map (Prod.map unrecorded id) id (r.applyOp accounts op ctx) := by
  have harm := applyAction_unrecorded (r := r) h (bumpNonce accounts op.signerAddress) op.signerAddress op.action
  simp only [applyOp]
  split
  · exact Prod.ext (Prod.ext (unrecorded_unrecorded r) rfl) rfl
  split
  · exact Prod.ext (Prod.ext (unrecorded_unrecorded r) rfl) rfl
  · cases hact : r.applyAction (bumpNonce accounts op.signerAddress) ctx op.signerAddress op.action with
    | error e =>
        rw [hact] at harm
        cases hact' : r.unrecorded.applyAction (bumpNonce accounts op.signerAddress) ctx' op.signerAddress op.action with
        | error e' =>
            rw [hact'] at harm
            obtain rfl : e' = e := Except.error.inj harm
            exact Prod.ext (Prod.ext (unrecorded_unrecorded r) rfl) rfl
        | ok s' =>
            rw [hact'] at harm
            cases harm
    | ok s =>
        rw [hact] at harm
        cases hact' : r.unrecorded.applyAction (bumpNonce accounts op.signerAddress) ctx' op.signerAddress op.action with
        | error e' =>
            rw [hact'] at harm
            cases harm
        | ok s' =>
            rw [hact'] at harm
            exact Prod.ext (Except.ok.inj harm) rfl

end RegistryState

/-! ### A whole body -/

/-- The same place for another settlement id. -/
structure ItemCtx.SamePlace (ctx ctx' : ItemCtx) : Prop where
  chainId : ctx'.chainId = ctx.chainId
  tipScore : ctx'.tipScore = ctx.tipScore
  mediaBlue : ctx'.mediaBlue = ctx.mediaBlue
  timestamp : ctx'.timestamp = ctx.timestamp
  height : ctx'.height = ctx.height

/-- Two fallible updates that agree up to a view of the state agree so in a row. -/
theorem strictEach_congr {ε σ τ α : Type} {view : σ → τ} {step step' : σ → α → σ × Except ε Unit}
    (hstep : ∀ s s' x, view s = view s' → Prod.map view id (step s x) = Prod.map view id (step' s' x))
    (xs : List α) {s s' : σ} (hs : view s = view s') :
    (strictEach step s xs).map view = (strictEach step' s' xs).map view := by
  induction xs generalizing s s' with
  | nil => exact congrArg Except.ok hs
  | cons x xs ih =>
      have hx := hstep s s' x hs
      rw [strictEach, strictEach]
      revert hx
      obtain ⟨t, res⟩ := step s x
      obtain ⟨t', res'⟩ := step' s' x
      intro hx
      obtain ⟨hview, hres⟩ := Prod.mk.inj hx
      replace hres : res = res' := hres
      subst hres
      cases res with
      | error e => rfl
      | ok u => exact ih hview

namespace Ledger

@[simp] theorem unrecorded_unrecorded (l : Ledger) : l.unrecorded.unrecorded = l.unrecorded := by
  rw [unrecorded, unrecorded]
  exact congrArg (fun registry => { l with registry }) (RegistryState.unrecorded_unrecorded l.registry)

section Items

variable [Crypto] {ctx ctx' : ItemCtx}

/-- A ledger and the fees so far, without histories. -/
def tally (s : Ledger × Nat) : Ledger × Nat := (s.1.unrecorded, s.2)

theorem applyCustodyOp_unrecorded (l : Ledger) (chainId : Nat) (op : CustodyCertificate) :
    l.unrecorded.applyCustodyOp chainId op = (l.applyCustodyOp chainId op).map unrecorded := by
  obtain ⟨accounts, minted, burned, treasury, registry, staked, utxo⟩ := l
  show applyCustodyOp ⟨accounts, minted, burned, treasury, registry.unrecorded, staked, utxo⟩ chainId op = _
  rw [applyCustodyOp, applyCustodyOp]
  split
  · rfl
  split
  · rfl
  split
  · rfl
  cases op.settlementBytes with
  | error e => rfl
  | ok sid =>
      show (op.verify sid >>= _) = Except.map unrecorded (op.verify sid >>= _)
      cases op.verify sid with
      | error e => rfl
      | ok u =>
          show (if op.nonce ≠ (accounts.entry op.owner).nonce then _ else _)
            = Except.map unrecorded (if op.nonce ≠ (accounts.entry op.owner).nonce then _ else _)
          split
          · rfl
          cases op.kind with
          | stakeLock =>
              dsimp only
              by_cases hbalance : (accounts.entry op.owner).balance < op.amount
              · rw [if_pos hbalance, if_pos hbalance]
                rfl
              · rw [if_neg hbalance, if_neg hbalance]
                rfl
          | stakeUnlock =>
              dsimp only
              by_cases hlocked : staked[op.owner]?.getD 0 < op.amount
              · rw [if_pos hlocked, if_pos hlocked]
                rfl
              · rw [if_neg hlocked, if_neg hlocked]
                rfl
          | bridgeExit => rfl
          | bridgeEnter => rfl

/-- One operation, without histories. -/
theorem applyItem_unrecorded (h : ctx.SamePlace ctx') (s : Ledger × Nat) (item : BodyItem) :
    Prod.map tally id (applyItem ctx' (tally s) item) = Prod.map tally id (applyItem ctx s item) := by
  obtain ⟨l, fees⟩ := s
  cases item with
  | transparent tx =>
      -- account transfers are refused at the first test
      rw [applyItem, applyItem, applyTransparentTx, applyTransparentTx]
      exact Prod.ext (Prod.ext (unrecorded_unrecorded l) rfl) rfl
  | utxo tx =>
      rw [applyItem, applyItem, h.mediaBlue]
      dsimp only [tally, unrecorded]
      obtain ⟨⟨utxo, accounts⟩, res⟩ := applyUtxoTx l.utxo l.accounts tx ctx.mediaBlue
      have hledger : ({ l.unrecorded with utxo, accounts } : Ledger).unrecorded
          = ({ l with utxo, accounts } : Ledger).unrecorded :=
        congrArg (fun registry => ({ l with utxo, accounts, registry } : Ledger))
          (RegistryState.unrecorded_unrecorded l.registry)
      cases res with
      | ok fee => exact Prod.ext (Prod.ext hledger rfl) rfl
      | error e => exact Prod.ext (Prod.ext hledger rfl) rfl
  | registry op =>
      have hplace : SamePlace
          { timestamp := ctx.timestamp, height := ctx.height, settlementIdHex := ctx.settlementIdHex,
            blueScore := ctx.mediaBlue }
          { timestamp := ctx'.timestamp, height := ctx'.height, settlementIdHex := ctx'.settlementIdHex,
            blueScore := ctx'.mediaBlue } := ⟨h.timestamp, h.height, h.mediaBlue⟩
      have hop := RegistryState.applyOp_unrecorded (r := l.registry) hplace l.accounts op
      rw [applyItem, applyItem]
      revert hop
      obtain ⟨⟨r, accounts⟩, res⟩ := l.registry.applyOp l.accounts op
        { timestamp := ctx.timestamp, height := ctx.height, settlementIdHex := ctx.settlementIdHex,
          blueScore := ctx.mediaBlue }
      intro hop
      dsimp only [tally, unrecorded]
      revert hop
      obtain ⟨⟨r', accounts'⟩, res'⟩ := l.registry.unrecorded.applyOp l.accounts op
        { timestamp := ctx'.timestamp, height := ctx'.height, settlementIdHex := ctx'.settlementIdHex,
          blueScore := ctx'.mediaBlue }
      intro hop
      obtain ⟨hstate, hres⟩ := Prod.mk.inj hop
      obtain ⟨hr, haccounts⟩ := Prod.mk.inj hstate
      replace hr : r'.unrecorded = r.unrecorded := hr
      replace haccounts : accounts' = accounts := haccounts
      replace hres : res' = res := hres
      subst haccounts hres
      exact Prod.ext (Prod.ext (congrArg (fun registry => { l with registry, accounts := accounts' }) hr) rfl) rfl
  | custody op =>
      rw [applyItem, applyItem, h.chainId]
      dsimp only [tally]
      rw [applyCustodyOp_unrecorded]
      cases l.applyCustodyOp ctx.chainId op with
      | ok l' => exact Prod.ext (Prod.ext (unrecorded_unrecorded l') rfl) rfl
      | error e => exact Prod.ext (Prod.ext (unrecorded_unrecorded l) rfl) rfl

/-- One operation, on ledgers that differ in histories. -/
theorem applyItem_congr (h : ctx.SamePlace ctx') {s s' : Ledger × Nat} (hs : tally s = tally s') (item : BodyItem) :
    Prod.map tally id (applyItem ctx s item) = Prod.map tally id (applyItem ctx' s' item) := by
  rw [← applyItem_unrecorded h s item, hs]
  exact applyItem_unrecorded ⟨rfl, rfl, rfl, rfl, rfl⟩ s' item

omit [Crypto] in
/-- A name for the failure in front of its text. -/
theorem mapError_congr {x y : (Ledger × Nat) × Except String Unit} (name : String → String)
    (h : Prod.map tally id x = Prod.map tally id y) :
    Prod.map tally id (x.1, x.2.mapError name) = Prod.map tally id (y.1, y.2.mapError name) := by
  obtain ⟨hstate, hres⟩ := Prod.mk.inj h
  exact Prod.ext hstate (congrArg (Except.mapError name) hres)

/-- The same at admission. -/
theorem admitItem_congr (h : ctx.SamePlace ctx') {s s' : Ledger × Nat} (hs : tally s = tally s') (item : BodyItem) :
    Prod.map tally id (admitItem ctx s item) = Prod.map tally id (admitItem ctx' s' item) := by
  have happly := applyItem_congr h hs item
  cases item with
  | transparent tx => exact mapError_congr _ happly
  | utxo tx =>
      rw [admitItem, admitItem, h.chainId]
      split
      · exact Prod.ext hs rfl
      · exact mapError_congr _ happly
  | registry op => exact mapError_congr _ happly
  | custody op => exact mapError_congr _ happly

/-- **Trying a body does not depend on the settlement id.** -/
theorem simulateApplyBlockBody_congr (l : Ledger) (chainId tipScore mediaBlue : Nat) {b b' : Block}
    (hitems : b'.items = b.items) (htime : b'.timestamp = b.timestamp) (hheight : b'.height = b.height) :
    (l.simulateApplyBlockBody chainId tipScore mediaBlue b').map tally
      = (l.simulateApplyBlockBody chainId tipScore mediaBlue b).map tally := by
  rw [simulateApplyBlockBody, simulateApplyBlockBody, hitems]
  have hplace : (itemCtx chainId tipScore mediaBlue b').SamePlace (itemCtx chainId tipScore mediaBlue b) :=
    ⟨rfl, rfl, rfl, htime.symm, hheight.symm⟩
  exact strictEach_congr (fun _ _ x hs => admitItem_congr hplace hs x) b.items rfl

/-- The reward goes to the same output. -/
theorem applyBlockReward_congr {l l' : Ledger} (hl : l'.unrecorded = l.unrecorded) (score fees : Nat) {b b' : Block}
    (hid : b'.coinbaseTxid = b.coinbaseTxid) (hminer : b'.miner = b.miner) :
    (l'.applyBlockReward b' score fees).merkleRoot = (l.applyBlockReward b score fees).merkleRoot := by
  have haccounts : l'.accounts = l.accounts := (Ledger.ext_iff.mp hl).1
  have hutxo : l'.utxo = l.utxo := (Ledger.ext_iff.mp hl).2.2.2.2.2.2
  have hminted : l'.mintedSupply = l.mintedSupply := (Ledger.ext_iff.mp hl).2.1
  have hburned : l'.feesBurned = l.feesBurned := (Ledger.ext_iff.mp hl).2.2.1
  simp only [applyBlockReward, hminted, hid, hminer]
  split
  · simp only [merkleRoot, haccounts, hutxo, hminted, hburned]
  · simp only [merkleRoot, haccounts, hutxo, hburned]

end Items

end Ledger

end HassanNode
