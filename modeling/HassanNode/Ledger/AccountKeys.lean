import Mathlib
import HassanNode.Lib.Map
import HassanNode.Ledger.Debits

/-!
# HassanNode.Ledger.AccountKeys

Under which strings the accounts are kept. The maps of the ledger are keyed by
addresses as they were written, and four families of operations write them. An
operation names the addresses it can open an account for (`BodyItem.Names`): the
accounts its spends credit, the signer of a registry operation, and the seller
an escrow may pay. `Ledger.KeyedBy K` says that `K` holds of every address the
ledger may pay out to; a block whose names are in `K` keeps it.
-/

namespace HassanNode

open Std (ExtTreeMap)
open Params

/-- No two of these addresses are spellings of one. -/
def Address.OneSpelling (K : Address → Prop) : Prop :=
  ∀ a b, K a → K b → Address.equivalent a b = true → a = b

/-! ### What operations name -/

/-- The party an escrow may pay once it is opened. -/
def RegistryAction.payee : RegistryAction → Option Address
  | .openEscrow _ seller _ _ _ _ _ _ => some seller
  | _ => none

section Names

variable [Crypto]

/-- The addresses an operation can open an account for. A certificate opens
none: it moves coins its owner has. -/
def BodyItem.Names (a : Address) : BodyItem → Prop
  | .transparent _ | .custody _ => False
  | .utxo tx => ∃ out ∈ tx.outputs, out.predicate.isAccountCredit = true ∧ out.predicate.lockedAddress = some a
  | .registry op => op.signerAddress = a ∨ op.action.payee = some a

/-- The addresses a block can open an account for. -/
def Block.Names (b : Block) (a : Address) : Prop := ∃ item ∈ b.items, item.Names a

theorem Block.names_clearBody {b : Block} {a : Address} : ¬ b.clearBody.Names a := by
  rintro ⟨item, hitem, -⟩
  simp [Block.items, Block.clearBody] at hitem

end Names

/-! ### Ledgers with given keys -/

variable {K K' : Address → Prop}

/-- Every account is kept under one of these addresses. -/
def Accounts.Within (K : Address → Prop) (accounts : Accounts) : Prop := ∀ a ∈ accounts, K a

namespace Accounts.Within

variable {accounts : Accounts}

theorem insert (h : accounts.Within K) {a : Address} (ha : K a) (acct : Account) :
    Accounts.Within K (accounts.insert a acct) := by
  intro b hb
  rcases ExtTreeMap.mem_insert.mp hb with heq | hb
  · rwa [← Std.LawfulEqCmp.eq_of_compare heq]
  · exact h b hb

/-- An address with coins has an account. -/
theorem of_balance (h : accounts.Within K) {a : Address} (hpos : 0 < (accounts.entry a).balance) : K a := by
  refine h a ?_
  by_contra hnone
  rw [Accounts.entry, ExtTreeMap.getElem?_eq_none hnone] at hpos
  exact absurd hpos (lt_irrefl _)

end Accounts.Within

/-- Every escrow pays one of these addresses, whichever way it is closed. -/
def RegistryState.PaysWithin (K : Address → Prop) (r : RegistryState) : Prop :=
  ∀ (e : Hash) (esc : EscrowAccount), r.escrows[e]? = some esc →
    K esc.seller ∧ (0 < esc.funded → K esc.buyer)

theorem RegistryState.PaysWithin.insert {r : RegistryState} (h : r.PaysWithin K)
    {titles : ExtTreeMap Hash TitleDeed} {e : Hash} {esc : EscrowAccount} (hseller : K esc.seller)
    (hbuyer : 0 < esc.funded → K esc.buyer) :
    RegistryState.PaysWithin K { titles := titles, escrows := r.escrows.insert e esc } := by
  intro e' esc' hesc'
  rcases Map.insert_eq_some.mp hesc' with ⟨rfl, rfl⟩ | ⟨-, hold⟩
  · exact ⟨hseller, hbuyer⟩
  · exact h e' esc' hold

/-- **Everything the ledger keeps or may pay out** goes to one of these
addresses. -/
structure Ledger.KeyedBy (K : Address → Prop) (l : Ledger) : Prop where
  accounts : l.accounts.Within K
  escrows : l.registry.PaysWithin K
  stakes : ∀ a, 0 < l.stakeOf a → K a

theorem Ledger.KeyedBy.empty : Ledger.KeyedBy K {} where
  accounts a ha := by simp at ha
  escrows e esc hesc := by simp at hesc
  stakes a ha := by simp [Ledger.stakeOf] at ha

theorem Ledger.KeyedBy.mono {l : Ledger} (h : l.KeyedBy K) (himp : ∀ a, K a → K' a) : l.KeyedBy K' where
  accounts a ha := himp a (h.accounts a ha)
  escrows e esc hesc := ⟨himp _ (h.escrows e esc hesc).1, fun hpos => himp _ ((h.escrows e esc hesc).2 hpos)⟩
  stakes a ha := himp a (h.stakes a ha)

/-! ### The operations of a body -/

/-- The mutations of a spend open accounts for the outputs it credits only. -/
theorem UtxoEffect.applyAll_within {es : List UtxoEffect} {u : UtxoSet} {accounts : Accounts}
    (h : accounts.Within K) (hcredits : ∀ a value, UtxoEffect.credit (some a) value ∈ es → K a) :
    (UtxoEffect.applyAll es u accounts).1.2.Within K := by
  induction es generalizing u accounts with
  | nil => exact h
  | cons e es ih =>
    rw [UtxoEffect.applyAll]
    split
    · rename_i u' accounts' he
      have hstep : accounts'.Within K := by
        cases e with
        | spend op =>
          obtain ⟨u₁, -, heq⟩ := Except.bind_eq_ok he
          cases heq
          exact h
        | create op out =>
          cases he
          exact h
        | credit addr value =>
          cases addr with
          | none => cases he
          | some a =>
            simp only [UtxoEffect.apply] at he
            split at he
            · cases he
            · cases he
              exact h.insert (hcredits a value List.mem_cons_self) _
      exact ih hstep fun a value hmem => hcredits a value (List.mem_cons_of_mem e hmem)
    · exact h

section Items

variable [Crypto]

theorem applyUtxoTx_within {u : UtxoSet} {accounts : Accounts} {tx : UtxoTx} {mediaBlue : Nat}
    (h : accounts.Within K) (hnames : ∀ a, BodyItem.Names a (.utxo tx) → K a) :
    (applyUtxoTx u accounts tx mediaBlue).1.2.Within K := by
  have hrun : (UtxoEffect.applyAll (tx.effects mediaBlue) u accounts).1.2.Within K := by
    refine UtxoEffect.applyAll_within h fun a value hmem => ?_
    rcases List.mem_append.mp hmem with hmem | hmem
    · obtain ⟨tin, -, heq⟩ := List.mem_map.mp hmem
      cases heq
    · obtain ⟨⟨out, i⟩, hout, heq⟩ := List.mem_map.mp hmem
      rw [outputEffect] at heq
      split at heq
      · rename_i hcredit
        obtain ⟨hlocked, -⟩ := UtxoEffect.credit.inj heq
        exact hnames a ⟨out, List.fst_mem_of_mem_zipIdx hout, hcredit, hlocked⟩
      · cases heq
  unfold applyUtxoTx
  split
  · exact h
  · split
    · rename_i hall
      rw [hall] at hrun
      exact hrun
    · rename_i hall
      rw [hall] at hrun
      exact hrun

/-- An arm of `apply_op` opens accounts for its signer, for the seller of the
escrow it releases and for the buyer of the escrow it refunds. -/
theorem RegistryMove.paysWithin {ctx : RegistryCtx} {signer : Address} {r r' : RegistryState}
    {accounts accounts' : Accounts} {action : RegistryAction}
    (hmove : RegistryMove ctx signer r accounts action r' accounts') (haccounts : accounts.Within K)
    (hpays : r.PaysWithin K) (hsigner : K signer) (hpayee : ∀ a, action.payee = some a → K a) :
    accounts'.Within K ∧ r'.PaysWithin K := by
  cases hmove with
  | issue => exact ⟨haccounts, hpays⟩
  | transfer => exact ⟨haccounts, hpays⟩
  | @«open» buyer seller arbiter amount titleId memo seed timeoutBlue esc hpos htitle hfresh hseller hid hzero =>
    refine ⟨haccounts, hpays.insert ?_ fun hfunded => ?_⟩
    · rw [hseller]
      exact hpayee seller rfl
    · rw [hzero] at hfunded
      exact absurd hfunded (lt_irrefl 0)
  | fund hesc hopen hacct hbal hstatus hbuyer =>
    exact ⟨haccounts.insert hsigner _, hpays.insert (hpays _ _ hesc).1 fun _ => hbuyer ▸ hsigner⟩
  | release hesc =>
    have hseller := (hpays _ _ hesc).1
    exact ⟨haccounts.insert hseller _, hpays.insert hseller fun hfunded => absurd hfunded (lt_irrefl 0)⟩
  | @refund escrowId esc _ haction hesc =>
    obtain ⟨hseller, hbuyer⟩ := hpays escrowId esc hesc
    refine ⟨?_, hpays.insert hseller fun hfunded => absurd hfunded (lt_irrefl 0)⟩
    simp only [RegistryState.refund]
    split
    · rename_i hfunded
      exact haccounts.insert (hbuyer hfunded) _
    · exact haccounts

theorem applyOp_paysWithin {r : RegistryState} {accounts : Accounts} {op : RegistryOp} {ctx : RegistryCtx}
    (haccounts : accounts.Within K) (hpays : r.PaysWithin K)
    (hnames : ∀ a, BodyItem.Names a (.registry op) → K a) :
    (r.applyOp accounts op ctx).1.2.Within K ∧ (r.applyOp accounts op ctx).1.1.PaysWithin K := by
  have hsigner : K op.signerAddress := hnames _ (Or.inl rfl)
  unfold RegistryState.applyOp
  dsimp only
  split
  · exact ⟨haccounts, hpays⟩
  · split
    · -- a stale nonce leaves an account for the signer behind
      exact ⟨haccounts.insert hsigner _, hpays⟩
    · have hbump : (RegistryState.bumpNonce accounts op.signerAddress).Within K := haccounts.insert hsigner _
      cases hact : r.applyAction (RegistryState.bumpNonce accounts op.signerAddress) ctx
          op.signerAddress op.action with
      | error e => exact ⟨hbump, hpays⟩
      | ok st => exact (applyAction_move hact).paysWithin hbump hpays hsigner fun a ha => hnames a (Or.inr ha)

theorem applyCustodyOp_pos {l l' : Ledger} {chainId : Nat} {op : CustodyCertificate}
    (h : l.applyCustodyOp chainId op = .ok l') : 0 < op.amount := by
  unfold Ledger.applyCustodyOp at h
  split at h
  · cases h
  · split at h
    · cases h
    · rename_i hamount
      exact Nat.pos_of_ne_zero hamount

/-- The owner of a certificate that applies has coins, free or staked. -/
theorem Ledger.KeyedBy.applyCustodyOp {l l' : Ledger} {chainId : Nat} {op : CustodyCertificate}
    (h : l.KeyedBy K) (happly : l.applyCustodyOp chainId op = .ok l') : l'.KeyedBy K := by
  have hpos := applyCustodyOp_pos happly
  obtain ⟨-, balance, stake, rfl, hcase⟩ := applyCustodyOp_ok happly
  have howner : K op.owner := by
    rcases hcase with ⟨hle, -⟩ | ⟨hle, -⟩
    · exact h.accounts.of_balance (lt_of_lt_of_le hpos hle)
    · exact h.stakes op.owner (lt_of_lt_of_le hpos hle)
  refine ⟨h.accounts.insert howner _, h.escrows, fun a ha => ?_⟩
  by_cases heq : op.owner = a
  · exact heq ▸ howner
  · refine h.stakes a ?_
    simpa [Ledger.stakeOf, ExtTreeMap.getElem?_insert, heq] using ha

/-- **One operation of a body.** -/
theorem Ledger.KeyedBy.applyItem {ctx : ItemCtx} {s : Ledger × Nat} {item : BodyItem}
    (h : s.1.KeyedBy K) (hnames : ∀ a, item.Names a → K a) : (Ledger.applyItem ctx s item).1.1.KeyedBy K := by
  cases item with
  | transparent tx => exact h
  | utxo tx =>
    have htx : (applyUtxoTx s.1.utxo s.1.accounts tx ctx.mediaBlue).1.2.Within K :=
      applyUtxoTx_within h.accounts hnames
    simp only [Ledger.applyItem]
    split
    · rename_i hrun
      rw [hrun] at htx
      exact ⟨htx, h.escrows, h.stakes⟩
    · rename_i hrun
      rw [hrun] at htx
      exact ⟨htx, h.escrows, h.stakes⟩
  | registry op =>
    exact ⟨(applyOp_paysWithin h.accounts h.escrows hnames).1,
      (applyOp_paysWithin h.accounts h.escrows hnames).2, h.stakes⟩
  | custody op =>
    simp only [Ledger.applyItem]
    split
    · rename_i l hl
      exact h.applyCustodyOp hl
    · exact h

/-- **One block.** -/
theorem Ledger.KeyedBy.applyBlockEffects {l : Ledger} (h : l.KeyedBy K) (chainId tipScore : Nat)
    (score : Option Nat) {b : Block} (hnames : ∀ a, b.Names a → K a) :
    (l.applyBlockEffects chainId tipScore score b).KeyedBy K := by
  unfold Ledger.applyBlockEffects
  split
  · exact h
  · dsimp only
    generalize Ledger.itemCtx chainId tipScore (score.getD tipScore) b = ctx
    have hbody : (skipEach (Ledger.applyItem ctx) (l, 0) b.items).1.KeyedBy K :=
      skipEach_induction (fun s : Ledger × Nat => s.1.KeyedBy K) h fun item hitem s hs =>
        hs.applyItem fun a ha => hnames a ⟨item, hitem, ha⟩
    generalize (skipEach (Ledger.applyItem ctx) (l, 0) b.items) = s at hbody
    have hreward := Ledger.applyBlockReward_keeps s.1 b (score.getD 0) s.2
    refine ⟨hreward.1 ▸ hbody.accounts, ?_, fun a ha => hbody.stakes a ?_⟩
    · unfold Ledger.applyBlockReward
      dsimp only
      split <;> exact hbody.escrows
    · rwa [Ledger.stakeOf, hreward.2] at ha

end Items

end HassanNode
