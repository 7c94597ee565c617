import Mathlib
import HassanNode.Ledger.RegistrySound
import HassanNode.Ledger.UtxoSound
import HassanNode.Ledger.Unlock

/-!
# HassanNode.Ledger.Atomicity

When a rejected spend leaves no trace. The checks come before the first mutation
and the inputs they passed can all be spent, so what can still fail is a credit:
an output that is a credit without naming an account first, or a balance that
overflows (`applyAll_outputs_ok_iff`). By then the inputs are gone.
-/

namespace HassanNode

open Std (ExtTreeMap ExtTreeSet)
open Params Bincode

/-! ### The credits of a spend -/

/-- What the outputs move to one account. -/
def creditedTo (a : Address) (outputs : List TxOut) : Nat :=
  ((outputs.filter fun out => out.predicate.isAccountCredit && out.predicate.lockedAddress == some a).map
    TxOut.value).sum

/-- No credit of the outputs can fail: each names its account, and no account
they name overflows. -/
structure CreditsFit (accounts : Accounts) (outputs : List TxOut) : Prop where
  addressed : ∀ out ∈ outputs, out.predicate.isAccountCredit = true → out.predicate.lockedAddress.isSome
  fits : ∀ out ∈ outputs, out.predicate.isAccountCredit = true → ∀ a, out.predicate.lockedAddress = some a →
    (accounts.entry a).balance + creditedTo a outputs ≤ u128Max

theorem creditedTo_cons_self {a : Address} {out : TxOut} {outputs : List TxOut}
    (hcredit : out.predicate.isAccountCredit = true) (ha : out.predicate.lockedAddress = some a) :
    creditedTo a (out :: outputs) = out.value + creditedTo a outputs := by
  simp [creditedTo, hcredit, ha]

theorem creditedTo_cons_of_ne {a : Address} {out : TxOut} {outputs : List TxOut}
    (h : out.predicate.isAccountCredit = true → out.predicate.lockedAddress ≠ some a) :
    creditedTo a (out :: outputs) = creditedTo a outputs := by
  have hskip : (out.predicate.isAccountCredit && out.predicate.lockedAddress == some a) = false := by
    cases hcredit : out.predicate.isAccountCredit
    · rfl
    · simpa using h hcredit
  simp [creditedTo, hskip]

/-- An account nobody credits gets nothing. -/
theorem creditedTo_eq_zero {a : Address} {outputs : List TxOut}
    (h : ∀ out ∈ outputs, out.predicate.isAccountCredit = true → out.predicate.lockedAddress ≠ some a) :
    creditedTo a outputs = 0 := by
  induction outputs with
  | nil => rfl
  | cons out outputs ih =>
    rw [creditedTo_cons_of_ne (h out List.mem_cons_self)]
    exact ih fun o ho => h o (List.mem_cons_of_mem out ho)

/-- The head of the credits, when it is one. -/
theorem creditsFit_cons {accounts : Accounts} {out : TxOut} {outputs : List TxOut} {a : Address} {balance : Nat}
    (hcredit : out.predicate.isAccountCredit = true) (ha : out.predicate.lockedAddress = some a)
    (hbalance : checkedAdd128 (accounts.entry a).balance out.value = some balance) :
    CreditsFit accounts (out :: outputs) ↔
      CreditsFit (accounts.insert a { accounts.entry a with balance }) outputs := by
  obtain ⟨hsum, rfl⟩ := checkedAdd128_eq_some.mp hbalance
  have hentry : ∀ b, (Accounts.entry (accounts.insert a { accounts.entry a with
      balance := (accounts.entry a).balance + out.value }) b).balance + creditedTo b outputs
      = (accounts.entry b).balance + creditedTo b (out :: outputs) := by
    intro b
    rw [Accounts.entry_insert]
    by_cases hab : a = b
    · subst hab
      rw [if_pos rfl, creditedTo_cons_self hcredit ha, Nat.add_assoc]
    · rw [if_neg hab, creditedTo_cons_of_ne fun _ h => hab (Option.some.inj (ha.symm.trans h))]
  constructor
  · intro h
    refine ⟨fun o ho => h.addressed o (List.mem_cons_of_mem out ho), fun o ho hc b hb => ?_⟩
    rw [hentry]
    exact h.fits o (List.mem_cons_of_mem out ho) hc b hb
  · intro h
    refine ⟨fun o ho hc => ?_, fun o ho hc b hb => ?_⟩
    · rcases List.mem_cons.mp ho with rfl | ho
      · rw [ha]
        rfl
      · exact h.addressed o ho hc
    · rw [← hentry]
      by_cases hrest : ∃ o' ∈ outputs, o'.predicate.isAccountCredit = true ∧ o'.predicate.lockedAddress = some b
      · obtain ⟨o', ho', hc', hb'⟩ := hrest
        exact h.fits o' ho' hc' b hb'
      · rcases List.mem_cons.mp ho with rfl | ho
        · obtain rfl := Option.some.inj (ha.symm.trans hb)
          rw [creditedTo_eq_zero fun o' ho' hc' hb' => hrest ⟨o', ho', hc', hb'⟩, Accounts.entry_insert,
            if_pos rfl]
          exact hsum
        · exact absurd ⟨o, ho, hc, hb⟩ hrest

/-- A head that is no credit. -/
theorem creditsFit_cons_of_not {accounts : Accounts} {out : TxOut} {outputs : List TxOut}
    (hcredit : out.predicate.isAccountCredit = false) :
    CreditsFit accounts (out :: outputs) ↔ CreditsFit accounts outputs := by
  have hsame : ∀ a, creditedTo a (out :: outputs) = creditedTo a outputs := fun a =>
    creditedTo_cons_of_ne fun h => by simp [hcredit] at h
  constructor
  · intro h
    refine ⟨fun o ho => h.addressed o (List.mem_cons_of_mem out ho), fun o ho hc a ha => ?_⟩
    rw [← hsame]
    exact h.fits o (List.mem_cons_of_mem out ho) hc a ha
  · intro h
    refine ⟨fun o ho hc => ?_, fun o ho hc a ha => ?_⟩
    · rcases List.mem_cons.mp ho with rfl | ho
      · simp [hcredit] at hc
      · exact h.addressed o ho hc
    · rw [hsame]
      rcases List.mem_cons.mp ho with rfl | ho
      · simp [hcredit] at hc
      · exact h.fits o ho hc a ha

/-! ### The output loop -/

/-- The output loop succeeds if and only if no credit fails. -/
theorem applyAll_outputs_ok_iff {txid : Hash} {mediaBlue : Nat} {outputs : List (TxOut × Nat)} {u : UtxoSet}
    {accounts : Accounts} :
    (UtxoEffect.applyAll (outputs.map (outputEffect txid mediaBlue)) u accounts).2 = .ok () ↔
      CreditsFit accounts (outputs.map Prod.fst) := by
  induction outputs generalizing u accounts with
  | nil => exact ⟨fun _ => ⟨by simp, by simp⟩, fun _ => rfl⟩
  | cons o outputs ih =>
    obtain ⟨out, i⟩ := o
    rw [List.map_cons, List.map_cons, UtxoEffect.applyAll]
    cases hcredit : out.predicate.isAccountCredit with
    | false =>
      rw [creditsFit_cons_of_not hcredit]
      simp only [outputEffect, hcredit, Bool.false_eq_true, if_false, UtxoEffect.apply]
      exact ih
    | true =>
      cases ha : out.predicate.lockedAddress with
      | none =>
        have hno : ¬ CreditsFit accounts (out :: outputs.map Prod.fst) := fun h => by
          have := h.addressed out List.mem_cons_self hcredit
          simp [ha] at this
        simp [outputEffect, hcredit, ha, UtxoEffect.apply, hno]
      | some a =>
        cases hadd : checkedAdd128 (accounts.entry a).balance out.value with
        | none =>
          have hno : ¬ CreditsFit accounts (out :: outputs.map Prod.fst) := fun h => by
            have hfits := h.fits out List.mem_cons_self hcredit a ha
            rw [creditedTo_cons_self hcredit ha] at hfits
            rw [checkedAdd128, if_pos (by omega)] at hadd
            cases hadd
          simp [outputEffect, hcredit, ha, UtxoEffect.apply, hadd, hno]
        | some balance =>
          rw [creditsFit_cons hcredit ha hadd]
          simp only [outputEffect, hcredit, if_true, UtxoEffect.apply, ha, hadd]
          exact ih

/-- The output loop does not bring back an outpoint of another spend. -/
theorem applyAll_outputs_entries {txid : Hash} {mediaBlue : Nat} {outputs : List (TxOut × Nat)} {u : UtxoSet}
    {accounts : Accounts} {op : OutPoint} (hne : op.txid ≠ txid) (hop : op ∉ u.entries) :
    op ∉ (UtxoEffect.applyAll (outputs.map (outputEffect txid mediaBlue)) u accounts).1.1.entries := by
  induction outputs generalizing u accounts with
  | nil => exact hop
  | cons o outputs ih =>
    obtain ⟨out, i⟩ := o
    rw [List.map_cons, UtxoEffect.applyAll]
    split
    · rename_i u' accounts' he
      refine ih ?_
      simp only [outputEffect] at he
      split at he
      · cases hlocked : out.predicate.lockedAddress with
        | none =>
          rw [hlocked] at he
          cases he
        | some a =>
          rw [hlocked] at he
          simp only [UtxoEffect.apply] at he
          split at he
          · cases he
          · cases he
            exact hop
      · cases he
        simp only [UtxoSet.insert, ExtTreeMap.mem_insert, Std.LawfulEqCmp.compare_eq_iff_eq]
        rintro (heq | hmem)
        · exact hne (heq ▸ rfl)
        · exact hop hmem
    · exact hop

/-! ### Rejection -/

section Rejection

variable [Crypto]

/-- A rejected spend leaves the set and the accounts as they were. (Its fee goes
to the caller on success only.) -/
def RejectedUnchanged (u : UtxoSet) (accounts : Accounts) (tx : UtxoTx) (mediaBlue : Nat) : Prop :=
  ∀ st e, applyUtxoTx u accounts tx mediaBlue = (st, .error e) → st = (u, accounts)

/-- What happens to a spend that passes its checks: the inputs go, and then it
depends on the credits. -/
theorem applyUtxoTx_of_checked {u : UtxoSet} {tx : UtxoTx} {mediaBlue : Nat} (accounts : Accounts)
    (hdisjoint : ∀ op ∈ u.spent, op ∉ u.entries) (hcheck : checkUtxoTx u tx mediaBlue = .ok ()) :
    ∃ (st : UtxoSet × Accounts) (r : Except String Unit),
      applyUtxoTx u accounts tx mediaBlue = (st, r.map fun _ => tx.fee) ∧
      (r = .ok () ↔ CreditsFit accounts tx.outputs) ∧
      ∀ tin ∈ tx.inputs, tin.previous ∈ u.entries ∧
        (tin.previous.txid ≠ tx.txHash → tin.previous ∉ st.1.entries) := by
  obtain ⟨hform, hlive, -⟩ := checkUtxoTx_ok hcheck
  obtain ⟨-, -, -, hnodup⟩ := UtxoTx.validateForm_ok hform
  have hlive' : ∀ op ∈ tx.inputs.map (·.previous), op ∈ u.entries := by
    intro op hop
    obtain ⟨tin, htin, rfl⟩ := List.mem_map.mp hop
    exact hlive tin htin
  have hunspent : ∀ op ∈ tx.inputs.map (·.previous), op ∉ u.spent :=
    fun op hop hspent => hdisjoint op hspent (hlive' op hop)
  obtain ⟨u', hspends, hentries, -, -⟩ := applyAll_spends accounts hnodup hlive' hunspent
  have hrun : UtxoEffect.applyAll (tx.effects mediaBlue) u accounts
      = UtxoEffect.applyAll (tx.outputs.zipIdx.map (outputEffect tx.txHash mediaBlue)) u' accounts := by
    rw [List.map_map] at hspends
    exact applyAll_append _ _ u accounts hspends
  have hfit : (UtxoEffect.applyAll (tx.effects mediaBlue) u accounts).2 = .ok () ↔
      CreditsFit accounts tx.outputs := by
    rw [hrun, applyAll_outputs_ok_iff, List.zipIdx_map_fst]
  refine ⟨(UtxoEffect.applyAll (tx.effects mediaBlue) u accounts).1,
    (UtxoEffect.applyAll (tx.effects mediaBlue) u accounts).2, ?_, hfit, fun tin htin => ⟨hlive tin htin, fun hne => ?_⟩⟩
  · simp only [applyUtxoTx, hcheck]
    rcases UtxoEffect.applyAll (tx.effects mediaBlue) u accounts with ⟨st, _ | _⟩ <;> rfl
  · rw [hrun]
    refine applyAll_outputs_entries hne fun h => ((hentries _).mp h).2 ?_
    exact List.mem_map_of_mem htin

end Rejection

namespace Sample

open RegistryRun

/-- An output that is a credit, behind a hash lock that hides its address. -/
def hiddenCredit : TxOut := ⟨1000, .and (.hashLock Hash.zero) (.creditAccount (partyAddress 1)), 0⟩

theorem hiddenCredit_valid : UtxoTx.validateOutput hiddenCredit = .ok () := by
  simp [hiddenCredit, UtxoTx.validateOutput, Predicate.isAccountCredit, Predicate.lockedAddress]

theorem hiddenCredit_fee : (spendTo hiddenCredit 8000).minFeeRequired ≤ 8000 := by
  have hlen : (partyAddress 1).length = 62 := @Address.length_ofPubkey sampleCrypto _
  refine spendTo_minFeeRequired ?_
  change (u32 4 ++ (u32 1 ++ Hash.zero.asBytes) ++ (u32 7 ++ Bincode.bytes (partyAddress 1))).length ≤ 600
  simp [hlen]

end Sample

end HassanNode
