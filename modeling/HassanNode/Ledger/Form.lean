import Mathlib
import HassanNode.Ledger.Unlock

/-!
# HassanNode.Ledger.Form

Which addresses of an output form validation looks at (`UtxoTx::validate_form`).

The check goes through `locked_address`, which follows the left spine of a
predicate and returns the address at its end. Everything else is `unread`: the
right sides of `And` and `Or`, and the members of a `MultiSig`, on the spine or off
it. The rule that new outputs use bech32m addresses therefore holds of an accepted
spend exactly when it happens to hold of the unread ones
(`UtxoTx.addresses_bech32m_iff`).
-/

namespace HassanNode

open Params

namespace Predicate

/-- Every address string of a predicate, from left to right. -/
def addresses : Predicate → List Address
  | .payToAddress a | .absoluteLock a _ | .relativeLock a _ | .annulAfter a _
  | .creditAccount a => [a]
  | .and l r | .or l r => l.addresses ++ r.addresses
  | .exactValue _ inner => inner.addresses
  | .multiSig _ as => as
  | .hashLock _ | .commitData _ => []

/-- Those that `locked_address` passes over. -/
def unread : Predicate → List Address
  | .and l r | .or l r => l.unread ++ r.addresses
  | .exactValue _ inner => inner.unread
  | .multiSig _ as => as
  | .payToAddress _ | .absoluteLock _ _ | .relativeLock _ _ | .annulAfter _ _
  | .creditAccount _ | .hashLock _ | .commitData _ => []

/-- The locked address and the unread ones are all of them. -/
theorem addresses_eq (p : Predicate) : p.addresses = p.lockedAddress.toList ++ p.unread := by
  induction p with
  | payToAddress a => rfl
  | hashLock h => rfl
  | absoluteLock a n => rfl
  | relativeLock a n => rfl
  | and l r ihl ihr =>
      show l.addresses ++ r.addresses = l.lockedAddress.toList ++ (l.unread ++ r.addresses)
      rw [ihl, List.append_assoc]
  | or l r ihl ihr =>
      show l.addresses ++ r.addresses = l.lockedAddress.toList ++ (l.unread ++ r.addresses)
      rw [ihl, List.append_assoc]
  | multiSig n as => rfl
  | creditAccount a => rfl
  | annulAfter a n => rfl
  | exactValue v inner ih => exact ih
  | commitData h => rfl

end Predicate

namespace UtxoTx

/-- An output that passes its checks has a bech32m address where it locks one. -/
theorem validateOutput_bech32m {out : TxOut} (h : validateOutput out = .ok ()) {a : Address}
    (ha : a ∈ out.predicate.lockedAddress) : Address.isBech32m a = true := by
  have hlocked : out.predicate.lockedAddress = some a := ha
  unfold validateOutput at h
  rw [hlocked] at h
  split at h
  · cases h
  · split at h
    · cases h
    · dsimp only at h
      split at h
      · cases h
      · split at h
        · cases h
        · rename_i hbech
          simpa using hbech

/-- Form validation checks every output. -/
theorem validateForm_outputs {tx : UtxoTx} (h : tx.validateForm = .ok ()) :
    ∀ out ∈ tx.outputs, validateOutput out = .ok () := by
  unfold validateForm at h
  split at h
  · cases h
  · split at h
    · cases h
    · split at h
      · cases h
      · split at h
        · cases h
        · split at h
          · cases h
          · split at h
            · cases h
            · split at h
              · cases h
              · obtain ⟨hall, -⟩ := Except.seq_eq_ok h
                exact Except.forM_eq_ok hall

/-- **Form validation covers the locked addresses.** An accepted spend has only
bech32m addresses in its outputs exactly when the unread ones are bech32m. -/
theorem addresses_bech32m_iff {tx : UtxoTx} (h : tx.validateForm = .ok ()) :
    (∀ out ∈ tx.outputs, ∀ a ∈ out.predicate.addresses, Address.isBech32m a = true)
      ↔ ∀ out ∈ tx.outputs, ∀ a ∈ out.predicate.unread, Address.isBech32m a = true := by
  have hlocked : ∀ out ∈ tx.outputs, ∀ a ∈ out.predicate.lockedAddress.toList,
      Address.isBech32m a = true := fun out hout a ha =>
    validateOutput_bech32m (validateForm_outputs h out hout) (Option.mem_toList.mp ha)
  constructor
  · intro hall out hout a ha
    refine hall out hout a ?_
    rw [Predicate.addresses_eq]
    exact List.mem_append_right _ ha
  · intro hunread out hout a ha
    rw [Predicate.addresses_eq] at ha
    cases List.mem_append.mp ha with
    | inl hhead => exact hlocked out hout a hhead
    | inr htail => exact hunread out hout a htail

end UtxoTx

/-! ### An address nobody reads -/

namespace Sample

/-- An output that only the owner of a word that is no address may spend. -/
def nobodysOutput : TxOut := ⟨1000, .multiSig 1 [utf8 "nobody"], 0⟩

theorem nobodysOutput_form : (spendTo nobodysOutput 8000).validateForm = .ok () := by
  have hvalid : UtxoTx.validateOutput nobodysOutput = .ok () := by
    simp [UtxoTx.validateOutput, nobodysOutput, Predicate.isAccountCredit, Predicate.lockedAddress,
      utxoDust]
  have hsize : (Bincode.encode nobodysOutput.predicate).length ≤ 600 := by decide +kernel
  exact spendTo_form hvalid (spendTo_minFeeRequired hsize)

/-- A spend that locks coins to a word is accepted. -/
theorem unread_member_accepted : ∃ tx : UtxoTx, tx.validateForm = .ok () ∧
    ∃ out ∈ tx.outputs, ∃ a ∈ out.predicate.addresses,
      Address.isBech32m a = false ∧ Address.isValid a = false := by
  refine ⟨spendTo nobodysOutput 8000, nobodysOutput_form, nobodysOutput, List.mem_singleton.mpr rfl,
    utf8 "nobody", List.mem_singleton.mpr rfl, ?_, ?_⟩
  · decide +kernel
  · decide +kernel

theorem addresses_bech32m_iff_nobody :
    (∀ out ∈ (spendTo nobodysOutput 8000).outputs, ∀ a ∈ out.predicate.addresses,
        Address.isBech32m a = true)
      ↔ ∀ out ∈ (spendTo nobodysOutput 8000).outputs, ∀ a ∈ out.predicate.unread,
        Address.isBech32m a = true :=
  UtxoTx.addresses_bech32m_iff nobodysOutput_form

end Sample

end HassanNode
