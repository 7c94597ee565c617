import Mathlib
import HassanNode.Ledger.Unlocking

/-!
# HassanNode.Ledger.Vault

The escrow vault of a buyer and a seller (`bdpe.rs`): both sign together, or the
buyer takes the coin back after a timeout. No witness of any shape opens it to
the seller alone, or to the buyer alone before the timeout.
-/

namespace HassanNode

open Params

/-- `vault_predicate`. -/
def vaultPredicate (buyer seller : Address) (timeoutBlue : Nat) : Predicate :=
  .or (.multiSig 2 [buyer, seller]) (.absoluteLock buyer timeoutBlue)

/-- `coop_witness`: one layer for the `or`, one for the multi-signature. -/
def coopWitness (cosignerPubkey cosignerSignature : Bytes) : UnlockWitness :=
  .stack [.stack [.cosignerSig cosignerPubkey cosignerSignature]]

/-- `timeout_witness`. -/
def timeoutWitness : UnlockWitness := .signature

/-- One party of a vault and the other one. -/
def VaultParties (buyer seller party other : Address) : Prop :=
  party = buyer ∧ other = seller ∨ party = seller ∧ other = buyer

/-- Two approving members of a pair are the whole pair. -/
theorem Attempt.Threshold.pair {c : Attempt} {a b : Address} (h : c.Threshold 2 [a, b]) :
    c.Approves a ∧ c.Approves b := by
  obtain ⟨members, hmembers, hdistinct, hlen⟩ := h
  match members with
  | [] | [_] => simp at hlen
  | x :: y :: _ =>
    have hxy := (List.pairwise_cons.mp hdistinct).1 y List.mem_cons_self
    obtain ⟨hx, hxa⟩ := hmembers x List.mem_cons_self
    obtain ⟨hy, hya⟩ := hmembers y (List.mem_cons_of_mem x List.mem_cons_self)
    have hne : x ≠ y := by
      intro heq
      rw [heq, Address.equivalent_refl] at hxy
      cases hxy
    simp only [List.mem_cons, List.not_mem_nil, or_false] at hx hy
    rcases hx with rfl | rfl <;> rcases hy with rfl | rfl
    · exact absurd rfl hne
    · exact ⟨hxa, hya⟩
    · exact ⟨hya, hxa⟩
    · exact absurd rfl hne

section Vault

variable [Crypto] {buyer seller signer : Address} {timeoutBlue mediaBlue createdBlue : Nat}

/-- What opens a vault: the signature of one party on a spend by the other, or
the buyer after the timeout. -/
theorem vault_opened {w : UnlockWitness} {sighash : Option Bytes}
    (hdistinct : Address.equivalent buyer seller = false)
    (heval : evaluateFull (vaultPredicate buyer seller timeoutBlue) w signer mediaBlue createdBlue sighash
      = .ok ()) :
    (∃ party other, VaultParties buyer seller party other ∧
      Address.equivalent party signer = true ∧ ∃ msg pubkey signature, sighash = some msg ∧
        UnlockWitness.Within (.cosignerSig pubkey signature) w ∧ Cosigns msg pubkey signature ∧
        Address.equivalent other (Address.ofPubkey pubkey) = true) ∨
      Address.equivalent buyer signer = true ∧ timeoutBlue ≤ mediaBlue := by
  have hopens : (vaultPredicate buyer seller timeoutBlue).Opens
      (Attempt.of signer mediaBlue createdBlue 0 sighash w) := by
    unfold evaluateFull at heval
    split at heval
    · cases heval
    · exact evalInner_opens heval
  rcases hopens with ⟨⟨a, ha, hsigner⟩, -, hboth⟩ | ⟨htimeout, hbuyer⟩
  · obtain ⟨happrovesBuyer, happrovesSeller⟩ := hboth.pair
    have hnotBoth : ∀ {x y : Address}, Address.equivalent x signer = true → Address.equivalent y signer = true →
        Address.equivalent x y = true := fun hx hy => Address.equivalent_trans hx (Address.equivalent_symm hy)
    refine Or.inl ?_
    simp only [List.mem_cons, List.not_mem_nil, or_false] at ha
    rcases ha with rfl | rfl
    · refine ⟨a, seller, Or.inl ⟨rfl, rfl⟩, hsigner, happrovesSeller.resolve_left fun hother => ?_⟩
      rw [hnotBoth hsigner hother] at hdistinct
      cases hdistinct
    · refine ⟨a, buyer, Or.inr ⟨rfl, rfl⟩, hsigner, happrovesBuyer.resolve_left fun hother => ?_⟩
      rw [hnotBoth hother hsigner] at hdistinct
      cases hdistinct
  · exact Or.inr ⟨hbuyer, htimeout⟩

/-- The vault is within the depth the evaluator walks. -/
theorem evaluateFull_vault {w : UnlockWitness} {sighash : Option Bytes} :
    evaluateFull (vaultPredicate buyer seller timeoutBlue) w signer mediaBlue createdBlue sighash
      = evalInner signer mediaBlue createdBlue sighash (vaultPredicate buyer seller timeoutBlue) w :=
  if_neg (by simp [vaultPredicate, Predicate.depth, maxPredDepth])

/-- Both parties together open the vault. -/
theorem vault_coop {party other : Address} {msg pubkey signature : Bytes}
    (hdistinct : Address.equivalent buyer seller = false) (hparties : VaultParties buyer seller party other)
    (hsigner : Address.equivalent party signer = true) (hsigns : Cosigns msg pubkey signature)
    (hother : Address.equivalent other (Address.ofPubkey pubkey) = true) :
    evaluateFull (vaultPredicate buyer seller timeoutBlue) (coopWitness pubkey signature) signer mediaBlue
      createdBlue (some msg) = .ok () := by
  have hne : Address.equivalent party other = false := by
    rcases hparties with ⟨rfl, rfl⟩ | ⟨rfl, rfl⟩
    · exact hdistinct
    · exact Bool.eq_false_iff.mpr fun heq => by simp [Address.equivalent_symm heq] at hdistinct
  have hmember : party ∈ [buyer, seller] ∧ other ∈ [buyer, seller] := by
    rcases hparties with ⟨rfl, rfl⟩ | ⟨rfl, rfl⟩ <;> simp
  obtain ⟨primary, hprimary⟩ := Address.canon_isSome hmember.1 hsigner
  obtain ⟨key, hkey⟩ := Address.canon_isSome hmember.2 hother
  have hsigned : ∀ s ∈ [(pubkey, signature)], Cosigns msg s.1 s.2 ∧
      ∃ key, Address.canon [buyer, seller] (Address.ofPubkey s.1) = some key := by
    intro s hs
    obtain rfl := List.mem_singleton.mp hs
    exact ⟨hsigns, key, hkey⟩
  obtain ⟨counted, hrun, hpresent, hcounted⟩ := evalCosigners_signed hsigned [primary]
  have hpair : [signer, Address.ofPubkey pubkey].Pairwise (fun a b => Address.equivalent a b = false) := by
    refine List.pairwise_pair.mpr (Bool.eq_false_iff.mpr fun heq => ?_)
    have hsame := Address.equivalent_trans (Address.equivalent_trans hsigner heq) (Address.equivalent_symm hother)
    rw [hsame] at hne
    cases hne
  have hkeys : ∀ a ∈ [signer, Address.ofPubkey pubkey], ∃ key ∈ counted,
      Address.canon [buyer, seller] a = some key := by
    intro a ha
    simp only [List.mem_cons, List.not_mem_nil, or_false] at ha
    rcases ha with rfl | rfl
    · exact ⟨primary, hpresent primary List.mem_cons_self, hprimary⟩
    · exact ⟨key, hcounted _ List.mem_cons_self key hkey, hkey⟩
  have hlen := length_le_of_canon hpair hkeys
  rw [evaluateFull_vault]
  exact evalInner_or.mpr ⟨.stack [.cosignerSig pubkey signature], rfl, Or.inl (evalMultisig_iff.mpr
    ⟨by simp, primary, msg, _, counted, hprimary, rfl, rfl, by simp [maxStack], hrun, hlen⟩)⟩

/-- After the timeout the buyer opens the vault alone. -/
theorem vault_timeout {sighash : Option Bytes} (hbuyer : Address.equivalent buyer signer = true)
    (htimeout : timeoutBlue ≤ mediaBlue) :
    evaluateFull (vaultPredicate buyer seller timeoutBlue) timeoutWitness signer mediaBlue createdBlue sighash
      = .ok () := by
  rw [evaluateFull_vault]
  refine evalInner_or.mpr ⟨.signature, rfl, Or.inr ?_⟩
  rw [evalInner, if_neg (Nat.not_lt.mpr htimeout)]
  exact checkOwner_iff.mpr hbuyer

/-- **A vault is safe.** With any witness it opens only to one party with a
signature of the other, or to the buyer after the timeout; and so it does, with
the witnesses that are meant for it. -/
theorem vault_safe (hdistinct : Address.equivalent buyer seller = false) :
    (∀ (w : UnlockWitness) (sighash : Option Bytes),
      evaluateFull (vaultPredicate buyer seller timeoutBlue) w signer mediaBlue createdBlue sighash = .ok () →
      (∃ party other, VaultParties buyer seller party other ∧
        Address.equivalent party signer = true ∧ ∃ msg pubkey signature, sighash = some msg ∧
          UnlockWitness.Within (.cosignerSig pubkey signature) w ∧ Cosigns msg pubkey signature ∧
          Address.equivalent other (Address.ofPubkey pubkey) = true) ∨
        Address.equivalent buyer signer = true ∧ timeoutBlue ≤ mediaBlue) ∧
    (∀ party other msg pubkey signature, VaultParties buyer seller party other →
      Address.equivalent party signer = true → Cosigns msg pubkey signature →
      Address.equivalent other (Address.ofPubkey pubkey) = true →
      evaluateFull (vaultPredicate buyer seller timeoutBlue) (coopWitness pubkey signature) signer mediaBlue
        createdBlue (some msg) = .ok ()) ∧
    ∀ sighash, Address.equivalent buyer signer = true → timeoutBlue ≤ mediaBlue →
      evaluateFull (vaultPredicate buyer seller timeoutBlue) timeoutWitness signer mediaBlue createdBlue sighash
        = .ok () :=
  ⟨fun _ _ => vault_opened hdistinct, fun _ _ _ _ _ => vault_coop hdistinct, fun _ => vault_timeout⟩

end Vault

namespace Sample

open RegistryRun

/-- A vault of two parties, opened by both. -/
theorem vault_safe_coop :
    @evaluateFull sampleCrypto (vaultPredicate (partyAddress 1) (partyAddress 2) 10)
      (coopWitness (partyKey 2) (List.replicate pqSignatureSize 0)) (partyAddress 1) 0 0 (some []) = .ok () := by
  let := sampleCrypto
  have hdistinct : Address.equivalent (partyAddress 1) (partyAddress 2) = false :=
    partyAddress_apart (by decide : 1 < 18) (by decide : 2 < 18) (by decide)
  exact (vault_safe hdistinct).2.1 (partyAddress 1) (partyAddress 2) [] (partyKey 2)
    (List.replicate pqSignatureSize 0) (Or.inl ⟨rfl, rfl⟩) (Address.equivalent_refl _)
    (verifyPq512_sample _ _ List.length_replicate List.length_replicate) (Address.equivalent_refl _)

end Sample

end HassanNode
