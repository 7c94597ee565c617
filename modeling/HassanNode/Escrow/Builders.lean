import Mathlib
import HassanNode.Escrow.Law
import HassanNode.Ledger.Drafts
import HassanNode.Ledger.Vault

/-!
# HassanNode.Escrow.Builders

The builders of the vault (`bdpe.rs`): `build_fund_tx` locks the amount of a deal in a
vault, `build_spend_tx` takes it out again, by both parties or by the buyer after the
timeout.

Both look at size only: the fee of what they return is the least fee of its size, and
the rest is paid out (`buildFundTx_drafted`, `buildSpendTx_ok_iff`). What they do not
look at is the fee that was asked for, whether the amount of the deal is dust, how the
parties spell their addresses, and whether they are one address in two spellings. A deal
goes from its funding to its payout exactly when these are in order
(`Spending.lifeCycle_iff`).
-/

namespace HassanNode

namespace Bdpe

open TuepEscrow Params Bincode UtxoTx

/-- `vault_predicate_from_terms`. -/
def vaultPredicateFromTerms (terms : EscrowTerms) : Predicate :=
  vaultPredicate terms.buyer terms.seller terms.timeoutBlue

/-- `payout_address`. -/
def payoutAddress (terms : EscrowTerms) (payout : PayoutVector) : Except String Address := do
  ensure payout.phase1Allowed "payout vector not allowed in Phase 1"
  return match payout with
    | .toSeller => terms.seller
    | .toBuyer => terms.buyer

/-! ### Funding a vault -/

/-- The arguments of `build_fund_tx`. -/
structure Funding where
  fromPubkey : Bytes
  funding : OutPoint
  fundingValue : Nat
  terms : EscrowTerms
  fee : Nat
  chainId : Nat

/-- The provisional body. -/
def Funding.probe (f : Funding) : UtxoTx where
  inputs := [⟨f.funding, 0, .signature⟩]
  outputs := [⟨f.terms.amount, vaultPredicateFromTerms f.terms, 0⟩]
  lockBlueScore := 0
  fee := max f.fee minTxFee
  chainId := f.chainId
  fromPubkey := f.fromPubkey
  signature := []

/-- `build_fund_tx`. -/
def buildFundTx [Crypto] (f : Funding) : Except String UtxoTx := do
  f.terms.validate
  let changeAddr := Address.ofPubkey f.fromPubkey
  ensure (Address.equivalent changeAddr f.terms.buyer) "only the buyer may fund the vault"
  let fee := max f.fee f.probe.minFeeRequired
  let probe := { f.probe with fee }
  -- the fee that was asked for is given up here
  let fee := probe.minFeeRequired
  finishDraft probe f.terms.amount f.fundingValue fee changeAddr

/-! ### Spending it -/

/-- A spend of the vault into one payout. -/
def payoutBody (fromPubkey : Bytes) (vault : OutPoint) (value : Nat) (to_ : Address) (fee chainId : Nat)
    (witness : UnlockWitness) : UtxoTx where
  inputs := [⟨vault, 0, witness⟩]
  outputs := [⟨value, .payToAddress to_, 0⟩]
  lockBlueScore := 0
  fee := fee
  chainId := chainId
  fromPubkey := fromPubkey
  signature := []

/-- `provisional_spend`. -/
def provisionalSpend (fromPubkey : Bytes) (vault : OutPoint) (vaultValue : Nat) (to_ : Address) (fee chainId : Nat)
    (witness : UnlockWitness) : Except String UtxoTx :=
  let fee := (payoutBody fromPubkey vault 1 to_ (max fee minTxFee) chainId witness).minFeeRequired
  if vaultValue ≤ fee then .error "vault value too small to cover fee"
  else
    let pay := vaultValue - fee
    if pay < utxoDust then .error "payout below dust"
    else raiseFee (payoutBody fromPubkey vault pay to_ fee chainId witness)

/-- The arguments of `build_spend_tx`. -/
structure Spending where
  primaryPubkey : Bytes
  cosignerPubkey : Option Bytes
  cosignerSecret : Option Bytes
  vault : OutPoint
  vaultValue : Nat
  terms : EscrowTerms
  path : SpendPath
  mediaBlue : Nat
  fee : Nat
  chainId : Nat

/-- Another witness for the first input. -/
def withWitness (tx : UtxoTx) (witness : UnlockWitness) : UtxoTx :=
  { tx with inputs := tx.inputs.modifyHead fun i => { i with witness } }

section Builders

variable [Crypto] [Signing]

/-- The cosigner signs the body and its signature is attached. -/
def cosign (cosignerPubkey cosignerSecret : Bytes) (tx : UtxoTx) : Except String UtxoTx := do
  let sig ← signPq512 (utf8 "utxo-tx") tx.signingBytes cosignerSecret
  return withWitness tx (coopWitness cosignerPubkey sig)

/-- The spend by both parties: the cosigner signs again if its signature makes the spend
too big for the fee. -/
def coopSpend (s : Spending) (cosignerPubkey cosignerSecret : Bytes) (to_ : Address) : Except String UtxoTx := do
  let tx ← provisionalSpend s.primaryPubkey s.vault s.vaultValue to_ (max s.fee minTxFee) s.chainId .signature
  let tx ← cosign cosignerPubkey cosignerSecret tx
  if tx.fee < tx.minFeeRequired then do
    let tx ← tx.raiseFee
    cosign cosignerPubkey cosignerSecret tx
  else return tx

/-- The primary signer and the cosigner are buyer and seller, one each. -/
def cosignersOk (terms : EscrowTerms) (primary cosigner : Address) : Bool :=
  Address.equivalent primary terms.buyer && Address.equivalent cosigner terms.seller
    || Address.equivalent primary terms.seller && Address.equivalent cosigner terms.buyer

/-- `build_spend_tx`. -/
def buildSpendTx (s : Spending) : Except String UtxoTx := do
  s.terms.validate
  s.path.validate s.terms s.mediaBlue
  let primary := Address.ofPubkey s.primaryPubkey
  match s.path with
  | .coop2of2 payout =>
    match s.cosignerPubkey, s.cosignerSecret with
    | none, _ => .error "coop spend needs cosigner pubkey"
    | some _, none => .error "coop spend needs cosigner secret"
    | some cosignerPubkey, some cosignerSecret => do
      ensure (cosignersOk s.terms primary (Address.ofPubkey cosignerPubkey)) "coop cosigners must be buyer and seller"
      let to_ ← payoutAddress s.terms payout
      coopSpend s cosignerPubkey cosignerSecret to_
  | .timeoutBuyer => do
    ensure (Address.equivalent primary s.terms.buyer) "timeout claim must be signed by buyer"
    let to_ ← payoutAddress s.terms .toBuyer
    provisionalSpend s.primaryPubkey s.vault s.vaultValue to_ s.fee s.chainId timeoutWitness

end Builders

/-! ### The size of a payout -/

theorem length_coopWitness (pubkey signature : Bytes) :
    (coopWitness pubkey signature).toBytes.length = 44 + pubkey.length + signature.length := by
  simp [coopWitness, UnlockWitness.toBytes]
  omega

section Size

variable {fromPubkey pubkey signature : Bytes} {vault : OutPoint} {value fee chainId : Nat} {to_ : Address}
  {witness : UnlockWitness}

theorem relayBytes_payoutBody : (payoutBody fromPubkey vault value to_ fee chainId witness).relayBytes
    = 172 + to_.length + witness.toBytes.length + fromPubkey.length + pqSignatureSize := by
  rw [relayBytes_eq]
  simp [payoutBody, Predicate.toBytes]
  omega

/-- The least fee of a payout. -/
def payoutFee (fromPubkey : Bytes) (to_ : Address) (witnessLength : Nat) : Nat :=
  max (satMul128 (172 + to_.length + witnessLength + fromPubkey.length + pqSignatureSize) minFeePerByte) minTxFee

theorem minFeeRequired_payoutBody : (payoutBody fromPubkey vault value to_ fee chainId witness).minFeeRequired
    = payoutFee fromPubkey to_ witness.toBytes.length := by
  rw [minFeeRequired, relayBytes_payoutBody, payoutFee]

/-- The price of a size above the floor rises with the size, short of the largest number. -/
theorem price_lt {a b most floor : Nat} (h : a < b) (hfloor : floor ≤ a) (hfits : max (min (a * 1) most) floor < most) :
    max (min (a * 1) most) floor < max (min (b * 1) most) floor := by
  rw [Nat.mul_one] at hfits ⊢
  rw [Nat.mul_one]
  have ha : a < most := (min_lt_iff.mp (max_lt_iff.mp hfits).1).resolve_right (Nat.lt_irrefl most)
  rw [min_eq_left ha.le, max_eq_left hfloor]
  exact Nat.lt_of_lt_of_le (lt_min h ha) (le_max_left _ _)

/-- A longer witness costs more. -/
theorem payoutFee_lt {n m : Nat} (h : n < m) (hfits : payoutFee fromPubkey to_ n < u128Max) :
    payoutFee fromPubkey to_ n < payoutFee fromPubkey to_ m := by
  have hfloor : minTxFee ≤ pqSignatureSize := by decide
  exact price_lt (by omega) (hfloor.trans (Nat.le_add_left _ _)) hfits

theorem payoutFee_mono {n m : Nat} (h : n ≤ m) : payoutFee fromPubkey to_ n ≤ payoutFee fromPubkey to_ m :=
  max_le_max (min_le_min (Nat.mul_le_mul_right _ (by omega)) le_rfl) le_rfl

/-- Raising the fee of a payout. -/
theorem raiseFee_payoutBody (hlow : fee < payoutFee fromPubkey to_ witness.toBytes.length) :
    raiseFee (payoutBody fromPubkey vault value to_ fee chainId witness)
      = if payoutFee fromPubkey to_ witness.toBytes.length - fee + utxoDust < value
        then .ok (payoutBody fromPubkey vault (value - (payoutFee fromPubkey to_ witness.toBytes.length - fee)) to_
          (payoutFee fromPubkey to_ witness.toBytes.length) chainId witness)
        else .error s!"Fee must be ≥ {payoutFee fromPubkey to_ witness.toBytes.length}" := by
  have hfee : (payoutBody fromPubkey vault value to_ fee chainId witness).fee = fee := rfl
  rw [raiseFee, minFeeRequired_payoutBody, hfee, if_pos hlow]
  rfl

/-- **What `provisional_spend` returns**: the payout of all but the least fee. -/
theorem provisionalSpend_ok_iff {vaultValue : Nat} {tx : UtxoTx} :
    provisionalSpend fromPubkey vault vaultValue to_ fee chainId witness = .ok tx ↔
      payoutFee fromPubkey to_ witness.toBytes.length + utxoDust ≤ vaultValue ∧
      tx = payoutBody fromPubkey vault (vaultValue - payoutFee fromPubkey to_ witness.toBytes.length) to_
        (payoutFee fromPubkey to_ witness.toBytes.length) chainId witness := by
  obtain ⟨need, hneed⟩ : ∃ need, payoutFee fromPubkey to_ witness.toBytes.length = need := ⟨_, rfl⟩
  have hpaid : raiseFee (payoutBody fromPubkey vault (vaultValue - need) to_ need chainId witness)
      = .ok (payoutBody fromPubkey vault (vaultValue - need) to_ need chainId witness) :=
    raiseFee_eq_self (minFeeRequired_payoutBody.trans hneed).le
  have hdust : 0 < utxoDust := by decide
  rw [provisionalSpend, minFeeRequired_payoutBody, hneed]
  dsimp only
  split
  · rename_i hsmall
    exact ⟨fun h => (by cases h), fun h => by omega⟩
  · split
    · exact ⟨fun h => (by cases h), fun h => by omega⟩
    · rw [hpaid]
      exact ⟨fun h => ⟨by omega, (Except.ok.inj h).symm⟩, fun h => by rw [h.2]⟩

end Size

/-! ### What is built -/

namespace Spending

/-- Whom a path pays. -/
def payee (s : Spending) : Address :=
  match s.path with
  | .coop2of2 .toSeller => s.terms.seller
  | .coop2of2 .toBuyer | .timeoutBuyer => s.terms.buyer

/-- The size of the witness that a path needs. -/
def witnessLength (s : Spending) : Nat :=
  match s.path with
  | .coop2of2 _ => (coopWitness (s.cosignerPubkey.getD []) (List.replicate pqSignatureSize 0)).toBytes.length
  | .timeoutBuyer => timeoutWitness.toBytes.length

/-- The least fee of a spend of its size. -/
def leastFee (s : Spending) : Nat := payoutFee s.primaryPubkey s.payee s.witnessLength

/-- The payout of all but the least fee. -/
def payout (s : Spending) (witness : UnlockWitness) : UtxoTx :=
  payoutBody s.primaryPubkey s.vault (s.vaultValue - s.leastFee) s.payee s.leastFee s.chainId witness

/-- The value of the vault pays fee and dust, and on the way of both parties one unit
more. -/
def Affords (s : Spending) : Prop :=
  match s.path with
  | .coop2of2 _ => s.leastFee + utxoDust < s.vaultValue
  | .timeoutBuyer => s.leastFee + utxoDust ≤ s.vaultValue

theorem affords_of_lt {s : Spending} (h : s.leastFee + utxoDust < s.vaultValue) : s.Affords := by
  unfold Affords
  split
  · exact h
  · exact h.le

theorem Affords.le {s : Spending} (h : s.Affords) : s.leastFee + utxoDust ≤ s.vaultValue := by
  unfold Affords at h
  split at h
  · exact Nat.le_of_lt h
  · exact h

variable [Crypto]

/-- The signers that a path asks for. -/
def RightSigners (s : Spending) : Prop :=
  match s.path with
  | .coop2of2 _ => ∃ pubkey secret, s.cosignerPubkey = some pubkey ∧ s.cosignerSecret = some secret ∧
      cosignersOk s.terms (Address.ofPubkey s.primaryPubkey) (Address.ofPubkey pubkey) = true
  | .timeoutBuyer => Address.equivalent (Address.ofPubkey s.primaryPubkey) s.terms.buyer = true

/-- What `build_spend_tx` asks for. -/
structure Buildable (s : Spending) : Prop where
  allowed : s.path.validate s.terms s.mediaBlue = .ok ()
  signers : s.RightSigners
  affords : s.Affords

/-- The witness of a path: a signature of the cosigner, or none. -/
def Witnesses (s : Spending) (witness : UnlockWitness) : Prop :=
  match s.path with
  | .coop2of2 _ => ∃ pubkey sig, s.cosignerPubkey = some pubkey ∧ witness = coopWitness pubkey sig ∧
      sig.length = pqSignatureSize ∧ Cosigns (s.payout witness).signingBytes pubkey sig
  | .timeoutBuyer => witness = timeoutWitness

/-- The secret of a cosigner is the one of its key. -/
def Keyed [Signing] (s : Spending) : Prop := ∀ pubkey secret, s.cosignerPubkey = some pubkey →
  s.cosignerSecret = some secret → KeyPair pubkey secret

end Spending

section Built

variable [Crypto] [Signing] {s : Spending} {tx : UtxoTx} {cosignerPubkey cosignerSecret : Bytes} {to_ : Address}

omit [Crypto] [Signing] in
theorem signingBytes_payoutBody (fromPubkey : Bytes) (vault : OutPoint) (value fee chainId : Nat)
    (witness witness' : UnlockWitness) : (payoutBody fromPubkey vault value to_ fee chainId witness).signingBytes
      = (payoutBody fromPubkey vault value to_ fee chainId witness').signingBytes := by
  simp only [signingBytes, payoutBody, List.flatMap_cons, List.length_cons, inputSigningBytes]

/-- What the cosigner attaches opens the vault for the spend as it stands. -/
theorem cosign_payoutBody (hkey : KeyPair cosignerPubkey cosignerSecret) (fromPubkey : Bytes) (vault : OutPoint)
    (value fee chainId : Nat) (witness : UnlockWitness) : ∃ sig, sig.length = pqSignatureSize ∧
      Cosigns (payoutBody fromPubkey vault value to_ fee chainId (coopWitness cosignerPubkey sig)).signingBytes
        cosignerPubkey sig ∧
      cosign cosignerPubkey cosignerSecret (payoutBody fromPubkey vault value to_ fee chainId witness)
        = .ok (payoutBody fromPubkey vault value to_ fee chainId (coopWitness cosignerPubkey sig)) := by
  obtain ⟨sig, hsign, hverify, hlen⟩ := hkey.signPq512 (utf8 "utxo-tx")
    (payoutBody fromPubkey vault value to_ fee chainId witness).signingBytes
  refine ⟨sig, hlen, ?_, ?_⟩
  · rw [signingBytes_payoutBody fromPubkey vault value fee chainId _ witness]
    exact hverify
  · rw [cosign, hsign]
    rfl

/-- **What the cosigner's way returns**: the payout of all but the least fee of its size,
signed by the cosigner. -/
theorem coopSpend_cases (hkey : KeyPair cosignerPubkey cosignerSecret) (hvalue : s.vaultValue ≤ u128Max) {need : Nat}
    (hneed : payoutFee s.primaryPubkey to_ (44 + cosignerPubkey.length + pqSignatureSize) = need) :
    (∃ e, coopSpend s cosignerPubkey cosignerSecret to_ = .error e ∧ s.vaultValue ≤ need + utxoDust) ∨
    ∃ sig, sig.length = pqSignatureSize ∧ need + utxoDust < s.vaultValue ∧
      Cosigns (payoutBody s.primaryPubkey s.vault (s.vaultValue - need) to_ need s.chainId
        (coopWitness cosignerPubkey sig)).signingBytes cosignerPubkey sig ∧
      coopSpend s cosignerPubkey cosignerSecret to_
        = .ok (payoutBody s.primaryPubkey s.vault (s.vaultValue - need) to_ need s.chainId (coopWitness cosignerPubkey sig)) := by
  obtain ⟨low, hlow⟩ : ∃ low, payoutFee s.primaryPubkey to_ UnlockWitness.signature.toBytes.length = low := ⟨_, rfl⟩
  have hshort : UnlockWitness.signature.toBytes.length = 4 := by simp [UnlockWitness.toBytes]
  have hle : low ≤ need := by
    rw [← hlow, ← hneed]
    exact payoutFee_mono (by omega)
  rw [coopSpend]
  cases hprovisional : provisionalSpend s.primaryPubkey s.vault s.vaultValue to_ (max s.fee minTxFee) s.chainId
      .signature with
  | error e =>
      refine Or.inl ⟨e, rfl, Nat.le_of_not_lt fun hlt => ?_⟩
      have hok : provisionalSpend s.primaryPubkey s.vault s.vaultValue to_ (max s.fee minTxFee) s.chainId .signature
          = .ok _ := provisionalSpend_ok_iff.mpr ⟨hlow.symm ▸ (Nat.add_le_add_right hle utxoDust).trans hlt.le, rfl⟩
      rw [hok] at hprovisional
      cases hprovisional
  | ok body =>
      obtain ⟨hpays, rfl⟩ := provisionalSpend_ok_iff.mp hprovisional
      rw [hlow] at hpays ⊢
      obtain ⟨sig, hlen, -, hcosign⟩ := @cosign_payoutBody _ _ _ _ to_ hkey s.primaryPubkey s.vault (s.vaultValue - low)
        low s.chainId .signature
      have hsize : payoutFee s.primaryPubkey to_ (coopWitness cosignerPubkey sig).toBytes.length = need := by
        rw [length_coopWitness, hlen, hneed]
      -- the signature of the cosigner makes the spend longer, so its fee rises
      have hrises : low < need := by
        have hdust : 0 < utxoDust := by decide
        rw [← hlow, ← hneed]
        exact payoutFee_lt (by omega) (by omega)
      have hraise := @raiseFee_payoutBody s.primaryPubkey s.vault (s.vaultValue - low) low s.chainId to_
        (coopWitness cosignerPubkey sig) (hsize.symm ▸ hrises)
      rw [hsize] at hraise
      have hmin : (payoutBody s.primaryPubkey s.vault (s.vaultValue - low) to_ low s.chainId
          (coopWitness cosignerPubkey sig)).minFeeRequired = need := minFeeRequired_payoutBody.trans hsize
      have hfee : (payoutBody s.primaryPubkey s.vault (s.vaultValue - low) to_ low s.chainId
          (coopWitness cosignerPubkey sig)).fee = low := rfl
      simp only [bind, Except.bind, hcosign, hmin, hfee, if_pos hrises, hraise]
      by_cases hmore : need - low + utxoDust < s.vaultValue - low
      · have hpay : s.vaultValue - low - (need - low) = s.vaultValue - need := by omega
        obtain ⟨sig₂, hlen₂, hverify₂, hcosign₂⟩ := @cosign_payoutBody _ _ _ _ to_ hkey s.primaryPubkey s.vault
          (s.vaultValue - need) need s.chainId (coopWitness cosignerPubkey sig)
        refine Or.inr ⟨sig₂, hlen₂, by omega, hverify₂, ?_⟩
        rw [if_pos hmore, hpay]
        exact hcosign₂
      · rw [if_neg hmore]
        exact Or.inl ⟨_, rfl, by omega⟩

namespace Spending

omit [Crypto] [Signing] in
theorem coop_payee {payout : PayoutVector} (hpath : s.path = .coop2of2 payout) :
    payoutAddress s.terms payout = .ok s.payee := by
  rw [payee, hpath]
  cases payout <;> rfl

omit [Crypto] [Signing] in
theorem timeout_payee (hpath : s.path = .timeoutBuyer) : payoutAddress s.terms .toBuyer = .ok s.payee := by
  rw [payee, hpath]
  rfl

omit [Crypto] [Signing] in
theorem coop_leastFee {payout : PayoutVector} (hpath : s.path = .coop2of2 payout)
    (hpubkey : s.cosignerPubkey = some cosignerPubkey) :
    payoutFee s.primaryPubkey s.payee (44 + cosignerPubkey.length + pqSignatureSize) = s.leastFee := by
  rw [leastFee, witnessLength, hpath]
  dsimp only
  rw [length_coopWitness, hpubkey, List.length_replicate]
  rfl

omit [Crypto] [Signing] in
theorem timeout_leastFee (hpath : s.path = .timeoutBuyer) :
    payoutFee s.primaryPubkey s.payee timeoutWitness.toBytes.length = s.leastFee := by
  rw [leastFee, witnessLength, hpath]

end Spending

omit [Signing] in
theorem Spending.Witnesses.length {witness : UnlockWitness} (h : s.Witnesses witness) :
    witness.toBytes.length = s.witnessLength := by
  unfold Spending.Witnesses at h
  unfold Spending.witnessLength
  split at h
  · obtain ⟨pubkey, sig, hpubkey, rfl, hlen, -⟩ := h
    rw [length_coopWitness, length_coopWitness, hpubkey, hlen, List.length_replicate]
    rfl
  · rw [h]

omit [Signing] in
theorem Spending.Witnesses.minFeeRequired {witness : UnlockWitness} (h : s.Witnesses witness) :
    (s.payout witness).minFeeRequired = s.leastFee := by
  rw [Spending.payout, minFeeRequired_payoutBody, h.length, Spending.leastFee]

/-- **What `build_spend_tx` returns**, with a cosigner's secret that is the one of its
key: the payout of all but the least fee, with the witness of its path. -/
theorem buildSpendTx_built (hkeyed : s.Keyed) (hvalue : s.vaultValue ≤ u128Max) (h : buildSpendTx s = .ok tx) :
    s.Buildable ∧ ∃ witness, s.Witnesses witness ∧ tx = s.payout witness := by
  obtain ⟨-, h⟩ := Except.seq_eq_ok h
  obtain ⟨hallowed, h⟩ := Except.seq_eq_ok h
  dsimp only at h
  split at h
  · rename_i payout hpath
    split at h
    · cases h
    · cases h
    · rename_i pubkey secret hpubkey hsecret
      obtain ⟨hsigners, h⟩ := Except.seq_eq_ok h
      rw [Spending.coop_payee hpath] at h
      rcases coopSpend_cases (hkeyed pubkey secret hpubkey hsecret) hvalue (Spending.coop_leastFee hpath hpubkey) with ⟨e, he, -⟩ | ⟨sig, hlen, hmore, hverify, hok⟩
      · exact absurd (he.symm.trans h) (by simp)
      · refine ⟨⟨hallowed, ?_, ?_⟩, coopWitness pubkey sig, ?_, (Except.ok.inj (hok.symm.trans h)).symm⟩
        · rw [Spending.RightSigners, hpath]
          exact ⟨pubkey, secret, hpubkey, hsecret, ensure_eq_ok.mp hsigners⟩
        · rw [Spending.Affords, hpath]
          exact hmore
        · rw [Spending.Witnesses, hpath]
          exact ⟨pubkey, sig, hpubkey, rfl, hlen, hverify⟩
  · rename_i hpath
    obtain ⟨hsigner, h⟩ := Except.seq_eq_ok h
    rw [Spending.timeout_payee hpath] at h
    obtain ⟨hmore, htx⟩ := provisionalSpend_ok_iff.mp h
    rw [Spending.timeout_leastFee hpath] at hmore htx
    refine ⟨⟨hallowed, ?_, ?_⟩, timeoutWitness, ?_, htx⟩
    · rw [Spending.RightSigners, hpath]
      exact ensure_eq_ok.mp hsigner
    · rw [Spending.Affords, hpath]
      exact hmore
    · rw [Spending.Witnesses, hpath]

/-- With the right signers, and with enough in the vault, it does return a spend. -/
theorem Spending.Buildable.builds (h : s.Buildable) (hterms : s.terms.validate = .ok ()) (hkeyed : s.Keyed)
    (hvalue : s.vaultValue ≤ u128Max) : ∃ tx, buildSpendTx s = .ok tx := by
  have hsigners := h.signers
  have haffords := h.affords
  rw [buildSpendTx, hterms, h.allowed]
  simp only [bind, Except.bind]
  split
  · rename_i payout hpath
    rw [Spending.RightSigners, hpath] at hsigners
    rw [Spending.Affords, hpath] at haffords
    obtain ⟨pubkey, secret, hpubkey, hsecret, hpair⟩ := hsigners
    rw [hpubkey, hsecret]
    simp only [ensure, hpair, if_true, Spending.coop_payee hpath]
    rcases coopSpend_cases (hkeyed pubkey secret hpubkey hsecret) hvalue (Spending.coop_leastFee hpath hpubkey) with ⟨e, -, hless⟩ | ⟨sig, -, -, -, hok⟩
    · exact absurd haffords (Nat.not_lt.mpr hless)
    · exact ⟨_, hok⟩
  · rename_i hpath
    rw [Spending.RightSigners, hpath] at hsigners
    rw [Spending.Affords, hpath] at haffords
    simp only [ensure, hsigners, if_true, Spending.timeout_payee hpath]
    exact ⟨_, provisionalSpend_ok_iff.mpr ⟨(Spending.timeout_leastFee hpath).symm ▸ haffords, rfl⟩⟩

/-! ### What opens the vault -/

omit [Crypto] [Signing] in
/-- Two spellings of one address are no two signers. -/
theorem threshold_pair_distinct {c : Attempt} {a b : Address} (h : c.Threshold 2 [a, b]) :
    Address.equivalent a b = false := by
  obtain ⟨members, hmembers, hdistinct, hlen⟩ := h
  match members with
  | [] | [_] => simp at hlen
  | x :: y :: _ =>
    have hxy := (List.pairwise_cons.mp hdistinct).1 y List.mem_cons_self
    obtain ⟨hx, -⟩ := hmembers x List.mem_cons_self
    obtain ⟨hy, -⟩ := hmembers y (List.mem_cons_of_mem x List.mem_cons_self)
    simp only [List.mem_cons, List.not_mem_nil, or_false] at hx hy
    rcases hx with rfl | rfl <;> rcases hy with rfl | rfl
    · rw [Address.equivalent_refl] at hxy
      cases hxy
    · exact hxy
    · exact Bool.eq_false_iff.mpr fun heq => by simp [Address.equivalent_symm heq] at hxy
    · rw [Address.equivalent_refl] at hxy
      cases hxy

omit [Signing] in
/-- A vault of one party in two spellings opens after the timeout only. -/
theorem vault_same_opened {buyer seller signer : Address} {timeoutBlue mediaBlue createdBlue : Nat} {w : UnlockWitness}
    {sighash : Option Bytes} (hsame : Address.equivalent buyer seller = true)
    (heval : evaluateFull (vaultPredicate buyer seller timeoutBlue) w signer mediaBlue createdBlue sighash = .ok ()) :
    timeoutBlue ≤ mediaBlue := by
  rw [evaluateFull_vault] at heval
  rcases @evalInner_opens _ _ _ _ _ 0 _ _ heval with ⟨-, -, hboth⟩ | ⟨htimeout, -⟩
  · rw [threshold_pair_distinct hboth] at hsame
    cases hsame
  · exact htimeout

omit [Signing] in
/-- After the timeout the buyer opens the vault with any witness for it. -/
theorem vault_timeout_any {buyer seller signer : Address} {timeoutBlue mediaBlue createdBlue : Nat} {w x : UnlockWitness}
    {sighash : Option Bytes} (hbuyer : Address.equivalent buyer signer = true) (htimeout : timeoutBlue ≤ mediaBlue)
    (hw : orWitness w = some x) :
    evaluateFull (vaultPredicate buyer seller timeoutBlue) w signer mediaBlue createdBlue sighash = .ok () := by
  rw [evaluateFull_vault]
  refine evalInner_or.mpr ⟨x, hw, Or.inr ?_⟩
  rw [evalInner, if_neg (Nat.not_lt.mpr htimeout)]
  exact checkOwner_iff.mpr hbuyer

omit [Crypto] [Signing] in
theorem cosignersOk_parties {terms : EscrowTerms} {primary cosigner : Address}
    (h : cosignersOk terms primary cosigner = true) : ∃ party other, VaultParties terms.buyer terms.seller party other ∧
      Address.equivalent party primary = true ∧ Address.equivalent other cosigner = true := by
  simp only [cosignersOk, Bool.or_eq_true, Bool.and_eq_true] at h
  rcases h with ⟨hprimary, hcosigner⟩ | ⟨hprimary, hcosigner⟩
  · exact ⟨_, _, Or.inl ⟨rfl, rfl⟩, Address.equivalent_symm hprimary, Address.equivalent_symm hcosigner⟩
  · exact ⟨_, _, Or.inr ⟨rfl, rfl⟩, Address.equivalent_symm hprimary, Address.equivalent_symm hcosigner⟩

namespace Spending

/-- The deal is between two parties, or the timeout has been reached. -/
def Parted (s : Spending) : Prop :=
  s.path ≠ .timeoutBuyer → Address.equivalent s.terms.buyer s.terms.seller = true → s.terms.timeoutBlue ≤ s.mediaBlue

omit [Signing] in
/-- **The witness of a path opens the vault** for what is built. -/
theorem Buildable.opens (h : s.Buildable) {witness : UnlockWitness} (hwitness : s.Witnesses witness)
    (hparted : s.Parted) {mediaBlue : Nat} (hlate : s.mediaBlue ≤ mediaBlue) (createdBlue : Nat) :
    evaluateFull (vaultPredicateFromTerms s.terms) witness (Address.ofPubkey s.primaryPubkey) mediaBlue createdBlue
      (some (s.payout witness).signingBytes) = .ok () := by
  have hsigners := h.signers
  unfold RightSigners at hsigners
  unfold Witnesses at hwitness
  split at hwitness
  · rename_i payout hpath
    rw [hpath] at hsigners
    obtain ⟨pubkey, sig, hpubkey, rfl, -, hverify⟩ := hwitness
    obtain ⟨pubkey', secret, hpubkey', -, hpair⟩ := hsigners
    obtain rfl := Option.some.inj (hpubkey.symm.trans hpubkey')
    obtain ⟨party, other, hparties, hprimary, hother⟩ := cosignersOk_parties hpair
    cases hsame : Address.equivalent s.terms.buyer s.terms.seller with
    | false => exact vault_coop hsame hparties hprimary hverify hother
    | true =>
        have hbuyer : Address.equivalent s.terms.buyer (Address.ofPubkey s.primaryPubkey) = true := by
          rcases hparties with ⟨rfl, -⟩ | ⟨rfl, -⟩
          · exact hprimary
          · exact Address.equivalent_trans hsame hprimary
        have htimeout := hparted (by simp [hpath]) hsame
        exact vault_timeout_any hbuyer (htimeout.trans hlate) rfl
  · rename_i hpath
    rw [hpath] at hsigners
    have hallowed := h.allowed
    rw [hpath] at hallowed
    have hreached : s.terms.timeoutBlue ≤ s.mediaBlue := of_decide_eq_true (ensure_eq_ok.mp hallowed)
    rw [hwitness]
    exact vault_timeout (Address.equivalent_symm hsigners) (hreached.trans hlate)

end Spending

/-! ### From the funding to the payout -/

/-- **A payout**: all but the fee goes to the party that the path names, and signed with
its key it applies wherever the vault is held, from the score on that it was built for. -/
structure Spending.PaysOut (s : Spending) (secret : Bytes) (tx : UtxoTx) : Prop where
  outputs : tx.outputs = [⟨s.vaultValue - tx.fee, .payToAddress s.payee, 0⟩]
  fee : tx.fee ≤ s.vaultValue
  applies : ∃ signed, tx.sign secret = .ok signed ∧
    ∀ (u : UtxoSet) (accounts : Accounts) (createdBlue mediaBlue : Nat),
      u.Holds s.vault ⟨s.vaultValue, vaultPredicateFromTerms s.terms, createdBlue⟩ → s.mediaBlue ≤ mediaBlue →
      ∃ st, applyUtxoTx u accounts signed mediaBlue = (st, .ok tx.fee) ∧
        st.1.Holds ⟨signed.txHash, 0⟩ ⟨s.vaultValue - tx.fee, .payToAddress s.payee, mediaBlue⟩

/-- **A funding**: it pays the fee that was asked for, applies wherever its funding is
held and mature, and leaves the amount of the deal in the vault. -/
structure Funding.Funds (f : Funding) (signed : UtxoTx) : Prop where
  requested : f.fee ≤ signed.fee
  applies : ∀ (u : UtxoSet) (accounts : Accounts) (owner : Address) (createdBlue mediaBlue : Nat),
    Address.equivalent owner (Address.ofPubkey f.fromPubkey) = true →
    u.Holds f.funding ⟨f.fundingValue, .payToAddress owner, createdBlue⟩ →
    (f.funding.isCoinbase = true → satAdd64 createdBlue coinbaseMaturityBlues ≤ mediaBlue) →
    ∃ st, applyUtxoTx u accounts signed mediaBlue = (st, .ok signed.fee) ∧
      st.1.Holds ⟨signed.txHash, 0⟩ ⟨f.terms.amount, vaultPredicateFromTerms f.terms, mediaBlue⟩

/-- The spend of the vault that a funding has made. -/
structure Spending.Follows (s : Spending) (f : Funding) (signed : UtxoTx) : Prop where
  vault : s.vault = ⟨signed.txHash, 0⟩
  vaultValue : s.vaultValue = f.terms.amount
  terms : s.terms = f.terms

/-- **The life of a vault**: it is funded, what is built to spend it pays out, and with
more in it than fee and dust it can be spent by the right signers. -/
structure Spending.LifeCycle (s : Spending) (f : Funding) (signed : UtxoTx) (secret : Bytes) : Prop where
  funds : f.Funds signed
  pays : ∀ tx, buildSpendTx s = .ok tx → s.PaysOut secret tx
  returns : s.path.validate s.terms s.mediaBlue = .ok () → s.RightSigners → s.leastFee + utxoDust < s.vaultValue →
    ∃ tx, buildSpendTx s = .ok tx

omit [Signing] in
/-- A spend that applies has a good form, and its witness evaluates. -/
theorem applied_inputs {signed : UtxoTx} {u : UtxoSet} {accounts : Accounts} {mediaBlue fee : Nat}
    {st : UtxoSet × Accounts} {tin : TxIn} {out : TxOut} (h : applyUtxoTx u accounts signed mediaBlue = (st, .ok fee))
    (hinputs : signed.inputs = [tin]) (hheld : u.Holds tin.previous out) :
    signed.validateForm = .ok () ∧ evaluateFull out.predicate tin.witness signed.fromAddress mediaBlue out.createdBlue
      (some signed.signingBytes) = .ok () := by
  have hcheck : checkUtxoTx u signed mediaBlue = .ok () := by
    unfold applyUtxoTx at h
    split at h
    · cases (Prod.mk.inj h).2
    · assumption
  obtain ⟨value, hvalue⟩ := (applyUtxoTx_checked h).2 tin (by rw [hinputs]; exact List.mem_singleton.mpr rfl)
  obtain ⟨out', hout', -, -, heval, -⟩ := checkInput_cases hvalue
  obtain rfl := Option.some.inj (hheld.live.symm.trans hout')
  exact ⟨(Except.then_ok_iff.mp hcheck).1, heval⟩

omit [Crypto] [Signing] in
/-- A set with one output. -/
theorem exists_holds (op : OutPoint) (out : TxOut) : ∃ u : UtxoSet, u.Holds op out :=
  ⟨⟨(∅ : Std.ExtTreeMap OutPoint TxOut).insert op out, ∅⟩, by simp, by simp⟩

/-- **What is built pays out** if and only if the payee is a bech32m address and the deal
is between two parties or timed out. -/
theorem Spending.Buildable.paysOut_iff (h : s.Buildable) {secret : Bytes} {witness : UnlockWitness}
    (hwitness : s.Witnesses witness) (hkey : KeyPair s.primaryPubkey secret) (hvout : s.vault.isCoinbase = false)
    (hvalue : s.vaultValue ≤ u128Max) :
    s.PaysOut secret (s.payout witness) ↔ Address.isBech32m s.payee = true ∧ s.Parted := by
  have hpays := h.affords.le
  have hfee : (s.payout witness).fee = s.leastFee := rfl
  have hinputs : (s.payout witness).inputs = [⟨s.vault, 0, witness⟩] := rfl
  have houtputs : (s.payout witness).outputs = [⟨s.vaultValue - s.leastFee, .payToAddress s.payee, 0⟩] := rfl
  obtain ⟨signature, hsign, hverify, hlen⟩ := @sign_ok _ (s.payout witness) _ _ hkey
  constructor
  · intro hpaid
    obtain ⟨signed, hsigned, happlies⟩ := hpaid.applies
    obtain rfl := Except.ok.inj (hsign.symm.trans hsigned)
    obtain ⟨u, hheld⟩ := exists_holds s.vault ⟨s.vaultValue, vaultPredicateFromTerms s.terms, 0⟩
    obtain ⟨st, happly, -⟩ := happlies u ∅ 0 s.mediaBlue hheld le_rfl
    obtain ⟨hform, heval⟩ := applied_inputs happly hinputs hheld
    have hpayout : validateOutput ⟨s.vaultValue - s.leastFee, .payToAddress s.payee, 0⟩ = .ok () :=
      validateForm_outputs hform _ (List.mem_singleton.mpr rfl)
    exact ⟨(validateOutput_payToAddress_iff.mp hpayout).2, fun _ hsame => vault_same_opened hsame heval⟩
  · rintro ⟨hbech, hparted⟩
    have hpayout : validateOutput ⟨s.vaultValue - s.leastFee, .payToAddress s.payee, 0⟩ = .ok () :=
      validateOutput_payToAddress_iff.mpr ⟨by omega, hbech⟩
    have hsame : UtxoTx.minFeeRequired { s.payout witness with signature } = (s.payout witness).minFeeRequired :=
      minFeeRequired_congr rfl rfl rfl
    have hmin : UtxoTx.minFeeRequired { s.payout witness with signature } ≤ s.leastFee :=
      (hsame.trans hwitness.minFeeRequired).le
    have hform : validateForm { s.payout witness with signature } = .ok () :=
      validateForm_single hinputs (List.cons_ne_nil _ _) (by simp [houtputs]) hkey.length_pubkey hmin
        (fun o ho => List.mem_singleton.mp ho ▸ hpayout) hlen
    refine ⟨houtputs, by omega, _, hsign, fun u accounts createdBlue mediaBlue hheld hlate => ?_⟩
    have hunlocks : Unlocks { s.payout witness with signature } ⟨s.vault, 0, witness⟩
        ⟨s.vaultValue, vaultPredicateFromTerms s.terms, createdBlue⟩ mediaBlue :=
      ⟨Nat.zero_le _, fun hcoinbase => absurd hcoinbase (by simp [hvout]), fun hpos => absurd hpos (UInt32.lt_irrefl 0),
        h.opens hwitness hparted hlate createdBlue, rfl⟩
    have hbalance : s.leastFee + ([(⟨s.vaultValue - s.leastFee, .payToAddress s.payee, 0⟩ : TxOut)].map TxOut.value).sum
        = s.vaultValue := by
      rw [List.map_singleton, List.sum_singleton]
      exact Nat.add_sub_cancel' ((Nat.le_add_right _ _).trans hpays)
    have hplain : ∀ o ∈ (s.payout witness).outputs, o.predicate.isAccountCredit = false := fun o ho => by
      rw [List.mem_singleton.mp ho]
      rfl
    have hfirst : (s.payout witness).outputs[0]? = some ⟨s.vaultValue - s.leastFee, .payToAddress s.payee, 0⟩ := by
      rw [houtputs]
      rfl
    obtain ⟨st, happly, hholds⟩ := @applies_single _ { s.payout witness with signature } _ _ accounts _ _ hinputs hheld
      hform hverify hunlocks hvalue hbalance hplain
    have hpaid := hholds 0 _ hfirst
    dsimp only at hpaid
    rw [← hfee] at hpaid
    exact ⟨st, happly, hpaid⟩

end Built

section Funding

variable [Crypto] {f : Funding} {tx : UtxoTx}

/-- The least fee of a funding: there is change to return, unless the funding is just
enough. -/
def Funding.leastFee (f : Funding) : Nat :=
  if f.fundingValue = f.terms.amount + f.probe.minFeeRequired then f.probe.minFeeRequired
  else UtxoTx.minFeeRequired { f.probe with
    outputs := f.probe.outputs ++ [⟨0, .payToAddress (Address.ofPubkey f.fromPubkey), 0⟩] }

omit [Crypto] in
/-- One more output costs no less. -/
theorem minFeeRequired_append_le (tx : UtxoTx) (out : TxOut) :
    tx.minFeeRequired ≤ UtxoTx.minFeeRequired { tx with outputs := tx.outputs ++ [out] } := by
  have hsize : tx.relayBytes ≤ UtxoTx.relayBytes { tx with outputs := tx.outputs ++ [out] } := by
    rw [relayBytes_eq, relayBytes_eq]
    simp only [List.map_append, List.sum_append]
    omega
  exact max_le_max (min_le_min (Nat.mul_le_mul_right _ hsize) le_rfl) le_rfl

/-- **What `build_fund_tx` returns**: the vault and the change, at the least fee. -/
theorem buildFundTx_drafted (h : buildFundTx f = .ok tx) : f.terms.validate = .ok () ∧
    Drafted f.probe tx f.fundingValue f.probe.minFeeRequired (Address.ofPubkey f.fromPubkey) := by
  obtain ⟨hterms, h⟩ := Except.seq_eq_ok h
  obtain ⟨-, h⟩ := Except.seq_eq_ok h
  have hmin : UtxoTx.minFeeRequired { f.probe with fee := max f.fee f.probe.minFeeRequired } = f.probe.minFeeRequired :=
    minFeeRequired_congr rfl rfl rfl
  dsimp only at h
  rw [hmin] at h
  have hdrafted := finishDraft_drafted (by simp [Funding.probe]) hmin.le h
  exact ⟨hterms, hdrafted.inputs, hdrafted.fromPubkey, hdrafted.lockBlueScore, hdrafted.outputs, hdrafted.balance,
    hdrafted.fee⟩

/-- A funding that is just enough leaves no change. -/
theorem buildFundTx_whole (hterms : f.terms.validate = .ok ())
    (hbuyer : Address.equivalent (Address.ofPubkey f.fromPubkey) f.terms.buyer = true)
    (hwhole : f.fundingValue = f.terms.amount + f.probe.minFeeRequired) (hfits : f.fundingValue ≤ u128Max) :
    buildFundTx f = .ok { f.probe with fee := f.probe.minFeeRequired } := by
  have hmin : UtxoTx.minFeeRequired { f.probe with fee := max f.fee f.probe.minFeeRequired } = f.probe.minFeeRequired :=
    minFeeRequired_congr rfl rfl rfl
  have hok := finishDraft_whole (Address.ofPubkey f.fromPubkey) hwhole hfits hmin.le
  rw [buildFundTx, hterms]
  simp only [bind, Except.bind, hbuyer, ensure, if_true, hmin]
  exact hok

theorem buildFundTx_fee (h : buildFundTx f = .ok tx) : tx.fee = f.leastFee := by
  obtain ⟨-, hdrafted⟩ := buildFundTx_drafted h
  have hfee := hdrafted.fee
  have hbalance := hdrafted.balance
  have hamount : (f.probe.outputs.map TxOut.value).sum = f.terms.amount := by simp [Funding.probe]
  have hsame : tx.outputs.map TxOut.predicate = f.probe.outputs.map TxOut.predicate →
      tx.minFeeRequired = f.probe.minFeeRequired := fun hpredicates =>
    minFeeRequired_congr hdrafted.inputs hpredicates hdrafted.fromPubkey
  rcases hdrafted.outputs with houtputs | ⟨change, hchange, houtputs⟩
  · rw [hsame (by rw [houtputs]), max_self] at hfee
    rw [houtputs, hamount, hfee] at hbalance
    rw [Funding.leastFee, if_pos (by omega), hfee]
  · have hmore : tx.minFeeRequired = UtxoTx.minFeeRequired { f.probe with
        outputs := f.probe.outputs ++ [⟨0, .payToAddress (Address.ofPubkey f.fromPubkey), 0⟩] } :=
      minFeeRequired_congr hdrafted.inputs (by rw [houtputs, List.map_append, List.map_append]; rfl) hdrafted.fromPubkey
    have hle := minFeeRequired_append_le f.probe ⟨0, .payToAddress (Address.ofPubkey f.fromPubkey), 0⟩
    rw [hmore, max_eq_right hle] at hfee
    have hdust : 0 < utxoDust := by decide
    rw [houtputs, List.map_append, List.sum_append, hamount, List.map_singleton, List.sum_singleton] at hbalance
    have hchanged : f.fundingValue ≠ f.terms.amount + f.probe.minFeeRequired := by
      dsimp only at hbalance
      omega
    rw [Funding.leastFee, if_neg hchanged, hfee]

omit [Crypto] in
/-- An output of a vault passes the form check if it is not dust. -/
theorem validateOutput_vault_iff {value createdBlue : Nat} {terms : EscrowTerms} :
    validateOutput ⟨value, vaultPredicateFromTerms terms, createdBlue⟩ = .ok () ↔ utxoDust ≤ value := by
  have hlocked : (vaultPredicateFromTerms terms).lockedAddress = none := rfl
  have hplain : (vaultPredicateFromTerms terms).isAccountCredit = false := rfl
  constructor
  · intro h
    by_contra hdust
    rw [validateOutput] at h
    split at h
    · cases h
    · rw [if_pos (by simpa [hplain] using Nat.lt_of_not_le hdust)] at h
      cases h
  · intro hdust
    have hpos : value ≠ 0 := (Nat.lt_of_lt_of_le (by decide) hdust).ne'
    simp [validateOutput, hlocked, hplain, hpos, hdust]

variable [Signing]

/-- **What is built to fund a vault funds it** if and only if no more was asked for than
the least fee, and the amount of the deal is not dust. -/
theorem buildFundTx_funds_iff {signed : UtxoTx} {secret : Bytes} (h : buildFundTx f = .ok tx)
    (hsign : tx.sign secret = .ok signed) (hkey : KeyPair f.fromPubkey secret) (hvalue : f.fundingValue ≤ u128Max) :
    f.Funds signed ↔ f.fee ≤ f.leastFee ∧ utxoDust ≤ f.terms.amount := by
  obtain ⟨-, hdrafted⟩ := buildFundTx_drafted h
  have hinputs : tx.inputs = [⟨f.funding, 0, .signature⟩] := hdrafted.inputs
  have hfrom : tx.fromPubkey = f.fromPubkey := hdrafted.fromPubkey
  obtain ⟨signature, hsigned, hverify, hlen⟩ := @sign_ok _ tx _ _ (hfrom ▸ hkey)
  obtain rfl := Except.ok.inj (hsigned.symm.trans hsign)
  have hfee : tx.fee = f.leastFee := buildFundTx_fee h
  have hfirst : tx.outputs[0]? = some ⟨f.terms.amount, vaultPredicateFromTerms f.terms, 0⟩ := by
    rcases hdrafted.outputs with houtputs | ⟨change, -, houtputs⟩
    · rw [houtputs]
      rfl
    · rw [houtputs]
      rfl
  constructor
  · intro hfunds
    obtain ⟨u, hheld⟩ := exists_holds f.funding ⟨f.fundingValue, .payToAddress (Address.ofPubkey f.fromPubkey), 0⟩
    obtain ⟨st, happly, -⟩ := hfunds.applies u ∅ _ 0 (satAdd64 0 coinbaseMaturityBlues) (Address.equivalent_refl _) hheld
      fun _ => le_rfl
    obtain ⟨hform, -⟩ := applied_inputs happly hinputs hheld
    have hvault := validateForm_outputs hform _ (List.mem_of_getElem? hfirst)
    exact ⟨hfee ▸ hfunds.requested, validateOutput_vault_iff.mp hvault⟩
  · rintro ⟨hrequested, hdust⟩
    have hshape : tx.outputs ≠ [] ∧ tx.outputs.length ≤ 64 ∧ ∀ o ∈ tx.outputs, validateOutput o = .ok () ∧
        o.predicate.isAccountCredit = false := by
      have hvault : validateOutput ⟨f.terms.amount, vaultPredicateFromTerms f.terms, 0⟩ = .ok () :=
        validateOutput_vault_iff.mpr hdust
      rcases hdrafted.outputs with houtputs | ⟨change, hchange, houtputs⟩
      · rw [houtputs]
        refine ⟨List.cons_ne_nil _ _, by simp [Funding.probe], fun o ho => ?_⟩
        rw [List.mem_singleton.mp ho]
        exact ⟨hvault, rfl⟩
      · rw [houtputs]
        refine ⟨List.cons_ne_nil _ _, by simp [Funding.probe], fun o ho => ?_⟩
        rcases List.mem_cons.mp ho with rfl | ho
        · exact ⟨hvault, rfl⟩
        · rw [List.mem_singleton.mp ho]
          exact ⟨validateOutput_payToAddress_iff.mpr ⟨hchange, Address.isBech32m_ofPubkey _⟩, rfl⟩
    have hsame : UtxoTx.minFeeRequired { tx with signature } = tx.minFeeRequired := minFeeRequired_congr rfl rfl rfl
    have hfloor : UtxoTx.minFeeRequired { tx with signature } ≤ tx.fee := by
      rw [hsame, hdrafted.fee]
      exact le_max_right _ _
    have hform : validateForm { tx with signature } = .ok () :=
      validateForm_single hinputs hshape.1 hshape.2.1 (hfrom ▸ hkey.length_pubkey) hfloor
        (fun o ho => (hshape.2.2 o ho).1) hlen
    refine ⟨hfee.symm ▸ hrequested, fun u accounts owner createdBlue mediaBlue howner hheld hmature => ?_⟩
    have hsigner : fromAddress { tx with signature } = Address.ofPubkey f.fromPubkey := congrArg Address.ofPubkey hfrom
    have hopens : evaluateFull (.payToAddress owner) .signature (fromAddress { tx with signature }) mediaBlue createdBlue
        (some (signingBytes { tx with signature })) = .ok () := by
      rw [hsigner]
      simp [evaluateFull, Predicate.depth, maxPredDepth, evalInner, checkOwner, howner, bind, Except.bind]
    have hunlocks : Unlocks { tx with signature } ⟨f.funding, 0, .signature⟩
        ⟨f.fundingValue, .payToAddress owner, createdBlue⟩ mediaBlue :=
      ⟨hdrafted.lockBlueScore.trans_le (Nat.zero_le _), hmature, fun hpos => absurd hpos (UInt32.lt_irrefl 0), hopens, rfl⟩
    obtain ⟨st, happly, hholds⟩ := @applies_single _ { tx with signature } _ _ accounts _ _ hinputs hheld hform hverify hunlocks hvalue
      hdrafted.balance fun o ho => (hshape.2.2 o ho).2
    exact ⟨st, happly, hholds 0 _ hfirst⟩

end Funding

end Bdpe

namespace Sample

open RegistryRun TuepEscrow Bdpe

/-- Two parties over a million units. -/
def partyTerms : EscrowTerms where
  buyer := partyAddress 1
  seller := partyAddress 2
  amount := 1000000
  clock := .absoluteBlue 100
  memo := []
  seedHex := utf8 "aa"

/-- The funding of their vault, from an output that is just enough. -/
def partyFunding (fee : Nat) : Funding where
  fromPubkey := partyKey 1
  funding := ⟨Hash.zero, 0⟩
  fundingValue := 1007622
  terms := partyTerms
  fee := fee
  chainId := Params.chainId

/-- The vault spent by both, to the seller. -/
def partySpending (vault : OutPoint) : Spending where
  primaryPubkey := partyKey 1
  cosignerPubkey := some (partyKey 2)
  cosignerSecret := some []
  vault := vault
  vaultValue := 1000000
  terms := partyTerms
  path := .coop2of2 .toSeller
  mediaBlue := 0
  fee := 0
  chainId := Params.chainId

theorem partyFunding_minFee (fee : Nat) : (partyFunding fee).probe.minFeeRequired = 7622 := by
  have hinputs : (partyFunding fee).probe.inputs.map (fun i => 72 + i.witness.toBytes.length) = [76] := by
    show [72 + UnlockWitness.signature.toBytes.length] = [76]
    simp [UnlockWitness.toBytes]
  have houtputs : (partyFunding fee).probe.outputs.map (fun o => 24 + o.predicate.toBytes.length) = [263] := by
    have hbuyer : (partyAddress 1).length = 62 := @Address.length_ofPubkey sampleCrypto _
    have hseller : (partyAddress 2).length = 62 := @Address.length_ofPubkey sampleCrypto _
    show [24 + (vaultPredicate (partyAddress 1) (partyAddress 2) 100).toBytes.length] = [263]
    simp [vaultPredicate, Predicate.toBytes, hbuyer, hseller]
  have hkey : (partyFunding fee).probe.fromPubkey.length = Params.pqPublicKeySize := List.length_replicate
  rw [UtxoTx.minFeeRequired, UtxoTx.relayBytes_eq, hinputs, houtputs, hkey]
  decide

/-- It is built whatever fee is asked for, at the least fee. -/
theorem partyFunding_ok (fee : Nat) :
    @buildFundTx sampleCrypto (partyFunding fee) = .ok { (partyFunding fee).probe with fee := 7622 } := by
  let := sampleCrypto
  have hterms : partyTerms.validate = .ok () := by decide +kernel
  have hbuyer : Address.equivalent (Address.ofPubkey (partyKey 1)) partyTerms.buyer = true := Address.equivalent_refl _
  have hwhole : (1007622 : Nat) = partyTerms.amount + (partyFunding fee).probe.minFeeRequired := by
    rw [partyFunding_minFee]
    rfl
  have hok := @buildFundTx_whole _ (partyFunding fee) hterms hbuyer hwhole (by decide : (1007622 : Nat) ≤ u128Max)
  rw [partyFunding_minFee] at hok
  exact hok

/-- The sample signature is over anything. -/
theorem sign_sample (tx : UtxoTx) : @UtxoTx.sign sampleCrypto sampleSigning tx []
    = .ok { tx with signature := List.replicate Params.pqSignatureSize 0 } := rfl

theorem partySpending_follows (fee : Nat) (signed : UtxoTx) :
    @Spending.Follows sampleCrypto (partySpending ⟨@UtxoTx.txHash sampleCrypto signed, 0⟩) (partyFunding fee) signed :=
  @Spending.Follows.mk sampleCrypto _ _ signed rfl rfl rfl

theorem partySpending_keyed (vault : OutPoint) : @Spending.Keyed sampleCrypto sampleSigning (partySpending vault) := by
  intro pubkey secret hpubkey hsecret
  rw [← Option.some.inj hpubkey, ← Option.some.inj hsecret]
  exact sampleKey 2

end Sample

end HassanNode
