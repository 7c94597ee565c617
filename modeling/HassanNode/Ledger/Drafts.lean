import Mathlib
import HassanNode.Core.Bech32m
import HassanNode.Ledger.Form
import HassanNode.Ledger.Unlock
import HassanNode.Ledger.RegistrySound
import HassanNode.Ledger.Malleation

/-!
# HassanNode.Ledger.Drafts

Spends that the node builds for its user: how `UtxoTx::payment` and the builders of
`bdpe.rs` find fee and change, and signing (`UtxoTx::sign`).

A builder starts from a probe, a spend into one output, to learn the least fee of that
size. Then it returns the change, and raises the fee once more, out of the last output
(`finishDraft`). What comes out balances and pays its own least fee (`Drafted`). A spend
of one held output that has a good form and a signature applies (`applies_single`).
Hence a payment is spendable exactly when its own output passes the form check, which
`payment` does not ask (`UtxoTx.payment_spendable_iff`).
-/

namespace HassanNode

open Std (ExtTreeMap ExtTreeSet)
open Params Bincode

/-! ### Signing -/

/-- Signing, which the node leaves to its ML-DSA package. -/
class Signing where
  /-- `sign_message`. -/
  signMessage : (secret message : Bytes) → Except String Bytes

section Keys

variable [Crypto] [Signing]

/-- `sign_pq512`: the signature is over the 512-bit prehash. -/
def signPq512 (domain message secret : Bytes) : Except String Bytes :=
  Signing.signMessage secret (digest512 domain message).asBytes

/-- A key pair: what the secret key signs verifies under the public one. -/
structure KeyPair (pubkey secret : Bytes) : Prop where
  signs : ∀ message, ∃ signature, Signing.signMessage secret message = .ok signature ∧
    verifySignature pubkey message signature = true

theorem KeyPair.length_pubkey {pubkey secret : Bytes} (h : KeyPair pubkey secret) : pubkey.length = pqPublicKeySize := by
  obtain ⟨signature, -, hverify⟩ := h.signs []
  rw [verifySignature, Bool.and_eq_true, Bool.and_eq_true, beq_iff_eq] at hverify
  exact hverify.1.1

theorem KeyPair.signPq512 {pubkey secret : Bytes} (h : KeyPair pubkey secret) (domain message : Bytes) :
    ∃ signature, signPq512 domain message secret = .ok signature ∧
      verifyPq512 domain message pubkey signature = true ∧ signature.length = pqSignatureSize := by
  obtain ⟨signature, hsign, hverify⟩ := h.signs (digest512 domain message).asBytes
  refine ⟨signature, hsign, hverify, ?_⟩
  rw [verifySignature, Bool.and_eq_true, Bool.and_eq_true, beq_iff_eq, beq_iff_eq] at hverify
  exact hverify.1.2

/-- `UtxoTx::sign`. -/
def UtxoTx.sign (tx : UtxoTx) (secret : Bytes) : Except String UtxoTx := do
  let signature ← HassanNode.signPq512 (utf8 "utxo-tx") tx.signingBytes secret
  return { tx with signature }

end Keys

namespace UtxoTx

/-! ### The size of a draft -/

theorem length_encode_outputs (outputs : List TxOut) :
    (encode outputs).length = 8 + (outputs.map fun o => 24 + o.predicate.toBytes.length).sum := by
  rw [length_encode_list]
  congr 2
  refine List.map_congr_left fun o _ => ?_
  show (u128 o.value ++ o.predicate.toBytes ++ u64 o.createdBlue).length = _
  rw [List.length_append, List.length_append, length_u128, length_u64]
  omega

theorem length_encode_inputs (inputs : List TxIn) :
    (encode inputs).length = 8 + (inputs.map fun i => 72 + i.witness.toBytes.length).sum := by
  rw [length_encode_list]
  congr 2
  refine List.map_congr_left fun i _ => ?_
  show (i.previous.txid.asBytes ++ u32 i.previous.vout.toNat ++ u32 i.relativeLockBlues.toNat
    ++ i.witness.toBytes).length = _
  simp only [List.length_append, Hash.length_asBytes, length_u32]

/-- **The size of a signed spend** is that of its witnesses, its predicates and its key. -/
theorem relayBytes_eq (tx : UtxoTx) : tx.relayBytes
    = 64 + (tx.inputs.map fun i => 72 + i.witness.toBytes.length).sum
      + (tx.outputs.map fun o => 24 + o.predicate.toBytes.length).sum + tx.fromPubkey.length + pqSignatureSize := by
  have hsize : ∀ signature : Bytes, signature.length = pqSignatureSize →
      (encode { tx with signature }).length
        = 64 + (tx.inputs.map fun i => 72 + i.witness.toBytes.length).sum
          + (tx.outputs.map fun o => 24 + o.predicate.toBytes.length).sum + tx.fromPubkey.length + pqSignatureSize := by
    intro signature hlen
    show (encode tx.inputs ++ encode tx.outputs ++ u64 tx.lockBlueScore ++ u128 tx.fee ++ u64 tx.chainId
      ++ Bincode.bytes tx.fromPubkey ++ Bincode.bytes signature).length = _
    simp only [List.length_append, length_encode_inputs, length_encode_outputs, length_u64, length_u128, length_bytes,
      hlen]
    omega
  unfold relayBytes
  split
  · exact hsize _ List.length_replicate
  · rename_i hsigned
    exact hsize tx.signature (not_not.mp hsigned)

/-- Spends of the same shape have the same least fee. -/
theorem minFeeRequired_congr {tx tx' : UtxoTx} (hinputs : tx'.inputs = tx.inputs)
    (houtputs : tx'.outputs.map TxOut.predicate = tx.outputs.map TxOut.predicate)
    (hkey : tx'.fromPubkey = tx.fromPubkey) : tx'.minFeeRequired = tx.minFeeRequired := by
  have hsum : ∀ outputs : List TxOut, (outputs.map fun o => 24 + o.predicate.toBytes.length)
      = (outputs.map TxOut.predicate).map fun p => 24 + p.toBytes.length := by
    intro outputs
    rw [List.map_map]
    rfl
  rw [minFeeRequired, minFeeRequired, relayBytes_eq, relayBytes_eq, hinputs, hkey, hsum, hsum, houtputs]

/-! ### Fee and change -/

/-- The last output pays for a rise of the fee to the least fee of this size. -/
def raiseFee (tx : UtxoTx) : Except String UtxoTx :=
  let needFee := tx.minFeeRequired
  if tx.fee < needFee then
    let extra := needFee - tx.fee
    match tx.outputs.getLast? with
    | some last =>
      if last.value > extra + utxoDust then
        .ok { tx with
          outputs := tx.outputs.dropLast ++ [{ last with value := last.value - extra }]
          fee := needFee }
      else .error s!"Fee must be ≥ {needFee}"
    | none => .error s!"Fee must be ≥ {needFee}"
  else .ok tx

/-- The end of a builder: the funding pays amount and fee, the rest is returned, and the
fee is raised to the least fee of what came out. -/
def finishDraft (probe : UtxoTx) (amount fundingValue fee : Nat) (changeAddr : Address) : Except String UtxoTx :=
  match checkedAdd128 amount fee with
  | none => .error "amount+fee overflow"
  | some need =>
    if fundingValue < need then .error "Insufficient funding UTXO"
    else
      let change := fundingValue - need
      if change > 0 ∧ change < utxoDust then .error "Change below dust"
      else raiseFee { probe with
        outputs := probe.outputs ++ if change > 0 then [⟨change, .payToAddress changeAddr, 0⟩] else []
        fee }

/-- What raising the fee does: the last output may pay, down to more than dust. -/
structure Raised (tx tx' : UtxoTx) : Prop where
  inputs : tx'.inputs = tx.inputs
  fromPubkey : tx'.fromPubkey = tx.fromPubkey
  lockBlueScore : tx'.lockBlueScore = tx.lockBlueScore
  outputs : tx'.outputs = tx.outputs ∨ ∃ front last value, tx.outputs = front ++ [last] ∧ utxoDust < value ∧
    tx'.outputs = front ++ [{ last with value }]
  total : tx'.fee + (tx'.outputs.map TxOut.value).sum = tx.fee + (tx.outputs.map TxOut.value).sum
  fee : tx'.fee = max tx.fee tx'.minFeeRequired

theorem raiseFee_eq_self {tx : UtxoTx} (h : tx.minFeeRequired ≤ tx.fee) : tx.raiseFee = .ok tx := by
  rw [raiseFee, if_neg (Nat.not_lt.mpr h)]

theorem raiseFee_raised {tx tx' : UtxoTx} (h : tx.raiseFee = .ok tx') : Raised tx tx' := by
  by_cases hpaid : tx.minFeeRequired ≤ tx.fee
  · rw [raiseFee_eq_self hpaid] at h
    obtain rfl := Except.ok.inj h
    exact ⟨rfl, rfl, rfl, Or.inl rfl, rfl, (max_eq_left hpaid).symm⟩
  · rw [raiseFee, if_pos (Nat.lt_of_not_le hpaid)] at h
    cases hlast : tx.outputs.getLast? with
    | none =>
        rw [hlast] at h
        cases h
    | some last =>
        rw [hlast] at h
        dsimp only at h
        split at h
        · rename_i hpays
          obtain rfl := Except.ok.inj h
          have hsplit : tx.outputs = tx.outputs.dropLast ++ [last] := (List.dropLast_append_getLast? last hlast).symm
          have hpredicates : ((tx.outputs.dropLast ++ [{ last with value := last.value - (tx.minFeeRequired - tx.fee) }]).map
              TxOut.predicate) = tx.outputs.map TxOut.predicate := by
            conv_rhs => rw [hsplit]
            rw [List.map_append, List.map_append]
            rfl
          refine ⟨rfl, rfl, rfl, Or.inr ⟨_, last, _, hsplit, by omega, rfl⟩, ?_, ?_⟩
          · have hsum := congrArg (fun outputs => (outputs.map TxOut.value).sum) hsplit
            simp only [List.map_append, List.sum_append, List.map_singleton, List.sum_singleton] at hsum ⊢
            omega
          · have hmin : minFeeRequired { tx with
                outputs := tx.outputs.dropLast ++ [{ last with value := last.value - (tx.minFeeRequired - tx.fee) }]
                fee := tx.minFeeRequired } = tx.minFeeRequired := minFeeRequired_congr rfl hpredicates rfl
            refine Eq.trans ?_ (congrArg (max tx.fee) hmin.symm)
            exact (max_eq_right (Nat.le_of_not_le hpaid)).symm
        · cases h

/-- **What a builder hands out**: the probe, with a change or without, which balances
with the funding at the fee asked for or its own least fee, whichever is more. -/
structure Drafted (probe tx : UtxoTx) (fundingValue fee : Nat) (changeAddr : Address) : Prop where
  inputs : tx.inputs = probe.inputs
  fromPubkey : tx.fromPubkey = probe.fromPubkey
  lockBlueScore : tx.lockBlueScore = probe.lockBlueScore
  outputs : tx.outputs = probe.outputs ∨ ∃ change, utxoDust ≤ change ∧
    tx.outputs = probe.outputs ++ [⟨change, .payToAddress changeAddr, 0⟩]
  balance : tx.fee + (tx.outputs.map TxOut.value).sum = fundingValue
  fee : tx.fee = max fee tx.minFeeRequired

theorem finishDraft_drafted {probe tx : UtxoTx} {amount fundingValue fee : Nat} {changeAddr : Address}
    (hamount : (probe.outputs.map TxOut.value).sum = amount) (hfloor : probe.minFeeRequired ≤ fee)
    (h : finishDraft probe amount fundingValue fee changeAddr = .ok tx) :
    Drafted probe tx fundingValue fee changeAddr := by
  rw [finishDraft] at h
  split at h
  · cases h
  · rename_i need hneed
    obtain ⟨-, rfl⟩ := checkedAdd128_eq_some.mp hneed
    split at h
    · cases h
    · rename_i hfunded
      dsimp only at h
      split at h
      · cases h
      · rename_i hdust
        by_cases hchange : fundingValue - (amount + fee) > 0
        · rw [if_pos hchange] at h
          -- the change pays what the fee rises by
          have hlow : utxoDust ≤ fundingValue - (amount + fee) := Nat.le_of_not_lt fun hlt => hdust ⟨hchange, hlt⟩
          have hraised := raiseFee_raised h
          refine ⟨hraised.inputs, hraised.fromPubkey, hraised.lockBlueScore, Or.inr ?_, ?_, hraised.fee⟩
          · rcases hraised.outputs with hsame | ⟨front, last, value, hlast, hvalue, houtputs⟩
            · exact ⟨_, hlow, hsame⟩
            · obtain ⟨rfl, hsame⟩ := List.append_inj' hlast rfl
              obtain rfl := List.singleton_inj.mp hsame
              exact ⟨value, hvalue.le, houtputs⟩
          · rw [hraised.total]
            simp only [List.map_append, List.sum_append, hamount, List.map_singleton, List.sum_singleton]
            omega
        · rw [if_neg hchange, List.append_nil] at h
          have hmin : minFeeRequired { probe with fee } = probe.minFeeRequired := minFeeRequired_congr rfl rfl rfl
          have hpaid : minFeeRequired { probe with fee } ≤ fee := hmin.trans_le hfloor
          rw [raiseFee_eq_self hpaid] at h
          obtain rfl := Except.ok.inj h
          refine ⟨rfl, rfl, rfl, Or.inl rfl, ?_, (max_eq_left hpaid).symm⟩
          show fee + (probe.outputs.map TxOut.value).sum = fundingValue
          omega

/-- A funding that is just enough leaves no change. -/
theorem finishDraft_whole {probe : UtxoTx} {amount fundingValue fee : Nat} (changeAddr : Address)
    (hwhole : fundingValue = amount + fee) (hfits : fundingValue ≤ u128Max) (hfloor : probe.minFeeRequired ≤ fee) :
    finishDraft probe amount fundingValue fee changeAddr = .ok { probe with fee } := by
  have hsum : checkedAdd128 amount fee = some fundingValue := checkedAdd128_eq_some.mpr ⟨hwhole ▸ hfits, hwhole⟩
  have hmin : minFeeRequired { probe with fee } = probe.minFeeRequired := minFeeRequired_congr rfl rfl rfl
  rw [finishDraft, hsum]
  simp only [Nat.lt_irrefl, if_false, Nat.sub_self, gt_iff_lt, false_and, List.append_nil]
  exact raiseFee_eq_self (hmin.trans_le hfloor)

/-! ### Spending one held output -/

/-- A loop of checks that all pass. -/
theorem forM_ok {ε α : Type} {xs : List α} {f : α → Except ε Unit} (h : ∀ x ∈ xs, f x = .ok ()) : xs.forM f = .ok () := by
  induction xs with
  | nil => rfl
  | cons x xs ih =>
      show (f x >>= fun _ => xs.forM f) = .ok ()
      rw [h x List.mem_cons_self, ih fun y hy => h y (List.mem_cons_of_mem x hy)]
      rfl

/-- Fee and outputs that fit are added up. -/
theorem sumOutputs_eq {outputs : List TxOut} {sum : Nat} (h : sum + (outputs.map TxOut.value).sum ≤ u128Max) :
    sumOutputs outputs sum = .ok (sum + (outputs.map TxOut.value).sum) := by
  induction outputs generalizing sum with
  | nil => simp [sumOutputs]
  | cons out outputs ih =>
      rw [List.map_cons, List.sum_cons, ← Nat.add_assoc] at h ⊢
      have hfits : checkedAdd128 sum out.value = some (sum + out.value) :=
        checkedAdd128_eq_some.mpr ⟨by omega, rfl⟩
      rw [sumOutputs, hfits]
      exact ih h

/-- The output loop of a spend without account credits. -/
theorem applyAll_creates {outs : List (TxOut × Nat)} (txid : Hash) (mediaBlue : Nat) (u : UtxoSet) (accounts : Accounts)
    (hplain : ∀ o ∈ outs, o.1.predicate.isAccountCredit = false) :
    UtxoEffect.applyAll (outs.map (outputEffect txid mediaBlue)) u accounts
      = ((createOutputs txid mediaBlue outs u, accounts), .ok ()) := by
  induction outs generalizing u with
  | nil => rfl
  | cons o outs ih =>
      have hcreate : outputEffect txid mediaBlue o = .create ⟨txid, UInt32.ofNat o.2⟩ { o.1 with createdBlue := mediaBlue } := by
        rw [outputEffect, if_neg (by simp [hplain o List.mem_cons_self])]
      rw [List.map_cons, hcreate, UtxoEffect.applyAll, UtxoEffect.apply, createOutputs, List.foldl_cons,
        if_neg (by simp [hplain o List.mem_cons_self])]
      exact ih _ fun o' ho' => hplain o' (List.mem_cons_of_mem o ho')

section Single

variable [Crypto] {tx : UtxoTx} {tin : TxIn} {u : UtxoSet} {accounts : Accounts} {mediaBlue : Nat} {out : TxOut}

omit [Crypto] in
/-- The form of a spend with one input. -/
theorem validateForm_single (hinputs : tx.inputs = [tin]) (hne : tx.outputs ≠ []) (hfew : tx.outputs.length ≤ 64)
    (hkey : tx.fromPubkey.length = pqPublicKeySize) (hfee : tx.minFeeRequired ≤ tx.fee)
    (houtputs : ∀ o ∈ tx.outputs, validateOutput o = .ok ()) (hsigned : tx.signature.length = pqSignatureSize) :
    tx.validateForm = .ok () := by
  have hall : tx.outputs.forM validateOutput = .ok () := forM_ok houtputs
  rw [validateForm, hinputs, if_neg (List.cons_ne_nil tin []), if_neg hne, if_neg (Nat.not_lt.mpr hfew),
    if_neg (by simp), if_neg (not_not.mpr hkey), if_neg (Nat.not_lt.mpr hfee), if_neg (by simp), hall]
  show (if tx.signature.length ≠ pqSignatureSize ∧ tx.signature ≠ [] then _ else _) = _
  rw [if_neg fun h => h.1 hsigned]

/-- What a spend of one held output must meet: its locks, the maturity of the output, and
its predicate. -/
structure Unlocks (tx : UtxoTx) (tin : TxIn) (out : TxOut) (mediaBlue : Nat) : Prop where
  lock : tx.lockBlueScore ≤ mediaBlue
  mature : tin.previous.isCoinbase = true → satAdd64 out.createdBlue coinbaseMaturityBlues ≤ mediaBlue
  ripe : 0 < tin.relativeLockBlues → satAdd64 out.createdBlue tin.relativeLockBlues.toNat ≤ mediaBlue
  opens : evaluateFull out.predicate tin.witness tx.fromAddress mediaBlue out.createdBlue (some tx.signingBytes) = .ok ()
  binds : assertExactValueBinds out.value out.predicate = .ok ()

/-- **A spend of one held output applies**, and its outputs are held after it, if it has
a good form, its signature verifies, it unlocks the output and balances it. -/
theorem applies_single (hinputs : tx.inputs = [tin]) (hheld : u.Holds tin.previous out)
    (hform : tx.validateForm = .ok ()) (hverify : tx.verify = true) (hunlocks : tx.Unlocks tin out mediaBlue)
    (hvalue : out.value ≤ u128Max) (hbalance : tx.fee + (tx.outputs.map TxOut.value).sum = out.value)
    (hplain : ∀ o ∈ tx.outputs, o.predicate.isAccountCredit = false) :
    ∃ s, applyUtxoTx u accounts tx mediaBlue = (s, .ok tx.fee) ∧
      ∀ i o, tx.outputs[i]? = some o → s.1.Holds ⟨tx.txHash, UInt32.ofNat i⟩ { o with createdBlue := mediaBlue } := by
  have hripe : ¬ (tin.previous.isCoinbase = true ∧ mediaBlue < satAdd64 out.createdBlue coinbaseMaturityBlues) :=
    fun h => Nat.not_lt.mpr (hunlocks.mature h.1) h.2
  have hrelative : ¬ (tin.relativeLockBlues > 0 ∧ mediaBlue < satAdd64 out.createdBlue tin.relativeLockBlues.toNat) :=
    fun h => Nat.not_lt.mpr (hunlocks.ripe h.1) h.2
  have hinput : checkInput u tx mediaBlue tin = .ok out.value := by
    simp [checkInput, hheld.live, hripe, hrelative, hunlocks.opens, hunlocks.binds, bind, Except.bind]
  have hsum : checkInputs u tx mediaBlue tx.inputs 0 = .ok out.value := by
    rw [hinputs]
    simp [checkInputs, hinput, checkedAdd128, hvalue, bind, Except.bind]
  have houtputs : sumOutputs tx.outputs tx.fee = .ok out.value := by
    rw [← hbalance]
    exact sumOutputs_eq (hbalance.trans_le hvalue)
  have hlocked : ¬ (tx.lockBlueScore > 0 ∧ mediaBlue < tx.lockBlueScore) := fun h => Nat.not_lt.mpr hunlocks.lock h.2
  have hcheck : checkUtxoTx u tx mediaBlue = .ok () := by
    simp [checkUtxoTx, hform, hverify, hlocked, hsum, houtputs, bind, Except.bind]
  have hspend : u.spend tin.previous
      = .ok { entries := u.entries.erase tin.previous, spent := u.spent.insert tin.previous } := by
    simp [UtxoSet.spend, hheld.unspent, hheld.live]
  obtain ⟨u₁, hu₁⟩ : ∃ u₁ : UtxoSet, u₁ = ⟨u.entries.erase tin.previous, u.spent.insert tin.previous⟩ := ⟨_, rfl⟩
  have hzip : ∀ o ∈ tx.outputs.zipIdx, o.1.predicate.isAccountCredit = false := fun o ho =>
    hplain o.1 (List.fst_mem_of_mem_zipIdx ho)
  have hrun : UtxoEffect.applyAll (tx.effects mediaBlue) u accounts
      = ((createOutputs tx.txHash mediaBlue tx.outputs.zipIdx u₁, accounts), .ok ()) := by
    rw [← applyAll_creates tx.txHash mediaBlue u₁ accounts hzip, effects, hinputs, List.map_singleton,
      List.singleton_append, UtxoEffect.applyAll, UtxoEffect.apply, hspend, ← hu₁]
    rfl
  refine ⟨(createOutputs tx.txHash mediaBlue tx.outputs.zipIdx u₁, accounts), ?_, fun i o ho => ?_⟩
  · rw [applyUtxoTx, hcheck]
    simp only [hrun]
  · have hmem : (o, i) ∈ tx.outputs.zipIdx := List.mk_mem_zipIdx_iff_getElem?.mpr ho
    have hnodup : (tx.outputs.zipIdx.map Prod.snd).Nodup := by
      rw [List.zipIdx_map_snd]
      exact List.nodup_range'
    have hidx : ∀ o ∈ tx.outputs.zipIdx, o.2 < 64 := by
      intro o ho
      have hlt := List.snd_lt_of_mem_zipIdx ho
      have hfew := (validateForm_ok hform).2.1
      omega
    exact createOutputs_holds hnodup hidx ⟨hmem, hzip _ hmem⟩

/-- A spend signed with the secret of its own key. -/
theorem sign_ok [Signing] {secret : Bytes} (hkey : KeyPair tx.fromPubkey secret) :
    ∃ signature, tx.sign secret = .ok { tx with signature } ∧ verify { tx with signature } = true ∧
      signature.length = pqSignatureSize := by
  obtain ⟨signature, hsign, hverify, hlen⟩ := hkey.signPq512 (utf8 "utxo-tx") tx.signingBytes
  refine ⟨signature, ?_, hverify, hlen⟩
  rw [sign, hsign]
  rfl

end Single

end UtxoTx

/-! ### Payments -/

/-- The arguments of `UtxoTx::payment`. -/
structure Payment where
  fromPubkey : Bytes
  funding : OutPoint
  fundingValue : Nat
  to_ : Address
  amount : Nat
  fee : Nat
  chainId : Nat
  lockBlueScore : Nat
  relativeLockBlues : UInt32

namespace Payment

variable {p : Payment}

/-- The provisional body. -/
def probe (p : Payment) : UtxoTx where
  inputs := [⟨p.funding, p.relativeLockBlues, .signature⟩]
  outputs := [⟨p.amount, .payToAddress p.to_, 0⟩]
  lockBlueScore := p.lockBlueScore
  fee := max p.fee minTxFee
  chainId := p.chainId
  fromPubkey := p.fromPubkey
  signature := []

end Payment

section Payment

variable [Crypto]

/-- `UtxoTx::payment`. -/
def UtxoTx.payment (p : Payment) : Except String UtxoTx :=
  let fee := max p.fee p.probe.minFeeRequired
  finishDraft { p.probe with fee } p.amount p.fundingValue fee (Address.ofPubkey p.fromPubkey)

variable {p : Payment} {tx : UtxoTx} {secret : Bytes}

/-- When the output that funds a payment may be spent, created at a score. -/
structure Payment.Ready (p : Payment) (createdBlue mediaBlue : Nat) : Prop where
  lock : p.lockBlueScore ≤ mediaBlue
  mature : p.funding.isCoinbase = true → satAdd64 createdBlue coinbaseMaturityBlues ≤ mediaBlue
  ripe : 0 < p.relativeLockBlues → satAdd64 createdBlue p.relativeLockBlues.toNat ≤ mediaBlue

/-- **A spendable payment**: it balances, it pays the fee that was asked for and the least
fee of its size, and signed with its key it has a good form and applies wherever its
funding is held and ready. -/
structure Payment.Spendable [Signing] (p : Payment) (secret : Bytes) (tx : UtxoTx) : Prop where
  balance : (tx.outputs.map TxOut.value).sum + tx.fee = p.fundingValue
  requested : p.fee ≤ tx.fee
  floor : tx.minFeeRequired ≤ tx.fee
  applies : ∃ signed, tx.sign secret = .ok signed ∧ signed.validateForm = .ok () ∧
    ∀ (u : UtxoSet) (accounts : Accounts) (owner : Address) (createdBlue mediaBlue : Nat),
      Address.equivalent owner (Address.ofPubkey p.fromPubkey) = true →
      u.Holds p.funding ⟨p.fundingValue, .payToAddress owner, createdBlue⟩ → p.Ready createdBlue mediaBlue → ∃ s, applyUtxoTx u accounts signed mediaBlue = (s, .ok signed.fee)

omit [Crypto] in
/-- An output to one address passes the form check if it is not dust and the address is
bech32m. -/
theorem validateOutput_payToAddress_iff {value createdBlue : Nat} {a : Address} :
    UtxoTx.validateOutput ⟨value, .payToAddress a, createdBlue⟩ = .ok () ↔
      utxoDust ≤ value ∧ Address.isBech32m a = true := by
  have hlocked : (Predicate.payToAddress a).lockedAddress = some a := rfl
  have hplain : (Predicate.payToAddress a).isAccountCredit = false := rfl
  constructor
  · intro h
    refine ⟨?_, UtxoTx.validateOutput_bech32m h hlocked⟩
    by_contra hdust
    rw [UtxoTx.validateOutput] at h
    split at h
    · cases h
    · rw [if_pos (by simpa [hplain] using Nat.lt_of_not_le hdust)] at h
      cases h
  · rintro ⟨hdust, hbech⟩
    have hpos : value ≠ 0 := (Nat.lt_of_lt_of_le (by decide) hdust).ne'
    simp [UtxoTx.validateOutput, hlocked, hplain, hpos, hdust, hbech, Address.isValid_of_isBech32m hbech]

theorem UtxoTx.payment_drafted (hok : UtxoTx.payment p = .ok tx) :
    Drafted p.probe tx p.fundingValue (max p.fee p.probe.minFeeRequired) (Address.ofPubkey p.fromPubkey) := by
  have hmin : UtxoTx.minFeeRequired { p.probe with fee := max p.fee p.probe.minFeeRequired } = p.probe.minFeeRequired :=
    minFeeRequired_congr rfl rfl rfl
  have h := finishDraft_drafted (by simp [Payment.probe]) (hmin.trans_le (le_max_right _ _)) hok
  exact ⟨h.inputs, h.fromPubkey, h.lockBlueScore, h.outputs, h.balance, h.fee⟩

/-- **A payment is spendable** if and only if its amount is not dust and its destination
is a bech32m address. -/
theorem UtxoTx.payment_spendable_iff [Signing] (hok : UtxoTx.payment p = .ok tx) (hkey : KeyPair p.fromPubkey secret)
    (hvalue : p.fundingValue ≤ u128Max) :
    p.Spendable secret tx ↔ utxoDust ≤ p.amount ∧ Address.isBech32m p.to_ = true := by
  have hdrafted := payment_drafted hok
  have hinputs : tx.inputs = [⟨p.funding, p.relativeLockBlues, .signature⟩] := hdrafted.inputs
  have hfrom : tx.fromPubkey = p.fromPubkey := hdrafted.fromPubkey
  have hfirst : ⟨p.amount, .payToAddress p.to_, 0⟩ ∈ tx.outputs := by
    rcases hdrafted.outputs with h | ⟨change, -, h⟩
    · rw [h]
      exact List.mem_cons_self
    · rw [h]
      exact List.mem_cons_self
  constructor
  · intro h
    obtain ⟨signed, hsign, hform, -⟩ := h.applies
    obtain ⟨signature, -, hsigned⟩ := Except.bind_eq_ok hsign
    obtain rfl := Except.ok.inj hsigned
    exact validateOutput_payToAddress_iff.mp (validateForm_outputs hform _ hfirst)
  · intro h
    have hshape : tx.outputs ≠ [] ∧ tx.outputs.length ≤ 64 ∧ ∀ o ∈ tx.outputs, validateOutput o = .ok () ∧
        o.predicate.isAccountCredit = false := by
      have hpays : validateOutput ⟨p.amount, .payToAddress p.to_, 0⟩ = .ok () := validateOutput_payToAddress_iff.mpr h
      rcases hdrafted.outputs with houtputs | ⟨change, hchange, houtputs⟩
      · rw [houtputs]
        refine ⟨List.cons_ne_nil _ _, by simp [Payment.probe], fun o ho => ?_⟩
        rw [List.mem_singleton.mp ho]
        exact ⟨hpays, rfl⟩
      · rw [houtputs]
        refine ⟨List.cons_ne_nil _ _, by simp [Payment.probe], fun o ho => ?_⟩
        rcases List.mem_cons.mp ho with rfl | ho
        · exact ⟨hpays, rfl⟩
        · rw [List.mem_singleton.mp ho]
          exact ⟨validateOutput_payToAddress_iff.mpr ⟨hchange, Address.isBech32m_ofPubkey _⟩, rfl⟩
    have hfloor : tx.minFeeRequired ≤ tx.fee := hdrafted.fee ▸ le_max_right _ _
    refine ⟨by rw [Nat.add_comm]; exact hdrafted.balance, ?_, hfloor, ?_⟩
    · rw [hdrafted.fee]
      exact (le_max_left _ _).trans (le_max_left _ _)
    · obtain ⟨signature, hsign, hverify, hlen⟩ := @sign_ok _ tx _ _ (hfrom ▸ hkey)
      have hmin : minFeeRequired { tx with signature } = tx.minFeeRequired := minFeeRequired_congr rfl rfl rfl
      have hform : validateForm { tx with signature } = .ok () :=
        validateForm_single hinputs hshape.1 hshape.2.1 (hfrom ▸ hkey.length_pubkey) (hmin.trans_le hfloor)
          (fun o ho => (hshape.2.2 o ho).1) hlen
      refine ⟨_, hsign, hform, fun u accounts owner createdBlue mediaBlue howner hheld hready => ?_⟩
      have hsigner : fromAddress { tx with signature } = Address.ofPubkey p.fromPubkey := congrArg Address.ofPubkey hfrom
      have hopens : evaluateFull (.payToAddress owner) .signature (fromAddress { tx with signature }) mediaBlue createdBlue
          (some (signingBytes { tx with signature })) = .ok () := by
        rw [hsigner]
        simp [evaluateFull, Predicate.depth, maxPredDepth, evalInner, checkOwner, howner, bind, Except.bind]
      obtain ⟨s, happly, -⟩ := @applies_single _ { tx with signature } _ _ accounts _ _ hinputs hheld hform hverify ⟨hdrafted.lockBlueScore.trans_le hready.lock, hready.mature, hready.ripe, hopens, rfl⟩ hvalue
        hdrafted.balance fun o ho => (hshape.2.2 o ho).2
      exact ⟨s, happly⟩

end Payment

namespace Sample

open RegistryRun

/-- Signing that verifies under the sample primitives. -/
@[reducible] def sampleSigning : Signing where
  signMessage _ _ := .ok (List.replicate pqSignatureSize 0)

theorem sampleKey (n : UInt8) : @KeyPair sampleCrypto sampleSigning (partyKey n) [] := by
  let := sampleCrypto
  let := sampleSigning
  refine ⟨fun message => ⟨List.replicate pqSignatureSize 0, rfl, ?_⟩⟩
  have hkey : (partyKey n).length = pqPublicKeySize := List.length_replicate
  have hsig : (List.replicate pqSignatureSize (0 : UInt8)).length = pqSignatureSize := List.length_replicate
  rw [verifySignature, hkey, hsig]
  rfl

/-- A payment of the whole funding, less a fee of 10000. -/
def wholePayment (amount : Nat) : Payment where
  fromPubkey := partyKey 1
  funding := ⟨Hash.zero, 0⟩
  fundingValue := amount + 10000
  to_ := partyAddress 2
  amount := amount
  fee := 10000
  chainId := Params.chainId
  lockBlueScore := 0
  relativeLockBlues := 0

/-- It has no change and pays the fee that was asked for. -/
theorem wholePayment_ok {amount : Nat} (hamount : amount ≤ 1000000) :
    ∃ tx, @UtxoTx.payment sampleCrypto (wholePayment amount) = .ok tx := by
  let := sampleCrypto
  have hinputs : (wholePayment amount).probe.inputs.map (fun i => 72 + i.witness.toBytes.length) = [76] := by
    show [72 + UnlockWitness.signature.toBytes.length] = [76]
    simp [UnlockWitness.toBytes]
  have houtputs : (wholePayment amount).probe.outputs.map (fun o => 24 + o.predicate.toBytes.length) = [98] := by
    have haddress : (partyAddress 2).length = 62 := Address.length_ofPubkey _
    show [24 + (Predicate.payToAddress (partyAddress 2)).toBytes.length] = [98]
    simp [Predicate.toBytes, haddress]
  have hkey : (wholePayment amount).probe.fromPubkey.length = pqPublicKeySize := List.length_replicate
  have hmin : (wholePayment amount).probe.minFeeRequired = 7457 := by
    rw [UtxoTx.minFeeRequired, UtxoTx.relayBytes_eq, hinputs, houtputs, hkey]
    decide
  have hfee : max (wholePayment amount).fee (wholePayment amount).probe.minFeeRequired = 10000 := by
    rw [hmin]
    rfl
  have hmax : u128Max = 340282366920938463463374607431768211455 := by decide
  have hfloor : UtxoTx.minFeeRequired { (wholePayment amount).probe with fee := 10000 } ≤ 10000 := by
    have hsame : UtxoTx.minFeeRequired { (wholePayment amount).probe with fee := 10000 }
        = (wholePayment amount).probe.minFeeRequired := UtxoTx.minFeeRequired_congr rfl rfl rfl
    rw [hsame, hmin]
    decide
  have hwhole : (wholePayment amount).fundingValue = (wholePayment amount).amount + 10000 := rfl
  have hfits : (wholePayment amount).fundingValue ≤ u128Max := by
    rw [hmax]
    exact (Nat.add_le_add_right hamount 10000).trans (by norm_num)
  have hok := UtxoTx.finishDraft_whole (Address.ofPubkey (wholePayment amount).fromPubkey) hwhole hfits hfloor
  rw [UtxoTx.payment, hfee]
  exact ⟨_, hok⟩

/-- Of 1000 units it is spendable. -/
theorem payment_spendable : ∃ tx, @UtxoTx.payment sampleCrypto (wholePayment 1000) = .ok tx ∧
    @Payment.Spendable sampleCrypto sampleSigning (wholePayment 1000) [] tx := by
  let := sampleCrypto
  let := sampleSigning
  obtain ⟨tx, hok⟩ := @wholePayment_ok 1000 (by norm_num)
  exact ⟨tx, hok, (UtxoTx.payment_spendable_iff hok (sampleKey 1) (by decide)).mpr
    ⟨by decide, Address.isBech32m_ofPubkey _⟩⟩

/-- **A payment of dust is built**, and cannot be spent. -/
theorem dust_payment_built : ¬ ∀ (p : Payment) (secret : Bytes) (tx : UtxoTx), @UtxoTx.payment sampleCrypto p = .ok tx →
    @KeyPair sampleCrypto sampleSigning p.fromPubkey secret → p.fundingValue ≤ u128Max →
    @Payment.Spendable sampleCrypto sampleSigning p secret tx := by
  let := sampleCrypto
  let := sampleSigning
  intro hall
  obtain ⟨tx, hok⟩ := @wholePayment_ok 100 (by norm_num)
  obtain ⟨signed, hsign, hform, -⟩ := (hall _ [] tx hok (sampleKey 1) (by decide)).applies
  obtain ⟨signature, -, hsigned⟩ := Except.bind_eq_ok hsign
  obtain rfl := Except.ok.inj hsigned
  have hfirst : ⟨100, .payToAddress (partyAddress 2), 0⟩ ∈ tx.outputs := by
    rcases (UtxoTx.payment_drafted hok).outputs with h | ⟨change, -, h⟩
    · rw [h]
      exact List.mem_cons_self
    · rw [h]
      exact List.mem_cons_self
  exact absurd (validateOutput_payToAddress_iff.mp (UtxoTx.validateForm_outputs hform _ hfirst)).1 (by decide)

end Sample

end HassanNode
