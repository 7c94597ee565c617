import Mathlib
import HassanNode.Ledger.Signing
import HassanNode.Ledger.UtxoSound
import HassanNode.Ledger.Unlock

/-!
# HassanNode.Ledger.Malleation

What a rewritten witness changes (`UtxoTx::txid`, `UtxoTx::tx_hash`,
`apply_utxo_tx`).

A signature leaves the witnesses out, so whoever relays a spend can put others in
their place that unlock the same coins. The id `txid` does not notice. But the
outpoints of the new outputs carry `tx_hash`, which covers the witnesses: the two
versions spend the same coins and credit the same accounts, and they create the
same outputs under different names (`UtxoTx.Rewitnessed.same_state_iff`).
-/

namespace HassanNode

open Std (ExtTreeMap ExtTreeSet)
open Params Bincode

namespace UtxoTx

/-- The same spend, up to the witnesses of its inputs. -/
structure Rewitnessed (tx tx' : UtxoTx) : Prop where
  inputs : tx'.inputs.map signedInput = tx.inputs.map signedInput
  outputs : tx'.outputs = tx.outputs
  lockBlueScore : tx'.lockBlueScore = tx.lockBlueScore
  fee : tx'.fee = tx.fee
  chainId : tx'.chainId = tx.chainId
  fromPubkey : tx'.fromPubkey = tx.fromPubkey
  signature : tx'.signature = tx.signature

variable {tx tx' : UtxoTx}

theorem Rewitnessed.previous (h : Rewitnessed tx tx') :
    tx'.inputs.map (·.previous) = tx.inputs.map (·.previous) := by
  have hfst := congrArg (List.map Prod.fst) h.inputs
  rw [List.map_map, List.map_map] at hfst
  exact hfst

theorem Rewitnessed.signingBytes (h : Rewitnessed tx tx') : tx'.signingBytes = tx.signingBytes := by
  have hlen := congrArg List.length h.inputs
  rw [List.length_map, List.length_map] at hlen
  rw [signingBytes_eq, signingBytes_eq, h.inputs, h.outputs, h.lockBlueScore, h.fee, h.chainId, hlen]

/-- The witness-free id is the same. -/
theorem Rewitnessed.txid [Crypto] (h : Rewitnessed tx tx') : tx'.txid = tx.txid := by
  rw [UtxoTx.txid, UtxoTx.txid, h.signingBytes, h.signature]

end UtxoTx

/-! ### What a run of the two loops leaves -/

/-- The set after its output loop, under an id. -/
def createOutputs (txid : Hash) (mediaBlue : Nat) (outs : List (TxOut × Nat)) (u : UtxoSet) :
    UtxoSet :=
  outs.foldl (fun u o =>
    if o.1.predicate.isAccountCredit then u
    else u.insert ⟨txid, UInt32.ofNat o.2⟩ { o.1 with createdBlue := mediaBlue }) u

section Loops

variable {u u' u₂ u₂' : UtxoSet} {accounts accounts' accounts₂' : Accounts} {txid txid₂ : Hash}
  {mediaBlue : Nat}

theorem applyAll_append_ok {es es' : List UtxoEffect} {st : UtxoSet × Accounts}
    (h : UtxoEffect.applyAll (es ++ es') u accounts = (st, .ok ())) :
    ∃ u₁ accounts₁, UtxoEffect.applyAll es u accounts = ((u₁, accounts₁), .ok ()) ∧
      UtxoEffect.applyAll es' u₁ accounts₁ = (st, .ok ()) := by
  induction es generalizing u accounts with
  | nil => exact ⟨u, accounts, rfl, h⟩
  | cons e es ih =>
      simp only [List.cons_append, UtxoEffect.applyAll] at h ⊢
      split at h
      · rename_i u₁ accounts₁ he
        exact ih h
      · simp at h

/-- The input loop removes its outpoints and marks them spent. -/
theorem spends_ok {ops : List OutPoint}
    (h : UtxoEffect.applyAll (ops.map .spend) u accounts = ((u', accounts'), .ok ())) :
    accounts' = accounts ∧ (∀ op, u'.entries[op]? = if op ∈ ops then none else u.entries[op]?) ∧
      ∀ op, op ∈ u'.spent ↔ op ∈ u.spent ∨ op ∈ ops := by
  induction ops generalizing u with
  | nil =>
      cases h
      exact ⟨rfl, by simp, by simp⟩
  | cons o ops ih =>
      simp only [List.map_cons, UtxoEffect.applyAll] at h
      split at h
      · rename_i u₁ accounts₁ he
        obtain ⟨u₂, hspend, heq⟩ := Except.bind_eq_ok he
        cases heq
        obtain ⟨haccounts, hentries, hspent⟩ := ih h
        unfold UtxoSet.spend at hspend
        split at hspend
        · cases hspend
        · split at hspend
          · cases hspend
          · cases hspend
            refine ⟨haccounts, fun op => ?_, fun op => ?_⟩
            · rw [hentries]
              by_cases hop : op ∈ ops
              · simp [hop]
              · by_cases heq : o = op
                · simp [heq]
                · simp [hop, heq, Ne.symm heq, ExtTreeMap.getElem?_erase]
            · rw [hspent, ExtTreeSet.mem_insert, List.mem_cons, Std.LawfulEqCmp.compare_eq_iff_eq,
                @eq_comm _ o op]
              tauto
      · simp at h

/-- The output loop leaves the set with its outputs created. -/
theorem outputs_set {outs : List (TxOut × Nat)}
    (h : UtxoEffect.applyAll (outs.map (outputEffect txid mediaBlue)) u accounts
      = ((u', accounts'), .ok ())) : u' = createOutputs txid mediaBlue outs u := by
  induction outs generalizing u accounts with
  | nil =>
      cases h
      rfl
  | cons o outs ih =>
      obtain ⟨out, i⟩ := o
      simp only [List.map_cons, UtxoEffect.applyAll] at h
      split at h
      · rename_i u₁ accounts₁ he
        rw [ih h, createOutputs, createOutputs, List.foldl_cons]
        have hhead : u₁ = if out.predicate.isAccountCredit then u
            else u.insert ⟨txid, UInt32.ofNat i⟩ { out with createdBlue := mediaBlue } := by
          by_cases hcredit : out.predicate.isAccountCredit
          · simp only [outputEffect, hcredit, if_true] at he ⊢
            cases hlocked : out.predicate.lockedAddress with
            | none =>
                rw [hlocked] at he
                cases he
            | some addr =>
                rw [hlocked, UtxoEffect.apply] at he
                split at he
                · cases he
                · cases he
                  rfl
          · simp only [outputEffect, hcredit] at he ⊢
            cases he
            rfl
        rw [hhead]
      · simp at h

/-- What it leaves of the accounts does not depend on the id or the set. -/
theorem outputs_accounts {outs : List (TxOut × Nat)}
    (h : UtxoEffect.applyAll (outs.map (outputEffect txid mediaBlue)) u accounts
      = ((u', accounts'), .ok ()))
    (h₂ : UtxoEffect.applyAll (outs.map (outputEffect txid₂ mediaBlue)) u₂ accounts
      = ((u₂', accounts₂'), .ok ())) : accounts₂' = accounts' := by
  induction outs generalizing u u₂ accounts with
  | nil =>
      cases h
      cases h₂
      rfl
  | cons o outs ih =>
      obtain ⟨out, i⟩ := o
      simp only [List.map_cons, UtxoEffect.applyAll] at h h₂
      split at h
      · rename_i u₁ accounts₁ he
        split at h₂
        · rename_i u₃ accounts₃ he₂
          have hsame : accounts₃ = accounts₁ := by
            by_cases hcredit : out.predicate.isAccountCredit
            · simp only [outputEffect, hcredit, if_true] at he he₂
              cases hlocked : out.predicate.lockedAddress with
              | none =>
                  rw [hlocked] at he
                  cases he
              | some addr =>
                  rw [hlocked, UtxoEffect.apply] at he he₂
                  split at he
                  · cases he
                  · rename_i hsum
                    rw [hsum] at he₂
                    cases he
                    cases he₂
                    rfl
            · simp only [outputEffect, hcredit] at he he₂
              cases he
              cases he₂
              rfl
          rw [hsame] at h₂
          exact ih h h₂
        · simp at h₂
      · simp at h

end Loops

/-! ### What a run creates -/

/-- The set has this output, live. -/
structure UtxoSet.Holds (u : UtxoSet) (op : OutPoint) (out : TxOut) : Prop where
  live : u.entries[op]? = some out
  unspent : op ∉ u.spent

/-- Two sets say the same of an outpoint. -/
structure UtxoSet.Agree (u u' : UtxoSet) (op : OutPoint) : Prop where
  live : u'.entries[op]? = u.entries[op]?
  spent : op ∈ u'.spent ↔ op ∈ u.spent

theorem UtxoSet.ext_agree {u u' : UtxoSet} (h : ∀ op, u.Agree u' op) : u = u' :=
  UtxoSet.ext (ExtTreeMap.ext_getElem? fun op => ((h op).live).symm)
    (ExtTreeSet.ext_mem fun op => ((h op).spent).symm)

theorem UtxoSet.insert_agree (u : UtxoSet) {op op' : OutPoint} (out : TxOut) (hne : op ≠ op') :
    u.Agree (u.insert op out) op' where
  live := by
    rw [UtxoSet.insert, ExtTreeMap.getElem?_insert, if_neg]
    simpa [Std.LawfulEqCmp.compare_eq_iff_eq] using hne
  spent := by
    rw [UtxoSet.insert, ExtTreeSet.mem_erase]
    simp [hne]

theorem UtxoSet.insert_holds (u : UtxoSet) (op : OutPoint) (out : TxOut) :
    (u.insert op out).Holds op out where
  live := by rw [UtxoSet.insert, ExtTreeMap.getElem?_insert_self]
  unspent := by simp [UtxoSet.insert, ExtTreeSet.mem_erase]

/-- Creating an output that is there already changes nothing. -/
theorem UtxoSet.Holds.insert_eq {u : UtxoSet} {op : OutPoint} {out : TxOut} (h : u.Holds op out) :
    u.insert op out = u := by
  refine (UtxoSet.ext_agree fun op' => ?_).symm
  by_cases hop : op = op'
  · subst hop
    exact ⟨by rw [(u.insert_holds op out).live, h.live],
      iff_of_false (u.insert_holds op out).unspent h.unspent⟩
  · exact u.insert_agree out hop

section Created

variable {u : UtxoSet} {txid : Hash} {mediaBlue : Nat}

/-- An output that becomes an outpoint. -/
def Created (outs : List (TxOut × Nat)) (o : TxOut × Nat) : Prop :=
  o ∈ outs ∧ o.1.predicate.isAccountCredit = false

/-- Outpoints of another id are left alone. -/
theorem createOutputs_agree {outs : List (TxOut × Nat)} {op : OutPoint}
    (h : ∀ o, Created outs o → (⟨txid, UInt32.ofNat o.2⟩ : OutPoint) ≠ op) :
    u.Agree (createOutputs txid mediaBlue outs u) op := by
  induction outs generalizing u with
  | nil => exact ⟨rfl, Iff.rfl⟩
  | cons o outs ih =>
      rw [createOutputs, List.foldl_cons]
      have hrest : ∀ o', Created outs o' → (⟨txid, UInt32.ofNat o'.2⟩ : OutPoint) ≠ op :=
        fun o' ho' => h o' ⟨List.mem_cons_of_mem o ho'.1, ho'.2⟩
      by_cases hcredit : o.1.predicate.isAccountCredit = true
      · rw [if_pos hcredit]
        exact ih hrest
      · rw [if_neg hcredit]
        have hhead := u.insert_agree { o.1 with createdBlue := mediaBlue }
          (h o ⟨List.mem_cons_self, by simpa using hcredit⟩)
        have htail := ih (u := u.insert ⟨txid, UInt32.ofNat o.2⟩ { o.1 with createdBlue := mediaBlue }) hrest
        exact ⟨htail.live.trans hhead.live, htail.spent.trans hhead.spent⟩

/-- Every output that is no credit lands under its index. -/
theorem createOutputs_holds {outs : List (TxOut × Nat)} (hnodup : (outs.map Prod.snd).Nodup)
    (hidx : ∀ o ∈ outs, o.2 < 64) {o : TxOut × Nat} (ho : Created outs o) :
    (createOutputs txid mediaBlue outs u).Holds ⟨txid, UInt32.ofNat o.2⟩
      { o.1 with createdBlue := mediaBlue } := by
  induction outs generalizing u with
  | nil => cases ho.1
  | cons head outs ih =>
      obtain ⟨hhead, htail⟩ := List.nodup_cons.mp hnodup
      rw [createOutputs, List.foldl_cons]
      rcases List.mem_cons.mp ho.1 with rfl | hmem
      · rw [if_neg (by simp [ho.2])]
        -- a later output has another index
        have hother : ∀ o', Created outs o' →
            (⟨txid, UInt32.ofNat o'.2⟩ : OutPoint) ≠ ⟨txid, UInt32.ofNat o.2⟩ := by
          intro o' ho' heq
          have hvout := congrArg OutPoint.vout heq
          have hsame := ofNat_inj_of_lt (hidx o' (List.mem_cons_of_mem o ho'.1))
            (hidx o List.mem_cons_self) hvout
          exact hhead (List.mem_map.mpr ⟨o', ho'.1, hsame⟩)
        have hkept := @createOutputs_agree (u.insert ⟨txid, UInt32.ofNat o.2⟩
          { o.1 with createdBlue := mediaBlue }) txid mediaBlue outs _ hother
        have hlanded := u.insert_holds ⟨txid, UInt32.ofNat o.2⟩ { o.1 with createdBlue := mediaBlue }
        exact ⟨hkept.live.trans hlanded.live, fun hspent => hlanded.unspent (hkept.spent.mp hspent)⟩
      · exact ih htail (fun o' ho' => hidx o' (List.mem_cons_of_mem head ho')) ⟨hmem, ho.2⟩

/-- If they are all there already the loop changes nothing. -/
theorem createOutputs_eq {outs : List (TxOut × Nat)}
    (h : ∀ o, Created outs o → u.Holds ⟨txid, UInt32.ofNat o.2⟩ { o.1 with createdBlue := mediaBlue }) :
    createOutputs txid mediaBlue outs u = u := by
  induction outs with
  | nil => rfl
  | cons o outs ih =>
      rw [createOutputs, List.foldl_cons]
      have hrest := ih fun o' ho' => h o' ⟨List.mem_cons_of_mem o ho'.1, ho'.2⟩
      by_cases hcredit : o.1.predicate.isAccountCredit = true
      · rw [if_pos hcredit]
        exact hrest
      · rw [if_neg hcredit, (h o ⟨List.mem_cons_self, by simpa using hcredit⟩).insert_eq]
        exact hrest

end Created

/-! ### Two versions of one spend -/

namespace UtxoTx

section Versions

variable [Crypto] {tx tx' : UtxoTx} {u : UtxoSet} {accounts : Accounts} {mediaBlue : Nat}
  {st st' : UtxoSet × Accounts} {fee fee' : Nat}

/-- Every outpoint the spend creates under this id is in the set already, and is
none of those it spends. -/
def Foreseen (tx : UtxoTx) (u : UtxoSet) (mediaBlue : Nat) (txid : Hash) : Prop :=
  ∀ o, Created tx.outputs.zipIdx o →
    u.Holds ⟨txid, UInt32.ofNat o.2⟩ { o.1 with createdBlue := mediaBlue } ∧
      (⟨txid, UInt32.ofNat o.2⟩ : OutPoint) ∉ tx.inputs.map (·.previous)

/-- A spend that applies runs its input loop, then its output loop. -/
theorem applied_split (h : applyUtxoTx u accounts tx mediaBlue = (st, .ok fee)) :
    tx.outputs.length ≤ 64 ∧ ∃ u₁,
      (∀ op, u₁.entries[op]?
        = if op ∈ tx.inputs.map (·.previous) then none else u.entries[op]?) ∧
      (∀ op, op ∈ u₁.spent ↔ op ∈ u.spent ∨ op ∈ tx.inputs.map (·.previous)) ∧
      UtxoEffect.applyAll (tx.outputs.zipIdx.map (outputEffect tx.txHash mediaBlue)) u₁ accounts
        = (st, .ok ()) := by
  unfold applyUtxoTx at h
  split at h
  · cases h
  · rename_i hcheck
    have hform := (checkUtxoTx_ok hcheck).1
    refine ⟨(UtxoTx.validateForm_ok hform).2.1, ?_⟩
    split at h
    · rename_i st₁ hrun
      cases h
      rw [UtxoTx.effects] at hrun
      obtain ⟨u₁, accounts₁, hspends, houtputs⟩ := applyAll_append_ok hrun
      have hmap : tx.inputs.map (fun tin => UtxoEffect.spend tin.previous)
          = (tx.inputs.map (·.previous)).map UtxoEffect.spend := by
        rw [List.map_map]
        rfl
      rw [hmap] at hspends
      obtain ⟨rfl, hentries, hspent⟩ := spends_ok hspends
      exact ⟨u₁, hentries, hspent, houtputs⟩
    · cases h

/-- **What a rewritten witness changes.** Two versions of a spend that both apply
leave the same accounts; they leave the same set exactly when their `tx_hash` is the
same, or when every output they would create is there already under both ids. -/
theorem Rewitnessed.same_state_iff (hsame : Rewitnessed tx tx')
    (h : applyUtxoTx u accounts tx mediaBlue = (st, .ok fee))
    (h' : applyUtxoTx u accounts tx' mediaBlue = (st', .ok fee')) :
    st'.2 = st.2 ∧ (st' = st ↔ tx'.txHash = tx.txHash ∨
      tx.Foreseen u mediaBlue tx.txHash ∧ tx.Foreseen u mediaBlue tx'.txHash) := by
  obtain ⟨hlen, u₁, hentries, hspent, hrun⟩ := applied_split h
  obtain ⟨-, u₂, hentries₂, hspent₂, hrun₂⟩ := applied_split h'
  obtain ⟨v, a⟩ := st
  obtain ⟨v', a'⟩ := st'
  rw [hsame.previous] at hentries₂ hspent₂
  rw [hsame.outputs] at hrun₂
  -- the input loops agree
  obtain rfl : u₁ = u₂ := UtxoSet.ext_agree fun op =>
    ⟨by rw [hentries₂, hentries], by rw [hspent₂, hspent]⟩
  obtain rfl := outputs_accounts hrun hrun₂
  obtain rfl := outputs_set hrun
  obtain rfl := outputs_set hrun₂
  have hnodup : (tx.outputs.zipIdx.map Prod.snd).Nodup := by
    rw [List.zipIdx_map_snd]
    exact List.nodup_range'
  have hidx : ∀ o ∈ tx.outputs.zipIdx, o.2 < 64 := by
    intro o ho
    have := List.snd_lt_of_mem_zipIdx ho
    omega
  -- what is held after the input loop was held before it and not spent
  have hbefore : ∀ {op out}, u₁.Holds op out →
      u.Holds op out ∧ op ∉ tx.inputs.map (·.previous) := by
    intro op out hheld
    have hnot : op ∉ tx.inputs.map (·.previous) := fun hin =>
      hheld.unspent ((hspent op).mpr (Or.inr hin))
    have hlive := hheld.live
    rw [hentries, if_neg hnot] at hlive
    exact ⟨⟨hlive, fun hin => hheld.unspent ((hspent op).mpr (Or.inl hin))⟩, hnot⟩
  have hafter : ∀ {op out}, u.Holds op out → op ∉ tx.inputs.map (·.previous) → u₁.Holds op out := by
    intro op out hheld hnot
    refine ⟨by rw [hentries, if_neg hnot, hheld.live], fun hin => ?_⟩
    cases (hspent op).mp hin with
    | inl hin => exact hheld.unspent hin
    | inr hin => exact hnot hin
  refine ⟨rfl, ?_⟩
  constructor
  · intro heq
    have hsets := (Prod.mk.inj heq).1
    by_cases hid : tx'.txHash = tx.txHash
    · exact Or.inl hid
    · right
      constructor
      · intro o ho
        have hheld := @createOutputs_holds u₁ tx.txHash mediaBlue _ hnodup hidx o ho
        have hother := @createOutputs_agree u₁ tx'.txHash mediaBlue tx.outputs.zipIdx
          ⟨tx.txHash, UInt32.ofNat o.2⟩ fun _ _ heq => hid (congrArg OutPoint.txid heq)
        rw [← hsets] at hheld
        exact hbefore ⟨hother.live.symm.trans hheld.live,
          fun hin => hheld.unspent (hother.spent.mpr hin)⟩
      · intro o ho
        have hheld := @createOutputs_holds u₁ tx'.txHash mediaBlue _ hnodup hidx o ho
        have hother := @createOutputs_agree u₁ tx.txHash mediaBlue tx.outputs.zipIdx
          ⟨tx'.txHash, UInt32.ofNat o.2⟩ fun _ _ heq => hid (congrArg OutPoint.txid heq).symm
        rw [hsets] at hheld
        exact hbefore ⟨hother.live.symm.trans hheld.live,
          fun hin => hheld.unspent (hother.spent.mpr hin)⟩
  · rintro (hid | ⟨hforeseen, hforeseen'⟩)
    · rw [hid]
    · have hkept := @createOutputs_eq u₁ tx.txHash mediaBlue tx.outputs.zipIdx fun o ho =>
        hafter (hforeseen o ho).1 (hforeseen o ho).2
      have hkept' := @createOutputs_eq u₁ tx'.txHash mediaBlue tx.outputs.zipIdx fun o ho =>
        hafter (hforeseen' o ho).1 (hforeseen' o ho).2
      rw [hkept, hkept']

end Versions

end UtxoTx

/-! ### One coin, two witnesses -/

namespace Sample

/-- The spend of the hash-locked coin with its witness wrapped in a stack, which the
hash lock accepts as well. -/
def wrapped : UtxoTx :=
  { spendTo ⟨1000, .hashLock Hash.zero, 0⟩ 8000 with
    inputs := [⟨coin, 0, .stack [.preimage []]⟩] }

def plain : UtxoTx := spendTo ⟨1000, .hashLock Hash.zero, 0⟩ 8000

def coinPurse : UtxoSet := purse ⟨1000, .hashLock Hash.zero, 0⟩ 8000

theorem plain_rewitnessed : UtxoTx.Rewitnessed plain wrapped :=
  ⟨rfl, rfl, rfl, rfl, rfl, rfl, rfl⟩

/-- The sample digest reads the eight bytes of a message that stand twelve bytes
before its end. -/
theorem sample_digest {front word back : Bytes} (hword : word.length = 8) (hback : back.length = 12) :
    ∃ lead < 2 ^ 64, @Crypto.blake3 sampleCrypto (front ++ (word ++ back))
      = Hash.ofNat ((lead + 2 ^ 64 * Bytes.toNatLE word) * 2 ^ 256) := by
  have htail : ((front ++ (word ++ back)).drop ((front ++ (word ++ back)).length - 20)).take 8 = word := by
    have hlen : (front ++ (word ++ back)).length - 20 = front.length := by
      simp only [List.length_append]
      omega
    rw [hlen, List.drop_left, List.take_append_of_le_length hword.ge, List.take_of_length_le hword.le]
  refine ⟨Bytes.toNatLE (((front ++ (word ++ back)).drop 18).take 8), ?_, ?_⟩
  · have hshort := List.length_take_le 8 ((front ++ (word ++ back)).drop 18)
    have hpow : (256 : Nat) ^ (((front ++ (word ++ back)).drop 18).take 8).length ≤ 256 ^ 8 :=
      Nat.pow_le_pow_right (by norm_num) hshort
    have hlt := Bytes.toNatLE_lt (((front ++ (word ++ back)).drop 18).take 8)
    omega
  · show Hash.ofNat ((Bytes.toNatLE (((front ++ (word ++ back)).drop 18).take 8) + 2 ^ 64 *
      Bytes.toNatLE (((front ++ (word ++ back)).drop
        ((front ++ (word ++ back)).length - 20)).take 8)) * 2 ^ 256) = _
    rw [htail]

/-- Two messages with different words have different digests. -/
theorem sample_digest_ne {front front' word word' back back' : Bytes}
    (hword : word.length = 8) (hword' : word'.length = 8)
    (hback : back.length = 12) (hback' : back'.length = 12)
    (hne : Bytes.toNatLE word ≠ Bytes.toNatLE word') :
    @Crypto.blake3 sampleCrypto (front ++ (word ++ back))
      ≠ @Crypto.blake3 sampleCrypto (front' ++ (word' ++ back')) := by
  obtain ⟨lead, hlead, hdigest⟩ := @sample_digest front word back hword hback
  obtain ⟨lead', hlead', hdigest'⟩ := @sample_digest front' word' back' hword' hback'
  rw [hdigest, hdigest']
  intro heq
  have hlow := Bytes.toNatLE_lt word
  have hlow' := Bytes.toNatLE_lt word'
  rw [hword] at hlow
  rw [hword'] at hlow'
  generalize Bytes.toNatLE word = x at *
  generalize Bytes.toNatLE word' = y at *
  have hnat := congrArg Hash.toNat heq
  simp only [Hash.ofNat] at hnat
  rw [Nat.mod_eq_of_lt (by omega), Nat.mod_eq_of_lt (by omega)] at hnat
  omega

/-- Two spends whose hashed bytes end in different words. -/
theorem txHash_ne {tx tx' : UtxoTx} {front front' word word' back back' : Bytes}
    (h : tx.hashBytes = front ++ (word ++ back)) (h' : tx'.hashBytes = front' ++ (word' ++ back'))
    (hword : word.length = 8) (hword' : word'.length = 8) (hback : back.length = 12)
    (hback' : back'.length = 12) (hne : Bytes.toNatLE word ≠ Bytes.toNatLE word') :
    @UtxoTx.txHash sampleCrypto tx ≠ @UtxoTx.txHash sampleCrypto tx' := by
  have hdigest : ∀ tx : UtxoTx, @UtxoTx.txHash sampleCrypto tx = @Crypto.blake3 sampleCrypto
      (utf8 "hassan-pq-512-v1" ++ utf8 "utxo-tx-hash" ++ tx.hashBytes) := fun _ => rfl
  rw [hdigest, hdigest, h, h', ← List.append_assoc, ← List.append_assoc _ front']
  exact sample_digest_ne hword hword' hback hback' hne

/-- The wrapped witness gives another `tx_hash`. -/
theorem plain_hash : @UtxoTx.txHash sampleCrypto wrapped ≠ @UtxoTx.txHash sampleCrypto plain := by
  have hplain : plain.hashBytes = (plain.signingBytes ++ List.replicate (pqSignatureSize - 8) 0)
      ++ (List.replicate 8 0 ++ (UnlockWitness.preimage []).toBytes) := by
    have hsig : plain.signature = List.replicate (pqSignatureSize - 8) 0 ++ List.replicate 8 0 := by
      rw [List.replicate_append_replicate]
      rfl
    show plain.signingBytes ++ plain.signature ++ ((UnlockWitness.preimage []).toBytes ++ []) = _
    rw [hsig]
    simp only [List.append_assoc, List.append_nil]
  have hwrapped : wrapped.hashBytes
      = (plain.signingBytes ++ plain.signature ++ u32 2)
        ++ (u64 1 ++ (UnlockWitness.preimage []).toBytes) := by
    show wrapped.signingBytes ++ plain.signature
      ++ ((UnlockWitness.stack [.preimage []]).toBytes ++ []) = _
    rw [plain_rewitnessed.signingBytes]
    simp [UnlockWitness.toBytes]
  have hback : (UnlockWitness.preimage []).toBytes.length = 12 := by simp [UnlockWitness.toBytes]
  have hne : Bytes.toNatLE (u64 1) ≠ Bytes.toNatLE (List.replicate 8 0) := by decide +kernel
  exact txHash_ne hwrapped hplain (by simp) List.length_replicate hback hback hne

theorem wrapped_fee : wrapped.minFeeRequired ≤ 8000 := by
  have hsig : wrapped.signature.length = pqSignatureSize := List.length_replicate
  have hinput : (encode (⟨coin, 0, .stack [.preimage []]⟩ : TxIn)).length = 96 := by
    show (coin.txid.asBytes ++ u32 coin.vout.toNat ++ u32 (0 : UInt32).toNat
      ++ (UnlockWitness.stack [.preimage []]).toBytes).length = 96
    simp [UnlockWitness.toBytes]
  have houtput : (encode (⟨1000, .hashLock Hash.zero, 0⟩ : TxOut)).length = 92 := by
    show (u128 1000 ++ (u32 1 ++ Hash.zero.asBytes) ++ u64 0).length = 92
    simp
  have hsize : wrapped.relayBytes = 7471 := by
    rw [UtxoTx.relayBytes, if_neg (not_not.mpr hsig)]
    show (encode [(⟨coin, 0, .stack [.preimage []]⟩ : TxIn)]
      ++ encode [(⟨1000, .hashLock Hash.zero, 0⟩ : TxOut)] ++ u64 0 ++ u128 8000
      ++ u64 chainId ++ Bincode.bytes (List.replicate pqPublicKeySize 0)
      ++ Bincode.bytes (List.replicate pqSignatureSize 0)).length = _
    simp only [List.length_append, length_encode_list, List.map_cons, List.map_nil, List.sum_cons,
      List.sum_nil, hinput, houtput, length_u64, length_u128, length_bytes, List.length_replicate,
      pqPublicKeySize, pqSignatureSize]
    rfl
  rw [UtxoTx.minFeeRequired, hsize]
  decide

theorem wrapped_form : wrapped.validateForm = .ok () := by
  have hkey : wrapped.fromPubkey.length = pqPublicKeySize := List.length_replicate
  have hsig : wrapped.signature.length = pqSignatureSize := List.length_replicate
  have hpaid : ¬ wrapped.fee < wrapped.minFeeRequired := Nat.not_lt.mpr wrapped_fee
  have hinputs : wrapped.inputs = [⟨coin, 0, .stack [.preimage []]⟩] := rfl
  have houtputs : wrapped.outputs = [⟨1000, .hashLock Hash.zero, 0⟩] := rfl
  have hout := validateOutput_hashLock Hash.zero
  simp [UtxoTx.validateForm, hkey, hsig, hpaid, hinputs, houtputs, hout, bind, Except.bind, pure,
    Except.pure]

theorem wrapped_checks : @checkUtxoTx sampleCrypto coinPurse wrapped 5 = .ok () := by
  let := sampleCrypto
  have hverify : wrapped.verify = true :=
    verifyPq512_sample _ _ List.length_replicate List.length_replicate
  have hopen : evaluateFull (.hashLock (hashlockCommitment [])) (.stack [.preimage []])
      wrapped.fromAddress 5 0 (some wrapped.signingBytes) = .ok () := by
    simp [evaluateFull, Predicate.depth, maxPredDepth, evalInner, evalPreimage]
  have hbinds : assertExactValueBinds 9000 (.hashLock (hashlockCommitment [])) = .ok () := rfl
  have hinput : checkInput coinPurse wrapped 5 ⟨coin, 0, .stack [.preimage []]⟩ = .ok 9000 := by
    have hcoin : coinPurse.entries[coin]? = some ⟨9000, .hashLock (hashlockCommitment []), 0⟩ := by
      simp [coinPurse, purse]
    have hmint : coin.isCoinbase = false := by decide
    simp [checkInput, hcoin, hmint, hopen, hbinds, bind, Except.bind]
  have hinputs : checkInputs coinPurse wrapped 5 wrapped.inputs 0 = .ok 9000 := by
    show checkInputs _ _ _ [⟨coin, 0, .stack [.preimage []]⟩] 0 = _
    simp [checkInputs, hinput, checkedAdd128, u128Max, bind, Except.bind]
  have houtputs : sumOutputs wrapped.outputs wrapped.fee = .ok 9000 := by
    show sumOutputs [⟨1000, .hashLock Hash.zero, 0⟩] 8000 = _
    simp [sumOutputs, checkedAdd128, u128Max]
  have hlock : wrapped.lockBlueScore = 0 := rfl
  simp [checkUtxoTx, wrapped_form, hverify, hinputs, houtputs, hlock, bind, Except.bind]

/-- The set without the coin. -/
def emptied : UtxoSet :=
  { entries := coinPurse.entries.erase coin, spent := ({} : UtxoSet).spent.insert coin }

theorem emptied_entries (op : OutPoint) : emptied.entries[op]? = none := by
  simp only [emptied, coinPurse, purse, ExtTreeMap.getElem?_erase, ExtTreeMap.getElem?_insert,
    ExtTreeMap.getElem?_empty]
  split <;> rfl

/-- The set after the spend of the coin, under the id of the spend. -/
def spentPurse (txid : Hash) : UtxoSet :=
  emptied.insert ⟨txid, UInt32.ofNat 0⟩ ⟨1000, .hashLock Hash.zero, 5⟩

theorem spentPurse_ne {txid txid' : Hash} (hne : txid ≠ txid') : spentPurse txid' ≠ spentPurse txid := by
  intro heq
  have hheld := (emptied.insert_holds ⟨txid, UInt32.ofNat 0⟩ ⟨1000, .hashLock Hash.zero, 5⟩).live
  have hother := (@UtxoSet.insert_agree emptied ⟨txid', UInt32.ofNat 0⟩ ⟨txid, UInt32.ofNat 0⟩
    ⟨1000, .hashLock Hash.zero, 5⟩ fun h => hne (congrArg OutPoint.txid h).symm).live
  have hsame : (spentPurse txid).entries[(⟨txid, UInt32.ofNat 0⟩ : OutPoint)]? = none := by
    rw [← heq]
    exact hother.trans (emptied_entries _)
  rw [spentPurse, hheld] at hsame
  cases hsame

/-- Both versions apply. -/
theorem both_apply {tx : UtxoTx} (hcheck : @checkUtxoTx sampleCrypto coinPurse tx 5 = .ok ())
    (hinputs : tx.inputs.map (·.previous) = [coin])
    (houtputs : tx.outputs = [⟨1000, .hashLock Hash.zero, 0⟩]) :
    @applyUtxoTx sampleCrypto coinPurse ∅ tx 5
      = ((spentPurse (@UtxoTx.txHash sampleCrypto tx), ∅), .ok tx.fee) := by
  let := sampleCrypto
  have hspend : coinPurse.spend coin = .ok emptied := by
    simp [UtxoSet.spend, emptied, coinPurse, purse]
  have hspends : tx.inputs.map (fun tin => UtxoEffect.spend tin.previous) = [.spend coin] := by
    have hmap := congrArg (List.map UtxoEffect.spend) hinputs
    rw [List.map_map] at hmap
    exact hmap
  have heffects : tx.effects 5 = [.spend coin,
      .create ⟨tx.txHash, UInt32.ofNat 0⟩ ⟨1000, .hashLock Hash.zero, 5⟩] := by
    rw [UtxoTx.effects, hspends, houtputs]
    simp [outputEffect, Predicate.isAccountCredit]
  simp [applyUtxoTx, hcheck, heffects, UtxoEffect.applyAll, UtxoEffect.apply, hspend, spentPurse,
    bind, Except.bind]

theorem plain_checks : @checkUtxoTx sampleCrypto coinPurse plain 5 = .ok () := by
  have hsize : (encode (Predicate.hashLock Hash.zero)).length ≤ 600 := by
    show (u32 1 ++ Hash.zero.asBytes).length ≤ 600
    simp
  exact spendTo_checks 5 (validateOutput_hashLock Hash.zero) (by decide : 1000 + 8000 ≤ u128Max)
    (spendTo_minFeeRequired hsize)

/-- **A witness is exchanged, and the new output has another name**: two spends that
differ in a witness, both apply, and leave different sets. -/
theorem wrapped_renames_output : ∃ (tx tx' : UtxoTx) (u : UtxoSet) (st st' : UtxoSet × Accounts),
    UtxoTx.Rewitnessed tx tx' ∧ @UtxoTx.txid sampleCrypto tx' = @UtxoTx.txid sampleCrypto tx ∧
    @applyUtxoTx sampleCrypto u ∅ tx 5 = (st, .ok tx.fee) ∧
    @applyUtxoTx sampleCrypto u ∅ tx' 5 = (st', .ok tx'.fee) ∧ st' ≠ st := by
  let := sampleCrypto
  refine ⟨plain, wrapped, coinPurse, _, _, plain_rewitnessed, plain_rewitnessed.txid,
    both_apply plain_checks rfl rfl, both_apply wrapped_checks rfl rfl, ?_⟩
  intro heq
  exact spentPurse_ne plain_hash.symm (Prod.mk.inj heq).1

/-- What the theorem says of the two. -/
theorem same_state_iff_wrapped :
    (∅ : Accounts) = ∅ ∧
    (((spentPurse (@UtxoTx.txHash sampleCrypto wrapped), (∅ : Accounts))
        = (spentPurse (@UtxoTx.txHash sampleCrypto plain), ∅)) ↔
      @UtxoTx.txHash sampleCrypto wrapped = @UtxoTx.txHash sampleCrypto plain ∨
      plain.Foreseen coinPurse 5 (@UtxoTx.txHash sampleCrypto plain) ∧
        plain.Foreseen coinPurse 5 (@UtxoTx.txHash sampleCrypto wrapped)) := by
  let := sampleCrypto
  exact plain_rewitnessed.same_state_iff (both_apply plain_checks rfl rfl)
    (both_apply wrapped_checks rfl rfl)

end Sample

end HassanNode
