import Mathlib
import HassanNode.Lib.Fallible
import HassanNode.Ledger.Utxo

/-!
# HassanNode.Ledger.UtxoSound

What one spend does to the UTXO set.

`UtxoInv` is the provenance invariant of a replay: live and spent outpoints are
disjoint, every outpoint ever seen was created by a mint or by a spend that took
effect, and every input of such a spend is in the spent set. From it follows
that a spend which passes its checks creates only outpoints that were never
seen (`UtxoInv.fresh`): a second spend with the same id would have the same
inputs, and these are spent. `applyUtxoTx_spec` then says everything one spend
can do: nothing, or all of its mutations.
-/

namespace HassanNode

open Std (ExtTreeMap ExtTreeSet)
open Params Bincode

/-! ### The checks, inverted -/

/-- The value an outpoint brings in. -/
def UtxoSet.valueOf (u : UtxoSet) (op : OutPoint) : Nat := Map.valueAt TxOut.value u.entries op

section Checks

theorem UtxoTx.validateForm_ok {tx : UtxoTx} (h : tx.validateForm = .ok ()) :
    tx.inputs ≠ [] ∧ tx.outputs.length ≤ 64 ∧ tx.inputs.length ≤ 64 ∧
      (tx.inputs.map (·.previous)).Nodup := by
  unfold UtxoTx.validateForm at h
  split at h
  · cases h
  · rename_i hin
    split at h
    · cases h
    · split at h
      · cases h
      · rename_i hout
        split at h
        · cases h
        · rename_i hlen
          split at h
          · cases h
          · split at h
            · cases h
            · split at h
              · cases h
              · rename_i hdup
                exact ⟨hin, not_lt.mp hout, not_lt.mp hlen, not_not.mp hdup⟩

theorem sumOutputs_ok {outputs : List TxOut} {sum total : Nat}
    (h : sumOutputs outputs sum = .ok total) : total = sum + (outputs.map TxOut.value).sum := by
  induction outputs generalizing sum with
  | nil =>
      cases h
      simp
  | cons out rest ih =>
      simp only [sumOutputs] at h
      split at h
      · cases h
      · rename_i sum' hsum
        obtain ⟨-, rfl⟩ := checkedAdd128_eq_some.mp hsum
        rw [ih h, List.map_cons, List.sum_cons, Nat.add_assoc]

variable [Crypto]

theorem checkInput_ok {u : UtxoSet} {tx : UtxoTx} {media value : Nat} {tin : TxIn}
    (h : checkInput u tx media tin = .ok value) :
    tin.previous ∈ u.entries ∧ value = u.valueOf tin.previous := by
  unfold checkInput at h
  split at h
  · cases h
  · rename_i out hout
    have hmem : tin.previous ∈ u.entries := by
      rw [ExtTreeMap.mem_iff_isSome_getElem?, hout]
      rfl
    refine ⟨hmem, ?_⟩
    split at h
    · cases h
    · dsimp only at h
      split at h
      · cases h
      · obtain ⟨_, -, h⟩ := Except.bind_eq_ok h
        obtain ⟨_, -, h⟩ := Except.bind_eq_ok h
        cases h
        simp [UtxoSet.valueOf, Map.valueAt, hout]

theorem checkInputs_ok {u : UtxoSet} {tx : UtxoTx} {media : Nat} {inputs : List TxIn}
    {sum total : Nat} (h : checkInputs u tx media inputs sum = .ok total) :
    (∀ tin ∈ inputs, tin.previous ∈ u.entries) ∧
      total = sum + (inputs.map fun tin => u.valueOf tin.previous).sum := by
  induction inputs generalizing sum with
  | nil =>
      cases h
      simp
  | cons tin rest ih =>
      obtain ⟨value, hvalue, h⟩ := Except.bind_eq_ok h
      obtain ⟨hmem, rfl⟩ := checkInput_ok hvalue
      split at h
      · cases h
      · rename_i sum' hsum
        obtain ⟨-, rfl⟩ := checkedAdd128_eq_some.mp hsum
        obtain ⟨hrest, htotal⟩ := ih h
        refine ⟨?_, ?_⟩
        · intro t ht
          rcases List.mem_cons.mp ht with rfl | ht
          · exact hmem
          · exact hrest t ht
        · rw [htotal, List.map_cons, List.sum_cons, Nat.add_assoc]

/-- **Inversion of the checks**: distinct live inputs that balance the outputs
and the fee. -/
theorem checkUtxoTx_ok {u : UtxoSet} {tx : UtxoTx} {media : Nat}
    (h : checkUtxoTx u tx media = .ok ()) :
    tx.validateForm = .ok () ∧ (∀ tin ∈ tx.inputs, tin.previous ∈ u.entries) ∧
      (tx.inputs.map fun tin => u.valueOf tin.previous).sum
        = tx.fee + (tx.outputs.map TxOut.value).sum := by
  obtain ⟨⟨⟩, hform, h⟩ := Except.bind_eq_ok h
  split at h
  · cases h
  · split at h
    · cases h
    · obtain ⟨inputSum, hin, h⟩ := Except.bind_eq_ok h
      obtain ⟨outputSum, hout, h⟩ := Except.bind_eq_ok h
      split at h
      · cases h
      · rename_i hbal
        obtain ⟨hmem, hsum⟩ := checkInputs_ok hin
        rw [Nat.zero_add] at hsum
        refine ⟨hform, hmem, ?_⟩
        rw [← hsum, not_not.mp hbal, sumOutputs_ok hout]

end Checks

/-! ### The mutations -/

theorem applyAll_append (es es' : List UtxoEffect) (u : UtxoSet) (accounts : Accounts)
    {u' : UtxoSet} {accounts' : Accounts}
    (h : UtxoEffect.applyAll es u accounts = ((u', accounts'), .ok ())) :
    UtxoEffect.applyAll (es ++ es') u accounts = UtxoEffect.applyAll es' u' accounts' := by
  induction es generalizing u accounts with
  | nil =>
      simp only [UtxoEffect.applyAll, Prod.mk.injEq] at h
      obtain ⟨⟨rfl, rfl⟩, -⟩ := h
      rfl
  | cons e es ih =>
      simp only [List.cons_append, UtxoEffect.applyAll] at h ⊢
      split at h
      · rename_i u₁ accounts₁ he
        exact ih u₁ accounts₁ h
      · simp at h

/-- The input loop: distinct live outpoints all get spent. -/
theorem applyAll_spends {ops : List OutPoint} {u : UtxoSet} (accounts : Accounts)
    (hnodup : ops.Nodup) (hlive : ∀ op ∈ ops, op ∈ u.entries)
    (hunspent : ∀ op ∈ ops, op ∉ u.spent) :
    ∃ u', UtxoEffect.applyAll (ops.map .spend) u accounts = ((u', accounts), .ok ()) ∧
      (∀ op, op ∈ u'.entries ↔ op ∈ u.entries ∧ op ∉ ops) ∧
      (∀ op, op ∈ u'.spent ↔ op ∈ u.spent ∨ op ∈ ops) ∧
      u'.totalValue + (ops.map u.valueOf).sum = u.totalValue := by
  induction ops generalizing u with
  | nil => exact ⟨u, rfl, by simp, by simp, by simp⟩
  | cons op ops ih =>
      obtain ⟨hhead, htail⟩ := List.nodup_cons.mp hnodup
      have hop : op ∈ u.entries := hlive op (by simp)
      have hop' : op ∉ u.spent := hunspent op (by simp)
      let u₁ : UtxoSet := { entries := u.entries.erase op, spent := u.spent.insert op }
      have hspend : UtxoEffect.apply u accounts (.spend op) = .ok (u₁, accounts) := by
        have : u.entries[op]?.isNone = false := by
          rw [ExtTreeMap.mem_iff_isSome_getElem?] at hop
          cases h : u.entries[op]? <;> simp_all
        simp [UtxoEffect.apply, UtxoSet.spend, hop', this, u₁, bind, Except.bind]
      have hlive₁ : ∀ o ∈ ops, o ∈ u₁.entries := by
        intro o ho
        have hne : op ≠ o := fun h => hhead (h ▸ ho)
        simpa [u₁, ExtTreeMap.mem_erase, hne] using hlive o (List.mem_cons_of_mem op ho)
      have hunspent₁ : ∀ o ∈ ops, o ∉ u₁.spent := by
        intro o ho
        have hne : op ≠ o := fun h => hhead (h ▸ ho)
        simpa [u₁, ExtTreeSet.mem_insert, hne] using hunspent o (List.mem_cons_of_mem op ho)
      obtain ⟨u', hrun, hentries, hspent, hvalue⟩ := ih htail hlive₁ hunspent₁
      refine ⟨u', ?_, ?_, ?_, ?_⟩
      · simp only [List.map_cons, UtxoEffect.applyAll, hspend]
        exact hrun
      · intro o
        rw [hentries, List.mem_cons, @eq_comm _ o op]
        simp only [u₁, ExtTreeMap.mem_erase, ne_eq, Std.LawfulEqCmp.compare_eq_iff_eq]
        tauto
      · intro o
        rw [hspent, List.mem_cons, @eq_comm _ o op]
        simp only [u₁, ExtTreeSet.mem_insert, Std.LawfulEqCmp.compare_eq_iff_eq]
        tauto
      · have hsame : ops.map u₁.valueOf = ops.map u.valueOf := by
          refine List.map_congr_left fun o ho => ?_
          have hne : op ≠ o := fun h => hhead (h ▸ ho)
          simp [UtxoSet.valueOf, Map.valueAt, u₁, ExtTreeMap.getElem?_erase, hne]
        have herase := Map.sumBy_erase TxOut.value u.entries op
        have htotal : u₁.totalValue + u.valueOf op = u.totalValue := herase
        rw [hsame] at hvalue
        rw [List.map_cons, List.sum_cons]
        omega

/-- What an output adds to the set: its outpoint, unless it is a credit. -/
def createdOutpoints (txid : Hash) (outputs : List (TxOut × Nat)) : List OutPoint :=
  outputs.filterMap fun (out, i) =>
    if out.predicate.isAccountCredit then none else some ⟨txid, UInt32.ofNat i⟩

/-- Every credit output of a spend names the account it credits. -/
def UtxoTx.CreditsAddressed (tx : UtxoTx) : Prop :=
  ∀ out ∈ tx.outputs, out.predicate.isAccountCredit = true → out.predicate.lockedAddress.isSome

theorem Accounts.valueAt_balance (accounts : Accounts) (addr : Address) :
    Map.valueAt Account.balance accounts addr = (accounts.entry addr).balance := by
  unfold Map.valueAt Accounts.entry
  cases accounts[addr]? <;> rfl

/-- Replacing an account's record changes the sum of balances by the change of
its balance. -/
theorem Accounts.sum_insert (accounts : Accounts) (addr : Address) (acct : Account) :
    Map.sumBy Account.balance (accounts.insert addr acct) + (accounts.entry addr).balance
      = Map.sumBy Account.balance accounts + acct.balance := by
  rw [← Accounts.valueAt_balance]
  exact Map.sumBy_insert _ _ _ _

theorem Accounts.entry_insert (accounts : Accounts) (addr a : Address) (acct : Account) :
    Accounts.entry (accounts.insert addr acct) a
      = if addr = a then acct else accounts.entry a := by
  simp only [Accounts.entry, ExtTreeMap.getElem?_insert, Std.LawfulEqCmp.compare_eq_iff_eq]
  split <;> rfl

/-- The output loop on outputs whose outpoints are new: every output lands, the
spent set stays, no nonce moves and exactly the outputs' value is added. -/
theorem applyAll_outputs {txid : Hash} (media : Nat) {outputs : List (TxOut × Nat)}
    {u : UtxoSet} {accounts : Accounts}
    (haddressed : ∀ o ∈ outputs, o.1.predicate.isAccountCredit = true →
      o.1.predicate.lockedAddress.isSome)
    (hbound : Map.sumBy Account.balance accounts + (outputs.map (·.1.value)).sum ≤ u128Max)
    (hnodup : (createdOutpoints txid outputs).Nodup)
    (hfresh : ∀ op ∈ createdOutpoints txid outputs, op ∉ u.entries ∧ op ∉ u.spent) :
    ∃ u' accounts',
      UtxoEffect.applyAll (outputs.map (outputEffect txid media)) u accounts
        = ((u', accounts'), .ok ()) ∧
      (∀ op, op ∈ u'.entries ↔ op ∈ u.entries ∨ op ∈ createdOutpoints txid outputs) ∧
      (∀ op, op ∈ u'.spent ↔ op ∈ u.spent) ∧
      (∀ addr, (accounts'.entry addr).nonce = (accounts.entry addr).nonce) ∧
      u'.totalValue + Map.sumBy Account.balance accounts'
        = u.totalValue + Map.sumBy Account.balance accounts + (outputs.map (·.1.value)).sum := by
  induction outputs generalizing u accounts with
  | nil => exact ⟨u, accounts, rfl, by simp [createdOutpoints], by simp, by simp, by simp⟩
  | cons o outputs ih =>
      obtain ⟨out, i⟩ := o
      have haddressed' : ∀ o ∈ outputs, o.1.predicate.isAccountCredit = true →
          o.1.predicate.lockedAddress.isSome :=
        fun o ho => haddressed o (List.mem_cons_of_mem _ ho)
      simp only [List.map_cons, List.sum_cons] at hbound
      by_cases hcredit : out.predicate.isAccountCredit = true
      · -- a credit: the account's balance grows, the set does not change
        obtain ⟨addr, haddr⟩ := Option.isSome_iff_exists.mp (haddressed (out, i) (by simp) hcredit)
        have hbal := Map.valueAt_le_sumBy Account.balance accounts addr
        rw [Accounts.valueAt_balance] at hbal
        have hadd : checkedAdd128 (accounts.entry addr).balance out.value
            = some ((accounts.entry addr).balance + out.value) :=
          checkedAdd128_eq_some.mpr ⟨by omega, rfl⟩
        let acct : Account :=
          { accounts.entry addr with balance := (accounts.entry addr).balance + out.value }
        have hsum := Accounts.sum_insert accounts addr acct
        have hsum' : Map.sumBy Account.balance (accounts.insert addr acct)
            = Map.sumBy Account.balance accounts + out.value := by
          simp only [acct] at hsum ⊢
          omega
        have hcreated : createdOutpoints txid ((out, i) :: outputs)
            = createdOutpoints txid outputs := by simp [createdOutpoints, hcredit]
        rw [hcreated] at hnodup hfresh
        have hbound' : Map.sumBy Account.balance (accounts.insert addr acct)
            + (outputs.map (·.1.value)).sum ≤ u128Max := by omega
        obtain ⟨u', accounts', hrun, hentries, hspent, hnonce, hvalue⟩ :=
          ih haddressed' hbound' hnodup hfresh
        refine ⟨u', accounts', ?_, ?_, hspent, ?_, ?_⟩
        · simp only [List.map_cons, outputEffect, hcredit, if_true, UtxoEffect.applyAll,
            UtxoEffect.apply, haddr, hadd]
          exact hrun
        · rw [hcreated]
          exact hentries
        · intro a
          rw [hnonce, Accounts.entry_insert]
          split
          · rename_i h
            subst h
            rfl
          · rfl
        · simp only [List.map_cons, List.sum_cons]
          omega
      · -- a fresh outpoint: it enters the set with its value
        let op : OutPoint := ⟨txid, UInt32.ofNat i⟩
        let out' : TxOut := { out with createdBlue := media }
        have hcreated : createdOutpoints txid ((out, i) :: outputs)
            = op :: createdOutpoints txid outputs := by simp [createdOutpoints, hcredit, op]
        rw [hcreated] at hnodup hfresh
        obtain ⟨hhead, htail⟩ := List.nodup_cons.mp hnodup
        obtain ⟨hop, hop'⟩ := hfresh op (by simp)
        have hfresh' : ∀ o ∈ createdOutpoints txid outputs,
            o ∉ (u.insert op out').entries ∧ o ∉ (u.insert op out').spent := by
          intro o ho
          have hne : op ≠ o := fun h => hhead (h ▸ ho)
          have := hfresh o (List.mem_cons_of_mem _ ho)
          simpa [UtxoSet.insert, ExtTreeMap.mem_insert, ExtTreeSet.mem_erase, hne] using this
        have hbound' : Map.sumBy Account.balance accounts + (outputs.map (·.1.value)).sum
            ≤ u128Max := by omega
        obtain ⟨u', accounts', hrun, hentries, hspent, hnonce, hvalue⟩ :=
          ih haddressed' hbound' htail hfresh'
        refine ⟨u', accounts', ?_, ?_, ?_, hnonce, ?_⟩
        · simp only [List.map_cons, outputEffect, hcredit, UtxoEffect.applyAll, UtxoEffect.apply]
          exact hrun
        · intro o
          rw [hentries, hcreated, List.mem_cons, @eq_comm _ o op]
          simp only [UtxoSet.insert, ExtTreeMap.mem_insert, Std.LawfulEqCmp.compare_eq_iff_eq]
          tauto
        · intro o
          rw [hspent]
          simp only [UtxoSet.insert, ExtTreeSet.mem_erase, ne_eq,
            Std.LawfulEqCmp.compare_eq_iff_eq]
          constructor
          · exact fun h => h.2
          · exact fun h => ⟨fun heq => hop' (heq ▸ h), h⟩
        · have hins := Map.sumBy_insert TxOut.value u.entries op out'
          have hnone : Map.valueAt TxOut.value u.entries op = 0 := by
            rw [ExtTreeMap.mem_iff_isSome_getElem?] at hop
            cases h : u.entries[op]? <;> simp_all [Map.valueAt]
          have htotal : (u.insert op out').totalValue = u.totalValue + out.value := by
            simp only [UtxoSet.totalValue, UtxoSet.insert]
            rw [hnone] at hins
            exact hins
          simp only [List.map_cons, List.sum_cons]
          omega

/-! ### Provenance -/

section Provenance

variable [Crypto]

/-- The new outpoints of a spend. -/
def UtxoTx.created (tx : UtxoTx) : List OutPoint := createdOutpoints tx.txHash tx.outputs.zipIdx

/-- **The provenance invariant** of a UTXO set, after the spends `done` took
effect and the mints with ids `ids` were made. -/
structure UtxoInv (done : List UtxoTx) (ids : List Hash) (u : UtxoSet) : Prop where
  disjoint : ∀ op ∈ u.spent, op ∉ u.entries
  source : ∀ op, op ∈ u.entries ∨ op ∈ u.spent →
    (∃ id ∈ ids, op = .coinbase id) ∨
      ∃ tx ∈ done, ∃ i, i < 64 ∧ op = ⟨tx.txHash, UInt32.ofNat i⟩
  inputs : ∀ tx ∈ done, ∀ tin ∈ tx.inputs, tin.previous ∈ u.spent

theorem UtxoInv.empty : UtxoInv [] [] {} where
  disjoint op h := by simp at h
  source op h := by simp at h
  inputs tx h := by simp at h

theorem mem_created {tx : UtxoTx} {op : OutPoint} (hlen : tx.outputs.length ≤ 64)
    (h : op ∈ tx.created) : ∃ i, i < 64 ∧ op = ⟨tx.txHash, UInt32.ofNat i⟩ := by
  simp only [UtxoTx.created, createdOutpoints, List.mem_filterMap] at h
  obtain ⟨⟨out, i⟩, hmem, hop⟩ := h
  have hi : i < tx.outputs.length := by
    have := List.snd_lt_of_mem_zipIdx hmem
    simpa using this
  split at hop
  · cases hop
  · cases hop
    exact ⟨i, by omega, rfl⟩

omit [Crypto] in
theorem ofNat_inj_of_lt {i j : Nat} (hi : i < 64) (hj : j < 64)
    (h : UInt32.ofNat i = UInt32.ofNat j) : i = j := by
  have := congrArg UInt32.toNat h
  simp only [UInt32.toNat_ofNat'] at this
  omega

omit [Crypto] in
theorem coinbase_ne_ofNat {id txid : Hash} {i : Nat} (hi : i < 64) :
    OutPoint.coinbase id ≠ ⟨txid, UInt32.ofNat i⟩ := by
  intro h
  have hv : (0xffffffff : UInt32).toNat = (UInt32.ofNat i).toNat :=
    congrArg (fun op : OutPoint => op.vout.toNat) h
  have hmax : (0xffffffff : UInt32).toNat = 4294967295 := by decide
  rw [hmax, UInt32.toNat_ofNat'] at hv
  omega

/-- The outpoints one spend creates are pairwise distinct. -/
theorem nodup_created {tx : UtxoTx} (hlen : tx.outputs.length ≤ 64) : tx.created.Nodup := by
  have hidx : ∀ o ∈ tx.outputs.zipIdx, o.2 < 64 := by
    intro o ho
    have := List.snd_lt_of_mem_zipIdx ho
    omega
  have hnodup : (tx.outputs.zipIdx.map Prod.snd).Nodup := by
    rw [List.zipIdx_map_snd]
    exact List.nodup_range'
  rw [List.Nodup, List.pairwise_map] at hnodup
  refine List.Pairwise.filterMap _ ?_ (hnodup.imp_of_mem (S := fun o o' =>
    o.2 < 64 ∧ o'.2 < 64 ∧ o.2 ≠ o'.2) fun ha hb hne => ⟨hidx _ ha, hidx _ hb, hne⟩)
  rintro ⟨out, i⟩ ⟨out', i'⟩ ⟨hi, hi', hne⟩ op hop op' hop' rfl
  dsimp only at hop hop' hi hi' hne
  split at hop
  · cases hop
  · split at hop'
    · cases hop'
    · cases hop
      have := congrArg OutPoint.vout (Option.some.inj hop')
      exact hne (ofNat_inj_of_lt hi hi' this.symm)

/-- **Freshness.** A spend that passes its checks creates only outpoints that
were never seen, provided a spend with the same id has the same inputs. -/
theorem UtxoInv.fresh {done : List UtxoTx} {ids : List Hash} {u : UtxoSet} {tx : UtxoTx}
    {media : Nat} (hinv : UtxoInv done ids u) (hcheck : checkUtxoTx u tx media = .ok ())
    (hsame : ∀ tx' ∈ done, tx'.txHash = tx.txHash →
      tx'.inputs.map (·.previous) = tx.inputs.map (·.previous)) :
    ∀ op ∈ tx.created, op ∉ u.entries ∧ op ∉ u.spent := by
  obtain ⟨hform, hlive, -⟩ := checkUtxoTx_ok hcheck
  obtain ⟨hne, hlen, -, -⟩ := UtxoTx.validateForm_ok hform
  intro op hop
  obtain ⟨i, hi, rfl⟩ := mem_created hlen hop
  rw [← not_or]
  intro hseen
  rcases hinv.source _ hseen with ⟨id, -, heq⟩ | ⟨tx', htx', i', hi', heq⟩
  · exact coinbase_ne_ofNat hi heq.symm
  · -- an earlier spend has this id, so it spent this spend's first input
    have hid : tx'.txHash = tx.txHash := (congrArg OutPoint.txid heq).symm
    obtain ⟨tin, rest, hinputs⟩ := List.exists_cons_of_ne_nil hne
    have hmem : tin.previous ∈ tx'.inputs.map (·.previous) := by
      rw [hsame tx' htx' hid, hinputs]
      simp
    obtain ⟨tin', htin', hprev⟩ := List.mem_map.mp hmem
    have hspent := hinv.inputs tx' htx' tin' htin'
    rw [hprev] at hspent
    exact hinv.disjoint _ hspent (hlive tin (by rw [hinputs]; simp))

/-- What a spend that takes effect does. -/
structure UtxoSpend (u : UtxoSet) (accounts : Accounts) (tx : UtxoTx) (media : Nat)
    (u' : UtxoSet) (accounts' : Accounts) : Prop where
  checked : checkUtxoTx u tx media = .ok ()
  effects : UtxoEffect.applyAll (tx.effects media) u accounts = ((u', accounts'), .ok ())
  live : ∀ tin ∈ tx.inputs, tin.previous ∈ u.entries
  unspent : ∀ tin ∈ tx.inputs, tin.previous ∉ u.spent
  fresh : ∀ op ∈ tx.created, op ∉ u.entries ∧ op ∉ u.spent
  entries : ∀ op, op ∈ u'.entries ↔
    op ∈ u.entries ∧ op ∉ tx.inputs.map (·.previous) ∨ op ∈ tx.created
  spent : ∀ op, op ∈ u'.spent ↔ op ∈ u.spent ∨ op ∈ tx.inputs.map (·.previous)
  nonces : ∀ addr, (accounts'.entry addr).nonce = (accounts.entry addr).nonce
  value : u'.totalValue + Map.sumBy Account.balance accounts' + tx.fee
    = u.totalValue + Map.sumBy Account.balance accounts

/-- **What one spend can do**: fail without a trace, or perform all of its
mutations. -/
theorem applyUtxoTx_spec {done : List UtxoTx} {ids : List Hash} {u : UtxoSet}
    {accounts : Accounts} {tx : UtxoTx} (media : Nat) (hinv : UtxoInv done ids u)
    (hsame : ∀ tx' ∈ done, tx'.txHash = tx.txHash →
      tx'.inputs.map (·.previous) = tx.inputs.map (·.previous))
    (haddressed : tx.CreditsAddressed)
    (hbound : u.totalValue + Map.sumBy Account.balance accounts ≤ u128Max) :
    (∃ e, checkUtxoTx u tx media = .error e ∧
      applyUtxoTx u accounts tx media = ((u, accounts), .error e)) ∨
    ∃ u' accounts', applyUtxoTx u accounts tx media = ((u', accounts'), .ok tx.fee) ∧
      UtxoSpend u accounts tx media u' accounts' := by
  cases hcheck : checkUtxoTx u tx media with
  | error e => exact Or.inl ⟨e, rfl, by simp [applyUtxoTx, hcheck]⟩
  | ok checked =>
      cases checked
      obtain ⟨hform, hlive, hbalance⟩ := checkUtxoTx_ok hcheck
      obtain ⟨-, hlen, -, hnodup⟩ := UtxoTx.validateForm_ok hform
      have hfresh := hinv.fresh hcheck hsame
      have hunspent : ∀ tin ∈ tx.inputs, tin.previous ∉ u.spent :=
        fun tin htin hspent => hinv.disjoint _ hspent (hlive tin htin)
      have hlive' : ∀ op ∈ tx.inputs.map (·.previous), op ∈ u.entries := by
        simpa using hlive
      have hunspent' : ∀ op ∈ tx.inputs.map (·.previous), op ∉ u.spent := by
        simpa using hunspent
      obtain ⟨u₁, hrun₁, hentries₁, hspent₁, hvalue₁⟩ :=
        applyAll_spends accounts hnodup hlive' hunspent'
      rw [List.map_map] at hvalue₁
      have hsum : ((tx.inputs.map (·.previous)).map u.valueOf).sum
          = tx.fee + (tx.outputs.map TxOut.value).sum := by
        rw [List.map_map]
        exact hbalance
      have hout : (tx.outputs.zipIdx.map (·.1.value)).sum = (tx.outputs.map TxOut.value).sum := by
        have : tx.outputs.zipIdx.map (·.1.value) = (tx.outputs.zipIdx.map Prod.fst).map TxOut.value := by
          rw [List.map_map]
          rfl
        rw [this, List.zipIdx_map_fst]
      rw [List.map_map] at hsum
      have hbound₁ : Map.sumBy Account.balance accounts
          + (tx.outputs.zipIdx.map (·.1.value)).sum ≤ u128Max := by omega
      have hfresh₁ : ∀ op ∈ createdOutpoints tx.txHash tx.outputs.zipIdx,
          op ∉ u₁.entries ∧ op ∉ u₁.spent := by
        intro op hop
        obtain ⟨hnew, hnew'⟩ := hfresh op hop
        rw [hentries₁, hspent₁]
        exact ⟨fun h => hnew h.1, fun h => h.elim hnew' fun h => hnew (hlive' op h)⟩
      have haddressed' : ∀ o ∈ tx.outputs.zipIdx, o.1.predicate.isAccountCredit = true →
          o.1.predicate.lockedAddress.isSome :=
        fun o ho => haddressed o.1 (List.fst_mem_of_mem_zipIdx ho)
      obtain ⟨u', accounts', hrun₂, hentries₂, hspent₂, hnonce, hvalue₂⟩ :=
        applyAll_outputs media haddressed' hbound₁ (nodup_created hlen) hfresh₁
      have heffects : UtxoEffect.applyAll (tx.effects media) u accounts
          = ((u', accounts'), .ok ()) := by
        have hspends : tx.inputs.map (fun tin => UtxoEffect.spend tin.previous)
            = (tx.inputs.map (·.previous)).map UtxoEffect.spend := by
          rw [List.map_map]
          rfl
        rw [UtxoTx.effects, hspends, applyAll_append _ _ _ _ hrun₁]
        exact hrun₂
      refine Or.inr ⟨u', accounts', by simp [applyUtxoTx, hcheck, heffects], ?_⟩
      exact
        { checked := hcheck
          effects := heffects
          live := hlive
          unspent := hunspent
          fresh := hfresh
          entries := fun op => by
            rw [hentries₂, hentries₁]
            rfl
          spent := fun op => by rw [hspent₂, hspent₁]
          nonces := hnonce
          value := by omega }

/-- A spend that takes effect keeps the provenance invariant. -/
theorem UtxoInv.spend {done : List UtxoTx} {ids : List Hash} {u u' : UtxoSet}
    {accounts accounts' : Accounts} {tx : UtxoTx} {media : Nat} (hinv : UtxoInv done ids u)
    (h : UtxoSpend u accounts tx media u' accounts') : UtxoInv (tx :: done) ids u' where
  disjoint op hspent hentries := by
    rw [h.spent] at hspent
    rw [h.entries] at hentries
    rcases hentries with ⟨hold, hnot⟩ | hnew
    · rcases hspent with hspent | hin
      · exact hinv.disjoint op hspent hold
      · exact hnot hin
    · obtain ⟨hfresh, hfresh'⟩ := h.fresh op hnew
      rcases hspent with hspent | hin
      · exact hfresh' hspent
      · obtain ⟨tin, htin, rfl⟩ := List.mem_map.mp hin
        exact hfresh (h.live tin htin)
  source op hseen := by
    have hold : op ∈ u.entries ∨ op ∈ u.spent →
        (∃ id ∈ ids, op = .coinbase id) ∨
          ∃ tx' ∈ tx :: done, ∃ i, i < 64 ∧ op = ⟨tx'.txHash, UInt32.ofNat i⟩ := by
      intro hseen
      rcases hinv.source op hseen with hmint | ⟨tx', htx', hi⟩
      · exact Or.inl hmint
      · exact Or.inr ⟨tx', List.mem_cons_of_mem tx htx', hi⟩
    rw [h.entries, h.spent] at hseen
    rcases hseen with (⟨hentries, -⟩ | hnew) | hspent | hin
    · exact hold (Or.inl hentries)
    · obtain ⟨hform, -, -⟩ := checkUtxoTx_ok h.checked
      exact Or.inr ⟨tx, by simp, mem_created (UtxoTx.validateForm_ok hform).2.1 hnew⟩
    · exact hold (Or.inr hspent)
    · obtain ⟨tin, htin, rfl⟩ := List.mem_map.mp hin
      exact hold (Or.inl (h.live tin htin))
  inputs tx' htx' tin htin := by
    rw [h.spent]
    rcases List.mem_cons.mp htx' with rfl | htx'
    · exact Or.inr (List.mem_map.mpr ⟨tin, htin, rfl⟩)
    · exact Or.inl (hinv.inputs tx' htx' tin htin)

theorem UtxoInv.cons_id {done : List UtxoTx} {ids : List Hash} {u : UtxoSet} (id : Hash)
    (hinv : UtxoInv done ids u) : UtxoInv done (id :: ids) u where
  disjoint := hinv.disjoint
  source op hop := by
    rcases hinv.source op hop with ⟨id', hid', heq⟩ | hspend
    · exact Or.inl ⟨id', List.mem_cons_of_mem id hid', heq⟩
    · exact Or.inr hspend
  inputs := hinv.inputs

/-- A mint under a new id keeps the provenance invariant, and its outpoint was
never seen. -/
theorem UtxoInv.mint {done : List UtxoTx} {ids : List Hash} {u : UtxoSet} {id : Hash}
    (hinv : UtxoInv done ids u) (hnew : id ∉ ids) (out : TxOut) :
    (.coinbase id ∉ u.entries ∧ .coinbase id ∉ u.spent) ∧
      UtxoInv done (id :: ids) (u.insert (.coinbase id) out) := by
  have hfresh : ¬ (.coinbase id ∈ u.entries ∨ .coinbase id ∈ u.spent) := by
    intro hseen
    rcases hinv.source _ hseen with ⟨id', hid', heq⟩ | ⟨tx, -, i, hi, heq⟩
    · have hid : id = id' := congrArg OutPoint.txid heq
      exact hnew (hid ▸ hid')
    · exact coinbase_ne_ofNat hi heq
  rw [not_or] at hfresh
  have hentries : ∀ op, op ∈ (u.insert (.coinbase id) out).entries ↔
      .coinbase id = op ∨ op ∈ u.entries := by
    intro op
    simp [UtxoSet.insert, ExtTreeMap.mem_insert]
  have hspent : ∀ op, op ∈ (u.insert (.coinbase id) out).spent ↔ op ∈ u.spent := by
    intro op
    simp only [UtxoSet.insert, ExtTreeSet.mem_erase, ne_eq, Std.LawfulEqCmp.compare_eq_iff_eq]
    exact ⟨fun h => h.2, fun h => ⟨fun heq => hfresh.2 (heq ▸ h), h⟩⟩
  refine ⟨hfresh, ?_, ?_, ?_⟩
  · intro op hop hmem
    rw [hspent] at hop
    rcases (hentries op).mp hmem with rfl | hmem
    · exact hfresh.2 hop
    · exact hinv.disjoint op hop hmem
  · intro op hseen
    rw [hentries, hspent, or_assoc] at hseen
    rcases hseen with rfl | hseen
    · exact Or.inl ⟨id, by simp, rfl⟩
    · rcases hinv.source op hseen with ⟨id', hid', heq⟩ | hspend
      · exact Or.inl ⟨id', List.mem_cons_of_mem id hid', heq⟩
      · exact Or.inr hspend
  · intro tx htx tin htin
    rw [hspent]
    exact hinv.inputs tx htx tin htin

end Provenance

end HassanNode
