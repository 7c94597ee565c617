import Mathlib
import HassanNode.Ledger.ReplaySound

/-!
# HassanNode.Ledger.Executors

The two executors of a body agree where the strict one succeeds: a block that
was admitted has, when it is replayed on the same ledger, the effect its
admission computed. And every spend of an admitted body names the accounts it
credits, whatever ledger it is replayed on.
-/

namespace HassanNode

open Params

namespace Ledger

variable [Crypto]

/-- Admission runs the same operation, and only rejects more. -/
theorem applyItem_of_admitItem {ctx : ItemCtx} {s t : Ledger × Nat} {item : BodyItem}
    (h : admitItem ctx s item = (t, .ok ())) : applyItem ctx s item = (t, .ok ()) := by
  have hmap : ∀ {r : (Ledger × Nat) × Except String Unit} {f : String → String},
      (r.1, r.2.mapError f) = (t, .ok ()) → r = (t, .ok ()) := by
    rintro ⟨r, e⟩ f h
    obtain ⟨hr, he⟩ := Prod.mk.inj h
    cases e with
    | error e => cases he
    | ok u => rw [← hr]
  cases item with
  | transparent tx => exact hmap h
  | utxo tx =>
      simp only [admitItem] at h
      split at h
      · cases (Prod.mk.inj h).2
      · exact hmap h
  | registry op => exact hmap h
  | custody op => exact hmap h

theorem strictEach_of_simulate {l l' : Ledger} {chainId tipScore score fees : Nat} {b : Block}
    (h : l.simulateApplyBlockBody chainId tipScore score b = .ok (l', fees)) :
    strictEach (applyItem (itemCtx chainId tipScore score b)) (l, 0) b.items = .ok (l', fees) :=
  strictEach_imp (fun _ _ _ => applyItem_of_admitItem) h

/-- **Strict admission and skipping replay agree** on the ledger the block was
admitted on. -/
theorem applyBlockEffects_of_simulate {l l' : Ledger} {chainId tipScore score fees : Nat} {b : Block}
    (hparents : b.parents ≠ [])
    (h : l.simulateApplyBlockBody chainId tipScore score b = .ok (l', fees)) :
    l.applyBlockEffects chainId tipScore (some score) b = l'.applyBlockReward b score fees := by
  have hskip := skipEach_of_strictEach (strictEach_of_simulate h)
  simp only [applyBlockEffects, if_neg hparents, Option.getD_some, hskip]

omit [Crypto] in
/-- Mutations that all succeed succeed one by one. -/
theorem applyAll_ok {es : List UtxoEffect} {u : UtxoSet} {accounts : Accounts}
    {st : UtxoSet × Accounts} (h : UtxoEffect.applyAll es u accounts = (st, .ok ())) :
    ∀ e ∈ es, ∃ u' accounts' st', e.apply u' accounts' = .ok st' := by
  induction es generalizing u accounts with
  | nil => simp
  | cons e es ih =>
      simp only [UtxoEffect.applyAll] at h
      split at h
      · rename_i u' accounts' he
        intro e' he'
        rcases List.mem_cons.mp he' with rfl | he'
        · exact ⟨u, accounts, _, he⟩
        · exact ih h e' he'
      · cases (Prod.mk.inj h).2

/-- A spend that applied once is well formed and names the accounts it credits. -/
theorem formed_of_ok {u : UtxoSet} {accounts : Accounts} {tx : UtxoTx} {media fee : Nat}
    (h : (applyUtxoTx u accounts tx media).2 = .ok fee) :
    tx.validateForm = .ok () ∧ tx.CreditsAddressed := by
  unfold applyUtxoTx at h
  split at h
  · cases h
  · rename_i hchecked
    refine ⟨(checkUtxoTx_ok hchecked).1, ?_⟩
    split at h
    · rename_i hall
      intro out hout hcredit
      obtain ⟨i, hi, rfl⟩ := List.mem_iff_getElem.mp hout
      have hzip : (tx.outputs[i], i) ∈ tx.outputs.zipIdx := List.mem_zipIdx_iff_getElem?.mpr (by simp)
      have heffect : UtxoEffect.credit tx.outputs[i].predicate.lockedAddress tx.outputs[i].value
          ∈ tx.effects media := by
        refine List.mem_append_right _ (List.mem_map.mpr ⟨_, hzip, ?_⟩)
        simp [outputEffect, hcredit]
      obtain ⟨u', accounts', st', happly⟩ := applyAll_ok hall _ heffect
      cases hlocked : tx.outputs[i].predicate.lockedAddress with
      | none =>
          rw [hlocked] at happly
          cases happly
      | some addr => rfl
    · cases h

/-- So is every spend of an admitted body. -/
theorem formed_of_simulate {l l' : Ledger} {chainId tipScore score fees : Nat} {b : Block}
    (h : l.simulateApplyBlockBody chainId tipScore score b = .ok (l', fees)) :
    ∀ tx ∈ b.utxoTxs, tx.validateForm = .ok () ∧ tx.CreditsAddressed := by
  intro tx htx
  obtain ⟨t, ht⟩ := ok_of_strictEach (strictEach_of_simulate h) (.utxo tx) (Block.mem_items_utxo.mpr htx)
  simp only [applyItem] at ht
  split at ht
  · rename_i fee hrun
    exact formed_of_ok (by rw [hrun])
  · cases ht

/-! ### Minted supply -/

/-- No operation of a body touches the minted supply. -/
theorem applyItem_mintedSupply (ctx : ItemCtx) (s : Ledger × Nat) (item : BodyItem) :
    (applyItem ctx s item).1.1.mintedSupply = s.1.mintedSupply := by
  cases item with
  | transparent tx => rfl
  | utxo tx =>
      simp only [applyItem]
      split <;> rfl
  | registry op => rfl
  | custody op =>
      simp only [applyItem]
      split
      · rename_i l hl
        obtain ⟨-, balance, stake, rfl, -⟩ := applyCustodyOp_ok hl
        rfl
      · rfl

/-- A block mints its subsidy, up to the cap, whatever its body does. -/
theorem mintedSupply_applyBlockEffects (l : Ledger) (chainId tipScore score : Nat) {b : Block}
    (hne : b.parents ≠ []) (hcap : l.mintedSupply ≤ maxSupply) :
    (l.applyBlockEffects chainId tipScore (some score) b).mintedSupply
      = min (l.mintedSupply + blockSubsidy score) maxSupply := by
  have hbody : (skipEach (applyItem (itemCtx chainId tipScore score b)) (l, 0) b.items).1.mintedSupply
      = l.mintedSupply :=
    skipEach_induction (fun s : Ledger × Nat => s.1.mintedSupply = l.mintedSupply) rfl
      fun item _ s hs => (applyItem_mintedSupply _ s item).trans hs
  have hsmall : maxSupply ≤ u128Max := by decide
  simp only [applyBlockEffects, if_neg hne, Option.getD_some, applyBlockReward, hbody]
  generalize hsub : min (blockSubsidy score) (maxSupply - l.mintedSupply) = subsidy
  have htotal : l.mintedSupply + subsidy = min (l.mintedSupply + blockSubsidy score) maxSupply := by
    omega
  split
  · rename_i hzero
    have hz : subsidy = 0 := by
      simp only [satAdd128] at hzero
      have : (0:Nat) < u128Max := by decide
      omega
    rw [hbody, ← htotal, hz, Nat.add_zero]
  · simp only
    split
    · rw [satAdd128_eq (by omega), htotal]
    · omega

/-! ### Inside a replay -/

/-- A moment of a replay: between two blocks, or between two operations of a
block, with the fees collected in it. -/
inductive ReplayPoint (chainId : Nat) (l : Ledger) (bs : List (Block × Nat)) : Ledger × Nat → Prop
  | between (done rest : List (Block × Nat)) (h : bs = done ++ rest) :
      ReplayPoint chainId l bs (l.replay chainId done, 0)
  | inside (done rest : List (Block × Nat)) (p : Block × Nat) (items later : List BodyItem)
      (h : bs = done ++ p :: rest) (hitems : p.1.items = items ++ later) :
      ReplayPoint chainId l bs
        (skipEach (applyItem (itemCtx chainId 0 p.2 p.1)) (l.replay chainId done, 0) items)

/-- The replay invariant holds all along a replay. -/
theorem ReplayPoint.inv {P : UtxoTx → Prop} (hP : GoodTxs P) {ids : List Hash} {l : Ledger}
    {chainId : Nat} {bs : List (Block × Nat)} {s : Ledger × Nat} (hs : ReplayPoint chainId l bs s)
    (hinv : ReplayInv P ids l 0) (htxs : ∀ p ∈ bs, ∀ tx ∈ p.1.utxoTxs, P tx)
    (hnodup : (bs.map (·.1.coinbaseTxid)).Nodup) (hnew : ∀ p ∈ bs, p.1.coinbaseTxid ∉ ids) :
    ∃ ids' es, ReplayInv P ids' s.1 s.2 ∧ OneShot.View.Run u64Max l.view es s.1.view := by
  have hprefix : ∀ done rest, bs = done ++ rest →
      (∃ ids', ReplayInv P ids' (l.replay chainId done) 0) ∧
        OneShot.View.Run u64Max l.view (l.replayEvents chainId done) (l.replay chainId done).view := by
    rintro done rest rfl
    rw [List.map_append] at hnodup
    exact hinv.replay hP chainId (fun p hp => htxs p (List.mem_append_left _ hp))
      hnodup.of_append_left fun p hp => hnew p (List.mem_append_left _ hp)
  cases hs with
  | between done rest h =>
      obtain ⟨⟨ids', hids⟩, hrun⟩ := hprefix done rest h
      exact ⟨ids', _, hids, hrun⟩
  | inside done rest p items later h hitems =>
      obtain ⟨⟨ids', hids⟩, hrun⟩ := hprefix done (p :: rest) h
      have hmem : ∀ tx, .utxo tx ∈ items → P tx := by
        intro tx htx
        refine htxs p (by simp [h]) tx (Block.mem_items_utxo.mp ?_)
        rw [hitems]
        exact List.mem_append_left _ htx
      obtain ⟨hbody, hbodyRun⟩ := ReplayInv.body hP (itemCtx chainId 0 p.2 p.1)
        (s := (l.replay chainId done, 0)) items hids hmem
      exact ⟨ids', _, hbody, hrun.append hbodyRun⟩

end Ledger

end HassanNode
