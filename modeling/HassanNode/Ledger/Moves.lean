import Mathlib
import HassanNode.Ledger.Executors
import HassanNode.Ledger.Malleation

/-!
# HassanNode.Ledger.Moves

What a replay can do to single outpoints, whatever it skips. Live outputs are there
already or are created, and leave only when they are spent; marks come from spends,
and only a creation lifts one (`UtxoSet.Moves`). That is so of every mutation, also
when a spend fails in the middle, and it composes, so it is so of whole replays
(`Ledger.replay_moves`).

A body that was admitted does more: each of its spends takes effect, so what it
creates is there afterwards, unless another spend of the body takes it
(`Ledger.simulated_free`).
-/

namespace HassanNode

open Std (ExtTreeMap ExtTreeSet)
open Params

namespace UtxoSet

variable {S S' C C' : OutPoint → Prop} {u v w : UtxoSet} {op : OutPoint}

/-- Live and not marked spent. -/
def Free (u : UtxoSet) (op : OutPoint) : Prop := op ∈ u.entries ∧ op ∉ u.spent

/-- The set has seen an output under this id. -/
def Known (u : UtxoSet) (txid : Hash) : Prop :=
  ∃ op : OutPoint, op.txid = txid ∧ (op ∈ u.entries ∨ op ∈ u.spent)

/-- From one set to another by spends of some outpoints and creations of some. -/
structure Moves (S C : OutPoint → Prop) (u v : UtxoSet) : Prop where
  entries_of : ∀ op ∈ v.entries, op ∈ u.entries ∨ C op
  entries_keep : ∀ op ∈ u.entries, op ∈ v.entries ∨ S op ∧ op ∈ v.spent
  spent_of : ∀ op ∈ v.spent, op ∈ u.spent ∨ S op ∧ (op ∈ u.entries ∨ C op)
  spent_keep : ∀ op ∈ u.spent, op ∈ v.spent ∨ C op ∧ op ∈ v.entries

namespace Moves

theorem refl (u : UtxoSet) : Moves S C u u where
  entries_of _ h := Or.inl h
  entries_keep _ h := Or.inl h
  spent_of _ h := Or.inl h
  spent_keep _ h := Or.inl h

theorem trans (h : Moves S C u v) (h' : Moves S C v w) : Moves S C u w where
  entries_of op hop := (h'.entries_of op hop).elim (h.entries_of op) Or.inr
  entries_keep op hop := by
    rcases h.entries_keep op hop with hv | ⟨hs, hv⟩
    · exact h'.entries_keep op hv
    · exact (h'.spent_keep op hv).elim (fun hw => Or.inr ⟨hs, hw⟩) fun hw => Or.inl hw.2
  spent_of op hop := by
    rcases h'.spent_of op hop with hv | ⟨hs, hv | hc⟩
    · exact h.spent_of op hv
    · exact Or.inr ⟨hs, h.entries_of op hv⟩
    · exact Or.inr ⟨hs, Or.inr hc⟩
  spent_keep op hop := by
    rcases h.spent_keep op hop with hv | ⟨hc, hv⟩
    · exact h'.spent_keep op hv
    · exact (h'.entries_keep op hv).elim (fun hw => Or.inr ⟨hc, hw⟩) fun hw => Or.inl hw.2

theorem mono (h : Moves S C u v) (hs : ∀ op, S op → S' op) (hc : ∀ op, C op → C' op) : Moves S' C' u v where
  entries_of op hop := (h.entries_of op hop).imp id (hc op)
  entries_keep op hop := (h.entries_keep op hop).imp id fun hw => ⟨hs op hw.1, hw.2⟩
  spent_of op hop := (h.spent_of op hop).imp id fun hw => ⟨hs op hw.1, hw.2.imp id (hc op)⟩
  spent_keep op hop := (h.spent_keep op hop).imp id fun hw => ⟨hc op hw.1, hw.2⟩

/-- What is free stays free unless it is spent. -/
theorem free (h : Moves S C u v) (hop : u.Free op) (hs : ¬ S op) : v.Free op :=
  ⟨(h.entries_keep op hop.1).resolve_right fun hw => hs hw.1,
    fun hin => (h.spent_of op hin).elim hop.2 fun hw => hs hw.1⟩

/-- What is free was free unless it was created. -/
theorem free_of (h : Moves S C u v) (hop : v.Free op) (hc : ¬ C op) : u.Free op :=
  ⟨(h.entries_of op hop.1).resolve_right hc,
    fun hin => (h.spent_keep op hin).elim hop.2 fun hw => hc hw.1⟩

/-- What was seen stays known. -/
theorem known {txid : Hash} (h : Moves S C u v) (hknown : u.Known txid) : v.Known txid := by
  obtain ⟨op, hop, hseen | hseen⟩ := hknown
  · exact ⟨op, hop, (h.entries_keep op hseen).imp id And.right⟩
  · exact ⟨op, hop, (h.spent_keep op hseen).elim Or.inr fun hw => Or.inl hw.2⟩

/-- What is known was known or was created. -/
theorem known_of {txid : Hash} (h : Moves S C u v) (hknown : v.Known txid) :
    u.Known txid ∨ ∃ op, C op ∧ op.txid = txid := by
  obtain ⟨op, hop, hseen | hseen⟩ := hknown
  · exact (h.entries_of op hseen).imp (fun hu => ⟨op, hop, Or.inl hu⟩) fun hc => ⟨op, hc, hop⟩
  · rcases h.spent_of op hseen with hu | ⟨-, hu | hc⟩
    · exact Or.inl ⟨op, hop, Or.inr hu⟩
    · exact Or.inl ⟨op, hop, Or.inl hu⟩
    · exact Or.inr ⟨op, hc, hop⟩

end Moves

end UtxoSet

/-! ### One spend -/

section Effects

variable {e : UtxoEffect} {es : List UtxoEffect} {u u' : UtxoSet} {accounts accounts' : Accounts}

/-- A mutation moves what it names. -/
theorem UtxoEffect.apply_moves (h : e.apply u accounts = .ok (u', accounts')) :
    u.Moves (fun op => e = .spend op) (fun op => ∃ out, e = .create op out) u' := by
  cases e with
  | spend o =>
      obtain ⟨u₁, hspend, heq⟩ := Except.bind_eq_ok h
      cases heq
      unfold UtxoSet.spend at hspend
      split at hspend
      · cases hspend
      · rename_i hfree
        split at hspend
        · cases hspend
        · rename_i hlive
          cases hspend
          have hmem : o ∈ u.entries := by
            rw [← ExtTreeMap.isSome_getElem?_iff_mem]
            simpa using hlive
          refine ⟨fun op hop => ?_, fun op hop => ?_, fun op hop => ?_, fun op hop => ?_⟩
          · exact Or.inl (ExtTreeMap.mem_erase.mp hop).2
          · by_cases heq : o = op
            · exact Or.inr ⟨by rw [heq], ExtTreeSet.mem_insert.mpr (Or.inl (by simp [heq]))⟩
            · exact Or.inl (ExtTreeMap.mem_erase.mpr ⟨by simpa using heq, hop⟩)
          · rcases ExtTreeSet.mem_insert.mp hop with heq | hold
            · obtain rfl := Std.LawfulEqCmp.compare_eq_iff_eq.mp heq
              exact Or.inr ⟨rfl, Or.inl hmem⟩
            · exact Or.inl hold
          · exact Or.inl (ExtTreeSet.mem_insert.mpr (Or.inr hop))
  | credit addr value =>
      cases addr with
      | none => cases h
      | some addr =>
          simp only [apply] at h
          split at h
          · cases h
          · cases h
            exact .refl u
  | create o out =>
      cases h
      refine ⟨fun op hop => ?_, fun op hop => ?_, fun op hop => ?_, fun op hop => ?_⟩
      · rcases ExtTreeMap.mem_insert.mp hop with heq | hold
        · obtain rfl := Std.LawfulEqCmp.compare_eq_iff_eq.mp heq
          exact Or.inr ⟨out, rfl⟩
        · exact Or.inl hold
      · exact Or.inl (ExtTreeMap.mem_insert.mpr (Or.inr hop))
      · exact Or.inl (ExtTreeSet.mem_erase.mp hop).2
      · by_cases heq : o = op
        · exact Or.inr ⟨⟨out, by rw [heq]⟩, ExtTreeMap.mem_insert.mpr (Or.inl (by simp [heq]))⟩
        · exact Or.inl (ExtTreeSet.mem_erase.mpr ⟨by simpa using heq, hop⟩)

/-- So do mutations up to the first that fails. -/
theorem UtxoEffect.applyAll_moves : u.Moves (fun op => .spend op ∈ es)
    (fun op => ∃ out, .create op out ∈ es) (UtxoEffect.applyAll es u accounts).1.1 := by
  induction es generalizing u accounts with
  | nil => exact .refl u
  | cons e es ih =>
      simp only [UtxoEffect.applyAll]
      split
      · rename_i u₁ accounts₁ he
        have hfirst : u.Moves (fun op => .spend op ∈ e :: es) (fun op => ∃ out, .create op out ∈ e :: es) u₁ := by
          refine (UtxoEffect.apply_moves he).mono (fun op h => h ▸ List.mem_cons_self) fun op h => ?_
          obtain ⟨out, h⟩ := h
          exact ⟨out, h ▸ List.mem_cons_self⟩
        exact hfirst.trans ((@ih u₁ accounts₁).mono (fun op h => List.mem_cons_of_mem e h)
          fun op h => h.imp fun out hout => List.mem_cons_of_mem e hout)
      · exact .refl u

end Effects

section Spend

variable [Crypto] {u : UtxoSet} {accounts : Accounts} {tx : UtxoTx} {media : Nat}

/-- The spend takes the outpoint. -/
def UtxoTx.Takes (tx : UtxoTx) (op : OutPoint) : Prop := op ∈ tx.inputs.map (·.previous)

/-- The new outpoints of a spend are those of its outputs that are no credits. -/
theorem UtxoTx.mem_created_iff {op : OutPoint} :
    op ∈ tx.created ↔ ∃ o, Created tx.outputs.zipIdx o ∧ op = ⟨tx.txHash, UInt32.ofNat o.2⟩ := by
  rw [UtxoTx.created, createdOutpoints, List.mem_filterMap]
  constructor
  · intro h
    obtain ⟨⟨out, i⟩, ho, heq⟩ := h
    by_cases hcredit : out.predicate.isAccountCredit = true
    · simp only [hcredit, if_true] at heq
      cases heq
    · simp only [hcredit] at heq
      exact ⟨(out, i), ⟨ho, by simpa using hcredit⟩, (Option.some.inj heq).symm⟩
  · intro h
    obtain ⟨⟨out, i⟩, ⟨ho, hplain⟩, rfl⟩ := h
    exact ⟨(out, i), ho, by simp [hplain]⟩

theorem UtxoTx.txid_of_mem_created {op : OutPoint} (h : op ∈ tx.created) : op.txid = tx.txHash := by
  obtain ⟨o, -, rfl⟩ := UtxoTx.mem_created_iff.mp h
  rfl

/-- No spend creates what a block mints. -/
theorem UtxoTx.coinbase_not_created (hform : tx.validateForm = .ok ()) (id : Hash) :
    OutPoint.coinbase id ∉ tx.created := by
  intro h
  obtain ⟨o, ⟨ho, -⟩, heq⟩ := UtxoTx.mem_created_iff.mp h
  have hlt := List.snd_lt_of_mem_zipIdx ho
  have hlen := (UtxoTx.validateForm_ok hform).2.1
  have hvout : (0xffffffff : UInt32).toNat = (UInt32.ofNat o.2).toNat :=
    congrArg (fun op : OutPoint => op.vout.toNat) heq
  rw [UInt32.toNat_ofNat'] at hvout
  have htop : (0xffffffff : UInt32).toNat = 4294967295 := rfl
  omega

theorem UtxoTx.mem_created_of_effect {op : OutPoint} {out : TxOut}
    (h : UtxoEffect.create op out ∈ tx.effects media) : op ∈ tx.created := by
  rcases List.mem_append.mp h with h | h
  · obtain ⟨tin, -, heq⟩ := List.mem_map.mp h
    cases heq
  · obtain ⟨⟨o, i⟩, ho, heq⟩ := List.mem_map.mp h
    simp only [outputEffect] at heq
    split at heq
    · cases heq
    · rename_i hplain
      cases heq
      exact UtxoTx.mem_created_iff.mpr ⟨(o, i), ⟨ho, by simpa using hplain⟩, rfl⟩

/-- A spend moves its inputs and its outputs, even when it fails half way. -/
theorem applyUtxoTx_moves : u.Moves tx.Takes (· ∈ tx.created) (applyUtxoTx u accounts tx media).1.1 := by
  have hrun : u.Moves tx.Takes (· ∈ tx.created) (UtxoEffect.applyAll (tx.effects media) u accounts).1.1 := by
    refine UtxoEffect.applyAll_moves.mono (fun op hop => ?_) fun op hop => ?_
    · rcases List.mem_append.mp hop with hop | hop
      · obtain ⟨tin, htin, heq⟩ := List.mem_map.mp hop
        cases heq
        exact List.mem_map_of_mem htin
      · obtain ⟨⟨out, i⟩, -, heq⟩ := List.mem_map.mp hop
        simp only [outputEffect] at heq
        split at heq <;> cases heq
    · obtain ⟨out, hout⟩ := hop
      exact UtxoTx.mem_created_of_effect hout
  unfold applyUtxoTx
  split
  · exact .refl u
  · split
    · rename_i heq
      rwa [heq] at hrun
    · rename_i heq
      rwa [heq] at hrun

omit [Crypto] in
/-- The input loop takes outpoints that are not marked spent. -/
theorem spends_unspent {ops : List OutPoint} {u : UtxoSet} {accounts : Accounts} {s : UtxoSet × Accounts}
    (h : UtxoEffect.applyAll (ops.map .spend) u accounts = (s, .ok ())) : ∀ op ∈ ops, op ∉ u.spent := by
  induction ops generalizing u with
  | nil => simp
  | cons o ops ih =>
      simp only [List.map_cons, UtxoEffect.applyAll] at h
      split at h
      · rename_i u₁ accounts₁ he
        obtain ⟨u₂, hspend, heq⟩ := Except.bind_eq_ok he
        cases heq
        have hrest := ih h
        unfold UtxoSet.spend at hspend
        split at hspend
        · cases hspend
        · rename_i hunspent
          split at hspend
          · cases hspend
          · cases hspend
            refine List.forall_mem_cons.mpr ⟨hunspent, fun op hop hin => hrest op hop ?_⟩
            exact ExtTreeSet.mem_insert.mpr (Or.inr hin)
      · cases (Prod.mk.inj h).2

/-- A spend that applies takes live outputs that are not marked spent. -/
theorem applied_inputs {fee : Nat} {s : UtxoSet × Accounts} (h : applyUtxoTx u accounts tx media = (s, .ok fee)) :
    ∀ tin ∈ tx.inputs, tin.previous ∈ u.entries ∧ tin.previous ∉ u.spent := by
  unfold applyUtxoTx at h
  split at h
  · cases (Prod.mk.inj h).2
  · rename_i hcheck
    split at h
    · rename_i s' hrun
      rw [UtxoTx.effects] at hrun
      obtain ⟨u₁, accounts₁, hspends, -⟩ := applyAll_append_ok hrun
      have hmap : tx.inputs.map (fun tin => UtxoEffect.spend tin.previous)
          = (tx.inputs.map (·.previous)).map UtxoEffect.spend := by
        rw [List.map_map]
        rfl
      rw [hmap] at hspends
      intro tin htin
      exact ⟨(checkUtxoTx_ok hcheck).2.1 tin htin,
        spends_unspent hspends _ (List.mem_map_of_mem htin)⟩
    · cases (Prod.mk.inj h).2

/-- A spend that applies moves its inputs and its outputs. -/
theorem applied_moves {fee : Nat} {s : UtxoSet × Accounts} (h : applyUtxoTx u accounts tx media = (s, .ok fee)) :
    u.Moves tx.Takes (· ∈ tx.created) s.1 := by
  have hmoves := @applyUtxoTx_moves _ u accounts tx media
  rwa [h] at hmoves

/-- A spend that applies leaves its outputs free. -/
theorem applied_created {fee : Nat} {s : UtxoSet × Accounts} {op : OutPoint}
    (h : applyUtxoTx u accounts tx media = (s, .ok fee)) (hop : op ∈ tx.created) : s.1.Free op := by
  obtain ⟨hlen, u₁, -, -, hrun⟩ := UtxoTx.applied_split h
  obtain ⟨o, ho, rfl⟩ := UtxoTx.mem_created_iff.mp hop
  have hnodup : (tx.outputs.zipIdx.map Prod.snd).Nodup := by
    rw [List.zipIdx_map_snd]
    exact List.nodup_range'
  have hidx : ∀ o ∈ tx.outputs.zipIdx, o.2 < 64 := by
    intro o ho
    have hlt := List.snd_lt_of_mem_zipIdx ho
    omega
  have hheld := @createOutputs_holds u₁ tx.txHash media _ hnodup hidx o ho
  rw [outputs_set hrun]
  exact ⟨ExtTreeMap.isSome_getElem?_iff_mem.mp (by rw [hheld.live]; rfl), hheld.unspent⟩

/-- What a spend takes is spent, unless it is an output of its own. -/
theorem applied_taken {fee : Nat} {s : UtxoSet × Accounts} {op : OutPoint}
    (h : applyUtxoTx u accounts tx media = (s, .ok fee)) (hop : tx.Takes op) (hother : op ∉ tx.created) :
    op ∈ s.1.spent := by
  obtain ⟨-, u₁, -, hspent, hrun⟩ := UtxoTx.applied_split h
  have hkept := @createOutputs_agree u₁ tx.txHash media tx.outputs.zipIdx op fun o ho heq =>
    hother (UtxoTx.mem_created_iff.mpr ⟨o, ho, heq.symm⟩)
  rw [outputs_set hrun, hkept.spent, hspent]
  exact Or.inr hop

end Spend

/-! ### Blocks -/

section Blocks

variable [Crypto] {b : Block} {chainId : Nat}

/-- A spend of the body takes the outpoint. -/
def Block.Takes (b : Block) (op : OutPoint) : Prop := ∃ tx ∈ b.utxoTxs, tx.Takes op

/-- A spend of the body creates the outpoint, or the block mints it. -/
def Block.Creates (b : Block) (op : OutPoint) : Prop :=
  (∃ tx ∈ b.utxoTxs, op ∈ tx.created) ∨ b.parents ≠ [] ∧ op = .coinbase b.coinbaseTxid

namespace Ledger

theorem applyItem_moves (ctx : ItemCtx) (s : Ledger × Nat) {item : BodyItem} (hitem : item ∈ b.items) :
    s.1.utxo.Moves b.Takes b.Creates (applyItem ctx s item).1.1.utxo := by
  cases item with
  | transparent tx => exact .refl _
  | utxo tx =>
      have htx := Block.mem_items_utxo.mp hitem
      have hmoves : s.1.utxo.Moves b.Takes b.Creates
          (applyUtxoTx s.1.utxo s.1.accounts tx ctx.mediaBlue).1.1 :=
        applyUtxoTx_moves.mono (fun _ h => ⟨tx, htx, h⟩) fun _ h => Or.inl ⟨tx, htx, h⟩
      simp only [applyItem]
      split
      · rename_i heq
        rwa [heq] at hmoves
      · rename_i heq
        rwa [heq] at hmoves
  | registry op => exact .refl _
  | custody op =>
      simp only [applyItem]
      split
      · rename_i l' hop
        obtain ⟨-, balance, stake, rfl, -⟩ := applyCustodyOp_ok hop
        exact .refl _
      · exact .refl _

theorem skipEach_moves (ctx : ItemCtx) (s : Ledger × Nat) {items : List BodyItem}
    (hitems : ∀ item ∈ items, item ∈ b.items) :
    s.1.utxo.Moves b.Takes b.Creates (skipEach (applyItem ctx) s items).1.utxo :=
  skipEach_induction (fun t : Ledger × Nat => s.1.utxo.Moves b.Takes b.Creates t.1.utxo) (.refl _)
    fun item hitem t ht => ht.trans (applyItem_moves ctx t (hitems item hitem))

theorem applyBlockReward_moves (l : Ledger) (hparents : b.parents ≠ []) (score fees : Nat) :
    l.utxo.Moves b.Takes b.Creates (l.applyBlockReward b score fees).utxo := by
  simp only [applyBlockReward]
  split
  · exact .refl _
  · refine ((@UtxoEffect.apply_moves (.create (.coinbase b.coinbaseTxid) _) _ _ ∅ _ rfl).mono
      (fun op h => by cases h) fun op h => ?_)
    obtain ⟨out, hout⟩ := h
    cases hout
    exact Or.inr ⟨hparents, rfl⟩

/-- **A block moves what its body spends and creates, and what it mints.** -/
theorem applyBlockEffects_moves (l : Ledger) (tipScore : Nat) (score : Option Nat) (b : Block) :
    l.utxo.Moves b.Takes b.Creates (l.applyBlockEffects chainId tipScore score b).utxo := by
  unfold applyBlockEffects
  split
  · exact .refl _
  · rename_i hparents
    exact (skipEach_moves _ (l, 0) fun _ h => h).trans (applyBlockReward_moves _ hparents _ _)

/-- **A replay moves what its blocks do.** -/
theorem replay_moves (l : Ledger) (bs : List (Block × Nat)) :
    l.utxo.Moves (fun op => ∃ p ∈ bs, p.1.Takes op) (fun op => ∃ p ∈ bs, p.1.Creates op)
      (l.replay chainId bs).utxo := by
  induction bs generalizing l with
  | nil => exact .refl _
  | cons p bs ih =>
      rw [replay, List.foldl_cons]
      refine ((applyBlockEffects_moves l 0 (some p.2) p.1).mono (fun op h => ⟨p, List.mem_cons_self, h⟩)
        fun op h => ⟨p, List.mem_cons_self, h⟩).trans ((ih _).mono (fun op h => ?_) fun op h => ?_)
      · obtain ⟨q, hq, htakes⟩ := h
        exact ⟨q, List.mem_cons_of_mem p hq, htakes⟩
      · obtain ⟨q, hq, hcreates⟩ := h
        exact ⟨q, List.mem_cons_of_mem p hq, hcreates⟩

/-- **An admitted body takes effect**: what one of its spends creates is free after
the block, unless a spend of the body takes it. -/
theorem simulated_free {l l' : Ledger} {tipScore score fees : Nat} (hparents : b.parents ≠ [])
    (h : l.simulateApplyBlockBody chainId tipScore score b = .ok (l', fees)) {tx : UtxoTx}
    (htx : tx ∈ b.utxoTxs) {op : OutPoint} (hop : op ∈ tx.created) (hother : ¬ b.Takes op) :
    (l'.applyBlockReward b score fees).utxo.Free op := by
  obtain ⟨t, t', rest, hstep, hrest, hrun⟩ :=
    strictEach_split (strictEach_of_simulate h) (Block.mem_items_utxo.mpr htx)
  have hcreated : t'.1.utxo.Free op := by
    simp only [applyItem] at hstep
    split at hstep
    · rename_i utxo accounts fee happly
      cases hstep
      exact applied_created happly hop
    · cases (Prod.mk.inj hstep).2
  have hbody := (skipEach_moves (b := b) (itemCtx chainId tipScore score b) t' hrest).free hcreated hother
  rw [skipEach_of_strictEach hrun] at hbody
  exact (applyBlockReward_moves l' hparents score fees).free hbody hother

/-- What a spend of an admitted body takes is spent after the block, unless the block
creates it. -/
theorem simulated_spent {l l' : Ledger} {tipScore score fees : Nat} (hparents : b.parents ≠ [])
    (h : l.simulateApplyBlockBody chainId tipScore score b = .ok (l', fees)) {tx : UtxoTx}
    (htx : tx ∈ b.utxoTxs) {op : OutPoint} (hop : tx.Takes op) (hother : ¬ b.Creates op) :
    op ∈ (l'.applyBlockReward b score fees).utxo.spent := by
  obtain ⟨t, t', rest, hstep, hrest, hrun⟩ :=
    strictEach_split (strictEach_of_simulate h) (Block.mem_items_utxo.mpr htx)
  have htaken : op ∈ t'.1.utxo.spent := by
    simp only [applyItem] at hstep
    split at hstep
    · rename_i utxo accounts fee happly
      cases hstep
      exact applied_taken happly hop fun hcreated => hother (Or.inl ⟨tx, htx, hcreated⟩)
    · cases (Prod.mk.inj hstep).2
  have hbody := skipEach_moves (b := b) (itemCtx chainId tipScore score b) t' hrest
  rw [skipEach_of_strictEach hrun] at hbody
  have hafter := (hbody.spent_keep op htaken).resolve_right fun h => hother h.1
  exact ((applyBlockReward_moves l' hparents score fees).spent_keep op hafter).resolve_right fun h => hother h.1

end Ledger

end Blocks

end HassanNode
