import Mathlib
import HassanNode.Core.Spelling
import HassanNode.Ledger.ReplaySound

/-!
# HassanNode.Ledger.Debits

Who can lose what. A block body moves balances through four kinds of operations;
`Accounts.DebitsOnly` says of a change of the accounts whose balances it may
shrink, and each operation gets one lemma: a spend shrinks none, a registry
operation its signer's, a custody certificate its owner's. Stakes shrink by an
unlock of their owner, as long as a lock does not overflow one.
-/

namespace HassanNode

open Std (ExtTreeMap)
open Params

/-! ### Changes of the accounts -/

/-- Every balance fits the source's integers. -/
def Accounts.Ranged (accounts : Accounts) : Prop := ∀ a, (accounts.entry a).balance ≤ u128Max

/-- Only balances of payers shrink, and all of them stay in range. -/
structure Accounts.DebitsOnly (payer : Address → Prop) (before after : Accounts) : Prop where
  ranged : after.Ranged
  kept : ∀ a, ¬ payer a → (before.entry a).balance ≤ (after.entry a).balance

namespace Accounts.DebitsOnly

variable {payer payer' : Address → Prop} {x y z : Accounts}

theorem refl (h : x.Ranged) : Accounts.DebitsOnly payer x x := ⟨h, fun _ _ => le_refl _⟩

theorem trans (h : Accounts.DebitsOnly payer x y) (h' : Accounts.DebitsOnly payer y z) :
    Accounts.DebitsOnly payer x z := ⟨h'.ranged, fun a ha => (h.kept a ha).trans (h'.kept a ha)⟩

theorem mono (h : Accounts.DebitsOnly payer x y) (himp : ∀ a, payer a → payer' a) :
    Accounts.DebitsOnly payer' x y := ⟨h.ranged, fun a ha => h.kept a fun hp => ha (himp a hp)⟩

/-- One account is rewritten. -/
theorem insert (h : x.Ranged) {a : Address} {acct : Account} (hranged : acct.balance ≤ u128Max)
    (hkept : ¬ payer a → (x.entry a).balance ≤ acct.balance) : Accounts.DebitsOnly payer x (x.insert a acct) := by
  refine ⟨fun b => ?_, fun b hb => ?_⟩
  · rw [Accounts.entry_insert]
    split
    · exact hranged
    · exact h b
  · rw [Accounts.entry_insert]
    split
    · rename_i hab
      subst hab
      exact hkept hb
    · exact le_refl _

/-- A credit shrinks nothing. -/
theorem credit (h : x.Ranged) (a : Address) (amount : Nat) :
    Accounts.DebitsOnly payer x (RegistryState.creditAccount x a amount) :=
  insert h (min_le_right _ _) fun _ => le_min (Nat.le_add_right _ _) (h a)

end Accounts.DebitsOnly

/-! ### The operations of a body -/

/-- The mutations of a spend shrink no balance, however far they get. -/
theorem UtxoEffect.applyAll_debitsOnly {es : List UtxoEffect} {u : UtxoSet} {accounts : Accounts}
    (h : accounts.Ranged) :
    Accounts.DebitsOnly (fun _ => False) accounts (UtxoEffect.applyAll es u accounts).1.2 := by
  induction es generalizing u accounts with
  | nil => exact .refl h
  | cons e es ih =>
    rw [UtxoEffect.applyAll]
    split
    · rename_i u' accounts' he
      have hstep : Accounts.DebitsOnly (fun _ => False) accounts accounts' := by
        cases e with
        | spend op =>
          obtain ⟨u₁, -, heq⟩ := Except.bind_eq_ok he
          cases heq
          exact .refl h
        | create op out =>
          cases he
          exact .refl h
        | credit addr value =>
          cases addr with
          | none => cases he
          | some a =>
            simp only [UtxoEffect.apply] at he
            split at he
            · cases he
            · rename_i balance hadd
              obtain ⟨hsum, rfl⟩ := checkedAdd128_eq_some.mp hadd
              cases he
              exact .insert h hsum fun _ => Nat.le_add_right _ _
      exact hstep.trans (ih hstep.ranged)
    · exact .refl h

section Items

variable [Crypto]

theorem applyUtxoTx_debitsOnly {u : UtxoSet} {accounts : Accounts} {tx : UtxoTx} {mediaBlue : Nat}
    (h : accounts.Ranged) :
    Accounts.DebitsOnly (fun _ => False) accounts (applyUtxoTx u accounts tx mediaBlue).1.2 := by
  have hrun : Accounts.DebitsOnly (fun _ => False) accounts
      (UtxoEffect.applyAll (tx.effects mediaBlue) u accounts).1.2 := UtxoEffect.applyAll_debitsOnly h
  unfold applyUtxoTx
  split
  · exact .refl h
  · split
    · rename_i hall
      rw [hall] at hrun
      exact hrun
    · rename_i hall
      rw [hall] at hrun
      exact hrun

/-- An arm of `apply_op` debits its signer. -/
theorem RegistryMove.debitsOnly {ctx : RegistryCtx} {signer : Address} {r r' : RegistryState}
    {accounts accounts' : Accounts} {action : RegistryAction}
    (hmove : RegistryMove ctx signer r accounts action r' accounts') (h : accounts.Ranged) :
    Accounts.DebitsOnly (· = signer) accounts accounts' := by
  cases hmove with
  | issue => exact .refl h
  | transfer => exact .refl h
  | «open» => exact .refl h
  | @fund escrowId amount esc acct status hesc hopen hacct hbal =>
    have hentry : accounts.entry signer = acct := by simp [Accounts.entry, hacct]
    refine .insert h ?_ fun hne => absurd rfl hne
    exact (Nat.sub_le _ _).trans (hentry ▸ h signer)
  | release => exact .credit h _ _
  | @refund escrowId esc =>
    simp only [RegistryState.refund]
    split
    · exact .credit h _ _
    · exact .refl h

theorem applyOp_debitsOnly {r : RegistryState} {accounts : Accounts} {op : RegistryOp} {ctx : RegistryCtx}
    (h : accounts.Ranged) : Accounts.DebitsOnly (fun a => op.signerAddress = a ∧ op.verify = true) accounts
      (r.applyOp accounts op ctx).1.2 := by
  unfold RegistryState.applyOp
  dsimp only
  split
  · exact .refl h
  · rename_i hverify
    split
    · exact .insert h (h _) fun _ => le_refl _
    · have hbump : Accounts.DebitsOnly (fun a => op.signerAddress = a ∧ op.verify = true) accounts
          (RegistryState.bumpNonce accounts op.signerAddress) := .insert h (h _) fun _ => le_refl _
      cases hact : r.applyAction (RegistryState.bumpNonce accounts op.signerAddress) ctx
          op.signerAddress op.action with
      | error e => exact hbump
      | ok st =>
        refine hbump.trans (((applyAction_move hact).debitsOnly hbump.ranged).mono ?_)
        rintro a rfl
        exact ⟨rfl, by simpa using hverify⟩

namespace CustodyCertificate

/-- The owner's key has signed the certificate. -/
structure Authentic (c : CustodyCertificate) : Prop where
  owner : Address.matchesPubkey c.owner c.fromPubkey = true
  signature : verifyPq512 (utf8 "custody") c.messageBytes c.fromPubkey c.signature = true

theorem verify_authentic {c : CustodyCertificate} {sid : Bytes} (h : c.verify sid = .ok ()) : c.Authentic := by
  unfold verify at h
  split at h
  · cases h
  · split at h
    · cases h
    · rename_i howner
      split at h
      · cases h
      · rename_i hsignature
        exact ⟨by simpa using howner, by simpa using hsignature⟩

end CustodyCertificate

/-- A stake operation that applies is signed by the owner, and is a lock or an
unlock. -/
theorem applyCustodyOp_authentic {l l' : Ledger} {chainId : Nat} {op : CustodyCertificate}
    (h : l.applyCustodyOp chainId op = .ok l') : op.Authentic ∧
      (op.kind = .stakeLock ∧
        l'.staked = l.staked.insert op.owner (wrapAdd128 (l.staked[op.owner]?.getD 0) op.amount) ∨
      op.kind = .stakeUnlock ∧ l'.staked = l.staked.insert op.owner (l.staked[op.owner]?.getD 0 - op.amount)) := by
  unfold Ledger.applyCustodyOp at h
  split at h
  · cases h
  · split at h
    · cases h
    · split at h
      · cases h
      · obtain ⟨sid, -, h⟩ := Except.bind_eq_ok h
        obtain ⟨_, hverify, h⟩ := Except.bind_eq_ok h
        refine ⟨CustodyCertificate.verify_authentic hverify, ?_⟩
        dsimp only at h
        split at h
        · cases h
        · split at h
          · rename_i hkind
            split at h
            · cases h
            · cases h
              exact Or.inl ⟨hkind, rfl⟩
          · rename_i hkind
            split at h
            · cases h
            · cases h
              exact Or.inr ⟨hkind, rfl⟩
          · cases h
          · cases h

theorem applyCustodyOp_debitsOnly {l l' : Ledger} {chainId : Nat} {op : CustodyCertificate}
    (h : l.applyCustodyOp chainId op = .ok l') (hranged : l.accounts.Ranged) :
    Accounts.DebitsOnly (fun a => op.owner = a ∧ op.Authentic) l.accounts l'.accounts := by
  have hauth := (applyCustodyOp_authentic h).1
  obtain ⟨-, balance, stake, rfl, hcase⟩ := applyCustodyOp_ok h
  refine .insert hranged ?_ fun hne => absurd ⟨rfl, hauth⟩ hne
  rcases hcase with ⟨-, rfl, -⟩ | ⟨-, rfl, -⟩
  · exact (Nat.sub_le _ _).trans (hranged op.owner)
  · exact Nat.le_of_lt_succ (Nat.mod_lt _ (by decide))

/-- Whose balance an operation may shrink. -/
def BodyItem.Payer (a : Address) : BodyItem → Prop
  | .transparent _ | .utxo _ => False
  | .registry op => op.signerAddress = a ∧ op.verify = true
  | .custody op => op.owner = a ∧ op.Authentic

/-- **One operation of a body** debits nobody but the party that signed it. -/
theorem Ledger.applyItem_debitsOnly {ctx : ItemCtx} {s : Ledger × Nat} {item : BodyItem}
    (h : s.1.accounts.Ranged) :
    Accounts.DebitsOnly (item.Payer ·) s.1.accounts (Ledger.applyItem ctx s item).1.1.accounts := by
  cases item with
  | transparent tx => exact .refl h
  | utxo tx =>
    have htx : Accounts.DebitsOnly (fun _ => False) s.1.accounts
        (applyUtxoTx s.1.utxo s.1.accounts tx ctx.mediaBlue).1.2 := applyUtxoTx_debitsOnly h
    simp only [applyItem]
    split
    · rename_i hrun
      rw [hrun] at htx
      exact htx
    · rename_i hrun
      rw [hrun] at htx
      exact htx
  | registry op => exact applyOp_debitsOnly h
  | custody op =>
    simp only [applyItem]
    split
    · rename_i l hl
      exact applyCustodyOp_debitsOnly hl h
    · exact .refl h

/-! ### Stakes -/

/-- The stake of an account. -/
def Ledger.stakeOf (l : Ledger) (a : Address) : Nat := l.staked[a]?.getD 0

/-- What an operation may add to a stake. -/
def BodyItem.lock (a : Address) : BodyItem → Nat
  | .custody op => if op.owner = a ∧ op.kind = .stakeLock then op.amount else 0
  | _ => 0

/-- An operation moves a stake up by at most what it locks, and down only if it
is an unlock. -/
theorem Ledger.applyItem_stakeOf {ctx : ItemCtx} {s : Ledger × Nat} {item : BodyItem} {a : Address}
    (hfit : s.1.stakeOf a + item.lock a ≤ u128Max)
    (hunlock : ∀ op, item = .custody op → ¬ (op.kind = .stakeUnlock ∧ op.owner = a ∧ op.Authentic)) :
    s.1.stakeOf a ≤ (Ledger.applyItem ctx s item).1.1.stakeOf a ∧
      (Ledger.applyItem ctx s item).1.1.stakeOf a ≤ s.1.stakeOf a + item.lock a := by
  have hsame : ∀ {l : Ledger}, l.staked = s.1.staked →
      s.1.stakeOf a ≤ l.stakeOf a ∧ l.stakeOf a ≤ s.1.stakeOf a + item.lock a := by
    intro l hl
    simp [stakeOf, hl]
  cases item with
  | transparent tx => exact hsame rfl
  | utxo tx =>
    simp only [applyItem]
    split <;> exact hsame rfl
  | registry op => exact hsame rfl
  | custody op =>
    simp only [applyItem]
    split
    · rename_i l hl
      obtain ⟨hauth, hkind⟩ := applyCustodyOp_authentic hl
      by_cases ha : op.owner = a
      · rcases hkind with ⟨hlock, hstaked⟩ | ⟨hunlocks, -⟩
        · have hamount : BodyItem.lock a (.custody op) = op.amount := if_pos ⟨ha, hlock⟩
          have hstake : l.stakeOf a = wrapAdd128 (s.1.stakeOf a) op.amount := by
            simp [stakeOf, hstaked, ha]
          rw [hamount] at hfit ⊢
          dsimp only
          rw [hstake, wrapAdd128_eq hfit]
          exact ⟨Nat.le_add_right _ _, le_refl _⟩
        · exact absurd ⟨hunlocks, ha, hauth⟩ (hunlock op rfl)
      · have hother : l.stakeOf a = s.1.stakeOf a := by
          rcases hkind with ⟨-, hstaked⟩ | ⟨-, hstaked⟩ <;>
            simp [stakeOf, hstaked, ExtTreeMap.getElem?_insert, ha]
        dsimp only
        omega
    · exact hsame rfl

/-- **A body without an unlock** of an account does not shrink its stake. -/
theorem Ledger.skipEach_stakeOf {ctx : ItemCtx} {items : List BodyItem} {s : Ledger × Nat} {a : Address}
    (hfit : s.1.stakeOf a + (items.map (BodyItem.lock a)).sum ≤ u128Max)
    (hunlock : ∀ op, .custody op ∈ items → ¬ (op.kind = .stakeUnlock ∧ op.owner = a ∧ op.Authentic)) :
    s.1.stakeOf a ≤ (skipEach (Ledger.applyItem ctx) s items).1.stakeOf a := by
  induction items generalizing s with
  | nil => exact le_refl _
  | cons item items ih =>
    rw [List.map_cons, List.sum_cons] at hfit
    have hhead : s.1.stakeOf a + item.lock a ≤ u128Max := by omega
    obtain ⟨hup, hdown⟩ := applyItem_stakeOf hhead fun op hop => hunlock op (hop ▸ List.mem_cons_self)
    exact hup.trans (ih (by omega) fun op hop => hunlock op (List.mem_cons_of_mem item hop))

/-! ### Whole blocks -/

omit [Crypto] in
theorem Block.mem_items_registry {b : Block} {op : RegistryOp} : .registry op ∈ b.items ↔ op ∈ b.registryOps := by
  simp [Block.items]

omit [Crypto] in
theorem Block.mem_items_custody {b : Block} {op : CustodyCertificate} : .custody op ∈ b.items ↔ op ∈ b.custodyOps := by
  simp [Block.items]

/-- The reward is an output. -/
theorem Ledger.applyBlockReward_keeps (l : Ledger) (b : Block) (blueScore fees : Nat) :
    (l.applyBlockReward b blueScore fees).accounts = l.accounts ∧
      (l.applyBlockReward b blueScore fees).staked = l.staked := by
  unfold Ledger.applyBlockReward
  dsimp only
  split <;> exact ⟨rfl, rfl⟩

/-- What the body's certificates lock for an account. -/
def Block.lockedFor (b : Block) (a : Address) : Nat := (b.items.map (BodyItem.lock a)).sum

/-- **Only an owner's signature debits.** On a ledger whose balances are in
range: a balance that shrinks over a block belongs to the signer of one of its
registry operations or to the owner of one of its certificates, and a stake that
shrinks is unlocked by its owner, unless the locks of the body overflow it. -/
theorem only_owner_debits {l : Ledger} {chainId tipScore : Nat} {score : Option Nat} {b : Block} {a : Address}
    (hranged : l.accounts.Ranged) :
    (((l.applyBlockEffects chainId tipScore score b).accounts.entry a).balance < (l.accounts.entry a).balance →
      (∃ op ∈ b.registryOps, op.signerAddress = a ∧ op.verify = true) ∨
        ∃ c ∈ b.custodyOps, c.owner = a ∧ c.Authentic) ∧
    (l.stakeOf a + b.lockedFor a ≤ u128Max →
      (l.applyBlockEffects chainId tipScore score b).stakeOf a < l.stakeOf a →
      ∃ c ∈ b.custodyOps, c.kind = .stakeUnlock ∧ c.owner = a ∧ c.Authentic) := by
  unfold Ledger.applyBlockEffects
  split
  · exact ⟨fun h => absurd h (lt_irrefl _), fun _ h => absurd h (lt_irrefl _)⟩
  · dsimp only
    generalize hctx : Ledger.itemCtx chainId tipScore (score.getD tipScore) b = ctx
    have hbody : Accounts.DebitsOnly (fun a => ∃ item ∈ b.items, item.Payer a) l.accounts
        (skipEach (Ledger.applyItem ctx) (l, 0) b.items).1.accounts := by
      refine skipEach_induction (fun s : Ledger × Nat => Accounts.DebitsOnly _ l.accounts s.1.accounts)
        (.refl hranged) fun item hitem s hs => ?_
      exact hs.trans ((Ledger.applyItem_debitsOnly hs.ranged).mono fun a ha => ⟨item, hitem, ha⟩)
    refine ⟨fun hless => ?_, fun hfit hless => ?_⟩
    · rw [(Ledger.applyBlockReward_keeps _ _ _ _).1] at hless
      by_contra hnobody
      refine absurd hless (Nat.not_lt.mpr (hbody.kept a ?_))
      rintro ⟨item, hitem, hpays⟩
      cases item with
      | transparent tx => exact hpays
      | utxo tx => exact hpays
      | registry op => exact hnobody (Or.inl ⟨op, Block.mem_items_registry.mp hitem, hpays⟩)
      | custody c => exact hnobody (Or.inr ⟨c, Block.mem_items_custody.mp hitem, hpays⟩)
    · have hstake : (Ledger.applyBlockReward (skipEach (Ledger.applyItem ctx) (l, 0) b.items).1 b (score.getD 0)
          (skipEach (Ledger.applyItem ctx) (l, 0) b.items).2).stakeOf a
          = (skipEach (Ledger.applyItem ctx) (l, 0) b.items).1.stakeOf a := by
        rw [Ledger.stakeOf, (Ledger.applyBlockReward_keeps _ _ _ _).2, Ledger.stakeOf]
      rw [hstake] at hless
      by_contra hnobody
      have hkept : l.stakeOf a ≤ (skipEach (Ledger.applyItem ctx) (l, 0) b.items).1.stakeOf a :=
        Ledger.skipEach_stakeOf (s := (l, 0)) hfit fun op hop hunlock =>
          hnobody ⟨op, Block.mem_items_custody.mp hop, hunlock⟩
      exact absurd hless (Nat.not_lt.mpr hkept)

end Items

/-! ### A stake lock -/

namespace Sample

open RegistryRun

def settlementZero : Bytes := List.replicate 64 0

/-- Party 1 locks one unit. -/
def lockOne : CustodyCertificate where
  kind := .stakeLock
  blockHash := Hash.zero
  settlementId := Address.hexEncode settlementZero
  birthCertificate := List.replicate pqSignatureSize 0
  issuerPubkey := partyKey 1
  foreignChainId := 0
  amount := 1
  titleId := none
  owner := partyAddress 1
  nonce := 0
  chainId := chainId
  signature := List.replicate pqSignatureSize 0
  fromPubkey := partyKey 1
  dualSignature := none

/-- A block with one certificate. -/
def lockBlock : Block where
  height := 1
  timestamp := 0
  parents := [Hash.zero]
  interlinks := []
  transparentTxs := []
  utxoTxs := []
  registryOps := []
  custodyOps := [lockOne]
  merkleRoot := Hash.zero
  stateRoot := Hash.zero
  miner := Hash.zero
  creatorPubkey := partyKey 1
  nonce := 0
  difficulty := 0
  version := 1
  coinbaseEntropy := 0
  starkProof := []
  birthCertificate := []
  size := 0

/-- A ledger where party 1 has one free unit and a stake. -/
def staked (stake : Nat) : Ledger where
  accounts := (∅ : Accounts).insert (partyAddress 1) { balance := 1 }
  staked := (∅ : ExtTreeMap Address Nat).insert (partyAddress 1) stake

theorem lockOne_verifies : @CustodyCertificate.verify sampleCrypto lockOne settlementZero = .ok () := by
  let := sampleCrypto
  have hkey : (partyKey 1).length = pqPublicKeySize := List.length_replicate
  have howner : Address.matchesPubkey lockOne.owner (partyKey 1) = true := by
    have hself : Address.equivalent (partyAddress 1) (Address.encodeHash (addressHash (partyKey 1))) = true :=
      Address.equivalent_refl _
    simp [Address.matchesPubkey, lockOne, hself]
  have hsigned : verifyPq512 (utf8 "custody") lockOne.messageBytes (partyKey 1) (List.replicate pqSignatureSize 0)
      = true := verifyPq512_sample _ _ hkey List.length_replicate
  have hbirth : CustodyCertificate.verifyBirth (List.replicate pqSignatureSize 0) settlementZero (partyKey 1)
      = true := by
    simp [CustodyCertificate.verifyBirth, hkey, verifyPq512_sample _ _ hkey List.length_replicate]
  have hfields : lockOne.fromPubkey = partyKey 1 ∧ lockOne.signature = List.replicate pqSignatureSize 0 ∧
      lockOne.dualSignature = none ∧ Address.hexEncode settlementZero = lockOne.settlementId ∧
      lockOne.birthCertificate = List.replicate pqSignatureSize 0 ∧ lockOne.issuerPubkey = partyKey 1 :=
    ⟨rfl, rfl, rfl, rfl, rfl, rfl⟩
  obtain ⟨hfrom, hsig, hdual, hsettled, hbirth', hissuer⟩ := hfields
  simp [CustodyCertificate.verify, hfrom, hkey, howner, hsig, hsigned, hdual, hsettled, hbirth', hissuer, hbirth]

/-- The certificate applies: one unit moves from the balance to the stake. -/
theorem lockOne_applies (stake : Nat) :
    @Ledger.applyCustodyOp sampleCrypto (staked stake) chainId lockOne = .ok { staked stake with
      accounts := (staked stake).accounts.insert (partyAddress 1) { balance := 0, nonce := 1 }
      staked := (staked stake).staked.insert (partyAddress 1) (wrapAdd128 stake 1) } := by
  let := sampleCrypto
  have hvalid : Address.isValid lockOne.owner = true :=
    Address.isValid_of_isBech32m (Address.isBech32m_ofPubkey _)
  have hbytes : lockOne.settlementBytes = .ok settlementZero := by decide +kernel
  have hentry : (staked stake).accounts.entry (partyAddress 1) = { balance := 1 } := by
    simp [staked, Accounts.entry_insert]
  have hstake : (staked stake).staked[partyAddress 1]? = some stake := by simp [staked]
  have hfields : lockOne.chainId = chainId ∧ lockOne.amount = 1 ∧ lockOne.owner = partyAddress 1 ∧
      lockOne.nonce = 0 ∧ lockOne.kind = .stakeLock := ⟨rfl, rfl, rfl, rfl, rfl⟩
  obtain ⟨hchain, hamount, howner, hnonce, hkind⟩ := hfields
  rw [howner] at hvalid
  simp [Ledger.applyCustodyOp, hchain, hamount, howner, hvalid, hbytes, lockOne_verifies, hentry, hstake, hnonce,
    hkind, bind, Except.bind, satAdd64, u64Max]

/-- What the block does to party 1. -/
theorem lockBlock_effects (stake : Nat) :
    (@Ledger.applyBlockEffects sampleCrypto (staked stake) chainId 0 none lockBlock).stakeOf (partyAddress 1)
      = wrapAdd128 stake 1 ∧
    ((@Ledger.applyBlockEffects sampleCrypto (staked stake) chainId 0 none lockBlock).accounts.entry
      (partyAddress 1)).balance = 0 := by
  let := sampleCrypto
  have hparents : lockBlock.parents ≠ [] := by simp [lockBlock]
  have hitem : Ledger.applyItem (Ledger.itemCtx chainId 0 0 lockBlock) (staked stake, 0) (.custody lockOne)
      = (({ staked stake with
        accounts := (staked stake).accounts.insert (partyAddress 1) { balance := 0, nonce := 1 }
        staked := (staked stake).staked.insert (partyAddress 1) (wrapAdd128 stake 1) }, 0), .ok ()) := by
    have hchain : (Ledger.itemCtx chainId 0 0 lockBlock).chainId = chainId := rfl
    simp only [Ledger.applyItem, hchain, lockOne_applies]
  have hbody : (skipEach (Ledger.applyItem (Ledger.itemCtx chainId 0 0 lockBlock)) (staked stake, 0) lockBlock.items)
      = ({ staked stake with
        accounts := (staked stake).accounts.insert (partyAddress 1) { balance := 0, nonce := 1 }
        staked := (staked stake).staked.insert (partyAddress 1) (wrapAdd128 stake 1) }, 0) := by
    have hitems : lockBlock.items = [.custody lockOne] := by simp [Block.items, lockBlock]
    rw [hitems, skipEach, List.foldl_cons, List.foldl_nil, hitem]
  simp only [Ledger.applyBlockEffects, if_neg hparents, Option.getD_none, hbody, Ledger.stakeOf,
    (Ledger.applyBlockReward_keeps _ _ _ _).1, (Ledger.applyBlockReward_keeps _ _ _ _).2, Accounts.entry_insert]
  simp

/-- A lock that overflows takes the stake away, and nothing was unlocked. -/
theorem lock_overflows_stake :
    (@Ledger.applyBlockEffects sampleCrypto (staked u128Max) chainId 0 none lockBlock).stakeOf (partyAddress 1)
      < (staked u128Max).stakeOf (partyAddress 1) ∧
    ∀ c ∈ lockBlock.custodyOps, c.kind ≠ .stakeUnlock := by
  rw [(lockBlock_effects u128Max).1]
  have hstake : (staked u128Max).stakeOf (partyAddress 1) = u128Max := by simp [staked, Ledger.stakeOf]
  rw [hstake]
  exact ⟨by decide, by simp [lockBlock, lockOne]⟩

/-- The balance that a lock takes is its owner's. -/
theorem only_owner_debits_lock :
    (∃ op ∈ lockBlock.registryOps, @RegistryOp.signerAddress sampleCrypto op = partyAddress 1 ∧
        @RegistryOp.verify sampleCrypto op = true) ∨
      ∃ c ∈ lockBlock.custodyOps, c.owner = partyAddress 1 ∧ @CustodyCertificate.Authentic sampleCrypto c := by
  let := sampleCrypto
  have hranged : (staked 0).accounts.Ranged := by
    intro a
    have hentry : (staked 0).accounts.entry a = if partyAddress 1 = a then { balance := 1 } else {} :=
      Accounts.entry_insert ∅ (partyAddress 1) a { balance := 1 }
    rw [hentry]
    split <;> decide
  have hless : ((Ledger.applyBlockEffects (staked 0) chainId 0 none lockBlock).accounts.entry
      (partyAddress 1)).balance < ((staked 0).accounts.entry (partyAddress 1)).balance := by
    rw [(lockBlock_effects 0).2]
    simp [staked, Accounts.entry_insert]
  exact (only_owner_debits hranged).1 hless

end Sample

end HassanNode
