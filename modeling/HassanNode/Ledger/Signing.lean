import Mathlib
import HassanNode.Ledger.Commitment
import HassanNode.Ledger.Block

/-!
# HassanNode.Ledger.Signing

What a signature or a block id commits to (`utxo_tx.rs`, `registry.rs`,
`issuance.rs`).

Each message is a concatenation, and the question is always whether a reader can
find the field boundaries again. The message of a spend counts its inputs and
outputs and closes each output with a self-delimiting predicate, so it can be
read back (`UtxoTx.signed_fields_eq`). The message of a registry operation writes
its strings one after the other without their lengths, and the identity of a
block writes its parents without their number: there, equal bytes give equal
fields exactly when the boundaries agree.
-/

namespace HassanNode

open Params Bincode
open Bytes (SelfDelimiting)

/-! ### Spends -/

namespace UtxoTx

/-- What a signature covers of an input. -/
def signedInput (i : TxIn) : OutPoint × UInt32 := (i.previous, i.relativeLockBlues)

/-- What a signature covers of an output. -/
def signedOutput (o : TxOut) : Nat × Predicate := (o.value, o.predicate)

/-- The signed numbers and lengths fit the source's types. -/
structure Fits (tx : UtxoTx) : Prop where
  lockBlueScore : tx.lockBlueScore < 2 ^ 64
  fee : tx.fee < 2 ^ 128
  chainId : tx.chainId < 2 ^ 64
  outputs : ∀ o ∈ tx.outputs, o.value < 2 ^ 128 ∧ o.predicate.Fits

theorem signedInput_delimited :
    SelfDelimiting (fun _ => True)
      fun e : OutPoint × UInt32 => e.1.txid.asBytes ++ (u32 e.1.vout.toNat ++ u32 e.2.toNat) := by
  intro x y _ _ rest rest' h
  obtain ⟨⟨txid, vout⟩, lock⟩ := x
  obtain ⟨⟨txid', vout'⟩, lock'⟩ := y
  simp only [List.append_assoc] at h
  obtain ⟨rfl, h₁⟩ := hash_delimited trivial trivial h
  obtain ⟨hvout, h₂⟩ := u32_delimited vout.toNat_lt vout'.toNat_lt h₁
  obtain ⟨hlock, hrest⟩ := u32_delimited lock.toNat_lt lock'.toNat_lt h₂
  obtain rfl := UInt32.toNat_inj.mp hvout
  obtain rfl := UInt32.toNat_inj.mp hlock
  exact ⟨rfl, hrest⟩

theorem signedOutput_delimited :
    SelfDelimiting (fun e : Nat × Predicate => e.1 < 2 ^ 128 ∧ e.2.Fits)
      fun e => u128 e.1 ++ encode e.2 := by
  intro x y hx hy rest rest' h
  obtain ⟨value, predicate⟩ := x
  obtain ⟨value', predicate'⟩ := y
  simp only [List.append_assoc] at h
  obtain ⟨rfl, h₁⟩ := u128_delimited hx.1 hy.1 h
  obtain ⟨rfl, hrest⟩ := Predicate.toBytes_delimited hx.2 hy.2 h₁
  exact ⟨rfl, hrest⟩

/-- The message as runs of signed records. -/
theorem signingBytes_eq (tx : UtxoTx) :
    tx.signingBytes = u64 tx.lockBlueScore ++ (u128 tx.fee ++ (u64 tx.chainId
      ++ (u32 tx.inputs.length
      ++ ((tx.inputs.map signedInput).flatMap
            (fun e => e.1.txid.asBytes ++ (u32 e.1.vout.toNat ++ u32 e.2.toNat))
      ++ (u32 tx.outputs.length
      ++ (tx.outputs.map signedOutput).flatMap (fun e => u128 e.1 ++ encode e.2)))))) := by
  have hin : tx.inputs.flatMap inputSigningBytes = (tx.inputs.map signedInput).flatMap
      (fun e => e.1.txid.asBytes ++ (u32 e.1.vout.toNat ++ u32 e.2.toNat)) := by
    have hone : inputSigningBytes = fun i => i.previous.txid.asBytes
        ++ (u32 i.previous.vout.toNat ++ u32 i.relativeLockBlues.toNat) :=
      funext fun i => by rw [inputSigningBytes, List.append_assoc]
    rw [List.flatMap_map, hone]
    rfl
  have hout : tx.outputs.flatMap (fun o => u128 o.value ++ encode o.predicate)
      = (tx.outputs.map signedOutput).flatMap (fun e => u128 e.1 ++ encode e.2) := by
    rw [List.flatMap_map]
    rfl
  rw [← hin, ← hout]
  simp only [signingBytes, List.append_assoc]

/-- The message of a spend, with anything behind it, can be read back. -/
theorem signed_fields_append {tx tx' : UtxoTx} (hfits : tx.Fits) (hfits' : tx'.Fits)
    (hinputs : tx.inputs.length < 2 ^ 32) (hinputs' : tx'.inputs.length < 2 ^ 32)
    (houtputs : tx.outputs.length < 2 ^ 32) (houtputs' : tx'.outputs.length < 2 ^ 32)
    {rest rest' : Bytes} (h : tx.signingBytes ++ rest = tx'.signingBytes ++ rest') :
    (tx.lockBlueScore = tx'.lockBlueScore ∧ tx.fee = tx'.fee ∧ tx.chainId = tx'.chainId ∧
      tx.inputs.map signedInput = tx'.inputs.map signedInput ∧
      tx.outputs.map signedOutput = tx'.outputs.map signedOutput) ∧ rest = rest' := by
  rw [signingBytes_eq, signingBytes_eq] at h
  simp only [List.append_assoc] at h
  obtain ⟨hlock, h₁⟩ := u64_delimited hfits.lockBlueScore hfits'.lockBlueScore h
  obtain ⟨hfee, h₂⟩ := u128_delimited hfits.fee hfits'.fee h₁
  obtain ⟨hchain, h₃⟩ := u64_delimited hfits.chainId hfits'.chainId h₂
  obtain ⟨hcount, h₄⟩ := u32_delimited hinputs hinputs' h₃
  obtain ⟨hin, h₅⟩ := signedInput_delimited.flatMap_append (fun _ _ => trivial)
    (fun _ _ => trivial) (by simpa using hcount) h₄
  obtain ⟨hcount', h₆⟩ := u32_delimited houtputs houtputs' h₅
  have hmem : ∀ {tx : UtxoTx}, tx.Fits → ∀ e ∈ tx.outputs.map signedOutput,
      e.1 < 2 ^ 128 ∧ e.2.Fits := by
    intro tx hfits e he
    obtain ⟨o, ho, rfl⟩ := List.mem_map.mp he
    exact hfits.outputs o ho
  obtain ⟨hout, hrest⟩ := signedOutput_delimited.flatMap_append (hmem hfits) (hmem hfits')
    (by simpa using hcount') h₆
  exact ⟨⟨hlock, hfee, hchain, hin, hout⟩, hrest⟩

/-- **A signature commits to the whole spend**: two spends with the same message
have the same locks, fee and chain, the same inputs in order and the same outputs
in order. -/
theorem signed_fields_eq {tx tx' : UtxoTx} (hfits : tx.Fits) (hfits' : tx'.Fits)
    (hinputs : tx.inputs.length ≤ 2 ^ 32 - 1) (hinputs' : tx'.inputs.length ≤ 2 ^ 32 - 1)
    (houtputs : tx.outputs.length ≤ 2 ^ 32 - 1) (houtputs' : tx'.outputs.length ≤ 2 ^ 32 - 1)
    (h : tx.signingBytes = tx'.signingBytes) :
    tx.lockBlueScore = tx'.lockBlueScore ∧ tx.fee = tx'.fee ∧ tx.chainId = tx'.chainId ∧
      tx.inputs.map (fun i => (i.previous, i.relativeLockBlues))
        = tx'.inputs.map (fun i => (i.previous, i.relativeLockBlues)) ∧
      tx.outputs.map (fun o => (o.value, o.predicate))
        = tx'.outputs.map (fun o => (o.value, o.predicate)) :=
  have hend : tx.signingBytes ++ [] = tx'.signingBytes ++ [] := by rw [h]
  (signed_fields_append hfits hfits' (by omega) (by omega) (by omega) (by omega) hend).1

end UtxoTx

/-! ### Registry operations -/

/-- The names of the asset classes start with different letters. -/
theorem AssetClass.asStr_delimited : SelfDelimiting (fun _ => True) AssetClass.asStr := by
  refine Bytes.selfDelimiting_of_take 1 ?_ ?_
  · intro c
    cases c <;> decide +kernel
  · intro c c' h
    revert h
    cases c <;> cases c' <;> decide +kernel

namespace RegistryAction

/-- Which of the seven operations it is. -/
def variant : RegistryAction → Fin 7
  | .issueTitle _ _ _ _ => 0
  | .transferTitle _ _ _ => 1
  | .openEscrow _ _ _ _ _ _ _ _ => 2
  | .fundEscrow _ _ => 3
  | .releaseEscrow _ => 4
  | .refundEscrow _ => 5
  | .timeoutClaimEscrow _ => 6

/-- The text the message of a variant starts with. -/
def variantTag : Fin 7 → Bytes
  | 0 => utf8 "issue-title-v1"
  | 1 => utf8 "transfer-title-v1"
  | 2 => utf8 "open-escrow-v3"
  | 3 => utf8 "fund-escrow-v1"
  | 4 => utf8 "release-escrow-v1"
  | 5 => utf8 "refund-escrow-v1"
  | 6 => utf8 "timeout-claim-escrow-v1"

/-- The fields that follow it. -/
def signedBody : RegistryAction → Bytes
  | .issueTitle owner cls description seed =>
    owner ++ (cls.asStr ++ (description ++ seed.asBytes))
  | .transferTitle titleId to_ memo => titleId.asBytes ++ (to_ ++ memo)
  | .openEscrow buyer seller arbiter amount titleId memo seed timeoutBlue =>
    buyer ++ (seller ++ (arbiter.getD [] ++ (u128 amount
      ++ (titleId.elim [] Hash.asBytes ++ (memo ++ (seed.asBytes ++ u64 timeoutBlue))))))
  | .fundEscrow escrowId amount => escrowId.asBytes ++ u128 amount
  | .releaseEscrow escrowId | .refundEscrow escrowId | .timeoutClaimEscrow escrowId =>
    escrowId.asBytes

/-- The lengths a reader of the message would have to know: of every string but the
last one, and whether an optional field is there at all. -/
def boundaries : RegistryAction → List (Option Nat)
  | .issueTitle owner _ _ _ => [some owner.length]
  | .transferTitle _ to_ _ => [some to_.length]
  | .openEscrow buyer seller arbiter _ titleId _ _ _ =>
    [some buyer.length, some seller.length, arbiter.map List.length, titleId.map fun _ => 64]
  | .fundEscrow _ _ | .releaseEscrow _ | .refundEscrow _ | .timeoutClaimEscrow _ => []

/-- The numbers of an operation fit the source's types. -/
def Fits : RegistryAction → Prop
  | .openEscrow _ _ _ amount _ _ _ timeoutBlue => amount < 2 ^ 128 ∧ timeoutBlue < 2 ^ 64
  | .fundEscrow _ amount => amount < 2 ^ 128
  | _ => True

theorem actionSigningBytes_eq (a : RegistryAction) :
    RegistryOp.actionSigningBytes a = variantTag a.variant ++ a.signedBody := by
  cases a <;> simp [RegistryOp.actionSigningBytes, variantTag, variant, signedBody]

/-- The first three letters tell the variants apart. -/
theorem variantTag_delimited : SelfDelimiting (fun _ => True) variantTag := by
  refine Bytes.selfDelimiting_of_take 3 ?_ ?_
  · decide +kernel
  · decide +kernel

/-- Optional texts of one length. -/
theorem getD_inj {a b : Option Bytes} (hlen : a.map List.length = b.map List.length)
    (h : a.getD [] = b.getD []) : a = b := by
  cases a with
  | none =>
      cases b with
      | none => rfl
      | some b => simp at hlen
  | some a =>
      cases b with
      | none => simp at hlen
      | some b => exact congrArg some h

/-- Within a variant, equal boundaries let the message be read back. -/
theorem eq_of_signedBody {a b : RegistryAction} (hfits : a.Fits) (hfits' : b.Fits)
    (hvariant : a.variant = b.variant) (hbounds : a.boundaries = b.boundaries)
    (h : a.signedBody = b.signedBody) : a = b := by
  cases a with
  | issueTitle owner cls description seed =>
      cases b with
      | issueTitle owner' cls' description' seed' =>
          have hlen : owner.length = owner'.length := by simpa [boundaries] using hbounds
          obtain ⟨rfl, h₁⟩ := List.append_inj h hlen
          obtain ⟨rfl, h₂⟩ := AssetClass.asStr_delimited trivial trivial h₁
          obtain ⟨rfl, hseed⟩ := List.append_inj' h₂ (by simp)
          rw [Hash.asBytes_injective hseed]
      | _ => simp [variant] at hvariant
  | transferTitle titleId to_ memo =>
      cases b with
      | transferTitle titleId' to' memo' =>
          have hlen : to_.length = to'.length := by simpa [boundaries] using hbounds
          obtain ⟨rfl, h₁⟩ := hash_delimited trivial trivial h
          obtain ⟨rfl, rfl⟩ := List.append_inj h₁ hlen
          rfl
      | _ => simp [variant] at hvariant
  | openEscrow buyer seller arbiter amount titleId memo seed timeoutBlue =>
      cases b with
      | openEscrow buyer' seller' arbiter' amount' titleId' memo' seed' timeoutBlue' =>
          simp only [boundaries, List.cons.injEq, Option.some.injEq, and_true] at hbounds
          obtain ⟨hbuyer, hseller, harbiter, htitle⟩ := hbounds
          obtain ⟨rfl, h₁⟩ := List.append_inj h hbuyer
          obtain ⟨rfl, h₂⟩ := List.append_inj h₁ hseller
          have harbiter' : (arbiter.getD []).length = (arbiter'.getD []).length := by
            cases arbiter <;> cases arbiter' <;> simp_all
          obtain ⟨harb, h₃⟩ := List.append_inj h₂ harbiter'
          obtain rfl := getD_inj harbiter harb
          obtain ⟨rfl, h₄⟩ := u128_delimited hfits.1 hfits'.1 h₃
          have htitle' : (titleId.elim [] Hash.asBytes).length
              = (titleId'.elim [] Hash.asBytes).length := by
            cases titleId <;> cases titleId' <;> simp_all
          obtain ⟨htid, h₅⟩ := List.append_inj h₄ htitle'
          obtain ⟨rfl, h₆⟩ := List.append_inj' h₅ (by simp [u64])
          obtain ⟨rfl, htimeout⟩ := hash_delimited trivial trivial h₆
          obtain rfl := Bytes.ofNatLE_inj hfits.2 hfits'.2 htimeout
          have htid' : titleId = titleId' := by
            cases titleId with
            | none => cases titleId' <;> simp_all
            | some t =>
                cases titleId' with
                | none => simp at htitle
                | some t' => rw [Hash.asBytes_injective htid]
          rw [htid']
      | _ => simp [variant] at hvariant
  | fundEscrow escrowId amount =>
      cases b with
      | fundEscrow escrowId' amount' =>
          obtain ⟨rfl, hamount⟩ := hash_delimited trivial trivial h
          obtain rfl := Bytes.ofNatLE_inj hfits hfits' hamount
          rfl
      | _ => simp [variant] at hvariant
  | releaseEscrow escrowId =>
      cases b with
      | releaseEscrow escrowId' => rw [Hash.asBytes_injective h]
      | _ => simp [variant] at hvariant
  | refundEscrow escrowId =>
      cases b with
      | refundEscrow escrowId' => rw [Hash.asBytes_injective h]
      | _ => simp [variant] at hvariant
  | timeoutClaimEscrow escrowId =>
      cases b with
      | timeoutClaimEscrow escrowId' => rw [Hash.asBytes_injective h]
      | _ => simp [variant] at hvariant

end RegistryAction

namespace RegistryOp

/-- The signed numbers fit the source's types. -/
structure Fits (op : RegistryOp) : Prop where
  action : op.action.Fits
  nonce : op.nonce < 2 ^ 64
  chainId : op.chainId < 2 ^ 64

/-- **Two operations with one message** are the same operation exactly when their
strings end in the same places. The variant, the nonce and the chain always agree. -/
theorem signed_fields_eq_iff {a b : RegistryOp} (hfits : a.Fits) (hfits' : b.Fits)
    (h : a.signingBytes = b.signingBytes) :
    (a.action = b.action ∧ a.nonce = b.nonce ∧ a.chainId = b.chainId)
      ↔ a.action.boundaries = b.action.boundaries := by
  constructor
  · rintro ⟨haction, -, -⟩
    rw [haction]
  · intro hbounds
    -- the nonce and the chain id have fixed widths at the end
    obtain ⟨h₁, hchain⟩ := List.append_inj' h (by simp [u64])
    obtain ⟨h₂, hnonce⟩ := List.append_inj' h₁ (by simp [u64])
    rw [RegistryAction.actionSigningBytes_eq, RegistryAction.actionSigningBytes_eq] at h₂
    obtain ⟨hvariant, hbody⟩ := RegistryAction.variantTag_delimited trivial trivial h₂
    exact ⟨RegistryAction.eq_of_signedBody hfits.action hfits'.action hvariant hbounds hbody,
      Bytes.ofNatLE_inj hfits.nonce hfits'.nonce hnonce,
      Bytes.ofNatLE_inj hfits.chainId hfits'.chainId hchain⟩

end RegistryOp

/-! ### Block identities -/

namespace Block

/-- Everything that `absorb_identity` reads is the same. -/
structure SameIdentity (b b' : Block) : Prop where
  height : b.height = b'.height
  timestamp : b.timestamp = b'.timestamp
  parents : b.parents = b'.parents
  interlinks : b.interlinks = b'.interlinks
  merkleRoot : b.merkleRoot = b'.merkleRoot
  stateRoot : b.stateRoot = b'.stateRoot
  miner : b.miner = b'.miner
  creatorPubkey : b.creatorPubkey = b'.creatorPubkey
  nonce : b.nonce = b'.nonce
  difficulty : b.difficulty = b'.difficulty
  version : b.version = b'.version

theorem u64_toNat_delimited : SelfDelimiting (fun _ => True) fun n : UInt64 => u64 n.toNat := by
  intro m n _ _ rest rest' h
  obtain ⟨hmn, hrest⟩ := u64_delimited m.toNat_lt n.toNat_lt h
  exact ⟨UInt64.toNat_inj.mp hmn, hrest⟩

/-- With the number of parents known, an identity can be read back. -/
theorem sameIdentity_of_bytes {b b' : Block} (hlinks : b.interlinks.length < 2 ^ 64)
    (hlinks' : b'.interlinks.length < 2 ^ 64) (hkey : b.creatorPubkey.length < 2 ^ 64)
    (hkey' : b'.creatorPubkey.length < 2 ^ 64) (hparents : b.parents.length = b'.parents.length)
    (h : b.identityBytes = b'.identityBytes) : SameIdentity b b' := by
  simp only [identityBytes, List.append_assoc] at h
  obtain ⟨hheight, h₁⟩ := u64_toNat_delimited trivial trivial (List.append_cancel_left h)
  obtain ⟨htime, h₂⟩ := u64_toNat_delimited trivial trivial h₁
  obtain ⟨hpar, h₃⟩ := hash_delimited.flatMap_append (fun _ _ => trivial) (fun _ _ => trivial)
    hparents h₂
  obtain ⟨hcount, h₄⟩ := u64_delimited hlinks hlinks' h₃
  obtain ⟨hlink, h₅⟩ := hash_delimited.flatMap_append (fun _ _ => trivial) (fun _ _ => trivial)
    hcount h₄
  obtain ⟨hroot, h₆⟩ := hash_delimited trivial trivial h₅
  obtain ⟨hstate, h₇⟩ := hash_delimited trivial trivial h₆
  obtain ⟨hminer, h₈⟩ := hash_delimited trivial trivial h₇
  obtain ⟨hlen, h₉⟩ := u64_delimited hkey hkey' h₈
  obtain ⟨hpubkey, h₁₀⟩ := List.append_inj h₉ hlen
  obtain ⟨hnonce, h₁₁⟩ := u64_toNat_delimited trivial trivial h₁₀
  obtain ⟨hdiff, hversion⟩ := u64_toNat_delimited trivial trivial h₁₁
  have hv := Bytes.ofNatLE_inj b.version.toNat_lt b'.version.toNat_lt hversion
  exact ⟨hheight, htime, hpar, hlink, hroot, hstate, hminer, hpubkey, hnonce, hdiff,
    UInt32.toNat_inj.mp hv⟩

/-- **Two headers with one identity** are the same header exactly when they have
the same number of parents: the parents are the one list that is absorbed without
its length. -/
theorem sameIdentity_iff_parents_length {b b' : Block} (hlinks : b.interlinks.length < 2 ^ 64)
    (hlinks' : b'.interlinks.length < 2 ^ 64) (hkey : b.creatorPubkey.length < 2 ^ 64)
    (hkey' : b'.creatorPubkey.length < 2 ^ 64) (h : b.identityBytes = b'.identityBytes) :
    SameIdentity b b' ↔ b.parents.length = b'.parents.length :=
  ⟨fun hsame => congrArg List.length hsame.parents,
    fun hparents => sameIdentity_of_bytes hlinks hlinks' hkey hkey' hparents h⟩

end Block

/-! ### Concrete messages -/

namespace Sample

/-- A spend with a given unlock witness. -/
def spendUnlockedBy (witness : UnlockWitness) : UtxoTx where
  inputs := [{ previous := ⟨Hash.zero, 0⟩, relativeLockBlues := 0, witness }]
  outputs := [{ value := 1000, predicate := .hashLock Hash.zero, createdBlue := 0 }]
  lockBlueScore := 0
  fee := 1000
  chainId := 1
  fromPubkey := []
  signature := []

theorem spendUnlockedBy_fits (witness : UnlockWitness) : (spendUnlockedBy witness).Fits where
  lockBlueScore := by simp [spendUnlockedBy]
  fee := by simp [spendUnlockedBy]
  chainId := by simp [spendUnlockedBy]
  outputs := by simp [spendUnlockedBy, Predicate.Fits]

/-- Two spends that differ in a witness have one message, and one list of inputs. -/
theorem signed_fields_eq_unlocked :
    (spendUnlockedBy .signature).inputs.map (fun i => (i.previous, i.relativeLockBlues))
      = (spendUnlockedBy (.stack [])).inputs.map (fun i => (i.previous, i.relativeLockBlues)) :=
  (UtxoTx.signed_fields_eq (spendUnlockedBy_fits _) (spendUnlockedBy_fits _)
    (by simp [spendUnlockedBy]) (by simp [spendUnlockedBy]) (by simp [spendUnlockedBy])
    (by simp [spendUnlockedBy]) rfl).2.2.2.1

/-- A signed transfer of title zero. -/
def transferTo (to_ memo : Bytes) : RegistryOp where
  fromPubkey := []
  action := .transferTitle Hash.zero to_ memo
  nonce := 0
  chainId := 1
  signature := []

theorem transferTo_fits (to_ memo : Bytes) : (transferTo to_ memo).Fits where
  action := trivial
  nonce := by simp [transferTo]
  chainId := by simp [transferTo]

/-- The recipient can be cut shorter, its rest becoming the start of the memo. -/
theorem transferTo_signingBytes (to_ memo rest : Bytes) :
    (transferTo (to_ ++ rest) memo).signingBytes = (transferTo to_ (rest ++ memo)).signingBytes := by
  simp [RegistryOp.signingBytes, RegistryOp.actionSigningBytes, transferTo]

/-- One signature, two recipients. -/
theorem transfer_resplit : ∃ a b : RegistryOp, a.Fits ∧ b.Fits ∧ a.signingBytes = b.signingBytes ∧
    a.action = .transferTitle Hash.zero (utf8 "hsn1alice") (utf8 "") ∧
    b.action = .transferTitle Hash.zero (utf8 "hsn1a") (utf8 "lice") ∧ a.action ≠ b.action ∧
    ∀ crypto : Crypto, @RegistryOp.verify crypto a = @RegistryOp.verify crypto b := by
  have hsplit : utf8 "hsn1alice" = utf8 "hsn1a" ++ utf8 "lice" := by decide +kernel
  have hbytes : (transferTo (utf8 "hsn1alice") (utf8 "")).signingBytes
      = (transferTo (utf8 "hsn1a") (utf8 "lice")).signingBytes := by
    rw [hsplit, transferTo_signingBytes]
    rfl
  refine ⟨transferTo (utf8 "hsn1alice") (utf8 ""), transferTo (utf8 "hsn1a") (utf8 "lice"),
    transferTo_fits _ _, transferTo_fits _ _, hbytes, rfl, rfl, ?_, ?_⟩
  · intro heq
    have hto : utf8 "hsn1alice" = utf8 "hsn1a" := (RegistryAction.transferTitle.inj heq).2.1
    exact absurd hto (by decide +kernel)
  · intro crypto
    unfold RegistryOp.verify
    rw [hbytes]
    rfl

/-- The two transfers differ because their recipients end in different places. -/
theorem signed_fields_eq_iff_transfer :
    ((transferTo ([1] ++ [2]) []).action = (transferTo [1] ([2] ++ [])).action ∧
        (transferTo ([1] ++ [2]) []).nonce = (transferTo [1] ([2] ++ [])).nonce ∧
        (transferTo ([1] ++ [2]) []).chainId = (transferTo [1] ([2] ++ [])).chainId)
      ↔ (transferTo ([1] ++ [2]) []).action.boundaries
          = (transferTo [1] ([2] ++ [])).action.boundaries :=
  RegistryOp.signed_fields_eq_iff (transferTo_fits _ _) (transferTo_fits _ _)
    (transferTo_signingBytes [1] [] [2])

/-- A header with these parents and interlinks. -/
def headerOn (parents interlinks : List Hash) : Block :=
  { genesisBlock with parents, interlinks }

/-- The count of one interlink and the first 56 bytes of a zero digest, as a digest. -/
def countAsParent : Hash := ⟨256 ^ 63, by decide +kernel⟩

/-- The bytes of a count and of an interlink can be read as a parent and a count. -/
theorem countAsParent_asBytes :
    u64 1 ++ Hash.zero.asBytes = countAsParent.asBytes ++ u64 0 := by decide +kernel

theorem headerOn_identityBytes :
    (headerOn [Hash.zero] [Hash.zero]).identityBytes
      = (headerOn [Hash.zero, countAsParent] []).identityBytes := by
  have hjoin : ∀ back : Bytes, u64 1 ++ (Hash.zero.asBytes ++ back)
      = countAsParent.asBytes ++ (u64 0 ++ back) := by
    intro back
    rw [← List.append_assoc, countAsParent_asBytes, List.append_assoc]
  simp only [Block.identityBytes, headerOn, List.flatMap_cons, List.flatMap_nil, List.append_nil,
    List.append_assoc, List.length_cons, List.length_nil, Nat.zero_add]
  rw [hjoin]

/-- Two headers with one hash and one settlement id. -/
theorem headers_share_identity : ∃ b b' : Block, b.identityBytes = b'.identityBytes ∧
    b.parents = [Hash.zero] ∧ b.interlinks = [Hash.zero] ∧
    b'.parents = [Hash.zero, countAsParent] ∧ b'.interlinks = [] ∧ ¬ Block.SameIdentity b b' ∧
    ∀ crypto : Crypto, @Block.hash crypto b = @Block.hash crypto b' ∧
      @Block.settlementId crypto b = @Block.settlementId crypto b' := by
  refine ⟨_, _, headerOn_identityBytes, rfl, rfl, rfl, rfl, ?_, ?_⟩
  · intro hsame
    have hlinks : [Hash.zero] = ([] : List Hash) := hsame.interlinks
    cases hlinks
  · intro crypto
    unfold Block.hash Block.settlementId
    rw [headerOn_identityBytes]
    exact ⟨rfl, rfl⟩

/-- Their numbers of parents differ. -/
theorem sameIdentity_iff_headers :
    Block.SameIdentity (headerOn [Hash.zero] [Hash.zero]) (headerOn [Hash.zero, countAsParent] [])
      ↔ (headerOn [Hash.zero] [Hash.zero]).parents.length
          = (headerOn [Hash.zero, countAsParent] []).parents.length := by
  have hkey : genesisBlock.creatorPubkey.length < 2 ^ 64 := by simp [genesisBlock]
  exact Block.sameIdentity_iff_parents_length (by simp [headerOn]) (by simp [headerOn]) hkey hkey
    headerOn_identityBytes

end Sample

end HassanNode
