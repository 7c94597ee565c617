import Mathlib
import HassanNode.Ledger.State

/-!
# HassanNode.Ledger.Commitment

What the state root of a ledger determines (`Ledger::merkle_root`,
`UtxoSet::commitment`). Predicates are self-delimiting, so the live outputs can
be read back from their commitment. The account records are not: an address is
hashed without its length, and nothing at all is hashed of the spent set, the
stakes, the titles and the escrows.
-/

namespace HassanNode

open Std (ExtTreeMap ExtTreeSet)
open Params Bincode
open Bytes (SelfDelimiting)

/-! ### Predicates -/

namespace Predicate

/-- The numbers and lengths of a predicate fit the source's types. -/
def Fits : Predicate → Prop
  | .payToAddress a | .creditAccount a | .relativeLock a _ => a.length < 2 ^ 64
  | .absoluteLock a b | .annulAfter a b => a.length < 2 ^ 64 ∧ b < 2 ^ 64
  | .and l r | .or l r => l.Fits ∧ r.Fits
  | .multiSig _ as => as.length < 2 ^ 64 ∧ ∀ a ∈ as, a.length < 2 ^ 64
  | .exactValue v inner => v < 2 ^ 128 ∧ inner.Fits
  | .hashLock _ | .commitData _ => True

/-- The variant index `bincode` writes first. -/
def tag : Predicate → Nat
  | .payToAddress _ => 0
  | .hashLock _ => 1
  | .absoluteLock _ _ => 2
  | .relativeLock _ _ => 3
  | .and _ _ => 4
  | .or _ _ => 5
  | .multiSig _ _ => 6
  | .creditAccount _ => 7
  | .annulAfter _ _ => 8
  | .exactValue _ _ => 9
  | .commitData _ => 10

/-- The fields that follow it. -/
def body : Predicate → Bytes
  | .payToAddress a | .creditAccount a => Bincode.bytes a
  | .hashLock h | .commitData h => h.asBytes
  | .absoluteLock a b | .annulAfter a b => Bincode.bytes a ++ u64 b
  | .relativeLock a b => Bincode.bytes a ++ u32 b.toNat
  | .and l r | .or l r => l.toBytes ++ r.toBytes
  | .multiSig n as => n :: (u64 as.length ++ as.flatMap Bincode.bytes)
  | .exactValue v inner => u128 v ++ inner.toBytes

theorem toBytes_eq (p : Predicate) : p.toBytes = u32 p.tag ++ p.body := by
  cases p <;> simp [toBytes, tag, body]

theorem tag_lt (p : Predicate) : p.tag < 11 := by
  cases p <;> simp [tag]

end Predicate

theorem u64_delimited : SelfDelimiting (· < 2 ^ 64) u64 := Bytes.selfDelimiting_ofNatLE 8

theorem u128_delimited : SelfDelimiting (· < 2 ^ 128) u128 := Bytes.selfDelimiting_ofNatLE 16

theorem u32_delimited : SelfDelimiting (· < 2 ^ 32) u32 := Bytes.selfDelimiting_ofNatLE 4

theorem hash_delimited : SelfDelimiting (fun _ => True) Hash.asBytes :=
  Bytes.selfDelimiting_of_width Hash.length_asBytes fun _ _ _ _ h => Hash.asBytes_injective h

/-- A length-prefixed string. -/
theorem bytes_delimited : SelfDelimiting (·.length < 2 ^ 64) Bincode.bytes := by
  intro a b ha hb rest rest' h
  rw [Bincode.bytes, Bincode.bytes, List.append_assoc, List.append_assoc] at h
  obtain ⟨hlen, htail⟩ := u64_delimited ha hb h
  exact List.append_inj htail hlen

theorem Predicate.split_tag {p q : Predicate} {rest rest' : Bytes}
    (h : p.toBytes ++ rest = q.toBytes ++ rest') :
    p.tag = q.tag ∧ p.body ++ rest = q.body ++ rest' := by
  rw [toBytes_eq, toBytes_eq, List.append_assoc, List.append_assoc] at h
  have hp := p.tag_lt
  have hq := q.tag_lt
  exact u32_delimited (by omega) (by omega) h

/-- **Predicates are self-delimiting.** -/
theorem Predicate.toBytes_delimited : SelfDelimiting Predicate.Fits Predicate.toBytes := by
  intro p
  induction p with
  | payToAddress a =>
      intro q hp hq rest rest' h
      obtain ⟨htag, hbody⟩ := split_tag h
      cases q with
      | payToAddress b =>
          obtain ⟨rfl, hrest⟩ := bytes_delimited hp hq hbody
          exact ⟨rfl, hrest⟩
      | _ => simp [tag] at htag
  | hashLock a =>
      intro q hp hq rest rest' h
      obtain ⟨htag, hbody⟩ := split_tag h
      cases q with
      | hashLock b =>
          obtain ⟨rfl, hrest⟩ := hash_delimited trivial trivial hbody
          exact ⟨rfl, hrest⟩
      | _ => simp [tag] at htag
  | absoluteLock a n =>
      intro q hp hq rest rest' h
      obtain ⟨htag, hbody⟩ := split_tag h
      cases q with
      | absoluteLock b m =>
          simp only [body, List.append_assoc] at hbody
          obtain ⟨rfl, htail⟩ := bytes_delimited hp.1 hq.1 hbody
          obtain ⟨rfl, hrest⟩ := u64_delimited hp.2 hq.2 htail
          exact ⟨rfl, hrest⟩
      | _ => simp [tag] at htag
  | relativeLock a n =>
      intro q hp hq rest rest' h
      obtain ⟨htag, hbody⟩ := split_tag h
      cases q with
      | relativeLock b m =>
          simp only [body, List.append_assoc] at hbody
          obtain ⟨rfl, htail⟩ := bytes_delimited hp hq hbody
          obtain ⟨hnm, hrest⟩ := u32_delimited n.toNat_lt m.toNat_lt htail
          obtain rfl := UInt32.toNat_inj.mp hnm
          exact ⟨rfl, hrest⟩
      | _ => simp [tag] at htag
  | and l r ihl ihr =>
      intro q hp hq rest rest' h
      obtain ⟨htag, hbody⟩ := split_tag h
      cases q with
      | and l' r' =>
          simp only [body, List.append_assoc] at hbody
          obtain ⟨rfl, htail⟩ := ihl hp.1 hq.1 hbody
          obtain ⟨rfl, hrest⟩ := ihr hp.2 hq.2 htail
          exact ⟨rfl, hrest⟩
      | _ => simp [tag] at htag
  | or l r ihl ihr =>
      intro q hp hq rest rest' h
      obtain ⟨htag, hbody⟩ := split_tag h
      cases q with
      | or l' r' =>
          simp only [body, List.append_assoc] at hbody
          obtain ⟨rfl, htail⟩ := ihl hp.1 hq.1 hbody
          obtain ⟨rfl, hrest⟩ := ihr hp.2 hq.2 htail
          exact ⟨rfl, hrest⟩
      | _ => simp [tag] at htag
  | multiSig n as =>
      intro q hp hq rest rest' h
      obtain ⟨htag, hbody⟩ := split_tag h
      cases q with
      | multiSig m bs =>
          simp only [body, List.cons_append, List.cons.injEq, List.append_assoc] at hbody
          obtain ⟨rfl, hcount⟩ := hbody
          obtain ⟨hlen, htail⟩ := u64_delimited hp.1 hq.1 hcount
          obtain ⟨rfl, hrest⟩ := bytes_delimited.flatMap_append hp.2 hq.2 hlen htail
          exact ⟨rfl, hrest⟩
      | _ => simp [tag] at htag
  | creditAccount a =>
      intro q hp hq rest rest' h
      obtain ⟨htag, hbody⟩ := split_tag h
      cases q with
      | creditAccount b =>
          obtain ⟨rfl, hrest⟩ := bytes_delimited hp hq hbody
          exact ⟨rfl, hrest⟩
      | _ => simp [tag] at htag
  | annulAfter a n =>
      intro q hp hq rest rest' h
      obtain ⟨htag, hbody⟩ := split_tag h
      cases q with
      | annulAfter b m =>
          simp only [body, List.append_assoc] at hbody
          obtain ⟨rfl, htail⟩ := bytes_delimited hp.1 hq.1 hbody
          obtain ⟨rfl, hrest⟩ := u64_delimited hp.2 hq.2 htail
          exact ⟨rfl, hrest⟩
      | _ => simp [tag] at htag
  | exactValue v inner ih =>
      intro q hp hq rest rest' h
      obtain ⟨htag, hbody⟩ := split_tag h
      cases q with
      | exactValue v' inner' =>
          simp only [body, List.append_assoc] at hbody
          obtain ⟨rfl, htail⟩ := u128_delimited hp.1 hq.1 hbody
          obtain ⟨rfl, hrest⟩ := ih hp.2 hq.2 htail
          exact ⟨rfl, hrest⟩
      | _ => simp [tag] at htag
  | commitData a =>
      intro q hp hq rest rest' h
      obtain ⟨htag, hbody⟩ := split_tag h
      cases q with
      | commitData b =>
          obtain ⟨rfl, hrest⟩ := hash_delimited trivial trivial hbody
          exact ⟨rfl, hrest⟩
      | _ => simp [tag] at htag

/-! ### The live outputs -/

/-- One entry of the outputs' commitment. -/
def UtxoSet.entryBytes (e : OutPoint × TxOut) : Bytes :=
  e.1.txid.asBytes ++ u32 e.1.vout.toNat ++ u128 e.2.value ++ u64 e.2.createdBlue
    ++ encode e.2.predicate

/-- The numbers of an output fit the source's types. -/
structure TxOut.Fits (out : TxOut) : Prop where
  value : out.value < 2 ^ 128
  createdBlue : out.createdBlue < 2 ^ 64
  predicate : out.predicate.Fits

theorem UtxoSet.entryBytes_delimited :
    SelfDelimiting (fun e : OutPoint × TxOut => e.2.Fits) UtxoSet.entryBytes := by
  rintro ⟨⟨txid, vout⟩, ⟨value, predicate, createdBlue⟩⟩
    ⟨⟨txid', vout'⟩, ⟨value', predicate', createdBlue'⟩⟩ hx hy rest rest' h
  simp only [entryBytes, List.append_assoc] at h
  obtain ⟨rfl, h₁⟩ := hash_delimited trivial trivial h
  obtain ⟨hvout, h₂⟩ := u32_delimited vout.toNat_lt vout'.toNat_lt h₁
  obtain rfl := UInt32.toNat_inj.mp hvout
  obtain ⟨rfl, h₃⟩ := u128_delimited hx.value hy.value h₂
  obtain ⟨rfl, h₄⟩ := u64_delimited hx.createdBlue hy.createdBlue h₃
  obtain ⟨rfl, hrest⟩ := Predicate.toBytes_delimited hx.predicate hy.predicate h₄
  exact ⟨rfl, hrest⟩

/-- The message the live outputs are committed with. -/
def UtxoSet.preimage (u : UtxoSet) : Bytes :=
  utf8 "hassan-utxo-set-v1" ++ u.entries.toList.flatMap entryBytes

def UtxoSet.Fits (u : UtxoSet) : Prop := ∀ e ∈ u.entries.toList, e.2.Fits

/-- **The outputs can be read back** from the message. -/
theorem UtxoSet.entries_of_preimage {u v : UtxoSet} (hu : u.Fits) (hv : v.Fits)
    (h : u.preimage = v.preimage) : u.entries = v.entries := by
  have hne : ∀ e, entryBytes e ≠ [] := by
    intro e hnil
    have := congrArg List.length hnil
    simp [entryBytes] at this
  exact ExtTreeMap.toList_inj.mp
    (entryBytes_delimited.flatMap_inj hne hu hv (List.append_cancel_left h))

/-! ### The accounts -/

/-- What the state root hashes of an account. -/
def Account.committed (a : Account) : Nat × Nat × Nat := (a.balance, a.nonce, a.lastSpendBlue)

/-- One account record: the address has no length in front. -/
def recordBytes (e : Address × Nat × Nat × Nat) : Bytes :=
  e.1 ++ (u128 e.2.1 ++ (u64 e.2.2.1 ++ u64 e.2.2.2))

/-- The numbers of a record fit the source's types. -/
def RecordFits (e : Address × Nat × Nat × Nat) : Prop :=
  e.2.1 < 2 ^ 128 ∧ e.2.2.1 < 2 ^ 64 ∧ e.2.2.2 < 2 ^ 64

/-- Records whose addresses have known lengths can be read back. -/
theorem records_of_flatMap {xs ys : List (Address × Nat × Nat × Nat)}
    (hxs : ∀ e ∈ xs, RecordFits e) (hys : ∀ e ∈ ys, RecordFits e)
    (hlen : xs.map (·.1.length) = ys.map (·.1.length))
    (h : xs.flatMap recordBytes = ys.flatMap recordBytes) : xs = ys := by
  induction xs generalizing ys with
  | nil =>
      cases ys with
      | nil => rfl
      | cons y ys => simp at hlen
  | cons x xs ih =>
      cases ys with
      | nil => simp at hlen
      | cons y ys =>
          obtain ⟨a, bal, non, blue⟩ := x
          obtain ⟨a', bal', non', blue'⟩ := y
          obtain ⟨hx, hxrest⟩ := List.forall_mem_cons.mp hxs
          obtain ⟨hy, hyrest⟩ := List.forall_mem_cons.mp hys
          simp only [List.map_cons, List.cons.injEq] at hlen
          simp only [List.flatMap_cons, recordBytes, List.append_assoc] at h
          obtain ⟨rfl, h₁⟩ := List.append_inj h hlen.1
          obtain ⟨rfl, h₂⟩ := u128_delimited hx.1 hy.1 h₁
          obtain ⟨rfl, h₃⟩ := u64_delimited hx.2.1 hy.2.1 h₂
          obtain ⟨rfl, h₄⟩ := u64_delimited hx.2.2 hy.2.2 h₃
          rw [ih hxrest hyrest hlen.2 h₄]

/-! ### The state root -/

namespace Ledger

/-- The accounts as far as the state root hashes them. -/
def accountView (l : Ledger) : ExtTreeMap Address (Nat × Nat × Nat) :=
  l.accounts.map fun _ a => a.committed

/-- The numbers of a ledger fit the source's types. -/
structure Fits (l : Ledger) : Prop where
  accounts : ∀ e ∈ l.accountView.toList, RecordFits e
  mintedSupply : l.mintedSupply < 2 ^ 128
  feesBurned : l.feesBurned < 2 ^ 128
  utxo : l.utxo.Fits

section Root

variable [Crypto]

/-- The message a ledger is committed with. -/
def preimage (l : Ledger) : Bytes :=
  utf8 "hassan-state-root-v2" ++ (l.accountView.toList.flatMap recordBytes
    ++ (l.utxo.commitment.asBytes ++ (u128 l.mintedSupply ++ u128 l.feesBurned)))

theorem commitment_eq (u : UtxoSet) : u.commitment = Crypto.blake3 u.preimage := rfl

theorem merkleRoot_eq (l : Ledger) : l.merkleRoot = Crypto.blake3 l.preimage := by
  rw [merkleRoot, preimage, accountView, ExtTreeMap.toList_map, List.flatMap_map]
  simp only [recordBytes, Account.committed, List.append_assoc]

/-- What the message fixes, whatever the addresses are. -/
theorem of_preimage {l m : Ledger} (hl : l.Fits) (hm : m.Fits) (h : l.preimage = m.preimage) :
    l.accountView.toList.flatMap recordBytes = m.accountView.toList.flatMap recordBytes ∧
      l.utxo.commitment = m.utxo.commitment ∧ l.mintedSupply = m.mintedSupply ∧
      l.feesBurned = m.feesBurned := by
  -- the last three fields have fixed widths
  obtain ⟨hrecords, htail⟩ := List.append_inj' (List.append_cancel_left h) (by simp [u128])
  obtain ⟨hutxo, htail⟩ := hash_delimited trivial trivial htail
  obtain ⟨hminted, htail⟩ := u128_delimited hl.mintedSupply hm.mintedSupply htail
  have hfees := u128_delimited hl.feesBurned hm.feesBurned (congrArg (· ++ []) htail)
  exact ⟨hrecords, hutxo, hminted, hfees.1⟩

end Root

/-- The fields later validation reads are the same. -/
structure AgreesWith (l m : Ledger) : Prop where
  accounts : l.accountView = m.accountView
  outputs : l.utxo.entries = m.utxo.entries
  spent : l.utxo.spent = m.utxo.spent
  staked : l.staked = m.staked
  registry : l.registry = m.registry
  mintedSupply : l.mintedSupply = m.mintedSupply
  feesBurned : l.feesBurned = m.feesBurned

/-- The parts that the state root leaves open are the same: the spent set, the
stakes, titles and escrows, and where the account addresses end. -/
structure SameUncommitted (l m : Ledger) : Prop where
  spent : l.utxo.spent = m.utxo.spent
  staked : l.staked = m.staked
  registry : l.registry = m.registry
  addresses : l.accountView.toList.map (·.1.length) = m.accountView.toList.map (·.1.length)

/-- The digests of two ledgers do not collide. -/
structure NoCollision [Crypto] (l m : Ledger) : Prop where
  root : Crypto.blake3 l.preimage = Crypto.blake3 m.preimage → l.preimage = m.preimage
  outputs : Crypto.blake3 l.utxo.preimage = Crypto.blake3 m.utxo.preimage →
    l.utxo.preimage = m.utxo.preimage

/-- **Of two ledgers with one state root**, exactly the uncommitted parts can
differ. -/
theorem agreesWith_iff [Crypto] {l m : Ledger} (hl : l.Fits) (hm : m.Fits) (hfree : l.NoCollision m)
    (hroot : l.merkleRoot = m.merkleRoot) : l.AgreesWith m ↔ l.SameUncommitted m := by
  constructor
  · intro h
    exact ⟨h.spent, h.staked, h.registry, by rw [h.accounts]⟩
  · intro h
    rw [merkleRoot_eq, merkleRoot_eq] at hroot
    obtain ⟨hrecords, hutxo, hminted, hfees⟩ := of_preimage hl hm (hfree.root hroot)
    rw [commitment_eq, commitment_eq] at hutxo
    refine ⟨?_, ?_, h.spent, h.staked, h.registry, hminted, hfees⟩
    · exact ExtTreeMap.toList_inj.mp (records_of_flatMap hl.accounts hm.accounts h.addresses hrecords)
    · exact UtxoSet.entries_of_preimage hl.utxo hm.utxo (hfree.outputs hutxo)

end Ledger

end HassanNode
