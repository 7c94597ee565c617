import Mathlib
import HassanNode.Ledger.RegistrySound
import HassanNode.Ledger.Unlock

/-!
# HassanNode.Ledger.Unlocking

Which predicates somebody can unlock. Whoever holds the keys and preimages that
open a predicate can put a witness together for it (`opens_evalInner`), along
the tree: a pair for an `and`, the signatures of the other members for a
multi-signature, a wrapped witness for the side of an `or` that opens. What is
not opened by them no witness made of them unlocks.
-/

namespace HassanNode

open Params

/-! ### Holdings -/

/-- What the holders of an output can put into a witness. -/
structure Holdings where
  /-- Public keys, each with its signature over the spend. -/
  signatures : Set (Bytes × Bytes)
  preimages : Set Bytes

namespace Holdings

/-- Every signature and every preimage of the witness is held. -/
structure Makes (k : Holdings) (w : UnlockWitness) : Prop where
  signature : ∀ pubkey signature, UnlockWitness.Within (.cosignerSig pubkey signature) w →
    (pubkey, signature) ∈ k.signatures
  preimage : ∀ pre, UnlockWitness.Within (.preimage pre) w → pre ∈ k.preimages

variable {k : Holdings}

theorem makes_signature : k.Makes .signature := by
  constructor
  · intro pubkey signature h
    cases h
  · intro pre h
    cases h

theorem makes_preimage {pre : Bytes} (h : pre ∈ k.preimages) : k.Makes (.preimage pre) := by
  constructor
  · intro pubkey signature hin
    cases hin
  · intro pre' hin
    cases hin
    exact h

theorem makes_cosignerSig {s : Bytes × Bytes} (h : s ∈ k.signatures) : k.Makes (.cosignerSig s.1 s.2) := by
  constructor
  · intro pubkey signature hin
    cases hin
    exact h
  · intro pre hin
    cases hin

theorem makes_stack {ws : List UnlockWitness} (h : ∀ w ∈ ws, k.Makes w) : k.Makes (.stack ws) := by
  constructor
  · intro pubkey signature hin
    cases hin with
    | item hw hin => exact (h _ hw).signature pubkey signature hin
  · intro pre hin
    cases hin with
    | item hw hin => exact (h _ hw).preimage pre hin

variable [Crypto] {signer : Address} {mediaBlue createdBlue value : Nat} {msg : Bytes}

/-- What the holdings bring along for a spend. -/
def attempt (k : Holdings) (signer : Address) (mediaBlue createdBlue value : Nat) (msg : Bytes) : Attempt where
  signer := signer
  mediaBlue := mediaBlue
  createdBlue := createdBlue
  value := value
  cosigned a := ∃ s ∈ k.signatures, Cosigns msg s.1 s.2 ∧ Address.equivalent a (Address.ofPubkey s.1) = true
  revealed h := ∃ pre ∈ k.preimages, hashlockCommitment pre = h

/-- A witness made of the holdings brings nothing else. -/
theorem Makes.le {w : UnlockWitness} (h : k.Makes w) :
    (Attempt.of signer mediaBlue createdBlue value (some msg) w).Le
      (k.attempt signer mediaBlue createdBlue value msg) := by
  refine ⟨rfl, rfl, rfl, ?_, ?_⟩
  · rintro a ⟨msg', pubkey, signature, hmsg, hin, hsigns, ha⟩
    obtain rfl := Option.some.inj hmsg
    exact ⟨(pubkey, signature), h.signature pubkey signature hin, hsigns, ha⟩
  · rintro d ⟨pre, hin, hpre⟩
    exact ⟨pre, h.preimage pre hin, hpre⟩

end Holdings

/-! ### Multi-signatures -/

/-- The members a signer still needs: pairwise different ones, none of them the
signer. -/
theorem Attempt.Threshold.others {c : Attempt} {n : Nat} {addresses : List Address}
    (h : c.Threshold n addresses) : ∃ others : List Address, others.length = n - 1 ∧
      (∀ m ∈ others, m ∈ addresses ∧ c.cosigned m) ∧
      (c.signer :: others).Pairwise (fun a b => Address.equivalent a b = false) := by
  obtain ⟨members, hmembers, hdistinct, hlen⟩ := h
  have hone : (members.filter (Address.equivalent · c.signer)).length ≤ 1 := by
    have hpair := hdistinct.filter (Address.equivalent · c.signer)
    match hfilter : members.filter (Address.equivalent · c.signer) with
    | [] | [_] => simp
    | a :: b :: rest =>
      have hmem : ∀ m ∈ a :: b :: rest, Address.equivalent m c.signer = true := by
        intro m hm
        rw [← hfilter] at hm
        exact (List.mem_filter.mp hm).2
      rw [hfilter] at hpair
      have hab := (List.pairwise_cons.mp hpair).1 b List.mem_cons_self
      have ha := hmem a List.mem_cons_self
      have hb := hmem b (List.mem_cons_of_mem a List.mem_cons_self)
      rw [Address.equivalent_trans ha (Address.equivalent_symm hb)] at hab
      cases hab
  have hsplit := List.length_eq_length_filter_add (Address.equivalent · c.signer) (l := members)
  refine ⟨(members.filter (!Address.equivalent · c.signer)).take (n - 1), ?_, fun m hm => ?_, ?_⟩
  · rw [List.length_take]
    omega
  · obtain ⟨hm, hother⟩ := List.mem_filter.mp (List.mem_of_mem_take hm)
    refine ⟨(hmembers m hm).1, (hmembers m hm).2.resolve_left ?_⟩
    simpa using hother
  · refine List.pairwise_cons.mpr ⟨fun m hm => ?_, (hdistinct.filter _).sublist (List.take_sublist _ _)⟩
    have hother := (List.mem_filter.mp (List.mem_of_mem_take hm)).2
    refine Bool.eq_false_iff.mpr fun heq => ?_
    simp [Address.equivalent_symm heq] at hother

/-- Different members are counted under different keys. -/
theorem length_le_of_canon {addresses counted reps : List Address}
    (hdistinct : reps.Pairwise (fun a b => Address.equivalent a b = false))
    (hcounted : ∀ a ∈ reps, ∃ key ∈ counted, Address.canon addresses a = some key) :
    reps.length ≤ counted.length := by
  choose! key hkey hcanon using hcounted
  have hnodup : (reps.map key).Nodup := by
    refine List.pairwise_map.mpr (hdistinct.imp_of_mem fun {a b} ha hb hne heq => ?_)
    have hka := Address.canon_equivalent (hcanon a ha)
    rw [heq] at hka
    rw [Address.equivalent_trans (Address.equivalent_symm hka) (Address.canon_equivalent (hcanon b hb))] at hne
    cases hne
  have hsub : reps.map key ⊆ counted := by
    intro x hx
    obtain ⟨a, ha, rfl⟩ := List.mem_map.mp hx
    exact hkey a ha
  simpa using (hnodup.subperm hsub).length_le

section Unlocking

variable [Crypto] {signer : Address} {mediaBlue createdBlue value : Nat} {msg : Bytes}

/-- Members who have signed are counted. -/
theorem evalCosigners_signed {addresses : List Address} {msg : Bytes} {sigs : List (Bytes × Bytes)}
    (hsigs : ∀ s ∈ sigs, Cosigns msg s.1 s.2 ∧ ∃ key, Address.canon addresses (Address.ofPubkey s.1) = some key)
    (present : List Address) : ∃ counted,
      evalCosigners addresses msg (sigs.map fun s => .cosignerSig s.1 s.2) present = .ok counted ∧
      (∀ key ∈ present, key ∈ counted) ∧
      ∀ s ∈ sigs, ∀ key, Address.canon addresses (Address.ofPubkey s.1) = some key → key ∈ counted := by
  induction sigs generalizing present with
  | nil => exact ⟨present, rfl, fun _ h => h, by simp⟩
  | cons s sigs ih =>
    obtain ⟨hsigns, key, hkey⟩ := hsigs s List.mem_cons_self
    obtain ⟨counted, hrun, hpresent, hcounted⟩ :=
      ih (fun s' hs' => hsigs s' (List.mem_cons_of_mem s hs')) (present.insert key)
    have hsized : s.1.length = pqPublicKeySize ∧ s.2.length = pqSignatureSize := by
      simp only [Cosigns, verifyPq512, verifySignature, Bool.and_eq_true, beq_iff_eq] at hsigns
      exact hsigns.1
    refine ⟨counted, ?_, fun key' hkey' => hpresent key' (List.mem_insert_of_mem hkey'), ?_⟩
    · have hfind : addresses.find? (Address.equivalent · (Address.ofPubkey s.1)) = some key := hkey
      have hsigns' : verifyPq512 (utf8 "utxo-tx") msg s.1 s.2 = true := hsigns
      simp only [List.map_cons, evalCosigners, hsized, ne_eq, not_true_eq_false, if_false, hfind, hsigns',
        Bool.not_true, Bool.false_eq_true]
      exact hrun
    · intro s' hs' key' hkey'
      rcases List.mem_cons.mp hs' with rfl | hrest
      · obtain rfl := Option.some.inj (hkey.symm.trans hkey')
        exact hpresent key List.mem_insert_self
      · exact hcounted s' hrest key' hkey'

/-- The signatures of enough members satisfy a multi-signature the signer
belongs to. -/
theorem multiSig_evaluates {k : Holdings} {n : UInt8} {addresses : List Address} (hpos : 0 < n.toNat)
    (hsigner : ∃ a ∈ addresses, Address.equivalent a signer = true) (hn : n.toNat ≤ Predicate.maxSigners)
    (h : (k.attempt signer mediaBlue createdBlue value msg).Threshold n.toNat addresses) :
    ∃ w, k.Makes w ∧ evalMultisig n addresses w signer (some msg) = .ok () := by
  obtain ⟨a, ha, hequiv⟩ := hsigner
  obtain ⟨primary, hprimary⟩ := Address.canon_isSome ha hequiv
  obtain ⟨others, hlen, hothers, hdistinct⟩ := h.others
  have hcosigned : ∀ m ∈ others, ∃ s ∈ k.signatures, Cosigns msg s.1 s.2 ∧
      Address.equivalent m (Address.ofPubkey s.1) = true := fun m hm => (hothers m hm).2
  choose! sig hsig hsigns hmember using hcosigned
  have hcanon : ∀ m ∈ others, ∃ key, Address.canon addresses (Address.ofPubkey (sig m).1) = some key :=
    fun m hm => Address.canon_isSome (hothers m hm).1 (hmember m hm)
  have hsigned : ∀ s ∈ others.map sig, Cosigns msg s.1 s.2 ∧
      ∃ key, Address.canon addresses (Address.ofPubkey s.1) = some key := by
    intro s hs
    obtain ⟨m, hm, rfl⟩ := List.mem_map.mp hs
    exact ⟨hsigns m hm, hcanon m hm⟩
  obtain ⟨counted, hrun, hpresent, hcounted⟩ := evalCosigners_signed hsigned [primary]
  have hkeys : ∀ a ∈ signer :: others, ∃ key ∈ counted, Address.canon addresses a = some key := by
    intro a ha
    rcases List.mem_cons.mp ha with rfl | hm
    · exact ⟨primary, hpresent primary List.mem_cons_self, hprimary⟩
    · obtain ⟨key, hkey⟩ := hcanon a hm
      refine ⟨key, hcounted _ (List.mem_map_of_mem hm) key hkey, ?_⟩
      rw [Address.canon_congr (hmember a hm), hkey]
  have hmembers : ∀ a ∈ signer :: others, ∃ key ∈ addresses, Address.canon addresses a = some key := by
    intro a ha
    obtain ⟨key, -, hkey⟩ := hkeys a ha
    exact ⟨key, Address.canon_mem hkey, hkey⟩
  have hlenCounted := length_le_of_canon hdistinct hkeys
  have hlenAddresses := length_le_of_canon hdistinct hmembers
  rw [List.length_cons, hlen] at hlenCounted hlenAddresses
  have hroom : (others.map fun m => UnlockWitness.cosignerSig (sig m).1 (sig m).2).length ≤ maxStack := by
    unfold Predicate.maxSigners at hn
    rw [List.length_map, hlen]
    omega
  rw [List.map_map] at hrun
  refine ⟨.stack (others.map fun m => .cosignerSig (sig m).1 (sig m).2), Holdings.makes_stack ?_,
    evalMultisig_iff.mpr ⟨⟨hpos, by omega⟩, primary, msg, _, counted, hprimary, rfl, rfl, hroom, hrun, by omega⟩⟩
  intro w hw
  obtain ⟨m, hm, rfl⟩ := List.mem_map.mp hw
  exact Holdings.makes_cosignerSig (hsig m hm)

/-! ### Completeness of the evaluator -/

/-- Whoever can open a predicate can put a witness together for it. -/
theorem opens_evalInner {k : Holdings} {p : Predicate} (hcounted : p.Counted)
    (h : p.Opens (k.attempt signer mediaBlue createdBlue value msg)) :
    ∃ w, k.Makes w ∧ evalInner signer mediaBlue createdBlue (some msg) p w = .ok () := by
  unfold Predicate.Opens at h
  induction p with
  | payToAddress a =>
    refine ⟨.signature, Holdings.makes_signature, ?_⟩
    unfold evalInner
    exact Except.then_ok_iff.mpr ⟨checkOwner_iff.mpr h, rfl⟩
  | absoluteLock a unlockBlue =>
    refine ⟨.signature, Holdings.makes_signature, ?_⟩
    unfold evalInner
    exact (if_neg (Nat.not_lt.mpr h.1)).trans (checkOwner_iff.mpr h.2)
  | relativeLock a blues =>
    refine ⟨.signature, Holdings.makes_signature, ?_⟩
    unfold evalInner
    exact (if_neg (Nat.not_lt.mpr h.1)).trans (checkOwner_iff.mpr h.2)
  | annulAfter a expireBlue =>
    refine ⟨.signature, Holdings.makes_signature, ?_⟩
    unfold evalInner
    exact (if_neg (Nat.not_le.mpr h.1)).trans (checkOwner_iff.mpr h.2)
  | hashLock d | commitData d =>
    obtain ⟨pre, hpre, hd⟩ := h
    refine ⟨.preimage pre, Holdings.makes_preimage hpre, ?_⟩
    simp [evalInner, evalPreimage, hd]
  | creditAccount a => exact h.elim
  | exactValue v inner ih =>
    obtain ⟨w, hw, heval⟩ := ih hcounted h.2
    exact ⟨w, hw, heval⟩
  | and l r ihl ihr =>
    obtain ⟨w₀, hw₀, hl⟩ := ihl hcounted.1 h.1
    obtain ⟨w₁, hw₁, hr⟩ := ihr hcounted.2 h.2
    refine ⟨.stack [w₀, w₁], Holdings.makes_stack ?_, evalInner_and.mpr ⟨w₀, w₁, [], rfl, by decide, hl, hr⟩⟩
    simp [hw₀, hw₁]
  | or l r ihl ihr =>
    have hwrap : ∀ w, k.Makes w → evalInner signer mediaBlue createdBlue (some msg) l w = .ok () ∨
        evalInner signer mediaBlue createdBlue (some msg) r w = .ok () →
        ∃ w', k.Makes w' ∧ evalInner signer mediaBlue createdBlue (some msg) (.or l r) w' = .ok () := by
      intro w hw heither
      refine ⟨.stack [w], Holdings.makes_stack ?_, evalInner_or.mpr ⟨w, rfl, heither⟩⟩
      simp [hw]
    rcases h with hl | hr
    · obtain ⟨w, hw, heval⟩ := ihl hcounted.1 hl
      exact hwrap w hw (Or.inl heval)
    · obtain ⟨w, hw, heval⟩ := ihr hcounted.2 hr
      exact hwrap w hw (Or.inr heval)
  | multiSig n addresses => exact multiSig_evaluates hcounted.1 h.1 h.2.1 h.2.2

/-- **What can be unlocked.** For a predicate of the allowed depth with sensible
thresholds, the holders of keys and preimages can put together a witness that
unlocks it if and only if they open it and its value covenants, all of them, are
for the value. -/
theorem unlock_complete {k : Holdings} {p : Predicate} (hdepth : p.depth ≤ maxPredDepth)
    (hcounted : p.Counted) :
    p.Opens (k.attempt signer mediaBlue createdBlue value msg) ∧ p.Binds value ↔
      ∃ w, k.Makes w ∧ evaluateFull p w signer mediaBlue createdBlue (some msg) = .ok () ∧
        assertExactValueBinds value p = .ok () := by
  have hfull : ∀ w, evaluateFull p w signer mediaBlue createdBlue (some msg)
      = evalInner signer mediaBlue createdBlue (some msg) p w :=
    fun w => if_neg (Nat.not_lt.mpr hdepth)
  constructor
  · rintro ⟨hopens, hbinds⟩
    obtain ⟨w, hw, heval⟩ := opens_evalInner hcounted hopens
    exact ⟨w, hw, (hfull w).trans heval, assertExactValueBinds_iff.mpr hbinds⟩
  · rintro ⟨w, hw, heval, hbinds⟩
    exact ⟨(evalInner_opens ((hfull w).symm.trans heval)).mono hw.le, assertExactValueBinds_iff.mp hbinds⟩

/-! ### Stranded outputs -/

/-- An acceptable output whose predicate holds of what the holders have, and
which no witness unlocks. -/
structure Stranded (out : TxOut) (k : Holdings) (signer : Address) (mediaBlue : Nat) (msg : Bytes) : Prop where
  valid : UtxoTx.validateOutput out = .ok ()
  depth : out.predicate.depth ≤ maxPredDepth
  counted : out.predicate.Counted
  holds : out.predicate.Holds (k.attempt signer mediaBlue out.createdBlue out.value msg)
  locked : ∀ w, ¬ (evaluateFull out.predicate w signer mediaBlue out.createdBlue (some msg) = .ok () ∧
    assertExactValueBinds out.value out.predicate = .ok ())

/-- An output that holds but does not open, or does not bind, is stranded. -/
theorem Stranded.of_not_opens {out : TxOut} {k : Holdings} (hvalid : UtxoTx.validateOutput out = .ok ())
    (hdepth : out.predicate.depth ≤ maxPredDepth) (hcounted : out.predicate.Counted)
    (hholds : out.predicate.Holds (k.attempt signer mediaBlue out.createdBlue out.value msg))
    (hnot : ∀ c : Attempt, c.signer = signer → ¬ (out.predicate.Opens c ∧ out.predicate.Binds out.value)) :
    Stranded out k signer mediaBlue msg := by
  refine ⟨hvalid, hdepth, hcounted, hholds, fun w ⟨heval, hbinds⟩ => ?_⟩
  unfold evaluateFull at heval
  split at heval
  · cases heval
  · exact hnot (Attempt.of signer mediaBlue out.createdBlue 0 (some msg) w) rfl
      ⟨evalInner_opens heval, assertExactValueBinds_iff.mp hbinds⟩

end Unlocking

namespace Sample

open RegistryRun

/-- Every party has signed. -/
def everybody : Holdings where
  signatures := {s | ∃ n, s = (partyKey n, List.replicate pqSignatureSize 0)}
  preimages := Set.univ

/-- A member of a multi-signature approves. -/
theorem everybody_cosigned (n : UInt8) {signer : Address} {mediaBlue createdBlue value : Nat} {msg : Bytes} :
    (@Holdings.attempt sampleCrypto everybody signer mediaBlue createdBlue value msg).Approves
      (partyAddress n) := by
  refine Or.inr ⟨(partyKey n, List.replicate pqSignatureSize 0), ⟨n, rfl⟩, ?_, Address.equivalent_refl _⟩
  exact verifyPq512_sample _ _ List.length_replicate List.length_replicate

def parties (n : Nat) : List Address := (List.range n).map fun i => partyAddress (UInt8.ofNat i)

theorem parties_distinct : (parties 18).Pairwise (fun a b => Address.equivalent a b = false) := by
  have hrange : (List.range 18).Pairwise (fun i j => i ∈ List.range 18 ∧ j ∈ List.range 18 ∧ i ≠ j) :=
    (List.nodup_range (n := 18)).imp_of_mem fun hi hj hne => ⟨hi, hj, hne⟩
  exact List.pairwise_map.mpr (hrange.imp fun h =>
    partyAddress_apart (List.mem_range.mp h.1) (List.mem_range.mp h.2.1) h.2.2)

/-- All eighteen have signed. -/
theorem parties_threshold {signer : Address} {mediaBlue createdBlue value : Nat} {msg : Bytes} :
    (@Holdings.attempt sampleCrypto everybody signer mediaBlue createdBlue value msg).Threshold 18
      (parties 18) := by
  refine ⟨parties 18, fun m hm => ⟨hm, ?_⟩, parties_distinct, by simp [parties]⟩
  obtain ⟨i, -, rfl⟩ := List.mem_map.mp hm
  exact everybody_cosigned _

/-- Three ways to strand a coin: a value covenant for another value on the side
of an `or` that is not needed, a signer who does not belong to the set, and more
members than a witness has room for. -/
theorem stranded :
    @Stranded sampleCrypto ⟨1000, .or (.hashLock (@hashlockCommitment sampleCrypto []))
      (.exactValue 1 (.hashLock Hash.zero)), 0⟩ everybody (partyAddress 0) 0 [] ∧
    @Stranded sampleCrypto ⟨1000, .multiSig 1 [partyAddress 1], 0⟩ everybody (partyAddress 0) 0 [] ∧
    @Stranded sampleCrypto ⟨1000, .multiSig 18 (parties 18), 0⟩ everybody (partyAddress 0) 0 [] := by
  let := sampleCrypto
  refine ⟨Stranded.of_not_opens rfl (by decide) ⟨trivial, trivial⟩ ?_ ?_,
    Stranded.of_not_opens rfl (by decide) ?_ ?_ ?_, Stranded.of_not_opens rfl (by decide) ?_ ?_ ?_⟩
  · exact Or.inl ⟨[], trivial, rfl⟩
  · rintro c - ⟨-, -, hbinds, -⟩
    cases hbinds
  · exact ⟨by decide, [partyAddress 1], by simp, by simp, le_refl 1⟩
  · refine ⟨[partyAddress 1], ?_, by simp, le_refl 1⟩
    simp [everybody_cosigned]
  · rintro c hsigner ⟨⟨⟨a, ha, hequiv⟩, -⟩, -⟩
    obtain rfl := List.mem_singleton.mp ha
    rw [hsigner] at hequiv
    have hother : Address.equivalent (partyAddress 1) (partyAddress 0) = false :=
      partyAddress_apart (by decide : 1 < 18) (by decide : 0 < 18) (by decide)
    rw [hother] at hequiv
    cases hequiv
  · exact ⟨by decide, parties 18, fun _ h => h, parties_distinct, by simp [parties]⟩
  · exact parties_threshold
  · rintro c - ⟨⟨-, hn, -⟩, -⟩
    exact absurd hn (by decide)

/-- A hash-locked coin is open to whoever knows the preimage. -/
theorem unlock_complete_preimage : ∃ w, everybody.Makes w ∧
    @evaluateFull sampleCrypto (.hashLock (@hashlockCommitment sampleCrypto [])) w (partyAddress 0) 0 0 (some [])
      = .ok () ∧
    assertExactValueBinds 1000 (.hashLock (@hashlockCommitment sampleCrypto [])) = .ok () := by
  let := sampleCrypto
  have hdepth : (Predicate.hashLock (hashlockCommitment [])).depth ≤ maxPredDepth := by
    simp [Predicate.depth, maxPredDepth]
  have hcounted : (Predicate.hashLock (hashlockCommitment [])).Counted := trivial
  exact (unlock_complete hdepth hcounted).mp ⟨⟨[], trivial, rfl⟩, trivial⟩

end Sample

end HassanNode
