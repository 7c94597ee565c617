import Mathlib
import HassanNode.Lib.Fallible
import HassanNode.Core.Spelling
import HassanNode.Ledger.Utxo

/-!
# HassanNode.Ledger.Unlock

What a spend predicate means, apart from witnesses (`Predicate.Holds`), and what
the evaluator makes of it (`Predicate.Opens`): a multi-signature counts only for
a signer who is a member, and for no more members than a witness stack has room
for. The evaluator is sound for the second meaning (`evalInner_opens`), and the first
one follows from it once the value covenants are checked.
-/

namespace HassanNode

open Params Bincode

/-! ### Meaning -/

/-- What somebody who wants to spend an output has. -/
structure Attempt where
  signer : Address
  mediaBlue : Nat
  createdBlue : Nat
  /-- The value of the output. -/
  value : Nat
  /-- Whether a key of this address has signed the spend. -/
  cosigned : Address → Prop
  /-- Whether a preimage of this digest is at hand. -/
  revealed : Hash → Prop

namespace Attempt

/-- The address belongs to the signer or to a cosigner. -/
def Approves (c : Attempt) (a : Address) : Prop := Address.equivalent a c.signer = true ∨ c.cosigned a

/-- At least `n` members of `set`, no two of them spellings of one address,
approve. -/
def Threshold (c : Attempt) (n : Nat) (set : List Address) : Prop :=
  ∃ members : List Address, (∀ m ∈ members, m ∈ set ∧ c.Approves m) ∧
    members.Pairwise (fun a b => Address.equivalent a b = false) ∧ n ≤ members.length

/-- `c'` has at least what `c` has. -/
structure Le (c c' : Attempt) : Prop where
  signer : c'.signer = c.signer
  mediaBlue : c'.mediaBlue = c.mediaBlue
  createdBlue : c'.createdBlue = c.createdBlue
  cosigned : ∀ a, c.cosigned a → c'.cosigned a
  revealed : ∀ h, c.revealed h → c'.revealed h

theorem Le.threshold {c c' : Attempt} (hle : c.Le c') {n : Nat} {set : List Address}
    (h : c.Threshold n set) : c'.Threshold n set := by
  obtain ⟨members, hmembers, hdistinct, hlen⟩ := h
  refine ⟨members, fun m hm => ⟨(hmembers m hm).1, ?_⟩, hdistinct, hlen⟩
  rcases (hmembers m hm).2 with hsigner | hcosigned
  · exact Or.inl (hle.signer.symm ▸ hsigner)
  · exact Or.inr (hle.cosigned m hcosigned)

end Attempt

namespace Predicate

/-- The boolean meaning of a predicate tree, for a reading of its
multi-signatures and of its value covenants. -/
def Means (c : Attempt) (multi : Nat → List Address → Prop) (exact : Nat → Prop) : Predicate → Prop
  | .payToAddress a => Address.equivalent a c.signer = true
  | .hashLock h => c.revealed h
  | .absoluteLock a unlockBlue => unlockBlue ≤ c.mediaBlue ∧ Address.equivalent a c.signer = true
  | .relativeLock a blues =>
    satAdd64 c.createdBlue blues.toNat ≤ c.mediaBlue ∧ Address.equivalent a c.signer = true
  | .and l r => l.Means c multi exact ∧ r.Means c multi exact
  | .or l r => l.Means c multi exact ∨ r.Means c multi exact
  | .multiSig n set => multi n.toNat set
  | .creditAccount _ => False
  | .annulAfter a expireBlue => c.mediaBlue < expireBlue ∧ Address.equivalent a c.signer = true
  | .exactValue value inner => exact value ∧ inner.Means c multi exact
  | .commitData h => c.revealed h

/-- What a predicate says: `n` members approve, the value is the bound one. -/
def Holds (c : Attempt) (p : Predicate) : Prop := p.Means c c.Threshold (· = c.value)

/-- The primary signer and the cosigners a witness stack has room for. -/
def maxSigners : Nat := maxStack + 1

/-- What the evaluator lets through: the signer is a member and the members fit
the stack. Value covenants are not its business. -/
def Opens (c : Attempt) (p : Predicate) : Prop :=
  p.Means c (fun n set => (∃ a ∈ set, Address.equivalent a c.signer = true) ∧ n ≤ maxSigners ∧ c.Threshold n set)
    fun _ => True

/-- Every value covenant in the tree is for this value, on both sides of an
`or` as well. -/
def Binds (value : Nat) : Predicate → Prop
  | .exactValue bound inner => bound = value ∧ inner.Binds value
  | .and l r | .or l r => l.Binds value ∧ r.Binds value
  | _ => True

/-- Every multi-signature asks for at least one member, and for no more than
there are. -/
def Counted : Predicate → Prop
  | .multiSig n set => 0 < n.toNat ∧ ∃ members : List Address, (∀ m ∈ members, m ∈ set) ∧
      members.Pairwise (fun a b => Address.equivalent a b = false) ∧ n.toNat ≤ members.length
  | .and l r | .or l r => l.Counted ∧ r.Counted
  | .exactValue _ inner => inner.Counted
  | _ => True

theorem Opens.mono {c c' : Attempt} (hle : c.Le c') {p : Predicate} (h : p.Opens c) : p.Opens c' := by
  unfold Opens at h ⊢
  induction p with
  | payToAddress a => simpa only [Means, hle.signer] using h
  | hashLock d => exact hle.revealed d h
  | absoluteLock a blue => simpa only [Means, hle.signer, hle.mediaBlue] using h
  | relativeLock a blues => simpa only [Means, hle.signer, hle.mediaBlue, hle.createdBlue] using h
  | and l r ihl ihr => exact ⟨ihl h.1, ihr h.2⟩
  | or l r ihl ihr => exact h.imp ihl ihr
  | multiSig n set => exact ⟨by simpa only [hle.signer] using h.1, h.2.1, hle.threshold h.2.2⟩
  | creditAccount a => exact h
  | annulAfter a blue => simpa only [Means, hle.signer, hle.mediaBlue] using h
  | exactValue v inner ih => exact ⟨trivial, ih h.2⟩
  | commitData d => exact hle.revealed d h

/-- With its value covenants met, a predicate that opens holds. -/
theorem Opens.holds {c : Attempt} {p : Predicate} (h : p.Opens c) (hbinds : p.Binds c.value) : p.Holds c := by
  unfold Opens at h
  unfold Holds
  induction p with
  | and l r ihl ihr => exact ⟨ihl h.1 hbinds.1, ihr h.2 hbinds.2⟩
  | or l r ihl ihr => exact h.imp (fun hl => ihl hl hbinds.1) fun hr => ihr hr hbinds.2
  | multiSig n set => exact h.2.2
  | exactValue v inner ih => exact ⟨hbinds.1, ih h.2 hbinds.2⟩
  | payToAddress _ | hashLock _ | absoluteLock _ _ | relativeLock _ _ | creditAccount _ | annulAfter _ _
  | commitData _ => exact h

end Predicate

/-- `assert_exact_value_binds` walks the whole tree. -/
theorem assertExactValueBinds_iff {value : Nat} {p : Predicate} :
    assertExactValueBinds value p = .ok () ↔ p.Binds value := by
  induction p with
  | exactValue bound inner ih =>
    by_cases heq : bound = value
    · simp [assertExactValueBinds, Predicate.Binds, heq, ih]
    · simp [assertExactValueBinds, Predicate.Binds, heq]
  | and l r ihl ihr => simp only [assertExactValueBinds, Predicate.Binds, Except.then_ok_iff, ihl, ihr]
  | or l r ihl ihr => simp only [assertExactValueBinds, Predicate.Binds, Except.then_ok_iff, ihl, ihr]
  | payToAddress _ | hashLock _ | absoluteLock _ _ | relativeLock _ _ | creditAccount _ | annulAfter _ _
  | commitData _ | multiSig _ _ => simp [assertExactValueBinds, Predicate.Binds]

/-! ### Witnesses -/

namespace UnlockWitness

/-- `x` is somewhere in the witness tree. -/
inductive Within (x : UnlockWitness) : UnlockWitness → Prop
  | self : Within x x
  | item {ws : List UnlockWitness} {w : UnlockWitness} (hw : w ∈ ws) (h : Within x w) : Within x (.stack ws)

end UnlockWitness

theorem checkOwner_iff {name : String} {a signer : Address} :
    checkOwner name a signer = .ok () ↔ Address.equivalent a signer = true := by
  unfold checkOwner
  cases Address.equivalent a signer <;> simp

/-- The keys counted so far: distinct first members of the set, all of them
approving. -/
structure Tally (c : Attempt) (addresses present : List Address) : Prop where
  nodup : present.Nodup
  member : ∀ k ∈ present, ∃ a, Address.canon addresses a = some k
  approves : ∀ k ∈ present, c.Approves k

theorem Tally.threshold {c : Attempt} {addresses present : List Address} (h : Tally c addresses present)
    {n : Nat} (hn : n ≤ present.length) : c.Threshold n addresses := by
  refine ⟨present, fun k hk => ?_, ?_, hn⟩
  · obtain ⟨a, ha⟩ := h.member k hk
    exact ⟨Address.canon_mem ha, h.approves k hk⟩
  · refine h.nodup.imp_of_mem fun {k k'} hk hk' hne => ?_
    obtain ⟨a, ha⟩ := h.member k hk
    obtain ⟨b, hb⟩ := h.member k' hk'
    exact Bool.eq_false_iff.mpr fun heq => hne (Address.canon_unique ha hb heq)

theorem Tally.insert {c : Attempt} {addresses present : List Address} (h : Tally c addresses present)
    {k a : Address} (hk : Address.canon addresses a = some k) (happroves : c.Approves k) :
    Tally c addresses (present.insert k) := by
  refine ⟨h.nodup.insert, fun k' hk' => ?_, fun k' hk' => ?_⟩
  · rcases List.mem_insert_iff.mp hk' with rfl | hold
    · exact ⟨a, hk⟩
    · exact h.member k' hold
  · rcases List.mem_insert_iff.mp hk' with rfl | hold
    · exact happroves
    · exact h.approves k' hold

section Eval

variable [Crypto]

/-- The signature of a cosigner over a spend. -/
def Cosigns (msg pubkey signature : Bytes) : Prop := verifyPq512 (utf8 "utxo-tx") msg pubkey signature = true

/-- What a witness brings along. -/
def Attempt.of (signer : Address) (mediaBlue createdBlue value : Nat) (sighash : Option Bytes)
    (w : UnlockWitness) : Attempt where
  signer := signer
  mediaBlue := mediaBlue
  createdBlue := createdBlue
  value := value
  cosigned a := ∃ msg pubkey signature, sighash = some msg ∧ UnlockWitness.Within (.cosignerSig pubkey signature) w ∧
    Cosigns msg pubkey signature ∧ Address.equivalent a (Address.ofPubkey pubkey) = true
  revealed h := ∃ pre, UnlockWitness.Within (.preimage pre) w ∧ hashlockCommitment pre = h

/-- Part of a witness brings no more than the whole. -/
theorem Attempt.of_le {signer : Address} {mediaBlue createdBlue value : Nat} {sighash : Option Bytes}
    {w w' : UnlockWitness} (h : ∀ x, UnlockWitness.Within x w → UnlockWitness.Within x w') :
    (Attempt.of signer mediaBlue createdBlue value sighash w).Le
      (Attempt.of signer mediaBlue createdBlue value sighash w') := by
  refine ⟨rfl, rfl, rfl, ?_, ?_⟩
  · rintro a ⟨msg, pubkey, signature, hmsg, hin, hrest⟩
    exact ⟨msg, pubkey, signature, hmsg, h _ hin, hrest⟩
  · rintro d ⟨pre, hin, hpre⟩
    exact ⟨pre, h _ hin, hpre⟩

/-! ### Soundness of the evaluator -/

/-- The preimage arm finds its preimage in the witness. -/
theorem evalPreimage_within {name mismatch : String} {h : Hash} {w : UnlockWitness}
    (heval : evalPreimage name mismatch h w = .ok ()) :
    ∃ pre, UnlockWitness.Within (.preimage pre) w ∧ hashlockCommitment pre = h := by
  fun_induction evalPreimage with
  | case1 => cases heval
  | case2 pre heq => exact ⟨pre, .self, not_not.mp heq⟩
  | case3 w ih =>
    obtain ⟨pre, hin, hpre⟩ := ih heval
    exact ⟨pre, .item List.mem_cons_self hin, hpre⟩
  | case4 => cases heval

/-- The witness loop counts nobody who has not signed, and at most one key an
item. -/
theorem evalCosigners_tally {signer : Address} {mediaBlue createdBlue value : Nat} {msg : Bytes}
    {addresses : List Address} {w : UnlockWitness} {ws : List UnlockWitness} {present counted : List Address}
    (heval : evalCosigners addresses msg ws present = .ok counted)
    (hws : ∀ x ∈ ws, UnlockWitness.Within x w)
    (h : Tally (Attempt.of signer mediaBlue createdBlue value (some msg) w) addresses present) :
    Tally (Attempt.of signer mediaBlue createdBlue value (some msg) w) addresses counted ∧
      counted.length ≤ present.length + ws.length := by
  fun_induction evalCosigners with
  | case1 present =>
    obtain rfl := Except.ok.inj heval
    exact ⟨h, by simp⟩
  | case2 | case3 | case4 | case5 | case6 => cases heval
  | case7 ws present pubkey signature hpk hsig key hkey hverify ih =>
    have happroves : (Attempt.of signer mediaBlue createdBlue value (some msg) w).Approves key := by
      refine Or.inr ⟨msg, pubkey, signature, rfl, hws _ List.mem_cons_self, ?_, Address.canon_equivalent hkey⟩
      simpa [Cosigns] using hverify
    obtain ⟨htally, hlen⟩ := ih heval (fun x hx => hws x (List.mem_cons_of_mem _ hx)) (h.insert hkey happroves)
    have hinsert : (present.insert key).length ≤ present.length + 1 := by
      rw [List.length_insert]
      split <;> omega
    exact ⟨htally, by simp only [List.length_cons]; omega⟩
  | case8 ws present ih =>
    obtain ⟨htally, hlen⟩ := ih heval (fun x hx => hws x (List.mem_cons_of_mem _ hx)) h
    exact ⟨htally, by simp only [List.length_cons]; omega⟩
  | case9 | case10 => cases heval

variable {signer : Address} {mediaBlue createdBlue : Nat} {sighash : Option Bytes}

/-- The items a multi-signature looks at. -/
def multisigStack : UnlockWitness → Option (List UnlockWitness)
  | .signature => some []
  | .stack ws => some ws
  | _ => none

/-- When a multi-signature is satisfied. -/
theorem evalMultisig_iff {n : UInt8} {addresses : List Address} {w : UnlockWitness} :
    evalMultisig n addresses w signer sighash = .ok () ↔
      (0 < n.toNat ∧ n.toNat ≤ addresses.length) ∧ ∃ primary msg stack counted,
        Address.canon addresses signer = some primary ∧ sighash = some msg ∧
        multisigStack w = some stack ∧ stack.length ≤ maxStack ∧
        evalCosigners addresses msg stack [primary] = .ok counted ∧ n.toNat ≤ counted.length := by
  have hform : (n = 0 ∨ addresses = [] ∨ n.toNat > addresses.length) ↔
      ¬ (0 < n.toNat ∧ n.toNat ≤ addresses.length) := by
    have hzero : n = 0 ↔ n.toNat = 0 := by simp [← UInt8.toNat_inj]
    have hnil : addresses = [] ↔ addresses.length = 0 := by simp
    rw [hzero, hnil]
    omega
  have hcount : ∀ (msg : Bytes) (stack : List UnlockWitness) (primary : Address),
      (do
        let present ← evalCosigners addresses msg stack [primary]
        if present.length < n.toNat then
          .error s!"MultiSig: need {n} cosigners, have {present.length}"
        else .ok ()) = Except.ok () ↔
      ∃ counted, evalCosigners addresses msg stack [primary] = .ok counted ∧ n.toNat ≤ counted.length := by
    intro msg stack primary
    cases evalCosigners addresses msg stack [primary] with
    | error e => simp [bind, Except.bind]
    | ok counted =>
      by_cases hlt : counted.length < n.toNat
      · simp [bind, Except.bind, hlt]
      · simp [bind, Except.bind, hlt, Nat.not_lt.mp hlt]
  unfold evalMultisig
  by_cases hn : 0 < n.toNat ∧ n.toNat ≤ addresses.length
  · rw [if_neg (hform.not.mpr (not_not.mpr hn))]
    rw [show addresses.find? (Address.equivalent · signer) = Address.canon addresses signer from rfl]
    cases Address.canon addresses signer with
    | none => simp
    | some primary =>
      cases sighash with
      | none => simp
      | some msg =>
        cases w with
        | signature =>
          refine (hcount msg [] primary).trans ?_
          simp [multisigStack, hn]
        | stack ws =>
          by_cases hlen : ws.length > maxStack
          · simp [hlen, multisigStack, bind, Except.bind]
          · simp only [if_neg hlen]
            refine (hcount msg ws primary).trans ?_
            simp [multisigStack, hn, Nat.not_lt.mp hlen]
        | preimage _ | cosignerAddress _ | cosignerSig _ _ => simp [multisigStack, bind, Except.bind]
  · rw [if_pos (hform.mpr hn)]
    simp [hn]

/-- An `and` takes the first two items of a stack. -/
theorem evalInner_and {l r : Predicate} {w : UnlockWitness} :
    evalInner signer mediaBlue createdBlue sighash (.and l r) w = .ok () ↔
      ∃ w₀ w₁ ws, w = .stack (w₀ :: w₁ :: ws) ∧ ws.length + 2 ≤ maxStack ∧
        evalInner signer mediaBlue createdBlue sighash l w₀ = .ok () ∧
        evalInner signer mediaBlue createdBlue sighash r w₁ = .ok () := by
  match w with
  | .stack (w₀ :: w₁ :: ws) =>
    rw [evalInner]
    by_cases hlen : (w₀ :: w₁ :: ws).length > maxStack
    · have hlen' : ¬ ws.length + 2 ≤ maxStack := Nat.not_le.mpr hlen
      rw [if_pos hlen]
      simp [hlen']
    · have hlen' : ws.length + 2 ≤ maxStack := Nat.not_lt.mp hlen
      rw [if_neg hlen, Except.then_ok_iff]
      simp [hlen']
  | .stack [] | .stack [_] | .signature | .preimage _ | .cosignerAddress _ | .cosignerSig _ _ =>
    simp [evalInner]

/-- What an `or` tries both of its sides with. -/
def orWitness : UnlockWitness → Option UnlockWitness
  | .stack ws => ws.head?
  | .signature => some .signature
  | .preimage pre => some (.preimage pre)
  | _ => none

theorem evalInner_or {l r : Predicate} {w : UnlockWitness} :
    evalInner signer mediaBlue createdBlue sighash (.or l r) w = .ok () ↔
      ∃ x, orWitness w = some x ∧ (evalInner signer mediaBlue createdBlue sighash l x = .ok () ∨
        evalInner signer mediaBlue createdBlue sighash r x = .ok ()) := by
  have hisOk : ∀ {x : Except String Unit}, x.isOk = true ↔ x = .ok () := by
    intro x
    cases x <;> simp [Except.isOk, Except.toBool]
  have heither : ∀ {x : UnlockWitness} {e : String},
      (if (evalInner signer mediaBlue createdBlue sighash l x).isOk
          || (evalInner signer mediaBlue createdBlue sighash r x).isOk
        then .ok () else .error e) = Except.ok () ↔
      evalInner signer mediaBlue createdBlue sighash l x = .ok () ∨
        evalInner signer mediaBlue createdBlue sighash r x = .ok () := by
    intro x e
    have hor := Bool.or_eq_true (evalInner signer mediaBlue createdBlue sighash l x).isOk
      (evalInner signer mediaBlue createdBlue sighash r x).isOk
    rw [hisOk, hisOk] at hor
    rw [← hor]
    split <;> simp [*]
  match w with
  | .stack (w₀ :: ws) =>
    refine heither.trans ?_
    simp [orWitness]
  | .signature | .preimage _ =>
    refine heither.trans ?_
    simp [orWitness]
  | .stack [] | .cosignerAddress _ | .cosignerSig _ _ => simp [evalInner, orWitness]

/-- What the evaluator accepts opens the predicate. -/
theorem evalInner_opens {value : Nat} {p : Predicate} {w : UnlockWitness}
    (heval : evalInner signer mediaBlue createdBlue sighash p w = .ok ()) :
    p.Opens (Attempt.of signer mediaBlue createdBlue value sighash w) := by
  have hpart : ∀ {ws : List UnlockWitness} {x : UnlockWitness} {q : Predicate}, x ∈ ws →
      q.Opens (Attempt.of signer mediaBlue createdBlue value sighash x) →
      q.Opens (Attempt.of signer mediaBlue createdBlue value sighash (.stack ws)) := fun hx h =>
    h.mono (Attempt.of_le fun _ hin => .item hx hin)
  induction p generalizing w with
  | payToAddress a =>
    unfold evalInner at heval
    exact checkOwner_iff.mp (Except.then_ok_iff.mp heval).1
  | absoluteLock a unlockBlue =>
    rw [evalInner] at heval
    split at heval
    · cases heval
    · rename_i hreached
      exact ⟨Nat.not_lt.mp hreached, checkOwner_iff.mp heval⟩
  | relativeLock a blues =>
    rw [evalInner] at heval
    split at heval
    · cases heval
    · rename_i hreached
      exact ⟨Nat.not_lt.mp hreached, checkOwner_iff.mp heval⟩
  | hashLock d => exact evalPreimage_within heval
  | commitData d => exact evalPreimage_within heval
  | creditAccount a => cases heval
  | annulAfter a expireBlue =>
    rw [evalInner] at heval
    split at heval
    · cases heval
    · rename_i hopen
      exact ⟨Nat.not_le.mp hopen, checkOwner_iff.mp heval⟩
  | exactValue v inner ih => exact ⟨trivial, ih heval⟩
  | and l r ihl ihr =>
    obtain ⟨w₀, w₁, ws, rfl, -, hl, hr⟩ := evalInner_and.mp heval
    exact ⟨hpart (by simp) (ihl hl), hpart (by simp) (ihr hr)⟩
  | or l r ihl ihr =>
    obtain ⟨x, hx, heither⟩ := evalInner_or.mp heval
    have hside : ∀ {q : Predicate}, q.Opens (Attempt.of signer mediaBlue createdBlue value sighash x) →
        q.Opens (Attempt.of signer mediaBlue createdBlue value sighash w) := by
      intro q hq
      cases w with
      | stack ws => exact hpart (List.mem_of_mem_head? hx) hq
      | signature | preimage _ => exact Option.some.inj hx ▸ hq
      | cosignerAddress _ | cosignerSig _ _ => cases hx
    exact heither.imp (fun hl => hside (ihl hl)) fun hr => hside (ihr hr)
  | multiSig n addresses =>
    obtain ⟨-, primary, msg, stack, counted, hprimary, rfl, hstack, hlen, hcosigners, hn⟩ :=
      evalMultisig_iff.mp heval
    have hin : ∀ x ∈ stack, UnlockWitness.Within x w := by
      intro x hx
      cases w with
      | stack ws => exact .item (Option.some.inj hstack ▸ hx) .self
      | signature => exact absurd (Option.some.inj hstack ▸ hx) List.not_mem_nil
      | preimage _ | cosignerAddress _ | cosignerSig _ _ => cases hstack
    have hfirst : Tally (Attempt.of signer mediaBlue createdBlue value (some msg) w) addresses [primary] := by
      refine ⟨List.nodup_singleton primary, ?_, ?_⟩
      · exact fun k hk => ⟨signer, List.mem_singleton.mp hk ▸ hprimary⟩
      · exact fun k hk => List.mem_singleton.mp hk ▸ Or.inl (Address.canon_equivalent hprimary)
    obtain ⟨htally, hcounted⟩ := evalCosigners_tally hcosigners hin hfirst
    refine ⟨⟨primary, Address.canon_mem hprimary, Address.canon_equivalent hprimary⟩, ?_, htally.threshold hn⟩
    simp only [List.length_singleton] at hcounted
    unfold Predicate.maxSigners
    omega

/-! ### Soundness of a spend -/

/-- What one input had to pass. -/
theorem checkInput_cases {u : UtxoSet} {tx : UtxoTx} {value : Nat} {tin : TxIn}
    (h : checkInput u tx mediaBlue tin = .ok value) : ∃ out, u.entries[tin.previous]? = some out ∧
      (tin.previous.isCoinbase = true → satAdd64 out.createdBlue coinbaseMaturityBlues ≤ mediaBlue) ∧
      (0 < tin.relativeLockBlues → satAdd64 out.createdBlue tin.relativeLockBlues.toNat ≤ mediaBlue) ∧
      evaluateFull out.predicate tin.witness tx.fromAddress mediaBlue out.createdBlue
        (some tx.signingBytes) = .ok () ∧
      assertExactValueBinds out.value out.predicate = .ok () := by
  unfold checkInput at h
  split at h
  · cases h
  · rename_i out hout
    split at h
    · cases h
    · rename_i hmature
      dsimp only at h
      split at h
      · cases h
      · rename_i hlock
        obtain ⟨heval, h⟩ := Except.then_ok_iff.mp h
        obtain ⟨hbinds, -⟩ := Except.then_ok_iff.mp h
        refine ⟨out, hout, fun hcoinbase => ?_, fun hpos => ?_, heval, hbinds⟩
        · exact Nat.not_lt.mp fun hlt => hmature ⟨hcoinbase, hlt⟩
        · exact Nat.not_lt.mp fun hlt => hlock ⟨hpos, hlt⟩

theorem checkInputs_all {u : UtxoSet} {tx : UtxoTx} {inputs : List TxIn} {sum total : Nat}
    (h : checkInputs u tx mediaBlue inputs sum = .ok total) :
    ∀ tin ∈ inputs, ∃ value, checkInput u tx mediaBlue tin = .ok value := by
  induction inputs generalizing sum with
  | nil => simp
  | cons tin rest ih =>
    obtain ⟨value, hvalue, h⟩ := Except.bind_eq_ok h
    split at h
    · cases h
    · intro tin' htin'
      rcases List.mem_cons.mp htin' with rfl | hrest
      · exact ⟨value, hvalue⟩
      · exact ih h tin' hrest

/-- A spend that applied was signed in time and passed the checks of its inputs. -/
theorem applyUtxoTx_checked {u : UtxoSet} {accounts : Accounts} {tx : UtxoTx} {st : UtxoSet × Accounts}
    {fee : Nat} (h : applyUtxoTx u accounts tx mediaBlue = (st, .ok fee)) :
    tx.lockBlueScore ≤ mediaBlue ∧ ∀ tin ∈ tx.inputs, ∃ value, checkInput u tx mediaBlue tin = .ok value := by
  have hcheck : checkUtxoTx u tx mediaBlue = .ok () := by
    unfold applyUtxoTx at h
    split at h
    · cases (Prod.mk.inj h).2
    · assumption
  obtain ⟨-, hcheck⟩ := Except.then_ok_iff.mp hcheck
  split at hcheck
  · cases hcheck
  · split at hcheck
    · cases hcheck
    · rename_i hlock
      obtain ⟨inputSum, hinputs, -⟩ := Except.bind_eq_ok hcheck
      exact ⟨by omega, checkInputs_all hinputs⟩

/-- **Unlocking is sound.** A predicate that evaluates, with its value covenants
asserted, holds of the witness; and a spend that applies spends no coinbase
before its maturity, waits for its locks and unlocks every input. -/
theorem unlock_sound :
    (∀ (p : Predicate) (w : UnlockWitness) (signer : Address) (mediaBlue createdBlue value : Nat)
      (sighash : Option Bytes), evaluateFull p w signer mediaBlue createdBlue sighash = .ok () →
      assertExactValueBinds value p = .ok () →
      p.Holds (Attempt.of signer mediaBlue createdBlue value sighash w)) ∧
    ∀ (u : UtxoSet) (accounts : Accounts) (tx : UtxoTx) (mediaBlue : Nat) (st : UtxoSet × Accounts) (fee : Nat),
      applyUtxoTx u accounts tx mediaBlue = (st, .ok fee) →
      tx.lockBlueScore ≤ mediaBlue ∧
      ∀ tin ∈ tx.inputs, ∃ out, u.entries[tin.previous]? = some out ∧
        (tin.previous.isCoinbase = true → satAdd64 out.createdBlue coinbaseMaturityBlues ≤ mediaBlue) ∧
        (0 < tin.relativeLockBlues → satAdd64 out.createdBlue tin.relativeLockBlues.toNat ≤ mediaBlue) ∧
        out.predicate.Holds (Attempt.of tx.fromAddress mediaBlue out.createdBlue out.value
          (some tx.signingBytes) tin.witness) := by
  have hunlock : ∀ (p : Predicate) (w : UnlockWitness) (signer : Address)
      (mediaBlue createdBlue value : Nat) (sighash : Option Bytes),
      evaluateFull p w signer mediaBlue createdBlue sighash = .ok () →
      assertExactValueBinds value p = .ok () →
      p.Holds (Attempt.of signer mediaBlue createdBlue value sighash w) := by
    intro p w signer mediaBlue createdBlue value sighash heval hbinds
    unfold evaluateFull at heval
    split at heval
    · cases heval
    · exact (evalInner_opens heval).holds (assertExactValueBinds_iff.mp hbinds)
  refine ⟨hunlock, fun u accounts tx mediaBlue st fee happlied => ?_⟩
  obtain ⟨hlock, hinputs⟩ := applyUtxoTx_checked happlied
  refine ⟨hlock, fun tin htin => ?_⟩
  obtain ⟨value, hvalue⟩ := hinputs tin htin
  obtain ⟨out, hout, hmature, hrelative, heval, hbinds⟩ := checkInput_cases hvalue
  exact ⟨out, hout, hmature, hrelative, hunlock _ _ _ _ _ _ _ heval hbinds⟩

end Eval

/-! ### A spend -/

namespace Sample

def coin : OutPoint := ⟨Hash.zero, 0⟩

/-- A spend of a hash-locked coin, whose preimage is empty, into one output. -/
def spendTo (out : TxOut) (fee : Nat) : UtxoTx where
  inputs := [⟨coin, 0, .preimage []⟩]
  outputs := [out]
  lockBlueScore := 0
  fee := fee
  chainId := chainId
  fromPubkey := List.replicate pqPublicKeySize 0
  signature := List.replicate pqSignatureSize 0

/-- The coin, worth what the spend needs. -/
def purse (out : TxOut) (fee : Nat) : UtxoSet where
  entries := (∅ : Std.ExtTreeMap OutPoint TxOut).insert coin
    ⟨out.value + fee, .hashLock (@hashlockCommitment sampleCrypto []), 0⟩

/-- Apart from the predicate of the output the spend has one size. -/
theorem spendTo_minFeeRequired {out : TxOut} {fee : Nat} (hsize : (encode out.predicate).length ≤ 600) :
    (spendTo out fee).minFeeRequired ≤ 8000 := by
  have hsig : (spendTo out fee).signature.length = pqSignatureSize := List.length_replicate
  have hinput : (encode (⟨coin, 0, .preimage []⟩ : TxIn)).length = 84 := by
    change (coin.txid.asBytes ++ u32 coin.vout.toNat ++ u32 (0 : UInt32).toNat
      ++ (UnlockWitness.preimage []).toBytes).length = 84
    simp [UnlockWitness.toBytes]
  have houtput : (encode out).length = 24 + (encode out.predicate).length := by
    change (u128 out.value ++ encode out.predicate ++ u64 out.createdBlue).length = _
    simp only [List.length_append, length_u128, length_u64]
    omega
  have hsize' : (spendTo out fee).relayBytes = 7391 + (encode out.predicate).length := by
    rw [UtxoTx.relayBytes, if_neg (not_not.mpr hsig)]
    change (encode [(⟨coin, 0, .preimage []⟩ : TxIn)] ++ encode [out] ++ u64 0 ++ u128 fee ++ u64 chainId
      ++ Bincode.bytes (List.replicate pqPublicKeySize 0) ++ Bincode.bytes (List.replicate pqSignatureSize 0)).length = _
    simp only [List.length_append, length_encode_list, List.map_cons, List.map_nil, List.sum_cons, List.sum_nil,
      hinput, houtput, length_u64, length_u128, length_bytes, List.length_replicate, pqPublicKeySize,
      pqSignatureSize]
    omega
  have hprice : satMul128 (spendTo out fee).relayBytes minFeePerByte ≤ (spendTo out fee).relayBytes :=
    (min_le_left _ _).trans (Nat.mul_one _).le
  rw [UtxoTx.minFeeRequired]
  refine max_le (hprice.trans ?_) (by decide)
  omega

theorem spendTo_form {out : TxOut} {fee : Nat} (hout : UtxoTx.validateOutput out = .ok ())
    (hfee : (spendTo out fee).minFeeRequired ≤ fee) : (spendTo out fee).validateForm = .ok () := by
  have hkey : (spendTo out fee).fromPubkey.length = pqPublicKeySize := List.length_replicate
  have hsig : (spendTo out fee).signature.length = pqSignatureSize := List.length_replicate
  have hpaid : ¬ (spendTo out fee).fee < (spendTo out fee).minFeeRequired := Nat.not_lt.mpr hfee
  have hinputs : (spendTo out fee).inputs = [⟨coin, 0, .preimage []⟩] := rfl
  have houtputs : (spendTo out fee).outputs = [out] := rfl
  simp [UtxoTx.validateForm, hkey, hsig, hpaid, hinputs, houtputs, hout, bind, Except.bind, pure, Except.pure]

/-- The spend passes its checks. -/
theorem spendTo_checks {out : TxOut} {fee : Nat} (mediaBlue : Nat)
    (hout : UtxoTx.validateOutput out = .ok ()) (hsum : out.value + fee ≤ u128Max)
    (hfee : (spendTo out fee).minFeeRequired ≤ fee) :
    @checkUtxoTx sampleCrypto (purse out fee) (spendTo out fee) mediaBlue = .ok () := by
  let := sampleCrypto
  have hverify : (spendTo out fee).verify = true :=
    verifyPq512_sample _ _ List.length_replicate List.length_replicate
  have hopen : evaluateFull (.hashLock (hashlockCommitment [])) (.preimage []) (spendTo out fee).fromAddress
      mediaBlue 0 (some (spendTo out fee).signingBytes) = .ok () := by
    simp [evaluateFull, Predicate.depth, maxPredDepth, evalInner, evalPreimage]
  have hbinds : assertExactValueBinds (out.value + fee) (.hashLock (hashlockCommitment [])) = .ok () := rfl
  have hinput : checkInput (purse out fee) (spendTo out fee) mediaBlue ⟨coin, 0, .preimage []⟩
      = .ok (out.value + fee) := by
    have hcoin : (purse out fee).entries[coin]? = some ⟨out.value + fee, .hashLock (hashlockCommitment []), 0⟩ := by
      simp [purse]
    have hmint : coin.isCoinbase = false := by decide
    simp [checkInput, hcoin, hmint, hopen, hbinds, bind, Except.bind]
  have hinputs : checkInputs (purse out fee) (spendTo out fee) mediaBlue (spendTo out fee).inputs 0
      = .ok (out.value + fee) := by
    change checkInputs _ _ _ [⟨coin, 0, .preimage []⟩] 0 = _
    simp [checkInputs, hinput, checkedAdd128, hsum, bind, Except.bind]
  have houtputs : sumOutputs (spendTo out fee).outputs (spendTo out fee).fee = .ok (out.value + fee) := by
    change sumOutputs [out] fee = _
    simp [sumOutputs, checkedAdd128, Nat.add_comm fee, hsum]
  have hlock : (spendTo out fee).lockBlueScore = 0 := rfl
  simp [checkUtxoTx, spendTo_form hout hfee, hverify, hinputs, houtputs, hlock, bind, Except.bind]

/-- A hash-locked output passes its check. -/
theorem validateOutput_hashLock (digest : Hash) :
    UtxoTx.validateOutput ⟨1000, .hashLock digest, 0⟩ = .ok () := by
  simp [UtxoTx.validateOutput, Predicate.isAccountCredit, Predicate.lockedAddress, utxoDust]

/-- The spend applies: the coin goes and the output comes. -/
theorem spendTo_applies {out : TxOut} {fee : Nat} (mediaBlue : Nat)
    (hout : UtxoTx.validateOutput out = .ok ()) (hsum : out.value + fee ≤ u128Max)
    (hfee : (spendTo out fee).minFeeRequired ≤ fee) (hcredit : out.predicate.isAccountCredit = false) :
    ∃ st, @applyUtxoTx sampleCrypto (purse out fee) ∅ (spendTo out fee) mediaBlue = (st, .ok fee) := by
  let := sampleCrypto
  have hcheck := spendTo_checks mediaBlue hout hsum hfee
  have hspend : (purse out fee).spend coin = .ok { entries := (purse out fee).entries.erase coin, spent := ({} : UtxoSet).spent.insert coin } := by
    simp [UtxoSet.spend, purse]
  have heffects : (spendTo out fee).effects mediaBlue = [.spend coin,
      .create ⟨(spendTo out fee).txHash, UInt32.ofNat 0⟩ { out with createdBlue := mediaBlue }] := by
    change [UtxoEffect.spend coin] ++ [outputEffect (spendTo out fee).txHash mediaBlue (out, 0)] = _
    simp [outputEffect, hcredit]
  have hfee' : (spendTo out fee).fee = fee := rfl
  simp [applyUtxoTx, hcheck, heffects, UtxoEffect.applyAll, UtxoEffect.apply, hspend, hfee', bind, Except.bind]

/-- The coin is revealed, and the spend that reveals it waits for nothing. -/
theorem unlock_sound_spend :
    (Predicate.hashLock (@hashlockCommitment sampleCrypto [])).Holds
        (@Attempt.of sampleCrypto [] 5 0 1000 none (.preimage [])) ∧
      (spendTo ⟨1000, .hashLock Hash.zero, 0⟩ 8000).lockBlueScore ≤ 5 := by
  let := sampleCrypto
  have hsize : (encode (Predicate.hashLock Hash.zero)).length ≤ 600 := by
    change (u32 1 ++ Hash.zero.asBytes).length ≤ 600
    simp
  obtain ⟨st, hst⟩ := spendTo_applies 5 (validateOutput_hashLock Hash.zero)
    (by decide : 1000 + 8000 ≤ u128Max) (spendTo_minFeeRequired hsize) rfl
  refine ⟨unlock_sound.1 (.hashLock (hashlockCommitment [])) (.preimage []) [] 5 0 1000 none ?_ rfl, ?_⟩
  · simp [evaluateFull, Predicate.depth, maxPredDepth, evalInner, evalPreimage]
  · exact (unlock_sound.2 _ _ _ _ _ _ hst).1

end Sample

end HassanNode
