import Mathlib
import HassanNode.Lib.ExecutionTrace
import HassanNode.Consensus.Template
import HassanNode.Consensus.Archival

/-!
# HassanNode.Consensus.SequentialWork

**What a block's proof of sequential work says.** `stark.rs` describes the work as an
algebraic constraint system on one column: neighbouring rows are a step apart, the first
row is the seed, the last one the claimed result. The package proves and verifies such
systems (`Winterfell`); what is shown here is what the system itself means.

The number of rows is not part of the public inputs. `verify` takes it from the proof, and
nothing compares it with `SEQUENTIAL_STEPS`: a proof attests as many steps as it declares.
-/

namespace HassanNode

namespace Stark

/-- `BaseElement` of the f128 field. -/
abbrev BaseElement := ZMod modulus

structure PublicInputs where
  seed : BaseElement
  result : BaseElement

/-- `build_trace`: the seed, and each row the step of the one before. -/
def buildTrace (seed : BaseElement) (steps : Nat) : List BaseElement :=
  List.iterate (fun state => state ^ 3 + 42) seed steps

/-- `evaluate_transition`, on elements of the field or of an extension. -/
def evaluateTransition {E : Type} [CommRing E] (current next : E) : E := next - (current ^ 3 + 42)

/-- `get_assertions`. -/
def getAssertions (inputs : PublicInputs) (traceLength : Nat) : List (Nat × BaseElement) :=
  [(0, inputs.seed), (traceLength - 1, inputs.result)]

/-- `SequentialWorkAir`. -/
def sequentialWorkAir (inputs : PublicInputs) : ConstraintSystem BaseElement where
  transition := evaluateTransition
  assertions := getAssertions inputs

/-- `get_pub_inputs`. -/
def getPubInputs (trace : List BaseElement) : PublicInputs where
  seed := trace.headD 0
  result := trace.getLastD 0

/-- The public inputs that `verify` makes of the header bytes and of the first sixteen bytes
of the proof. -/
def publicInputs (header result : Bytes) : PublicInputs where
  seed := (seedFromBytes header : Nat)
  result := (Bytes.toNatBE result : Nat)

/-! ### What the constraints mean -/

/-- `step` on representatives is the step of the field. -/
theorem cast_step (state : Nat) : ((step state : Nat) : BaseElement) = (state : BaseElement) ^ 3 + 42 := by
  rw [step, ZMod.natCast_mod]
  push_cast
  rfl

theorem cast_iterate_step (n state : Nat) :
    ((step^[n] state : Nat) : BaseElement) = (fun s : BaseElement => s ^ 3 + 42)^[n] (state : BaseElement) := by
  induction n generalizing state with
  | zero => rfl
  | succ n ih => rw [Function.iterate_succ_apply, Function.iterate_succ_apply, ih, cast_step]

theorem sequentialWorkAir_describes (inputs : PublicInputs) :
    (sequentialWorkAir inputs).Describes fun state => state ^ 3 + 42 := fun _ _ => sub_eq_zero

/-- **The constraints hold of a trace exactly when its rows are the run of its seed and the
result is its last row.** -/
theorem satisfiable_iff (inputs : PublicInputs) {rows : Nat} (hrows : 0 < rows) :
    (∃ trace, trace.length = rows ∧ (sequentialWorkAir inputs).Satisfied trace) ↔
      inputs.result = (fun state => state ^ 3 + 42)^[rows - 1] inputs.seed := by
  have hfirst : (0, inputs.seed) ∈ (sequentialWorkAir inputs).assertions rows := List.mem_cons_self ..
  rw [ConstraintSystem.satisfiable_iff (sequentialWorkAir_describes inputs) hrows hfirst]
  show (∀ cell ∈ getAssertions inputs rows, _) ↔ _
  simp only [getAssertions, List.mem_cons, List.not_mem_nil, or_false, forall_eq_or_imp, forall_eq,
    Function.iterate_zero, id_eq]
  constructor
  · intro ⟨_, _, h⟩
    exact h
  · intro h
    exact ⟨⟨hrows, trivial⟩, Nat.sub_lt hrows Nat.one_pos, h⟩

/-- The trace that `prove` builds satisfies the constraints of its own public inputs. -/
theorem buildTrace_satisfied (seed : BaseElement) {steps : Nat} (hsteps : 0 < steps) :
    (sequentialWorkAir (getPubInputs (buildTrace seed steps))).Satisfied (buildTrace seed steps) := by
  obtain ⟨n, rfl⟩ := Nat.exists_eq_succ_of_ne_zero hsteps.ne'
  have hlen : (buildTrace seed (n + 1)).length = n + 1 := List.length_iterate ..
  have hlast : (buildTrace seed (n + 1)).getLastD 0 = (fun state => state ^ 3 + 42)^[n] seed := by
    rw [List.getLastD_eq_getLast?, List.getLast?_eq_getElem?, hlen, buildTrace, Nat.add_sub_cancel,
      List.getElem?_iterate _ _ _ _ (Nat.lt_succ_self n), Option.getD_some]
  have hne : buildTrace seed (n + 1) ≠ [] := List.length_pos_iff.mp (hlen.symm ▸ Nat.succ_pos n)
  refine (ConstraintSystem.satisfied_iff_run (a := seed) (sequentialWorkAir_describes _) hne
    (List.mem_cons_self ..)).mpr ⟨by rw [hlen]; rfl, fun cell hcell => ?_⟩
  have hcell : cell = (0, seed) ∨ cell = (n, (fun state => state ^ 3 + 42)^[n] seed) := by
    rw [hlen] at hcell
    rw [← hlast]
    exact List.mem_pair.mp hcell
  rw [hlen]
  rcases hcell with heq | heq
  · rw [heq]
    exact ⟨Nat.succ_pos n, rfl⟩
  · rw [heq]
    exact ⟨Nat.lt_succ_self n, rfl⟩

/-- The result of `rows` rows for a header: one step less than rows. -/
def resultAfter (rows : Nat) (header : Bytes) : Nat := step^[rows - 1] (seedFromBytes header)

/-- A claimed result is right for `rows` rows. The sixteen bytes are read modulo the field. -/
def Attests (rows : Nat) (header result : Bytes) : Prop := Bytes.toNatBE result % modulus = resultAfter rows header

theorem resultAfter_lt (rows : Nat) (header : Bytes) : resultAfter rows header < modulus := by
  rw [resultAfter]
  cases rows - 1 with
  | zero => exact Nat.mod_lt _ (by decide)
  | succ n =>
      rw [Function.iterate_succ_apply']
      exact Nat.mod_lt _ (by decide)

theorem attests_iff (rows : Nat) (header result : Bytes) :
    Attests rows header result ↔ (publicInputs header result).result
      = (fun state => state ^ 3 + 42)^[rows - 1] (publicInputs header result).seed := by
  have hlt := resultAfter_lt rows header
  show _ ↔ ((Bytes.toNatBE result : Nat) : BaseElement) = (fun s : BaseElement => s ^ 3 + 42)^[rows - 1] _
  rw [Attests, show (publicInputs header result).seed = ((seedFromBytes header : Nat) : BaseElement) from rfl,
    ← cast_iterate_step, ZMod.natCast_eq_natCast_iff']
  show _ ↔ _ = resultAfter rows header % modulus
  rw [Nat.mod_eq_of_lt hlt]

end Stark

open Stark

/-- What the node relies on of winterfell: `traceLength` is the number of rows that a proof
declares, and `provable` tells which numbers of rows it proves within the size limit. What
verifies has a trace of the declared length that satisfies the constraints; a satisfied
trace has a proof. -/
structure Winterfell [Crypto] where
  traceLength : (proof : Bytes) → Nat
  provable : (rows : Nat) → Prop
  rows_pos : ∀ proof, 0 < traceLength proof
  sound : ∀ header result proof, Crypto.starkVerify header result proof = true →
    ∃ trace, trace.length = traceLength proof ∧ (sequentialWorkAir (publicInputs header result)).Satisfied trace
  complete : ∀ header result trace, provable trace.length →
    (sequentialWorkAir (publicInputs header result)).Satisfied trace →
    ∃ proof, traceLength proof = trace.length ∧ proof ≠ [] ∧ starkResultHeaderLen + proof.length ≤ maxStarkProofBytes ∧
      Crypto.starkProofParses proof = true ∧ Crypto.starkVerify header result proof = true

namespace Winterfell

variable [Crypto] (w : Winterfell) {b : Block}

/-- A proof that verifies attests the rows it declares. -/
theorem attests (h : verifyStarkProof b = true) :
    Attests (w.traceLength (b.starkProof.drop starkResultHeaderLen)) b.hash.asBytes
      (b.starkProof.take starkResultHeaderLen) := by
  have hverify : Crypto.starkVerify b.hash.asBytes (b.starkProof.take starkResultHeaderLen)
      (b.starkProof.drop starkResultHeaderLen) = true := (Bool.and_eq_true _ _ ▸ h :).2
  rw [attests_iff, ← satisfiable_iff _ (w.rows_pos _)]
  exact w.sound _ _ _ hverify

/-- A right claim has a proof that verifies, for any provable number of rows. -/
theorem verifies {rows : Nat} (hprovable : w.provable rows) (hrows : 0 < rows) {result : Bytes}
    (hlen : result.length = starkResultHeaderLen) (hright : Attests rows b.hash.asBytes result) :
    ∃ proof, w.traceLength proof = rows ∧ verifyStarkProof { b with starkProof := result ++ proof } = true := by
  rw [attests_iff, ← satisfiable_iff _ hrows] at hright
  obtain ⟨trace, htrace, hsatisfied⟩ := hright
  obtain ⟨proof, hdeclared, hne, hfits, hparses, hverify⟩ :=
    w.complete _ _ trace (htrace.symm ▸ hprovable) hsatisfied
  refine ⟨proof, hdeclared.trans htrace, ?_⟩
  have hpos := List.length_pos_iff.mpr hne
  have hlong : ¬ (result ++ proof).length ≤ starkResultHeaderLen := by
    rw [List.length_append]
    omega
  have hshort : ¬ maxStarkProofBytes < (result ++ proof).length := by
    rw [List.length_append]
    omega
  show ((starkPrecheckFormat (result ++ proof)).isOk
    && Crypto.starkVerify b.hash.asBytes ((result ++ proof).take starkResultHeaderLen)
      ((result ++ proof).drop starkResultHeaderLen)) = true
  rw [← hlen, List.take_left, List.drop_left, hverify, Bool.and_true, starkPrecheckFormat, if_neg hlong, if_neg hshort,
    ← hlen, List.drop_left, hparses]
  rfl

end Winterfell

namespace ChainState

variable [Crypto]

/-- **What the proofs of a chain attest.** In an archival node that verifies every proof, every
block after genesis carries the result of as many steps, from its own hash, as its proof
declares rows, less one. No number of rows is asked for: a block has a proof that passes for
a claimed result and a provable number of rows exactly when that many rows lead there. -/
theorem chain_attests_work (w : Winterfell) (easy : Bool) (seed : Ledger) (calls : List (Env × Block))
    (hpins : ∀ call ∈ calls, call.1.pinnedDigest = none) :
    (∀ h b, ((seeded easy true seed).run calls).dag[h]? = some b → h ≠ genesisBlock.hash →
      Attests (w.traceLength (b.starkProof.drop starkResultHeaderLen)) h.asBytes
        (b.starkProof.take starkResultHeaderLen)) ∧
    ∀ (b : Block) (rows : Nat) (result : Bytes), w.provable rows → 0 < rows →
      result.length = starkResultHeaderLen →
      ((∃ proof, w.traceLength proof = rows ∧ verifyStarkProof { b with starkProof := result ++ proof } = true) ↔
        Attests rows b.hash.asBytes result) := by
  refine ⟨fun h b hb hne => ?_, fun b rows result hprovable hrows hlen => ⟨fun hpasses => ?_, fun hright => ?_⟩⟩
  · refine Archival.each_block (Q := fun _ h b => Attests (w.traceLength (b.starkProof.drop starkResultHeaderLen)) h.asBytes
        (b.starkProof.take starkResultHeaderLen)) (P := fun _ call => call.1.pinnedDigest = none) easy seed ?_
      (fun _ _ _ hq => hq) (fun k call hcall => hpins call (List.mem_of_getElem? hcall)) hb hne
    intro calls env block gd sp hpin _ _ a
    -- without a pin nothing is skipped
    have hskip : ((seeded easy true seed).run calls).maySkipStarkVerify env block.hash = false := by
      rw [maySkipStarkVerify, show env.pinnedDigest = none from hpin]
    have hstark := a.stark
    rw [hskip, Bool.false_or] at hstark
    exact w.attests hstark
  · obtain ⟨proof, hdeclared, hverified⟩ := hpasses
    have hattests := w.attests hverified
    rwa [← hlen, List.take_left, List.drop_left, hdeclared] at hattests
  · exact w.verifies hprovable hrows hlen hright

end ChainState

/-! ### A package that runs the work again -/

namespace Stark

instance (rows : Nat) (header result : Bytes) : Decidable (Attests rows header result) :=
  inferInstanceAs (Decidable (_ = _))

/-- Primitives with a verifier that runs the work again: a proof is a byte for each row. -/
@[reducible] def rerunningCrypto : Crypto :=
  { sampleCrypto with starkVerify := fun header result proof => decide (Attests (max proof.length 1) header result) }

/-- It keeps the contract, for every number of rows that leaves room for the result. -/
def rerunning : @Winterfell rerunningCrypto :=
  letI := rerunningCrypto
  { traceLength := fun proof => max proof.length 1
    provable := fun rows => 0 < rows ∧ starkResultHeaderLen + rows ≤ maxStarkProofBytes
    rows_pos := fun proof => Nat.lt_of_lt_of_le Nat.one_pos (Nat.le_max_right ..)
    sound := fun header result proof h => by
      have hattests : Attests (max proof.length 1) header result := of_decide_eq_true h
      rw [attests_iff, ← satisfiable_iff _ (Nat.lt_of_lt_of_le Nat.one_pos (Nat.le_max_right ..))] at hattests
      exact hattests
    complete := fun header result column hprovable hsatisfied => by
      have hrows : max (List.replicate column.length (0 : UInt8)).length 1 = column.length := by
        rw [List.length_replicate, Nat.max_eq_left hprovable.1]
      have hattests : Attests column.length header result := by
        rw [attests_iff, ← satisfiable_iff _ hprovable.1]
        exact ⟨column, rfl, hsatisfied⟩
      refine ⟨List.replicate column.length 0, hrows, ?_, ?_, rfl, ?_⟩
      · exact List.length_pos_iff.mp (by rw [List.length_replicate]; exact hprovable.1)
      · rw [List.length_replicate]
        exact hprovable.2
      · show decide (Attests (max (List.replicate column.length (0 : UInt8)).length 1) header result) = true
        rw [hrows]
        exact decide_eq_true hattests }

/-- The honest claim for `rows` rows. -/
def claim (rows : Nat) (header : Bytes) : Bytes := Bytes.padLeft starkResultHeaderLen (Bytes.ofNatBE (resultAfter rows header))

theorem attests_claim (rows : Nat) (header : Bytes) : Attests rows header (claim rows header) := by
  have hlt := resultAfter_lt rows header
  have hfield : modulus < 256 ^ starkResultHeaderLen := by decide
  rw [Attests, claim, Bytes.toNatBE_padLeft, Bytes.toNatBE_ofNatBE, Nat.mod_eq_of_lt (hlt.trans hfield),
    Nat.mod_eq_of_lt hlt]

/-- What `prove` claims is the result of `SEQUENTIAL_STEPS` rows. -/
theorem attests_prove [Proving] (header : Bytes) :
    Attests sequentialSteps header ((Stark.prove header).take starkResultHeaderLen) := by
  have hlen : (claim sequentialSteps header).length = starkResultHeaderLen := Bytes.length_padLeft ..
  have htake : (Stark.prove header).take starkResultHeaderLen = claim sequentialSteps header := by
    show (claim sequentialSteps header ++ Proving.prove header).take starkResultHeaderLen = _
    rw [← hlen, List.take_left]
  rw [htake]
  exact attests_claim sequentialSteps header

/-- A proof of eight rows passes, with the result that seven steps lead to. -/
theorem eight_rows_pass : ∃ proof : Bytes, @Winterfell.traceLength rerunningCrypto rerunning proof = 8 ∧
    @verifyStarkProof rerunningCrypto { genesisBlock with
      starkProof := claim 8 (@Block.hash rerunningCrypto genesisBlock).asBytes ++ proof } = true :=
  ((@ChainState.chain_attests_work rerunningCrypto rerunning false {} [] (fun _ hmem => by cases hmem)).2
    genesisBlock 8 _ ⟨by decide, by decide⟩ (by decide) (Bytes.length_padLeft ..)).mpr (attests_claim 8 _)

end Stark

end HassanNode
