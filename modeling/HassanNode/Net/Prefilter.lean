import Mathlib
import HassanNode.Net.Exchange
import HassanNode.Net.Downloads
import HassanNode.Consensus.Views
import HassanNode.Consensus.Producer

/-!
# HassanNode.Net.Prefilter

**The cheap tests in front of `add_block`.** A node tests a header, and later the
block, under a read lock; `add_block` runs under the write lock, after whatever other
calls came in between. What the tests ask of a header is decided by the past of the
block (`Linked`), and an archival node keeps that past: so a verdict stays what it was
(`Linked.later`), and a block that is admitted in the end was never refused before,
unless for a parent that was still missing.

Only one thing the tests read is not part of the past: the supply era, which sets the
lowest difficulty. The verdicts are compared within one era.
-/

namespace HassanNode

open Std (ExtTreeMap)
open Params

namespace Block

variable [Crypto]

/-- What the block test asks of the body and of the witnesses, whatever the state. -/
structure Witnessed (b : Block) : Prop where
  base : b.verifySize = true
  wire : b.wireSize ≤ maxBlockBytes
  witness : (!b.starkProof.isEmpty && !b.birthCertificate.isEmpty) = true
  format : (starkPrecheckFormat b.starkProof).mapError ("Invalid STARK proof: " ++ ·) = .ok ()

end Block

namespace ChainState

variable [Crypto] {st st' : ChainState} {env env' : Env} {b h : Block} {seed : Ledger}

/-! ### What the two tests ask -/

/-- What both tests ask of a header on known parents. -/
structure Linked (st : ChainState) (env : Env) (h : Block) : Prop where
  parents_ne : h.parents ≠ []
  parents_le : h.parents.length ≤ maxBlockParents
  nodup : h.parents.Nodup
  known : ∀ p ∈ h.parents, p ∈ st.dag
  difficulty : h.difficulty.toNat = st.expectedDifficultyAt env.labEasyPow h.parents h.timestamp.toNat
  work : verifyPow h.hash h.difficulty = true
  links : ∃ sp, st.ghostdag.selectParent h.parents = some sp ∧
    h.interlinks = (st.dag[sp]?.map computeInterlinks).getD []

omit [Crypto] in
/-- The parent loop passes distinct known parents, and nothing else. -/
theorem scanParents_eq_ok {seen parents : List Hash} :
    st.scanParents seen parents = .ok () ↔
      parents.Nodup ∧ (∀ p ∈ parents, p ∉ seen) ∧ ∀ p ∈ parents, p ∈ st.dag := by
  constructor
  · intro h
    induction parents generalizing seen with
    | nil => simp
    | cons q parents ih =>
        rw [scanParents] at h
        split at h
        · cases h
        · rename_i hnew
          split at h
          · cases h
          · rename_i hknown
            obtain ⟨hnodup, hapart, hrest⟩ := ih h
            have hq : q ∈ st.dag := by simpa using hknown
            have hqs : q ∉ seen := by simpa using hnew
            refine ⟨List.nodup_cons.mpr ⟨fun hmem => ?_, hnodup⟩, fun p hp => ?_, fun p hp => ?_⟩
            · -- a repeated parent would have been seen
              exact hapart q hmem (List.mem_cons_self ..)
            · rcases List.mem_cons.mp hp with heq | hp
              · exact heq ▸ hqs
              · exact fun hseen => hapart p hp (List.mem_cons_of_mem _ hseen)
            · rcases List.mem_cons.mp hp with heq | hp
              · exact heq ▸ hq
              · exact hrest p hp
  · intro h
    obtain ⟨hnodup, hapart, hknown⟩ := h
    exact scanParents_known hnodup hapart hknown

omit [Crypto] in
theorem contains_test {x : Hash} : (!st.dag.contains x) = true ↔ x ∉ st.dag := by
  rw [Bool.not_eq_true', ← Bool.not_eq_true, ExtTreeMap.contains_iff_mem]

theorem precheckHeader_eq_ok : st.precheckHeader env h = .ok () ↔ h.hash ∉ st.dag ∧ st.Linked env h := by
  simp only [precheckHeader, Except.then_ok_iff, ensure_eq_ok, contains_test, scanParents_eq_ok]
  constructor
  · intro h
    obtain ⟨hnew, hne, hle, ⟨hnodup, -, hknown⟩, hdifficulty, hwork, hlinks⟩ := h
    split at hlinks
    · cases hlinks
    · rename_i sp hsp
      rw [ensure_eq_ok, beq_iff_eq] at hlinks
      exact ⟨hnew, by simpa using hne, by simpa using hle, hnodup, hknown,
        by simpa using hdifficulty, hwork, sp, hsp, hlinks⟩
  · intro h
    obtain ⟨hnew, l⟩ := h
    obtain ⟨sp, hsp, hlinks⟩ := l.links
    simp only [hsp]
    exact ⟨hnew, by simpa using l.parents_ne, by simpa using l.parents_le,
      ⟨l.nodup, fun _ _ => List.not_mem_nil, l.known⟩, by simpa using l.difficulty, l.work, by simpa using hlinks⟩

/-- The block test is the header test and what it asks of the rest. -/
theorem precheckBlock_eq_ok :
    st.precheckBlock env b = .ok () ↔ b.hash ∉ st.dag ∧ st.Linked env b ∧ b.Witnessed := by
  simp only [precheckBlock, Except.then_ok_iff, ensure_eq_ok, contains_test, scanParents_eq_ok]
  constructor
  · intro h
    obtain ⟨hnew, hbase, hwire, hne, hle, ⟨hnodup, -, hknown⟩, hdifficulty, hwork, hwitness, hformat, hlinks⟩ := h
    split at hlinks
    · cases hlinks
    · rename_i sp hsp
      rw [ensure_eq_ok, beq_iff_eq] at hlinks
      exact ⟨hnew, ⟨by simpa using hne, by simpa using hle, hnodup, hknown,
        by simpa using hdifficulty, hwork, sp, hsp, hlinks⟩, ⟨hbase, by simpa using hwire, hwitness, hformat⟩⟩
  · intro h
    obtain ⟨hnew, l, w⟩ := h
    obtain ⟨sp, hsp, hlinks⟩ := l.links
    simp only [hsp]
    exact ⟨hnew, w.base, by simpa using w.wire, by simpa using l.parents_ne,
      by simpa using l.parents_le, ⟨l.nodup, fun _ _ => List.not_mem_nil, l.known⟩,
      by simpa using l.difficulty, l.work, w.witness, w.format, by simpa using hlinks⟩

/-- Blocks of one header are linked alike: the links, the work and the hash are in it. -/
theorem Linked.of_header (l : st.Linked env h) (hheader : b.headerOnly = h.headerOnly) : st.Linked env b := by
  have hhash : b.hash = h.hash := by
    show b.headerOnly.hash = h.headerOnly.hash
    rw [hheader]
  have hparents : b.parents = h.parents := (congrArg Block.parents hheader :)
  have hinterlinks : b.interlinks = h.interlinks := (congrArg Block.interlinks hheader :)
  have hdifficulty : b.difficulty = h.difficulty := (congrArg Block.difficulty hheader :)
  have htimestamp : b.timestamp = h.timestamp := (congrArg Block.timestamp hheader :)
  refine ⟨hparents ▸ l.parents_ne, hparents ▸ l.parents_le, hparents ▸ l.nodup, hparents ▸ l.known, ?_, ?_, ?_⟩
  · rw [hdifficulty, hparents, htimestamp]
    exact l.difficulty
  · rw [hhash, hdifficulty]
    exact l.work
  · rw [hparents, hinterlinks]
    exact l.links

/-! ### A verdict stays -/

theorem Extends.sharedPast (e : st.Extends st') (w : st.Whole) {parents : List Hash}
    (hknown : ∀ p ∈ parents, p ∈ st.dag) : st.SharedPast st' parents := by
  have hold : ∀ x, InPast st.dag parents x → x ∈ st.dag := by
    intro x ⟨p, hp, hx⟩
    rcases hx with heq | hpast
    · exact heq ▸ hknown p hp
    · exact w.dagInv.past_mem hpast (hknown p hp)
  exact ⟨hknown, fun x hx => e.dag x (hold x hx), fun x hx => e.ghostdag x (hold x hx)⟩

/-- In one supply era the required difficulty on old parents stays. -/
theorem Extends.expectedDifficultyAt (e : st.Extends st') (w : st.Whole) {parents : List Hash} {easy : Bool}
    (hknown : ∀ p ∈ parents, p ∈ st.dag)
    (hera : easy = true ∨ (st'.live.mintedSupply < bootstrapEraEnd ↔ st.live.mintedSupply < bootstrapEraEnd))
    (t : Nat) : st'.expectedDifficultyAt easy parents t = st.expectedDifficultyAt easy parents t :=
  (e.sharedPast w hknown).expectedDifficultyAt w.dagInv (eraMinDifficulty_eq_iff.mpr hera)

/-- Two states with the same header tests for old parents, in any order of time. -/
theorem Extends.linked_iff (e : st.Extends st') (w : st.Whole) (hpow : env'.labEasyPow = env.labEasyPow)
    (hera : env.labEasyPow = true ∨
      (st'.live.mintedSupply < bootstrapEraEnd ↔ st.live.mintedSupply < bootstrapEraEnd))
    (hknown : ∀ p ∈ h.parents, p ∈ st.dag) : st'.Linked env' h ↔ st.Linked env h := by
  have hselect := e.selectParent w hknown
  have hdifficulty := e.expectedDifficultyAt w hknown hera h.timestamp.toNat
  have hlinks : (∃ sp, st'.ghostdag.selectParent h.parents = some sp ∧
        h.interlinks = (st'.dag[sp]?.map computeInterlinks).getD []) ↔
      ∃ sp, st.ghostdag.selectParent h.parents = some sp ∧
        h.interlinks = (st.dag[sp]?.map computeInterlinks).getD [] := by
    rw [hselect]
    refine exists_congr fun sp => and_congr_right fun hsp => ?_
    have hmem : sp ∈ st.dag := hknown sp (GhostdagMap.selectBest_eq_some.mp hsp).mem
    rw [e.dag sp hmem]
  constructor
  · intro l
    have hrequired := l.difficulty
    rw [hpow, hdifficulty] at hrequired
    exact ⟨l.parents_ne, l.parents_le, l.nodup, hknown, hrequired, l.work, hlinks.mp l.links⟩
  · intro l
    have hrequired := l.difficulty
    rw [← hdifficulty, ← hpow] at hrequired
    exact ⟨l.parents_ne, l.parents_le, l.nodup, fun p hp => e.mem (hknown p hp), hrequired, l.work,
      hlinks.mpr l.links⟩

/-! ### The verdict on an admissible block -/

/-- What the tests say of a block that is admitted in the end. -/
def prefilterVerdict (st : ChainState) (b : Block) : Except String Unit :=
  if b.parents.all st.dag.contains then .ok () else .error "Unknown parent block"

/-- A header with an unknown parent is refused for that. -/
theorem precheckHeader_orphan (hnew : h.hash ∉ st.dag) (hle : h.parents.length ≤ maxBlockParents)
    (hnodup : h.parents.Nodup) (hunknown : ∃ p ∈ h.parents, p ∉ st.dag) :
    st.precheckHeader env h = .error "Unknown parent block" := by
  have hne : h.parents ≠ [] := by
    intro hnil
    obtain ⟨p, hp, -⟩ := hunknown
    rw [hnil] at hp
    cases hp
  have hscan := @scanParents_unknown st [] _ hnodup (fun _ _ hmem => by cases hmem) hunknown
  simp [precheckHeader, ensure, contains_eq_false hnew, hne, hle, hscan, bind, Except.bind]

/-- **Both tests agree with `add_block`, at any earlier time.** -/
theorem Later.verdict (l : Later st st') (inv : Archival seed st) (hpow : env'.labEasyPow = env.labEasyPow)
    (hera : env.labEasyPow = true ∨
      (st'.live.mintedSupply < bootstrapEraEnd ↔ st.live.mintedSupply < bootstrapEraEnd))
    {gd : GhostdagData} {sp : Hash} (a : st'.Admitted env' b gd sp) :
    st.precheckBlock env b = st.prefilterVerdict b ∧ st.precheckHeader env b.headerOnly = st.prefilterVerdict b := by
  obtain ⟨hnew', linked', witnessed⟩ := precheckBlock_eq_ok.mp (precheckBlock_of_admitted a)
  have hnew : b.hash ∉ st.dag := fun hmem => hnew' (l.blocks.mem hmem)
  by_cases hknown : ∀ p ∈ b.parents, p ∈ st.dag
  · have hall : b.parents.all st.dag.contains = true := by simpa using hknown
    have linked := (l.blocks.linked_iff inv.whole hpow hera hknown).mp linked'
    rw [prefilterVerdict, if_pos hall]
    exact ⟨precheckBlock_eq_ok.mpr ⟨hnew, linked, witnessed⟩,
      precheckHeader_eq_ok.mpr ⟨hnew, linked.of_header rfl⟩⟩
  · have hall : ¬ b.parents.all st.dag.contains = true := by simpa using hknown
    have hunknown : ∃ p ∈ b.parents, p ∉ st.dag := by
      by_contra hno
      exact hknown fun p hp => by_contra fun hout => hno ⟨p, hp, hout⟩
    rw [prefilterVerdict, if_neg hall]
    exact ⟨precheckBlock_orphan hnew ⟨witnessed.base, witnessed.wire, linked'.parents_le, linked'.nodup⟩ hunknown,
      precheckHeader_orphan hnew linked'.parents_le linked'.nodup hunknown⟩

/-- **The cheap tests and `add_block` agree across time.** Between the two any other
calls may be taken. A block that `add_block` admits later passes both tests now, or is
told that a parent is missing; and once a header has passed, the block test of a block
with that header never asks about the header again. -/
theorem prefilter_agrees (easy : Bool) (seed : Ledger) (calls more : List (Env × Block)) {env env' : Env}
    (hpow : env'.labEasyPow = env.labEasyPow)
    (hera : env.labEasyPow = true ∨
      ((((seeded easy true seed).run calls).run more).live.mintedSupply < bootstrapEraEnd ↔
        ((seeded easy true seed).run calls).live.mintedSupply < bootstrapEraEnd)) :
    (∀ b st'', (((seeded easy true seed).run calls).run more).addBlock env' b = .ok st'' →
      ((seeded easy true seed).run calls).precheckBlock env b
          = ((seeded easy true seed).run calls).prefilterVerdict b ∧
        ((seeded easy true seed).run calls).precheckHeader env b.headerOnly
          = ((seeded easy true seed).run calls).prefilterVerdict b) ∧
    ∀ h b : Block, b.headerOnly = h.headerOnly → ((seeded easy true seed).run calls).precheckHeader env h = .ok () →
      ((((seeded easy true seed).run calls).run more).precheckBlock env' b = .ok () ↔
        b.hash ∉ (((seeded easy true seed).run calls).run more).dag ∧ b.Witnessed) := by
  have inv : Archival seed ((seeded easy true seed).run calls) := .run easy seed calls
  have l : Later ((seeded easy true seed).run calls) (((seeded easy true seed).run calls).run more) := inv.later more
  refine ⟨fun b st'' haccept => ?_, fun h b hheader hpassed => ?_⟩
  · obtain ⟨gd, sp, a, -⟩ := addBlock_eq_ok.mp haccept
    exact l.verdict inv hpow hera a
  · obtain ⟨-, linked⟩ := precheckHeader_eq_ok.mp hpassed
    have linked := linked.of_header hheader
    have linked' := (l.blocks.linked_iff inv.whole hpow hera linked.known).mpr linked
    rw [precheckBlock_eq_ok]
    exact ⟨fun h => ⟨h.1, h.2.2⟩, fun h => ⟨h.1, linked', h.2⟩⟩

end ChainState

namespace Sample

open ChainState

/-- The first block of a new node, tested and added. -/
theorem prefilter_first : ∃ (b : Block) (st'' : ChainState),
    (seeded false true {}).addBlock env b = .ok st'' ∧
      (seeded false true {}).precheckBlock env b = (seeded false true {}).prefilterVerdict b ∧
      (seeded false true {}).precheckHeader env b.headerOnly = (seeded false true {}).prefilterVerdict b := by
  have h := numbered_seeded true
  obtain ⟨gd, sp, a, -⟩ := h.admitted (planned_chain 1 0 [0] rfl) (h.shallow (by decide))
  have hadd : (seeded false true {}).addBlock env (mined (seeded false true {}) (hashes [0]) 1 0)
      = .ok ((seeded false true {}).accept env (mined (seeded false true {}) (hashes [0]) 1 0) gd) :=
    addBlock_eq_ok.mpr ⟨gd, sp, a, rfl⟩
  have hagrees := (prefilter_agrees false {} [] [] rfl (Or.inr Iff.rfl)).1 _ _ hadd
  exact ⟨_, _, hadd, hagrees⟩

end Sample

end HassanNode
