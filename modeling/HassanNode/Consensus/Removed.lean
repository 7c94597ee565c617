import Mathlib
import HassanNode.Ledger.Signing
import HassanNode.Consensus.ChainHeights

/-!
# HassanNode.Consensus.Removed

A block that `prune_history` has removed does not come back. Nothing remembers its
hash; but its parents were removed with it, or before, since their scores are lower,
and a block with an unknown parent is rejected (`Severed.fresh`). Two blocks with one
hash could still differ in their parents, so this is for runs whose block hashes do
not collide; the identity of a block does not say where its parents end, but it does
say what the first one is (`Block.head_parents_eq`).

So heights and scores, once given, are given for good (`settled`).
-/

namespace HassanNode

open Std (ExtTreeMap ExtTreeSet)
open Params

namespace Block

/-- Two blocks with one identity have one first parent. -/
theorem head_parents_eq {b b' : Block} {p p' : Hash} {ps ps' : List Hash} (h : b.identityBytes = b'.identityBytes)
    (hb : b.parents = p :: ps) (hb' : b'.parents = p' :: ps') : p = p' := by
  simp only [identityBytes, List.append_assoc, hb, hb', List.flatMap_cons] at h
  obtain ⟨-, htime⟩ := u64_toNat_delimited trivial trivial (List.append_cancel_left h)
  obtain ⟨-, hparents⟩ := u64_toNat_delimited trivial trivial htime
  exact (hash_delimited trivial trivial hparents).1

theorem length_hashes (hs : List Hash) : (hs.flatMap Hash.asBytes).length = 64 * hs.length := by
  simp only [List.length_flatMap, Hash.length_asBytes, List.map_const', List.sum_replicate, smul_eq_mul]
  exact Nat.mul_comm _ _

theorem length_identityBytes (b : Block) : b.identityBytes.length =
    genesisDomain.length + 244 + 64 * b.parents.length + 64 * b.interlinks.length + b.creatorPubkey.length := by
  simp only [identityBytes, List.length_append, length_hashes, Bincode.length_u64, Bincode.length_u32,
    Hash.length_asBytes]
  omega

/-- The genesis block has the shortest identity. -/
theorem parents_eq_nil {b : Block} (h : b.identityBytes = genesisBlock.identityBytes) : b.parents = [] := by
  have hlength := congrArg List.length h
  rw [length_identityBytes, length_identityBytes] at hlength
  have hshort : genesisBlock.parents.length = 0 ∧ genesisBlock.interlinks.length = 0 ∧
      genesisBlock.creatorPubkey.length = 0 := ⟨rfl, rfl, rfl⟩
  exact List.length_eq_zero_iff.mp (by omega)

end Block

namespace ChainState

section Removed

variable [Crypto] {st : ChainState} {F : History} {env : Env} {block : Block} {gd : GhostdagData} {sp : Hash}

/-! ### What acceptance keeps -/

/-- Of the old blocks and the new one, an accepted state has those above a score,
with the scores they had. -/
theorem accept_kept (c : st.Consistent) (a : st.Admitted env block gd sp) : ∃ floor,
    (∀ h, h ∈ (st.accept env block gd).dag ↔
      (h = block.hash ∨ h ∈ st.dag) ∧ floor ≤ (st.insertBlock env block gd).ghostdag.scoreOf h) ∧
    ∀ h ∈ (st.accept env block gd).dag,
      (st.accept env block gd).ghostdag.scoreOf h = (st.insertBlock env block gd).ghostdag.scoreOf h := by
  obtain ⟨mid, floor, hcleared, -, -, hpruned⟩ := accept_pruned c a
  have hcore := st.acceptFull_core env block gd
  have hscore : mid.ghostdag = (st.insertBlock env block gd).ghostdag := hcleared.ghostdag.trans hcore.ghostdag
  refine ⟨floor, fun h => ?_, fun h hh => ?_⟩
  · rw [hpruned.mem, hcleared.mem, hcore.dag, mem_insertBlock, hscore]
  · rw [hpruned.scoreOf hh, hscore]

/-! ### What is gone -/

/-- The history of a node whose removed blocks have lost their first parents too. -/
structure Severed (st : ChainState) (F : History) : Prop where
  hashed : ∀ {h : Hash} {b : Block}, F.dag[h]? = some b → b.hash = h
  known : ∀ h ∈ st.dag, h ∈ F.dag
  scores : ∀ h ∈ st.dag, st.ghostdag.scoreOf h = F.ghostdag.scoreOf h
  rootless : ∀ {h : Hash} {b : Block}, F.dag[h]? = some b → b.parents = [] → b = genesisBlock
  parent : ∀ {h p : Hash} {ps : List Hash} {b : Block}, F.dag[h]? = some b → b.parents = p :: ps → p ∈ F.dag
  below : ∀ {h p : Hash} {ps : List Hash} {b : Block}, F.dag[h]? = some b → b.parents = p :: ps → h ∈ st.dag → p ∈ st.dag →
    st.ghostdag.scoreOf p < st.ghostdag.scoreOf h
  gone : ∀ {h p : Hash} {ps : List Hash} {b : Block}, F.dag[h]? = some b → b.parents = p :: ps → h ∉ st.dag → p ∉ st.dag

namespace Severed

/-- **A removed block does not come back.** -/
theorem fresh (s : Severed st F) (a : st.Admitted env block gd sp)
    (hfree : ∀ b, F.dag[block.hash]? = some b → b.identityBytes = block.identityBytes) : block.hash ∉ F.dag := by
  intro hmem
  obtain ⟨b, hb⟩ := DagInv.exists_block hmem
  obtain ⟨q, qs, hq⟩ := List.exists_cons_of_ne_nil a.parents_ne
  cases hp : b.parents with
  | nil =>
      have hroot := s.rootless hb hp
      have hnone := Block.parents_eq_nil (hroot ▸ (hfree b hb).symm)
      exact a.parents_ne hnone
  | cons p ps =>
      obtain rfl := Block.head_parents_eq (hfree b hb) hp hq
      exact s.gone hb hp a.new (a.parents_mem p (hq ▸ List.mem_cons_self))

theorem add_eq_some {h : Hash} {b : Block} :
    (F.add block gd).dag[h]? = some b ↔ block.hash = h ∧ block = b ∨ block.hash ≠ h ∧ F.dag[h]? = some b :=
  Map.insert_eq_some

theorem accept (s : Severed st F) (c : st.Consistent) (a : st.Admitted env block gd sp) (hfresh : block.hash ∉ F.dag) :
    Severed (st.accept env block gd) (F.add block gd) := by
  obtain ⟨floor, hkept, hscore⟩ := accept_kept c a
  have he := extends_insertBlock a
  have hmem : ∀ {h}, h ∈ (F.add block gd).dag ↔ h = block.hash ∨ h ∈ F.dag := by
    intro h
    rw [History.add, ExtTreeMap.mem_insert, Std.LawfulEqCmp.compare_eq_iff_eq, eq_comm]
  -- the first parent of the new block is an old one with a lower score
  have hfirst : ∀ {p ps}, block.parents = p :: ps → p ∈ st.dag ∧
      (st.insertBlock env block gd).ghostdag.scoreOf p < (st.insertBlock env block gd).ghostdag.scoreOf block.hash := by
    intro p ps hp
    have hin : p ∈ block.parents := hp ▸ List.mem_cons_self
    have hold := a.parents_mem p hin
    rw [he.scoreOf hold, scoreOf_insertBlock]
    exact ⟨hold, c.score_parents a p hin⟩
  -- and so is that of an old block, as far as it is there
  have hlower : ∀ {h p : Hash} {ps : List Hash} {b : Block}, F.dag[h]? = some b → b.parents = p :: ps → h ∈ st.dag →
      p ∈ (st.accept env block gd).dag → p ∈ st.dag ∧
        (st.insertBlock env block gd).ghostdag.scoreOf p < (st.insertBlock env block gd).ghostdag.scoreOf h := by
    intro h p ps b hb hp hh hpmem
    have hold : p ∈ st.dag := ((hkept p).mp hpmem).1.resolve_left fun heq => hfresh (heq ▸ s.parent hb hp)
    rw [he.scoreOf hold, he.scoreOf hh]
    exact ⟨hold, s.below hb hp hh hold⟩
  refine ⟨fun {h b} hb => ?_, fun h hh => ?_, fun h hh => ?_, fun {h b} hb hp => ?_, fun {h p ps b} hb hp => ?_,
    fun {h p ps b} hb hp hh hpmem => ?_, fun {h p ps b} hb hp hh hpmem => ?_⟩
  · rcases add_eq_some.mp hb with ⟨rfl, rfl⟩ | ⟨-, hb⟩
    · rfl
    · exact s.hashed hb
  · exact hmem.mpr (((hkept h).mp hh).1.imp_right (s.known h))
  · rw [hscore h hh, History.add]
    rcases ((hkept h).mp hh).1 with rfl | hold
    · rw [scoreOf_insertBlock, scoreOf_insert_self]
    · rw [he.scoreOf hold, s.scores h hold, scoreOf_insert_ne]
      exact fun heq => a.new (heq ▸ hold)
  · rcases add_eq_some.mp hb with ⟨-, rfl⟩ | ⟨-, hb⟩
    · exact absurd hp a.parents_ne
    · exact s.rootless hb hp
  · rcases add_eq_some.mp hb with ⟨-, rfl⟩ | ⟨-, hb⟩
    · exact hmem.mpr (Or.inr (s.known p (hfirst hp).1))
    · exact hmem.mpr (Or.inr (s.parent hb hp))
  · rw [hscore h hh, hscore p hpmem]
    rcases add_eq_some.mp hb with ⟨rfl, rfl⟩ | ⟨hne, hb⟩
    · exact (hfirst hp).2
    · exact (hlower hb hp (((hkept h).mp hh).1.resolve_left (Ne.symm hne)) hpmem).2
  · have hfloor := ((hkept p).mp hpmem).2
    have hlow : ∀ {k}, (k = block.hash ∨ k ∈ st.dag) → k ∉ (st.accept env block gd).dag →
        (st.insertBlock env block gd).ghostdag.scoreOf k < floor := fun hor hout =>
      Nat.lt_of_not_le fun hle => hout ((hkept _).mpr ⟨hor, hle⟩)
    rcases add_eq_some.mp hb with ⟨rfl, rfl⟩ | ⟨-, hb⟩
    · have hbelow := (hfirst hp).2
      have hout := hlow (Or.inl rfl) hh
      omega
    · by_cases hold : h ∈ st.dag
      · have hbelow := (hlower hb hp hold hpmem).2
        have hout := hlow (Or.inr hold) hh
        omega
      · refine s.gone hb hp hold (((hkept p).mp hpmem).1.resolve_left fun heq => hfresh ?_)
        exact heq ▸ s.parent hb hp

end Severed

/-! ### Runs without collisions -/

/-- No two blocks of a run, the genesis block among them, have one hash but
different identities. -/
def CollisionFree (calls : List (Env × Block)) : Prop :=
  ∀ b ∈ genesisBlock :: calls.map Prod.snd, ∀ b' ∈ genesisBlock :: calls.map Prod.snd,
    b.hash = b'.hash → b.identityBytes = b'.identityBytes

theorem CollisionFree.prefix {calls more : List (Env × Block)} (h : CollisionFree (calls ++ more)) :
    CollisionFree calls := by
  have hsub : ∀ b ∈ genesisBlock :: calls.map Prod.snd, b ∈ genesisBlock :: (calls ++ more).map Prod.snd := by
    intro b hb
    rw [List.map_append, ← List.cons_append]
    exact List.mem_append_left _ hb
  exact fun b hb b' hb' => h b (hsub b hb) b' (hsub b' hb')

variable {easy archival : Bool} {seed : Ledger} {calls more : List (Env × Block)}

theorem history_rejected {call : Env × Block} {e : String} (h : (st.run calls).admission call.1 call.2 = .error e) :
    st.history (calls ++ [call]) = st.history calls := by
  have hlast : st.history (calls ++ [call]) = (logStep (st.logRun calls) call).2 := by
    simp only [history, logRun, List.foldl_append, List.foldl_cons, List.foldl_nil]
  rw [hlast, logStep, logRun_fst, h]
  rfl

/-- The blocks of a history are the genesis block and blocks of the calls. -/
theorem history_blocks {h : Hash} {b : Block} (hb : ((seeded easy archival seed).history calls).dag[h]? = some b) :
    b ∈ genesisBlock :: calls.map Prod.snd := by
  induction calls using List.reverseRecOn with
  | nil => exact (seeded_get easy archival seed hb).2 ▸ List.mem_cons_self
  | append_singleton calls call ih =>
      have hmore : ∀ {b}, b ∈ genesisBlock :: calls.map Prod.snd →
          b ∈ genesisBlock :: (calls ++ [call]).map Prod.snd := fun hb => by
        rw [List.map_append, ← List.cons_append]
        exact List.mem_append_left _ hb
      cases hadm : ((seeded easy archival seed).run calls).admission call.1 call.2 with
      | error e =>
          rw [history_rejected hadm] at hb
          exact hmore (ih hb)
      | ok gd =>
          obtain ⟨sp, a⟩ := admission_eq_ok.mp hadm
          rw [history_concat a] at hb
          rcases Severed.add_eq_some.mp hb with ⟨-, rfl⟩ | ⟨-, hb⟩
          · simp
          · exact hmore (ih hb)

theorem Severed.fresh_run (s : Severed ((seeded easy archival seed).run calls) ((seeded easy archival seed).history calls))
    (hfree : CollisionFree (calls ++ [(env, block)]))
    (a : ((seeded easy archival seed).run calls).Admitted env block gd sp) :
    block.hash ∉ ((seeded easy archival seed).history calls).dag := by
  refine s.fresh a fun b hb => ?_
  have hold : b ∈ genesisBlock :: (calls ++ [(env, block)]).map Prod.snd := by
    rw [List.map_append, ← List.cons_append]
    exact List.mem_append_left _ (history_blocks hb)
  exact hfree b hold block (by simp) (s.hashed hb)

theorem Severed.run (hfree : CollisionFree calls) :
    Severed ((seeded easy archival seed).run calls) ((seeded easy archival seed).history calls) := by
  induction calls using List.reverseRecOn with
  | nil =>
      have hgenesis : ∀ {h : Hash} {b : Block}, (seeded easy archival seed).dag[h]? = some b → b.parents = [] := by
        intro h b hb
        rw [(seeded_get easy archival seed hb).2]
        rfl
      have hnone : ∀ {h p : Hash} {ps : List Hash} {b : Block}, (seeded easy archival seed).dag[h]? = some b →
          b.parents ≠ p :: ps := fun hb hp => List.cons_ne_nil _ _ (hp.symm.trans (hgenesis hb))
      refine ⟨fun {h b} hb => ?_, fun h hh => hh, fun h _ => rfl, fun {h b} hb _ => ?_,
        fun hb hp => absurd hp (hnone hb), fun hb hp => absurd hp (hnone hb), fun hb hp => absurd hp (hnone hb)⟩
      · rw [(seeded_get easy archival seed hb).1, (seeded_get easy archival seed hb).2]
      · exact (seeded_get easy archival seed hb).2
  | append_singleton calls call ih =>
      have s := ih hfree.prefix
      cases hadm : ((seeded easy archival seed).run calls).admission call.1 call.2 with
      | error e =>
          rw [run_concat, step, addBlock, hadm, history_rejected hadm]
          exact s
      | ok gd =>
          obtain ⟨sp, a⟩ := admission_eq_ok.mp hadm
          rw [run_concat, a.step, history_concat a]
          exact s.accept (Consistent.run easy archival seed calls) a (s.fresh_run hfree a)

/-- **What a run has settled stays**: whatever it does later, a block that it has
accepted keeps its height and its score. -/
theorem settled (hfree : CollisionFree (calls ++ more)) {h : Hash}
    (hh : h ∈ ((seeded easy archival seed).history calls).dag) :
    h ∈ ((seeded easy archival seed).history (calls ++ more)).dag ∧
      (seeded easy archival seed).positions (calls ++ more) h = (seeded easy archival seed).positions calls h ∧
      ((seeded easy archival seed).history (calls ++ more)).ghostdag.scoreOf h
        = ((seeded easy archival seed).history calls).ghostdag.scoreOf h := by
  induction more using List.reverseRecOn with
  | nil => rw [List.append_nil]; exact ⟨hh, rfl, rfl⟩
  | append_singleton more call ih =>
      rw [← List.append_assoc] at hfree ⊢
      obtain ⟨hmem, hheight, hscore⟩ := ih hfree.prefix
      cases hadm : ((seeded easy archival seed).run (calls ++ more)).admission call.1 call.2 with
      | error e =>
          rw [history_rejected hadm, positions_rejected hadm]
          exact ⟨hmem, hheight, hscore⟩
      | ok gd =>
          obtain ⟨sp, a⟩ := admission_eq_ok.mp hadm
          have hne : call.2.hash ≠ h := fun heq => (Severed.run hfree.prefix).fresh_run hfree a (heq ▸ hmem)
          rw [history_concat a, positions_accepted a, History.add, Function.update_of_ne (Ne.symm hne),
            scoreOf_insert_ne hne]
          exact ⟨ExtTreeMap.mem_insert.mpr (Or.inr hmem), hheight, hscore⟩

end Removed

end ChainState

end HassanNode
