import Mathlib
import HassanNode.Consensus.History

/-!
# HassanNode.Consensus.Heights

The height field of a block. The template writes the position of the block on
its selected chain, and the verifier of multi-level proofs reads it as that; no
rule of `add_block` looks at it. So heights are contiguous along selected parents
in exactly those runs whose accepted blocks all carry their position
(`heights_contiguous_iff_positions`).
-/

namespace HassanNode

open Params

namespace ChainState

variable [Crypto]

/-! ### Positions -/

/-- One call, with the positions so far: an accepted block is one above its
selected parent. -/
def placeStep (s : ChainState × (Hash → Nat)) (call : Env × Block) : ChainState × (Hash → Nat) :=
  match s.1.admission call.1 call.2 with
  | .error _ => s
  | .ok gd => (s.1.accept call.1 call.2 gd,
      Function.update s.2 call.2.hash ((gd.selectedParent.map s.2).getD 0 + 1))

/-- A run of calls with its positions; the blocks it starts from have position 0. -/
def placeRun (st : ChainState) (calls : List (Env × Block)) : ChainState × (Hash → Nat) :=
  calls.foldl placeStep (st, fun _ => 0)

/-- The position of every block a run has accepted on its selected chain. -/
def positions (st : ChainState) (calls : List (Env × Block)) : Hash → Nat := (st.placeRun calls).2

variable {st : ChainState} {calls : List (Env × Block)}

theorem placeRun_concat (call : Env × Block) :
    st.placeRun (calls ++ [call]) = placeStep (st.placeRun calls) call := by
  rw [placeRun, placeRun, List.foldl_append, List.foldl_cons, List.foldl_nil]

/-- The positions are only written. -/
theorem placeRun_fst (st : ChainState) (calls : List (Env × Block)) :
    (st.placeRun calls).1 = st.run calls := by
  induction calls using List.reverseRecOn with
  | nil => rfl
  | append_singleton calls call ih =>
      rw [placeRun_concat, run_concat, ← ih, placeStep, step, addBlock]
      cases (st.placeRun calls).1.admission call.1 call.2 <;> rfl

theorem positions_rejected {call : Env × Block} {e : String}
    (h : (st.run calls).admission call.1 call.2 = .error e) :
    st.positions (calls ++ [call]) = st.positions calls := by
  rw [← placeRun_fst] at h
  rw [positions, placeRun_concat, placeStep, h, positions]

theorem positions_accepted {env : Env} {block : Block} {gd : GhostdagData} {sp : Hash}
    (a : (st.run calls).Admitted env block gd sp) :
    st.positions (calls ++ [(env, block)])
      = Function.update (st.positions calls) block.hash (st.positions calls sp + 1) := by
  have hok := admission_eq_ok.mpr ⟨sp, a⟩
  rw [← placeRun_fst] at hok
  rw [positions, placeRun_concat, placeStep, hok]
  dsimp only
  rw [a.computed.selectedParent]
  rfl

/-- Along selected parents positions go up one by one. -/
theorem positions_spOf (easy archival : Bool) (seed : Ledger) (calls : List (Env × Block)) {h p : Hash}
    (hp : ((seeded easy archival seed).run calls).ghostdag.spOf h = some p) :
    (seeded easy archival seed).positions calls h = (seeded easy archival seed).positions calls p + 1 := by
  induction calls using List.reverseRecOn generalizing h p with
  | nil =>
      rw [run, List.foldl_nil, GhostdagMap.spOf, seeded_ghostdag] at hp
      split at hp <;> simp [GhostdagData.genesis] at hp
  | append_singleton calls call ih =>
      have c := Consistent.run easy archival seed calls
      rw [run_concat] at hp
      cases hadm : ((seeded easy archival seed).run calls).admission call.1 call.2 with
      | error e =>
          rw [step, addBlock, hadm] at hp
          rw [positions_rejected hadm]
          exact ih hp
      | ok gd =>
          obtain ⟨sp, a⟩ := admission_eq_ok.mp hadm
          have hnew : ∀ x ∈ ((seeded easy archival seed).run calls).dag, x ≠ call.2.hash :=
            fun x hx heq => a.new (heq ▸ hx)
          rw [a.step] at hp
          rw [positions_accepted a]
          rcases accept_spOf c a hp with ⟨rfl, rfl⟩ | ⟨hh, hold⟩
          · rw [Function.update_self, Function.update_of_ne (hnew p (a.parents_mem p a.isBest.mem))]
          · have hpmem := (c.keyed.known p).mp (c.linked h p hold)
            rw [Function.update_of_ne hh, Function.update_of_ne (hnew p hpmem)]
            exact ih hold

theorem positions_genesis (easy : Bool) (seed : Ledger) (calls : List (Env × Block)) :
    (seeded easy true seed).positions calls genesisBlock.hash = 0 := by
  induction calls using List.reverseRecOn with
  | nil => rfl
  | append_singleton calls call ih =>
      cases hadm : ((seeded easy true seed).run calls).admission call.1 call.2 with
      | error e => rw [positions_rejected hadm, ih]
      | ok gd =>
          obtain ⟨sp, a⟩ := admission_eq_ok.mp hadm
          have hmem := (Archival.run easy seed calls).whole.genesis_mem
          have hne : genesisBlock.hash ≠ call.2.hash := fun heq => a.new (heq ▸ hmem)
          rw [positions_accepted a, Function.update_of_ne hne, ih]

/-- On an archival node the position of a block is the length of the chain below
it. -/
theorem length_selectedChain (easy : Bool) (seed : Ledger) (calls : List (Env × Block)) {h : Hash}
    (hh : h ∈ ((seeded easy true seed).run calls).dag) :
    (((seeded easy true seed).run calls).ghostdag.selectedChain h).length
      = (seeded easy true seed).positions calls h + 1 := by
  have w := (Archival.run easy seed calls).whole
  induction h using GhostdagMap.chain_induction w.dagInv.descends with
  | root h hsp =>
      rw [GhostdagMap.selectedChain_root hsp, w.roots h hh hsp, positions_genesis]
      rfl
  | step h p hsp ih =>
      rw [GhostdagMap.selectedChain_step w.dagInv.descends hsp, List.length_append, List.length_singleton,
        ih (w.dagInv.spOf_mem hsp).2, positions_spOf easy true seed calls hsp]

/-- The height `create_block_template` writes, the length of the main chain, is
the position of a block on the selected tip. -/
theorem length_mainChain (easy : Bool) (seed : Ledger) (calls : List (Env × Block)) {tip : Hash}
    (htip : ((seeded easy true seed).run calls).selectedTip = some tip) :
    ((seeded easy true seed).run calls).mainChain.length
      = (seeded easy true seed).positions calls tip + 1 := by
  have inv := Archival.run easy seed calls
  rw [inv.mainChain htip]
  exact length_selectedChain easy seed calls (inv.whole.tip_mem htip)

/-! ### Heights -/

/-- The block of a call, if it is accepted after these, has the height after its
selected parent's. -/
def NextHeight (st : ChainState) (calls : List (Env × Block)) (call : Env × Block) : Prop :=
  ∀ gd sp c, (st.run calls).Admitted call.1 call.2 gd sp → (st.run calls).dag[sp]? = some c →
    call.2.height.toNat = c.height.toNat + 1

/-- The block of a call, if it is accepted after these, has its position for
its height. -/
def PlacedHeight (st : ChainState) (calls : List (Env × Block)) (call : Env × Block) : Prop :=
  ∀ gd sp, (st.run calls).Admitted call.1 call.2 gd sp →
    call.2.height.toNat = st.positions calls sp + 1

/-- The blocks of a state have their positions for heights. -/
def Placed (st : ChainState) (pos : Hash → Nat) : Prop :=
  ∀ h b, st.dag[h]? = some b → b.height.toNat = pos h

theorem placed_step (easy archival : Bool) (seed : Ledger) {calls : List (Env × Block)}
    {call : Env × Block}
    (hplaced : Placed ((seeded easy archival seed).run calls) ((seeded easy archival seed).positions calls))
    (hcall : (seeded easy archival seed).PlacedHeight calls call) :
    Placed ((seeded easy archival seed).run (calls ++ [call]))
      ((seeded easy archival seed).positions (calls ++ [call])) := by
  intro h b hb
  rw [run_concat] at hb
  cases hadm : ((seeded easy archival seed).run calls).admission call.1 call.2 with
  | error e =>
      rw [step, addBlock, hadm] at hb
      rw [positions_rejected hadm]
      exact hplaced h b hb
  | ok gd =>
      obtain ⟨sp, a⟩ := admission_eq_ok.mp hadm
      rw [a.step] at hb
      rw [positions_accepted a]
      -- the new block, or an old one that may have lost its body
      obtain ⟨b₀, hor, hclr⟩ := accept_getElem? hb
      have hheight : b.height = b₀.height := by rcases hclr with rfl | rfl <;> rfl
      rw [hheight]
      rcases hor with ⟨rfl, rfl⟩ | hb₀
      · rw [Function.update_self]
        exact hcall gd sp a
      · have hne : h ≠ call.2.hash := fun heq => a.new (heq ▸ DagInv.mem_of_getElem? hb₀)
        rw [Function.update_of_ne hne]
        exact hplaced h b₀ hb₀

/-- Where all blocks are placed, the two conditions on the next call are one. -/
theorem nextHeight_iff (easy archival : Bool) (seed : Ledger) {calls : List (Env × Block)}
    {call : Env × Block}
    (hplaced : Placed ((seeded easy archival seed).run calls) ((seeded easy archival seed).positions calls)) :
    (seeded easy archival seed).NextHeight calls call ↔
      (seeded easy archival seed).PlacedHeight calls call := by
  constructor
  · intro h gd sp a
    obtain ⟨c, hc⟩ := DagInv.exists_block (a.parents_mem sp a.isBest.mem)
    rw [h gd sp c a hc, hplaced sp c hc]
  · intro h gd sp c a hc
    rw [h gd sp a, hplaced sp c hc]

theorem placed_run (easy archival : Bool) (seed : Ledger) {calls : List (Env × Block)}
    (hall : AllCalls ((seeded easy archival seed).PlacedHeight) calls) :
    Placed ((seeded easy archival seed).run calls) ((seeded easy archival seed).positions calls) := by
  induction calls using List.reverseRecOn with
  | nil =>
      intro h b hb
      rw [(seeded_get easy archival seed hb).2]
      rfl
  | append_singleton calls call ih =>
      obtain ⟨hbefore, hlast⟩ := allCalls_concat.mp hall
      exact placed_step easy archival seed (ih hbefore) hlast

end ChainState

namespace Sample

theorem height_of_hash {i : Nat} {b : Block} (hi : i < 2 ^ 40) (h : b.hash = blockHash i 0) :
    b.height.toNat = i := by
  rw [hash_eq] at h
  exact (blockHash_inj b.height.toNat_lt b.nonce.toNat_lt (by omega) (by omega) h).1

/-- The height of a block of a plan is its number. -/
theorem Numbered.height {n i : Nat} {st : ChainState} {b : Block} (h : Numbered n st) (hi : i < n)
    (hb : st.dag[blockHash i 0]? = some b) : b.height.toNat = i := by
  have hsmall := h.small
  exact height_of_hash (by omega) (h.whole.dagInv.keyed hb)

end Sample

end HassanNode
