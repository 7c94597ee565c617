import Mathlib
import HassanNode.Ledger.Commitment
import HassanNode.Consensus.ArchivalRuns
import HassanNode.Consensus.Mining

/-!
# HassanNode.Consensus.ColdStart

Cold start from a pruning point (`lib.rs`): the header-only proof an archival
node serves, the import of its headers on a fresh node, and the pruning-point
ledger that is checked against the header's `state_root` before it becomes the
base.
-/

namespace HassanNode

open Std (ExtTreeMap ExtTreeSet)
open Params

/-- `header_only`: the hash stays, the body and the witnesses go. -/
def Block.headerOnly (b : Block) : Block :=
  { b with
    transparentTxs := [], utxoTxs := [], registryOps := [], custodyOps := []
    starkProof := [], birthCertificate := [], size := 0 }

/-- The ledger message of a cold start. -/
structure PruningPointLedger where
  pruningPoint : Hash
  ledger : Ledger

namespace ChainState

variable [Crypto]

/-! ### Serving -/

/-- `build_pruning_proof`: the headers of the selected chain up to the pruning
point. -/
def buildPruningProof (st : ChainState) : Option (List Block) := do
  let pp ← st.pruningPoint
  let tip ← st.selectedTip
  let chain := st.ghostdag.selectedChain tip
  if chain.contains pp then
    let headers ← (chain.take (chain.idxOf pp + 1)).mapM fun h => st.dag[h]?.map Block.headerOnly
    if headers.head?.map Block.hash = some genesisBlock.hash then some headers else none
  else none

/-- `build_pruning_point_ledger`. -/
def buildPruningPointLedger (st : ChainState) : Option PruningPointLedger := do
  let pp ← st.pruningPoint
  let expected ← st.dag[pp]?.map Block.stateRoot
  match st.pruningLedger.filter (·.merkleRoot == expected) with
  | some cached => some ⟨pp, cached⟩
  | none =>
    if !st.archival then none
    else
      let ledger ← st.ledgerViaGenesisReplay pp
      if ledger.merkleRoot ≠ expected then none else some ⟨pp, ledger⟩

/-- `set_serving_pruning_point`: the pruning point is set even if the ledger
cannot be served. -/
def setServingPruningPoint (st : ChainState) (pp : Hash) : ChainState × Except String Unit :=
  match st.dag[pp]? with
  | none => (st, .error "pruning point not in DAG")
  | some header =>
    let st := { st with pruningPoint := some pp }
    match st.ledgerViaGenesisReplay pp with
    | none => (st, .error "cannot replay ledger to pruning point")
    | some ledger =>
      if ledger.merkleRoot ≠ header.stateRoot then
        (st, .error "replayed ledger does not match PP state_root")
      else ({ st with pruningLedger := some ledger }, .ok ())

theorem setServingPruningPoint_core {st : ChainState} {pp : Hash} (hpp : pp ∈ st.dag) :
    st.SameCore (st.setServingPruningPoint pp).1 ∧
      (st.setServingPruningPoint pp).1.pruningPoint = some pp := by
  obtain ⟨header, hheader⟩ := Option.isSome_iff_exists.mp (ExtTreeMap.mem_iff_isSome_getElem?.mp hpp)
  rw [setServingPruningPoint, hheader]
  dsimp only
  split
  · exact ⟨⟨rfl, rfl, rfl, rfl, rfl, rfl⟩, rfl⟩
  · split
    · exact ⟨⟨rfl, rfl, rfl, rfl, rfl, rfl⟩, rfl⟩
    · exact ⟨⟨rfl, rfl, rfl, rfl, rfl, rfl⟩, rfl⟩

/-! ### Importing -/

/-- The data of an imported header: computed if a parent is known, else it is
hung below the header imported before it. -/
def importedData (st : ChainState) (header : Block) (prev : Hash) : GhostdagData :=
  match st.computeGhostdag header.parents with
  | .ok gd => if gd.selectedParent.isSome then gd else below
  | .error _ => below
where
  below : GhostdagData :=
    { blueScore := satAdd64 (st.ghostdag.scoreOf prev) 1
      selectedParent := some prev
      mergesetBlues := [prev]
      mergesetReds := [] }

/-- One header of the import loop, with the header before it. -/
def importHeader (env : Env) (acc : ChainState × Hash) (hdr : Block) : ChainState × Hash :=
  let (st, prev) := acc
  if st.dag.contains hdr.hash then (st, hdr.hash)
  else
    let header := hdr.headerOnly
    let gd := st.importedData header prev
    ({ st with
        dag := st.dag.insert hdr.hash header
        ghostdag := st.ghostdag.insert hdr.hash gd
        reachability := st.reachability.addBlock env.iter hdr.hash gd.selectedParent gd.merged },
      hdr.hash)

/-- `import_verified_pruning_headers`. -/
def importVerifiedPruningHeaders (st : ChainState) (env : Env) (headers : List Block) :
    Except String (ChainState × Hash) :=
  match headers with
  | [] => .error "empty pruning header list"
  | first :: rest =>
    if first.hash ≠ genesisBlock.hash then .error "pruning headers must start at genesis"
    else if !st.dag.contains genesisBlock.hash then .error "local genesis missing"
    else
      let st := (rest.foldl (importHeader env) (st, genesisBlock.hash)).1
      let pp := ((first :: rest).getLast (by simp)).hash
      let st := { st with tips := [pp] }.orderMainChain
      let st := { st with pruningPoint := some pp }.captureBase
      .ok ({ st with baseFrontier := some pp, live := st.base }, pp)

/-- `adopt_pruning_point_ledger`. -/
def adoptPruningPointLedger (st : ChainState) (msg : PruningPointLedger) : Except String ChainState :=
  match st.pruningPoint with
  | none => .error "no pruning point to adopt ledger for"
  | some pp =>
    if msg.pruningPoint ≠ pp then .error "pruning-point ledger hash mismatch"
    else
      match st.dag[pp]? with
      | none => .error "pruning point header missing"
      | some header =>
        if msg.ledger.merkleRoot ≠ header.stateRoot then
          .error "pruning-point ledger does not match state_root"
        else
          .ok { st with
            base := msg.ledger
            baseCaptured := true
            baseFrontier := some pp
            pruningLedger := some msg.ledger
            live := msg.ledger }

/-! ### What an import does -/

/-- A block of the import loop is an old one or a header of the proof. -/
theorem foldl_importHeader_getElem? {st : ChainState} {env : Env} {prev h : Hash} {b : Block} (hdrs : List Block)
    (hb : (hdrs.foldl (importHeader env) (st, prev)).1.dag[h]? = some b) :
    st.dag[h]? = some b ∨ ∃ hdr ∈ hdrs, h = hdr.hash ∧ b = hdr.headerOnly := by
  induction hdrs generalizing st prev with
  | nil => exact Or.inl hb
  | cons hdr hdrs ih =>
      rw [List.foldl_cons, importHeader] at hb
      dsimp only at hb
      split at hb
      · rcases ih hb with hold | ⟨hdr', hmem, hnew⟩
        · exact Or.inl hold
        · exact Or.inr ⟨hdr', List.mem_cons_of_mem _ hmem, hnew⟩
      · rcases ih hb with hold | ⟨hdr', hmem, hnew⟩
        · dsimp only at hold
          rw [ExtTreeMap.getElem?_insert] at hold
          split at hold
          · rename_i heq
            have heq := Std.LawfulEqCmp.eq_of_compare heq
            exact Or.inr ⟨hdr, List.mem_cons_self .., heq.symm, (Option.some.inj hold).symm⟩
          · exact Or.inl hold
        · exact Or.inr ⟨hdr', List.mem_cons_of_mem _ hmem, hnew⟩

/-- What is left of an import: the DAG and the GHOSTDAG map of the loop, and the
last header as the only tip. -/
theorem importVerifiedPruningHeaders_ok {st st' : ChainState} {env : Env} {headers : List Block} {pp : Hash}
    (h : st.importVerifiedPruningHeaders env headers = .ok (st', pp)) : ∃ first rest,
      headers = first :: rest ∧ first.hash = genesisBlock.hash ∧ genesisBlock.hash ∈ st.dag ∧
      headers.getLast?.map Block.hash = some pp ∧ st'.tips = [pp] ∧
      st'.dag = (rest.foldl (importHeader env) (st, genesisBlock.hash)).1.dag ∧
      st'.ghostdag = (rest.foldl (importHeader env) (st, genesisBlock.hash)).1.ghostdag := by
  unfold importVerifiedPruningHeaders at h
  split at h
  · cases h
  · rename_i first rest
    split at h
    · cases h
    · rename_i hfirst
      split at h
      · cases h
      · rename_i hgenesis
        obtain ⟨rfl, rfl⟩ := Prod.mk.inj (Except.ok.inj h)
        have hmem : genesisBlock.hash ∈ st.dag := by simpa using hgenesis
        refine ⟨first, rest, rfl, not_not.mp hfirst, hmem, ?_, ?_, ?_, ?_⟩
        · rw [List.getLast?_eq_some_getLast (List.cons_ne_nil _ _)]
          rfl
        · exact (captureBase_core _).tips.trans (orderMainChain_core _).tips
        · exact (captureBase_core _).dag.trans (orderMainChain_core _).dag
        · exact (captureBase_core _).ghostdag.trans (orderMainChain_core _).ghostdag

/-! ### What an adopted ledger is -/

/-- An adopted ledger leaves the blocks as they are. -/
theorem adoptPruningPointLedger_core {st st' : ChainState} {msg : PruningPointLedger}
    (h : st.adoptPruningPointLedger msg = .ok st') : st.SameCore st' := by
  unfold adoptPruningPointLedger at h
  split at h
  · cases h
  · split at h
    · cases h
    · split at h
      · cases h
      · split at h
        · cases h
        · obtain rfl := Except.ok.inj h
          exact ⟨rfl, rfl, rfl, rfl, rfl, rfl⟩

/-- A ledger is adopted only for the pruning point, and only with its root. -/
theorem adoptPruningPointLedger_ok {st st' : ChainState} {msg : PruningPointLedger} {header : Block}
    (h : st.adoptPruningPointLedger msg = .ok st')
    (hheader : st.dag[msg.pruningPoint]? = some header) :
    st.pruningPoint = some msg.pruningPoint ∧ msg.ledger.merkleRoot = header.stateRoot ∧
      st'.base = msg.ledger ∧ st'.live = msg.ledger := by
  unfold adoptPruningPointLedger at h
  split at h
  · cases h
  · rename_i pp hpp
    split at h
    · cases h
    · rename_i hsame
      rw [ne_eq, not_not] at hsame
      subst hsame
      rw [hheader] at h
      dsimp only at h
      split at h
      · cases h
      · rename_i hroot
        rw [ne_eq, not_not] at hroot
        obtain rfl := Except.ok.inj h
        exact ⟨hpp, hroot, rfl, rfl⟩

theorem adoptPruningPointLedger_eq {st : ChainState} {pp : Hash} {header : Block} {l : Ledger}
    (hpp : st.pruningPoint = some pp) (hheader : st.dag[pp]? = some header)
    (hroot : l.merkleRoot = header.stateRoot) :
    st.adoptPruningPointLedger ⟨pp, l⟩ = .ok { st with
      base := l, baseCaptured := true, baseFrontier := some pp, pruningLedger := some l, live := l } := by
  simp only [adoptPruningPointLedger, hpp, hheader, hroot, ne_eq, not_true_eq_false, if_false]

/-- Wherever a ledger can be adopted, so can a copy with one more coin staked. -/
theorem adopts_restaked {st : ChainState} {pp : Hash} {header : Block} {l : Ledger}
    (hpp : st.pruningPoint = some pp) (hheader : st.dag[pp]? = some header)
    (hroot : l.merkleRoot = header.stateRoot) :
    ∃ forged st', l.merkleRoot = forged.merkleRoot ∧ l.NoCollision forged ∧
      st.adoptPruningPointLedger ⟨pp, forged⟩ = .ok st' ∧ ¬ l.AgreesWith st'.base := by
  let forged : Ledger := { l with staked := l.staked.insert [] (l.staked[([] : Address)]?.getD 0 + 1) }
  have hsame : l.merkleRoot = forged.merkleRoot := rfl
  refine ⟨forged, _, hsame, ⟨fun _ => rfl, fun _ => rfl⟩,
    adoptPruningPointLedger_eq hpp hheader (hsame.symm.trans hroot), fun hagree => ?_⟩
  have hstaked : l.staked = l.staked.insert [] (l.staked[([] : Address)]?.getD 0 + 1) := hagree.staked
  have hentry := congrArg (fun m : ExtTreeMap Address Nat => m[([] : Address)]?.getD 0) hstaked
  simp at hentry

end ChainState

namespace Sample

open ChainState

/-- A node that knows one header, with the root of the empty ledger. -/
def headed : ChainState :=
  { ChainState.seeded false false {} with
    dag := (∅ : Dag).insert Hash.zero { genesisBlock with stateRoot := ({} : Ledger).merkleRoot }
    pruningPoint := some Hash.zero }

theorem empty_fits : ({} : Ledger).Fits := by
  refine ⟨fun e he => ?_, by norm_num, by norm_num, fun e he => ?_⟩
  · simp [Ledger.accountView, ExtTreeMap.toList_map] at he
  · rw [ExtTreeMap.mem_toList_iff_getElem?_eq_some] at he
    simp at he

end Sample

end HassanNode
