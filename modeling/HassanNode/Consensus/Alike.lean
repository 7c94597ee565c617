import Mathlib
import HassanNode.Consensus.Values
import HassanNode.Consensus.Views

/-!
# HassanNode.Consensus.Alike

Two nodes with the same headers, GHOSTDAG data, tips and ledgers (`Alike`). Selection,
finality, order, difficulty and median time read headers only, so two such nodes differ
at most in what their indexes answer and in the bodies they replay: where these agree the
nodes admit the same blocks (`Admitted.alike`) and stay alike (`Alike.acceptFull`).
-/

namespace HassanNode

open Std (ExtTreeMap ExtTreeSet)
open Params

namespace Block

/-- What `hash` reads of a block; the rest is blank. -/
def header (b : Block) : Block := { b.clearBody with coinbaseEntropy := 0, size := 0 }

@[simp] theorem header_clearBody (b : Block) : b.clearBody.header = b.header := rfl

end Block

namespace Ledger

variable [Crypto]

/-- The effect of a block is that of its transactions and of what `clearBody` leaves. -/
theorem applyBlockEffects_congr {b b' : Block} (hclear : b'.clearBody = b.clearBody)
    (hitems : b'.items = b.items) (l : Ledger) (chainId tip : Nat) (score : Option Nat) :
    l.applyBlockEffects chainId tip score b' = l.applyBlockEffects chainId tip score b := by
  have heffect : ∀ c : Block, l.applyBlockEffects chainId tip score c = if c.clearBody.parents = [] then l else
      (skipEach (applyItem (itemCtx chainId tip (score.getD tip) c.clearBody)) (l, 0) c.items).1.applyBlockReward
        c.clearBody (score.getD 0)
        (skipEach (applyItem (itemCtx chainId tip (score.getD tip) c.clearBody)) (l, 0) c.items).2 := by
    intro c
    rfl
  rw [heffect, heffect, hclear, hitems]

end Ledger

namespace ChainState

/-- Two nodes that differ at most in bodies, indexes, mempools and their mode. -/
structure Alike (st st' : ChainState) : Prop where
  headers : ∀ h : Hash, st'.dag[h]?.map Block.header = st.dag[h]?.map Block.header
  ghostdag : st'.ghostdag = st.ghostdag
  tips : st'.tips = st.tips
  mainChain : st'.mainChain = st.mainChain
  live : st'.live = st.live
  base : st'.base = st.base
  baseCaptured : st'.baseCaptured = st.baseCaptured
  baseFrontier : st'.baseFrontier = st.baseFrontier
  chainId : st'.chainId = st.chainId

namespace Alike

variable {st st' st'' : ChainState}

theorem refl (st : ChainState) : st.Alike st := ⟨fun _ => rfl, rfl, rfl, rfl, rfl, rfl, rfl, rfl, rfl⟩

theorem symm (k : st.Alike st') : st'.Alike st :=
  ⟨fun h => (k.headers h).symm, k.ghostdag.symm, k.tips.symm, k.mainChain.symm, k.live.symm, k.base.symm,
    k.baseCaptured.symm, k.baseFrontier.symm, k.chainId.symm⟩

theorem trans (k : st.Alike st') (k' : st'.Alike st'') : st.Alike st'' :=
  ⟨fun h => (k'.headers h).trans (k.headers h), k'.ghostdag.trans k.ghostdag, k'.tips.trans k.tips,
    k'.mainChain.trans k.mainChain, k'.live.trans k.live, k'.base.trans k.base,
    k'.baseCaptured.trans k.baseCaptured, k'.baseFrontier.trans k.baseFrontier, k'.chainId.trans k.chainId⟩

/-! ### What reads headers only -/

/-- A function of headers sees no difference. -/
theorem map (k : st.Alike st') {α : Type} (f : Block → α) (hf : ∀ b, f b.header = f b) (h : Hash) :
    st'.dag[h]?.map f = st.dag[h]?.map f := by
  have hmap : ∀ o : Option Block, o.map f = (o.map Block.header).map f := by
    intro o
    rw [Option.map_map]
    exact congrArg (o.map ·) (funext fun b => (hf b).symm)
  rw [hmap, k.headers, ← hmap]

theorem mem (k : st.Alike st') (h : Hash) : h ∈ st'.dag ↔ h ∈ st.dag := by
  have hsome := congrArg Option.isSome (k.headers h)
  rw [Option.isSome_map, Option.isSome_map] at hsome
  rw [ExtTreeMap.mem_iff_isSome_getElem?, ExtTreeMap.mem_iff_isSome_getElem?, hsome]

theorem contains (k : st.Alike st') : st'.dag.contains = st.dag.contains := by
  funext h
  rw [Bool.eq_iff_iff, ExtTreeMap.contains_iff_mem, ExtTreeMap.contains_iff_mem, k.mem]

theorem parentsOf (k : st.Alike st') : st'.dag.parentsOf = st.dag.parentsOf := by
  funext h
  rw [Dag.parentsOf, Dag.parentsOf, k.map Block.parents fun _ => rfl]

theorem past (k : st.Alike st') : Past st'.dag = Past st.dag := by
  funext a b
  rw [Past, Past, k.parentsOf]

theorem bfsIsAncestor (k : st.Alike st') : st'.dag.bfsIsAncestor = st.dag.bfsIsAncestor := by
  funext a b
  rw [Bool.eq_iff_iff, Dag.bfsIsAncestor_iff, Dag.bfsIsAncestor_iff, k.past]

theorem selectedTip (k : st.Alike st') : st'.selectedTip = st.selectedTip := by
  rw [ChainState.selectedTip, ChainState.selectedTip, k.ghostdag, k.tips]

theorem finalityPoint (k : st.Alike st') : st'.finalityPoint = st.finalityPoint :=
  finalityPoint_congr k.ghostdag k.tips

theorem canonicalOrderAt (k : st.Alike st') (tip : Hash) : st'.canonicalOrderAt tip = st.canonicalOrderAt tip := by
  have hmerged : st'.mergedIn = st.mergedIn := by
    funext h
    rw [mergedIn, mergedIn, k.ghostdag, k.contains]
  simp only [ChainState.canonicalOrderAt, k.ghostdag, hmerged]

theorem canonicalOrder (k : st.Alike st') : st'.canonicalOrder = st.canonicalOrder := by
  simp only [ChainState.canonicalOrder, k.selectedTip, k.canonicalOrderAt]

theorem replayStart (k : st.Alike st') (order : List Hash) : st'.replayStart order = st.replayStart order := by
  rw [ChainState.replayStart, ChainState.replayStart, k.baseFrontier]

theorem simBase (k : st.Alike st') : st'.simBase = st.simBase := by
  rw [ChainState.simBase, ChainState.simBase, k.baseCaptured, k.base, k.live]

theorem addSample (k : st.Alike st') : st'.addSample = st.addSample := by
  funext acc blue
  have hsample := k.map (fun b => (b.timestamp.toNat, max b.difficulty.toNat 1)) (fun _ => rfl) blue
  rw [ChainState.addSample, ChainState.addSample]
  cases hb : st.dag[blue]? with
  | none =>
      rw [hb, Option.map_none, Option.map_eq_none_iff] at hsample
      rw [hsample]
  | some b =>
      rw [hb, Option.map_some, Option.map_eq_some_iff] at hsample
      obtain ⟨b', hb', heq⟩ := hsample
      rw [hb']
      simp only [heq]

theorem daaWalk (k : st.Alike st') (fuel : Nat) (h : Hash) (acc : DaaSamples) :
    st'.daaWalk fuel h acc = st.daaWalk fuel h acc := by
  induction fuel generalizing h acc with
  | zero => rfl
  | succ fuel ih =>
      simp only [ChainState.daaWalk, k.addSample, k.ghostdag]
      split
      · rfl
      · split
        · rfl
        · split
          · rfl
          · exact ih _ _

theorem expectedDifficultyAt (k : st.Alike st') (easy : Bool) (parents : List Hash) (timestampMs : Nat) :
    st'.expectedDifficultyAt easy parents timestampMs = st.expectedDifficultyAt easy parents timestampMs := by
  have hsamples : st'.collectDaaBlueSamples = st.collectDaaBlueSamples := by
    funext sp
    rw [collectDaaBlueSamples, collectDaaBlueSamples, k.daaWalk, k.ghostdag]
  have hdifficulty := k.map (fun b => b.difficulty.toNat) fun _ => rfl
  simp only [ChainState.expectedDifficultyAt, k.live, k.ghostdag, hsamples, hdifficulty]

theorem chainTimes (k : st.Alike st') (n : Nat) (cur : Hash) : st'.chainTimes n cur = st.chainTimes n cur := by
  induction n generalizing cur with
  | zero => rfl
  | succ n ih =>
      have htime := k.map (fun b => b.timestamp.toNat) (fun _ => rfl) cur
      rw [ChainState.chainTimes, ChainState.chainTimes, k.ghostdag]
      cases hb : st.dag[cur]? with
      | none =>
          rw [hb, Option.map_none, Option.map_eq_none_iff] at htime
          rw [htime]
      | some b =>
          rw [hb, Option.map_some, Option.map_eq_some_iff] at htime
          obtain ⟨b', hb', heq⟩ := htime
          rw [hb']
          simp only [heq, ih]

theorem pastMedianTime (k : st.Alike st') (tip : Hash) : st'.pastMedianTime tip = st.pastMedianTime tip := by
  rw [ChainState.pastMedianTime, ChainState.pastMedianTime, k.chainTimes]

end Alike

section Replay

variable [Crypto] {st st' : ChainState} {env env' : Env} {block block' : Block} {gd : GhostdagData} {sp : Hash}

/-! ### Replays -/

/-- Both nodes replay the block alike, on every ledger. -/
def ReplaysAlike (st st' : ChainState) (h : Hash) : Prop :=
  ∀ l : Ledger, l.replay st.chainId (st'.blocksAt [h]) = l.replay st.chainId (st.blocksAt [h])

theorem replay_blocksAt_alike {hs : List Hash} (hall : ∀ h ∈ hs, st.ReplaysAlike st' h) (l : Ledger) :
    l.replay st.chainId (st'.blocksAt hs) = l.replay st.chainId (st.blocksAt hs) := by
  induction hs generalizing l with
  | nil => rfl
  | cons h hs ih =>
      rw [← List.singleton_append, blocksAt_append, blocksAt_append, replay_append, replay_append,
        hall h List.mem_cons_self l, ih fun x hx => hall x (List.mem_cons_of_mem h hx)]

/-! ### Admission -/

/-- The blocks that admission replays: those of the selected parent's order that are not
in the base, then the merged ones. -/
def tried (st : ChainState) (sp : Hash) (gd : GhostdagData) : List Hash :=
  (st.canonicalOrderAt sp).drop (st.replayStart (st.canonicalOrderAt sp)) ++ gd.merged

namespace Alike

theorem keyed (k : st.Alike st') (h : st.Keyed) : st'.Keyed := by
  refine ⟨fun {h' b} hb => ?_, fun h' => by rw [k.ghostdag, k.mem, h.known]⟩
  have hhash := k.map Block.hash (fun _ => rfl) h'
  rw [hb, Option.map_some] at hhash
  obtain ⟨b₀, hb₀, heq⟩ := Option.map_eq_some_iff.mp hhash.symm
  rw [← heq, h.hash hb₀]

/-- A DAG with all its history is one for the other node too. -/
theorem dagInv (k : st.Alike st') (inv : DagInv st.dag st.ghostdag) : DagInv st'.dag st'.ghostdag := by
  have hkeyed := k.keyed ⟨inv.keyed, inv.known⟩
  have hparents : ∀ {h : Hash} {b : Block}, st'.dag[h]? = some b →
      ∃ b₀, st.dag[h]? = some b₀ ∧ b₀.parents = b.parents := by
    intro h b hb
    have hmap := k.map Block.parents (fun _ => rfl) h
    rw [hb, Option.map_some] at hmap
    exact Option.map_eq_some_iff.mp hmap.symm
  have hagree : Agree st.dag st'.dag st.ghostdag st'.ghostdag st.dag.bfsIsAncestor st'.dag.bfsIsAncestor (· ∈ st.dag) :=
    inv.agree (fun _ _ => by rw [k.parentsOf]) (fun _ _ => by rw [k.ghostdag]) fun _ _ _ _ => by rw [k.bfsIsAncestor]
  refine ⟨hkeyed.hash, hkeyed.known, fun {h b} hb p hp => ?_, fun {h b} hb hroot => ?_, fun {h b} hb hne => ?_⟩
  · obtain ⟨b₀, hb₀, heq⟩ := hparents hb
    exact (k.mem p).mpr (inv.closed hb₀ p (heq ▸ hp))
  · obtain ⟨b₀, hb₀, heq⟩ := hparents hb
    rw [k.ghostdag]
    exact inv.root hb₀ (heq.trans hroot)
  · obtain ⟨b₀, hb₀, heq⟩ := hparents hb
    obtain ⟨d, hd, hok⟩ := inv.computed hb₀ (heq ▸ hne)
    refine ⟨d, by rw [k.ghostdag, hd], ?_⟩
    rw [← heq, tryCompute_congr hagree (inv.closed hb₀)]
    exact hok

theorem applyAll (k : st.Alike st') (h : st.Keyed) {hs : List Hash} (hall : ∀ x ∈ hs, st.ReplaysAlike st' x)
    (l : Ledger) : st'.applyAll l hs = st.applyAll l hs := by
  rw [(k.keyed h).applyAll, h.applyAll, k.chainId, replay_blocksAt_alike hall]

theorem replaysAlike_symm (k : st.Alike st') {h : Hash} (hsame : st.ReplaysAlike st' h) : st'.ReplaysAlike st h := by
  intro l
  rw [k.chainId]
  exact (hsame l).symm

theorem mergesetVirtual (k : st.Alike st') (h : st.Keyed) (hall : ∀ x ∈ st.tried sp gd, st.ReplaysAlike st' x) :
    (st'.mergesetVirtual sp gd.merged).1 = (st.mergesetVirtual sp gd.merged).1 := by
  have h' := k.keyed h
  rw [h'.mergesetVirtual, h.mergesetVirtual, h'.virtualStateAt, h.virtualStateAt, k.simBase, k.canonicalOrderAt,
    k.replayStart, k.chainId, replay_blocksAt_alike fun x hx => hall x (List.mem_append_left _ hx),
    replay_blocksAt_alike fun x hx => hall x (List.mem_append_right _ hx)]

omit [Crypto] in
theorem computeGhostdag (k : st.Alike st')
    (horacle : st'.reachability.isAncestor st'.dag = st.reachability.isAncestor st.dag) (parents : List Hash) :
    st'.computeGhostdag parents = st.computeGhostdag parents := by
  have hagree : Agree st.dag st'.dag st.ghostdag st'.ghostdag (st.reachability.isAncestor st.dag)
      (st'.reachability.isAncestor st'.dag) fun _ => True := by
    refine ⟨fun h _ => ?_, fun _ _ _ _ => trivial, fun h _ => ?_, fun _ _ _ _ => ⟨fun _ _ => trivial, fun _ _ => trivial⟩,
      fun x y _ _ => ?_⟩
    · rw [k.parentsOf]
    · rw [k.ghostdag]
    · rw [horacle]
  exact tryCompute_congr hagree fun _ _ => trivial

end Alike

/-- What two processes must have in common: the clock and the two settings. -/
structure SameClock (env env' : Env) : Prop where
  now : env'.now = env.now
  labEasyPow : env'.labEasyPow = env.labEasyPow
  pinnedDigest : env'.pinnedDigest = env.pinnedDigest

omit [Crypto] in
theorem SameClock.symm (h : SameClock env env') : SameClock env' env :=
  ⟨h.now.symm, h.labEasyPow.symm, h.pinnedDigest.symm⟩

/-- **Alike nodes admit the same blocks**, up to the index, the custody anchors and the
bodies that admission replays. -/
theorem Admitted.alike (a : st.Admitted env block gd sp) (k : st.Alike st') (h : st.Keyed) (hclock : SameClock env env')
    (hfinality : st'.checkFinality block = .ok ())
    (horacle : st'.reachability.isAncestor st'.dag = st.reachability.isAncestor st.dag)
    (hcustody : ∀ op ∈ block.custodyOps, st.validateCustodyOp op = .ok () → st'.validateCustodyOp op = .ok ())
    (htried : ∀ x ∈ st.tried sp gd, st.ReplaysAlike st' x) : st'.Admitted env' block gd sp where
  shape := by
    have heq : st'.checkShape block = st.checkShape block := by simp only [checkShape, k.contains]
    rw [heq]
    exact a.shape
  finality := hfinality
  work := by
    have heq : st'.checkWork env' block = st.checkWork env block := by
      simp only [checkWork, k.expectedDifficultyAt, hclock.labEasyPow]
    rw [heq]
    exact a.work
  selected := by
    rw [k.ghostdag]
    exact a.selected
  header := by
    have heq : st'.checkHeader env' block sp = st.checkHeader env block sp := by
      simp only [checkHeader, k.map computeInterlinks fun _ => rfl, k.map (fun b => b.timestamp.toNat) fun _ => rfl,
        k.pastMedianTime, hclock.now]
    rw [heq]
    exact a.header
  stark := by
    have heq : st'.maySkipStarkVerify env' block.hash = st.maySkipStarkVerify env block.hash := by
      simp only [maySkipStarkVerify, hclock.pinnedDigest, k.contains, horacle]
    rw [heq]
    exact a.stark
  issuance := a.issuance
  transactions := by
    have hvalid : st'.validateCustodyOps block = st.validateCustodyOps block := by
      have hops : st.validateCustodyOps block = .ok () := by
        obtain ⟨-, h⟩ := Except.seq_eq_ok a.transactions
        obtain ⟨-, h⟩ := Except.seq_eq_ok h
        obtain ⟨-, h⟩ := Except.seq_eq_ok h
        exact h
      refine forM_congr fun op hop => ?_
      rw [Except.forM_eq_ok hops op hop]
      exact hcustody op hop (Except.forM_eq_ok hops op hop)
    have heq : st'.validateBlockTransactions block = st.validateBlockTransactions block := by
      simp only [validateBlockTransactions, validateAccountForms, validateUtxoForms, noteUtxoTxs_congr k.chainId,
        validateRegistryOps, hvalid, k.chainId]
    rw [heq]
    exact a.transactions
  data := by
    rw [k.computeGhostdag horacle]
    exact a.data
  stateRoot := by
    have heq : st'.postMergesetStateRoot sp gd.merged block gd.blueScore
        = st.postMergesetStateRoot sp gd.merged block gd.blueScore := by
      simp only [postMergesetStateRoot, k.mergesetVirtual h htried, k.chainId]
    rw [heq]
    exact a.stateRoot

/-! ### Acceptance -/

namespace Alike

theorem insertBlock (k : st.Alike st') (hblock : block'.header = block.header) :
    (st.insertBlock env block gd).Alike (st'.insertBlock env' block' gd) := by
  have hhash : block'.hash = block.hash := show block'.header.hash = block.header.hash from congrArg Block.hash hblock
  have hparents : block'.parents = block.parents :=
    show block'.header.parents = block.header.parents from congrArg Block.parents hblock
  refine ⟨fun h => ?_, ?_, ?_, k.mainChain, k.live, k.base, k.baseCaptured, k.baseFrontier, k.chainId⟩
  · simp only [ChainState.insertBlock, hhash, ExtTreeMap.getElem?_insert]
    split
    · rw [Option.map_some, Option.map_some, hblock]
    · exact k.headers h
  · simp only [ChainState.insertBlock, hhash, k.ghostdag]
  · simp only [ChainState.insertBlock, hhash, hparents, k.tips]

omit [Crypto] in
theorem orderMainChain (k : st.Alike st') : st.orderMainChain.Alike st'.orderMainChain := by
  unfold ChainState.orderMainChain
  rw [k.selectedTip]
  cases st.selectedTip with
  | none => exact k
  | some tip =>
      exact ⟨k.headers, k.ghostdag, k.tips, by rw [k.ghostdag], k.live, k.base, k.baseCaptured, k.baseFrontier, k.chainId⟩

omit [Crypto] in
theorem captureBase (k : st.Alike st') : st.captureBase.Alike st'.captureBase := by
  unfold ChainState.captureBase
  rw [k.baseCaptured]
  split
  · exact k
  · exact ⟨k.headers, k.ghostdag, k.tips, k.mainChain, k.live, k.live, rfl, k.baseFrontier, k.chainId⟩

theorem inserted (k : st.Alike st') (hblock : block'.header = block.header) :
    (st.inserted env block gd).Alike (st'.inserted env' block' gd) :=
  (k.insertBlock hblock).orderMainChain.captureBase

theorem advanceFinalizedBase (k : st.Alike st') (h : st.Keyed) (hall : ∀ x ∈ st.pending, st.ReplaysAlike st' x) :
    st.advanceFinalizedBase.Alike st'.advanceFinalizedBase := by
  have hfold : ∀ n, st'.applyAll st'.base ((st.canonicalOrder.drop (st.replayStart st.canonicalOrder)).take n)
      = st.applyAll st.base ((st.canonicalOrder.drop (st.replayStart st.canonicalOrder)).take n) := by
    intro n
    rw [k.base]
    exact k.applyAll h (fun x hx => hall x (List.mem_of_mem_take hx)) _
  unfold ChainState.advanceFinalizedBase
  rw [k.finalityPoint]
  cases st.finalityPoint with
  | none => exact k
  | some fp =>
      simp only [k.baseFrontier, k.canonicalOrder, k.replayStart, hfold]
      split
      · exact k
      · split
        · exact k
        · split
          · exact k
          · exact ⟨k.headers, k.ghostdag, k.tips, k.mainChain, rfl, rfl, k.baseCaptured, rfl, k.chainId⟩

/-- **Alike nodes that accept a block stay alike**, up to the bodies that they replay. The
two blocks may be copies with the same header. -/
theorem acceptFull (k : st.Alike st') (hblock : block'.header = block.header)
    (h : (st.inserted env block gd).Keyed) (hall : ∀ x ∈ (st.inserted env block gd).pending,
      (st.inserted env block gd).ReplaysAlike (st'.inserted env' block' gd) x) :
    (st.acceptFull env block gd).Alike (st'.acceptFull env' block' gd) := by
  have kₙ : (st.insertBlock env block gd).Alike (st'.insertBlock env' block' gd) := k.insertBlock hblock
  have kᵢ : (st.inserted env block gd).Alike (st'.inserted env' block' gd) := k.inserted hblock
  have kₐ := kᵢ.advanceFinalizedBase h hall
  have hcore := st.acceptFull_core env block gd
  have hcore' := st'.acceptFull_core env' block' gd
  obtain ⟨hbase, hfrontier, hcaptured, hmain, hlive⟩ := acceptFull_ledger st env block gd
  obtain ⟨hbase', hfrontier', hcaptured', hmain', hlive'⟩ := acceptFull_ledger st' env' block' gd
  have hpending : (st'.inserted env' block' gd).pending = (st.inserted env block gd).pending := by
    rw [pending, pending, kᵢ.canonicalOrder, kᵢ.replayStart]
  refine ⟨fun x => ?_, ?_, ?_, ?_, ?_, ?_, ?_, ?_, ?_⟩
  · rw [hcore.dag, hcore'.dag, kₙ.headers]
  · rw [hcore.ghostdag, hcore'.ghostdag, kₙ.ghostdag]
  · rw [hcore.tips, hcore'.tips, kₙ.tips]
  · rw [hmain, hmain', kₐ.mainChain]
  · rw [hlive, hlive', recomputed_live, recomputed_live, hpending, kᵢ.base]
    exact kᵢ.applyAll h hall _
  · rw [hbase, hbase', kₐ.base]
  · rw [hcaptured, hcaptured', kₐ.baseCaptured]
  · rw [hfrontier, hfrontier', kₐ.baseFrontier]
  · rw [hcore.chainId, hcore'.chainId, kₙ.chainId]

end Alike

end Replay

section Views

variable [Crypto]

/-- The node accepts the block. -/
def Takes (st : ChainState) (call : Env × Block) : Prop := ∃ st', st.addBlock call.1 call.2 = .ok st'

/-- What two nodes are to agree on. -/
structure SameView (A N : ChainState) : Prop where
  ghostdag : N.ghostdag = A.ghostdag
  selectedTip : N.selectedTip = A.selectedTip
  mainChain : N.mainChain = A.mainChain
  live : N.live = A.live

omit [Crypto] in
theorem Alike.sameView {A N : ChainState} (k : A.Alike N) : SameView A N :=
  ⟨k.ghostdag, k.selectedTip, k.mainChain, k.live⟩

end Views

end ChainState

/-- A block given to two nodes: the clock and the settings are the same, and each process
iterates its hash maps in an order of its own. -/
structure PairedCall where
  env : Env
  block : Block
  iter : List Hash → List Hash
  iter_perm : ∀ xs, (iter xs).Perm xs

namespace PairedCall

def onFirst (d : PairedCall) : Env × Block := (d.env, d.block)

def onSecond (d : PairedCall) : Env × Block := ({ d.env with iter := d.iter, iter_perm := d.iter_perm }, d.block)

theorem sameClock (d : PairedCall) : ChainState.SameClock d.onFirst.1 d.onSecond.1 := ⟨rfl, rfl, rfl⟩

end PairedCall

end HassanNode
