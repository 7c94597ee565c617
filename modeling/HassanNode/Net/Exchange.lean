import Mathlib
import HassanNode.Net.Wire
import HassanNode.Consensus.History

/-!
# HassanNode.Net.Exchange

Two nodes and the block requests of one to the other. The server answers from
what it has, which for a pruned body is the header alone; the requester charges
every block its tests refuse, unless a parent is missing. A header is refused
whenever its parents are known, so an honest server that prunes earns points.
-/

namespace HassanNode

open Std (ExtTreeMap ExtTreeSet)
open Params

/-! ### The cheap test -/

namespace ChainState

variable [Crypto] {st : ChainState} {env : Env} {block : Block}

omit [Crypto] in
/-- The parent loop stops at a parent that is not known. -/
theorem scanParents_unknown {seen parents : List Hash} (hnodup : parents.Nodup)
    (hseen : ∀ p ∈ parents, p ∉ seen) (hunknown : ∃ p ∈ parents, p ∉ st.dag) :
    st.scanParents seen parents = .error "Unknown parent block" := by
  induction parents generalizing seen with
  | nil =>
      obtain ⟨p, hp, -⟩ := hunknown
      cases hp
  | cons q parents ih =>
      obtain ⟨hq, hnodup⟩ := List.nodup_cons.mp hnodup
      have hnew : seen.contains q = false := by
        simpa using hseen q (List.mem_cons_self ..)
      rw [scanParents, hnew]
      by_cases hknown : q ∈ st.dag
      · rw [ExtTreeMap.contains_iff_mem.mpr hknown]
        refine ih hnodup (fun p hp hmem => ?_) ?_
        · obtain rfl | hmem := List.mem_cons.mp hmem
          · exact hq hp
          · exact hseen p (List.mem_cons_of_mem _ hp) hmem
        · obtain ⟨p, hp, hout⟩ := hunknown
          obtain rfl | hp := List.mem_cons.mp hp
          · exact absurd hknown hout
          · exact ⟨p, hp, hout⟩
      · have hno : st.dag.contains q = false := by
          rw [← Bool.not_eq_true]
          simpa using hknown
        rw [hno]
        rfl

omit [Crypto] in
/-- It passes parents that are distinct and known. -/
theorem scanParents_known {seen parents : List Hash} (hnodup : parents.Nodup)
    (hseen : ∀ p ∈ parents, p ∉ seen) (hknown : ∀ p ∈ parents, p ∈ st.dag) :
    st.scanParents seen parents = .ok () := by
  induction parents generalizing seen with
  | nil => rfl
  | cons q parents ih =>
      obtain ⟨hq, hnodup⟩ := List.nodup_cons.mp hnodup
      have hnew : seen.contains q = false := by
        simpa using hseen q (List.mem_cons_self ..)
      rw [scanParents, hnew, ExtTreeMap.contains_iff_mem.mpr (hknown q (List.mem_cons_self ..))]
      refine ih hnodup (fun p hp hmem => ?_) fun p hp => hknown p (List.mem_cons_of_mem _ hp)
      obtain rfl | hmem := List.mem_cons.mp hmem
      · exact hq hp
      · exact hseen p (List.mem_cons_of_mem _ hp) hmem

omit [Crypto] in
theorem contains_eq_false {dag : Dag} {h : Hash} (hh : h ∉ dag) : dag.contains h = false := by
  rw [← Bool.not_eq_true]
  simpa using hh

/-- A block of the right size with an unknown parent is an orphan. -/
theorem precheckBlock_orphan (hnew : block.hash ∉ st.dag) (hfits : block.Fits)
    (hunknown : ∃ p ∈ block.parents, p ∉ st.dag) :
    st.precheckBlock env block = .error "Unknown parent block" := by
  have hne : block.parents ≠ [] := by
    rintro hnil
    obtain ⟨p, hp, -⟩ := hunknown
    rw [hnil] at hp
    cases hp
  have hscan := @scanParents_unknown st [] _ hfits.parents_nodup (fun _ _ h => by cases h) hunknown
  simp [precheckBlock, ensure, contains_eq_false hnew, hfits.base, hfits.wire, hne, hfits.parents_le, hscan,
    bind, Except.bind]

/-- What `add_block` accepts has passed the cheap test. -/
theorem precheckBlock_of_admitted {gd : GhostdagData} {sp : Hash} (a : st.Admitted env block gd sp) :
    st.precheckBlock env block = .ok () := by
  obtain ⟨hnew, hsize, hwire, hne, hlen, hnodup, hparents⟩ := checkShape_eq_ok.mp a.shape
  have hscan := @scanParents_known st [] _ hnodup (fun _ _ h => by cases h) hparents
  obtain ⟨hdifficulty, h⟩ := Except.seq_eq_ok a.work
  obtain ⟨hpow, h⟩ := Except.seq_eq_ok h
  obtain ⟨hwitness, hformat⟩ := Except.seq_eq_ok h
  obtain ⟨hinterlinks, -⟩ := Except.seq_eq_ok a.header
  rw [ensure_eq_ok] at hdifficulty hpow hwitness hinterlinks
  simp only [precheckBlock, ensure, contains_eq_false hnew, hsize, hwire, hlen, hscan,
    hdifficulty, hpow, hwitness, hformat, a.selected, hinterlinks, bind, Except.bind]
  simp [hne]

/-- Refused, and not for a missing parent. -/
def Refused (x : Except String Unit) : Prop := ∃ e, x = .error e ∧ mentions e "Unknown parent" = false

omit [Crypto] in
theorem Refused.ensure_bind {test : Bool} {message : String} {rest : Unit → Except String Unit}
    (hmessage : mentions message "Unknown parent" = false) (h : test = true → Refused (rest ())) :
    Refused (ensure test message >>= rest) := by
  cases test with
  | false => exact ⟨message, rfl, hmessage⟩
  | true => exact h rfl

/-- A block without a proof is refused once its parents are known. -/
theorem precheckBlock_bare (hproof : block.starkProof = []) (hnodup : block.parents.Nodup)
    (hknown : ∀ p ∈ block.parents, p ∈ st.dag) : Refused (st.precheckBlock env block) := by
  have hscan := @scanParents_known st [] _ hnodup (fun _ _ h => by cases h) hknown
  unfold precheckBlock
  refine Refused.ensure_bind (by decide) fun _ => Refused.ensure_bind (by decide) fun _ => ?_
  refine Refused.ensure_bind (by decide) fun _ => Refused.ensure_bind (by decide) fun _ => ?_
  refine Refused.ensure_bind (by decide) fun _ => ?_
  rw [hscan]
  refine Refused.ensure_bind (by decide) fun _ => Refused.ensure_bind (by decide) fun _ => ?_
  refine Refused.ensure_bind (by decide) fun hwitness => ?_
  rw [hproof] at hwitness
  cases hwitness

end ChainState

/-- The headers of a proof message. -/
def Message.proofHeaders : Message → List Block
  | .pruningProof hs => hs
  | .multiLevelPruningProof proof => proof.headersGenesisFirst
  | _ => []

/-! ### What a first turn earns -/

namespace Node

variable [Crypto] {n : Node} {budget : StarkVerifyBudget} {env : Env} {later : List Env} {b : Block}

namespace Ingest

/-- The entries after the first are orphans. -/
def Settled (s : Ingest) : Prop := ∀ e ∈ s.queue, e.2 = false

omit [Crypto] in
theorem charge_settled {s : Ingest} (h : s.Settled) (points : Nat) (isDirect : Bool) :
    (s.charge isDirect points).Settled := by
  unfold charge
  split
  · exact h
  · exact h

theorem refuse_settled {s : Ingest} (h : s.Settled) (b : Block) (isDirect : Bool) (message : String) :
    (s.refuse env b isDirect message).Settled := by
  unfold refuse
  split
  · exact h
  · exact charge_settled h _ _

theorem process_settled {s : Ingest} (h : s.Settled) (b : Block) (isDirect : Bool) :
    (s.process env b isDirect).Settled := by
  have hspend : (s.spend env isDirect).2.Settled := by
    unfold spend
    split
    · exact h
    · exact h
  unfold process
  split
  · exact refuse_settled h _ _ _
  · dsimp only
    split
    · exact charge_settled hspend _ _
    · split
      · intro e he
        obtain he | he := List.mem_append.mp he
        · obtain ⟨o, -, rfl⟩ := List.mem_map.mp (List.mem_reverse.mp he)
          rfl
        · exact hspend e he
      · exact refuse_settled hspend _ _ _

theorem process_penalty {s : Ingest} (b : Block) : (s.process env b false).penalty = s.penalty := by
  have hrefuse : ∀ (s : Ingest) message, (s.refuse env b false message).penalty = s.penalty := by
    intro s message
    unfold refuse
    split
    · rfl
    · rfl
  unfold process
  split
  · exact hrefuse s _
  · dsimp only [spend]
    rw [if_neg (by simp), if_neg (by simp)]
    split
    · rfl
    · exact hrefuse s _

/-- Orphans earn nothing. -/
theorem pass_settled {s : Ingest} (h : s.Settled) :
    (s.pass env).Settled ∧ (s.pass env).penalty = s.penalty := by
  unfold pass
  split
  · exact ⟨h, rfl⟩
  · rename_i b isDirect queue hqueue
    have hdirect : isDirect = false := h (b, isDirect) (by rw [hqueue]; exact List.mem_cons_self ..)
    have hrest : Settled { s with queue := queue } := fun e he =>
      h e (by rw [hqueue]; exact List.mem_cons_of_mem _ he)
    split
    · exact ⟨hrest, rfl⟩
    · subst hdirect
      exact ⟨process_settled hrest b false, process_penalty b⟩

theorem foldl_pass_penalty {s : Ingest} (h : s.Settled) (later : List Env) :
    (later.foldl pass s).penalty = s.penalty := by
  induction later generalizing s with
  | nil => rfl
  | cons env later ih =>
      obtain ⟨hsettled, hpenalty⟩ : (s.pass env).Settled ∧ (s.pass env).penalty = s.penalty := pass_settled h
      rw [List.foldl_cons, ih hsettled, hpenalty]

end Ingest

/-- The points of a received block are those of the first turn. -/
theorem ingestBlock_penalty : (n.ingestBlock budget env later b).penalty
    = (Ingest.pass { node := n, budget := budget, queue := [(b, true)] } env).penalty := by
  refine Ingest.foldl_pass_penalty ?_ later
  unfold Ingest.pass
  dsimp only
  split
  · intro e he
    cases he
  · exact Ingest.process_settled (fun e he => by cases he) b true

theorem penalty_known (h : b.hash ∈ n.chain.dag) : (n.ingestBlock budget env later b).penalty = 0 := by
  rw [ingestBlock_penalty, Ingest.pass]
  dsimp only
  rw [if_pos (ExtTreeMap.contains_iff_mem.mpr h)]

theorem penalty_new (h : b.hash ∉ n.chain.dag) : (n.ingestBlock budget env later b).penalty
    = (Ingest.process { node := n, budget := budget, queue := [] } env b true).penalty := by
  rw [ingestBlock_penalty, Ingest.pass]
  dsimp only
  rw [ChainState.contains_eq_false h, if_neg (by simp)]

/-- A block that waits for its parents earns nothing. -/
theorem penalty_orphan (hnew : b.hash ∉ n.chain.dag) (hfits : b.Fits)
    (hunknown : ∃ p ∈ b.parents, p ∉ n.chain.dag) : (n.ingestBlock budget env later b).penalty = 0 := by
  rw [penalty_new hnew, Ingest.process, ChainState.precheckBlock_orphan hnew hfits hunknown]
  dsimp only
  rw [Ingest.refuse, if_pos (by decide)]
  rfl

/-- Neither does a block that is accepted within the budget. -/
theorem penalty_accepted {st : ChainState} (hbudget : (budget.tryConsume env.now).1 = true)
    (hok : n.chain.addBlock env b = .ok st) : (n.ingestBlock budget env later b).penalty = 0 := by
  obtain ⟨gd, sp, a, rfl⟩ := ChainState.addBlock_eq_ok.mp hok
  rw [penalty_new a.new, Ingest.process, ChainState.precheckBlock_of_admitted a]
  dsimp only [Ingest.spend]
  rw [if_pos rfl]
  dsimp only
  rw [hbudget, if_neg (by simp), hok]
  rfl

omit [Crypto] in
theorem blockBanPenalty_pos (message : String) : 0 < blockBanPenalty message := by
  unfold blockBanPenalty
  split
  · decide
  · decide

/-- A header whose parents are known is refused, and nothing else changes. -/
theorem ingestBlock_bare (hnew : b.hash ∉ n.chain.dag) (hproof : b.starkProof = []) (hnodup : b.parents.Nodup)
    (hknown : ∀ p ∈ b.parents, p ∈ n.chain.dag) : ∃ e, n.ingestBlock budget env [] b
      = { node := n, budget := budget, queue := [], penalty := satAdd32 0 (blockBanPenalty e) } := by
  obtain ⟨e, heq, hmention⟩ := @ChainState.precheckBlock_bare _ _ env _ hproof hnodup hknown
  refine ⟨e, ?_⟩
  rw [ingestBlock, List.foldl_nil, Ingest.pass]
  dsimp only
  rw [ChainState.contains_eq_false hnew, if_neg (by simp), Ingest.process, heq]
  dsimp only
  rw [Ingest.refuse, hmention, if_neg (by simp), Ingest.charge, if_pos rfl]

/-- It earns points. -/
theorem penalty_bare (hnew : b.hash ∉ n.chain.dag) (hproof : b.starkProof = []) (hnodup : b.parents.Nodup)
    (hknown : ∀ p ∈ b.parents, p ∈ n.chain.dag) : 0 < (n.ingestBlock budget env later b).penalty := by
  obtain ⟨e, heq, hmention⟩ := @ChainState.precheckBlock_bare _ _ env _ hproof hnodup hknown
  rw [penalty_new hnew, Ingest.process, heq]
  dsimp only
  rw [Ingest.refuse, hmention, if_neg (by simp), Ingest.charge, if_pos rfl]
  have hpos := blockBanPenalty_pos e
  change 0 < min (0 + blockBanPenalty e) (2 ^ 32 - 1)
  omega

/-! ### What messages do to the chain -/

namespace Ingest

theorem process_run {s : Ingest} (env : Env) (b : Block) (isDirect : Bool) :
    ∃ calls, (s.process env b isDirect).node.chain = s.node.chain.run calls := by
  have hrefuse : ∀ (s : Ingest) message, (s.refuse env b isDirect message).node.chain = s.node.chain := by
    intro s message
    unfold refuse
    split
    · unfold orphan bufferOrphan
      dsimp only
      split
      · rfl
      · rfl
    · unfold charge
      split
      · rfl
      · rfl
  have hspend : (s.spend env isDirect).2.node = s.node := by
    unfold spend
    split
    · rfl
    · rfl
  unfold process
  split
  · exact ⟨[], hrefuse s _⟩
  · dsimp only
    split
    · exact ⟨[], congrArg Node.chain hspend⟩
    · split
      · rename_i st hok
        refine ⟨[(env, b)], ?_⟩
        rw [hspend] at hok
        change st = s.node.chain.step (env, b)
        rw [ChainState.step, hok]
      · exact ⟨[], (hrefuse _ _).trans (congrArg Node.chain hspend)⟩

theorem pass_run {s : Ingest} (env : Env) : ∃ calls, (s.pass env).node.chain = s.node.chain.run calls := by
  unfold pass
  split
  · exact ⟨[], rfl⟩
  · split
    · exact ⟨[], rfl⟩
    · exact process_run env _ _

theorem foldl_pass_run {s : Ingest} (later : List Env) :
    ∃ calls, (later.foldl pass s).node.chain = s.node.chain.run calls := by
  induction later generalizing s with
  | nil => exact ⟨[], rfl⟩
  | cons env later ih =>
      obtain ⟨calls, hcalls⟩ := s.pass_run env
      obtain ⟨calls', hcalls'⟩ := ih (s := s.pass env)
      refine ⟨calls ++ calls', ?_⟩
      rw [List.foldl_cons, hcalls', hcalls, ChainState.run, ChainState.run, ChainState.run, List.foldl_append]

end Ingest

/-- A received block moves the chain by calls of `add_block`. -/
theorem ingestBlock_run : ∃ calls, (n.ingestBlock budget env later b).node.chain = n.chain.run calls := by
  obtain ⟨calls, hcalls⟩ := Ingest.pass_run (s := { node := n, budget := budget, queue := [(b, true)] }) env
  obtain ⟨calls', hcalls'⟩ := Ingest.foldl_pass_run
    (s := Ingest.pass { node := n, budget := budget, queue := [(b, true)] } env) later
  refine ⟨calls ++ calls', ?_⟩
  rw [ingestBlock, hcalls', hcalls, ChainState.run, ChainState.run, ChainState.run, List.foldl_append]

/-- What a message can do to the chain. -/
inductive Moved (env : Env) (m : Message) (st : ChainState) : ChainState → Prop
  | run (calls : List (Env × Block)) : Moved env m st (st.run calls)
  | imported {st' : ChainState} {pp : Hash}
      (h : st.importVerifiedPruningHeaders env m.proofHeaders = .ok (st', pp)) : Moved env m st st'
  | ledger {st' : ChainState} {msg : PruningPointLedger} (h : st.adoptPruningPointLedger msg = .ok st') :
      Moved env m st st'

theorem dispatch_moved (m : Message) :
    Moved env m n.chain (n.dispatch budget env later m).1.chain := by
  cases m with
  | hello version magic chainId blueScore =>
      rw [dispatch]
      split
      · exact .run []
      · split
        · exact .run []
        · exact .run []
  | block b =>
      obtain ⟨calls, hcalls⟩ : ∃ calls, (n.ingestBlock budget env later b).node.chain = n.chain.run calls :=
        ingestBlock_run
      change Moved env _ n.chain (n.ingestBlock budget env later b).node.chain
      rw [hcalls]
      exact .run calls
  | pruningProof headers =>
      change Moved env _ n.chain (n.adoptPruningProof env headers).1.chain
      unfold adoptPruningProof
      split
      · exact .run []
      · split
        · split
          · exact .run []
          · split
            · exact .run []
            · split
              · exact .run []
              · exact .imported (by assumption)
        · exact .run []
  | multiLevelPruningProof proof =>
      change Moved env _ n.chain (n.adoptMultiLevelPruningProof env proof).1.chain
      unfold adoptMultiLevelPruningProof
      split
      · exact .run []
      · split
        · split
          · exact .run []
          · split
            · exact .run []
            · split
              · exact .run []
              · exact .imported (by assumption)
        · exact .run []
  | pruningPointLedger msg =>
      rw [dispatch]
      split
      · exact .run []
      · split
        · exact .run []
        · exact .ledger (by assumption)
  | _ => exact .run []

end Node

/-! ### What a server has stored -/

section Stored

variable [Crypto] {st st' : ChainState} {env : Env}

/-- Every block is under its hash, and all but genesis fit the tests of a peer. -/
def ChainState.Stored (st : ChainState) : Prop :=
  ∀ (h : Hash) (b : Block), st.dag[h]? = some b → b.hash = h ∧ (b.parents = [] ∨ b.Fits)

/-- The headers of a proof fit the tests of a peer. -/
def FitHeaders (headers : List Block) : Prop := ∀ b ∈ headers, b.parents = [] ∨ b.headerOnly.Fits

namespace ChainState.Stored

theorem seeded (easy archival : Bool) (seed : Ledger) : (ChainState.seeded easy archival seed).Stored := by
  intro h b hb
  obtain ⟨rfl, rfl⟩ := ChainState.seeded_get easy archival seed hb
  exact ⟨rfl, Or.inl rfl⟩

theorem run (hst : st.Stored) (calls : List (Env × Block)) : (st.run calls).Stored := by
  refine ChainState.run_induction (P := ChainState.Stored) hst ?_ calls
  intro s env block gd sp hs a h b hb
  obtain ⟨b₀, hor, hclr⟩ := ChainState.accept_getElem? hb
  obtain ⟨hhash, hfits⟩ : b₀.hash = h ∧ (b₀.parents = [] ∨ b₀.Fits) := by
    rcases hor with ⟨rfl, rfl⟩ | hb₀
    · obtain ⟨-, hsize, hwire, -, hlen, hnodup, -⟩ := ChainState.checkShape_eq_ok.mp a.shape
      exact ⟨rfl, Or.inr ⟨hsize, hwire, hlen, hnodup⟩⟩
    · exact hs h b₀ hb₀
  rcases hclr with rfl | rfl
  · exact ⟨hhash, hfits⟩
  · exact ⟨hhash, hfits.imp id Block.Fits.clearBody⟩

theorem imported (hst : st.Stored) {headers : List Block} {pp : Hash} (hfit : FitHeaders headers)
    (h : st.importVerifiedPruningHeaders env headers = .ok (st', pp)) : st'.Stored := by
  obtain ⟨first, rest, rfl, -, -, -, -, hdag, -⟩ := ChainState.importVerifiedPruningHeaders_ok h
  intro k b hb
  rw [hdag] at hb
  rcases ChainState.foldl_importHeader_getElem? rest hb with hold | ⟨hdr, hmem, rfl, rfl⟩
  · exact hst k b hold
  · exact ⟨rfl, hfit hdr (List.mem_cons_of_mem _ hmem)⟩

theorem moved (hst : st.Stored) {m : Message} (hfit : FitHeaders m.proofHeaders)
    (h : Node.Moved env m st st') : st'.Stored := by
  cases h with
  | run calls => exact hst.run calls
  | imported h => exact hst.imported hfit h
  | ledger h =>
      intro k b hb
      rw [(ChainState.adoptPruningPointLedger_core h).dag] at hb
      exact hst k b hb

end ChainState.Stored

end Stored

/-! ### Two nodes -/

section Pair

variable [Crypto]

inductive Party
  | requester
  | server

/-- One node asks the other for blocks; the score is what the second has earned
with the first. -/
structure Pair where
  requester : Node
  server : Node
  budget : StarkVerifyBudget
  score : Nat := 0

/-- Something reaches a party from elsewhere, or the requester gets the answer to
a `GetBlock`. -/
inductive Event
  | fed (who : Party) (i : Input)
  | asked (h : Hash) (env : Env) (later : List Env)

namespace Pair

/-- The points of the answer to a request. -/
def points (s : Pair) (h : Hash) (env : Env) (later : List Env) : Nat :=
  match s.server.answer (.getBlock h) with
  | some (.block b) => (s.requester.ingestBlock s.budget env later b).penalty
  | _ => 0

/-- The requester takes in the answer. -/
def ask (s : Pair) (h : Hash) (env : Env) (later : List Env) : Pair :=
  match s.server.answer (.getBlock h) with
  | some (.block b) =>
    let t := s.requester.ingestBlock s.budget env later b
    { s with requester := t.node, budget := t.budget, score := satAdd32 s.score t.penalty }
  | _ => s

def step (s : Pair) : Event → Pair
  | .fed .requester i => { s with requester := s.requester.feed i }
  | .fed .server i => { s with server := s.server.feed i }
  | .asked h env later => s.ask h env later

def run (s : Pair) (events : List Event) : Pair := events.foldl step s

/-- The server does not have the block, or the requester has it or lacks one of
its parents, or the block is served whole and the requester accepts it. -/
inductive Answerable (s : Pair) (h : Hash) (env : Env) : Prop
  | missing (hmissing : h ∉ s.server.chain.dag)
  | known (hknown : h ∈ s.requester.chain.dag)
  | orphan {b : Block} (hb : s.server.chain.dag[h]? = some b)
      (hunknown : ∃ p ∈ b.parents, p ∉ s.requester.chain.dag)
  | whole {b : Block} {st : ChainState} (hb : s.server.chain.dag[h]? = some b)
      (hwhole : s.server.servesHeader h = false)
      (hbudget : (s.budget.tryConsume env.now).1 = true)
      (hok : s.requester.chain.addBlock env b = .ok st)

/-- The condition on an event: the proofs the server adopts fit, and the requests
are answerable. -/
def Fair (s : Pair) : Event → Prop
  | .fed .server (.heard _ _ _ m) => FitHeaders m.proofHeaders
  | .asked h env _ => s.Answerable h env
  | _ => True

/-- Every event of a run is fair when it comes. -/
def AllFair (s : Pair) (events : List Event) : Prop :=
  ∀ (k : Nat) (e : Event), events[k]? = some e → (s.run (events.take k)).Fair e

variable {s : Pair} {h : Hash} {env : Env} {later : List Env}

theorem run_concat (s : Pair) (events : List Event) (e : Event) :
    s.run (events ++ [e]) = (s.run events).step e := by
  rw [run, run, List.foldl_append]
  rfl

theorem allFair_concat {events : List Event} {e : Event} :
    s.AllFair (events ++ [e]) ↔ s.AllFair events ∧ (s.run events).Fair e := by
  constructor
  · intro hall
    refine ⟨fun k e' hk => ?_, ?_⟩
    · have hlt := (List.getElem?_eq_some_iff.mp hk).1
      have := hall k e' (by rw [List.getElem?_append_left hlt, hk])
      rwa [List.take_append_of_le_length hlt.le] at this
    · have := hall events.length e (by simp)
      rwa [List.take_left] at this
  · rintro ⟨hall, hlast⟩ k e' hk
    rcases Nat.lt_or_ge k events.length with hlt | hge
    · rw [List.getElem?_append_left hlt] at hk
      rw [List.take_append_of_le_length hlt.le]
      exact hall k e' hk
    · rw [List.getElem?_append_right hge] at hk
      obtain hzero : k - events.length = 0 := by
        by_contra hne
        rw [List.getElem?_eq_none (by simp; omega)] at hk
        cases hk
      rw [hzero] at hk
      obtain rfl := Option.some.inj hk
      rw [show k = events.length by omega, List.take_left]
      exact hlast

/-- The answer, when the server has the block. -/
theorem points_eq {b : Block} (hb : s.server.chain.dag[h]? = some b) : s.points h env later
    = (s.requester.ingestBlock s.budget env later
        (if s.server.servesHeader h then b.headerOnly else b)).penalty := by
  rw [points, Node.answer, Node.served, hb]
  rfl

theorem points_missing (hmissing : h ∉ s.server.chain.dag) : s.points h env later = 0 := by
  rw [points, Node.answer, Node.served, ExtTreeMap.getElem?_eq_none hmissing]
  rfl

/-- The copy that is served keeps hash, parents and fit. -/
theorem copy_spec {b : Block} (hst : s.server.chain.Stored) (hb : s.server.chain.dag[h]? = some b) :
    (if s.server.servesHeader h then b.headerOnly else b).hash = h ∧
      (if s.server.servesHeader h then b.headerOnly else b).parents = b.parents ∧
      (b.parents = [] ∨ (if s.server.servesHeader h then b.headerOnly else b).Fits) := by
  obtain ⟨hhash, hfits⟩ := hst h b hb
  split
  · exact ⟨hhash, rfl, hfits.imp id Block.Fits.headerOnly⟩
  · exact ⟨hhash, rfl, hfits⟩

theorem points_known (hst : s.server.chain.Stored) (hknown : h ∈ s.requester.chain.dag) :
    s.points h env later = 0 := by
  by_cases hmem : h ∈ s.server.chain.dag
  · obtain ⟨b, hb⟩ := DagInv.exists_block hmem
    rw [points_eq hb]
    exact Node.penalty_known ((copy_spec hst hb).1.symm ▸ hknown)
  · exact points_missing hmem

theorem points_orphan (hst : s.server.chain.Stored) {b : Block} (hb : s.server.chain.dag[h]? = some b)
    (hunknown : ∃ p ∈ b.parents, p ∉ s.requester.chain.dag) : s.points h env later = 0 := by
  by_cases hknown : h ∈ s.requester.chain.dag
  · exact points_known hst hknown
  · obtain ⟨hhash, hparents, hfits⟩ := copy_spec hst hb
    obtain ⟨p, hp, hout⟩ := hunknown
    have hfits := hfits.resolve_left fun hnil => by rw [hnil] at hp; cases hp
    rw [points_eq hb]
    exact Node.penalty_orphan (hhash.symm ▸ hknown) hfits ⟨p, hparents.symm ▸ hp, hout⟩

/-- An answerable request earns nothing. -/
theorem points_answerable (hst : s.server.chain.Stored) (hanswer : s.Answerable h env) :
    s.points h env later = 0 := by
  cases hanswer with
  | missing hmissing => exact points_missing hmissing
  | known hknown => exact points_known hst hknown
  | orphan hb hunknown => exact points_orphan hst hb hunknown
  | whole hb hwhole hbudget hok =>
      rw [points_eq hb, hwhole]
      exact Node.penalty_accepted hbudget hok

/-- A header earns nothing exactly when it is known or a parent is missing. -/
theorem points_header_iff (hst : s.server.chain.Stored) {b : Block} (hb : s.server.chain.dag[h]? = some b)
    (hheader : s.server.servesHeader h = true) : s.points h env later = 0 ↔
      h ∈ s.requester.chain.dag ∨ ∃ p ∈ b.parents, p ∉ s.requester.chain.dag := by
  refine ⟨fun hzero => ?_, fun hor => hor.elim (points_known hst) (points_orphan hst hb)⟩
  by_contra hnot
  obtain ⟨hnew, hknown⟩ := not_or.mp hnot
  have hall : ∀ p ∈ b.parents, p ∈ s.requester.chain.dag := by
    intro p hp
    by_contra hout
    exact hknown ⟨p, hp, hout⟩
  obtain ⟨hhash, hfits⟩ := hst h b hb
  have hnodup : b.parents.Nodup := by
    rcases hfits with hnil | hfits
    · rw [hnil]
      exact List.nodup_nil
    · exact hfits.parents_nodup
  have hpos : 0 < (s.requester.ingestBlock s.budget env later b.headerOnly).penalty :=
    Node.penalty_bare (hhash.symm ▸ hnew) rfl hnodup hall
  rw [points_eq hb, hheader, if_pos rfl] at hzero
  omega

/-- Two nodes at genesis, each in its own mode. -/
def start (easy archival archival' : Bool) (seed : Ledger) (budget : StarkVerifyBudget) : Pair where
  requester := { chain := ChainState.seeded easy archival seed }
  server := { chain := ChainState.seeded easy archival' seed }
  budget := budget

theorem ask_server (s : Pair) (h : Hash) (env : Env) (later : List Env) :
    (s.ask h env later).server = s.server := by
  unfold ask
  split
  · rfl
  · rfl

theorem ask_score (hscore : s.score = 0) (hzero : s.points h env later = 0) : (s.ask h env later).score = 0 := by
  unfold points at hzero
  unfold ask
  split at hzero
  · change satAdd32 s.score _ = 0
    rw [hscore, hzero]
    rfl
  · exact hscore

/-- What one fair event keeps: the server's blocks fit, and its score is zero. -/
theorem step_fair {e : Event} (hst : s.server.chain.Stored) (hscore : s.score = 0) (hfair : s.Fair e) :
    (s.step e).server.chain.Stored ∧ (s.step e).score = 0 := by
  cases e with
  | fed who i =>
      cases who with
      | requester => exact ⟨hst, hscore⟩
      | server =>
          cases i with
          | mined env b => exact ⟨hst.run [(env, b)], hscore⟩
          | heard budget env later m => exact ⟨hst.moved hfair (Node.dispatch_moved m), hscore⟩
  | asked h env later =>
      refine ⟨?_, ask_score hscore (points_answerable hst hfair)⟩
      change (s.ask h env later).server.chain.Stored
      rw [ask_server]
      exact hst

theorem run_fair {events : List Event} (hst : s.server.chain.Stored) (hscore : s.score = 0)
    (hall : s.AllFair events) : (s.run events).server.chain.Stored ∧ (s.run events).score = 0 := by
  induction events using List.reverseRecOn with
  | nil => exact ⟨hst, hscore⟩
  | append_singleton events e ih =>
      obtain ⟨hbefore, hfair⟩ := allFair_concat.mp hall
      obtain ⟨hst', hscore'⟩ := ih hbefore
      rw [run_concat]
      exact step_fair hst' hscore' hfair

/-- **Answering honestly.** In a run of fair events the score of the server stays
zero; and in every state reached, the answer with a header earns nothing exactly
when the requester has the block or lacks one of its parents. -/
theorem fair_answers_unpunished (easy archival archival' : Bool) (seed : Ledger) (budget : StarkVerifyBudget)
    (events : List Event) (hall : (start easy archival archival' seed budget).AllFair events) :
    let s := (start easy archival archival' seed budget).run events
    s.score = 0 ∧ ∀ (h : Hash) (env : Env) (later : List Env) (b : Block),
      s.server.chain.dag[h]? = some b → (s.Answerable h env → s.points h env later = 0) ∧
      (s.server.servesHeader h = true → (s.points h env later = 0 ↔
        h ∈ s.requester.chain.dag ∨ ∃ p ∈ b.parents, p ∉ s.requester.chain.dag)) := by
  intro s
  obtain ⟨hst, hscore⟩ := run_fair (s := start easy archival archival' seed budget)
    (ChainState.Stored.seeded easy archival' seed) rfl hall
  exact ⟨hscore, fun h env later b hb => ⟨points_answerable hst, points_header_iff hst hb⟩⟩

/-- A header that the requester refuses can be asked for again and again. -/
theorem run_asks {b : Block} (hst : s.server.chain.Stored) (hb : s.server.chain.dag[h]? = some b)
    (hheader : s.server.servesHeader h = true) (hnew : h ∉ s.requester.chain.dag)
    (hknown : ∀ p ∈ b.parents, p ∈ s.requester.chain.dag) {k : Nat} (hk : k ≤ 1000) :
    let t := s.run (List.replicate k (.asked h env []))
    t.requester = s.requester ∧ t.server = s.server ∧ invalidBlockPenalty * k ≤ t.score := by
  obtain ⟨hhash, hfits⟩ := hst h b hb
  have hnodup : b.headerOnly.parents.Nodup := by
    rcases hfits with hnil | hfits
    · exact hnil.symm ▸ List.nodup_nil
    · exact hfits.parents_nodup
  induction k with
  | zero => exact ⟨rfl, rfl, Nat.zero_le _⟩
  | succ k ih =>
      intro t
      obtain ⟨u, hu⟩ : ∃ u, s.run (List.replicate k (.asked h env [])) = u := ⟨_, rfl⟩
      have hbefore := ih (by omega)
      rw [hu] at hbefore
      obtain ⟨hrequester, hserver, hscore⟩ := hbefore
      have ht : t = u.ask h env [] := by
        change s.run (List.replicate (k + 1) _) = _
        rw [List.replicate_succ', run_concat, hu]
        rfl
      have hreply : u.server.answer (.getBlock h) = some (.block b.headerOnly) := by
        rw [hserver, Node.answer, Node.served, hb, Option.map_some, hheader, if_pos rfl]
      obtain ⟨e, heq⟩ :=
        @Node.ingestBlock_bare _ u.requester u.budget env b.headerOnly (hrequester.symm ▸ hhash.symm ▸ hnew) rfl hnodup (hrequester.symm ▸ hknown)
      rw [ht, ask, hreply]
      dsimp only
      rw [heq]
      refine ⟨hrequester, hserver, ?_⟩
      have hpoints : invalidBlockPenalty ≤ blockBanPenalty e := by
        unfold blockBanPenalty
        split
        · decide
        · exact le_refl _
      have htwenty : invalidBlockPenalty = 20 := rfl
      change invalidBlockPenalty * (k + 1) ≤ satAdd32 u.score (satAdd32 0 (blockBanPenalty e))
      rw [htwenty] at hscore hpoints ⊢
      unfold satAdd32
      omega

end Pair

end Pair

/-! ### A pruning server -/

namespace Sample

theorem run_mined (s : Pair) (calls : List (Env × Block)) :
    s.run (calls.map fun call => .fed .server (.mined call.1 call.2))
      = { s with server := { s.server with chain := s.server.chain.run calls } } := by
  induction calls using List.reverseRecOn with
  | nil => rfl
  | append_singleton calls call ih =>
      rw [List.map_append, List.map_singleton, Pair.run_concat, ih, ChainState.run_concat]
      rfl

/-- **A server that prunes is banned**: it answers with the header of the side
block, whose parent is genesis, and a fresh node charges it each time. -/
theorem pruning_server_banned : ∃ (events more : List Event) (h : Hash),
    let s := (Pair.start false false false {} { limit := 1, windowMs := 1 }).run events
    s.points h env [] ≠ 0 ∧ banScoreThreshold ≤ (s.run more).score := by
  have hsmall := finalityDepth_small
  have hlen := length_sidelined
  obtain ⟨calls, b, gd, sp, a, f, c, hc, hproof⟩ := exists_sidelined false
  have hcleared := (((ChainState.seeded false false {}).run calls).acceptFull env b gd).pruneBodies_spec env
  rw [← f.accept_sidelined, ← a.step, ← ChainState.run_concat] at hcleared
  have hside : ((ChainState.seeded false false {}).run (calls ++ [(env, b)])).dag[blockHash (finalityDepth + 1) 0]?
      = some c.clearBody := by
    rw [hcleared.dag, if_pos (f.side_toPrune hc hproof), hc]
    rfl
  have hparents : c.parents = [blockHash 0 0] := by
    rw [← Dag.parentsOf_eq hc, f.parents _ _ sidelined_side]
    rfl
  refine ⟨(calls ++ [(env, b)]).map fun call => .fed .server (.mined call.1 call.2),
    List.replicate 5 (.asked (blockHash (finalityDepth + 1) 0) env []), blockHash (finalityDepth + 1) 0, ?_⟩
  rw [run_mined]
  intro s
  have hst : s.server.chain.Stored := (ChainState.Stored.seeded false false {}).run _
  have hheader : s.server.servesHeader (blockHash (finalityDepth + 1) 0) = true := by
    have hempty : s.server.chain.isBodyPruned (blockHash (finalityDepth + 1) 0) = true := by
      change ((((ChainState.seeded false false {}).run (calls ++ [(env, b)])).dag[_]?).map
        Block.isBodyEmpty).getD false = true
      rw [hside]
      rfl
    rw [Node.servesHeader, hempty, Bool.true_or]
  have hnew : blockHash (finalityDepth + 1) 0 ∉ s.requester.chain.dag := by
    intro hmem
    have := (ChainState.seeded_mem false false {} _).mp hmem
    rw [genesis_hash] at this
    exact blockHash_ne (by omega) (by omega) (by omega) this
  have hknown : ∀ p ∈ c.clearBody.parents, p ∈ s.requester.chain.dag := by
    intro p hp
    rw [show c.clearBody.parents = c.parents from rfl, hparents, List.mem_singleton] at hp
    refine (ChainState.seeded_mem false false {} p).mpr ?_
    rw [hp, genesis_hash]
  refine ⟨fun hzero => ?_, ?_⟩
  · rcases (Pair.points_header_iff hst hside hheader).mp hzero with hmem | ⟨p, hp, hout⟩
    · exact hnew hmem
    · exact hout (hknown p hp)
  · exact (Pair.run_asks hst hside hheader hnew hknown (show 5 ≤ 1000 by decide)).2.2

/-- The first block of a pruning server, asked for by a fresh pruning node. -/
theorem first_answer_unpunished : ∃ (b : Block) (h : Hash),
    (Pair.start false false false {} { limit := 1, windowMs := 1 }).AllFair [.fed .server (.mined env b), .asked h env []] ∧
    ((Pair.start false false false {} { limit := 1, windowMs := 1 }).run
      [.fed .server (.mined env b), .asked h env []]).score = 0 := by
  have f : Followed false [] (built false []) :=
    followed false (Nat.zero_le _) fun i numbers hi => by cases hi
  have hbuild : Numbered.Buildable (([] : List (List Nat)).length + 1) [0] :=
    ⟨by simp, by simp [maxBlockParents], by simp, by simp, Or.inr ⟨_, rfl⟩⟩
  have hlow := f.numbered.shallow (by decide)
  obtain ⟨gd, sp, a, hhash, -⟩ := f.numbered.admitted hbuild hlow
  obtain ⟨gd', sp', a', f'⟩ := f.acceptFull (by decide) hlow hbuild
  obtain rfl : gd = gd' := Except.ok.inj (a.data.symm.trans a'.data)
  have heq : (built false []).accept env (mined (built false []) (hashes [0])
      (([] : List (List Nat)).length + 1) 0) gd = (built false []).acceptFull env (mined (built false [])
        (hashes [0]) (([] : List (List Nat)).length + 1) 0) gd :=
    f'.numbered.accept_eq (Or.inr (Or.inl (by decide)))
  generalize mined (built false []) (hashes [0]) (([] : List (List Nat)).length + 1) 0 = b at a hhash heq
  have hstored : ((ChainState.seeded false false {}).step (env, b)).dag[blockHash 1 0]? = some b := by
    have hstep : (ChainState.seeded false false {}).step (env, b) = (built false []).accept env b gd := a.step
    rw [hstep, heq, ((built false []).acceptFull_core env b gd).dag]
    exact hhash ▸ ChainState.getElem?_insertBlock
  have hfair : (Pair.start false false false {} { limit := 1, windowMs := 1 }).AllFair
      [.fed .server (.mined env b), .asked (blockHash 1 0) env []] := by
    change Pair.AllFair _ (([] ++ [.fed .server (.mined env b)]) ++ [.asked (blockHash 1 0) env []])
    refine Pair.allFair_concat.mpr ⟨Pair.allFair_concat.mpr ⟨fun k e hk => ?_, trivial⟩, ?_⟩
    · cases hk
    · refine Pair.Answerable.whole hstored ?_ rfl (ChainState.addBlock_eq_ok.mpr ⟨gd, sp, a, rfl⟩)
      have hbody : b.isBodyEmpty = false := by simp [Block.isBodyEmpty, a.starkProof_ne]
      change ((((ChainState.seeded false false {}).step (env, b)).dag[blockHash 1 0]?.map
        Block.isBodyEmpty).getD false || false) = false
      rw [hstored, Option.map_some, hbody]
      rfl
  exact ⟨b, blockHash 1 0, hfair,
    (Pair.fair_answers_unpunished false false false {} { limit := 1, windowMs := 1 } _ hfair).1⟩

end Sample

end HassanNode
