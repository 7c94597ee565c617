import Mathlib
import HassanNode.Net.Exchange

/-!
# HassanNode.Net.Adoption

What adopting a pruning proof does to the work of the selected chain. The import
makes the last header of the proof the only tip, so afterwards the node is on the
proof's chain; nothing compares that chain with the one it had. The comparison is
with the best work of an earlier proof, which is zero on a node that synced from
blocks.
-/

namespace HassanNode

open Std (ExtTreeMap ExtTreeSet)
open Params

/-! ### Work along the chain -/

namespace GhostdagMap

/-- A new entry leaves the chains of the old ones alone. -/
theorem selectedChain_insert {gd : GhostdagMap} (hl : gd.Linked) (hd : gd.Descends) {k : Hash}
    {d : GhostdagData} (hd' : GhostdagMap.Descends (gd.insert k d)) (hk : k ∉ gd) {x : Hash} (hx : x ∈ gd) :
    GhostdagMap.selectedChain (gd.insert k d) x = gd.selectedChain x := by
  induction x using chain_induction hd with
  | root x hsp =>
      have hne : k ≠ x := fun heq => hk (heq ▸ hx)
      rw [selectedChain_root hsp, selectedChain_root ((ChainState.spOf_insert_ne hne).trans hsp)]
  | step x p hsp ih =>
      have hne : k ≠ x := fun heq => hk (heq ▸ hx)
      rw [selectedChain_step hd hsp, selectedChain_step hd' ((ChainState.spOf_insert_ne hne).trans hsp),
        ih (hl x p hsp)]

end GhostdagMap

namespace ChainState

variable [Crypto] {st st' : ChainState} {env : Env}

/-- The difficulty of a block; `0` for an unknown one. -/
def workAt (st : ChainState) (h : Hash) : Nat := (st.dag[h]?.map (·.difficulty.toNat)).getD 0

/-- The difficulties along the selected chain of a block. -/
def workTo (st : ChainState) (h : Hash) : Nat := ((st.ghostdag.selectedChain h).map st.workAt).sum

/-- The difficulties along the node's selected chain. -/
def chainWork (st : ChainState) : Nat := (st.selectedTip.map st.workTo).getD 0

omit [Crypto] in
theorem workTo_step (hd : st.ghostdag.Descends) {h p : Hash} (hp : st.ghostdag.spOf h = some p) :
    st.workTo h = st.workTo p + st.workAt h := by
  rw [workTo, workTo, GhostdagMap.selectedChain_step hd hp]
  simp

/-! ### The import loop along a proof -/

/-- The import hangs every header below the one before it: a known header has it
as its selected parent and the same difficulty, a new one has no better known
parent. Scores are 64-bit, so the ceiling is out of reach. -/
def Follows (env : Env) (st : ChainState) (prev : Hash) : List Block → Prop
  | [] => True
  | hdr :: hdrs =>
    (match st.dag[hdr.hash]? with
      | some b => st.ghostdag.spOf hdr.hash = some prev ∧ b.difficulty = hdr.difficulty
      | none => st.ghostdag.scoreOf prev < u64Max ∧ (st.ghostdag.selectParent hdr.parents = some prev ∨
          st.ghostdag.selectParent hdr.parents = none)) ∧
      Follows env (importHeader env (st, prev) hdr).1 hdr.hash hdrs

/-- The same from genesis on. -/
def FollowsProof (env : Env) (st : ChainState) : List Block → Prop
  | [] => False
  | first :: hdrs => (∃ g, st.dag[genesisBlock.hash]? = some g ∧ g.parents = [] ∧
      g.difficulty = first.difficulty) ∧ st.Follows env genesisBlock.hash hdrs

/-- What the loop relies on. -/
structure Attached (st : ChainState) (prev : Hash) : Prop where
  known : ∀ h, h ∈ st.ghostdag ↔ h ∈ st.dag
  linked : st.ghostdag.Linked
  descends : st.ghostdag.Descends
  prev_mem : prev ∈ st.dag

omit [Crypto] in
theorem importedData_follows {header : Block} {prev : Hash} (hroom : st.ghostdag.scoreOf prev < u64Max)
    (hsp : st.ghostdag.selectParent header.parents = some prev ∨
      st.ghostdag.selectParent header.parents = none) :
    (st.importedData header prev).selectedParent = some prev ∧
      st.ghostdag.scoreOf prev < (st.importedData header prev).blueScore := by
  have hbelow : (importedData.below st prev).selectedParent = some prev ∧
      st.ghostdag.scoreOf prev < (importedData.below st prev).blueScore := by
    refine ⟨rfl, ?_⟩
    change _ < satAdd64 _ 1
    rw [satAdd64_eq (by omega)]
    omega
  unfold importedData
  split
  next gd hdata =>
    rcases hsp with hsp | hsp
    · have hcomputed := tryCompute_ok hdata hsp
      obtain ⟨blues, hblues⟩ := hcomputed.blues
      rw [hcomputed.selectedParent, Option.isSome_some, if_pos rfl]
      refine ⟨hcomputed.selectedParent, ?_⟩
      rw [hcomputed.score, hblues, List.length_cons]
      omega
    · have hgenesis : gd = GhostdagData.genesis := by
        unfold computeGhostdag tryComputeGhostdagData at hdata
        rw [hsp] at hdata
        exact (Except.ok.inj hdata).symm
      rw [hgenesis]
      exact hbelow
  next => exact hbelow

/-- One header more, one difficulty more. -/
theorem Attached.importHeader {prev : Hash} (h : st.Attached prev) {hdr : Block}
    (hfollows : st.Follows env prev [hdr]) :
    (importHeader env (st, prev) hdr).1.Attached hdr.hash ∧
      (importHeader env (st, prev) hdr).1.workTo hdr.hash = st.workTo prev + hdr.difficulty.toNat := by
  have hstep := hfollows.1
  unfold ChainState.importHeader
  dsimp only
  split
  next hknown =>
    -- the node has the header
    obtain ⟨b, hb⟩ := DagInv.exists_block (ExtTreeMap.contains_iff_mem.mp hknown)
    rw [hb] at hstep
    refine ⟨⟨h.known, h.linked, h.descends, DagInv.mem_of_getElem? hb⟩, ?_⟩
    rw [workTo_step h.descends hstep.1, workAt, hb, Option.map_some, Option.getD_some, hstep.2]
  next hnew =>
    have hout : hdr.hash ∉ st.dag := fun hmem => hnew (ExtTreeMap.contains_iff_mem.mpr hmem)
    have houtGd : hdr.hash ∉ st.ghostdag := fun hmem => hout ((h.known _).mp hmem)
    rw [ExtTreeMap.getElem?_eq_none hout] at hstep
    obtain ⟨hsp, hscore⟩ := importedData_follows hstep.1
      (show st.ghostdag.selectParent hdr.headerOnly.parents = some prev ∨ _ from hstep.2)
    have hprev := (h.known prev).mpr h.prev_mem
    have hne : hdr.hash ≠ prev := fun heq => houtGd (heq ▸ hprev)
    have hold : ∀ {x}, x ∈ st.ghostdag → hdr.hash ≠ x := fun hx heq => houtGd (heq ▸ hx)
    have hlinked : GhostdagMap.Linked (st.ghostdag.insert hdr.hash (st.importedData hdr.headerOnly prev)) := by
      intro x p hp
      rw [ExtTreeMap.mem_insert]
      by_cases hx : hdr.hash = x
      · subst hx
        rw [spOf_insert_self, hsp] at hp
        exact Or.inr (Option.some.inj hp ▸ hprev)
      · rw [spOf_insert_ne hx] at hp
        exact Or.inr (h.linked x p hp)
    have hdescends : GhostdagMap.Descends
        (st.ghostdag.insert hdr.hash (st.importedData hdr.headerOnly prev)) := by
      intro x d p hx hp
      have hlink : GhostdagMap.spOf (st.ghostdag.insert hdr.hash (st.importedData hdr.headerOnly prev)) x
          = some p := by rw [GhostdagMap.spOf, hx]; exact hp
      by_cases heq : hdr.hash = x
      · subst heq
        rw [spOf_insert_self, hsp] at hlink
        obtain rfl := Option.some.inj hlink
        rw [scoreOf_insert_self, scoreOf_insert_ne hne]
        exact hscore
      · rw [spOf_insert_ne heq] at hlink
        rw [scoreOf_insert_ne heq, scoreOf_insert_ne (hold (h.linked x p hlink))]
        exact h.descends.spOf_lt hlink
    refine ⟨⟨fun x => ?_, hlinked, hdescends, ExtTreeMap.mem_insert_self⟩, ?_⟩
    · rw [ExtTreeMap.mem_insert, ExtTreeMap.mem_insert, h.known]
    · have hlink : GhostdagMap.spOf (st.ghostdag.insert hdr.hash (st.importedData hdr.headerOnly prev)) hdr.hash
          = some prev := spOf_insert_self.trans hsp
      have hchain := GhostdagMap.selectedChain_insert h.linked h.descends hdescends houtGd hprev
      rw [workTo, GhostdagMap.selectedChain_step hdescends hlink, hchain, List.map_append, List.sum_append]
      congr 1
      · rw [workTo]
        congr 1
        refine List.map_congr_left fun x hx => ?_
        have hxmem := above_known h.linked hprev ((GhostdagMap.mem_selectedChain h.descends).mp hx)
        rw [workAt, workAt, ExtTreeMap.getElem?_insert]
        simp [hold hxmem]
      · simp [workAt, Block.headerOnly]

theorem importHeader_snd (prev : Hash) (hdr : Block) : (importHeader env (st, prev) hdr).2 = hdr.hash := by
  unfold importHeader
  dsimp only
  split
  · rfl
  · rfl

/-- The whole loop: the chain of the last header is the proof. -/
theorem Attached.importHeaders {hdrs : List Block} {prev : Hash} (h : st.Attached prev)
    (hfollows : st.Follows env prev hdrs) :
    (hdrs.foldl (ChainState.importHeader env) (st, prev)).1.Attached ((hdrs.map Block.hash).getLastD prev) ∧
    (hdrs.foldl (ChainState.importHeader env) (st, prev)).1.workTo ((hdrs.map Block.hash).getLastD prev)
      = st.workTo prev + (hdrs.map (·.difficulty.toNat)).sum := by
  induction hdrs generalizing st prev with
  | nil => exact ⟨h, by simp⟩
  | cons hdr hdrs ih =>
      obtain ⟨hnext, hwork⟩ := h.importHeader ⟨hfollows.1, trivial⟩
      have hpair : ChainState.importHeader env (st, prev) hdr
          = ((ChainState.importHeader env (st, prev) hdr).1, hdr.hash) :=
        Prod.ext rfl (importHeader_snd prev hdr)
      obtain ⟨hattached, hsum⟩ := ih hnext hfollows.2
      rw [List.foldl_cons, hpair, List.map_cons, List.map_cons, List.sum_cons, List.getLastD_cons]
      refine ⟨hattached, ?_⟩
      rw [hsum, hwork, Nat.add_assoc]

/-! ### The work of an import -/

omit [Crypto] in
/-- A root's chain is the root. -/
theorem workTo_root {h : Hash} (hroot : st.ghostdag.spOf h = none) : st.workTo h = st.workAt h := by
  rw [workTo, GhostdagMap.selectedChain_root hroot]
  simp

/-- **After an import the chain is the proof**, whatever it was before. -/
theorem chainWork_import {headers : List Block} {pp : Hash}
    (hst : st.Attached genesisBlock.hash) (hroot : st.ghostdag.spOf genesisBlock.hash = none)
    (hfollows : st.FollowsProof env headers)
    (himport : st.importVerifiedPruningHeaders env headers = .ok (st', pp)) :
    st'.chainWork = (headers.map (·.difficulty.toNat)).sum := by
  obtain ⟨first, rest, rfl, hfirst, -, hlast, htips, hdag, hgd⟩ := importVerifiedPruningHeaders_ok himport
  obtain ⟨⟨g, hg, -, hdiff⟩, hrest⟩ := hfollows
  have hpp : (rest.map Block.hash).getLastD genesisBlock.hash = pp := by
    rw [← hfirst, ← List.getLastD_cons (a := pp), ← List.map_cons, List.getLastD_eq_getLast?,
      List.getLast?_map, hlast, Option.getD_some]
  obtain ⟨hattached, hsum⟩ := hst.importHeaders hrest
  rw [hpp] at hattached hsum
  have htip : st'.selectedTip = some pp := by
    refine GhostdagMap.selectBest_eq_some.mpr ⟨by rw [htips]; exact List.mem_singleton_self pp, ?_, ?_⟩
    · rw [hgd]
      exact (hattached.known pp).mpr hattached.prev_mem
    · intro t ht _
      rw [htips, List.mem_singleton] at ht
      rw [ht]
      exact (GhostdagMap.rankLe_total pp pp).elim id id
  rw [chainWork, htip, Option.map_some, Option.getD_some]
  have hsame : st'.workTo pp = (rest.foldl (ChainState.importHeader env) (st, genesisBlock.hash)).1.workTo pp := by
    rw [workTo, workTo, hgd]
    refine congrArg List.sum (List.map_congr_left fun x _ => ?_)
    rw [workAt, workAt, hdag]
  rw [hsame, hsum, workTo_root hroot, workAt, hg, Option.map_some, Option.getD_some, hdiff, List.map_cons,
    List.sum_cons]

/-- A run from genesis is ready for an import. -/
theorem attached_run (easy archival : Bool) (seed : Ledger) (calls : List (Env × Block)) {b : Block}
    (hb : ((ChainState.seeded easy archival seed).run calls).dag[genesisBlock.hash]? = some b)
    (hparents : b.parents = []) :
    ((ChainState.seeded easy archival seed).run calls).Attached genesisBlock.hash ∧
      ((ChainState.seeded easy archival seed).run calls).ghostdag.spOf genesisBlock.hash = none := by
  have l := Logged.run easy archival seed calls
  refine ⟨⟨l.consistent.keyed.known, l.consistent.linked, l.consistent.descends, DagInv.mem_of_getElem? hb⟩, ?_⟩
  have hroot := l.roots hb hparents
  cases hsp : GhostdagMap.spOf _ genesisBlock.hash with
  | none => rfl
  | some p => simp [l.links hsp] at hroot

end ChainState

/-! ### What a message can do -/

namespace Node

variable [Crypto] {n n' : Node} {budget : StarkVerifyBudget} {env : Env} {later : List Env}

/-- The cold-start fields are the same. -/
structure SameSync (n n' : Node) : Prop where
  point : n'.verifiedPruningPoint = n.verifiedPruningPoint
  proof : n'.expectingPruningProof = n.expectingPruningProof
  ledger : n'.expectingPruningLedger = n.expectingPruningLedger
  work : n'.bestPruningWork = n.bestPruningWork

omit [Crypto] in
theorem SameSync.refl (n : Node) : n.SameSync n := ⟨rfl, rfl, rfl, rfl⟩

omit [Crypto] in
theorem SameSync.trans {n'' : Node} (h : n.SameSync n') (h' : n'.SameSync n'') : n.SameSync n'' :=
  ⟨h'.point.trans h.point, h'.proof.trans h.proof, h'.ledger.trans h.ledger, h'.work.trans h.work⟩

namespace Ingest

theorem refuse_sync (s : Ingest) (env : Env) (b : Block) (isDirect : Bool) (message : String) :
    s.node.SameSync (s.refuse env b isDirect message).node := by
  unfold refuse
  split
  · unfold orphan bufferOrphan
    dsimp only
    split
    · exact ⟨rfl, rfl, rfl, rfl⟩
    · exact ⟨rfl, rfl, rfl, rfl⟩
  · unfold charge
    split
    · exact .refl _
    · exact .refl _

theorem process_sync (s : Ingest) (env : Env) (b : Block) (isDirect : Bool) :
    s.node.SameSync (s.process env b isDirect).node := by
  have hspend : (s.spend env isDirect).2.node = s.node := by
    unfold spend
    split
    · rfl
    · rfl
  unfold process
  split
  · exact refuse_sync s env b isDirect _
  · dsimp only
    split
    · rw [charge, if_pos rfl]
      rw [hspend]
      exact .refl _
    · split
      · rw [accept, hspend]
        exact ⟨rfl, rfl, rfl, rfl⟩
      · have h := refuse_sync (s.spend env isDirect).2 env b isDirect ‹_›
        rwa [hspend] at h

theorem pass_sync (s : Ingest) (env : Env) : s.node.SameSync (s.pass env).node := by
  unfold pass
  split
  · exact .refl _
  · split
    · exact .refl _
    · rename_i b isDirect queue _ _
      exact process_sync { s with queue := queue } env b isDirect

theorem foldl_pass_sync (s : Ingest) (later : List Env) : s.node.SameSync (later.foldl pass s).node := by
  induction later generalizing s with
  | nil => exact .refl _
  | cons env later ih => exact (s.pass_sync env).trans (ih (s.pass env))

end Ingest

/-- Blocks leave the cold-start fields alone. -/
theorem ingestBlock_sync (b : Block) : n.SameSync (n.ingestBlock budget env later b).node :=
  (Ingest.pass_sync { node := n, budget := budget, queue := [(b, true)] } env).trans (Ingest.foldl_pass_sync _ later)

/-- Everything that a message can do to a node. -/
inductive Reaction (env : Env) (m : Message) (n : Node) : Node → Prop
  | ran {n' : Node} (calls : List (Env × Block)) (hchain : n'.chain = n.chain.run calls) (hsync : n.SameSync n') :
      Reaction env m n n'
  | asked (hpoint : n.verifiedPruningPoint = none) : Reaction env m n { n with expectingPruningProof := true }
  | declined : Reaction env m n { n with expectingPruningProof := false }
  | imported {st : ChainState} {last pp : Hash} {work : Nat} (hexpect : n.expectingPruningProof = true)
      (himport : n.chain.importVerifiedPruningHeaders env m.proofHeaders = .ok (st, last))
      (hwork : n.bestPruningWork < work) : Reaction env m n (n.adopted st pp work)
  | ledger {st : ChainState} (hexpect : n.expectingPruningLedger = true) :
      Reaction env m n { n with chain := st, expectingPruningLedger := false }

theorem Reaction.none (env : Env) (m : Message) (n : Node) : Reaction env m n n := .ran [] rfl (.refl n)

theorem dispatch_reaction (m : Message) : Reaction env m n (n.dispatch budget env later m).1 := by
  cases m with
  | hello version magic chainId blueScore =>
      rw [dispatch]
      split
      · exact .none env _ n
      · split
        · rename_i hahead
          exact .asked hahead.2
        · exact .none env _ n
  | block b =>
      obtain ⟨calls, hcalls⟩ := ingestBlock_run (n := n) (b := b)
      exact .ran calls hcalls (ingestBlock_sync b)
  | pruningProof headers =>
      change Reaction env _ n (n.adoptPruningProof env headers).1
      unfold adoptPruningProof
      split
      · exact .none env _ n
      · rename_i hexpect
        split
        · split
          · exact .declined
          · split
            · exact .declined
            · rename_i hwork
              split
              · exact .none env _ n
              · exact .imported (by simpa using hexpect) (by assumption) (by omega)
        · exact .none env _ n
  | multiLevelPruningProof proof =>
      change Reaction env _ n (n.adoptMultiLevelPruningProof env proof).1
      unfold adoptMultiLevelPruningProof
      split
      · exact .none env _ n
      · rename_i hexpect
        split
        · split
          · exact .none env _ n
          · split
            · exact .declined
            · rename_i hwork
              split
              · exact .none env _ n
              · exact .imported (by simpa using hexpect) (by assumption) (by omega)
        · exact .none env _ n
  | pruningPointLedger msg =>
      rw [dispatch]
      split
      · exact .none env _ n
      · rename_i hexpect
        split
        · exact .none env _ n
        · exact .ledger (by simpa using hexpect)
  | _ => exact .none env _ n

/-! ### At most one import -/

/-- Until a proof is adopted the chain grows by blocks alone, and none is expected
afterwards. -/
structure Cold (easy archival : Bool) (seed : Ledger) (n : Node) : Prop where
  before : n.verifiedPruningPoint = none → n.expectingPruningLedger = false ∧
    ∃ calls, n.chain = (ChainState.seeded easy archival seed).run calls
  after : n.verifiedPruningPoint ≠ none → n.expectingPruningProof = false

variable {easy archival : Bool} {seed : Ledger}

theorem Cold.ran (h : Cold easy archival seed n) {calls : List (Env × Block)}
    (hchain : n'.chain = n.chain.run calls) (hsync : n.SameSync n') : Cold easy archival seed n' := by
  refine ⟨fun hpoint => ?_, fun hpoint => ?_⟩
  · obtain ⟨hledger, calls₀, hcalls⟩ := h.before (hsync.point.symm.trans hpoint)
    refine ⟨hsync.ledger.trans hledger, calls₀ ++ calls, ?_⟩
    rw [hchain, hcalls, ChainState.run, ChainState.run, ChainState.run, List.foldl_append]
  · exact hsync.proof.trans (h.after (hsync.point ▸ hpoint))

theorem Cold.reaction (h : Cold easy archival seed n) {m : Message} (hreact : Reaction env m n n') :
    Cold easy archival seed n' := by
  cases hreact with
  | ran calls hchain hsync => exact h.ran hchain hsync
  | asked hpoint => exact ⟨h.before, fun hsome => absurd hpoint hsome⟩
  | declined => exact ⟨h.before, fun _ => rfl⟩
  | imported hexpect himport hwork => exact ⟨fun hpoint => by simp [adopted] at hpoint, fun _ => rfl⟩
  | ledger hexpect =>
      refine ⟨fun hpoint => ?_, h.after⟩
      rw [(h.before hpoint).1] at hexpect
      cases hexpect

/-- A node at its start, before any message. -/
def fresh (easy archival : Bool) (seed : Ledger) : Node where
  chain := ChainState.seeded easy archival seed

theorem Cold.feeds (easy archival : Bool) (seed : Ledger) (inputs : List Input) :
    Cold easy archival seed ((fresh easy archival seed).feeds inputs) := by
  induction inputs using List.reverseRecOn with
  | nil => exact ⟨fun _ => ⟨rfl, [], rfl⟩, fun hpoint => absurd rfl hpoint⟩
  | append_singleton inputs i ih =>
      rw [feeds_concat]
      cases i with
      | mined env b => exact @Cold.ran _ _ _ _ _ _ ih [(env, b)] rfl ⟨rfl, rfl, rfl, rfl⟩
      | heard budget env later m => exact ih.reaction (dispatch_reaction m)

/-! ### The work of the chain across an import -/

/-- The message makes the node import a proof: that is when its best work grows. -/
def Imports (n : Node) (budget : StarkVerifyBudget) (env : Env) (later : List Env) (m : Message) : Prop :=
  n.bestPruningWork < (n.dispatch budget env later m).1.bestPruningWork

theorem Imports.spec {m : Message} (h : n.Imports budget env later m) : n.expectingPruningProof = true ∧
    ∃ last, n.chain.importVerifiedPruningHeaders env m.proofHeaders
      = .ok ((n.dispatch budget env later m).1.chain, last) := by
  unfold Imports at h
  have hreact : Reaction env m n (n.dispatch budget env later m).1 := dispatch_reaction m
  generalize n.dispatch budget env later m = r at h hreact
  obtain ⟨n', points⟩ := r
  cases hreact with
  | ran calls hchain hsync => exact absurd hsync.work (Nat.ne_of_gt h)
  | asked => exact absurd h (Nat.lt_irrefl _)
  | declined => exact absurd h (Nat.lt_irrefl _)
  | imported hexpect himport hwork => exact ⟨hexpect, _, himport⟩
  | ledger hexpect => exact absurd h (Nat.lt_irrefl _)

/-- After an import the chain is the proof. -/
theorem Cold.chainWork_imports (h : Cold easy archival seed n) {m : Message}
    (himports : n.Imports budget env later m) (hfollows : n.chain.FollowsProof env m.proofHeaders) :
    (n.dispatch budget env later m).1.chain.chainWork = (m.proofHeaders.map (·.difficulty.toNat)).sum := by
  obtain ⟨hexpect, last, himport⟩ := himports.spec
  have hpoint : n.verifiedPruningPoint = none := by
    by_contra hsome
    rw [h.after hsome] at hexpect
    cases hexpect
  obtain ⟨-, calls, hcalls⟩ := h.before hpoint
  have hgenesis : ∃ g, n.chain.dag[genesisBlock.hash]? = some g ∧ g.parents = [] := by
    revert hfollows
    cases m.proofHeaders with
    | nil => exact False.elim
    | cons first rest =>
        intro hfollows
        obtain ⟨⟨g, hg, hparents, -⟩, -⟩ := hfollows
        exact ⟨g, hg, hparents⟩
  obtain ⟨g, hg, hparents⟩ := hgenesis
  have hready := ChainState.attached_run easy archival seed calls (hcalls ▸ hg) hparents
  rw [← hcalls] at hready
  exact ChainState.chainWork_import hready.1 hready.2 hfollows himport

theorem verifyPruningProof_genesis (easy : Bool) (now : Nat) :
    ∃ s, verifyPruningProof easy now [genesisBlock] = .ok s ∧ 0 < s.cumulativeWork := by
  unfold verifyPruningProof
  refine (Checked.Runs.require rfl).bind fun _ _ => ?_
  refine (Checked.Runs.require (by decide)).bind fun _ _ => ?_
  refine (Checked.Runs.get (i := 0) rfl).bind fun first hfirst => ?_
  subst hfirst
  refine (Checked.Runs.require (by simp)).bind fun _ _ => ?_
  refine (Checked.Runs.require rfl).bind fun _ _ => ?_
  have hloop : Checked.loop (verifyHeader easy now [genesisBlock]) genesisBlock.difficulty.toNat
      (List.range' 1 ([genesisBlock].length - 1)) = .ok genesisBlock.difficulty.toNat := rfl
  refine (Checked.Runs.bind ⟨_, hloop, rfl⟩ fun work hwork => ?_)
  refine (Checked.Runs.get (i := 0) rfl).bind fun last _ => Checked.Runs.ok ?_
  change 0 < work
  rw [← hwork]
  decide

/-- Nothing is stale for a node that has not adopted a proof and is near its start. -/
theorem checkIbdProofFreshness_ok {height stamp work : Nat} {ctx : IbdFreshnessContext}
    (hdrift : stamp ≤ satAdd64 ctx.now maxFutureDriftMs) (hbest : ctx.localBestWork = 0)
    (htime : ctx.localTipTimestamp ≤ satAdd64 stamp (finalityDepth * targetBlockTimeMs)) :
    checkIbdProofFreshness genesisBlock.hash height stamp work ctx = .ok () := by
  have hold : decide (satAdd64 stamp (finalityDepth * targetBlockTimeMs) < ctx.localTipTimestamp) = false :=
    decide_eq_false (Nat.not_lt.mpr htime)
  have hzero : decide (0 < ctx.localBestWork) = false := decide_eq_false (by omega)
  unfold checkIbdProofFreshness
  rw [hold, hzero, Bool.false_and, Bool.and_false, Bool.false_and, beq_self_eq_true, decide_eq_true hdrift]
  rfl

/-- The one header passes for a proof: it has some work, and no earlier proof has
left a best one. -/
theorem imports_genesis (hexpect : n.expectingPruningProof = true) (hbest : n.bestPruningWork = 0)
    (hmem : genesisBlock.hash ∈ n.chain.dag)
    (hdrift : genesisBlock.timestamp.toNat ≤ satAdd64 env.now maxFutureDriftMs)
    (htime : (n.freshness env).localTipTimestamp
      ≤ satAdd64 genesisBlock.timestamp.toNat (finalityDepth * targetBlockTimeMs)) :
    n.Imports budget env later (.pruningProof [genesisBlock]) := by
  obtain ⟨s, hverify, hwork⟩ := verifyPruningProof_genesis env.labEasyPow env.now
  have hfresh : checkIbdProofFreshness genesisBlock.hash genesisBlock.height.toNat
      genesisBlock.timestamp.toNat s.cumulativeWork (n.freshness env) = .ok () :=
    checkIbdProofFreshness_ok hdrift hbest htime
  obtain ⟨st, himport⟩ : ∃ st, n.chain.importVerifiedPruningHeaders env [genesisBlock]
      = .ok (st, genesisBlock.hash) := by
    unfold ChainState.importVerifiedPruningHeaders
    dsimp only
    rw [if_neg (by simp), if_neg (by simpa using hmem)]
    exact ⟨_, rfl⟩
  unfold Imports
  change _ < (n.adoptPruningProof env [genesisBlock]).1.bestPruningWork
  unfold adoptPruningProof
  rw [hexpect, hverify, hbest]
  simp only [List.head?_cons, List.getLast?_singleton, hfresh, Nat.not_le.mpr hwork, himport, adopted, hbest,
    Nat.zero_max, Bool.not_true, Bool.false_eq_true, if_false]
  exact hwork

theorem feeds_mined (n : Node) (calls : List (Env × Block)) :
    n.feeds (calls.map fun call => .mined call.1 call.2) = { n with chain := n.chain.run calls } := by
  induction calls using List.reverseRecOn with
  | nil => rfl
  | append_singleton calls call ih =>
      rw [List.map_append, List.map_singleton, feeds_concat, ih, ChainState.run_concat]
      rfl

end Node

namespace Sample

open Node (fresh)

/-- Mine a chain, then hear of a peer that is ahead. -/
def greeted (n : Nat) : List Input :=
  (chainCalls n).map (fun call => .mined call.1 call.2) ++
    [.heard { limit := 1, windowMs := 1 } env []
      (.hello protocolVersion wireMagic (built true (chain n)).chainId (n + 1))]

theorem feeds_greeted {n : Nat} (hn : n ≤ finalityDepth) : (fresh false true {}).feeds (greeted n)
    = { chain := built true (chain n), expectingPruningProof := true } := by
  have f := followed_chain true hn
  have hscore : (built true (chain n)).selectedTipBlueScore = n := by
    rw [ChainState.selectedTipBlueScore, f.selectedTip_chain]
    exact f.scoreOf_spine (spine_chain n) (le_refl n)
  have hmined : (fresh false true {}).feeds ((chainCalls n).map fun call => .mined call.1 call.2)
      = { chain := built true (chain n) } := by
    rw [Node.feeds_mined, fresh, run_chainCalls]
  rw [greeted, Node.feeds_concat, hmined, Node.feed, Node.dispatch, if_neg (by simp), if_pos]
  exact ⟨by rw [hscore]; omega, rfl⟩

/-- A node that has mined a few blocks imports the proof of genesis alone. -/
theorem greeted_imports {n : Nat} (hn : n ≤ 1) :
    ((fresh false true {}).feeds (greeted n)).Imports { limit := 1, windowMs := 1 } env []
        (.pruningProof [genesisBlock]) ∧
      ((fresh false true {}).feeds (greeted n)).chain.FollowsProof env [genesisBlock] := by
  have hfinal : n ≤ finalityDepth := Nat.le_trans hn (by decide)
  have f := followed_chain true hfinal
  have hgenesis := (ChainState.archival_genesis false {} (chainCalls n)).1
  rw [run_chainCalls] at hgenesis
  rw [feeds_greeted hfinal]
  have hstart : genesisTimestampMs.toNat = 1785024000000 := by decide
  have hstamp : genesisBlock.timestamp.toNat = 1785024000000 := hstart
  refine ⟨Node.imports_genesis rfl rfl (DagInv.mem_of_getElem? hgenesis) ?_ ?_,
    ⟨genesisBlock, hgenesis, rfl, rfl⟩, trivial⟩
  · rw [hstamp]
    simp only [satAdd64, env, maxFutureDriftMs, u64Max]
    omega
  · rw [hstamp]
    have hlast : (Node.freshness { chain := built true (chain n), expectingPruningProof := true } env).localTipTimestamp
        ≤ 1785024000001 := by
      unfold Node.freshness
      dsimp only
      cases hb : (built true (chain n)).dag[(built true (chain n)).mainChain.getLast?.getD genesisBlock.hash]? with
      | none =>
          rw [Option.map_none, Option.getD_none]
          omega
      | some b =>
          obtain ⟨i, hi, hkey⟩ := (f.numbered.mem _).mp (DagInv.mem_of_getElem? hb)
          rw [hkey] at hb
          rw [length_chain] at hi
          have htime := (f.numbered.block i b hb (by rw [length_chain]; exact hi)).1
          rw [Option.map_some, Option.getD_some, htime, time]
          omega
    refine hlast.trans ?_
    decide

theorem workTo_genesis {n : Nat} (hn : n ≤ finalityDepth) :
    (built true (chain n)).workTo (blockHash 0 0) = genesisBlock.difficulty.toNat := by
  have hgenesis := (ChainState.archival_genesis false {} (chainCalls n)).1
  rw [run_chainCalls, genesis_hash] at hgenesis
  rw [ChainState.workTo_root (followed_chain true hn).spOf_genesis, ChainState.workAt, hgenesis]
  rfl

end Sample

end HassanNode
