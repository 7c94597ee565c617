import Mathlib
import HassanNode.Net.Replies

/-!
# HassanNode.Net.Headers

Header sync. In every state of a node, whatever it has mined, heard, pruned or
imported, the main chain is there and all its blocks are in the DAG (`Charted`). A
request for headers is then answered from the locator exactly when the first hash
of the locator that the node knows is on its main chain
(`headers_served_iff_on_chain`): the search for a start accepts any known block, and
the walk that follows goes along the main chain only.
-/

namespace HassanNode

open Std (ExtTreeMap ExtTreeSet)
open Params

/-! ### The main chain of a node -/

/-- The members of a selected chain are known. -/
theorem GhostdagMap.Linked.selectedWalk_known {gd : GhostdagMap} (hl : gd.Linked) {tip : Hash} (htip : tip ∈ gd)
    (fuel : Nat) : ∀ h ∈ gd.selectedWalk fuel tip, h ∈ gd := by
  induction fuel generalizing tip with
  | zero => exact fun h hh => absurd hh List.not_mem_nil
  | succ fuel ih =>
      intro h hh
      rw [selectedWalk] at hh
      rcases List.mem_cons.mp hh with rfl | hrest
      · exact htip
      · cases hp : gd[tip]?.bind GhostdagData.selectedParent with
        | none =>
            rw [hp] at hrest
            exact absurd hrest List.not_mem_nil
        | some p =>
            rw [hp] at hrest
            exact ih (hl tip p hp) h hrest

namespace ChainState

variable {st st' : ChainState}

/-- The maps have the same blocks, links go to known ones, and the main chain is that
of the selected tip. -/
structure Charted (st : ChainState) : Prop where
  known : ∀ h, h ∈ st.ghostdag ↔ h ∈ st.dag
  linked : st.ghostdag.Linked
  charted : ∃ tip, st.selectedTip = some tip ∧ st.mainChain = st.ghostdag.selectedChain tip

namespace Charted

theorem mainChain_mem (c : st.Charted) {h : Hash} (hh : h ∈ st.mainChain) : h ∈ st.dag := by
  obtain ⟨tip, htip, hchain⟩ := c.charted
  rw [hchain, GhostdagMap.selectedChain, List.mem_reverse] at hh
  exact (c.known h).mp (c.linked.selectedWalk_known (selectedTip_isBest htip).known _ h hh)

theorem mainChain_ne (c : st.Charted) : st.mainChain ≠ [] := by
  obtain ⟨tip, -, hchain⟩ := c.charted
  rw [hchain, GhostdagMap.selectedChain, GhostdagMap.selectedWalk]
  simp

/-- It is about the maps, the tips and the main chain only. -/
theorem congr (c : st.Charted) (hdag : ∀ h, h ∈ st'.dag ↔ h ∈ st.dag) (hghostdag : st'.ghostdag = st.ghostdag)
    (htips : st'.tips = st.tips) (hmain : st'.mainChain = st.mainChain) : st'.Charted := by
  obtain ⟨tip, htip, hchain⟩ := c.charted
  refine ⟨fun h => ?_, ?_, tip, ?_, ?_⟩
  · rw [hghostdag, hdag]
    exact c.known h
  · rw [hghostdag]
    exact c.linked
  · rw [selectedTip, hghostdag, htips]
    exact htip
  · rw [hmain, hghostdag]
    exact hchain

/-- Ordering the main chain is enough, where a tip is known. -/
theorem order (hknown : ∀ h, h ∈ st.ghostdag ↔ h ∈ st.dag) (hlinked : st.ghostdag.Linked)
    (htip : ∃ t ∈ st.tips, t ∈ st.dag) : st.orderMainChain.Charted := by
  obtain ⟨t, ht, hmem⟩ := htip
  obtain ⟨tip, hselected⟩ := GhostdagMap.selectBest_isSome ht ((hknown t).mpr hmem)
  have hselected : st.selectedTip = some tip := hselected
  unfold orderMainChain
  rw [hselected]
  exact ⟨hknown, hlinked, tip, hselected, rfl⟩

theorem captureBase (c : st.Charted) : st.captureBase.Charted := by
  unfold ChainState.captureBase
  split
  · exact c
  · exact c.congr (fun _ => Iff.rfl) rfl rfl rfl

/-- A new block with a known selected parent, or none. -/
theorem known_insert (hknown : ∀ h, h ∈ st.ghostdag ↔ h ∈ st.dag) (hash : Hash) (b : Block) (d : GhostdagData) (h : Hash) :
    h ∈ st.ghostdag.insert hash d ↔ h ∈ st.dag.insert hash b := by
  rw [ExtTreeMap.mem_insert, ExtTreeMap.mem_insert, hknown]

theorem linked_insert {gd : GhostdagMap} (hl : gd.Linked) {hash : Hash} {d : GhostdagData}
    (hd : ∀ p, d.selectedParent = some p → p ∈ gd) : GhostdagMap.Linked (gd.insert hash d) := by
  intro h p hp
  rw [ExtTreeMap.mem_insert]
  right
  by_cases hh : hash = h
  · subst hh
    rw [spOf_insert_self] at hp
    exact hd p hp
  · rw [spOf_insert_ne hh] at hp
    exact hl h p hp

section Accept

variable [Crypto] {env : Env} {block : Block} {gd : GhostdagData} {sp : Hash}

theorem seeded (easy archival : Bool) (seed : Ledger) : (ChainState.seeded easy archival seed).Charted := by
  have c := (whole_seeded easy archival seed).consistent
  obtain ⟨tip, htip⟩ := c.selected
  obtain rfl := (seeded_mem easy archival seed tip).mp (c.tip_mem htip)
  have hroot : (ChainState.seeded easy archival seed).ghostdag.spOf genesisBlock.hash = none := by
    rw [GhostdagMap.spOf, seeded_ghostdag, if_pos rfl]
    rfl
  refine ⟨c.keyed.known, c.linked, _, htip, ?_⟩
  rw [GhostdagMap.selectedChain_root hroot]
  rfl

theorem advanceFinalizedBase (c : st.Charted) : st.advanceFinalizedBase.Charted := by
  have hcore := st.advanceFinalizedBase_core
  refine c.congr (fun h => by rw [hcore.dag]) hcore.ghostdag hcore.tips ?_
  rcases st.advanceFinalizedBase_cases with heq | ⟨fp, -, -, -, -, heq⟩
  · rw [heq]
  · rw [heq]

omit [Crypto] in
/-- Clearing bodies keeps the hashes. -/
theorem cleared {hs : List Hash} (c : st.Charted) (g : Cleared hs st st') : st'.Charted :=
  c.congr g.mem g.ghostdag g.tips g.mainChain

omit [Crypto] in
/-- So does keeping some blocks, a tip among them, and cutting the links to the others. -/
theorem restrict (c : st.Charted) {keep : Hash → Bool} (hkeep : ∀ h, keep h = true → h ∈ st.dag)
    (hdag : st'.dag = st.dag.filter fun h _ => keep h)
    (hghostdag : st'.ghostdag = rerootGhostdag keep (st.ghostdag.filter fun h _ => keep h))
    (htip : ∃ t ∈ st'.tips, keep t = true) : st'.orderMainChain.Charted := by
  have hmem : ∀ h, h ∈ st'.dag ↔ keep h = true := by
    intro h
    rw [hdag, ExtTreeMap.mem_iff_isSome_getElem?, ExtTreeMap.getElem?_filter']
    constructor
    · intro hsome
      obtain ⟨b, hb⟩ := Option.isSome_iff_exists.mp hsome
      exact (Option.filter_eq_some_iff.mp hb).2
    · intro hk
      obtain ⟨b, hb⟩ := Option.isSome_iff_exists.mp (ExtTreeMap.mem_iff_isSome_getElem?.mp (hkeep h hk))
      rw [hb, Option.filter_some, if_pos hk]
      rfl
  have hget : ∀ h, st'.ghostdag[h]? = (st.ghostdag[h]?.filter fun _ => keep h).map (cutTo keep) := by
    intro h
    rw [hghostdag, rerootGhostdag, ExtTreeMap.getElem?_map, ExtTreeMap.getElem?_filter']
    rfl
  have hknown : ∀ h, h ∈ st'.ghostdag ↔ keep h = true := by
    intro h
    rw [ExtTreeMap.mem_iff_isSome_getElem?, hget, Option.isSome_map]
    constructor
    · intro hsome
      obtain ⟨d, hd⟩ := Option.isSome_iff_exists.mp hsome
      exact (Option.filter_eq_some_iff.mp hd).2
    · intro hk
      have hin := (c.known h).mpr (hkeep h hk)
      obtain ⟨d, hd⟩ := Option.isSome_iff_exists.mp (ExtTreeMap.mem_iff_isSome_getElem?.mp hin)
      rw [hd, Option.filter_some, if_pos hk]
      rfl
  obtain ⟨t, ht, hk⟩ := htip
  refine Charted.order (fun h => (hknown h).trans (hmem h).symm) (fun h p hp => ?_) ⟨t, ht, (hmem t).mpr hk⟩
  -- a link that is left goes to a kept block
  obtain ⟨d, hd, hp⟩ := Option.bind_eq_some_iff.mp hp
  rw [hget] at hd
  obtain ⟨d', -, rfl⟩ := Option.map_eq_some_iff.mp hd
  exact (hknown p).mpr (Option.filter_eq_some_iff.mp hp).2

/-- Removing the blocks below a block of the selected chain keeps the selected tip. -/
theorem pruneTo (c : st.Charted) {tip pp : Hash} (htip : st.selectedTip = some tip)
    (hdeep : st.ghostdag.scoreOf pp ≤ st.ghostdag.scoreOf tip) (index : Nat) : (st.pruneTo pp index).Charted := by
  have hbest := selectedTip_isBest htip
  obtain ⟨d, hd⟩ := Option.isSome_iff_exists.mp (ExtTreeMap.mem_iff_isSome_getElem?.mp hbest.known)
  have hkept : (st.dag.contains tip && (st.ghostdag[tip]?.map fun d =>
      decide (d.blueScore ≥ st.ghostdag.scoreOf pp)).getD true) = true := by
    have hscore : st.ghostdag.scoreOf tip = d.blueScore := by simp [GhostdagMap.scoreOf, hd]
    rw [hd, Bool.and_eq_true, ExtTreeMap.contains_iff_mem]
    exact ⟨(c.known tip).mp hbest.known, decide_eq_true (hscore ▸ hdeep)⟩
  unfold ChainState.pruneTo
  dsimp only
  split
  · exact c
  · refine c.restrict (fun h hh => ?_) rfl rfl ⟨tip, List.mem_filter.mpr ⟨hbest.mem, hkept⟩, hkept⟩
    exact ExtTreeMap.contains_iff_mem.mp (Bool.and_eq_true_iff.mp hh).1

theorem pruneHistory (c : st.Charted) : st.pruneHistory.Charted := by
  unfold ChainState.pruneHistory
  split
  · exact c
  · obtain ⟨tip, htip, -⟩ := c.charted
    rw [htip]
    dsimp only
    split
    · exact c
    · split
      · exact c
      · rename_i pp hpp
        refine c.pruneTo htip ?_ _
        -- the point is among the blocks at or below the threshold
        have hlow := List.mem_takeWhile_imp (List.mem_of_getLast? hpp)
        have hle : st.ghostdag.scoreOf pp ≤ st.scoreOrMax pp := by
          unfold GhostdagMap.scoreOf scoreOrMax
          cases st.ghostdag[pp]? with
          | none => exact Nat.zero_le _
          | some d => exact le_refl _
        rw [decide_eq_true_iff] at hlow
        omega

theorem accept (c : st.Charted) (a : st.Admitted env block gd sp) : (st.accept env block gd).Charted := by
  have hsp : sp ∈ st.ghostdag := (GhostdagMap.selectBest_eq_some.mp a.selected).known
  have hinserted : (st.inserted env block gd).Charted := by
    refine (Charted.order (known_insert c.known _ _ _) (linked_insert c.linked fun p hp => ?_)
      ⟨block.hash, mem_nextTips.mpr (Or.inr rfl), ?_⟩).captureBase
    · rw [a.computed.selectedParent] at hp
      exact Option.some.inj hp ▸ hsp
    · exact mem_insertBlock.mpr (Or.inl rfl)
  have hfull : (st.acceptFull env block gd).Charted := by
    have hcore := st.acceptFull_core env block gd
    have hbefore := (st.inserted_core env block gd).trans (st.inserted env block gd).advanceFinalizedBase_core
    refine hinserted.advanceFinalizedBase.congr (fun h => ?_) ?_ ?_ (st.acceptFull_ledger env block gd).2.2.2.1
    · rw [hcore.dag, hbefore.dag]
    · rw [hcore.ghostdag, hbefore.ghostdag]
    · rw [hcore.tips, hbefore.tips]
  exact (hfull.cleared (pruneBodies_spec _ env)).pruneHistory

theorem run (c : st.Charted) (calls : List (Env × Block)) : (st.run calls).Charted :=
  run_induction c (fun c a => c.accept a) calls

omit [Crypto] in
/-- The data of an imported header points to a known block. -/
theorem importedData_known {prev : Hash} (hprev : prev ∈ st.ghostdag) (header : Block) :
    ∀ p, (st.importedData header prev).selectedParent = some p → p ∈ st.ghostdag := by
  have hbelow : ∀ p, (importedData.below st prev).selectedParent = some p → p ∈ st.ghostdag := by
    intro p hp
    obtain rfl := Option.some.inj hp
    exact hprev
  intro p hp
  unfold ChainState.importedData at hp
  cases hdata : st.computeGhostdag header.parents with
  | error e =>
      rw [hdata] at hp
      exact hbelow p hp
  | ok gd =>
      rw [hdata] at hp
      dsimp only at hp
      split at hp
      · cases hsp : st.ghostdag.selectParent header.parents with
        | none =>
            rw [computeGhostdag, tryComputeGhostdagData, hsp] at hdata
            obtain rfl := Except.ok.inj hdata
            cases hp
        | some sp =>
            rw [(tryCompute_ok hdata hsp).selectedParent] at hp
            exact Option.some.inj hp ▸ (GhostdagMap.selectBest_eq_some.mp hsp).known
      · exact hbelow p hp

/-- The import loop keeps the maps in step, and the header before is known. -/
theorem importHeaders {prev : Hash} (hdrs : List Block) (hknown : ∀ h, h ∈ st.ghostdag ↔ h ∈ st.dag)
    (hlinked : st.ghostdag.Linked) (hprev : prev ∈ st.ghostdag) :
    (∀ h, h ∈ (hdrs.foldl (importHeader env) (st, prev)).1.ghostdag ↔
      h ∈ (hdrs.foldl (importHeader env) (st, prev)).1.dag) ∧
    (hdrs.foldl (importHeader env) (st, prev)).1.ghostdag.Linked ∧
    (hdrs.foldl (importHeader env) (st, prev)).2 ∈ (hdrs.foldl (importHeader env) (st, prev)).1.ghostdag := by
  induction hdrs generalizing st prev with
  | nil => exact ⟨hknown, hlinked, hprev⟩
  | cons hdr hdrs ih =>
      rw [List.foldl_cons]
      by_cases hin : st.dag.contains hdr.hash = true
      · have hstep : importHeader env (st, prev) hdr = (st, hdr.hash) := if_pos hin
        rw [hstep]
        exact ih hknown hlinked ((hknown _).mpr (ExtTreeMap.contains_iff_mem.mp hin))
      · have hstep : importHeader env (st, prev) hdr = ({ st with
            dag := st.dag.insert hdr.hash hdr.headerOnly
            ghostdag := st.ghostdag.insert hdr.hash (st.importedData hdr.headerOnly prev)
            reachability := st.reachability.addBlock env.iter hdr.hash
              (st.importedData hdr.headerOnly prev).selectedParent (st.importedData hdr.headerOnly prev).merged },
            hdr.hash) := if_neg hin
        rw [hstep]
        refine ih (known_insert hknown _ _ _) (linked_insert hlinked (importedData_known hprev _)) ?_
        exact ExtTreeMap.mem_insert_self

/-- The header before the end of the loop is the last one. -/
theorem importHeaders_last (s : ChainState) (first : Block) (hdrs : List Block) :
    (hdrs.foldl (importHeader env) (s, first.hash)).2 = ((first :: hdrs).getLast (List.cons_ne_nil _ _)).hash := by
  induction hdrs generalizing s first with
  | nil => rfl
  | cons hdr hdrs ih =>
      have hsnd : (importHeader env (s, first.hash) hdr).2 = hdr.hash := by
        unfold importHeader
        dsimp only
        split
        · rfl
        · rfl
      rw [List.foldl_cons, List.getLast_cons (List.cons_ne_nil _ _), ← ih (importHeader env (s, first.hash) hdr).1 hdr,
        ← hsnd]

omit [Crypto] in
/-- The end of an import: the last header becomes the tip and the point to start from. -/
theorem seat {pp : Hash} (hknown : ∀ h, h ∈ st.ghostdag ↔ h ∈ st.dag) (hlinked : st.ghostdag.Linked)
    (hpp : pp ∈ st.dag) (l : Ledger) :
    Charted { ChainState.captureBase { ChainState.orderMainChain { st with tips := [pp] } with
      pruningPoint := some pp } with baseFrontier := some pp, live := l } := by
  have hordered : (ChainState.orderMainChain { st with tips := [pp] }).Charted :=
    Charted.order hknown hlinked ⟨pp, List.mem_singleton.mpr rfl, hpp⟩
  generalize ChainState.orderMainChain { st with tips := [pp] } = u at *
  have hpointed : Charted { u with pruningPoint := some pp } := hordered.congr (fun _ => Iff.rfl) rfl rfl rfl
  exact hpointed.captureBase.congr (fun _ => Iff.rfl) rfl rfl rfl

theorem imported (c : st.Charted) {headers : List Block} {pp : Hash}
    (h : st.importVerifiedPruningHeaders env headers = .ok (st', pp)) : st'.Charted := by
  cases headers with
  | nil => cases h
  | cons first rest =>
      rw [importVerifiedPruningHeaders] at h
      split at h
      · cases h
      · rename_i hfirst
        split at h
        · cases h
        · rename_i hgenesis
          have hmem : genesisBlock.hash ∈ st.dag := by simpa using hgenesis
          rw [ne_eq, not_not] at hfirst
          obtain ⟨hknown, hlinked, hlast⟩ := @importHeaders st _ env _ rest c.known c.linked ((c.known _).mpr hmem)
          rw [← hfirst] at hknown hlinked hlast
          rw [importHeaders_last, hknown] at hlast
          rw [← hfirst] at h
          obtain ⟨rfl, -⟩ := Prod.mk.inj (Except.ok.inj h)
          exact seat hknown hlinked hlast _

theorem moved (c : st.Charted) {m : Message} (h : Node.Moved env m st st') : st'.Charted := by
  cases h with
  | run calls => exact c.run calls
  | imported h => exact c.imported h
  | ledger h =>
      have hcore := adoptPruningPointLedger_core h
      refine c.congr (fun h => by rw [hcore.dag]) hcore.ghostdag hcore.tips ?_
      unfold adoptPruningPointLedger at h
      split at h
      · cases h
      · split at h
        · cases h
        · split at h
          · cases h
          · split at h
            · cases h
            · obtain rfl := Except.ok.inj h
              rfl

end Accept

end Charted

end ChainState

/-! ### Requests for headers -/

namespace Node

variable [Crypto] {n : Node}

theorem charted_changes (easy archival : Bool) (seed : Ledger) (cs : List Change) :
    (changes { chain := ChainState.seeded easy archival seed } cs).chain.Charted := by
  have hstep : ∀ (m : Node) (c : Change), m.chain.Charted → (m.change c).chain.Charted := by
    intro m c hm
    cases c with
    | fed input =>
        cases input with
        | mined env b => exact hm.run [(env, b)]
        | heard budget env later msg => exact hm.moved (dispatch_moved msg)
    | learnt addrs => exact hm
    | pooled txs => exact hm.congr (fun _ => Iff.rfl) rfl rfl rfl
  have hrun : ∀ (cs : List Change) (m : Node), m.chain.Charted → (m.changes cs).chain.Charted := by
    intro cs
    induction cs with
    | nil => exact fun m hm => hm
    | cons c cs ih => exact fun m hm => ih (m.change c) (hstep m c hm)
  exact hrun cs _ (ChainState.Charted.seeded easy archival seed)

/-- Where the headers after a locator begin: at the first hash of it that is on the main
chain, or at the first block of the chain. -/
def locatorStart (n : Node) (locator : List Hash) : Nat :=
  match locator.find? n.chain.mainChain.contains with
  | some h => n.chain.mainChain.idxOf h
  | none => 0

/-- How many headers a reply may have. -/
def headerLimit (limit : Nat) : Nat := min (max limit 1) maxHeadersPerMsg

/-- The headers of consecutive blocks of the main chain from a position on, at least
one of them, at most as many as allowed, and none after the stop hash. -/
structure HeadersFrom (n : Node) (start : Nat) (stopHash : Hash) (limit : Nat) (reply : List Block) : Prop where
  ne : reply ≠ []
  length_le : reply.length ≤ headerLimit limit
  consecutive : ∀ (i : Nat) (b : Block), reply[i]? = some b → ∃ h c,
    n.chain.mainChain[start + i]? = some h ∧ n.chain.dag[h]? = some c ∧ b = c.headerOnly
  stops : ∀ i < reply.length, n.chain.mainChain[start + i]? = some stopHash → i + 1 = reply.length

/-- The request is answered with the headers after its locator. -/
def ServesHeaders (n : Node) (locator : List Hash) (stopHash : Hash) (limit : Nat) : Prop :=
  ∃ reply, n.answer (.getHeaders locator stopHash limit) = some (.headers reply) ∧
    n.HeadersFrom (n.locatorStart locator) stopHash limit reply

/-- The first hash of the locator that the node knows, if there is one, is on the main chain. -/
def KnownOnChain (n : Node) (locator : List Hash) : Prop :=
  ∀ h, locator.find? n.chain.dag.contains = some h → h ∈ n.chain.mainChain

/-- The stop hash is not the one that means no stop, or the headers do not run past a
block with that hash. -/
def StopsAtHash (n : Node) (locator : List Hash) (stopHash : Hash) (limit : Nat) : Prop :=
  stopHash = Hash.zero →
    Hash.zero ∉ ((n.chain.mainChain.drop (n.locatorStart locator)).take (headerLimit limit)).dropLast

omit [Crypto] in
/-- A walk is a beginning of what it walks over. -/
theorem upTo_spec (stopHash : Hash) (hs : List Hash) : segment.upTo stopHash hs <+: hs ∧
    (hs ≠ [] → segment.upTo stopHash hs ≠ []) ∧ (stopHash = Hash.zero → segment.upTo stopHash hs = hs) ∧
    (stopHash ≠ Hash.zero → stopHash ∉ (segment.upTo stopHash hs).dropLast) := by
  induction hs with
  | nil => exact ⟨List.prefix_rfl, fun h => absurd rfl h, fun _ => rfl, fun _ => List.not_mem_nil⟩
  | cons h hs ih =>
      obtain ⟨hfront, -, hall, hstop⟩ := ih
      rw [segment.upTo]
      by_cases hend : h = stopHash ∧ stopHash ≠ Hash.zero
      · rw [if_pos hend]
        refine ⟨⟨hs, rfl⟩, fun _ => List.cons_ne_nil _ _, fun hzero => absurd hzero hend.2, fun _ => ?_⟩
        exact List.not_mem_nil
      · rw [if_neg hend]
        refine ⟨(List.prefix_cons_inj h).mpr hfront, fun _ => List.cons_ne_nil _ _,
          fun hzero => by rw [hall hzero], fun hne hmem => ?_⟩
        have hfirst : h ≠ stopHash := fun heq => hend ⟨heq, hne⟩
        cases hrest : segment.upTo stopHash hs with
        | nil =>
            rw [hrest] at hmem
            exact absurd hmem List.not_mem_nil
        | cons k ks =>
            rw [hrest, List.dropLast_cons_cons] at hmem
            rw [hrest] at hstop
            exact (List.mem_cons.mp hmem).elim (fun heq => hfirst heq.symm) (hstop hne)

omit [Crypto] in
/-- Where the first known hash is on the main chain, the walk starts where it should. -/
theorem start_of_known (c : n.chain.Charted) {locator : List Hash} (h : n.KnownOnChain locator) :
    locator.find? n.chain.dag.contains = locator.find? n.chain.mainChain.contains := by
  induction locator with
  | nil => rfl
  | cons x xs ih =>
      by_cases hx : n.chain.dag.contains x = true
      · have hon : n.chain.mainChain.contains x = true := by
          rw [List.contains_iff_mem]
          exact h x (by rw [List.find?_cons_of_pos hx])
        rw [List.find?_cons_of_pos hx, List.find?_cons_of_pos hon]
      · have hoff : ¬ n.chain.mainChain.contains x = true := fun hon =>
          hx (ExtTreeMap.contains_iff_mem.mpr (c.mainChain_mem (List.contains_iff_mem.mp hon)))
        rw [List.find?_cons_of_neg hx, List.find?_cons_of_neg hoff]
        refine ih fun y hy => h y ?_
        rw [List.find?_cons_of_neg hx]
        exact hy

omit [Crypto] in
/-- The segment of the main chain that is walked. -/
theorem segment_of_known (c : n.chain.Charted) {locator : List Hash} (hlen : locator.length ≤ maxLocatorHashes)
    (h : n.KnownOnChain locator) (stopHash : Hash) (limit : Nat) : n.segment locator stopHash limit
      = segment.upTo stopHash ((n.chain.mainChain.drop (n.locatorStart locator)).take (headerLimit limit)) := by
  have hlimit : max 1 (min limit maxHeadersPerMsg) = headerLimit limit := by
    unfold headerLimit maxHeadersPerMsg
    omega
  unfold segment locatorStart
  rw [List.take_of_length_le hlen, start_of_known c h, hlimit]
  cases hfind : locator.find? n.chain.mainChain.contains with
  | some x =>
      have hx : n.chain.mainChain.contains x = true := List.find?_some hfind
      rw [Option.some_or]
      dsimp only
      rw [if_pos hx]
  | none =>
      obtain ⟨first, rest, hchain⟩ := List.exists_cons_of_ne_nil c.mainChain_ne
      rw [Option.none_or, hchain]
      simp

omit [Crypto] in
/-- A search that ends off the main chain serves nothing. -/
theorem segment_of_unknown {locator : List Hash} (hlen : locator.length ≤ maxLocatorHashes)
    (h : ¬ n.KnownOnChain locator) (stopHash : Hash) (limit : Nat) : n.segment locator stopHash limit = [] := by
  obtain ⟨x, hfind, hoff⟩ : ∃ x, locator.find? n.chain.dag.contains = some x ∧ x ∉ n.chain.mainChain := by
    simpa [KnownOnChain] using h
  unfold segment
  rw [List.take_of_length_le hlen, hfind, Option.some_or]
  exact if_neg fun hon => hoff (List.contains_iff_mem.mp hon)

omit [Crypto] in
/-- The blocks of a segment are all there. -/
theorem map_some_served (c : n.chain.Charted) {hs : List Hash} (hsub : ∀ h ∈ hs, h ∈ n.chain.mainChain) :
    (hs.filterMap fun h => n.chain.dag[h]?.map Block.headerOnly).map some
      = hs.map fun h => n.chain.dag[h]?.map Block.headerOnly := by
  induction hs with
  | nil => rfl
  | cons h hs ih =>
      obtain ⟨b, hb⟩ := DagInv.exists_block (c.mainChain_mem (hsub h (List.mem_cons_self ..)))
      rw [List.filterMap_cons, List.map_cons, hb, Option.map_some, List.map_cons,
        ih fun x hx => hsub x (List.mem_cons_of_mem h hx)]

omit [Crypto] in
/-- A position of the window is a position of the main chain. -/
theorem getElem?_window {start count i : Nat} {h : Hash} {hs : List Hash}
    (hpre : hs <+: (n.chain.mainChain.drop start).take count) (hi : hs[i]? = some h) :
    n.chain.mainChain[start + i]? = some h := by
  obtain ⟨hlt, rfl⟩ := List.getElem?_eq_some_iff.mp hi
  have hin := List.prefix_iff_getElem?.mp (hpre.trans (List.take_prefix _ _)) i hlt
  rwa [List.getElem?_drop] at hin

omit [Crypto] in
theorem locatorStart_lt (c : n.chain.Charted) (locator : List Hash) :
    n.locatorStart locator < n.chain.mainChain.length := by
  unfold locatorStart
  split
  · rename_i h hfind
    have hon : n.chain.mainChain.contains h = true := List.find?_some hfind
    exact List.idxOf_lt_length_iff.mpr (List.contains_iff_mem.mp hon)
  · exact List.length_pos_of_ne_nil c.mainChain_ne

/-- **The answer to a request for headers** is what it should be exactly when the first
known hash of the locator is on the main chain and the stop hash can stop the walk. -/
theorem servesHeaders_iff (c : n.chain.Charted) {locator : List Hash} (hlen : locator.length ≤ maxLocatorHashes)
    (stopHash : Hash) (limit : Nat) : n.ServesHeaders locator stopHash limit ↔
      n.KnownOnChain locator ∧ n.StopsAtHash locator stopHash limit := by
  have hanswer : n.answer (.getHeaders locator stopHash limit) =
      if (n.servedHeaders locator stopHash limit).isEmpty then none
      else some (.headers (n.servedHeaders locator stopHash limit)) := rfl
  by_cases hknown : n.KnownOnChain locator
  swap
  · -- nothing is sent
    rw [servedHeaders_eq, segment_of_unknown hlen hknown] at hanswer
    constructor
    · rintro ⟨reply, hreply, -⟩
      rw [hanswer] at hreply
      cases hreply
    · exact fun h => absurd h.1 hknown
  have hsegment := segment_of_known c hlen hknown stopHash limit
  obtain ⟨hpre, hne, hall, hstop⟩ :=
    upTo_spec stopHash ((n.chain.mainChain.drop (n.locatorStart locator)).take (headerLimit limit))
  have hserved : (n.servedHeaders locator stopHash limit).map some
      = (n.segment locator stopHash limit).map fun h => n.chain.dag[h]?.map Block.headerOnly := by
    rw [servedHeaders_eq]
    exact map_some_served c fun h hh => (segment_sublist n locator stopHash limit).subset hh
  have hlength : (n.servedHeaders locator stopHash limit).length = (n.segment locator stopHash limit).length := by
    simpa using congrArg List.length hserved
  rw [hsegment] at hserved hlength
  generalize hwalk : segment.upTo stopHash _ = walk at *
  have hget : ∀ i h, walk[i]? = some h → n.chain.mainChain[n.locatorStart locator + i]? = some h :=
    fun i h hi => getElem?_window hpre hi
  have hwindow : (n.chain.mainChain.drop (n.locatorStart locator)).take (headerLimit limit) ≠ [] := by
    have hlt := locatorStart_lt c locator
    have hpos : 0 < headerLimit limit := by
      unfold headerLimit maxHeadersPerMsg
      omega
    rw [← List.length_pos_iff, List.length_take, List.length_drop]
    omega
  constructor
  · rintro ⟨reply, hreply, hfrom⟩
    refine ⟨hknown, fun hzero hmem => ?_⟩
    rw [hanswer] at hreply
    split at hreply
    · cases hreply
    · obtain rfl := Message.headers.inj (Option.some.inj hreply)
      -- without a stop the whole window is served, past the block with the zero hash
      rw [← hall hzero] at hmem
      obtain ⟨i, hi, hat⟩ := List.getElem_of_mem hmem
      rw [List.length_dropLast] at hi
      rw [List.getElem_dropLast] at hat
      have hend := hfrom.stops i (by omega) (by rw [hget i _ (List.getElem?_eq_getElem (by omega)), hat, hzero])
      omega
  · rintro ⟨-, hzero⟩
    have hnonempty : n.servedHeaders locator stopHash limit ≠ [] := by
      rw [← List.length_pos_iff, hlength, List.length_pos_iff]
      exact hne hwindow
    refine ⟨_, hanswer.trans (if_neg (by simpa using hnonempty)), hnonempty, ?_, fun i b hb => ?_, fun i hi hat => ?_⟩
    · rw [hlength]
      exact hpre.length_le.trans (List.length_take_le _ _)
    · have hb' := congrArg (·[i]?) hserved
      simp only [List.getElem?_map, hb, Option.map_some] at hb'
      obtain ⟨h, hh, hblock⟩ := Option.map_eq_some_iff.mp hb'.symm
      obtain ⟨c, hc, hcopy⟩ := Option.map_eq_some_iff.mp hblock
      exact ⟨h, c, hget i h hh, hc, hcopy.symm⟩
    · by_contra hmore
      rw [hlength] at hi hmore
      have hstopped : walk[i] = stopHash :=
        Option.some.inj ((hget i _ (List.getElem?_eq_getElem hi)).symm.trans hat)
      have hlast : i < walk.dropLast.length := by
        rw [List.length_dropLast]
        omega
      have hmem : stopHash ∈ walk.dropLast := by
        rw [← hstopped, ← List.getElem_dropLast hlast]
        exact List.getElem_mem hlast
      by_cases hz : stopHash = Hash.zero
      · rw [hall hz, hz] at hmem
        exact hzero hz hmem
      · exact hstop hz hmem

/-- **Header sync.** In every state that a node reaches from genesis, whatever it mines,
hears, prunes or imports, a request with any locator that is not too long, any stop
hash and any limit is answered with the main chain's headers from the locator on,
exactly when the first hash of the locator that the node knows is on its main chain
(or it knows none), and the stop hash can stop the walk. -/
theorem headers_served_iff_on_chain (easy archival : Bool) (seed : Ledger) (cs : List Change) (locator : List Hash)
    (hlen : locator.length ≤ maxLocatorHashes) (stopHash : Hash) (limit : Nat) :
    let n := changes { chain := ChainState.seeded easy archival seed } cs
    n.ServesHeaders locator stopHash limit ↔
      n.KnownOnChain locator ∧ n.StopsAtHash locator stopHash limit :=
  servesHeaders_iff (charted_changes easy archival seed cs) hlen stopHash limit

end Node

namespace Sample

open Node (Change)

/-- With two blocks on genesis, one of them is off the main chain. -/
theorem exists_side (st : ChainState) {calls : List (Env × Block)} (hst : st = (ChainState.seeded false true {}).run calls)
    (f : Followed true [[0], [0]] st) : genesisBlock.hash ∈ st.mainChain ∧ ∃ h ∈ st.dag, h ∉ st.mainChain := by
  have inv := ChainState.Archival.run false {} calls
  rw [← hst] at inv
  obtain ⟨tip, htip⟩ := inv.whole.consistent.selected
  have hfirst : st.ghostdag.spOf (blockHash (0 + 1) 0) = some (blockHash 0 0) := f.spOf_only rfl
  have hsecond : st.ghostdag.spOf (blockHash (1 + 1) 0) = some (blockHash 0 0) := f.spOf_only rfl
  have hchain := inv.mainChain htip
  have hroot := GhostdagMap.selectedChain_root f.spOf_genesis
  have hstep := fun {h p : Hash} => @GhostdagMap.selectedChain_step st.ghostdag inv.whole.consistent.descends h p
  have hne : ∀ {i j : Nat}, i < 3 → j < 3 → i ≠ j → blockHash i 0 ≠ blockHash j 0 :=
    fun hi hj hij => blockHash_ne (by omega) (by omega) hij
  obtain ⟨i, hi, rfl⟩ := (f.numbered.mem _).mp (inv.whole.consistent.tip_mem htip)
  rw [genesis_hash]
  have hoff : ∀ {i j : Nat}, i < 3 → j < 3 → i ≠ j → i ≠ 0 → blockHash i 0 ∉ [blockHash 0 0] ++ [blockHash j 0] := by
    intro i j hi hj hij hzero hmem
    rw [List.singleton_append, List.mem_pair] at hmem
    exact hmem.elim (hne hi (by omega) hzero) (hne hi hj hij)
  rcases (by have := hi; simp only [List.length_cons, List.length_nil] at this; omega : i = 0 ∨ i = 1 ∨ i = 2) with
    rfl | rfl | rfl
  · rw [hchain, hroot]
    exact ⟨List.mem_singleton.mpr rfl, blockHash 1 0, f.mem (by decide), fun hmem =>
      hne (by decide) (by decide) (by decide) (List.mem_singleton.mp hmem)⟩
  · rw [hchain, hstep hfirst, hroot]
    exact ⟨List.mem_cons_self .., blockHash 2 0, f.mem (by decide), hoff (by decide) (by decide) (by decide) (by decide)⟩
  · rw [hchain, hstep hsecond, hroot]
    exact ⟨List.mem_cons_self .., blockHash 1 0, f.mem (by decide), hoff (by decide) (by decide) (by decide) (by decide)⟩

/-- **A node on a side branch is not answered**: the first hash of its locator is known
and off the main chain, and the common block after it in the locator is never reached. -/
theorem side_locator_unanswered : ∃ (cs : List Change) (locator : List Hash) (stopHash : Hash) (limit : Nat),
    let n := Node.changes { chain := ChainState.seeded false true {} } cs
    locator.length ≤ maxLocatorHashes ∧ stopHash ≠ Hash.zero ∧ (∃ h ∈ locator, h ∈ n.chain.mainChain) ∧
      ¬ n.ServesHeaders locator stopHash limit := by
  obtain ⟨calls, hcalls⟩ := built_run true [[0], [0]]
  have f : Followed true [[0], [0]] ((ChainState.seeded false true {}).run calls) :=
    hcalls ▸ followed true (by decide) (planned_of_short (by decide) (by decide))
  obtain ⟨hgenesis, side, hmem, hoff⟩ := exists_side _ rfl f
  have hn := Node.changes_mined { chain := ChainState.seeded false true {} } calls
  have c := Node.charted_changes false true {} (calls.map fun call => .fed (.mined call.1 call.2))
  have hzero : blockHash 0 0 = Hash.zero := by decide
  refine ⟨calls.map fun call => .fed (.mined call.1 call.2), [side, genesisBlock.hash], blockHash 5 0, 10, ?_⟩
  intro n
  have hstop : blockHash 5 0 ≠ Hash.zero := hzero ▸ blockHash_ne (by decide) (by decide) (by decide)
  have hlen : [side, genesisBlock.hash].length ≤ maxLocatorHashes := Nat.le_of_ble_eq_true rfl
  refine ⟨hlen, hstop, ⟨genesisBlock.hash, by simp, ?_⟩, fun hserves => hoff ?_⟩
  · rw [show n = _ from hn]
    exact hgenesis
  · have hknown := ((Node.servesHeaders_iff c hlen _ _).mp hserves).1
    rw [hn] at hknown
    exact hknown side (List.find?_cons_of_pos (ExtTreeMap.contains_iff_mem.mpr hmem))

/-- A node with one block is answered from genesis on. -/
theorem genesis_locator_answered : ∃ (cs : List Change) (locator : List Hash) (stopHash : Hash) (limit : Nat),
    locator.length ≤ maxLocatorHashes ∧
      (Node.changes { chain := ChainState.seeded false true {} } cs).ServesHeaders locator stopHash limit := by
  have hzero : blockHash 0 0 = Hash.zero := by decide
  have hstop : blockHash 1 0 ≠ Hash.zero := hzero ▸ blockHash_ne (by decide) (by decide) (by decide)
  refine ⟨oneMined, [blockHash 0 0], blockHash 1 0, 10, by decide,
    (Node.headers_served_iff_on_chain false true {} oneMined [blockHash 0 0] (by decide) (blockHash 1 0) 10).mpr
      ⟨?_, fun h => absurd h hstop⟩⟩
  rw [changes_oneMined]
  intro h hfind
  have hmem := List.mem_of_find?_eq_some hfind
  rw [List.mem_singleton.mp hmem, mainChain_one]
  exact List.mem_cons_self ..

end Sample

end HassanNode
