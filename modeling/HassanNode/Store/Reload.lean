import Mathlib
import HassanNode.Consensus.BodyPruning
import HassanNode.Consensus.OracleRuns
import HassanNode.Consensus.SupplyRuns
import HassanNode.Store.Snapshot

/-!
# HassanNode.Store.Reload

An archival node that is written and loaded again. The index is built anew from the
blocks in a topological order, and comes out exact (`Rebuilding.concat`, one block, and
`rebuilt_index`); the live ledger is replayed from the base. From then on the loaded node
and the one that was never stopped accept the same blocks and stay alike
(`reloaded_node_agrees`).
-/

namespace HassanNode

open Std (ExtTreeMap)
open Params Bincode

/-! ### The frame -/

section Frame

variable [Crypto]

/-- A written frame is read back. -/
theorem unframe_frame {payload : Bytes} (hsize : payload.length ≤ maxChainstateBytes) :
    unframe (frame payload) = .ok payload := by
  have hmagic : stateMagic.length = 8 := by decide +kernel
  have hversion : Bytes.toNatLE (u32 stateFormatVersion) = stateFormatVersion := by decide +kernel
  generalize hbody : stateMagic ++ u32 stateFormatVersion ++ payload = body
  have hframe : frame payload = body ++ integrityTag body := by rw [← hbody]; rfl
  have htag : (integrityTag body).length = stateChecksumLen := Hash.length_asBytes _
  have hwidth : (stateMagic ++ u32 stateFormatVersion).length = 12 := by simp [hmagic]
  have hlen : body.length = 12 + payload.length := by rw [← hbody, List.length_append, hwidth]
  have hall : (frame payload).length = body.length + stateChecksumLen := by rw [hframe, List.length_append, htag]
  have hfirst : (frame payload).take 8 = stateMagic := by
    rw [hframe, ← hbody, List.append_assoc, List.append_assoc, ← hmagic, List.take_left]
  have hsecond : ((frame payload).drop 8).take 4 = u32 stateFormatVersion := by
    rw [hframe, ← hbody, List.append_assoc, List.append_assoc, ← hmagic, List.drop_left,
      ← length_u32 stateFormatVersion, List.take_left]
  have hsplit : (frame payload).length - stateChecksumLen = body.length := by omega
  have hpayload : body.drop 12 = payload := by rw [← hbody, ← hwidth, List.drop_left]
  have hbefore : (frame payload).take body.length = body := by rw [hframe, List.take_left]
  have hafter : (frame payload).drop body.length = integrityTag body := by rw [hframe, List.drop_left]
  have henough : 12 + stateChecksumLen ≤ (frame payload).length := by omega
  have hstart : 12 ≤ (frame payload).length := by omega
  simp only [unframe, hfirst, hsecond, hversion, hsplit, hbefore, hafter, hpayload, hsize, henough, hstart, ensure,
    beq_self_eq_true, decide_true, Bool.and_self, if_true]
  rfl

end Frame

namespace ChainState

variable [Crypto] {st : ChainState} {env : Env} {seed : Ledger}

/-! ### The index -/

/-- The index while it is being built: exact on the blocks listed so far, with all links
among them. -/
structure Rebuilding (st : ChainState) (listed : List Hash) (r : Reachability) : Prop where
  covers : r.Covers fun a b => b ∈ listed ∧ Past st.dag a b
  mem : ∀ h, h ∈ r.nodes ↔ h ∈ listed
  tree : ∀ h ∈ listed, r.parentOf h = st.ghostdag.spOf h

namespace Rebuilding

variable {listed : List Hash} {r : Reachability} {h : Hash}

omit [Crypto] in
theorem new (st : ChainState) : Rebuilding st [] .new := by
  refine ⟨Indexing.Inv.empty.covers.congr fun x y hx _ => ?_, fun h => ?_, fun h hh => ?_⟩
  · simp [Reachability.new] at hx
  · simp [Reachability.new]
  · cases hh

/-- **Step.** A block whose parents are listed. -/
theorem concat (b : Rebuilding st listed r) (inv : DagInv st.dag st.ghostdag)
    (hclosed : ∀ x ∈ listed, ∀ p ∈ st.dag.parentsOf x, p ∈ listed) (hh : h ∈ st.dag) (hnew : h ∉ listed)
    (hparents : ∀ p ∈ st.dag.parentsOf h, p ∈ listed) :
    Rebuilding st (listed ++ [h]) (st.indexBlock env r h) := by
  have hpast : ∀ {a x}, x ∈ listed → Past st.dag a x → a ∈ listed := fun hx hax => Past.mem_of_closed hclosed hx hax
  obtain ⟨d, hd⟩ := Option.isSome_iff_exists.mp (ExtTreeMap.mem_iff_isSome_getElem?.mp ((inv.known h).mpr hh))
  have hsp : d.selectedParent = st.ghostdag.spOf h := by rw [GhostdagMap.spOf, hd, Option.bind_some]
  have hmerged : d.merged = st.ghostdag.mergedOf h := by rw [GhostdagMap.mergedOf, hd, Option.map_some, Option.getD_some]
  have hout : h ∉ r.nodes := fun hin => hnew ((b.mem h).mp hin)
  -- the selected parent is listed, so the tree parent is the selected parent
  have htree : r.treeParentOf (st.ghostdag.spOf h) = st.ghostdag.spOf h := by
    cases hp : st.ghostdag.spOf h with
    | none => rfl
    | some p => simp [Reachability.treeParentOf, b.mem, hparents p (inv.spOf_parent hp)]
  have hadded := Reachability.addBlock_added b.covers.wf hout env.iter_perm (st.ghostdag.spOf h) (st.ghostdag.mergedOf h)
  rw [htree] at hadded
  have hblock : st.indexBlock env r h = r.addBlock env.iter h (st.ghostdag.spOf h) (st.ghostdag.mergedOf h) := by
    rw [indexBlock, hd, ← hsp, ← hmerged]
  rw [hblock]
  refine ⟨?_, fun k => ?_, fun k hk => ?_⟩
  · have hcovers : r.Covers fun a x => x ∈ listed ++ [h] ∧ Past st.dag a x :=
      b.covers.congr fun x y _ hy => and_congr_left fun _ => by simp [(b.mem y).mp hy]
    refine hcovers.addBlock hout env.iter_perm (fun p hp => ?_) (fun a ha hanc => ?_) (fun m hm _ => ?_) (fun x hx => ?_)
      fun x hx => inv.past_irrefl x hx.2
    · rw [htree] at hp
      exact ⟨by simp, .parent (inv.spOf_parent hp)⟩
    · rw [htree]
      cases hp : st.ghostdag.spOf h with
      | none =>
          obtain ⟨p, hparent, -⟩ := hanc.2.cases_parent
          rw [inv.parentsOf_of_root hh hp] at hparent
          cases hparent
      | some p =>
          by_cases hbelow : a = p ∨ Past st.dag a p
          · refine Or.inl ⟨p, rfl, hbelow.imp id fun hap => ⟨?_, hap⟩⟩
            exact List.mem_append_left _ (hparents p (inv.spOf_parent hp))
          · exact Or.inr ((inv.mem_mergedOf hp).mpr ⟨hanc.2, hbelow⟩)
    · cases hp : st.ghostdag.spOf h with
      | none =>
          rw [inv.mergedOf_root hh hp] at hm
          cases hm
      | some p => exact ⟨by simp, ((inv.mem_mergedOf hp).mp hm).1⟩
    · -- the listed blocks have their past among them
      rcases List.mem_append.mp hx.1 with hlisted | hself
      · exact hnew (hpast hlisted hx.2)
      · rw [List.mem_singleton] at hself
        exact inv.past_irrefl h (hself ▸ hx.2)
  · rw [hadded.mem, b.mem, List.mem_append, List.mem_singleton, or_comm]
  · rcases List.mem_append.mp hk with hlisted | hself
    · rw [hadded.parent_old k fun heq => hnew (heq ▸ hlisted), b.tree k hlisted]
    · rw [List.mem_singleton.mp hself, hadded.parent_new]

/-- **Run.** -/
theorem foldl (inv : DagInv st.dag st.ghostdag) {order : List Hash} (hnodup : order.Nodup)
    (hmem : ∀ h ∈ order, h ∈ st.dag) (hfirst : Postorder.ParentsFirst st.dag.parentsOf order) :
    Rebuilding st order (order.foldl (st.indexBlock env) .new) := by
  induction order using List.reverseRecOn with
  | nil => exact .new st
  | append_singleton order h ih =>
      have hpre : Postorder.ParentsFirst st.dag.parentsOf order := fun earlier n later heq =>
        hfirst earlier n (later ++ [h]) (by rw [heq, List.append_assoc, List.cons_append])
      have b := ih (List.nodup_append.mp hnodup).1 (fun x hx => hmem x (List.mem_append_left _ hx)) hpre
      rw [List.foldl_append, List.foldl_cons, List.foldl_nil]
      refine b.concat inv (fun x hx p hp => ?_) (hmem h (by simp)) (fun hin => ?_) (hfirst order h [] rfl)
      · obtain ⟨earlier, later, rfl⟩ := List.append_of_mem hx
        exact List.mem_append_left _ (hpre earlier x later rfl p hp)
      · exact (List.nodup_append.mp hnodup).2.2 h hin h (by simp) rfl

end Rebuilding

/-- The index that `rebuild_derived` builds. -/
theorem rebuilt_index (st : ChainState) (env : Env) (inv : DagInv st.dag st.ghostdag) :
    (st.rebuildDerived env).reachability.Covers (Past st.dag) ∧
      (∀ h, h ∈ (st.rebuildDerived env).reachability.nodes ↔ h ∈ st.dag) ∧
      ∀ h ∈ st.dag, (st.rebuildDerived env).reachability.parentOf h = st.ghostdag.spOf h := by
  obtain ⟨order, horder, hperm, hfirst⟩ := topologicalOrder_spec inv.past_irrefl env
  have hlisted : ∀ h, h ∈ order ↔ h ∈ st.dag := fun h => by rw [hperm.mem_iff, ExtTreeMap.mem_keys]
  have hparents : Postorder.ParentsFirst st.dag.parentsOf order := by
    intro earlier n later heq p hp
    refine hfirst earlier n later heq p (List.mem_filter.mpr ⟨hp, ?_⟩)
    exact ExtTreeMap.contains_iff_mem.mpr (inv.closed_parentsOf ((hlisted n).mp (by simp [heq])) p hp)
  have hindex : (st.rebuildDerived env).reachability = order.foldl (st.indexBlock env) .new := by
    rw [rebuildDerived, horder]
    rfl
  have b : Rebuilding st order (order.foldl (st.indexBlock env) .new) :=
    .foldl inv (hperm.nodup_iff.mpr ExtTreeMap.nodup_keys) (fun h hh => (hlisted h).mp hh) hparents
  rw [hindex]
  refine ⟨b.covers.congr fun x y _ hy => ?_, fun h => by rw [b.mem, hlisted], fun h hh => b.tree h ((hlisted h).mpr hh)⟩
  exact and_iff_right ((b.mem y).mp hy)

/-! ### The loaded node -/

theorem Whole.reindexed {st' : ChainState} (w : st.Whole) (hdag : st'.dag = st.dag) (hdata : st'.ghostdag = st.ghostdag)
    (htips : st'.tips = st.tips) (hcovers : st'.reachability.Covers (Past st.dag))
    (hnodes : ∀ h, h ∈ st'.reachability.nodes ↔ h ∈ st.dag)
    (htree : ∀ h ∈ st.dag, st'.reachability.parentOf h = st.ghostdag.spOf h) : st'.Whole := by
  have htip : st'.selectedTip = st.selectedTip := by rw [selectedTip, selectedTip, hdata, htips]
  refine ⟨?_, ?_, fun h hh => ?_, fun h p hp => ?_, fun h => ?_, fun h hh hroot => ?_, ?_⟩
  · rw [hdag, hdata]
    exact w.dagInv
  · rw [hdag]
    exact hcovers
  · rw [hdag]
    exact (hnodes h).mp hh
  · have hh : h ∈ st'.reachability.nodes := by
      by_contra hout
      simp [Reachability.parentOf, Reachability.node, hout] at hp
    rw [hdata, ← htree h ((hnodes h).mp hh)]
    exact hp
  · rw [htips, hdag]
    exact w.tips h
  · rw [hdag] at hh
    rw [hdata] at hroot
    exact w.roots h hh hroot
  · rw [htip]
    exact w.selected

/-- The loaded node has the invariant of the one that was written. -/
theorem Archival.reloaded (inv : Archival seed st) (hcaptured : st.baseCaptured = true) :
    Archival seed (st.persisted.rebuildDerived env).restarted := by
  obtain ⟨hcovers, hnodes, htree⟩ := rebuilt_index st.persisted env inv.whole.dagInv
  have hbase : st.base = st.fold seed st.frontierOrder := by
    have h := inv.base
    rwa [simBase, hcaptured, if_pos rfl] at h
  have w : (st.persisted.rebuildDerived env).Whole := inv.whole.reindexed rfl rfl rfl hcovers hnodes htree
  refine ⟨rfl, inv.whole.reindexed rfl rfl rfl hcovers hnodes htree, fun h hh => (hnodes h).mpr hh,
    fun {tip} htip => inv.mainChain htip, inv.frontier, hbase, fun {tip} htip => ?_⟩
  have hlive : (st.persisted.rebuildDerived env).live = (st.persisted.rebuildDerived env).recomputeVirtualState.live := rfl
  show (st.persisted.rebuildDerived env).live = _
  rw [hlive, recomputeVirtualState_live w htip hbase]
  · rfl
  · -- the frontier is the finality point, and on the chain of the tip
    intro f hf
    obtain ⟨tip', htip', -, hlast⟩ := finalityPoint_spec inv.whole.dagInv.descends inv.whole.linked_ghostdag
      (inv.frontier.symm.trans hf)
    obtain rfl := Option.some.inj (htip.symm.trans htip')
    exact hlast.above

theorem Archival.alike_reloaded (inv : Archival seed st) (hcaptured : st.baseCaptured = true) :
    st.Alike (st.persisted.rebuildDerived env).restarted := by
  obtain ⟨tip, htip⟩ := inv.whole.selected
  have hlive : (st.persisted.rebuildDerived env).restarted.live = st.live :=
    ((inv.reloaded hcaptured).live htip).trans (inv.live htip).symm
  exact ⟨fun _ => rfl, rfl, rfl, rfl, hlive, rfl, hcaptured.symm, rfl, rfl⟩

/-! ### Two processes -/

/-- An archival node and the one that was loaded in its place. -/
structure Reloaded (seed : Ledger) (A R : ChainState) : Prop where
  alike : A.Alike R
  dag : R.dag = A.dag
  kept : Archival seed A
  loaded : Archival seed R
  links : A.LinksIndexed
  links' : R.LinksIndexed

namespace Reloaded

variable {A R : ChainState} {d : PairedCall} {gd : GhostdagData} {sp : Hash}

theorem paired (r : Reloaded seed A R) : Paired A R :=
  ⟨r.alike, fun h => Or.inl (by rw [r.dag]), r.loaded.whole, r.links', fun h hh hout => absurd (r.loaded.full h hh) hout⟩

/-- No block needs what is not there: everything is. -/
theorem spared (r : Reloaded seed A R) (d : PairedCall) : Spared A R d := by
  refine ⟨fun sp hsp => ?_, fun _ _ _ => by rw [r.dag], fun _ _ _ _ _ _ _ => by rw [r.dag]⟩
  exact r.loaded.full sp ((r.loaded.whole.dagInv.known sp).mp (GhostdagMap.selectBest_eq_some.mp hsp).known)

theorem admitted_iff (r : Reloaded seed A R) (d : PairedCall) :
    A.Admitted d.onFirst.1 d.block gd sp ↔ R.Admitted d.onSecond.1 d.block gd sp :=
  r.paired.admitted_iff r.kept r.links (r.spared d)

/-- **Step.** -/
theorem accept (r : Reloaded seed A R) (a : A.Admitted d.onFirst.1 d.block gd sp)
    (a' : R.Admitted d.onSecond.1 d.block gd sp) :
    Reloaded seed (A.accept d.onFirst.1 d.block gd) (R.accept d.onSecond.1 d.block gd) := by
  have hsp : sp ∈ A.reachability.nodes := r.kept.full sp (a.parents_mem sp a.isBest.mem)
  have hsp' : sp ∈ R.reachability.nodes := r.loaded.full sp (a'.parents_mem sp a'.isBest.mem)
  have hcore := A.acceptFull_core d.onFirst.1 d.block gd
  have hcore' := R.acceptFull_core d.onSecond.1 d.block gd
  have hkeyed : (A.inserted d.onFirst.1 d.block gd).Keyed :=
    ((r.kept.whole.insertBlock a hsp).of_core (A.inserted_core d.onFirst.1 d.block gd)).keyed
  have hlinks := r.kept.whole.linksIndexed_insertBlock a hsp r.links
  have hlinks' := r.loaded.whole.linksIndexed_insertBlock a' hsp' r.links'
  have inv := r.kept.accept a
  have inv' := r.loaded.accept a'
  rw [accept_archival A _ _ _ r.kept.archival] at inv ⊢
  rw [accept_archival R _ _ _ r.loaded.archival] at inv' ⊢
  refine ⟨r.alike.acceptFull rfl hkeyed fun h hh => r.paired.replaysAlike_inserted (r.spared d) a' hh, ?_, inv, inv', ?_, ?_⟩
  · rw [hcore.dag, hcore'.dag, insertBlock, insertBlock, r.dag]
  · intro h p hh hp
    rw [hcore.reachability] at hh ⊢
    rw [hcore.ghostdag] at hp
    exact hlinks h p hh hp
  · intro h p hh hp
    rw [hcore'.reachability] at hh ⊢
    rw [hcore'.ghostdag] at hp
    exact hlinks' h p hh hp

/-- **Run.** -/
theorem run (r : Reloaded seed A R) (ds : List PairedCall) :
    Reloaded seed (A.run (ds.map PairedCall.onFirst)) (R.run (ds.map PairedCall.onSecond)) := by
  induction ds generalizing A R with
  | nil => exact r
  | cons d ds ih =>
      refine ih ?_
      rcases A.step_cases d.onFirst with hrefused | ⟨gd, sp, a, haccepted⟩
      · rcases R.step_cases d.onSecond with hrefused' | ⟨gd, sp, a', haccepted'⟩
        · rw [hrefused, hrefused']
          exact r
        · have a := (r.admitted_iff d).mpr a'
          have haccepted : A.step d.onFirst = A.accept d.onFirst.1 d.block gd := a.step
          rw [haccepted, haccepted']
          exact r.accept a a'
      · have a' := (r.admitted_iff d).mp a
        have haccepted' : R.step d.onSecond = R.accept d.onSecond.1 d.block gd := a'.step
        rw [haccepted, haccepted']
        exact r.accept a a'

theorem takes_iff (r : Reloaded seed A R) (d : PairedCall) : Takes A d.onFirst ↔ Takes R d.onSecond := by
  constructor
  · rintro ⟨A', hok⟩
    obtain ⟨gd, sp, a, -⟩ := addBlock_eq_ok.mp hok
    exact ⟨_, addBlock_eq_ok.mpr ⟨gd, sp, (r.admitted_iff d).mp a, rfl⟩⟩
  · rintro ⟨R', hok⟩
    obtain ⟨gd, sp, a', -⟩ := addBlock_eq_ok.mp hok
    exact ⟨_, addBlock_eq_ok.mpr ⟨gd, sp, (r.admitted_iff d).mpr a', rfl⟩⟩

end Reloaded

/-- A loaded archival node is one that was never stopped. -/
theorem reloaded_run (env : Env) (easy : Bool) (calls : List (Env × Block))
    (hcaptured : ((seeded easy true seed).run calls).baseCaptured = true) :
    Reloaded seed ((seeded easy true seed).run calls)
      (((seeded easy true seed).run calls).persisted.rebuildDerived env).restarted := by
  have inv : Archival seed ((seeded easy true seed).run calls) := .run easy seed calls
  obtain ⟨-, -, htree⟩ := rebuilt_index ((seeded easy true seed).run calls).persisted env inv.whole.dagInv
  refine ⟨inv.alike_reloaded hcaptured, rfl, inv, inv.reloaded hcaptured, fun _ _ _ hp => archival_parentOf easy seed calls hp,
    fun h p _ hp => ?_⟩
  exact (htree h (inv.whole.dagInv.spOf_mem hp).1).trans hp

/-! ### The checks of `load_one` -/

theorem replay_mintedSupply_le {l : Ledger} (chainId : Nat) (bs : List (Block × Nat)) (hcap : l.mintedSupply ≤ maxSupply) :
    (l.replay chainId bs).mintedSupply ≤ maxSupply := by
  induction bs generalizing l with
  | nil => exact hcap
  | cons b bs ih =>
      refine ih ?_
      show (l.applyBlockEffects chainId 0 (some b.2) b.1).mintedSupply ≤ maxSupply
      by_cases hroot : b.1.parents = []
      · rw [Ledger.applyBlockEffects, if_pos hroot]
        exact hcap
      · rw [Ledger.mintedSupply_applyBlockEffects _ _ _ _ hroot hcap]
        exact Nat.min_le_right _ _

omit [Crypto] in
theorem nodup_selectedChain {gd : GhostdagMap} (hd : gd.Descends) (h : Hash) : (gd.selectedChain h).Nodup := by
  induction h using GhostdagMap.chain_induction hd with
  | root h hsp =>
      rw [GhostdagMap.selectedChain_root hsp]
      exact List.nodup_singleton h
  | step h p hsp ih =>
      rw [GhostdagMap.selectedChain_step hd hsp]
      refine List.nodup_append.mpr ⟨ih, List.nodup_singleton h, fun a ha b hb => ?_⟩
      rw [List.mem_singleton.mp hb]
      intro heq
      have hlt := hd.spOf_lt hsp
      have hle := hd.score_le ((GhostdagMap.mem_selectedChain hd).mp (heq ▸ ha))
      omega

/-- An archival node with a sound ledger passes the checks on what it has written. -/
theorem validateHardcodedChain_run (easy : Bool) (calls : List (Env × Block)) (hcap : seed.mintedSupply ≤ maxSupply) :
    ((seeded easy true seed).run calls).persisted.validateHardcodedChain = .ok () := by
  have inv : Archival seed ((seeded easy true seed).run calls) := .run easy seed calls
  have hchain : ((seeded easy true seed).run calls).persisted.chainId = Params.chainId := archival_chainId easy seed calls
  have hgenesis : ((seeded easy true seed).run calls).persisted.dag[genesisBlock.hash]? = some genesisBlock :=
    (archival_genesis easy seed calls).1
  obtain ⟨tip, htip⟩ := inv.whole.selected
  have hmain : ((seeded easy true seed).run calls).persisted.mainChain
      = ((seeded easy true seed).run calls).ghostdag.selectedChain tip := inv.mainChain htip
  have hnodup := nodup_selectedChain inv.whole.dagInv.descends tip
  have hin : ∀ h ∈ ((seeded easy true seed).run calls).ghostdag.selectedChain tip,
      h ∈ ((seeded easy true seed).run calls).dag := fun h hh =>
    inv.whole.dagInv.above_mem ((GhostdagMap.mem_selectedChain inv.whole.dagInv.descends).mp hh) (inv.whole.tip_mem htip)
  have hlen : ((seeded easy true seed).run calls).persisted.mainChain.length
      ≤ ((seeded easy true seed).run calls).persisted.dag.size := by
    rw [hmain, ← ExtTreeMap.length_keys]
    exact (hnodup.subperm fun h hh => ExtTreeMap.mem_keys.mpr (hin h hh)).length_le
  have hminted : ((seeded easy true seed).run calls).persisted.live.mintedSupply ≤ maxSupply := by
    show ((seeded easy true seed).run calls).live.mintedSupply ≤ maxSupply
    rw [inv.live htip, fold]
    exact replay_mintedSupply_le _ _ hcap
  have hall : ((seeded easy true seed).run calls).persisted.mainChain.all
      ((seeded easy true seed).run calls).persisted.dag.contains = true := by
    rw [hmain, List.all_eq_true]
    exact fun h hh => ExtTreeMap.contains_iff_mem.mpr (hin h hh)
  have hroot : (genesisBlock.height == 0 && genesisBlock.parents.isEmpty) = true := by decide
  have hwork : (genesisBlock.difficulty == genesisDifficulty) = true := by decide
  rw [validateHardcodedChain, hgenesis]
  simp only [hchain, hall, hminted, hroot, hwork, hlen, ensure, beq_self_eq_true, decide_true, if_true]
  rfl

/-- `load_one` on what `save_to` wrote. -/
theorem loadOne_snapshot {codec : StateCodec} {bytes : Bytes}
    (hround : codec.deserialize (codec.serialize st) = .ok st.persisted) (hbytes : st.snapshot codec = .ok bytes)
    (hchain : st.persisted.validateHardcodedChain = .ok ()) (hsupply : st.supplyInvariantOk = true) :
    loadOne codec env bytes = .ok (st.persisted.rebuildDerived env) := by
  have hsupply' : st.persisted.supplyInvariantOk = true := hsupply
  rw [snapshot] at hbytes
  split at hbytes
  · cases hbytes
  · rename_i hsize
    obtain rfl := Except.ok.inj hbytes
    rw [loadOne, unframe_frame (Nat.le_of_not_lt hsize)]
    show (do
      let st ← (codec.deserialize (codec.serialize st)).mapError ("deserialize state: " ++ ·)
      st.validateHardcodedChain
      ensure st.supplyInvariantOk "corrupt chainstate: supply invariant failed"
      return st.rebuildDerived env) = _
    rw [hround]
    show (do
      st.persisted.validateHardcodedChain
      ensure st.persisted.supplyInvariantOk "corrupt chainstate: supply invariant failed"
      return st.persisted.rebuildDerived env) = _
    rw [hchain, hsupply']
    rfl

theorem snapshot_eq {codec : StateCodec} (hsize : (codec.serialize st).length ≤ maxChainstateBytes) :
    st.snapshot codec = .ok (frame (codec.serialize st)) := if_neg (Nat.not_lt.mpr hsize)

/-- The first accepted block captures the base. -/
theorem baseCaptured_accept (inv : Archival seed st) {block : Block} {gd : GhostdagData} {sp : Hash}
    (a : st.Admitted env block gd sp) : (st.accept env block gd).baseCaptured = true := by
  obtain ⟨-, -, hcaptured, -, -⟩ := st.acceptFull_ledger env block gd
  obtain ⟨-, -, hinserted, -⟩ := inserted_value st env block gd
  rw [accept_archival st env block gd inv.archival, hcaptured, (inv.advanced a).captured, hinserted]

end ChainState

namespace Sample

theorem First.supplyInvariantOk {call : Env × Block} (f : First call.2 ((ChainState.seeded false true {}).run [call])) :
    ((ChainState.seeded false true {}).run [call]).supplyInvariantOk = true := by
  have hids : (ChainState.seeded false true {}).SpentIdsDistinct [call] := by
    refine spentIdsDistinct_of_empty fun b hb => ?_
    rcases (f.block _ b).mp hb.held with ⟨-, rfl⟩ | ⟨-, rfl⟩
    · rfl
    · exact f.mined.body
  exact (ChainState.SuppliedBy.run hids f.counted (List.prefix_refl _)).live.supplyInvariantOk

theorem First.baseCaptured {call : Env × Block} (f : First call.2 ((ChainState.seeded false true {}).run [call])) :
    ((ChainState.seeded false true {}).run [call]).baseCaptured = true := by
  have hrun : (ChainState.seeded false true {}).run [call] = (ChainState.seeded false true {}).step call := by
    rw [ChainState.run, List.foldl_cons, List.foldl_nil]
  have hmem := DagInv.mem_of_getElem? ((f.block (blockHash 1 0) call.2).mpr (Or.inr ⟨rfl, rfl⟩))
  rw [hrun] at hmem ⊢
  rcases (ChainState.seeded false true {}).step_cases call with heq | ⟨gd, sp, a, heq⟩
  · -- a refused block is not there
    rw [heq, ChainState.seeded_mem, genesis_hash] at hmem
    exact absurd hmem (blockHash_ne (by norm_num) (by norm_num) (by norm_num))
  · rw [heq]
    exact ChainState.baseCaptured_accept (.seeded false {}) a

end Sample

end HassanNode
