import Mathlib
import HassanNode.Ledger.Records
import HassanNode.Consensus.Template

/-!
# HassanNode.Consensus.Producer

What becomes of the block that a node mines itself. Between template, search, assembly and
`add_block` the node takes other calls, so the commitments are bound three times, each time
to another state. They come out the same (`ChainState.Bound.later`): an archival node that
goes on keeps the past of the template's parents, and what it folds into its base stays
on their chain as long as the finality rule lets the block in.
-/

namespace HassanNode

open Std (ExtTreeMap)
open Params Bincode Worklist

/-! ### Blocks that do the same -/

/-- Computations with the same result up to `f` fail alike, or succeed alike. -/
theorem Except.map_eq_map {ε α β : Type} {x y : Except ε α} {f : α → β} (h : x.map f = y.map f) :
    (∃ e, x = .error e ∧ y = .error e) ∨ ∃ a b, x = .ok a ∧ y = .ok b ∧ f a = f b := by
  cases x with
  | error e =>
      cases y with
      | error e' =>
          obtain rfl := Except.error.inj h
          exact Or.inl ⟨e, rfl, rfl⟩
      | ok b => cases h
  | ok a =>
      cases y with
      | error e' => cases h
      | ok b => exact Or.inr ⟨a, b, rfl, rfl, Except.ok.inj h⟩

/-- Two blocks that do the same to a ledger, up to the settlement id in its records. -/
structure Block.SameEffects [Crypto] (b b' : Block) : Prop where
  items : b'.items = b.items
  timestamp : b'.timestamp = b.timestamp
  height : b'.height = b.height
  coinbaseTxid : b'.coinbaseTxid = b.coinbaseTxid
  miner : b'.miner = b.miner

namespace ChainState

variable [Crypto] {st st' : ChainState} {seed : Ledger} {b b' : Block} {gd : GhostdagData} {sp : Hash}

/-- The root after a block depends on the ledger under it and on what it does. -/
theorem postMergesetStateRoot_congr {ms : List Hash}
    (hvirtual : (st'.mergesetVirtual sp ms).1 = (st.mergesetVirtual sp ms).1) (hchain : st'.chainId = st.chainId)
    (hsame : b.SameEffects b') (score : Nat) :
    st'.postMergesetStateRoot sp ms b' score = st.postMergesetStateRoot sp ms b score := by
  have htried := Ledger.simulateApplyBlockBody_congr (st.mergesetVirtual sp ms).1 st.chainId 0 score hsame.items
    hsame.timestamp hsame.height
  rw [postMergesetStateRoot, postMergesetStateRoot, hvirtual, hchain]
  rcases Except.map_eq_map htried with ⟨e, herr', herr⟩ | ⟨s', s, hok', hok, htally⟩
  · rw [herr', herr]
    show (Except.error e : Except String Hash) = Except.error e
    rfl
  · rw [hok', hok]
    obtain ⟨hledger, hfees⟩ := Prod.mk.inj htally
    show Except.ok (s'.1.applyBlockReward b' score s'.2).merkleRoot
      = Except.ok (s.1.applyBlockReward b score s.2).merkleRoot
    rw [hfees, Ledger.applyBlockReward_congr hledger score s.2 hsame.coinbaseTxid hsame.miner]

/-! ### Binding commitments -/

/-- The commitments of a block at a state. -/
structure Bound (st : ChainState) (block : Block) (gd : GhostdagData) (sp : Hash) (links : List Hash) (root : Hash) :
    Prop where
  data : st.computeGhostdag block.parents = .ok gd
  selected : st.ghostdag.selectParent block.parents = some sp
  links : (st.dag[sp]?.map computeInterlinks).getD [] = links
  root : st.postMergesetStateRoot sp gd.merged block gd.blueScore = .ok root

theorem bindParentCommitments_ok (h : st.bindParentCommitments b = .ok b') :
    ∃ gd sp links root, st.Bound b gd sp links root ∧ b' = { b with interlinks := links, stateRoot := root } := by
  obtain ⟨gd, hdata, h⟩ := Except.bind_eq_ok h
  cases hsp : gd.selectedParent with
  | none => simp [hsp] at h
  | some sp =>
      simp only [hsp] at h
      obtain ⟨root, hroot, h⟩ := Except.bind_eq_ok h
      obtain rfl := Except.ok.inj h
      have hselected : st.ghostdag.selectParent b.parents = some sp := by
        cases hbest : st.ghostdag.selectParent b.parents with
        | none =>
            -- then the data would be that of a genesis block
            rw [computeGhostdag, tryComputeGhostdagData, hbest] at hdata
            obtain rfl := Except.ok.inj hdata
            cases hsp
        | some best => rw [← hsp, (tryCompute_ok hdata hbest).selectedParent]
      have hsame : Block.SameEffects { b with interlinks := (st.dag[sp]?.map computeInterlinks).getD [] } b :=
        ⟨rfl, rfl, rfl, rfl, rfl⟩
      refine ⟨gd, sp, _, root, ⟨hdata, hselected, rfl, ?_⟩, rfl⟩
      rw [postMergesetStateRoot_congr rfl rfl hsame]
      exact hroot

theorem Bound.congr {links : List Hash} {root : Hash} (h : st.Bound b gd sp links root) (hparents : b'.parents = b.parents)
    (hsame : b.SameEffects b') : st.Bound b' gd sp links root where
  data := hparents ▸ h.data
  selected := hparents ▸ h.selected
  links := h.links
  root := (postMergesetStateRoot_congr rfl rfl hsame _).trans h.root

/-! ### Later states -/

theorem Extends.selectParent (e : st.Extends st') (w : st.Whole) {parents : List Hash} (hparents : ∀ p ∈ parents, p ∈ st.dag) :
    st'.ghostdag.selectParent parents = st.ghostdag.selectParent parents := by
  exact (w.dagInv.agree (fun _ hk => e.parentsOf hk) e.ghostdag fun _ _ _ _ => rfl).selectBest hparents

/-- The data of a block on old parents. -/
theorem Extends.computeGhostdag (e : st.Extends st') (w : st.Whole) (w' : st'.Whole) {parents : List Hash}
    (hparents : ∀ p ∈ parents, p ∈ st.dag) : st'.computeGhostdag parents = st.computeGhostdag parents := by
  have hdag : ∀ k ∈ st.dag, st'.dag.parentsOf k = st.dag.parentsOf k := fun k hk => e.parentsOf hk
  rw [w'.computeGhostdag_eq, w.computeGhostdag_eq]
  exact tryCompute_congr (w.dagInv.agree hdag e.ghostdag fun x y _ hy => w.dagInv.bfsIsAncestor_congr hdag x y hy) hparents

/-- A frontier that is on the chain of an old block was on it before. -/
theorem Later.frontierOn (l : Later st st') (inv : Archival seed st) (inv' : Archival seed st') (hsp : sp ∈ st.dag)
    (hon : st'.FrontierOn sp) : st.FrontierOn sp := by
  intro f hf
  obtain ⟨g, hg, habove⟩ := l.point f (inv.frontier.symm.trans hf)
  have hgsp := hon g (inv'.frontier.trans hg)
  exact (l.blocks.above inv.whole.dagInv hsp).mp (habove.trans hgsp)

theorem Archival.mergesetVirtual_of_frontierOn (inv : Archival seed st) (hsp : sp ∈ st.dag) (hon : st.FrontierOn sp)
    (ms : List Hash) : (st.mergesetVirtual sp ms).1 = st.fold seed (st.canonicalOrderAt sp ++ ms) := by
  rw [inv.whole.keyed.mergesetVirtual, virtualStateAt_eq inv.whole inv.base hsp hon, fold_append]

/-- What is merged comes from the past of the parents. -/
theorem Bound.merged_mem {links : List Hash} {root : Hash} (h : st.Bound b gd sp links root) (w : st.Whole)
    (hparents : ∀ p ∈ b.parents, p ∈ st.dag) : ∀ x ∈ gd.merged, x ∈ st.dag := by
  intro x hx
  have hcomputed := tryCompute_ok h.data h.selected
  obtain ⟨⟨p, hp, hpast⟩, -⟩ := Dag.mem_mergeset.mp (hcomputed.merged.mem_iff.mp hx)
  rcases hpast with heq | hpast
  · exact heq ▸ hparents p hp
  · exact w.dagInv.past_mem hpast (hparents p hp)

/-- **The ledger under a block on old parents is the old one**, if the frontier has not
left their chain. -/
theorem Later.mergesetVirtual (l : Later st st') (inv : Archival seed st) (inv' : Archival seed st')
    (hchain : st'.chainId = st.chainId) (hsp : sp ∈ st.dag) (hon : st'.FrontierOn sp) {ms : List Hash}
    (hms : ∀ x ∈ ms, x ∈ st.dag) : (st'.mergesetVirtual sp ms).1 = (st.mergesetVirtual sp ms).1 := by
  have w := inv.whole
  have horder : ∀ x ∈ st.canonicalOrderAt sp ++ ms, x ∈ st.dag := by
    intro x hx
    rcases List.mem_append.mp hx with hx | hx
    · rcases (mem_canonicalOrderAt w.dagInv hsp).mp hx with rfl | hpast
      · exact hsp
      · exact w.dagInv.past_mem hpast hsp
    · exact hms x hx
  rw [inv'.mergesetVirtual_of_frontierOn (l.blocks.mem hsp) hon,
    inv.mergesetVirtual_of_frontierOn hsp (l.frontierOn inv inv' hsp hon),
    l.blocks.canonicalOrderAt w.dagInv inv'.whole.dagInv hsp, fold, fold, hchain, l.blocks.blocksAt horder]

/-- Data, selected parent and interlinks last. -/
theorem Bound.later {links links' : List Hash} {root root' : Hash} {gd' : GhostdagData} {sp' : Hash}
    (h : st.Bound b gd sp links root) (h' : st'.Bound b' gd' sp' links' root') (e : st.Extends st') (w : st.Whole)
    (w' : st'.Whole) (hparents : ∀ p ∈ b.parents, p ∈ st.dag) (hsame : b'.parents = b.parents) :
    gd' = gd ∧ sp' = sp ∧ links' = links := by
  have hdata := h'.data
  have hselected := h'.selected
  rw [hsame, e.computeGhostdag w w' hparents, h.data] at hdata
  rw [hsame, e.selectParent w hparents, h.selected] at hselected
  obtain rfl := Except.ok.inj hdata
  obtain rfl := Option.some.inj hselected
  have hsp : sp ∈ st.dag := hparents sp (GhostdagMap.selectBest_eq_some.mp h.selected).mem
  exact ⟨rfl, rfl, by rw [← h.links, ← h'.links, e.dag sp hsp]⟩

/-- **The root lasts**, while the frontier is on the chain of the selected parent. -/
theorem Bound.root_later {links : List Hash} {root : Hash} (h : st.Bound b gd sp links root) (l : Later st st')
    (inv : Archival seed st) (inv' : Archival seed st') (hchain : st'.chainId = st.chainId)
    (hparents : ∀ p ∈ b.parents, p ∈ st.dag) (hsame : b.SameEffects b') (hon : st'.FrontierOn sp) :
    st'.postMergesetStateRoot sp gd.merged b' gd.blueScore = .ok root := by
  have hsp : sp ∈ st.dag := hparents sp (GhostdagMap.selectBest_eq_some.mp h.selected).mem
  have hvirtual := l.mergesetVirtual inv inv' hchain hsp hon (h.merged_mem inv.whole hparents)
  rw [postMergesetStateRoot_congr hvirtual hchain hsame]
  exact h.root

/-- Where the finality rule lets a block in, the frontier is on the chain of its selected
parent. -/
theorem Archival.frontierOn_of_checkFinality (inv : Archival seed st) (hfinality : st.checkFinality b = .ok ())
    (hselected : st.ghostdag.selectParent b.parents = some sp) : st.FrontierOn sp := by
  intro f hf
  have hfp := inv.frontier.symm.trans hf
  have hindexed := inv.finalityIndexed b f sp hfp hselected
  have hne := checkFinality_eq_ok.mp hfinality f sp hfp hselected
  have hchain : st.reachability.isChainAncestor f sp = some true := by
    obtain ⟨t, ht⟩ := Option.isSome_iff_exists.mp (Reachability.isChainAncestor_isSome hindexed.1 hindexed.2)
    cases t with
    | true => exact ht
    | false => exact absurd ht hne
  have habove := ((inv.whole.covers.wf.isChainAncestor_eq hchain).2.2).mp rfl
  exact habove.mono fun h p _ hp => inv.whole.linked h p hp

/-! ### Valid bodies -/

/-- The operations of a block pass their tests. -/
structure BodyReady (st : ChainState) (b : Block) : Prop where
  transparent : b.transparentTxs = []
  utxo : ∀ tx ∈ b.utxoTxs, tx.validateForm = .ok () ∧ tx.chainId = st.chainId ∧ tx.verify = true
  apart : b.utxoTxs.Pairwise fun x y => ∀ i ∈ x.inputs, ∀ j ∈ y.inputs, i.previous ≠ j.previous
  registry : ∀ op ∈ b.registryOps, op.chainId = st.chainId ∧ op.verify = true
  custody : ∀ op ∈ b.custodyOps, st.validateCustodyOp op = .ok ()

omit [Crypto] in
theorem noteInputs_ok {inputs : List TxIn} {seen : List OutPoint} (hnodup : (inputs.map (·.previous)).Nodup)
    (hseen : ∀ i ∈ inputs, i.previous ∉ seen) :
    noteInputs seen inputs = .ok ((inputs.map (·.previous)).reverse ++ seen) := by
  induction inputs generalizing seen with
  | nil => rfl
  | cons i inputs ih =>
      rw [List.map_cons, List.nodup_cons] at hnodup
      have hnew : ¬ seen.contains i.previous = true := by simpa using hseen i List.mem_cons_self
      rw [noteInputs, if_neg hnew, ih hnodup.2, List.map_cons, List.reverse_cons, List.append_assoc]
      · rfl
      · intro j hj hmem
        rcases List.mem_cons.mp hmem with heq | hmem
        · exact hnodup.1 (List.mem_map.mpr ⟨j, hj, heq⟩)
        · exact hseen j (List.mem_cons_of_mem i hj) hmem

omit [Crypto] in
theorem noteUtxoTxs_ok {txs : List UtxoTx} {seen : List OutPoint}
    (hform : ∀ tx ∈ txs, tx.validateForm = .ok () ∧ tx.chainId = st.chainId)
    (hapart : txs.Pairwise fun x y => ∀ i ∈ x.inputs, ∀ j ∈ y.inputs, i.previous ≠ j.previous)
    (hseen : ∀ tx ∈ txs, ∀ i ∈ tx.inputs, i.previous ∉ seen) : ∃ seen', st.noteUtxoTxs seen txs = .ok seen' := by
  induction txs generalizing seen with
  | nil => exact ⟨seen, rfl⟩
  | cons tx txs ih =>
      obtain ⟨hhead, htail⟩ := List.pairwise_cons.mp hapart
      obtain ⟨hok, hchain⟩ := hform tx List.mem_cons_self
      have hinputs := noteInputs_ok (UtxoTx.validateForm_ok hok).2.2.2 (hseen tx List.mem_cons_self)
      have hlater : ∀ t ∈ txs, ∀ j ∈ t.inputs, j.previous ∉ (tx.inputs.map (·.previous)).reverse ++ seen := by
        intro t ht j hj hmem
        rcases List.mem_append.mp hmem with hmem | hmem
        · obtain ⟨i, hi, heq⟩ := List.mem_map.mp (List.mem_reverse.mp hmem)
          exact hhead t ht i hi j hj heq
        · exact hseen t (List.mem_cons_of_mem tx ht) j hj hmem
      obtain ⟨seen', hrest⟩ := ih (fun t ht => hform t (List.mem_cons_of_mem tx ht)) htail hlater
      refine ⟨seen', ?_⟩
      simp only [noteUtxoTxs, hok, hchain, hinputs, hrest, Except.mapError, beq_self_eq_true, ensure, if_true, bind,
        Except.bind]

theorem BodyReady.validate (h : st.BodyReady b) : st.validateBlockTransactions b = .ok () := by
  have haccounts : st.validateAccountForms b.transparentTxs = .ok () := by
    rw [h.transparent]
    rfl
  have hutxo : st.validateUtxoForms b.utxoTxs = .ok () := by
    obtain ⟨seen, hseen⟩ : ∃ seen, st.noteUtxoTxs [] b.utxoTxs = .ok seen :=
      noteUtxoTxs_ok (fun tx htx => ⟨(h.utxo tx htx).1, (h.utxo tx htx).2.1⟩) h.apart fun _ _ _ _ => List.not_mem_nil
    have hverify : b.utxoTxs.all (·.verify) = true := List.all_eq_true.mpr fun tx htx => (h.utxo tx htx).2.2
    simp only [validateUtxoForms, hseen, hverify, ensure, if_true, bind, Except.bind]
  have hregistry : st.validateRegistryOps b = .ok () := by
    refine UtxoTx.forM_ok fun op hop => ?_
    obtain ⟨hchain, hverify⟩ := h.registry op hop
    simp only [hchain, hverify, beq_self_eq_true, ensure, if_true, bind, Except.bind]
  have hcustody : st.validateCustodyOps b = .ok () := UtxoTx.forM_ok h.custody
  simp only [validateBlockTransactions, haccounts, hutxo, hregistry, hcustody, bind, Except.bind]

theorem BodyReady.later (h : st.BodyReady b) (e : st.Extends st') (hchain : st'.chainId = st.chainId) :
    st'.BodyReady b where
  transparent := h.transparent
  utxo tx htx := by
    rw [hchain]
    exact h.utxo tx htx
  apart := h.apart
  registry op hop := by
    rw [hchain]
    exact h.registry op hop
  custody op hop := e.validateCustodyOp hchain (h.custody op hop)

theorem BodyReady.congr (h : st.BodyReady b) (htransparent : b'.transparentTxs = b.transparentTxs)
    (hutxo : b'.utxoTxs = b.utxoTxs) (hregistry : b'.registryOps = b.registryOps)
    (hcustody : b'.custodyOps = b.custodyOps) : st.BodyReady b' :=
  ⟨htransparent ▸ h.transparent, hutxo ▸ h.utxo, hutxo ▸ h.apart, hregistry ▸ h.registry, hcustody ▸ h.custody⟩

/-- The header tests. -/
theorem checkHeader_eq_ok {env : Env} : st.checkHeader env b sp = .ok () ↔
    (st.dag[sp]?.map computeInterlinks).getD [] = b.interlinks ∧ b.merkleRoot = b.bodyRoot ∧
      (∀ p ∈ b.parents, ∀ parent, st.dag[p]? = some parent → parent.timestamp.toNat ≤ b.timestamp.toNat) ∧
      st.pastMedianTime sp < b.timestamp.toNat ∧ b.timestamp.toNat ≤ satAdd64 env.now maxFutureDriftMs := by
  have hlatest : ((b.parents.filterMap fun p => st.dag[p]?.map (·.timestamp.toNat)).max?).getD 0 ≤ b.timestamp.toNat ↔
      ∀ p ∈ b.parents, ∀ parent, st.dag[p]? = some parent → parent.timestamp.toNat ≤ b.timestamp.toNat := by
    constructor
    · intro hle p hp parent hparent
      have hmem : parent.timestamp.toNat ∈ b.parents.filterMap fun p => st.dag[p]?.map (·.timestamp.toNat) :=
        List.mem_filterMap.mpr ⟨p, hp, by rw [hparent]; rfl⟩
      exact (List.le_max?_getD_of_mem hmem).trans hle
    · intro hall
      cases hmax : (b.parents.filterMap fun p => st.dag[p]?.map (·.timestamp.toNat)).max? with
      | none => exact Nat.zero_le _
      | some latest =>
          obtain ⟨p, hp, htime⟩ := List.mem_filterMap.mp (List.max?_mem hmax)
          obtain ⟨parent, hparent, rfl⟩ := Option.map_eq_some_iff.mp htime
          exact hall p hp parent hparent
  constructor
  · intro h
    obtain ⟨hlinks, h⟩ := Except.seq_eq_ok h
    obtain ⟨hbody, h⟩ := Except.seq_eq_ok h
    obtain ⟨htimes, h⟩ := Except.seq_eq_ok h
    obtain ⟨hmedian, hclock⟩ := Except.seq_eq_ok h
    rw [ensure_eq_ok] at hlinks hbody htimes hmedian hclock
    exact ⟨(beq_iff_eq.mp hlinks).symm, beq_iff_eq.mp hbody, hlatest.mp (of_decide_eq_true htimes),
      of_decide_eq_true hmedian, of_decide_eq_true hclock⟩
  · intro ⟨hlinks, hbody, htimes, hmedian, hclock⟩
    simp only [checkHeader, hlinks, hbody, hlatest.mpr htimes, hmedian, hclock, beq_self_eq_true, decide_true, ensure,
      if_true, bind, Except.bind]

end ChainState

/-! ### Finished blocks -/

/-- A finished block: bound to a state, worked on, and signed. -/
structure ChainState.Finished [Crypto] (st : ChainState) (b : Block) (gd : GhostdagData) (sp : Hash) : Prop where
  bound : st.Bound b gd sp b.interlinks b.stateRoot
  parents_ne : b.parents ≠ []
  parents_le : b.parents.length ≤ maxBlockParents
  parents_nodup : b.parents.Nodup
  parents_mem : ∀ p ∈ b.parents, p ∈ st.dag
  body : b.merkleRoot = b.bodyRoot
  ready : st.BodyReady b
  work : verifyPow b.hash b.difficulty = true
  proof : verifyStarkProof b = true
  issuance : b.verifyIssuance = .ok ()
  witness : b.starkProof.length ≤ maxStarkProofBytes ∧ b.birthCertificate.length = pqSignatureSize

/-- What is left to the state that a finished block is sent to. -/
structure ChainState.Admits [Crypto] (st : ChainState) (env : Env) (b : Block) : Prop where
  base : b.verifySize = true
  fresh : b.hash ∉ st.dag
  finality : st.checkFinality b = .ok ()
  difficulty : b.difficulty.toNat = st.expectedDifficultyAt env.labEasyPow b.parents b.timestamp.toNat
  parents : ∀ p ∈ b.parents, ∀ parent, st.dag[p]? = some parent → parent.timestamp.toNat ≤ b.timestamp.toNat
  median : ∀ sp, st.ghostdag.selectParent b.parents = some sp → st.pastMedianTime sp < b.timestamp.toNat
  clock : b.timestamp.toNat ≤ satAdd64 env.now maxFutureDriftMs

namespace ChainState

variable [Crypto] {st st' : ChainState} {seed : Ledger} {env : Env} {b : Block} {gd : GhostdagData} {sp : Hash}

omit [Crypto]

/-- The witnesses come on top of the base. -/
theorem wireSize_eq (b : Block) : b.wireSize = b.baseSize + b.starkProof.length + b.birthCertificate.length := by
  have hwire : b.wireSize = _ := Sample.length_encode b
  have hbase : b.baseSize = _ := Sample.length_encode { b with starkProof := [], birthCertificate := [] }
  dsimp only [List.length_nil] at hbase
  omega

/-- A key adds its length to the base of a template without one. -/
theorem baseSize_keyed {t : Block} (hparents : b.parents = t.parents) (hlinks : b.interlinks = t.interlinks)
    (htransparent : b.transparentTxs = t.transparentTxs) (hutxo : b.utxoTxs = t.utxoTxs)
    (hregistry : b.registryOps = t.registryOps) (hcustody : b.custodyOps = t.custodyOps) (hkey : t.creatorPubkey = []) :
    b.baseSize = t.baseSize + b.creatorPubkey.length := by
  have hbase : b.baseSize = _ := Sample.length_encode { b with starkProof := [], birthCertificate := [] }
  have htemplate : t.baseSize = _ := Sample.length_encode { t with starkProof := [], birthCertificate := [] }
  dsimp only [List.length_nil] at hbase htemplate
  rw [hparents, hlinks, htransparent, hutxo, hregistry, hcustody] at hbase
  rw [hkey] at htemplate
  dsimp only [List.length_nil] at htemplate
  omega

variable [Crypto]

theorem Admitted.admits (a : st.Admitted env b gd sp) : st.Admits env b where
  base := (checkShape_eq_ok.mp a.shape).2.1
  fresh := a.new
  finality := a.finality
  difficulty := by
    obtain ⟨h, -⟩ := Except.seq_eq_ok a.work
    rw [ensure_eq_ok] at h
    exact beq_iff_eq.mp h
  parents := (checkHeader_eq_ok.mp a.header).2.2.1
  median sp' hsp' := by
    obtain rfl := Option.some.inj (a.selected.symm.trans hsp')
    exact (checkHeader_eq_ok.mp a.header).2.2.2.1
  clock := (checkHeader_eq_ok.mp a.header).2.2.2.2

/-- **A finished block is admitted by any later state that admits it.** -/
theorem Finished.admitted (f : st.Finished b gd sp) (l : Later st st') (inv : Archival seed st) (inv' : Archival seed st')
    (hchain : st'.chainId = st.chainId) (h : st'.Admits env b) : ∃ gd sp, st'.Admitted env b gd sp := by
  have hselected : st'.ghostdag.selectParent b.parents = some sp :=
    (l.blocks.selectParent inv.whole f.parents_mem).trans f.bound.selected
  have hsp : sp ∈ st.dag := f.parents_mem sp (GhostdagMap.selectBest_eq_some.mp f.bound.selected).mem
  have hon := inv'.frontierOn_of_checkFinality h.finality hselected
  refine ⟨gd, sp, ?_, h.finality, ?_, hselected, ?_, ?_, f.issuance, (f.ready.later l.blocks hchain).validate, ?_,
    f.bound.root_later l inv inv' hchain f.parents_mem ⟨rfl, rfl, rfl, rfl, rfl⟩ hon⟩
  · have hbase : b.baseSize ≤ maxBlockSize := of_decide_eq_true h.base
    have hwire : b.wireSize ≤ maxBlockBytes := by
      have hfits : maxBlockSize + maxStarkProofBytes + pqSignatureSize ≤ maxBlockBytes := by decide
      have hshort := f.witness.1
      rw [wireSize_eq, f.witness.2]
      omega
    exact checkShape_eq_ok.mpr ⟨h.fresh, h.base, hwire, f.parents_ne, f.parents_le, f.parents_nodup,
      fun p hp => l.blocks.mem (f.parents_mem p hp)⟩
  · have hproof : (starkPrecheckFormat b.starkProof).isOk = true := (Bool.and_eq_true _ _ ▸ f.proof :).1
    obtain ⟨u, hformat⟩ : ∃ u, starkPrecheckFormat b.starkProof = .ok u := by
      cases hcase : starkPrecheckFormat b.starkProof with
      | ok u => exact ⟨u, rfl⟩
      | error e => simp [hcase, Except.isOk, Except.toBool] at hproof
    have hproven : b.starkProof ≠ [] := by
      intro hnil
      simp [starkPrecheckFormat, hnil, starkResultHeaderLen] at hformat
    have hbirth : b.birthCertificate ≠ [] := by
      intro hnil
      have hlen := f.witness.2
      rw [hnil] at hlen
      cases hlen
    simp [checkWork, ensure, h.difficulty, f.work, hproven, hbirth, hformat, bind, Except.bind, Except.mapError]
  · refine checkHeader_eq_ok.mpr ⟨?_, f.body, h.parents, h.median sp hselected, h.clock⟩
    rw [l.blocks.dag sp hsp]
    exact f.bound.links
  · rw [f.proof, Bool.or_true]
  · exact (l.blocks.computeGhostdag inv.whole inv'.whole f.parents_mem).trans f.bound.data

end ChainState

/-! ### The three stages -/

section Stages

variable [Crypto] {st : ChainState} {easy : Bool} {timestamp entropy : UInt64} {work : MiningWork} {miners : List Miner}
  {share : MinerShare}

/-- What a template is: the draft of its state with fewer operations and its commitments. -/
structure Templated (st : ChainState) (easy : Bool) (time entropy : UInt64) (work : MiningWork) : Prop where
  height : work.blockTemplate.height = UInt64.ofNat (st.prunedSelectedBlocks + st.mainChain.length)
  parents : work.blockTemplate.parents = st.templateParents
  timestamp : work.blockTemplate.timestamp = time
  difficulty : work.blockTemplate.difficulty
    = UInt64.ofNat (st.expectedDifficultyAt easy st.templateParents time.toNat)
  target : work.target = powTarget work.blockTemplate.difficulty
  creatorPubkey : work.blockTemplate.creatorPubkey = []
  transparent : work.blockTemplate.transparentTxs.Sublist (st.draftTemplate easy time entropy).transparentTxs
  utxo : work.blockTemplate.utxoTxs.Sublist (st.draftTemplate easy time entropy).utxoTxs
  registry : work.blockTemplate.registryOps.Sublist (st.draftTemplate easy time entropy).registryOps
  custody : work.blockTemplate.custodyOps.Sublist (st.draftTemplate easy time entropy).custodyOps
  links : ∃ sp, st.ghostdag.selectParent st.templateParents = some sp ∧
    (st.dag[sp]?.map computeInterlinks).getD [] = work.blockTemplate.interlinks

omit [Crypto] in
theorem mapError_eq_ok {ε ε' α : Type} {x : Except ε α} {f : ε → ε'} {a : α} (h : x.mapError f = .ok a) : x = .ok a := by
  cases x with
  | error e => cases h
  | ok a' => exact congrArg Except.ok (Except.ok.inj h)

theorem createBlockTemplate_ok (h : st.createBlockTemplate easy timestamp entropy = .ok work) :
    Templated st easy timestamp entropy work := by
  obtain ⟨bound, hbind, h⟩ := Except.bind_eq_ok h
  obtain ⟨template, hrebind, h⟩ := Except.bind_eq_ok h
  obtain rfl := Except.ok.inj h
  obtain ⟨-, -, links, root, -, hbound⟩ := ChainState.bindParentCommitments_ok (mapError_eq_ok hbind)
  obtain ⟨htransparent, hutxo, hregistry, hcustody, hrest⟩ := Block.trimLoop_trimmed (bound.items.length + 1) bound
  rw [← Block.trim] at htransparent hutxo hregistry hcustody hrest
  -- what is left of the body has no other name from here on
  generalize bound.trim.transparentTxs = transparentTxs at htransparent hrest
  generalize bound.trim.utxoTxs = utxoTxs at hutxo hrest
  generalize bound.trim.registryOps = registryOps at hregistry hrest
  generalize bound.trim.custodyOps = custodyOps at hcustody hrest
  rw [hrest] at hrebind
  subst hbound
  obtain ⟨gd, sp, links', root', hagain, rfl⟩ := ChainState.bindParentCommitments_ok (mapError_eq_ok hrebind)
  exact ⟨rfl, rfl, rfl, rfl, rfl, rfl, htransparent, hutxo, hregistry, hcustody, sp, hagain.selected, hagain.links⟩

theorem searchLane_ok {block : Block} {target : Hash} {numLanes nonce found : UInt64} {attempts : Nat}
    (h : searchLane block target numLanes attempts nonce = some found) :
    hashMeetsTarget { block with nonce := found }.hash target = true := by
  induction attempts generalizing nonce with
  | zero => cases h
  | succ attempts ih =>
      rw [searchLane] at h
      split at h
      · rename_i hmeets
        obtain rfl := Option.some.inj h
        exact hmeets
      · exact ih h

/-- The nonce is a field that nothing else of the identity reads. -/
theorem MiningWork.identify_nonce (work : MiningWork) (key : Bytes) (nonce nonce' : UInt64) :
    { work.identify key nonce with nonce := nonce' } = work.identify key nonce' := rfl

/-- What a share says: the first miner found a nonce for the template it bound. -/
theorem checkMinerShares_ok {schedule : Schedule} (h : checkMinerShares st miners work schedule = some share) :
    ∃ m rest template, miners = m :: rest ∧ share.miner = m.address ∧
      st.bindParentCommitments (work.identify m.publicKey work.blockTemplate.nonce) = .ok template ∧
      hashMeetsTarget { template with nonce := share.nonce }.hash work.target = true := by
  obtain ⟨m, hm, hsearch⟩ := Option.bind_eq_some_iff.mp h
  obtain ⟨rest, hminers⟩ := List.head?_eq_some_iff.mp hm
  split at hsearch
  · cases hsearch
  · obtain ⟨template, hbind, hsearch⟩ := Option.bind_eq_some_iff.mp hsearch
    obtain ⟨nonce, hfound, hsearch⟩ := Option.bind_eq_some_iff.mp hsearch
    obtain rfl := Option.some.inj hsearch
    obtain ⟨lane, -, hlane⟩ := List.exists_of_findSome?_eq_some hfound
    refine ⟨m, rest, template, hminers, rfl, ?_, searchLane_ok hlane⟩
    cases hok : st.bindParentCommitments (work.identify m.publicKey work.blockTemplate.nonce) with
    | error e =>
        rw [hok] at hbind
        cases hbind
    | ok b =>
        rw [hok] at hbind
        exact congrArg Except.ok (Option.some.inj hbind)

/-- A single lane whose first nonce is good. -/
theorem findLane_first {block : Block} {target : Hash} {numLanes nonce : UInt64}
    (h : hashMeetsTarget { block with nonce }.hash target = true) :
    [(nonce, 1)].findSome? (fun lane => searchLane block target numLanes lane.2 lane.1) = some nonce := by
  simp [searchLane, h]

/-- A lane that finds a nonce gives a share. -/
theorem checkMinerShares_of {schedule : Schedule} {m : Miner} {rest : List Miner} {template : Block} {nonce : UInt64}
    (hmatch : Address.matchesPubkey m.address m.publicKey = true)
    (hbind : st.bindParentCommitments (work.identify m.publicKey work.blockTemplate.nonce) = .ok template)
    (hfound : schedule.lanes.findSome? (fun lane => searchLane template work.target schedule.numLanes lane.2 lane.1)
      = some nonce) :
    checkMinerShares st (m :: rest) work schedule = some ⟨nonce, m.address, { template with nonce }.hash⟩ := by
  simp only [checkMinerShares, List.head?_cons, hmatch, hbind, Except.toOption, hfound, Bool.not_true,
    Bool.false_eq_true, if_false, bind, Option.bind, pure]

variable [Signing] [Proving]

/-- What an assembled block is: the template under the identity of its miner, the
commitments, and the two witnesses. -/
structure Assembled (work : MiningWork) (key secret : Bytes) (nonce : UInt64) (links : List Hash) (root : Hash)
    (block : Block) : Prop where
  parents : block.parents = work.blockTemplate.parents
  timestamp : block.timestamp = work.blockTemplate.timestamp
  difficulty : block.difficulty = work.blockTemplate.difficulty
  transparent : block.transparentTxs = work.blockTemplate.transparentTxs
  utxo : block.utxoTxs = work.blockTemplate.utxoTxs
  registry : block.registryOps = work.blockTemplate.registryOps
  custody : block.custodyOps = work.blockTemplate.custodyOps
  interlinks : block.interlinks = links
  stateRoot : block.stateRoot = root
  effects : (work.identify key nonce).SameEffects block
  creatorPubkey : block.creatorPubkey = key
  miner : block.miner = addressHash key
  body : block.merkleRoot = block.bodyRoot
  hash : block.hash = { work.identify key nonce with interlinks := links, stateRoot := root }.hash
  proof : block.starkProof = Stark.prove block.hash.asBytes
  birth : signPq512 (utf8 "birth-certificate") block.settlementId secret = .ok block.birthCertificate

omit [Signing] [Proving] in
/-- The witnesses and the size are no part of the identities. -/
theorem Block.identities_witnessed (b : Block) (starkProof birthCertificate : Bytes) (size : Nat) :
    { b with starkProof, birthCertificate, size }.hash = b.hash ∧
      { b with starkProof, birthCertificate, size }.settlementId = b.settlementId := ⟨rfl, rfl⟩

theorem assembled {key secret proof birth : Bytes} {nonce : UInt64} {links : List Hash} {root : Hash} (size : Nat)
    {bound : Block} (hbound : bound = { work.identify key nonce with interlinks := links, stateRoot := root })
    (hproof : proof = Stark.prove bound.hash.asBytes)
    (hbirth : signPq512 (utf8 "birth-certificate") bound.settlementId secret = .ok birth) :
    Assembled work key secret nonce links root { bound with birthCertificate := birth, starkProof := proof, size } := by
  have hidentities := bound.identities_witnessed proof birth size
  rw [← hidentities.1] at hproof
  rw [← hidentities.2] at hbirth
  subst hbound
  exact ⟨rfl, rfl, rfl, rfl, rfl, rfl, rfl, rfl, rfl, ⟨rfl, rfl, rfl, rfl, rfl⟩, rfl, rfl, rfl, hidentities.1, hproof, hbirth⟩

/-- What assembly returns for a share of the first miner. -/
theorem assembleBlock_ok {m : Miner} {rest : List Miner} {block : Block} (hminer : share.miner = m.address)
    (h : assembleBlock st (m :: rest) work share = .ok block) :
    ∃ secret gd sp links root, m.signingKey = some secret ∧
      st.Bound (work.identify m.publicKey share.nonce) gd sp links root ∧
      Assembled work m.publicKey secret share.nonce links root block := by
  rw [assembleBlock, List.find?_cons_of_pos (by simp [hminer])] at h
  dsimp only at h
  cases hsecret : m.signingKey with
  | none =>
      rw [hsecret] at h
      cases h
  | some secret =>
      rw [hsecret] at h
      obtain ⟨-, h⟩ := Except.seq_eq_ok h
      obtain ⟨bound, hbind, h⟩ := Except.bind_eq_ok h
      obtain ⟨birth, hbirth, h⟩ := Except.bind_eq_ok h
      obtain ⟨gd, sp, links, root, hcommitments, hbound⟩ := ChainState.bindParentCommitments_ok hbind
      obtain rfl := Except.ok.inj h
      exact ⟨secret, gd, sp, links, root, rfl, hcommitments, assembled _ hbound rfl hbirth⟩

omit [Proving] in
/-- A key pair signs birth certificates that verify. -/
theorem verifyBirth_of_signed {key secret birth sid : Bytes} (h : KeyPair key secret)
    (hbirth : signPq512 (utf8 "birth-certificate") sid secret = .ok birth) :
    CustodyCertificate.verifyBirth birth sid key = true ∧ birth.length = pqSignatureSize := by
  obtain ⟨signature, hsign, hverify, hsigned⟩ := h.signPq512 (utf8 "birth-certificate") sid
  obtain rfl : signature = birth := Except.ok.inj (hsign.symm.trans hbirth)
  refine ⟨?_, hsigned⟩
  rw [CustodyCertificate.verifyBirth, h.length_pubkey, hverify]
  rfl

theorem Assembled.issuance {key secret : Bytes} {nonce : UInt64} {links : List Hash} {root : Hash} {block : Block}
    (a : Assembled work key secret nonce links root block) (h : KeyPair key secret) (hne : block.parents ≠ []) :
    block.verifyIssuance = .ok () ∧ block.birthCertificate.length = pqSignatureSize := by
  obtain ⟨hverify, hsigned⟩ := verifyBirth_of_signed h a.birth
  refine ⟨?_, hsigned⟩
  rw [Block.verifyIssuance, if_neg hne, a.creatorPubkey, if_neg (not_not.mpr h.length_pubkey), a.miner,
    if_neg (not_not.mpr rfl), hverify]
  rfl

/-- A miner with a signing key gets its block. -/
theorem assembleBlock_of {m : Miner} {rest : List Miner} {bound : Block} {secret birth : Bytes}
    (hminer : share.miner = m.address) (hsecret : m.signingKey = some secret)
    (hmatch : Address.matchesPubkey share.miner m.publicKey = true)
    (hbind : st.bindParentCommitments (work.identify m.publicKey share.nonce) = .ok bound)
    (hbirth : signPq512 (utf8 "birth-certificate") bound.settlementId secret = .ok birth) :
    ∃ block, assembleBlock st (m :: rest) work share = .ok block := by
  rw [assembleBlock, List.find?_cons_of_pos (by simp [hminer])]
  simp only [hsecret, hmatch, hbind, hbirth, ensure, if_true, bind, Except.bind, pure, Except.pure]
  exact ⟨_, rfl⟩

end Stages

/-! ### Accepted or not -/

/-- The STARK package proves what it then verifies, in a proof that fits. -/
structure Proving.Sound [Crypto] [Proving] : Prop where
  parses : ∀ header, Crypto.starkProofParses (Proving.prove header) = true
  verifies : ∀ header, Crypto.starkVerify header ((Stark.prove header).take starkResultHeaderLen)
    (Proving.prove header) = true
  nonempty : ∀ header, Proving.prove header ≠ []
  fits : ∀ header, starkResultHeaderLen + (Proving.prove header).length ≤ maxStarkProofBytes

theorem Proving.Sound.proof [Crypto] [Proving] (h : Proving.Sound) {b : Block} (hproof : b.starkProof = Stark.prove b.hash.asBytes) :
    verifyStarkProof b = true ∧ b.starkProof.length ≤ maxStarkProofBytes := by
  have hheader : (Bytes.padLeft 16 (Bytes.ofNatBE (Stark.result b.hash.asBytes))).length = starkResultHeaderLen :=
    Bytes.length_padLeft _ _
  have hdrop : b.starkProof.drop starkResultHeaderLen = Proving.prove b.hash.asBytes := by
    rw [hproof, Stark.prove, List.drop_left' hheader]
  have hlen : b.starkProof.length = starkResultHeaderLen + (Proving.prove b.hash.asBytes).length := by
    rw [hproof, Stark.prove, List.length_append, hheader]
  have hlong : ¬ b.starkProof.length ≤ starkResultHeaderLen := by
    have hpos := List.length_pos_iff.mpr (h.nonempty b.hash.asBytes)
    omega
  have hshort : b.starkProof.length ≤ maxStarkProofBytes := hlen ▸ h.fits b.hash.asBytes
  refine ⟨?_, hshort⟩
  rw [verifyStarkProof, starkPrecheckFormat, if_neg hlong, if_neg (Nat.not_lt.mpr hshort), hdrop, h.parses, hproof,
    h.verifies]
  rfl

/-- **What a mined block has to hope for**: room for the key of its creator, which the
template does not count, the difficulty of the template, a finality point on its chain,
a clock that has gone on, and that nobody else has sent it. -/
structure ChainState.Acceptable [Crypto] (st₀ st : ChainState) (env : Env) (template block : Block) : Prop where
  room : template.baseSize + pqPublicKeySize ≤ maxBlockSize
  fresh : block.hash ∉ st.dag
  finality : st.checkFinality block = .ok ()
  difficulty : st.expectedDifficultyAt env.labEasyPow block.parents block.timestamp.toNat
    = st₀.expectedDifficultyAt env.labEasyPow block.parents block.timestamp.toNat
  parents : ∀ p ∈ block.parents, ∀ parent, st.dag[p]? = some parent → parent.timestamp.toNat ≤ block.timestamp.toNat
  median : ∀ sp, st.ghostdag.selectParent block.parents = some sp → st.pastMedianTime sp < block.timestamp.toNat
  clock : block.timestamp.toNat ≤ satAdd64 env.now maxFutureDriftMs

namespace Mempool

variable [Crypto] {seed : Ledger} {m₀ : Mempool} {easy : Bool} {time entropy : UInt64} {work : MiningWork}

/-- The parents of a template are known tips. -/
theorem Stocked.templateParents (h : m₀.Stocked seed) : m₀.chain.templateParents.Nodup ∧
    m₀.chain.templateParents.length ≤ maxBlockParents ∧ ∀ p ∈ m₀.chain.templateParents, p ∈ m₀.chain.dag := by
  obtain ⟨order, hperm, hsub⟩ := m₀.chain.templateParents_sublist
  refine ⟨(hperm.nodup_iff.mpr h.tips).sublist hsub, List.length_take_le _ _, fun p hp => ?_⟩
  exact ((h.archival.whole.tips p).mp (hperm.subset (hsub.subset hp))).1

/-- The operations of a template pass their tests. -/
theorem Stocked.bodyReady (h : m₀.Stocked seed) (t : Templated m₀.chain easy time entropy work) :
    m₀.chain.BodyReady work.blockTemplate where
  transparent := by
    have hnone : (m₀.chain.draftTemplate easy time entropy).transparentTxs = [] := by
      show (m₀.chain.selectValidBlockTxs m₀.chain.transparentMempool).take 1000 = []
      rw [h.queued.transparent, ChainState.selectValidBlockTxs_nil, List.take_nil]
    exact List.sublist_nil.mp (hnone ▸ t.transparent)
  utxo tx htx := by
    have hselected : tx ∈ m₀.chain.selectValidUtxoTxs m₀.chain.utxoMempool := List.mem_of_mem_take (t.utxo.subset htx)
    exact h.queued.utxo tx ((rankedByRate_perm _).subset ((takeEach_sublist _ _).subset hselected))
  apart := by
    have hpool := h.queued.within.inputs
    have hranked := ((rankedByRate_perm m₀.chain.utxoMempool).pairwise_iff
      fun {x y} hxy i hi j hj heq => hxy j hj i hi heq.symm).mpr hpool
    exact (hranked.sublist (takeEach_sublist _ _)).sublist (t.utxo.trans (List.take_sublist _ _))
  registry op hop := ChainState.selectValidRegistryOps_valid op (t.registry.subset hop)
  custody op hop := by
    obtain ⟨hcandidate, howner⟩ := ChainState.selectValidCustodyOps_valid op (t.custody.subset hop)
    exact h.queued.custody op (List.mem_of_mem_take hcandidate) howner

variable [Signing] [Proving]

/-- From any state of an archival node. -/
theorem Stocked.addBlock_mined (h₀ : m₀.Stocked seed) (calls₁ calls₂ calls₃ : List NodeCall) {env : Env}
    {miners more : List Miner} {schedule : Schedule} {share : MinerShare} {block : Block}
    (htemplate : m₀.chain.createBlockTemplate env.labEasyPow time entropy = .ok work)
    (hshare : checkMinerShares (m₀.takeAll calls₁).chain miners work schedule = some share)
    (hblock : assembleBlock ((m₀.takeAll calls₁).takeAll calls₂).chain (miners ++ more) work share = .ok block)
    (hkeys : ∀ m ∈ miners, ∀ secret, m.signingKey = some secret → KeyPair m.publicKey secret) (hproves : Proving.Sound) :
    (∃ chain, (((m₀.takeAll calls₁).takeAll calls₂).takeAll calls₃).chain.addBlock env block = .ok chain) ↔
      m₀.chain.Acceptable (((m₀.takeAll calls₁).takeAll calls₂).takeAll calls₃).chain env work.blockTemplate block := by
  obtain ⟨h₁, l₁, hchain₁⟩ := h₀.takeAll calls₁
  obtain ⟨h₂, l₂, hchain₂⟩ := h₁.takeAll calls₂
  obtain ⟨h₃, l₃, hchain₃⟩ := h₂.takeAll calls₃
  generalize m₀.takeAll calls₁ = m₁ at *
  generalize m₁.takeAll calls₂ = m₂ at *
  generalize m₂.takeAll calls₃ = m₃ at *
  have t := createBlockTemplate_ok htemplate
  obtain ⟨m, rest, template, rfl, haddress, hbind₁, hmeets⟩ := checkMinerShares_ok hshare
  obtain ⟨secret, gd, sp, links, root, hsecret, hb, assembled⟩ := assembleBlock_ok haddress hblock
  obtain ⟨gd₁, sp₁, links₁, root₁, hb₁, rfl⟩ := ChainState.bindParentCommitments_ok hbind₁
  obtain ⟨hnodup, hle, hmem⟩ := h₀.templateParents
  rw [← t.parents, ← assembled.parents] at hnodup hle hmem
  have hmem₁ : ∀ p ∈ block.parents, p ∈ m₁.chain.dag := fun p hp => l₁.blocks.mem (hmem p hp)
  have hmem₂ : ∀ p ∈ block.parents, p ∈ m₂.chain.dag := fun p hp => l₂.blocks.mem (hmem₁ p hp)
  have hcommitments : m₂.chain.Bound block gd sp links root := hb.congr assembled.parents assembled.effects
  have hclaimed : block.difficulty.toNat
      = m₀.chain.expectedDifficultyAt env.labEasyPow block.parents block.timestamp.toNat := by
    rw [assembled.difficulty, t.difficulty, assembled.parents, t.parents, assembled.timestamp, t.timestamp,
      UInt64.toNat_ofNat']
    exact Nat.mod_eq_of_lt (ChainState.expectedDifficultyAt_lt _ _ _)
  have hlinks : links = work.blockTemplate.interlinks := by
    obtain ⟨sp₀, hsp₀, hlinks₀⟩ := t.links
    rw [← t.parents, ← assembled.parents] at hsp₀
    have e := l₁.blocks.trans l₂.blocks
    have hsp := hcommitments.selected
    rw [e.selectParent h₀.archival.whole hmem, hsp₀] at hsp
    obtain rfl := Option.some.inj hsp
    rw [← hcommitments.links, e.dag sp₀ (hmem sp₀ (GhostdagMap.selectBest_eq_some.mp hsp₀).mem)]
    exact hlinks₀
  have hkey : m.publicKey.length = pqPublicKeySize := (hkeys m List.mem_cons_self secret hsecret).length_pubkey
  have hroom : block.baseSize = work.blockTemplate.baseSize + pqPublicKeySize := by
    rw [ChainState.baseSize_keyed assembled.parents (assembled.interlinks.trans hlinks) assembled.transparent
      assembled.utxo assembled.registry assembled.custody t.creatorPubkey, assembled.creatorPubkey, hkey]
  constructor
  · intro ⟨chain, hok⟩
    obtain ⟨gd', sp', a, -⟩ := ChainState.addBlock_eq_ok.mp hok
    have h := a.admits
    refine ⟨?_, h.fresh, h.finality, h.difficulty.symm.trans hclaimed, h.parents, h.median, h.clock⟩
    have hbase : block.baseSize ≤ maxBlockSize := of_decide_eq_true h.base
    rwa [hroom] at hbase
  · intro h
    have hbase : block.verifySize = true := by
      refine decide_eq_true ?_
      rw [hroom]
      exact h.room
    have hsp := (GhostdagMap.selectBest_eq_some.mp hcommitments.selected).mem
    have hon₂ : m₂.chain.FrontierOn sp := by
      have hselected₃ : m₃.chain.ghostdag.selectParent block.parents = some sp := by
        rw [l₃.blocks.selectParent h₂.archival.whole hmem₂, hcommitments.selected]
      have hon₃ := h₃.archival.frontierOn_of_checkFinality h.finality hselected₃
      exact l₃.frontierOn h₂.archival h₃.archival (hmem₂ sp hsp) hon₃
    -- the search and the assembly have bound the same commitments
    have hmem₁' : ∀ p ∈ (work.identify m.publicKey work.blockTemplate.nonce).parents, p ∈ m₁.chain.dag :=
      fun p hp => hmem₁ p (assembled.parents ▸ hp)
    obtain ⟨rfl, rfl, rfl⟩ := hb₁.later hb l₂.blocks h₁.archival.whole h₂.archival.whole hmem₁' rfl
    obtain rfl : root = root₁ := by
      have hsame : (work.identify m.publicKey work.blockTemplate.nonce).SameEffects
          (work.identify m.publicKey share.nonce) := ⟨rfl, rfl, rfl, rfl, rfl⟩
      have hroot := hb₁.root_later l₂ h₁.archival h₂.archival hchain₂ hmem₁' hsame hon₂
      exact Except.ok.inj (hb.root.symm.trans hroot)
    have hwork : verifyPow block.hash block.difficulty = true := by
      rw [verifyPow_eq, assembled.difficulty, ← t.target, assembled.hash,
        ← work.identify_nonce m.publicKey work.blockTemplate.nonce share.nonce]
      exact hmeets
    have hready : m₂.chain.BodyReady work.blockTemplate :=
      (h₀.bodyReady t).later (l₁.blocks.trans l₂.blocks) (hchain₂.trans hchain₁)
    obtain ⟨hissuance, hsigned⟩ := assembled.issuance (hkeys m List.mem_cons_self secret hsecret) (List.ne_nil_of_mem hsp)
    have hproof := hproves.proof assembled.proof
    have hfinished : m₂.chain.Finished block gd sp :=
      ⟨by rwa [assembled.interlinks, assembled.stateRoot], List.ne_nil_of_mem hsp, hle, hnodup, hmem₂, assembled.body,
        hready.congr assembled.transparent assembled.utxo assembled.registry assembled.custody, hwork, hproof.1, hissuance,
        hproof.2, hsigned⟩
    obtain ⟨gd', sp', a⟩ := hfinished.admitted l₃ h₂.archival h₃.archival hchain₃
      ⟨hbase, h.fresh, h.finality, hclaimed.trans h.difficulty.symm, h.parents, h.median, h.clock⟩
    exact ⟨_, ChainState.addBlock_eq_ok.mpr ⟨gd', sp', a, rfl⟩⟩

/-- **A node accepts the block it mined exactly when what it has to hope for comes true.**
After any calls it makes a template, searches, assembles and adds the block, and takes any
other calls in between. -/
theorem own_block_accepted_iff (seed : Ledger) (calls₀ calls₁ calls₂ calls₃ : List NodeCall) {env : Env}
    {miners more : List Miner} {schedule : Schedule} {share : MinerShare} {block : Block}
    (htemplate : ((newNode easy true seed).takeAll calls₀).chain.createBlockTemplate env.labEasyPow time entropy
      = .ok work)
    (hshare : checkMinerShares (((newNode easy true seed).takeAll calls₀).takeAll calls₁).chain miners work schedule
      = some share)
    (hblock : assembleBlock ((((newNode easy true seed).takeAll calls₀).takeAll calls₁).takeAll calls₂).chain
      (miners ++ more) work share = .ok block)
    (hkeys : ∀ m ∈ miners, ∀ secret, m.signingKey = some secret → KeyPair m.publicKey secret) (hproves : Proving.Sound) :
    (∃ chain, (((((newNode easy true seed).takeAll calls₀).takeAll calls₁).takeAll calls₂).takeAll calls₃
        ).chain.addBlock env block = .ok chain) ↔
      ((newNode easy true seed).takeAll calls₀).chain.Acceptable
        (((((newNode easy true seed).takeAll calls₀).takeAll calls₁).takeAll calls₂).takeAll calls₃).chain env
        work.blockTemplate block :=
  ((stocked_newNode easy seed).takeAll calls₀).1.addBlock_mined calls₁ calls₂ calls₃ htemplate hshare hblock hkeys hproves

end Mempool

/-! ### The first block of a new node -/

namespace Sample

scoped instance : Signing := sampleSigning

/-- A prover that the sample primitives accept. -/
@[reducible] def sampleProving : Proving where
  prove _ := [0]

scoped instance : Proving := sampleProving

theorem sampleProving_sound : Proving.Sound where
  parses _ := rfl
  verifies _ := rfl
  nonempty _ := List.cons_ne_nil _ _
  fits _ := by
    show starkResultHeaderLen + 1 ≤ maxStarkProofBytes
    decide

/-- The only miner of the sample. -/
def soleMiner : Miner := ⟨Address.ofPubkey minerKey, minerKey, some []⟩

/-- The state of a new node. -/
def newChain : ChainState := (Mempool.newNode false true {}).chain

/-- A body without operations. -/
def Bodiless (b : Block) : Prop := b.transparentTxs = [] ∧ b.utxoTxs = [] ∧ b.registryOps = [] ∧ b.custodyOps = []

theorem Bodiless.items {b : Block} (h : Bodiless b) : b.items = [] := by
  simp [Block.items, h.1, h.2.1, h.2.2.1, h.2.2.2]

theorem Bodiless.bodyRoot {b : Block} (h : Bodiless b) : b.bodyRoot = Hash.zero := by
  simp [Block.bodyRoot, h.1, h.2.1, h.2.2.1, h.2.2.2]

/-- There is nothing to trim. -/
theorem Bodiless.trim {b : Block} (h : Bodiless b) : b.trim = b := by
  have hdrop : b.dropOne = none := by simp [Block.dropOne, h.1, h.2.1, h.2.2.1, h.2.2.2]
  rw [Block.trim, Block.trimLoop, hdrop]
  exact ite_self b

/-- The second binding of a template without operations. -/
theorem bind_again {st : ChainState} {gd : GhostdagData} {sp : Hash} {b : Block} (hbody : Bodiless b)
    (hroot : b.merkleRoot = Hash.zero) (hdata : st.computeGhostdag b.parents = .ok gd) (hsp : gd.selectedParent = some sp) :
    st.bindParentCommitments { (committed st gd sp b).trim with merkleRoot := (committed st gd sp b).trim.bodyRoot }
      = .ok (committed st gd sp (committed st gd sp b)) := by
  have hbound : Bodiless (committed st gd sp b) := hbody
  have hsame : { committed st gd sp b with merkleRoot := Hash.zero } = committed st gd sp b := by
    rw [← hroot]
    rfl
  rw [hbound.trim, hbound.bodyRoot, hsame]
  exact bind_draft hbound.items hdata hsp

theorem createBlockTemplate_of_binds {st : ChainState} {easy : Bool} {time entropy : UInt64} {bound template : Block}
    (hbind : st.bindParentCommitments (st.draftTemplate easy time entropy) = .ok bound)
    (hagain : st.bindParentCommitments { bound.trim with merkleRoot := bound.trim.bodyRoot } = .ok template) :
    st.createBlockTemplate easy time entropy
      = .ok { blockTemplate := template, target := powTarget (st.draftTemplate easy time entropy).difficulty } := by
  simp only [ChainState.createBlockTemplate, hbind, hagain, Except.mapError, bind, Except.bind, pure, Except.pure]

/-- Without operations the template is the draft with its commitments. -/
theorem createBlockTemplate_bodiless {st : ChainState} {easy : Bool} {time entropy : UInt64} {gd : GhostdagData}
    {sp : Hash} (hbody : Bodiless (st.draftTemplate easy time entropy))
    (hdata : st.computeGhostdag st.templateParents = .ok gd) (hsp : gd.selectedParent = some sp) :
    ∃ work, st.createBlockTemplate easy time entropy = .ok work ∧ Bodiless work.blockTemplate ∧
      work.blockTemplate.interlinks = (st.dag[sp]?.map computeInterlinks).getD [] :=
  ⟨_, createBlockTemplate_of_binds (bind_draft hbody.items hdata hsp) (bind_again hbody rfl hdata hsp), hbody, rfl⟩

/-- The time of the first template. -/
def firstTime : UInt64 := genesisTimestampMs + 1

theorem templateParents_newChain : newChain.templateParents = [genesisBlock.hash] := by
  show ([genesisBlock.hash].mergeSort _).take maxBlockParents = _
  rw [List.mergeSort_singleton]
  rfl

theorem numbered_newChain : Numbered 1 newChain := numbered_seeded true

theorem height_newChain : UInt64.ofNat (newChain.prunedSelectedBlocks + newChain.mainChain.length) = 1 := by
  have hchain : newChain.mainChain = [genesisBlock.hash] := rfl
  have hpruned : newChain.prunedSelectedBlocks = 0 := rfl
  rw [hchain, hpruned]
  rfl

theorem data_newChain : newChain.computeGhostdag newChain.templateParents = .ok (onlyParent newChain.ghostdag genesisBlock.hash) := by
  have w := numbered_newChain.whole
  rw [templateParents_newChain]
  exact tryCompute_onlyParent ((w.dagInv.known _).mpr w.genesis_mem)

theorem bodiless_newChain : Bodiless (newChain.draftTemplate env.labEasyPow firstTime 0) := by
  refine ⟨?_, ?_, rfl, rfl⟩
  · show (newChain.selectValidBlockTxs []).take 1000 = []
    rw [ChainState.selectValidBlockTxs_nil, List.take_nil]
  · show (newChain.selectValidUtxoTxs []).take 1000 = []
    rw [ChainState.selectValidUtxoTxs, rankedByRate, List.mergeSort_nil]
    rfl

section First

variable {work : MiningWork} {share : MinerShare}

/-- The template is bound under the identity of the only miner. -/
theorem bind_first (hbody : Bodiless work.blockTemplate)
    (hparents : work.blockTemplate.parents = newChain.templateParents) (nonce : UInt64) : ∃ links root,
    newChain.bindParentCommitments (work.identify minerKey nonce)
      = .ok { work.identify minerKey nonce with interlinks := links, stateRoot := root } := by
  have hidentified : Bodiless (work.identify minerKey nonce) := hbody
  have hdata : newChain.computeGhostdag (work.identify minerKey nonce).parents
      = .ok (onlyParent newChain.ghostdag genesisBlock.hash) := by
    show newChain.computeGhostdag work.blockTemplate.parents = _
    rw [hparents, data_newChain]
  exact ⟨_, _, bind_draft hidentified.items hdata rfl⟩

theorem meets_first {b : Block} (hheight : b.height = 1) (hnonce : b.nonce = 0) :
    hashMeetsTarget b.hash (powTarget b.difficulty) = true := by
  rw [← verifyPow_eq, hash_eq, hheight, hnonce]
  exact verifyPow_blockHash 1 0 (by norm_num) (by norm_num) _

/-- The search of the only miner ends at the first nonce. -/
theorem search_first {m : Miner} (hkey : m.publicKey = minerKey)
    (hmatch : Address.matchesPubkey m.address m.publicKey = true) (hbody : Bodiless work.blockTemplate)
    (hparents : work.blockTemplate.parents = newChain.templateParents) (hheight : work.blockTemplate.height = 1)
    (htarget : work.target = powTarget work.blockTemplate.difficulty) :
    ∃ share, share.miner = m.address ∧ checkMinerShares newChain [m] work ⟨1, [(0, 1)]⟩ = some share := by
  obtain ⟨links, root, hbind⟩ := bind_first hbody hparents work.blockTemplate.nonce
  rw [← hkey] at hbind
  have hmeets : hashMeetsTarget { { work.identify m.publicKey work.blockTemplate.nonce with
      interlinks := links, stateRoot := root } with nonce := 0 }.hash work.target = true := by
    rw [htarget]
    exact meets_first hheight rfl
  obtain ⟨share, hshare, hminer⟩ : ∃ share : MinerShare,
      checkMinerShares newChain [m] work ⟨1, [(0, 1)]⟩ = some share ∧ share.miner = m.address :=
    ⟨_, checkMinerShares_of hmatch hbind (findLane_first hmeets), rfl⟩
  exact ⟨share, hminer, hshare⟩

theorem assemble_first {m : Miner} (hkey : m.publicKey = minerKey) (hsecret : m.signingKey = some [])
    (hmatch : Address.matchesPubkey m.address m.publicKey = true) (hbody : Bodiless work.blockTemplate)
    (hparents : work.blockTemplate.parents = newChain.templateParents) (hminer : share.miner = m.address) :
    ∃ block, assembleBlock newChain ([m] ++ []) work share = .ok block := by
  obtain ⟨links, root, hbind⟩ := bind_first hbody hparents share.nonce
  have hsign : ∀ sid : Bytes, signPq512 (utf8 "birth-certificate") sid [] = .ok (List.replicate pqSignatureSize 0) :=
    fun _ => rfl
  rw [← hkey] at hbind
  rw [← hminer] at hmatch
  exact assembleBlock_of hminer hsecret hmatch hbind (hsign _)

end First

/-- Everything in a new node is older than the first template. -/
theorem old_newChain {h : Hash} {b : Block} (hb : newChain.dag[h]? = some b) : b = genesisBlock :=
  (ChainState.seeded_get false true {} hb).2

theorem room_first {work : MiningWork} (hbody : Bodiless work.blockTemplate)
    (hlinks : work.blockTemplate.interlinks = (newChain.dag[genesisBlock.hash]?.map computeInterlinks).getD [])
    (t : Templated newChain env.labEasyPow firstTime 0 work) :
    work.blockTemplate.baseSize + pqPublicKeySize ≤ maxBlockSize := by
  have hshort : work.blockTemplate.interlinks.length ≤ 64 := by
    rw [hlinks]
    cases hget : newChain.dag[genesisBlock.hash]? with
    | none => simp
    | some b =>
        have hgenesis : b.interlinks.length ≤ 64 := by
          rw [old_newChain hget, genesisBlock]
          exact Nat.zero_le 64
        exact ChainState.length_computeInterlinks b hgenesis
  have hbase : work.blockTemplate.baseSize = _ :=
    length_encode { work.blockTemplate with starkProof := [], birthCertificate := [] }
  dsimp only [List.length_nil] at hbase
  rw [t.parents, templateParents_newChain, hbody.1, hbody.2.1, hbody.2.2.1, hbody.2.2.2, t.creatorPubkey, length_encode_nil,
    length_encode_nil, length_encode_nil, length_encode_nil, Bincode.length_encode_hashes, Bincode.length_encode_hashes] at hbase
  dsimp only [List.length_nil, List.length_cons] at hbase
  have hkey : pqPublicKeySize = 2592 := rfl
  have hmax : maxBlockSize = 22528 := rfl
  omega

theorem acceptable_first {work : MiningWork} {m : Miner} {share : MinerShare} {block : Block}
    (hbody : Bodiless work.blockTemplate)
    (hlinks : work.blockTemplate.interlinks = (newChain.dag[genesisBlock.hash]?.map computeInterlinks).getD [])
    (t : Templated newChain env.labEasyPow firstTime 0 work) (hminer : share.miner = m.address)
    (hblock : assembleBlock newChain ([m] ++ []) work share = .ok block) :
    newChain.Acceptable newChain env work.blockTemplate block := by
  obtain ⟨secret, gd, sp, links, root, -, -, assembled⟩ := assembleBlock_ok hminer hblock
  have w := numbered_newChain.whole
  have hnone : newChain.finalityPoint = none := (numbered_newChain.shallow (by decide)).finalityPoint_eq_none w
  have htime : block.timestamp = firstTime := assembled.timestamp.trans t.timestamp
  have hlate : genesisBlock.timestamp.toNat < firstTime.toNat := by decide
  refine ⟨room_first hbody hlinks t, fun hmem => ?_, ?_, rfl, fun p hp parent hparent => ?_, fun sp' hsp' => ?_, ?_⟩
  · obtain ⟨i, hi, heq⟩ := (numbered_newChain.mem _).mp hmem
    rw [assembled.hash, hash_eq] at heq
    have hheight : work.blockTemplate.height = 1 := t.height.trans height_newChain
    replace heq : blockHash work.blockTemplate.height.toNat share.nonce.toNat = blockHash i 0 := heq
    rw [hheight] at heq
    have hone := (blockHash_inj (by decide) share.nonce.toNat_lt (by omega) (by norm_num) heq).1
    have : (1 : UInt64).toNat = 1 := rfl
    omega
  · exact ChainState.checkFinality_eq_ok.mpr fun fp sp' hfp _ => by simp [hnone] at hfp
  · rw [old_newChain hparent, htime]
    exact hlate.le
  · rw [htime]
    refine ChainState.pastMedianTime_lt (Nat.zero_lt_of_lt hlate) fun c b _ hb => ?_
    rw [old_newChain hb]
    exact hlate
  · rw [htime]
    decide

/-- **A new node accepts the first block it mines.** -/
theorem own_block_first : ∃ work share block chain,
    newChain.createBlockTemplate env.labEasyPow firstTime 0 = .ok work ∧
      checkMinerShares newChain [soleMiner] work ⟨1, [(0, 1)]⟩ = some share ∧
      assembleBlock newChain ([soleMiner] ++ []) work share = .ok block ∧ newChain.addBlock env block = .ok chain := by
  obtain ⟨work, htemplate, hbody, hlinks⟩ := createBlockTemplate_bodiless bodiless_newChain data_newChain rfl
  have t := createBlockTemplate_ok htemplate
  have hheight : work.blockTemplate.height = 1 := t.height.trans height_newChain
  have hkey : soleMiner.publicKey = minerKey := rfl
  have hsecret : soleMiner.signingKey = some [] := rfl
  have hmatch : Address.matchesPubkey soleMiner.address soleMiner.publicKey = true := matchesPubkey_miner
  generalize soleMiner = m at hkey hsecret hmatch ⊢
  obtain ⟨share, hminer, hshare⟩ := search_first hkey hmatch hbody t.parents hheight t.target
  obtain ⟨block, hblock⟩ := assemble_first hkey hsecret hmatch hbody t.parents hminer
  have hkeys : ∀ m' ∈ [m], ∀ secret, m'.signingKey = some secret → KeyPair m'.publicKey secret := by
    intro m' hm secret hs
    obtain rfl := List.mem_singleton.mp hm
    obtain rfl := Option.some.inj (hs.symm.trans hsecret)
    rw [hkey]
    exact sampleKey 0
  have hiff := Mempool.own_block_accepted_iff {} [] [] [] [] htemplate hshare hblock hkeys sampleProving_sound
  obtain ⟨chain, hchain⟩ := hiff.mpr (acceptable_first hbody hlinks t hminer hblock)
  exact ⟨work, share, block, chain, htemplate, hshare, hblock, hchain⟩

end Sample

end HassanNode
