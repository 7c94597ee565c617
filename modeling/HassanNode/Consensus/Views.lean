import Mathlib
import HassanNode.Consensus.Mining

/-!
# HassanNode.Consensus.Views

Two nodes that hold the same past of a block, and may otherwise hold different
blocks (`SharedPast`). The difficulty they require of it is the same up to the
supply-era floor, which each takes from its own live ledger; what they think of
its transactions is the same up to the custody anchors, which each looks up in
its own DAG.
-/

namespace HassanNode

open Std (ExtTreeMap ExtTreeSet)
open Params

/-- A parent, or a block in the past of one. -/
def InPast (dag : Dag) (parents : List Hash) (h : Hash) : Prop := ∃ p ∈ parents, h = p ∨ Past dag h p

theorem InPast.parent {dag : Dag} {parents : List Hash} {h p : Hash} (hh : InPast dag parents h)
    (hp : p ∈ dag.parentsOf h) : InPast dag parents p := by
  obtain ⟨q, hq, rfl | hpast⟩ := hh
  · exact ⟨h, hq, Or.inr (.parent hp)⟩
  · exact ⟨q, hq, Or.inr ((Past.parent hp).trans hpast)⟩

theorem InPast.past {dag : Dag} {parents : List Hash} {h x : Hash} (hh : InPast dag parents h)
    (hx : Past dag x h) : InPast dag parents x := by
  obtain ⟨q, hq, rfl | hpast⟩ := hh
  · exact ⟨h, hq, Or.inr hx⟩
  · exact ⟨q, hq, Or.inr (hx.trans hpast)⟩

namespace ChainState

/-- Both nodes hold the whole past of these parents, with the same GHOSTDAG
data. -/
structure SharedPast (st st' : ChainState) (parents : List Hash) : Prop where
  known : ∀ p ∈ parents, p ∈ st.dag
  blocks : ∀ h, InPast st.dag parents h → st'.dag[h]? = st.dag[h]?
  data : ∀ h, InPast st.dag parents h → st'.ghostdag[h]? = st.ghostdag[h]?

section Difficulty

variable {st st' : ChainState} {A : Hash → Prop}

theorem addSample_congr (hdag : ∀ h, A h → st'.dag[h]? = st.dag[h]?) (acc : DaaSamples) {blue : Hash}
    (hblue : A blue) : st'.addSample acc blue = st.addSample acc blue := by
  simp only [addSample, hdag blue hblue]

theorem foldl_addSample_congr (hdag : ∀ h, A h → st'.dag[h]? = st.dag[h]?) (acc : DaaSamples)
    {blues : List Hash} (hblues : ∀ x ∈ blues, A x) :
    blues.foldl st'.addSample acc = blues.foldl st.addSample acc := by
  induction blues generalizing acc with
  | nil => rfl
  | cons x blues ih =>
      rw [List.foldl_cons, List.foldl_cons, addSample_congr hdag acc (hblues x (by simp)),
        ih _ fun y hy => hblues y (List.mem_cons_of_mem x hy)]

/-- The difficulty window reads the past only. -/
theorem daaWalk_congr {dag dag' : Dag} {anc anc' : Hash → Hash → Bool}
    (g : Agree dag dag' st.ghostdag st'.ghostdag anc anc' A)
    (hdag : ∀ h, A h → st'.dag[h]? = st.dag[h]?) (fuel : Nat) {h : Hash} (hh : A h)
    (acc : DaaSamples) : st'.daaWalk fuel h acc = st.daaWalk fuel h acc := by
  induction fuel generalizing h acc with
  | zero => rfl
  | succ fuel ih =>
      rw [daaWalk, daaWalk, g.data h hh]
      split
      · rfl
      · cases hd : st.ghostdag[h]? with
        | none => rfl
        | some d =>
            obtain ⟨hsp, hblues⟩ := g.links h hh d hd
            simp only [foldl_addSample_congr hdag acc hblues, addSample_congr hdag _ hh]
            cases hparent : d.selectedParent with
            | none => rfl
            | some p => exact ih (hsp p hparent) _

end Difficulty

section Shared

variable [Crypto] {st st' : ChainState} {parents : List Hash}

theorem SharedPast.agree (h : st.SharedPast st' parents) (inv : DagInv st.dag st.ghostdag) :
    Agree st.dag st'.dag st.ghostdag st'.ghostdag (fun _ _ => false) (fun _ _ => false)
      (InPast st.dag parents) where
  parents k hk := by simp only [Dag.parentsOf, h.blocks k hk]
  closed _ hk _ hp := hk.parent hp
  data := h.data
  links _ hk _ hd := ⟨fun p hp => hk.past ((inv.links hd).1 p hp),
    fun x hx => hk.past ((inv.links hd).2 x hx)⟩
  oracle _ _ _ _ := rfl

/-- **The required difficulty depends on the past and on the era floor.** -/
theorem SharedPast.expectedDifficultyAt (h : st.SharedPast st' parents)
    (inv : DagInv st.dag st.ghostdag) {easy : Bool} {t : Nat}
    (hfloor : eraMinDifficulty easy st'.live.mintedSupply t
      = eraMinDifficulty easy st.live.mintedSupply t) :
    st'.expectedDifficultyAt easy parents t = st.expectedDifficultyAt easy parents t := by
  have g := h.agree inv
  have hin : ∀ p ∈ parents, InPast st.dag parents p := fun p hp => ⟨p, hp, Or.inl rfl⟩
  have hselect : st'.ghostdag.selectParent parents = st.ghostdag.selectParent parents :=
    g.selectBest hin
  unfold ChainState.expectedDifficultyAt
  rw [hfloor, hselect]
  cases hsp : st.ghostdag.selectParent parents with
  | none => rfl
  | some sp =>
      have hspin := hin sp (GhostdagMap.selectBest_eq_some.mp hsp).mem
      have hsamples : st'.collectDaaBlueSamples sp = st.collectDaaBlueSamples sp := by
        rw [collectDaaBlueSamples, collectDaaBlueSamples, g.scoreOf hspin,
          daaWalk_congr g h.blocks _ hspin]
      simp only [hsamples, h.blocks sp hspin]

/-! ### The era floor -/

omit [Crypto] in
/-- The era floor is the same on both sides of the threshold, or not at all. -/
theorem eraMinDifficulty_eq_iff {easy : Bool} {minted minted' t : Nat} :
    eraMinDifficulty easy minted t = eraMinDifficulty easy minted' t ↔
      easy = true ∨ (minted < bootstrapEraEnd ↔ minted' < bootstrapEraEnd) := by
  have hne : bootstrapMinDifficulty ≠ hardEraMinDifficulty := by decide
  unfold eraMinDifficulty
  cases easy with
  | true => simp
  | false =>
      by_cases h : minted < bootstrapEraEnd <;> by_cases h' : minted' < bootstrapEraEnd <;>
        simp [h, h', hne, hne.symm]

/-- On the genesis block the required difficulty is the era floor. -/
theorem expectedDifficultyAt_genesis (hb : st.dag[genesisBlock.hash]? = some genesisBlock)
    (hd : st.ghostdag[genesisBlock.hash]? = some .genesis) (easy : Bool) (t : Nat) :
    st.expectedDifficultyAt easy [genesisBlock.hash] t
      = eraMinDifficulty easy st.live.mintedSupply t := by
  have hknown : genesisBlock.hash ∈ st.ghostdag := by
    simp [ExtTreeMap.mem_iff_isSome_getElem?, hd]
  have hselect : st.ghostdag.selectParent [genesisBlock.hash] = some genesisBlock.hash :=
    GhostdagMap.selectBest_eq_some.mpr ⟨by simp, hknown, fun c hc _ => by
      rw [List.mem_singleton.mp hc]
      exact (st.ghostdag.rankLe_total _ _).elim id id⟩
  have hsamples : (st.collectDaaBlueSamples genesisBlock.hash).length < daaWindow := by
    simp only [collectDaaBlueSamples, daaWalk, hd, GhostdagData.genesis]
    simp [addSample, hb, daaWindow]
  have hlow : genesisBlock.difficulty.toNat ≤ eraMinDifficulty easy st.live.mintedSupply t := by
    have : genesisBlock.difficulty.toNat = 1 := rfl
    unfold eraMinDifficulty
    rw [this]
    split <;> decide
  simp only [expectedDifficultyAt, hselect, hb, Option.map_some, Option.getD_some, if_pos hsamples,
    max_eq_right hlow, max_self]

/-- Two nodes with the genesis block share its past. -/
theorem sharedPast_genesis (hb : st.dag[genesisBlock.hash]? = some genesisBlock)
    (hd : st.ghostdag[genesisBlock.hash]? = some .genesis)
    (hb' : st'.dag[genesisBlock.hash]? = some genesisBlock)
    (hd' : st'.ghostdag[genesisBlock.hash]? = some .genesis) :
    st.SharedPast st' [genesisBlock.hash] := by
  have honly : ∀ h, InPast st.dag [genesisBlock.hash] h → h = genesisBlock.hash := by
    rintro h ⟨p, hp, hor⟩
    obtain rfl := List.mem_singleton.mp hp
    refine hor.resolve_right fun hpast => ?_
    obtain ⟨q, hq, -⟩ := hpast.cases_parent
    rw [Dag.parentsOf_eq hb] at hq
    cases hq
  refine ⟨fun p hp => ?_, fun h hh => ?_, fun h hh => ?_⟩
  · rw [List.mem_singleton.mp hp]
    exact DagInv.mem_of_getElem? hb
  · rw [honly h hh, hb, hb']
  · rw [honly h hh, hd, hd']

/-- **The required difficulty is a function of the past exactly when both nodes
are in the same supply era.** -/
theorem difficulty_agrees_iff_same_era (easy : Bool) (seed seed' : Ledger)
    (calls calls' : List (Env × Block)) :
    let st := (seeded easy true seed).run calls
    let st' := (seeded easy true seed').run calls'
    (∀ parents t, st.SharedPast st' parents →
      st'.expectedDifficultyAt easy parents t = st.expectedDifficultyAt easy parents t) ↔
    (easy = true ∨
      (st'.live.mintedSupply < bootstrapEraEnd ↔ st.live.mintedSupply < bootstrapEraEnd)) := by
  intro st st'
  have inv : DagInv st.dag st.ghostdag := (Archival.run easy seed calls).whole.dagInv
  obtain ⟨hb, hd⟩ : st.dag[genesisBlock.hash]? = some genesisBlock ∧
      st.ghostdag[genesisBlock.hash]? = some .genesis := archival_genesis easy seed calls
  obtain ⟨hb', hd'⟩ : st'.dag[genesisBlock.hash]? = some genesisBlock ∧
      st'.ghostdag[genesisBlock.hash]? = some .genesis := archival_genesis easy seed' calls'
  constructor
  · intro hall
    have := hall [genesisBlock.hash] 0 (sharedPast_genesis hb hd hb' hd')
    rwa [expectedDifficultyAt_genesis hb hd, expectedDifficultyAt_genesis hb' hd',
      eraMinDifficulty_eq_iff] at this
  · intro hera parents t hshared
    exact hshared.expectedDifficultyAt inv (eraMinDifficulty_eq_iff.mpr hera)

/-! ### Custody anchors -/

/-- Archival runs keep the chain id. -/
theorem archival_chainId (easy : Bool) (seed : Ledger) (calls : List (Env × Block)) :
    ((seeded easy true seed).run calls).chainId = Params.chainId := by
  refine (run_induction (P := fun s => s.archival = true ∧ s.chainId = Params.chainId) ⟨rfl, rfl⟩
    ?_ calls).2
  rintro s env block gd sp ⟨harch, hchain⟩ -
  rw [accept_archival s env block gd harch, (s.acceptFull_core env block gd).chainId,
    (s.acceptFull_core env block gd).archival]
  exact ⟨harch, hchain⟩

omit [Crypto] in
theorem forM_congr {α : Type} {xs : List α} {f g : α → Except String Unit}
    (h : ∀ x ∈ xs, f x = g x) : xs.forM f = xs.forM g := by
  induction xs with
  | nil => rfl
  | cons x xs ih =>
      change (f x >>= fun _ => xs.forM f) = (g x >>= fun _ => xs.forM g)
      rw [h x (by simp), ih fun y hy => h y (List.mem_cons_of_mem x hy)]

omit [Crypto] in
theorem noteUtxoTxs_congr (hchain : st'.chainId = st.chainId) (seen : List OutPoint)
    (txs : List UtxoTx) : st'.noteUtxoTxs seen txs = st.noteUtxoTxs seen txs := by
  induction txs generalizing seen with
  | nil => rfl
  | cons tx txs ih => simp only [noteUtxoTxs, hchain, ih]

/-- What a node thinks of a body depends on its chain id and on the blocks that
the body's custody certificates name. -/
theorem validateBlockTransactions_congr {block : Block} (hchain : st'.chainId = st.chainId)
    (hanchors : ∀ op ∈ block.custodyOps, st'.dag[op.blockHash]? = st.dag[op.blockHash]?) :
    st'.validateBlockTransactions block = st.validateBlockTransactions block := by
  have hcustody : st'.validateCustodyOps block = st.validateCustodyOps block :=
    forM_congr fun op hop => by simp only [validateCustodyOp, hchain, hanchors op hop]
  simp only [validateBlockTransactions, validateAccountForms, validateUtxoForms,
    noteUtxoTxs_congr hchain, validateRegistryOps, hcustody, hchain]

/-- The anchors of a valid body are blocks of the node. -/
theorem anchors_mem {block : Block} (h : st.validateBlockTransactions block = .ok ()) :
    ∀ op ∈ block.custodyOps, op.blockHash ∈ st.dag := by
  intro op hop
  obtain ⟨-, h⟩ := Except.seq_eq_ok h
  obtain ⟨-, h⟩ := Except.seq_eq_ok h
  obtain ⟨-, h⟩ := Except.seq_eq_ok h
  have hvalid := Except.forM_eq_ok h op hop
  rw [validateCustodyOp] at hvalid
  obtain ⟨-, hvalid⟩ := Except.seq_eq_ok hvalid
  obtain ⟨-, hvalid⟩ := Except.seq_eq_ok hvalid
  obtain ⟨-, hvalid⟩ := Except.seq_eq_ok hvalid
  obtain ⟨-, hvalid⟩ := Except.seq_eq_ok hvalid
  obtain ⟨sid, -, hvalid⟩ := Except.bind_eq_ok hvalid
  obtain ⟨-, hvalid⟩ := Except.seq_eq_ok hvalid
  cases hanchor : st.dag[op.blockHash]? with
  | none =>
      rw [hanchor] at hvalid
      cases hvalid
  | some anchor => exact DagInv.mem_of_getElem? hanchor

/-- A certificate whose fields are those of a full block of the DAG. -/
theorem validateCustodyOp_ok {op : CustodyCertificate}
    {anchor : Block} {sid : Bytes}
    (hkind : (op.kind != .bridgeExit && op.kind != .bridgeEnter) = true)
    (hchain : op.chainId = st.chainId) (hamount : op.amount ≠ 0)
    (howner : Address.isValid op.owner = true) (hsid : op.settlementBytes = .ok sid)
    (hverify : op.verify sid = .ok ()) (hanchor : st.dag[op.blockHash]? = some anchor)
    (hproof : anchor.starkProof ≠ []) (hbirth : anchor.birthCertificate ≠ [])
    (hsettled : op.settlementId = Address.hexEncode anchor.settlementId)
    (hissued : op.issuerPubkey = anchor.creatorPubkey)
    (hcertificate : op.birthCertificate = anchor.birthCertificate) :
    st.validateCustodyOp op = .ok () := by
  have hnonzero : (op.amount != 0) = true := by simpa using hamount
  have hwitness : (!anchor.starkProof.isEmpty && !anchor.birthCertificate.isEmpty) = true := by
    simp [hproof, hbirth]
  simp only [validateCustodyOp, hkind, hchain, hnonzero, howner, hsid, hverify, hanchor,
    hwitness, ensure, bind, Except.bind, Except.mapError, if_true, beq_self_eq_true]
  rw [hsettled, hissued, hcertificate]
  simp only [beq_self_eq_true, if_true]

end Shared

end ChainState

namespace Sample

/-- Two archival nodes with the genesis block in common: one has mined into the
second era, the other has mined nothing. -/
theorem difficulty_differs_across_eras :
    ¬ ∀ (easy : Bool) (seed seed' : Ledger) (calls calls' : List (Env × Block)) parents t,
      ((ChainState.seeded easy true seed).run calls).SharedPast
        ((ChainState.seeded easy true seed').run calls') parents →
      ((ChainState.seeded easy true seed').run calls').expectedDifficultyAt easy parents t
        = ((ChainState.seeded easy true seed).run calls).expectedDifficultyAt easy parents t := by
  intro hall
  obtain ⟨calls, hcalls⟩ := built_run true (chain 20000)
  have f : Followed true (chain 20000) ((ChainState.seeded false true {}).run calls) :=
    hcalls ▸ followed_chain true (by decide)
  have inv : ChainState.Archival {} ((ChainState.seeded false true {}).run calls) := .run false {} calls
  have hminted := f.mintedSupply_chain (le_refl _) (by decide) (by decide)
  rw [← inv.live f.selectedTip_chain] at hminted
  obtain ⟨hb, hd⟩ := ChainState.archival_genesis false {} []
  obtain ⟨hb', hd'⟩ := ChainState.archival_genesis false {} calls
  have heq := hall false {} {} [] calls _ 0 (ChainState.sharedPast_genesis hb hd hb' hd')
  rw [ChainState.expectedDifficultyAt_genesis hb hd, ChainState.expectedDifficultyAt_genesis hb' hd',
    hminted, ChainState.eraMinDifficulty_eq_iff] at heq
  have hfresh : ((ChainState.seeded false true {}).run []).live.mintedSupply < bootstrapEraEnd := by
    decide
  have hmature : ¬ 20000 * blockReward < bootstrapEraEnd := by decide
  exact hmature ((heq.resolve_left (by decide)).mpr hfresh)

/-! ### A stake anchored outside the past -/

theorem forM_singleton {α : Type} (x : α) (f : α → Except String Unit) : [x].forM f = f x := by
  change (f x >>= fun _ => pure ()) = f x
  cases f x <;> rfl

/-- A stake of the sample miner, anchored at this block. -/
def stake (anchor : Block) : CustodyCertificate where
  kind := .stakeLock
  blockHash := anchor.hash
  settlementId := Address.hexEncode anchor.settlementId
  birthCertificate := anchor.birthCertificate
  issuerPubkey := anchor.creatorPubkey
  foreignChainId := 0
  amount := 1
  titleId := none
  owner := Address.ofPubkey minerKey
  nonce := 0
  chainId := Params.chainId
  signature := List.replicate pqSignatureSize 0
  fromPubkey := minerKey
  dualSignature := none

/-- A block on the genesis block with that stake. -/
def staking (anchor : Block) : Block :=
  { genesisBlock with parents := [genesisBlock.hash], custodyOps := [stake anchor] }

theorem settlementBytes_stake (anchor : Block) :
    (stake anchor).settlementBytes = .ok anchor.settlementId := by
  have hlen : anchor.settlementId.length = 64 := Hash.length_asBytes _
  have hid : (stake anchor).settlementId = Address.hexEncode anchor.settlementId := rfl
  rw [CustodyCertificate.settlementBytes, hid, Address.hexDecode_hexEncode]
  simp only [hlen, ne_eq, not_true_eq_false, if_false]


theorem verifyBirth_sample {birth key : Bytes} (sid : Bytes) (hkey : key.length = pqPublicKeySize)
    (hbirth : birth.length = pqSignatureSize) : CustodyCertificate.verifyBirth birth sid key = true := by
  rw [CustodyCertificate.verifyBirth, verifyPq512_sample _ _ hkey hbirth, hkey, Bool.and_true]
  exact beq_self_eq_true _

theorem matchesPubkey_miner : Address.matchesPubkey (Address.ofPubkey minerKey) minerKey = true := by
  simp [Address.matchesPubkey, Address.ofPubkey, Address.equivalent]

theorem isValid_miner : Address.isValid (Address.ofPubkey minerKey) = true :=
  Address.isValid_of_isBech32m (Address.isBech32m_ofPubkey minerKey)

theorem verify_stake {anchor : Block} (hkey : anchor.creatorPubkey.length = pqPublicKeySize)
    (hbirth : anchor.birthCertificate.length = pqSignatureSize) :
    (stake anchor).verify anchor.settlementId = .ok () := by
  have hminer : minerKey.length = pqPublicKeySize := List.length_replicate
  have hsigned : verifyPq512 (utf8 "custody") (stake anchor).messageBytes minerKey
      (List.replicate pqSignatureSize 0) = true :=
    verifyPq512_sample _ _ hminer List.length_replicate
  have hissuer := verifyBirth_sample anchor.settlementId hkey hbirth
  have hfrom : (stake anchor).fromPubkey = minerKey := rfl
  have hsignature : (stake anchor).signature = List.replicate pqSignatureSize 0 := rfl
  have hown : (stake anchor).owner = Address.ofPubkey minerKey := rfl
  have hdual : (stake anchor).dualSignature = none := rfl
  have hsettled : (stake anchor).settlementId = Address.hexEncode anchor.settlementId := rfl
  have hcertificate : (stake anchor).birthCertificate = anchor.birthCertificate := rfl
  have hissued : (stake anchor).issuerPubkey = anchor.creatorPubkey := rfl
  simp only [CustodyCertificate.verify, hfrom, hsignature, hown, hdual, hsettled, hcertificate,
    hissued, hminer, matchesPubkey_miner, hsigned, hissuer, ne_eq, not_true_eq_false, if_false,
    Bool.not_true, Bool.false_eq_true, Option.any_none]


theorem validateCustodyOp_stake {st : ChainState} {anchor : Block}
    (hchain : st.chainId = Params.chainId) (hanchor : st.dag[anchor.hash]? = some anchor)
    (hproof : anchor.starkProof ≠ []) (hkey : anchor.creatorPubkey.length = pqPublicKeySize)
    (hbirth : anchor.birthCertificate.length = pqSignatureSize) :
    st.validateCustodyOp (stake anchor) = .ok () := by
  have hnonempty : anchor.birthCertificate ≠ [] := by
    intro hnil
    rw [hnil] at hbirth
    cases hbirth
  have hsettled : (stake anchor).settlementId = Address.hexEncode anchor.settlementId := rfl
  have howner : Address.isValid (stake anchor).owner = true := isValid_miner
  exact ChainState.validateCustodyOp_ok rfl hchain.symm one_ne_zero howner
    (settlementBytes_stake anchor) (verify_stake hkey hbirth) hanchor hproof hnonempty hsettled rfl rfl

theorem validate_staking {st : ChainState} {anchor : Block}
    (hop : st.validateCustodyOp (stake anchor) = .ok ()) :
    st.validateBlockTransactions (staking anchor) = .ok () := by
  have hcustody : (staking anchor).custodyOps = [stake anchor] := rfl
  have htransparent : (staking anchor).transparentTxs = [] := rfl
  have hutxo : (staking anchor).utxoTxs = [] := rfl
  have hregistry : (staking anchor).registryOps = [] := rfl
  have haccounts : st.validateAccountForms [] = .ok () := rfl
  have hspends : st.validateUtxoForms [] = .ok () := rfl
  have hops : st.validateRegistryOps (staking anchor) = .ok () := by
    rw [ChainState.validateRegistryOps, hregistry]
    rfl
  have hstakes : st.validateCustodyOps (staking anchor) = .ok () := by
    rw [ChainState.validateCustodyOps, hcustody, forM_singleton, hop]
  simp only [ChainState.validateBlockTransactions, htransparent, hutxo, haccounts, hspends, hops,
    hstakes, bind, Except.bind]

/-- A node that has mined one block, which can anchor a stake. -/
theorem exists_anchor : ∃ (calls : List (Env × Block)) (anchor : Block),
    ((ChainState.seeded false true {}).run calls).dag[anchor.hash]? = some anchor ∧
      anchor.hash = blockHash 1 0 ∧ anchor.starkProof ≠ [] ∧
      anchor.creatorPubkey.length = pqPublicKeySize ∧
      anchor.birthCertificate.length = pqSignatureSize := by
  have h := numbered_seeded true
  have hb : Numbered.Buildable 1 [0] :=
    ⟨by simp, by simp [maxBlockParents], by simp, by simp, Or.inr ⟨0, rfl⟩⟩
  obtain ⟨gd, sp, a, hhash, -, -, -, gd', sp', hmined⟩ := h.admitted hb (h.shallow (by decide))
  have hwitness := committed_draft (ChainState.seeded false true {}) gd' sp' (hashes [0]) 1 0
  refine ⟨[(env, mined (ChainState.seeded false true {}) (hashes [0]) 1 0)],
    mined (ChainState.seeded false true {}) (hashes [0]) 1 0, ?_, hhash, ?_, ?_, ?_⟩
  · rw [ChainState.run, List.foldl_cons, List.foldl_nil]
    exact a.getElem?_step rfl
  · rw [hmined, hwitness.1]
    simp
  · rw [hmined, hwitness.2.1]
    exact List.length_replicate
  · rw [hmined, hwitness.2.2]
    exact List.length_replicate

end Sample

end HassanNode
