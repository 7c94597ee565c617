import Mathlib
import HassanNode.Ledger.Executors
import HassanNode.Consensus.Blues

/-!
# HassanNode.Consensus.Mining

What a miner has to do for its block to be admitted (`Sealed.admitted`): take the
commitments that `bind_parent_commitments` computes, meet the target, and sign.
With the sample primitives every search for a nonce succeeds, so any parents a
node would accept can be built on (`mined_sealed`), and a plan that lists the
parents of one block after another is a run of the node.
-/

namespace HassanNode

open Std (ExtTreeMap ExtTreeSet)
open Params Bincode

namespace ChainState

section Sealed

variable [Crypto]

/-- `bind_parent_commitments`: the interlinks and the state root of a block
whose parents, body and miner are final. -/
def bindParentCommitments (st : ChainState) (block : Block) : Except String Block := do
  let gd ← st.computeGhostdag block.parents
  match gd.selectedParent with
  | none => .error "Cannot select parent for commitments"
  | some sp =>
    let linked := { block with interlinks := (st.dag[sp]?.map computeInterlinks).getD [] }
    let root ← st.postMergesetStateRoot sp gd.merged linked gd.blueScore
    return { linked with stateRoot := root }

/-- The time is ahead of the selected chain of `h`. -/
def AheadOf (st : ChainState) (t : Nat) (h : Hash) : Prop :=
  ∀ (c : Hash) (b : Block), Above st.ghostdag.spOf c h → st.dag[c]? = some b → b.timestamp.toNat < t

/-- The duties of a miner: known parents, the node's commitments and difficulty,
a timestamp ahead of the DAG, work, witnesses and a valid body. -/
structure Sealed (st : ChainState) (env : Env) (block : Block) : Prop where
  fresh : block.hash ∉ st.dag
  base : block.verifySize = true
  wire : block.wireSize ≤ maxBlockBytes
  parents_ne : block.parents ≠ []
  parents_le : block.parents.length ≤ maxBlockParents
  parents_nodup : block.parents.Nodup
  parents_mem : ∀ p ∈ block.parents, p ∈ st.dag ∧ p ∈ st.ghostdag
  finality : st.checkFinality block = .ok ()
  difficulty : block.difficulty.toNat
    = st.expectedDifficultyAt env.labEasyPow block.parents block.timestamp.toNat
  work : verifyPow block.hash block.difficulty = true
  proof : verifyStarkProof block = true
  birth : block.birthCertificate ≠ []
  body : block.merkleRoot = block.bodyRoot
  ahead : ∀ p ∈ block.parents, st.AheadOf block.timestamp.toNat p
  clock : block.timestamp.toNat ≤ satAdd64 env.now maxFutureDriftMs
  issuance : block.verifyIssuance = .ok ()
  transactions : st.validateBlockTransactions block = .ok ()
  bound : st.bindParentCommitments block = .ok block

variable {st : ChainState} {env : Env} {block : Block}

omit [Crypto] in
theorem chainTimes_lt {t : Nat} (n : Nat) {h : Hash} (hahead : st.AheadOf t h) :
    ∀ x ∈ st.chainTimes n h, x < t := by
  induction n generalizing h with
  | zero => simp [chainTimes]
  | succ n ih =>
      unfold chainTimes
      split
      · simp
      · rename_i b hb
        intro x hx
        rcases List.mem_cons.mp hx with rfl | hx
        · exact hahead h b (.refl h) hb
        · split at hx
          · cases hx
          · rename_i sp hsp
            split at hx
            · cases hx
            · exact ih (fun c b habove => hahead c b (.step hsp habove)) x hx

omit [Crypto] in
/-- A time ahead of a chain is beyond its median. -/
theorem pastMedianTime_lt {t : Nat} (hpos : 0 < t) {h : Hash} (hahead : st.AheadOf t h) :
    st.pastMedianTime h < t := by
  unfold pastMedianTime
  simp only
  rw [List.getD_eq_getElem?_getD]
  cases hget : ((st.chainTimes 11 h).mergeSort (· ≤ ·))[
      ((st.chainTimes 11 h).mergeSort (· ≤ ·)).length / 2]? with
  | none => simpa using hpos
  | some x =>
      have hx := List.mem_mergeSort.mp (List.mem_of_getElem? hget)
      exact chainTimes_lt 11 hahead x hx

omit [Crypto] in
theorem maxParentTime_le {t : Nat} {parents : List Hash} (hahead : ∀ p ∈ parents, st.AheadOf t p) :
    ((parents.filterMap fun p => st.dag[p]?.map (·.timestamp.toNat)).max?).getD 0 ≤ t := by
  cases hmax : (parents.filterMap fun p => st.dag[p]?.map (·.timestamp.toNat)).max? with
  | none => exact Nat.zero_le _
  | some m =>
      obtain ⟨p, hmem, hp⟩ := List.mem_filterMap.mp (List.max?_mem hmax)
      obtain ⟨b, hb, rfl⟩ := Option.map_eq_some_iff.mp hp
      exact (hahead p hmem p b (.refl p) hb).le

/-- A block that keeps its own commitments has those of its selected parent. -/
theorem bindParentCommitments_self (h : st.bindParentCommitments block = .ok block) :
    ∃ gd sp, st.computeGhostdag block.parents = .ok gd ∧ gd.selectedParent = some sp ∧
      block.interlinks = (st.dag[sp]?.map computeInterlinks).getD [] ∧
      st.postMergesetStateRoot sp gd.merged block gd.blueScore = .ok block.stateRoot := by
  obtain ⟨gd, hgd, h⟩ := Except.bind_eq_ok h
  cases hsp : gd.selectedParent with
  | none => simp [hsp] at h
  | some sp =>
      simp only [hsp] at h
      obtain ⟨root, hroot, h⟩ := Except.bind_eq_ok h
      have hblock := Except.ok.inj h
      have hlinks : (st.dag[sp]?.map computeInterlinks).getD [] = block.interlinks :=
        congrArg Block.interlinks hblock
      have hstate : root = block.stateRoot := congrArg Block.stateRoot hblock
      rw [hlinks, hstate] at hroot
      exact ⟨gd, sp, hgd, hsp, hlinks.symm, hroot⟩

/-- **Mining.** A sealed block is admitted. -/
theorem Sealed.admitted (s : st.Sealed env block) : ∃ gd sp, st.Admitted env block gd sp := by
  obtain ⟨gd, sp, hdata, hgdsp, hlinks, hroot⟩ := bindParentCommitments_self s.bound
  obtain ⟨p, hp⟩ := List.exists_mem_of_ne_nil _ s.parents_ne
  obtain ⟨best, hbest⟩ := GhostdagMap.selectBest_isSome hp (s.parents_mem p hp).2
  have hsp : best = sp :=
    Option.some.inj ((tryCompute_ok hdata hbest).selectedParent.symm.trans hgdsp)
  subst hsp
  have hpos : 0 < block.timestamp.toNat := by
    obtain ⟨b, hb⟩ := DagInv.exists_block (s.parents_mem p hp).1
    exact Nat.zero_lt_of_lt (s.ahead p hp p b (.refl p) hb)
  have hproof : (starkPrecheckFormat block.starkProof).isOk = true :=
    (Bool.and_eq_true _ _ ▸ s.proof :).1
  obtain ⟨u, hformat⟩ : ∃ u, starkPrecheckFormat block.starkProof = .ok u := by
    cases hcase : starkPrecheckFormat block.starkProof with
    | ok u => exact ⟨u, rfl⟩
    | error e => simp [hcase, Except.isOk, Except.toBool] at hproof
  have hnonempty : block.starkProof ≠ [] := by
    intro hnil
    simp [starkPrecheckFormat, hnil, starkResultHeaderLen] at hformat
  have hwork : st.checkWork env block = .ok () := by
    simp [checkWork, ensure, s.difficulty, s.work, hnonempty, s.birth, hformat, bind, Except.bind,
      Except.mapError]
  have hheader : st.checkHeader env block best = .ok () := by
    have hmem := (GhostdagMap.selectBest_eq_some.mp hbest).mem
    have hmtp := pastMedianTime_lt hpos (s.ahead best hmem)
    have hmax := maxParentTime_le s.ahead
    simp [checkHeader, ensure, hlinks, s.body, hmtp, hmax, s.clock, bind, Except.bind]
  exact ⟨gd, best, checkShape_eq_ok.mpr ⟨s.fresh, s.base, s.wire, s.parents_ne, s.parents_le,
    s.parents_nodup, fun p hp => (s.parents_mem p hp).1⟩, s.finality, hwork, hbest, hheader,
    by simp [s.proof], s.issuance, s.transactions, hdata, hroot⟩

/-! ### Difficulty and interlinks fit their fields -/

omit [Crypto] in
theorem expectedDifficultyAt_lt (easy : Bool) (parents : List Hash) (t : Nat) :
    st.expectedDifficultyAt easy parents t < 2 ^ 64 := by
  have hfloor := eraMinDifficulty_lt easy st.live.mintedSupply t
  have heffective : effectiveMinDifficulty easy < 2 ^ 64 := eraMinDifficulty_lt _ _ _
  unfold expectedDifficultyAt
  simp only
  split
  · exact hfloor
  · rename_i sp hsp
    have hsp : (st.dag[sp]?.map (·.difficulty.toNat)).getD (effectiveMinDifficulty easy) < 2 ^ 64 := by
      cases st.dag[sp]? with
      | none => exact heffective
      | some b => exact b.difficulty.toNat_lt
    refine max_lt ?_ hfloor
    split
    · exact max_lt hsp hfloor
    · exact Nat.mod_lt _ (by positivity)

theorem length_computeInterlinks (parent : Block) (h : parent.interlinks.length ≤ 64) :
    (computeInterlinks parent).length ≤ 64 := by
  have hlevel : superblockLevel parent.hash parent.difficulty ≤ 63 := by
    unfold superblockLevel
    split
    · rfl
    · simp only
      split
      · exact Nat.zero_le _
      · exact Nat.min_le_right _ _
  simp only [computeInterlinks, List.length_map, List.length_range]
  omega

end Sealed

end ChainState

/-! ### Sample primitives -/

namespace Sample

scoped instance : Crypto := sampleCrypto

/-- The digest that the sample primitives give the block with this height and
nonce. -/
def blockHash (number nonce : Nat) : Hash := Hash.ofNat ((number + 2 ^ 64 * nonce) * 2 ^ 256)

theorem blockHash_toNat {number nonce : Nat} (hnumber : number < 2 ^ 64) (hnonce : nonce < 2 ^ 64) :
    (blockHash number nonce).toNat = (number + 2 ^ 64 * nonce) * 2 ^ 256 := by
  refine Nat.mod_eq_of_lt ?_
  have : number + 2 ^ 64 * nonce < 2 ^ 128 := by omega
  calc (number + 2 ^ 64 * nonce) * 2 ^ 256 < 2 ^ 128 * 2 ^ 256 := by
        exact Nat.mul_lt_mul_of_pos_right this (by positivity)
    _ ≤ 256 ^ 64 := by norm_num

theorem blockHash_inj {number nonce number' nonce' : Nat} (hnumber : number < 2 ^ 64)
    (hnonce : nonce < 2 ^ 64) (hnumber' : number' < 2 ^ 64) (hnonce' : nonce' < 2 ^ 64)
    (h : blockHash number nonce = blockHash number' nonce') : number = number' ∧ nonce = nonce' := by
  have := congrArg Hash.toNat h
  rw [blockHash_toNat hnumber hnonce, blockHash_toNat hnumber' hnonce'] at this
  have := Nat.eq_of_mul_eq_mul_right (by positivity) this
  omega

theorem blockHash_ne {i j : Nat} (hi : i < 2 ^ 64) (hj : j < 2 ^ 64) (hne : i ≠ j) :
    blockHash i 0 ≠ blockHash j 0 := fun h =>
  hne (blockHash_inj hi (by norm_num) hj (by norm_num) h).1

theorem hash_eq (b : Block) : b.hash = blockHash b.height.toNat b.nonce.toNat := by
  have hdomain : genesisDomain.length = 18 := by decide +kernel
  have hheight : (b.identityBytes.drop 18).take 8 = u64 b.height.toNat := by
    simp only [Block.identityBytes, List.append_assoc]
    rw [← hdomain, List.drop_left, List.take_left' (by simp [u64])]
  have hnonce : (b.identityBytes.drop (b.identityBytes.length - 20)).take 8 = u64 b.nonce.toNat := by
    have hsplit : ∃ front, b.identityBytes
        = front ++ (u64 b.nonce.toNat ++ (u64 b.difficulty.toNat ++ u32 b.version.toNat)) :=
      ⟨_, by rw [Block.identityBytes, List.append_assoc, List.append_assoc]⟩
    obtain ⟨front, hfront⟩ := hsplit
    have hlen : b.identityBytes.length - 20 = front.length := by
      simp [hfront, u64, u32]
    rw [hlen, hfront, List.drop_left, List.take_left' (by simp [u64])]
  have hread : ∀ n < 2 ^ 64, Bytes.toNatLE (u64 n) = n := by
    intro n hn
    rw [u64, Bytes.toNatLE_ofNatLE, Nat.mod_eq_of_lt (by norm_num; omega)]
  change Hash.ofNat ((Bytes.toNatLE ((b.identityBytes.drop 18).take 8) + 2 ^ 64 *
    Bytes.toNatLE ((b.identityBytes.drop (b.identityBytes.length - 20)).take 8)) * 2 ^ 256) = _
  rw [hheight, hnonce, hread _ b.height.toNat_lt, hread _ b.nonce.toNat_lt, blockHash]

theorem genesis_hash : genesisBlock.hash = blockHash 0 0 := hash_eq genesisBlock

theorem verifyPow_blockHash (number nonce : Nat) (hnumber : number < 2 ^ 64) (hnonce : nonce < 2 ^ 64)
    (difficulty : UInt64) : verifyPow (blockHash number nonce) difficulty = true := by
  unfold verifyPow
  rw [decide_eq_true_iff, blockHash_toNat hnumber hnonce]
  have hd := difficulty.toNat_lt
  have hsmall : number + 2 ^ 64 * nonce < 2 ^ 128 := by omega
  have hle : maxTarget / 2 ^ 64 ≤ maxTarget / max difficulty.toNat 1 :=
    Nat.div_le_div_left (by omega) (by omega)
  refine lt_of_lt_of_le ?_ hle
  calc (number + 2 ^ 64 * nonce) * 2 ^ 256 < 2 ^ 128 * 2 ^ 256 := by
        exact Nat.mul_lt_mul_of_pos_right hsmall (by positivity)
    _ ≤ maxTarget / 2 ^ 64 := by norm_num [maxTarget]

/-- The key of the sample miner. -/
def minerKey : Bytes := List.replicate pqPublicKeySize 0

/-- The clock, the settings and the iteration order of the sample runs. -/
def env : Env where
  now := 2 ^ 60
  labEasyPow := false
  pinnedDigest := none
  iter := id
  iter_perm _ := .refl _

/-- A block without a body before its commitments are bound. -/
def draft (st : ChainState) (parents : List Hash) (number nonce : Nat) : Block where
  height := .ofNat number
  timestamp := genesisTimestampMs + .ofNat number
  parents := parents
  interlinks := []
  transparentTxs := []
  utxoTxs := []
  registryOps := []
  custodyOps := []
  merkleRoot := Hash.zero
  stateRoot := Hash.zero
  miner := addressHash minerKey
  creatorPubkey := minerKey
  nonce := .ofNat nonce
  difficulty := .ofNat (st.expectedDifficultyAt env.labEasyPow parents
    (genesisTimestampMs + .ofNat number).toNat)
  version := 0x20000000
  coinbaseEntropy := 0
  starkProof := List.replicate 64 0
  birthCertificate := List.replicate pqSignatureSize 0
  size := 0

/-- The mined block. -/
def mined (st : ChainState) (parents : List Hash) (number nonce : Nat) : Block :=
  (st.bindParentCommitments (draft st parents number nonce)).toOption.getD
    (draft st parents number nonce)

/-- The commitments of a block without a body. -/
def committed (st : ChainState) (gd : GhostdagData) (sp : Hash) (b : Block) : Block :=
  { b with
    interlinks := (st.dag[sp]?.map computeInterlinks).getD []
    stateRoot := ((st.mergesetVirtual sp gd.merged).1.applyBlockReward b gd.blueScore 0).merkleRoot }

theorem committed_draft (st : ChainState) (gd : GhostdagData) (sp : Hash) (parents : List Hash)
    (number nonce : Nat) :
    (committed st gd sp (draft st parents number nonce)).starkProof = List.replicate 64 0 ∧
      (committed st gd sp (draft st parents number nonce)).creatorPubkey = minerKey ∧
      (committed st gd sp (draft st parents number nonce)).birthCertificate
        = List.replicate pqSignatureSize 0 := ⟨rfl, rfl, rfl⟩

theorem bind_draft {st : ChainState} {gd : GhostdagData} {sp : Hash} {b : Block} (hbody : b.items = [])
    (hdata : st.computeGhostdag b.parents = .ok gd) (hsp : gd.selectedParent = some sp) :
    st.bindParentCommitments b = .ok (committed st gd sp b) := by
  have hitems : ∀ links, Block.items { b with interlinks := links } = [] := fun _ => hbody
  simp only [ChainState.bindParentCommitments, hdata, hsp, ChainState.postMergesetStateRoot,
    Ledger.simulateApplyBlockBody, hitems, strictEach, bind, Except.bind, pure, Except.pure]
  rfl

theorem mined_eq {st : ChainState} {gd : GhostdagData} {sp : Hash} {parents : List Hash}
    {number nonce : Nat} (hdata : st.computeGhostdag parents = .ok gd)
    (hsp : gd.selectedParent = some sp) :
    mined st parents number nonce = committed st gd sp (draft st parents number nonce) := by
  rw [mined, bind_draft rfl hdata hsp]
  rfl

/-- The size of a block, field by field. -/
theorem length_encode (b : Block) : (encode b).length = 8 + 8 + (encode b.parents).length
    + (encode b.interlinks).length + (encode b.transparentTxs).length + (encode b.utxoTxs).length
    + (encode b.registryOps).length + (encode b.custodyOps).length + 64 + 64 + 64
    + (8 + b.creatorPubkey.length) + 8 + 8 + 4 + 8 + (8 + b.starkProof.length)
    + (8 + b.birthCertificate.length) + 8 := by
  change (u64 b.height.toNat ++ u64 b.timestamp.toNat ++ encode b.parents
    ++ encode b.interlinks ++ encode b.transparentTxs ++ encode b.utxoTxs
    ++ encode b.registryOps ++ encode b.custodyOps ++ b.merkleRoot.asBytes
    ++ b.stateRoot.asBytes ++ b.miner.asBytes ++ Bincode.bytes b.creatorPubkey
    ++ u64 b.nonce.toNat ++ u64 b.difficulty.toNat ++ u32 b.version.toNat
    ++ u64 b.coinbaseEntropy.toNat ++ Bincode.bytes b.starkProof
    ++ Bincode.bytes b.birthCertificate ++ u64 b.size).length = _
  simp only [List.length_append, u64, u32, Bincode.bytes, Bytes.length_ofNatLE, Hash.length_asBytes]

theorem length_encode_nil {α : Type} [Bincode α] : (encode ([] : List α)).length = 8 := by
  change (u64 0 ++ []).length = 8
  simp [u64]

/-- A block whose body is nothing but spends fits, if the spends do. -/
theorem size_le {b : Block} (hbody : b.transparentTxs = [] ∧ b.registryOps = [] ∧ b.custodyOps = [])
    (hspends : (encode b.utxoTxs).length ≤ 10000) (hparents : b.parents.length ≤ maxBlockParents)
    (hlinks : b.interlinks.length ≤ 64) (hkey : b.creatorPubkey.length = pqPublicKeySize)
    (hproof : b.starkProof.length ≤ 64) (hbirth : b.birthCertificate.length = pqSignatureSize) :
    b.verifySize = true ∧ b.wireSize ≤ maxBlockBytes := by
  obtain ⟨htxs, hops, hcustody⟩ := hbody
  simp only [maxBlockParents, pqPublicKeySize, pqSignatureSize] at hparents hkey hbirth
  constructor
  · unfold Block.verifySize Block.baseSize
    rw [decide_eq_true_iff, length_encode, Bincode.length_encode_hashes, Bincode.length_encode_hashes, htxs, hops,
      hcustody, length_encode_nil, length_encode_nil, length_encode_nil, hkey]
    simp only [List.length_nil, maxBlockSize]
    omega
  · unfold Block.wireSize
    rw [length_encode, Bincode.length_encode_hashes, Bincode.length_encode_hashes, htxs, hops,
      hcustody, length_encode_nil, length_encode_nil, length_encode_nil, hkey, hbirth]
    simp only [maxBlockBytes]
    omega

theorem verifyStarkProof_sample {b : Block} (hlong : starkResultHeaderLen < b.starkProof.length)
    (hshort : b.starkProof.length ≤ maxStarkProofBytes) : verifyStarkProof b = true := by
  have hparses : ∀ p, Crypto.starkProofParses p = true := fun _ => rfl
  have hverify : ∀ h r p, Crypto.starkVerify h r p = true := fun _ _ _ => rfl
  simp [verifyStarkProof, starkPrecheckFormat, Nat.not_le.mpr hlong, Nat.not_lt.mpr hshort, hparses,
    hverify, Except.isOk, Except.toBool]

theorem verifyIssuance_sample {b : Block} (hne : b.parents ≠ [])
    (hkey : b.creatorPubkey.length = pqPublicKeySize) (hminer : b.miner = addressHash b.creatorPubkey)
    (hbirth : b.birthCertificate.length = pqSignatureSize) : b.verifyIssuance = .ok () := by
  have hsigned : CustodyCertificate.verifyBirth b.birthCertificate b.settlementId b.creatorPubkey
      = true := by
    rw [CustodyCertificate.verifyBirth, verifyPq512_sample _ _ hkey hbirth]
    simpa using hkey
  simp [Block.verifyIssuance, hne, hkey, ← hminer, hsigned]

section Mined

variable {st : ChainState} {parents : List Hash} {number nonce : Nat} {gd : GhostdagData} {sp : Hash}

theorem mined_hash (number nonce : Nat) (hnumber : number < 2 ^ 64) (hnonce : nonce < 2 ^ 64)
    (hdata : st.computeGhostdag parents = .ok gd) (hsp : gd.selectedParent = some sp) :
    (mined st parents number nonce).hash = blockHash number nonce := by
  rw [mined_eq hdata hsp, hash_eq]
  change blockHash (UInt64.ofNat number).toNat (UInt64.ofNat nonce).toNat = _
  rw [UInt64.toNat_ofNat', UInt64.toNat_ofNat', Nat.mod_eq_of_lt hnumber, Nat.mod_eq_of_lt hnonce]

/-- The time of the block with a number. -/
def time (number : Nat) : Nat := genesisTimestampMs.toNat + number

theorem draft_timestamp (st : ChainState) (parents : List Hash) (nonce : Nat) (hnumber : number < 2 ^ 40) :
    (draft st parents number nonce).timestamp.toNat = time number := by
  have hsmall : genesisTimestampMs.toNat + number < 2 ^ 64 := by
    have : genesisTimestampMs.toNat = 1785024000000 := by decide
    omega
  simp only [draft, time, UInt64.toNat_add, UInt64.toNat_ofNat']
  rw [Nat.mod_eq_of_lt (by omega : number < 2 ^ 64), Nat.mod_eq_of_lt hsmall]

/-- A draft with spends and commitments. -/
def bound (st : ChainState) (parents : List Hash) (number nonce : Nat) (txs : List UtxoTx) (body : Hash)
    (links : List Hash) (root : Hash) : Block :=
  { draft st parents number nonce with utxoTxs := txs, merkleRoot := body, interlinks := links, stateRoot := root }

/-- **A draft on known parents is sealed** once its commitments are bound, if its
spends are small and valid and the finality rule allows it. -/
theorem bound_sealed {txs : List UtxoTx} {body root : Hash} {links : List Hash} (hnumber : number < 2 ^ 40)
    (hnonce : nonce < 2 ^ 64) (hfresh : blockHash number nonce ∉ st.dag) (hne : parents ≠ [])
    (hle : parents.length ≤ maxBlockParents) (hnodup : parents.Nodup)
    (hmem : ∀ p ∈ parents, p ∈ st.dag ∧ p ∈ st.ghostdag) (hlinks : links.length ≤ 64)
    (hahead : ∀ p ∈ parents, st.AheadOf (time number) p)
    (hfinality : ∀ fp, st.finalityPoint = some fp →
      st.reachability.isChainAncestor fp sp ≠ some false)
    (hdata : st.computeGhostdag parents = .ok gd) (hsp : gd.selectedParent = some sp)
    (hspends : (encode txs).length ≤ 10000)
    (hbody : body = (bound st parents number nonce txs body links root).bodyRoot)
    (htransactions : st.validateBlockTransactions (bound st parents number nonce txs body links root) = .ok ())
    (hbound : st.bindParentCommitments (bound st parents number nonce txs body links root)
      = .ok (bound st parents number nonce txs body links root)) :
    st.Sealed env (bound st parents number nonce txs body links root) := by
  have htime := draft_timestamp st parents nonce hnumber
  have hhash : (bound st parents number nonce txs body links root).hash = blockHash number nonce := by
    rw [hash_eq]
    change blockHash (UInt64.ofNat number).toNat (UInt64.ofNat nonce).toNat = _
    rw [UInt64.toNat_ofNat', UInt64.toNat_ofNat', Nat.mod_eq_of_lt (by omega : number < 2 ^ 64),
      Nat.mod_eq_of_lt hnonce]
  obtain ⟨p, hp⟩ := List.exists_mem_of_ne_nil _ hne
  obtain ⟨best, hbest⟩ := GhostdagMap.selectBest_isSome hp (hmem p hp).2
  obtain rfl : best = sp :=
    Option.some.inj ((tryCompute_ok hdata hbest).selectedParent.symm.trans hsp)
  have hsize := size_le (b := bound st parents number nonce txs body links root) ⟨rfl, rfl, rfl⟩ hspends hle hlinks
    (by simp [bound, draft, minerKey]) (by simp [bound, draft]) (by simp [bound, draft])
  have hwork := verifyPow_blockHash number nonce (by omega) hnonce
    (bound st parents number nonce txs body links root).difficulty
  rw [← hhash] at hwork hfresh
  refine ⟨hfresh, hsize.1, hsize.2, hne, hle, hnodup, hmem, ?_, ?_, hwork, ?_, ?_, hbody, ?_, ?_, ?_,
    htransactions, hbound⟩
  · refine ChainState.checkFinality_eq_ok.mpr fun fp sp' hfp hsp' => ?_
    obtain rfl := Option.some.inj (hbest.symm.trans hsp')
    exact hfinality fp hfp
  · have hlt := st.expectedDifficultyAt_lt env.labEasyPow parents
      (genesisTimestampMs + .ofNat number).toNat
    simp only [bound, draft, UInt64.toNat_ofNat']
    exact Nat.mod_eq_of_lt hlt
  · exact verifyStarkProof_sample (by simp [bound, draft, starkResultHeaderLen])
      (by simp [bound, draft, maxStarkProofBytes])
  · change List.replicate pqSignatureSize 0 ≠ []
    rw [Ne, List.replicate_eq_nil_iff]
    decide
  · change ∀ p ∈ parents, st.AheadOf (draft st parents number nonce).timestamp.toNat p
    rw [htime]
    exact hahead
  · change (draft st parents number nonce).timestamp.toNat ≤ _
    rw [htime]
    have : genesisTimestampMs.toNat = 1785024000000 := by decide
    simp only [time, this, satAdd64, env, maxFutureDriftMs, u64Max]
    omega
  · exact verifyIssuance_sample hne (by simp [bound, draft, minerKey]) rfl (by simp [bound, draft])

/-- **Any parents the node knows can be built on**: a mined block on parents
with a small enough mergeset is sealed, unless the finality rule forbids it. -/
theorem mined_sealed (hnumber : number < 2 ^ 40) (hnonce : nonce < 2 ^ 64)
    (hfresh : blockHash number nonce ∉ st.dag) (hne : parents ≠ [])
    (hle : parents.length ≤ maxBlockParents) (hnodup : parents.Nodup)
    (hmem : ∀ p ∈ parents, p ∈ st.dag ∧ p ∈ st.ghostdag)
    (hlinks : ∀ (h : Hash) (b : Block), st.dag[h]? = some b → b.interlinks.length ≤ 64)
    (hahead : ∀ p ∈ parents, st.AheadOf (time number) p)
    (hfinality : ∀ fp, st.finalityPoint = some fp →
      st.reachability.isChainAncestor fp sp ≠ some false)
    (hdata : st.computeGhostdag parents = .ok gd) (hsp : gd.selectedParent = some sp) :
    st.Sealed env (mined st parents number nonce) := by
  have hlinks' : ((st.dag[sp]?.map computeInterlinks).getD []).length ≤ 64 := by
    cases hb : st.dag[sp]? with
    | none => simp
    | some b => exact ChainState.length_computeInterlinks b (hlinks sp b hb)
  rw [mined_eq hdata hsp]
  change st.Sealed env (bound st parents number nonce [] Hash.zero ((st.dag[sp]?.map computeInterlinks).getD []) _)
  exact bound_sealed hnumber hnonce hfresh hne hle hnodup hmem hlinks' hahead hfinality hdata hsp
    (length_encode_nil.trans_le (by norm_num)) rfl rfl (bind_draft rfl hdata hsp)

end Mined

/-! ### One parent -/

/-- A single parent merges nothing. -/
theorem mergeset_singleton (dag : Dag) (p : Hash) : dag.mergeset [p] p = [] := by
  refine List.eq_nil_iff_forall_not_mem.mpr fun x hx => ?_
  obtain ⟨⟨q, hq, hxq⟩, hout⟩ := Dag.mem_mergeset.mp hx
  obtain rfl := List.mem_singleton.mp hq
  exact hout hxq

/-- The data of a block with one parent. -/
def onlyParent (gd : GhostdagMap) (p : Hash) : GhostdagData where
  blueScore := gd.scoreOf p + 1
  selectedParent := some p
  mergesetBlues := [p]
  mergesetReds := []

theorem merged_onlyParent (gd : GhostdagMap) (p : Hash) : (onlyParent gd p).merged = [] := rfl

theorem blueScore_onlyParent (gd : GhostdagMap) (p : Hash) : (onlyParent gd p).blueScore = gd.scoreOf p + 1 := rfl

theorem tryCompute_onlyParent {dag : Dag} {gd : GhostdagMap} {anc : Hash → Hash → Bool} {p : Hash}
    (hp : p ∈ gd) :
    tryComputeGhostdagData dag gd anc [p] maxMergesetSize = .ok (onlyParent gd p) := by
  have hsp : gd.selectParent [p] = some p :=
    GhostdagMap.selectBest_eq_some.mpr ⟨by simp, hp, fun c hc _ => by
      obtain rfl := List.mem_singleton.mp hc
      simp [GhostdagMap.rankLe]⟩
  simp only [tryComputeGhostdagData, hsp, mergeset_singleton, List.length_nil, topologicalOrder,
    List.map_nil, List.insertionSort_nil, List.foldl_nil]
  rfl

/-- Parents whose mergeset is small enough have GHOSTDAG data. -/
theorem exists_data {st : ChainState} (w : st.Whole) {parents : List Hash} (hne : parents ≠ [])
    (hmem : ∀ p ∈ parents, p ∈ st.dag)
    (hcap : ∀ sp ∈ parents, (st.dag.mergeset parents sp).length ≤ maxMergesetSize) :
    ∃ gd sp, st.computeGhostdag parents = .ok gd ∧ gd.selectedParent = some sp := by
  obtain ⟨p, hp⟩ := List.exists_mem_of_ne_nil _ hne
  obtain ⟨sp, hsp⟩ := GhostdagMap.selectBest_isSome hp ((w.dagInv.known p).mpr (hmem p hp))
  have hin := (GhostdagMap.selectBest_eq_some.mp hsp).mem
  have hselect : st.ghostdag.selectParent parents = some sp := hsp
  cases hdata : st.computeGhostdag parents with
  | ok gd => exact ⟨gd, sp, rfl, (tryCompute_ok hdata hsp).selectedParent⟩
  | error e =>
      simp only [ChainState.computeGhostdag, tryComputeGhostdagData, hselect,
        if_neg (Nat.not_lt.mpr (hcap sp hin))] at hdata
      cases hdata

/-! ### Numbered blocks -/

/-- The blocks of these numbers. -/
def hashes (numbers : List Nat) : List Hash := numbers.map (blockHash · 0)

/-- A node with the blocks `0` to `n - 1`, all of them indexed. -/
structure Numbered (n : Nat) (st : ChainState) : Prop where
  whole : st.Whole
  full : ∀ h ∈ st.dag, h ∈ st.reachability.nodes
  small : n < 2 ^ 40
  mem : ∀ h, h ∈ st.dag ↔ ∃ i < n, h = blockHash i 0
  block : ∀ i b, st.dag[blockHash i 0]? = some b → i < n →
    b.timestamp.toNat = time i ∧ b.interlinks.length ≤ 64

namespace Numbered

variable {n : Nat} {st : ChainState} {gd : GhostdagData} {sp : Hash}

theorem number_inj (h : Numbered n st) {i j : Nat} (hi : i < n) (hj : j < n)
    (heq : blockHash i 0 = blockHash j 0) : i = j := by
  have := h.small
  exact (blockHash_inj (by omega) (by omega) (by omega) (by omega) heq).1

theorem fresh (h : Numbered n st) : blockHash n 0 ∉ st.dag := by
  intro hmem
  obtain ⟨i, hi, heq⟩ := (h.mem _).mp hmem
  have := h.small
  have := (blockHash_inj (by omega) (by omega) (by omega) (by omega) heq).1
  omega

theorem ahead (h : Numbered n st) (p : Hash) : st.AheadOf (time n) p := by
  intro c b habove hb
  obtain ⟨i, hi, rfl⟩ := (h.mem c).mp (DagInv.mem_of_getElem? hb)
  rw [(h.block i b hb hi).1, time, time]
  omega

/-- A list of distinct blocks is no longer than the DAG. -/
theorem length_le (h : Numbered n st) {hs : List Hash} (hnodup : hs.Nodup)
    (hmem : ∀ x ∈ hs, x ∈ st.dag) : hs.length ≤ n := by
  have hsub : hs.toFinset ⊆ (Finset.range n).image (blockHash · 0) := by
    intro x hx
    obtain ⟨i, hi, rfl⟩ := (h.mem x).mp (hmem x (List.mem_toFinset.mp hx))
    exact Finset.mem_image.mpr ⟨i, Finset.mem_range.mpr hi, rfl⟩
  rw [← List.toFinset_card_of_nodup hnodup]
  exact (Finset.card_le_card hsub).trans (Finset.card_image_le.trans (by simp))

theorem score_lt (h : Numbered n st) {x : Hash} (hx : x ∈ st.dag) : st.ghostdag.scoreOf x < n := by
  have hall : ∀ y ∈ st.dag, y ∈ (List.range n).map (blockHash · 0) := by
    intro y hy
    obtain ⟨i, hi, rfl⟩ := (h.mem y).mp hy
    exact List.mem_map.mpr ⟨i, List.mem_range.mpr hi, rfl⟩
  have hlt := h.whole.dagInv.score_lt_length hall hx
  simpa using hlt

/-- Nothing is deep enough to be final or to be pruned. -/
def Shallow (st : ChainState) : Prop := ∀ x ∈ st.dag, st.ghostdag.scoreOf x ≤ finalityDepth

theorem shallow (h : Numbered n st) (hn : n ≤ finalityDepth + 1) : Shallow st := by
  intro x hx
  have := h.score_lt hx
  omega

theorem Shallow.finalityPoint_eq_none (hlow : Shallow st) (w : st.Whole) : st.finalityPoint = none := by
  obtain ⟨tip, htip⟩ := w.selected
  rw [ChainState.finalityPoint_eq htip, if_pos (hlow tip (w.tip_mem htip))]

theorem mergeset_le (h : Numbered n st) (hn : n ≤ maxMergesetSize) {parents : List Hash}
    (hmem : ∀ p ∈ parents, p ∈ st.dag) (sp : Hash) :
    (st.dag.mergeset parents sp).length ≤ maxMergesetSize := by
  refine (h.length_le Dag.nodup_mergeset fun x hx => ?_).trans hn
  obtain ⟨⟨p, hp, hxp⟩, -⟩ := Dag.mem_mergeset.mp hx
  rcases hxp with rfl | hpast
  · exact hmem x hp
  · exact h.whole.dagInv.past_mem hpast (hmem p hp)

/-- Parents a block with this number can have: few enough to be merged. -/
structure Buildable (n : Nat) (numbers : List Nat) : Prop where
  ne : numbers ≠ []
  le : numbers.length ≤ maxBlockParents
  nodup : numbers.Nodup
  lt : ∀ i ∈ numbers, i < n
  few : n ≤ maxMergesetSize ∨ ∃ p, numbers = [p]

theorem hashes_mem (h : Numbered n st) {numbers : List Nat} (hlt : ∀ i ∈ numbers, i < n) :
    ∀ p ∈ hashes numbers, p ∈ st.dag := by
  intro p hp
  obtain ⟨i, hi, rfl⟩ := List.mem_map.mp hp
  exact (h.mem _).mpr ⟨i, hlt i hi, rfl⟩

/-- **A buildable block is admitted**, before anything is final. -/
theorem admitted (h : Numbered n st) {numbers : List Nat} (hb : Buildable n numbers)
    (hlow : Shallow st) : ∃ gd sp, st.Admitted env (mined st (hashes numbers) n 0) gd sp ∧
      (mined st (hashes numbers) n 0).hash = blockHash n 0 ∧
      (mined st (hashes numbers) n 0).parents = hashes numbers ∧
      (mined st (hashes numbers) n 0).timestamp.toNat = time n ∧
      (mined st (hashes numbers) n 0).interlinks.length ≤ 64 ∧
      ∃ gd sp, mined st (hashes numbers) n 0 = committed st gd sp (draft st (hashes numbers) n 0) := by
  have hsmall := h.small
  have hmem := h.hashes_mem hb.lt
  have hne : hashes numbers ≠ [] := by simpa [hashes] using hb.ne
  have hnodup : (hashes numbers).Nodup := by
    refine (List.nodup_map_iff_inj_on hb.nodup).mpr fun i hi j hj heq => ?_
    exact h.number_inj (hb.lt i hi) (hb.lt j hj) heq
  have hcap : ∀ sp ∈ hashes numbers,
      (st.dag.mergeset (hashes numbers) sp).length ≤ maxMergesetSize := by
    intro sp hsp
    rcases hb.few with hfew | ⟨p, rfl⟩
    · exact h.mergeset_le hfew hmem sp
    · obtain rfl : sp = blockHash p 0 := by simpa [hashes] using hsp
      have : st.dag.mergeset (hashes [p]) (blockHash p 0) = [] := mergeset_singleton st.dag _
      simp [this]
  obtain ⟨gd, sp, hdata, hsp⟩ := exists_data h.whole hne hmem hcap
  have hlinks : ∀ (k : Hash) (b : Block), st.dag[k]? = some b → b.interlinks.length ≤ 64 := by
    intro k b hk
    obtain ⟨i, hi, rfl⟩ := (h.mem k).mp (DagInv.mem_of_getElem? hk)
    exact (h.block i b hk hi).2
  have hsealed := mined_sealed hsmall (by positivity) h.fresh hne
    (by simpa [hashes] using hb.le) hnodup
    (fun p hp => ⟨hmem p hp, (h.whole.dagInv.known p).mpr (hmem p hp)⟩) hlinks
    (fun p _ => h.ahead p) (fun fp hfp => by simp [hlow.finalityPoint_eq_none h.whole] at hfp) hdata hsp
  obtain ⟨gd', sp', ha⟩ := hsealed.admitted
  refine ⟨gd', sp', ha, mined_hash n 0 (by omega) (by positivity) hdata hsp, ?_, ?_, ?_, gd, sp,
    mined_eq hdata hsp⟩
  · rw [mined_eq hdata hsp]
    rfl
  · rw [mined_eq hdata hsp]
    exact draft_timestamp st (hashes numbers) 0 hsmall
  · rw [mined_eq hdata hsp]
    cases hb : st.dag[sp]? with
    | none => simp [committed, hb]
    | some b => simpa [committed, hb] using ChainState.length_computeInterlinks b (hlinks sp b hb)

/-- A shallow node prunes nothing. -/
theorem prune_eq (h : Numbered n st) (hlow : Shallow st) :
    (st.pruneBodies env).pruneHistory = st := by
  obtain ⟨tip, htip⟩ := h.whole.selected
  have hscore := hlow tip (h.whole.tip_mem htip)
  have htipScore : st.selectedTipBlueScore = st.ghostdag.scoreOf tip := by
    rw [ChainState.selectedTipBlueScore, htip]
    rfl
  have hbodies : st.pruneBodies env = st := by
    rw [ChainState.pruneBodies, htipScore, if_pos]
    simp [hscore]
  have hdepth : st.ghostdag.scoreOf tip ≤ pruningDepth := by
    rw [pruningDepth]
    omega
  rw [hbodies, ChainState.pruneHistory, htip]
  simp [hdepth]

section Accept

variable {numbers : List Nat}

/-- The node after one more block, before pruning. -/
theorem acceptFull (h : Numbered n st) (hsmall : n + 1 < 2 ^ 40)
    (a : st.Admitted env (mined st (hashes numbers) n 0) gd sp)
    (hhash : (mined st (hashes numbers) n 0).hash = blockHash n 0)
    (htime : (mined st (hashes numbers) n 0).timestamp.toNat = time n)
    (hlinks : (mined st (hashes numbers) n 0).interlinks.length ≤ 64) :
    Numbered (n + 1) (st.acceptFull env (mined st (hashes numbers) n 0) gd) := by
  have w := h.whole
  have hspi := h.full sp (a.parents_mem sp a.isBest.mem)
  have hcore := st.acceptFull_core env (mined st (hashes numbers) n 0) gd
  refine ⟨(w.insertBlock a hspi).of_core hcore, fun k hk => ?_, hsmall, fun k => ?_,
    fun i b hb hi => ?_⟩
  · rw [hcore.dag] at hk
    rw [hcore.reachability, (w.added_insertBlock a hspi).mem]
    exact (ChainState.mem_insertBlock.mp hk).imp id (h.full k)
  · rw [hcore.dag, ChainState.mem_insertBlock, hhash, h.mem]
    constructor
    · rintro (rfl | ⟨i, hi, rfl⟩)
      · exact ⟨n, by omega, rfl⟩
      · exact ⟨i, by omega, rfl⟩
    · rintro ⟨i, hi, rfl⟩
      rcases Nat.lt_succ_iff_lt_or_eq.mp hi with hi | rfl
      · exact Or.inr ⟨i, hi, rfl⟩
      · exact Or.inl rfl
  · rw [hcore.dag] at hb
    rcases Nat.lt_succ_iff_lt_or_eq.mp hi with hi | rfl
    · refine h.block i b ?_ hi
      rwa [(ChainState.extends_insertBlock a).dag _ ((h.mem _).mpr ⟨i, hi, rfl⟩)] at hb
    · have hblock : (st.insertBlock env (mined st (hashes numbers) i 0) gd).dag[blockHash i 0]?
          = some (mined st (hashes numbers) i 0) := hhash ▸ ChainState.getElem?_insertBlock
      obtain rfl := Option.some.inj (hb.symm.trans hblock)
      exact ⟨htime, hlinks⟩

/-- An archival node, and a node on which nothing is deep, prune nothing. -/
theorem accept_eq (h : Numbered (n + 1) (st.acceptFull env (mined st (hashes numbers) n 0) gd))
    (hmode : st.archival = true ∨ n ≤ finalityDepth ∨
      Shallow (st.acceptFull env (mined st (hashes numbers) n 0) gd)) :
    st.accept env (mined st (hashes numbers) n 0) gd
      = st.acceptFull env (mined st (hashes numbers) n 0) gd := by
  rcases hmode with harch | hn | hlow
  · exact ChainState.accept_archival _ _ _ _ harch
  · exact h.prune_eq (h.shallow (by omega))
  · exact h.prune_eq hlow

end Accept

end Numbered

/-! ### Plans -/

/-- Mine the block with the next number on these parents. -/
def grow (s : ChainState × Nat) (numbers : List Nat) : ChainState × Nat :=
  (s.1.step (env, mined s.1 (hashes numbers) s.2 0), s.2 + 1)

/-- The node after mining block `1` on the first parents of the plan, block `2`
on the second, and so on. -/
def built (archival : Bool) (plan : List (List Nat)) : ChainState :=
  (plan.foldl grow (ChainState.seeded false archival {}, 1)).1

theorem foldl_grow_number (plan : List (List Nat)) (s : ChainState × Nat) :
    (plan.foldl grow s).2 = s.2 + plan.length := by
  induction plan generalizing s with
  | nil => rfl
  | cons numbers plan ih =>
      rw [List.foldl_cons, ih, List.length_cons]
      simp only [grow]
      omega

theorem built_append (archival : Bool) (plan : List (List Nat)) (numbers : List Nat) :
    built archival (plan ++ [numbers]) = (built archival plan).step
      (env, mined (built archival plan) (hashes numbers) (plan.length + 1) 0) := by
  rw [built, List.foldl_append, List.foldl_cons, List.foldl_nil, grow, foldl_grow_number,
    Nat.add_comm 1]
  rfl

/-- A plan is a run. -/
theorem built_run (archival : Bool) (plan : List (List Nat)) :
    ∃ calls, built archival plan = (ChainState.seeded false archival {}).run calls := by
  induction plan using List.reverseRecOn with
  | nil => exact ⟨[], rfl⟩
  | append_singleton plan numbers ih =>
      obtain ⟨calls, hcalls⟩ := ih
      rw [built_append, hcalls]
      exact ⟨calls ++ [_], by rw [ChainState.run, ChainState.run, List.foldl_append]; rfl⟩

/-- Every block of the plan can be built when its turn comes. -/
def Planned (plan : List (List Nat)) : Prop :=
  ∀ i numbers, plan[i]? = some numbers → Numbered.Buildable (i + 1) numbers

/-- What a plan leaves: its blocks, with the planned parents. -/
structure Followed (archival : Bool) (plan : List (List Nat)) (st : ChainState) : Prop where
  numbered : Numbered (plan.length + 1) st
  mode : st.archival = archival
  parents : ∀ i numbers, plan[i]? = some numbers →
    st.dag.parentsOf (blockHash (i + 1) 0) = hashes numbers
  genesis : st.dag.parentsOf (blockHash 0 0) = []

theorem numbered_seeded (archival : Bool) : Numbered 1 (ChainState.seeded false archival {}) := by
  refine ⟨ChainState.whole_seeded false archival {}, fun h hh => ?_, by norm_num, fun h => ?_,
    fun i b hb hi => ?_⟩
  · exact (ChainState.seeded_indexed false archival {} h).mpr
      ((ChainState.seeded_mem false archival {} h).mp hh).symm
  · rw [ChainState.seeded_mem, genesis_hash]
    constructor
    · rintro rfl
      exact ⟨0, by omega, rfl⟩
    · rintro ⟨i, hi, rfl⟩
      obtain rfl : i = 0 := by omega
      rfl
  · obtain rfl : i = 0 := by omega
    rw [(ChainState.seeded_get false archival {} hb).2]
    exact ⟨rfl, Nat.zero_le _⟩

/-- One more block of a plan, before pruning. -/
theorem Followed.acceptFull {archival : Bool} {plan : List (List Nat)} {numbers : List Nat}
    {st : ChainState} (f : Followed archival plan st) (hsmall : plan.length + 2 < 2 ^ 40)
    (hlow : Numbered.Shallow st) (hb : Numbered.Buildable (plan.length + 1) numbers) :
    ∃ gd sp, st.Admitted env (mined st (hashes numbers) (plan.length + 1) 0) gd sp ∧
      Followed archival (plan ++ [numbers])
        (st.acceptFull env (mined st (hashes numbers) (plan.length + 1) 0) gd) := by
  obtain ⟨gd, sp, a, hhash, hparents, htime, hlinks, -⟩ := f.numbered.admitted hb hlow
  have hcore := st.acceptFull_core env (mined st (hashes numbers) (plan.length + 1) 0) gd
  have hold : ∀ k ∈ st.dag, (st.acceptFull env (mined st (hashes numbers) (plan.length + 1) 0) gd
      ).dag.parentsOf k = st.dag.parentsOf k := by
    intro k hk
    rw [hcore.dag]
    exact (ChainState.extends_insertBlock a).parentsOf hk
  refine ⟨gd, sp, a, ?_, hcore.archival.trans f.mode, fun i ns hi => ?_, ?_⟩
  · rw [List.length_append]
    exact f.numbered.acceptFull hsmall a hhash htime hlinks
  · rcases Nat.lt_trichotomy i plan.length with hlt | rfl | hgt
    · rw [List.getElem?_append_left hlt] at hi
      rw [hold _ ((f.numbered.mem _).mpr ⟨i + 1, by omega, rfl⟩), f.parents i ns hi]
    · obtain rfl : numbers = ns := by simpa using hi
      rw [hcore.dag, ← hhash, ChainState.parentsOf_insertBlock, hparents]
    · rw [List.getElem?_append_right (by omega), List.getElem?_eq_none (by simp; omega)] at hi
      cases hi
  · rw [hold _ ((f.numbered.mem _).mpr ⟨0, by omega, rfl⟩), f.genesis]

/-- **A plan is followed**, by a node in either mode, while nothing is final. -/
theorem followed (archival : Bool) {plan : List (List Nat)} (hlen : plan.length ≤ finalityDepth)
    (hplan : Planned plan) : Followed archival plan (built archival plan) := by
  induction plan using List.reverseRecOn with
  | nil =>
      refine ⟨numbered_seeded archival, rfl, by simp, ?_⟩
      rw [← genesis_hash]
      exact ChainState.seeded_parentsOf false archival {} _
  | append_singleton plan numbers ih =>
      rw [List.length_append, List.length_singleton] at hlen
      have hplan' : Planned plan := by
        intro i ns hi
        refine hplan i ns ?_
        rw [List.getElem?_append_left (List.getElem?_eq_some_iff.mp hi).1, hi]
      have f := ih (by omega) hplan'
      have hsmall : plan.length + 2 < 2 ^ 40 := by
        have : finalityDepth = 432000 := rfl
        omega
      obtain ⟨gd, sp, a, f'⟩ := f.acceptFull hsmall (f.numbered.shallow (by omega))
        (hplan plan.length numbers (by simp))
      have hnumbered := f'.numbered
      rw [List.length_append, List.length_singleton] at hnumbered
      rw [built_append, a.step, hnumbered.accept_eq (Or.inr (Or.inl hlen))]
      exact f'

/-- A short plan whose blocks only name earlier ones. -/
theorem planned_of_short {plan : List (List Nat)} (hlen : plan.length ≤ maxMergesetSize)
    (hall : ∀ p ∈ plan.zipIdx, p.1 ≠ [] ∧ p.1.length ≤ maxBlockParents ∧ p.1.Nodup ∧
      ∀ i ∈ p.1, i ≤ p.2) : Planned plan := by
  intro i numbers hi
  obtain ⟨hne, hle, hnodup, hlt⟩ := hall (numbers, i) (List.mem_zipIdx_iff_getElem?.mpr hi)
  have hilt := (List.getElem?_eq_some_iff.mp hi).1
  exact ⟨hne, hle, hnodup, fun k hk => Nat.lt_succ_of_le (hlt k hk), Or.inl (by omega)⟩

/-! ### Spines -/

namespace Followed

variable {archival : Bool} {plan : List (List Nat)} {st : ChainState} {m : Nat}

theorem mem (f : Followed archival plan st) {i : Nat} (hi : i ≤ plan.length) :
    blockHash i 0 ∈ st.dag := (f.numbered.mem _).mpr ⟨i, by omega, rfl⟩

/-- A block that the plan never builds on is a tip. -/
theorem tip (f : Followed archival plan st) (hplan : Planned plan) {i : Nat} (hi : i ≤ plan.length)
    (hnot : ∀ numbers ∈ plan, i ∉ numbers) : blockHash i 0 ∈ st.tips := by
  refine (f.numbered.whole.tips _).mpr ⟨f.mem hi, fun k hk => ?_⟩
  have hkmem : k ∈ st.dag := by
    by_contra hout
    simp [Dag.parentsOf_eq_nil hout] at hk
  obtain ⟨j, hj, rfl⟩ := (f.numbered.mem k).mp hkmem
  cases j with
  | zero => simp [f.genesis] at hk
  | succ j =>
      have hget : plan[j]? = some plan[j] := List.getElem?_eq_getElem (by omega)
      rw [f.parents j _ hget] at hk
      obtain ⟨p, hp, heq⟩ := List.mem_map.mp hk
      have hlt := (hplan j _ hget).lt p hp
      obtain rfl := f.numbered.number_inj (by omega) (by omega) heq
      exact hnot _ (List.getElem_mem _) hp

theorem spOf_genesis (f : Followed archival plan st) :
    st.ghostdag.spOf (blockHash 0 0) = none := f.numbered.whole.dagInv.spOf_eq_none f.genesis

section Only

variable {i p : Nat} (f : Followed archival plan st) (hi : plan[i]? = some [p])

include f hi

theorem spOf_only : st.ghostdag.spOf (blockHash (i + 1) 0) = some (blockHash p 0) :=
  (f.numbered.whole.dagInv.only_parent (f.parents i [p] hi)).1

theorem mergedOf_only : st.ghostdag.mergedOf (blockHash (i + 1) 0) = [] :=
  (f.numbered.whole.dagInv.only_parent (f.parents i [p] hi)).2

theorem bluesOf_only : st.ghostdag.bluesOf (blockHash (i + 1) 0) = [blockHash p 0] ∧
    st.ghostdag.scoreOf (blockHash (i + 1) 0) = st.ghostdag.scoreOf (blockHash p 0) + 1 := by
  obtain ⟨blues, reds, hblues, hmerged, hscore⟩ :=
    f.numbered.whole.dagInv.bluesOf_eq (f.spOf_only hi)
  rw [f.mergedOf_only hi] at hmerged
  obtain ⟨rfl, -⟩ := List.append_eq_nil_iff.mp hmerged.symm
  exact ⟨hblues, by simpa using hscore⟩

end Only

/-- The plan starts with a chain: block `i + 1` on block `i`, up to block `m`. -/
def Spine (plan : List (List Nat)) (m : Nat) : Prop := ∀ i < m, plan[i]? = some [i]

theorem Spine.le (hs : Spine plan m) : m ≤ plan.length := by
  cases m with
  | zero => exact Nat.zero_le _
  | succ m => exact (List.getElem?_eq_some_iff.mp (hs m (by omega))).1

variable (f : Followed archival plan st) (hs : Spine plan m)

include f hs

theorem parentsOf_spine {i : Nat} (hi : i < m) :
    st.dag.parentsOf (blockHash (i + 1) 0) = [blockHash i 0] := f.parents i [i] (hs i hi)

theorem past_spine {j : Nat} (hj : j ≤ m) {x : Hash} :
    Past st.dag x (blockHash j 0) ↔ ∃ i < j, x = blockHash i 0 := by
  induction j generalizing x with
  | zero =>
      refine ⟨fun hpast => ?_, fun ⟨i, hi, _⟩ => absurd hi (by omega)⟩
      obtain ⟨p, hp, -⟩ := hpast.cases_parent
      simp [f.genesis] at hp
  | succ j ih =>
      have hparents := f.parentsOf_spine hs (i := j) (by omega)
      constructor
      · intro hpast
        obtain ⟨p, hp, hx⟩ := hpast.cases_parent
        rw [hparents, List.mem_singleton] at hp
        subst hp
        rcases hx with rfl | hx
        · exact ⟨j, by omega, rfl⟩
        · obtain ⟨i, hi, rfl⟩ := (ih (by omega)).mp hx
          exact ⟨i, by omega, rfl⟩
      · rintro ⟨i, hi, rfl⟩
        refine .of_parent (p := blockHash j 0) (by simp [hparents]) ?_
        rcases Nat.lt_succ_iff_lt_or_eq.mp hi with hi | rfl
        · exact Or.inr ((ih (by omega)).mpr ⟨i, hi, rfl⟩)
        · exact Or.inl rfl

theorem spOf_spine {i : Nat} (hi : i < m) :
    st.ghostdag.spOf (blockHash (i + 1) 0) = some (blockHash i 0) := f.spOf_only (hs i hi)

theorem mergedOf_spine {i : Nat} (hi : i < m) : st.ghostdag.mergedOf (blockHash (i + 1) 0) = [] :=
  f.mergedOf_only (hs i hi)

theorem bluesOf_spine {i : Nat} (hi : i < m) :
    st.ghostdag.bluesOf (blockHash (i + 1) 0) = [blockHash i 0] ∧
      st.ghostdag.scoreOf (blockHash (i + 1) 0) = st.ghostdag.scoreOf (blockHash i 0) + 1 :=
  f.bluesOf_only (hs i hi)

theorem scoreOf_spine {i : Nat} (hi : i ≤ m) : st.ghostdag.scoreOf (blockHash i 0) = i := by
  induction i with
  | zero =>
      have hlen := f.numbered.whole.dagInv.length_materializedBlues (f.mem (Nat.zero_le _))
      rw [GhostdagMap.materializedBlues_root (f.spOf_genesis)
        (f.numbered.whole.dagInv.bluesOf_root (f.mem (Nat.zero_le _)) (f.spOf_genesis))] at hlen
      simpa using hlen.symm
  | succ i ih => rw [(f.bluesOf_spine hs (by omega)).2, ih (by omega)]

theorem above_spine {i j : Nat} (hij : i ≤ j) (hj : j ≤ m) :
    Above st.ghostdag.spOf (blockHash i 0) (blockHash j 0) := by
  induction j with
  | zero =>
      obtain rfl : i = 0 := by omega
      exact .refl _
  | succ j ih =>
      rcases Nat.le_succ_iff.mp hij with hij | rfl
      · exact .step (f.spOf_spine hs (by omega)) (ih hij (by omega))
      · exact .refl _

theorem mem_blues_spine {j : Nat} (hj : j ≤ m) {x : Hash} :
    x ∈ st.ghostdag.materializedBlues (blockHash j 0) ↔ ∃ i ≤ j, x = blockHash i 0 := by
  have inv := f.numbered.whole.dagInv
  constructor
  · intro hx
    rcases inv.past_of_mem_materializedBlues hx with rfl | hpast
    · exact ⟨j, le_refl j, rfl⟩
    · obtain ⟨i, hi, rfl⟩ := (f.past_spine hs hj).mp hpast
      exact ⟨i, by omega, rfl⟩
  · rintro ⟨i, hi, rfl⟩
    rw [GhostdagMap.mem_materializedBlues inv.descends]
    rcases Nat.lt_or_eq_of_le hi with hi | rfl
    · refine Or.inr ⟨blockHash (i + 1) 0, f.above_spine hs hi hj, ?_⟩
      rw [(f.bluesOf_spine hs (by omega)).1]
      exact List.mem_singleton_self _
    · exact Or.inl rfl

end Followed

/-! ### Chains -/

/-- A chain of `n` blocks. -/
def chain (n : Nat) : List (List Nat) := (List.range n).map ([·])

theorem length_chain (n : Nat) : (chain n).length = n := by simp [chain]

theorem chain_succ (n : Nat) : chain (n + 1) = chain n ++ [[n]] := by simp [chain, List.range_succ]

theorem spine_chain (n : Nat) : Followed.Spine (chain n) n := by
  intro i hi
  simp [chain, hi]

theorem planned_chain (n : Nat) : Planned (chain n) := by
  intro i numbers hi
  have hlt : i < n := by simpa [chain] using (List.getElem?_eq_some_iff.mp hi).1
  obtain rfl := Option.some.inj ((spine_chain n i hlt).symm.trans hi)
  exact ⟨by simp, by simp [maxBlockParents], by simp, by simp, Or.inr ⟨_, rfl⟩⟩

theorem followed_chain (archival : Bool) {n : Nat} (hn : n ≤ finalityDepth) :
    Followed archival (chain n) (built archival (chain n)) :=
  followed archival (by simpa [chain] using hn) (planned_chain n)

namespace Followed

variable {archival : Bool} {n : Nat} {st : ChainState}

/-- The tip of a chain is its last block. -/
theorem selectedTip_chain (f : Followed archival (chain n) st) :
    st.selectedTip = some (blockHash n 0) := by
  obtain ⟨tip, htip⟩ := f.numbered.whole.selected
  have hmem := (GhostdagMap.selectBest_eq_some.mp htip).mem
  obtain ⟨hdag, hlast⟩ := (f.numbered.whole.tips tip).mp hmem
  obtain ⟨i, hi, rfl⟩ := (f.numbered.mem tip).mp hdag
  rw [chain, List.length_map, List.length_range] at hi
  rcases Nat.lt_succ_iff_lt_or_eq.mp hi with hi | rfl
  · exact absurd (by rw [f.parentsOf_spine (spine_chain n) hi]; simp) (hlast (blockHash (i + 1) 0))
  · exact htip

theorem fold_genesis (f : Followed archival (chain n) st) (seed : Ledger) :
    st.fold seed (st.canonicalOrderAt (blockHash 0 0)) = seed := by
  have w := f.numbered.whole
  obtain ⟨b, hb⟩ := DagInv.exists_block (f.mem (i := 0) (Nat.zero_le _))
  have hroot : b.parents = [] := by rw [← Dag.parentsOf_eq hb, f.genesis]
  rw [ChainState.canonicalOrderAt_root w.dagInv (f.mem (Nat.zero_le _)) f.spOf_genesis,
    ChainState.fold, ChainState.blocksAt, List.filterMap_cons, hb]
  simp [Ledger.replay, Ledger.applyBlockEffects, hroot]

/-- The replay of a chain applies its blocks one after another. -/
theorem fold_succ (f : Followed archival (chain n) st) (seed : Ledger) {i : Nat} (hi : i < n) {b : Block}
    (hb : st.dag[blockHash (i + 1) 0]? = some b) :
    st.fold seed (st.canonicalOrderAt (blockHash (i + 1) 0))
      = (st.fold seed (st.canonicalOrderAt (blockHash i 0))).applyBlockEffects st.chainId 0 (some (i + 1)) b := by
  have w := f.numbered.whole
  have hs := spine_chain n
  have hlen : (chain n).length = n := by simp [chain]
  rw [ChainState.canonicalOrderAt_step w.dagInv (f.spOf_spine hs hi), f.mergedOf_spine hs hi, List.append_nil,
    ChainState.fold_append, ChainState.blocksAt, List.filterMap_cons, hb]
  simp only [Option.map_some, List.filterMap_nil, Ledger.replay, List.foldl_cons, List.foldl_nil]
  rw [f.scoreOf_spine hs (by omega)]

theorem parents_ne (f : Followed archival (chain n) st) {i : Nat} (hi : i < n) {b : Block}
    (hb : st.dag[blockHash (i + 1) 0]? = some b) : b.parents ≠ [] := by
  rw [← Dag.parentsOf_eq hb, f.parentsOf_spine (spine_chain n) hi]
  simp

/-- The replay of a chain mints one full subsidy for each block, in the first
subsidy era and below the cap. -/
theorem mintedSupply_chain (f : Followed archival (chain n) st) {i : Nat} (hi : i ≤ n)
    (hera : i < halvingInterval) (hcap : i * blockReward ≤ maxSupply) :
    (st.fold {} (st.canonicalOrderAt (blockHash i 0))).mintedSupply = i * blockReward := by
  have hlen : (chain n).length = n := by simp [chain]
  induction i with
  | zero =>
      rw [f.fold_genesis]
      simp
  | succ i ih =>
      obtain ⟨b, hb⟩ := DagInv.exists_block (f.mem (i := i + 1) (by omega))
      have hprev := ih (by omega) (by omega) (by rw [Nat.add_mul] at hcap; omega)
      have hsubsidy : blockSubsidy (i + 1) = blockReward := by
        simp [blockSubsidy, Nat.div_eq_of_lt hera]
      rw [f.fold_succ {} (by omega) hb, Ledger.mintedSupply_applyBlockEffects _ _ _ _ (f.parents_ne (by omega) hb)
        (by rw [hprev]; rw [Nat.add_mul] at hcap; omega), hprev, hsubsidy, Nat.add_mul, Nat.one_mul]
      exact min_eq_left (by rw [Nat.add_mul] at hcap; omega)

end Followed

end Sample

end HassanNode
