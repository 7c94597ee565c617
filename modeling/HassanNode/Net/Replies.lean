import Mathlib
import HassanNode.Net.Exchange

/-!
# HassanNode.Net.Replies

Replies against the receiver's caps. A sender drops what is longer than the frame
limit (`noise_write`), and a receiver drops what is longer than the cap of its type
(`max_payload_for`). What a request is answered with is bounded by counts, so which
replies fit is a matter of the state: only blocks always do.
-/

namespace HassanNode

open Std (ExtTreeMap ExtTreeSet)
open Params Bincode

/-! ### Encodings -/

instance : Bincode Account :=
  ⟨fun a => u128 a.balance ++ u64 a.nonce ++ u64 a.lastSpendBlue ++ encode a.codeHash ++ encode a.storageRoot⟩

/-- An optional text. -/
def Bincode.optBytes : Option Bytes → Bytes
  | none => [0]
  | some bs => 1 :: Bincode.bytes bs

instance : Bincode TitleEvent :=
  ⟨fun e => u64 e.timestamp.toNat ++ u64 e.blockHeight.toNat ++ Bincode.bytes e.settlementId
    ++ Bincode.bytes e.event ++ optBytes e.from_ ++ Bincode.bytes e.to_ ++ Bincode.bytes e.memo⟩

instance : Bincode TitleDeed :=
  ⟨fun d => encode d.titleId ++ u32 d.assetClass.index ++ Bincode.bytes d.description
    ++ Bincode.bytes d.currentOwner ++ u64 d.issuedAt.toNat ++ encode d.history ++ encode d.escrowId
    ++ optBytes d.lienholder⟩

def EscrowStatus.index : EscrowStatus → Nat
  | .open_ => 0 | .funded => 1 | .released => 2 | .refunded => 3 | .disputed => 4

instance : Bincode EscrowAccount :=
  ⟨fun e => encode e.escrowId ++ Bincode.bytes e.buyer ++ Bincode.bytes e.seller ++ optBytes e.arbiter
    ++ u128 e.amount ++ u128 e.funded ++ u32 e.status.index ++ encode e.titleId ++ u64 e.openedAt.toNat
    ++ Bincode.bytes e.memo ++ u64 e.timeoutBlue⟩

/-- A map with its number of entries in front. A hash map of the source is written
in an order of its own; the length does not depend on it. -/
def Bincode.entries {α β : Type} [Ord α] (key : α → Bytes) (value : β → Bytes) (m : ExtTreeMap α β)
    [Std.TransCmp (compare (α := α))] : Bytes :=
  u64 m.size ++ m.toList.flatMap fun e => key e.1 ++ value e.2

instance : Bincode RegistryState :=
  ⟨fun r => entries encode encode r.titles ++ entries encode encode r.escrows⟩

instance : Bincode UtxoSet :=
  ⟨fun u => entries encode encode u.entries ++ encode u.spent.toList⟩

instance : Bincode Ledger :=
  ⟨fun l => entries Bincode.bytes encode l.accounts ++ u128 l.mintedSupply ++ u128 l.feesBurned
    ++ u128 l.treasury ++ encode l.registry ++ entries Bincode.bytes u128 l.staked ++ encode l.utxo⟩

instance : Bincode PruningPointLedger := ⟨fun msg => encode msg.pruningPoint ++ encode msg.ledger⟩

instance : Bincode MultiLevelPruningProof :=
  ⟨fun p => encode p.recentHeaders ++ encode p.hops ++ p.claimedVerifiedWork.elim [0] (fun w => 1 :: u128 w)⟩

/-- The payload of a message: the index of its variant and its fields. Of `Hello`
the listen address is not modelled. -/
def Message.payload : Message → Bytes
  | .hello version magic chainId blueScore => u32 0 ++ u32 version ++ magic ++ u64 chainId ++ u64 blueScore ++ [0]
  | .getAddr => u32 1
  | .addr addrs => u32 2 ++ u64 addrs.length ++ addrs.flatMap Bincode.bytes
  | .getTips => u32 3
  | .tips hashes => u32 4 ++ encode hashes
  | .getBlock hash => u32 5 ++ encode hash
  | .block b => u32 6 ++ encode b
  | .notFound hash => u32 8 ++ encode hash
  | .utxoTx tx => u32 13 ++ encode tx
  | .getUtxoTx hash => u32 15 ++ encode hash
  | .getHeaders locator stopHash limit => u32 19 ++ encode locator ++ encode stopHash ++ u32 limit
  | .headers hs => u32 20 ++ encode hs
  | .getPruningProof => u32 24
  | .pruningProof hs => u32 25 ++ encode hs
  | .getMultiLevelPruningProof => u32 26
  | .multiLevelPruningProof proof => u32 27 ++ encode proof
  | .getPruningPointLedger pp => u32 28 ++ encode pp
  | .pruningPointLedger msg => u32 29 ++ encode msg

/-! ### Caps -/

def maxMessageBytes : Nat := maxBlockBytes + 16 * 1024

/-- `max_payload_for`. -/
def Message.maxPayloadFor : Message → Nat
  | .hello .. | .getAddr | .getTips | .getPruningProof | .getMultiLevelPruningProof | .getBlock _
  | .notFound _ | .getUtxoTx _ | .getPruningPointLedger _ => 8 * 1024
  | .addr addrs => 512 + min (addrs.length * 256) (64 * 1024)
  | .tips hashes => 256 + hashes.length * 80
  | .utxoTx _ => 128 * 1024
  | .getHeaders locator _ _ => 512 + min locator.length maxLocatorHashes * 80
  | .headers hs => min (512 + min hs.length maxHeadersPerMsg * 512) maxMessageBytes
  | .block _ | .pruningProof _ | .multiLevelPruningProof _ | .pruningPointLedger _ => maxMessageBytes

/-- The sender does not drop the message, nor does the receiver: `noise_write` and
`message_within_type_cap`. -/
def Message.Passes (m : Message) : Prop :=
  m.payload.length ≤ maxMessageBytes ∧ m.payload.length ≤ m.maxPayloadFor

/-! ### Payload lengths -/

namespace Message

theorem length_addr (addrs : List Bytes) :
    (addr addrs).payload.length = 12 + 8 * addrs.length + (addrs.map List.length).sum := by
  have hflat : (addrs.flatMap Bincode.bytes).length = 8 * addrs.length + (addrs.map List.length).sum := by
    induction addrs with
    | nil => rfl
    | cons a addrs ih =>
        rw [List.flatMap_cons, List.length_append, ih, Bincode.length_bytes, List.length_cons, List.map_cons,
          List.sum_cons]
        omega
  simp only [payload, List.length_append, Bincode.length_u32, Bincode.length_u64, hflat]
  omega

theorem length_tips (hashes : List Hash) : (tips hashes).payload.length = 12 + 64 * hashes.length := by
  rw [payload, List.length_append, Bincode.length_u32, Bincode.length_encode_hashes]
  omega

theorem length_block (b : Block) : (block b).payload.length = 4 + b.wireSize := by
  rw [payload, List.length_append, Bincode.length_u32]
  rfl

theorem length_notFound (h : Hash) : (notFound h).payload.length = 68 := by
  rw [payload, List.length_append, Bincode.length_u32]
  change 4 + h.asBytes.length = 68
  rw [Hash.length_asBytes]

theorem length_utxoTx (tx : UtxoTx) : (utxoTx tx).payload.length = 4 + (encode tx).length := by
  rw [payload, List.length_append, Bincode.length_u32]

theorem length_blocks (bs : List Block) : (encode bs).length = 8 + (bs.map Block.wireSize).sum :=
  Bincode.length_encode_list bs

theorem length_headers (hs : List Block) :
    (headers hs).payload.length = 12 + (hs.map Block.wireSize).sum := by
  rw [payload, List.length_append, Bincode.length_u32, length_blocks]
  omega

theorem length_pruningProof (hs : List Block) :
    (pruningProof hs).payload.length = 12 + (hs.map Block.wireSize).sum := by
  rw [payload, List.length_append, Bincode.length_u32, length_blocks]
  omega

theorem length_multiLevel (proof : MultiLevelPruningProof) :
    (multiLevelPruningProof proof).payload.length = 20 + (proof.recentHeaders.map Block.wireSize).sum
      + (proof.hops.map Block.wireSize).sum + (if proof.claimedVerifiedWork.isSome then 17 else 1) := by
  have hlen : (encode proof).length = (encode proof.recentHeaders ++ encode proof.hops
      ++ proof.claimedVerifiedWork.elim [0] (fun w => 1 :: u128 w)).length := rfl
  rw [payload, List.length_append, Bincode.length_u32, hlen, List.length_append, List.length_append,
    length_blocks, length_blocks]
  cases proof.claimedVerifiedWork with
  | none => simp; omega
  | some w => simp [u128]; omega

end Message

/-! ### The size of a proof -/

namespace ChainState

variable [Crypto] {st : ChainState}

/-- The size of a block's header; `0` for an unknown one. -/
def headerSizeAt (st : ChainState) (h : Hash) : Nat := (st.dag[h]?.map Block.headerSize).getD 0

/-- The size of the headers along the selected chain up to the pruning point. -/
def proofSize (st : ChainState) : Nat :=
  match st.pruningPoint, st.selectedTip with
  | some pp, some tip =>
    let chain := st.ghostdag.selectedChain tip
    ((chain.take (chain.idxOf pp + 1)).map st.headerSizeAt).sum
  | _, _ => 0

theorem sum_buildPruningProof {headers : List Block} (h : st.buildPruningProof = some headers) :
    (headers.map Block.wireSize).sum = st.proofSize := by
  have hread : ∀ (hs : List Hash) (bs : List Block), (hs.mapM fun h => st.dag[h]?.map Block.headerOnly) = some bs →
      (bs.map Block.wireSize).sum = (hs.map st.headerSizeAt).sum := by
    intro hs
    induction hs with
    | nil =>
        intro bs hbs
        obtain rfl : [] = bs := by simpa using hbs
        rfl
    | cons h hs ih =>
        intro bs hbs
        rw [List.mapM_cons] at hbs
        obtain ⟨b, hb, hbs⟩ := Option.bind_eq_some_iff.mp hbs
        obtain ⟨rest, hrest, hbs⟩ := Option.bind_eq_some_iff.mp hbs
        obtain rfl := Option.some.inj hbs
        obtain ⟨b₀, hb₀, rfl⟩ := Option.map_eq_some_iff.mp hb
        rw [List.map_cons, List.map_cons, List.sum_cons, List.sum_cons, ih rest hrest, headerSizeAt, hb₀,
          Block.wireSize_headerOnly]
        rfl
  unfold buildPruningProof at h
  obtain ⟨pp, hpp, h⟩ := Option.bind_eq_some_iff.mp h
  obtain ⟨tip, htip, h⟩ := Option.bind_eq_some_iff.mp h
  dsimp only at h
  split at h
  · obtain ⟨headers', hheaders, h⟩ := Option.bind_eq_some_iff.mp h
    split at h
    · obtain rfl := Option.some.inj h
      rw [proofSize, hpp, htip]
      exact hread _ _ hheaders
    · cases h
  · cases h

/-- An honest builder claims no work. -/
theorem claimed_buildMultilevel {window : Nat} {proof : MultiLevelPruningProof}
    (h : st.buildMultilevelPruningProof window = some proof) : proof.claimedVerifiedWork = none := by
  obtain ⟨headers, -, h⟩ := Option.bind_eq_some_iff.mp h
  unfold MultiLevelPruningProof.build at h
  dsimp only at h
  split at h
  · cases h
  · obtain ⟨cursor, -, h⟩ := Option.bind_eq_some_iff.mp h
    obtain ⟨hops, -, h⟩ := Option.bind_eq_some_iff.mp h
    obtain rfl := Option.some.inj h
    rfl

end ChainState

/-! ### Which replies fit -/

namespace Node

variable [Crypto]

/-- The part of the main chain that a walk for headers covers. -/
def segment (n : Node) (locator : List Hash) (stopHash : Hash) (limit : Nat) : List Hash :=
  match ((locator.take maxLocatorHashes).find? n.chain.dag.contains).or n.chain.mainChain.head? with
  | none => []
  | some cur =>
    if n.chain.mainChain.contains cur then
      upTo stopHash ((n.chain.mainChain.drop (n.chain.mainChain.idxOf cur)).take
        (max 1 (min limit maxHeadersPerMsg)))
    else []
where
  /-- Up to the stop hash. -/
  upTo (stopHash : Hash) : List Hash → List Hash
    | [] => []
    | h :: hs => h :: if h = stopHash ∧ stopHash ≠ Hash.zero then [] else upTo stopHash hs

omit [Crypto] in
theorem servedHeaders_eq (n : Node) (locator : List Hash) (stopHash : Hash) (limit : Nat) :
    n.servedHeaders locator stopHash limit
      = (n.segment locator stopHash limit).filterMap fun h => n.chain.dag[h]?.map Block.headerOnly := by
  have hwalk : ∀ hs, servedHeaders.walk n stopHash hs
      = (segment.upTo stopHash hs).filterMap fun h => n.chain.dag[h]?.map Block.headerOnly := by
    intro hs
    induction hs with
    | nil => rfl
    | cons h hs ih =>
        rw [servedHeaders.walk, segment.upTo, List.filterMap_cons, ih]
        cases n.chain.dag[h]? with
        | none =>
            split
            · rfl
            · rfl
        | some b =>
            split
            · rfl
            · rfl
  unfold servedHeaders segment
  dsimp only
  cases ((locator.take maxLocatorHashes).find? n.chain.dag.contains).or n.chain.mainChain.head? with
  | none => rfl
  | some cur =>
      dsimp only
      split
      · exact hwalk _
      · rfl

omit [Crypto] in
theorem segment_sublist (n : Node) (locator : List Hash) (stopHash : Hash) (limit : Nat) :
    (n.segment locator stopHash limit).Sublist n.chain.mainChain := by
  have hupTo : ∀ hs, (segment.upTo stopHash hs).Sublist hs := by
    intro hs
    induction hs with
    | nil => exact .slnil
    | cons h hs ih =>
        rw [segment.upTo]
        split
        · exact (List.nil_sublist hs).cons_cons h
        · exact ih.cons_cons h
  unfold segment
  split
  · exact List.nil_sublist _
  · split
    · exact (hupTo _).trans ((List.take_sublist ..).trans (List.drop_sublist ..))
    · exact List.nil_sublist _

/-- The header of genesis. -/
def IsGenesis (b : Block) : Prop := b.headerOnly = genesisBlock.headerOnly

/-- What the state must be like for the reply to a request to fit: a walk for
headers covers genesis alone, there are not too many tips, addresses are short, a
pending transaction is small, and so is a proof or a ledger. -/
def Fitting (n : Node) : Message → Prop
  | .getAddr => ((n.knownAddrs.take 64).map List.length).sum ≤ 500 + 248 * (n.knownAddrs.take 64).length
  | .getTips => n.chain.tips.length ≤ 4351
  | .getUtxoTx h => ∀ tx, n.chain.utxoMempool.find? (·.txid == h) = some tx → (encode tx).length ≤ 131068
  | .getHeaders locator stopHash limit => ∃ h b, (n.segment locator stopHash limit).filter n.chain.dag.contains = [h] ∧
      n.chain.dag[h]? = some b ∧ IsGenesis b
  | .getPruningProof => 12 + n.chain.proofSize ≤ maxMessageBytes
  | .getMultiLevelPruningProof =>
    match (n.chain.buildMultilevelPruningProof pruningProofRecentWindow).or
        (n.chain.buildMultilevelPruningProof 2) with
    | some proof => 21 + ((proof.hops ++ proof.recentHeaders).map Block.wireSize).sum ≤ maxMessageBytes
    | none => 12 + n.chain.proofSize ≤ maxMessageBytes
  | .getPruningPointLedger _ => ∀ msg, n.chain.buildPruningPointLedger = some msg →
      4 + (encode msg).length ≤ maxMessageBytes
  | _ => True

variable {n : Node} {r : Message}

theorem passes_addr (hr : n.answer .getAddr = some r) : r.Passes ↔ n.Fitting .getAddr := by
  rw [answer] at hr
  split at hr
  · cases hr
  · obtain rfl := Option.some.inj hr
    have hlen : (n.knownAddrs.take 64).length ≤ 64 := List.length_take_le 64 n.knownAddrs
    have hmax : maxMessageBytes = 278528 := rfl
    have hcap : (Message.addr (n.knownAddrs.take 64)).maxPayloadFor
        = 512 + min ((n.knownAddrs.take 64).length * 256) (64 * 1024) := rfl
    rw [Message.Passes, Fitting, hcap, Message.length_addr, hmax]
    omega

theorem passes_tips (hr : n.answer .getTips = some r) : r.Passes ↔ n.Fitting .getTips := by
  obtain rfl := Option.some.inj hr
  have hmax : maxMessageBytes = 278528 := rfl
  have hcap : (Message.tips n.chain.tips).maxPayloadFor = 256 + n.chain.tips.length * 80 := rfl
  rw [Message.Passes, Fitting, hcap, Message.length_tips, hmax]
  omega

theorem passes_utxoTx {h : Hash} (hr : n.answer (.getUtxoTx h) = some r) :
    r.Passes ↔ n.Fitting (.getUtxoTx h) := by
  have hmax : maxMessageBytes = 278528 := rfl
  rw [answer] at hr
  rw [Fitting]
  cases htx : n.chain.utxoMempool.find? (·.txid == h) with
  | none =>
      rw [htx] at hr
      obtain rfl := Option.some.inj hr
      refine iff_of_true ⟨?_, ?_⟩ fun tx htx' => absurd htx' (by simp)
      · rw [Message.length_notFound, hmax]
        omega
      · rw [Message.length_notFound]
        change 68 ≤ 8 * 1024
        omega
  | some tx =>
      rw [htx] at hr
      obtain rfl := Option.some.inj hr
      have hcap : (Message.utxoTx tx).maxPayloadFor = 128 * 1024 := rfl
      rw [Message.Passes, hcap, Message.length_utxoTx, hmax]
      constructor
      · rintro ⟨-, hle⟩ tx' htx'
        obtain rfl := Option.some.inj htx'
        omega
      · intro hfits
        have hle := hfits tx rfl
        omega

theorem passes_pruningProof {headers : List Block} (hr : n.chain.buildPruningProof = some headers) :
    (Message.pruningProof headers).Passes ↔ 12 + n.chain.proofSize ≤ maxMessageBytes := by
  rw [Message.Passes, Message.length_pruningProof, ChainState.sum_buildPruningProof hr]
  exact and_self_iff

theorem passes_proof (hr : n.answer .getPruningProof = some r) : r.Passes ↔ n.Fitting .getPruningProof := by
  obtain ⟨headers, hheaders, rfl⟩ := Option.map_eq_some_iff.mp hr
  exact passes_pruningProof hheaders

theorem passes_multiLevel (hr : n.answer .getMultiLevelPruningProof = some r) :
    r.Passes ↔ n.Fitting .getMultiLevelPruningProof := by
  rw [answer] at hr
  unfold Fitting
  cases hproof : (n.chain.buildMultilevelPruningProof pruningProofRecentWindow).or
      (n.chain.buildMultilevelPruningProof 2) with
  | none =>
      rw [hproof] at hr
      obtain ⟨headers, hheaders, rfl⟩ := Option.map_eq_some_iff.mp hr
      exact passes_pruningProof hheaders
  | some proof =>
      rw [hproof] at hr
      obtain rfl := Option.some.inj hr
      have hclaim : proof.claimedVerifiedWork = none := by
        rcases Option.or_eq_some_iff.mp hproof with h | ⟨-, h⟩
        · exact ChainState.claimed_buildMultilevel h
        · exact ChainState.claimed_buildMultilevel h
      have hcap : (Message.multiLevelPruningProof proof).maxPayloadFor = maxMessageBytes := rfl
      rw [Message.Passes, hcap, and_self_iff, Message.length_multiLevel, hclaim]
      simp only [Option.isSome_none, Bool.false_eq_true, if_false, List.map_append, List.sum_append]
      omega

theorem passes_ledger {pp : Hash} (hr : n.answer (.getPruningPointLedger pp) = some r) :
    r.Passes ↔ n.Fitting (.getPruningPointLedger pp) := by
  rw [answer] at hr
  split at hr
  · obtain ⟨msg, hmsg, rfl⟩ := Option.map_eq_some_iff.mp hr
    have hcap : (Message.pruningPointLedger msg).maxPayloadFor = maxMessageBytes := rfl
    have hlen : (Message.pruningPointLedger msg).payload.length = 4 + (encode msg).length := by
      rw [Message.payload, List.length_append, Bincode.length_u32]
    rw [Message.Passes, hcap, and_self_iff, hlen, Fitting]
    constructor
    · intro hle msg' hmsg'
      obtain rfl := Option.some.inj (hmsg.symm.trans hmsg')
      exact hle
    · exact fun hfits => hfits msg hmsg
  · cases hr

/-! ### Headers -/

/-- Public keys have their size, in all blocks but genesis. -/
def Keyed (n : Node) : Prop :=
  ∀ (h : Hash) (b : Block), n.chain.dag[h]? = some b → IsGenesis b ∨ b.creatorPubkey.length = pqPublicKeySize

omit [Crypto] in
/-- Unknown hashes are skipped. -/
theorem servedHeaders_known (n : Node) (locator : List Hash) (stopHash : Hash) (limit : Nat) :
    n.servedHeaders locator stopHash limit
      = ((n.segment locator stopHash limit).filter n.chain.dag.contains).filterMap
          fun h => n.chain.dag[h]?.map Block.headerOnly := by
  rw [servedHeaders_eq, List.filterMap_filter]
  refine List.filterMap_congr fun h _ => ?_
  split
  · rfl
  · rename_i hout
    rw [ExtTreeMap.getElem?_eq_none fun hmem => hout (ExtTreeMap.contains_iff_mem.mpr hmem)]
    rfl

omit [Crypto] in
theorem sum_known (st : ChainState) {hs : List Hash} (hmem : ∀ h ∈ hs, h ∈ st.dag) :
    (hs.filterMap fun h => st.dag[h]?.map Block.headerOnly).length = hs.length ∧
      ((hs.filterMap fun h => st.dag[h]?.map Block.headerOnly).map Block.wireSize).sum
        = (hs.map st.headerSizeAt).sum := by
  induction hs with
  | nil => exact ⟨rfl, rfl⟩
  | cons h hs ih =>
      obtain ⟨b, hb⟩ := DagInv.exists_block (hmem h (List.mem_cons_self ..))
      obtain ⟨hlen, hsum⟩ := ih fun x hx => hmem x (List.mem_cons_of_mem h hx)
      have hsize : st.headerSizeAt h = b.headerSize := by rw [ChainState.headerSizeAt, hb]; rfl
      rw [List.filterMap_cons, hb, Option.map_some]
      dsimp only
      rw [List.length_cons, List.length_cons, hlen, List.map_cons, List.map_cons, List.sum_cons, List.sum_cons, hsum,
        hsize, Block.wireSize_headerOnly]
      exact ⟨rfl, rfl⟩

omit [Crypto] in
theorem headerSize_genesis {b : Block} (h : IsGenesis b) : b.headerSize = 316 := by
  rw [← Block.headerSize_headerOnly, h]
  rfl

/-- Every block is under its hash and can be sent. -/
def Sendable (st : ChainState) : Prop :=
  ∀ (h : Hash) (b : Block), st.dag[h]? = some b → b.hash = h ∧ 4 + b.wireSize ≤ maxMessageBytes

/-- Every header but that of genesis is longer than the cap for one. -/
theorem headerSizeAt_ge (hkeyed : n.Keyed) (hst : Sendable n.chain) {h : Hash}
    (hmem : h ∈ n.chain.dag) :
    2908 ≤ n.chain.headerSizeAt h + 2592 * (if h = genesisBlock.hash then 1 else 0) := by
  obtain ⟨b, hb⟩ := DagInv.exists_block hmem
  have hsize : n.chain.headerSizeAt h = b.headerSize := by rw [ChainState.headerSizeAt, hb]; rfl
  rw [hsize]
  split
  · unfold Block.headerSize
    omega
  · rename_i hne
    rcases hkeyed h b hb with hgenesis | hkey
    · refine absurd ?_ hne
      rw [← (hst h b hb).1, ← Block.hash_headerOnly, hgenesis, Block.hash_headerOnly]
    · have hbytes : pqPublicKeySize = 2592 := rfl
      unfold Block.headerSize
      omega

theorem sum_headerSizeAt_ge (hkeyed : n.Keyed) (hst : Sendable n.chain)
    {hs : List Hash} (hmem : ∀ h ∈ hs, h ∈ n.chain.dag) :
    2908 * hs.length ≤ (hs.map n.chain.headerSizeAt).sum + 2592 * hs.count genesisBlock.hash := by
  induction hs with
  | nil => exact Nat.zero_le _
  | cons h hs ih =>
      have hhead := headerSizeAt_ge hkeyed hst (hmem h (List.mem_cons_self ..))
      have htail := ih fun x hx => hmem x (List.mem_cons_of_mem h hx)
      rw [List.length_cons, List.map_cons, List.sum_cons, List.count_cons]
      simp only [beq_iff_eq]
      omega

section Headers

variable {locator : List Hash} {stopHash : Hash} {limit : Nat}

/-- Genesis alone fits. -/
theorem passes_headers (hfit : n.Fitting (.getHeaders locator stopHash limit))
    (hr : n.answer (.getHeaders locator stopHash limit) = some r) : r.Passes := by
  obtain ⟨h, b, hknown, hb, hgenesis⟩ := hfit
  have hserved : n.servedHeaders locator stopHash limit = [b.headerOnly] := by
    rw [servedHeaders_known, hknown, List.filterMap_cons, hb]
    rfl
  rw [answer, hserved] at hr
  obtain rfl := Option.some.inj hr
  have hlen : (Message.headers [b.headerOnly]).payload.length = 328 := by
    rw [Message.length_headers, List.map_singleton, List.sum_singleton, Block.wireSize_headerOnly,
      headerSize_genesis hgenesis]
  have hcap : (Message.headers [b.headerOnly]).maxPayloadFor
      = min (512 + min 1 maxHeadersPerMsg * 512) maxMessageBytes := rfl
  have hmax : maxMessageBytes = 278528 := rfl
  have hcount : maxHeadersPerMsg = 2000 := rfl
  rw [Message.Passes, hlen, hcap, hmax, hcount]
  omega

/-- Nothing else does. -/
theorem fitting_of_passes_headers (hkeyed : n.Keyed) (hst : Sendable n.chain)
    (hnodup : n.chain.mainChain.Nodup)
    (hr : n.answer (.getHeaders locator stopHash limit) = some r) (hpasses : r.Passes) :
    n.Fitting (.getHeaders locator stopHash limit) := by
  have hmem : ∀ h ∈ (n.segment locator stopHash limit).filter n.chain.dag.contains, h ∈ n.chain.dag :=
    fun h hh => ExtTreeMap.contains_iff_mem.mp (List.mem_filter.mp hh).2
  have hcount : ((n.segment locator stopHash limit).filter n.chain.dag.contains).count genesisBlock.hash ≤ 1 :=
    List.nodup_iff_count_le_one.mp ((hnodup.sublist (segment_sublist ..)).filter _) _
  have hserved := servedHeaders_known n locator stopHash limit
  rw [answer] at hr
  split at hr
  · cases hr
  · rename_i hne
    obtain rfl := Option.some.inj hr
    rw [hserved] at hne hpasses
    rw [Fitting]
    generalize (n.segment locator stopHash limit).filter n.chain.dag.contains = ks at *
    obtain ⟨hlen, hsum⟩ := sum_known n.chain hmem
    have hbig := sum_headerSizeAt_ge hkeyed hst hmem
    have hcap := hpasses.2
    rw [Message.length_headers, hsum] at hcap
    have hle : (Message.headers (ks.filterMap fun h => n.chain.dag[h]?.map Block.headerOnly)).maxPayloadFor
        ≤ 512 + ks.length * 512 := by
      change min (512 + min (ks.filterMap fun h => n.chain.dag[h]?.map Block.headerOnly).length maxHeadersPerMsg * 512)
        maxMessageBytes ≤ _
      rw [hlen]
      omega
    have hone : ks.length = 1 := by
      have hpos : ks.length ≠ 0 := by
        rw [← hlen]
        exact fun hzero => hne (by rw [List.length_eq_zero_iff.mp hzero]; rfl)
      omega
    obtain ⟨h, rfl⟩ := List.length_eq_one_iff.mp hone
    obtain ⟨b, hb⟩ := DagInv.exists_block (hmem h (List.mem_singleton_self h))
    refine ⟨h, b, rfl, hb, (hkeyed h b hb).resolve_right fun hkey => ?_⟩
    have hsize : n.chain.headerSizeAt h = b.headerSize := by rw [ChainState.headerSizeAt, hb]; rfl
    rw [List.map_singleton, List.sum_singleton, hsize] at hcap
    have hbytes : pqPublicKeySize = 2592 := rfl
    have hheader : 316 + b.creatorPubkey.length ≤ b.headerSize := Nat.le_add_right _ _
    rw [hone] at hle
    omega

end Headers

/-! ### Blocks -/

/-- A block the node has can be sent. -/
theorem passes_block (hst : Sendable n.chain) {h : Hash} (hr : n.answer (.getBlock h) = some r) : r.Passes := by
  rw [answer] at hr
  cases hserved : n.served h with
  | none =>
      rw [hserved] at hr
      obtain rfl := Option.some.inj hr
      rw [Message.Passes, Message.length_notFound]
      exact ⟨by decide, show 68 ≤ 8 * 1024 by decide⟩
  | some b =>
      rw [hserved] at hr
      obtain rfl := Option.some.inj hr
      obtain ⟨b₀, hb₀, rfl⟩ := Option.map_eq_some_iff.mp hserved
      have hle := (hst h b₀ hb₀).2
      have hwire : (if n.servesHeader h then b₀.headerOnly else b₀).wireSize ≤ b₀.wireSize := by
        split
        · rw [Block.wireSize_headerOnly, Block.wireSize_eq]
          omega
        · exact le_refl _
      have hcap : (Message.block (if n.servesHeader h then b₀.headerOnly else b₀)).maxPayloadFor
          = maxMessageBytes := rfl
      rw [Message.Passes, hcap, and_self_iff, Message.length_block]
      omega

theorem Sendable.seeded (easy archival : Bool) (seed : Ledger) : Sendable (ChainState.seeded easy archival seed) := by
  intro h b hb
  obtain ⟨rfl, rfl⟩ := ChainState.seeded_get easy archival seed hb
  have hproof : genesisBlock.starkProof.length = 64 := List.length_replicate
  have hheader : genesisBlock.headerSize = 316 := rfl
  have hbody : genesisBlock.bodySize = 0 := rfl
  have hbirth : genesisBlock.birthCertificate.length = 0 := rfl
  have hmax : maxMessageBytes = 278528 := rfl
  refine ⟨rfl, ?_⟩
  rw [Block.wireSize_eq]
  omega

theorem Sendable.run {st : ChainState} (hst : Sendable st) (calls : List (Env × Block)) : Sendable (st.run calls) := by
  refine ChainState.run_induction (P := Sendable) hst ?_ calls
  intro s env block gd sp hs a h b hb
  obtain ⟨b₀, hor, hclr⟩ := ChainState.accept_getElem? hb
  have hold : b₀.hash = h ∧ 4 + b₀.wireSize ≤ maxMessageBytes := by
    rcases hor with ⟨rfl, rfl⟩ | hb₀
    · obtain ⟨-, -, hwire, -⟩ := ChainState.checkShape_eq_ok.mp a.shape
      refine ⟨rfl, ?_⟩
      unfold maxMessageBytes
      omega
    · exact hs h b₀ hb₀
  rcases hclr with rfl | rfl
  · exact hold
  · refine ⟨hold.1, ?_⟩
    have hclear : b₀.clearBody.wireSize = b₀.headerSize := by
      rw [Block.wireSize_eq, Block.headerSize_clearBody, Block.bodySize_clearBody]
      rfl
    have hwhole := b₀.wireSize_eq
    omega

omit [Crypto] in
theorem wireSize_le_proof {m : Message} {hdr : Block} (hmem : hdr ∈ m.proofHeaders) :
    4 + hdr.wireSize ≤ m.payload.length := by
  have hle : ∀ {bs : List Block}, hdr ∈ bs → hdr.wireSize ≤ (bs.map Block.wireSize).sum :=
    fun hmem => List.single_le_sum (fun _ _ => Nat.zero_le _) _ (List.mem_map_of_mem hmem)
  cases m with
  | pruningProof headers =>
      have hsum := hle (show hdr ∈ headers from hmem)
      rw [Message.length_pruningProof]
      omega
  | multiLevelPruningProof proof =>
      have hor : hdr ∈ proof.hops ∨ hdr ∈ proof.recentHeaders := by
        rcases List.mem_append.mp hmem with hhop | hrecent
        · exact Or.inl (List.mem_reverse.mp hhop)
        · exact Or.inr hrecent
      rw [Message.length_multiLevel]
      rcases hor with hhop | hrecent
      · have hsum := hle hhop
        omega
      · have hsum := hle hrecent
        omega
  | _ => cases hmem

/-- The headers of a received proof can be sent on. -/
theorem Sendable.imported {st st' : ChainState} {env : Env} {m : Message} {pp : Hash} (hst : Sendable st)
    (hsize : m.payload.length ≤ maxMessageBytes)
    (h : st.importVerifiedPruningHeaders env m.proofHeaders = .ok (st', pp)) : Sendable st' := by
  obtain ⟨first, rest, hheaders, -, -, -, -, hdag, -⟩ := ChainState.importVerifiedPruningHeaders_ok h
  intro k b hb
  rw [hdag] at hb
  rcases ChainState.foldl_importHeader_getElem? rest hb with hold | ⟨hdr, hmem, rfl, rfl⟩
  · exact hst k b hold
  · have hin : hdr ∈ m.proofHeaders := hheaders ▸ List.mem_cons_of_mem first hmem
    have hle := wireSize_le_proof hin
    have hheader := hdr.wireSize_headerOnly
    have hwhole := hdr.wireSize_eq
    exact ⟨rfl, by omega⟩

theorem Sendable.dispatch {budget : StarkVerifyBudget} {env : Env} {later : List Env} {m : Message}
    (hst : Sendable n.chain) (hsize : m.payload.length ≤ maxMessageBytes) :
    Sendable (n.dispatch budget env later m).1.chain := by
  have hmoved : Moved env m n.chain (n.dispatch budget env later m).1.chain := dispatch_moved m
  generalize (n.dispatch budget env later m).1.chain = st at hmoved
  cases hmoved with
  | run calls => exact hst.run calls
  | imported h => exact hst.imported hsize h
  | ledger h =>
      intro k b hb
      rw [(ChainState.adoptPruningPointLedger_core h).dag] at hb
      exact hst k b hb

/-! ### Runs -/

/-- What changes a node: an input, another set of known addresses, or another pool
of pending transactions. -/
inductive Change
  | fed (input : Input)
  | learnt (addrs : List Bytes)
  | pooled (txs : List UtxoTx)

/-- A frame that `noise_read` lets through. -/
def Change.Received : Change → Prop
  | .fed (.heard _ _ _ m) => m.payload.length ≤ maxMessageBytes
  | _ => True

def change (n : Node) : Change → Node
  | .fed input => n.feed input
  | .learnt addrs => { n with knownAddrs := addrs }
  | .pooled txs => { n with chain := { n.chain with utxoMempool := txs } }

def changes (n : Node) (cs : List Change) : Node := cs.foldl change n

theorem Sendable.change {c : Change} (hst : Sendable n.chain) (hc : c.Received) : Sendable (n.change c).chain := by
  cases c with
  | fed input =>
      cases input with
      | mined env b => exact hst.run [(env, b)]
      | heard budget env later m => exact hst.dispatch hc
  | learnt addrs => exact hst
  | pooled txs => exact hst

theorem Sendable.changes {cs : List Change} (hst : Sendable n.chain) (hcs : ∀ c ∈ cs, c.Received) :
    Sendable (n.changes cs).chain := by
  induction cs generalizing n with
  | nil => exact hst
  | cons c cs ih =>
      exact ih (hst.change (hcs c (List.mem_cons_self ..))) fun c' hc' => hcs c' (List.mem_cons_of_mem c hc')

end Node

/-! ### A node with one block -/

theorem Node.changes_mined [Crypto] (n : Node) (calls : List (Env × Block)) :
    n.changes (calls.map fun call => .fed (.mined call.1 call.2)) = { n with chain := n.chain.run calls } := by
  induction calls generalizing n with
  | nil => rfl
  | cons call calls ih =>
      rw [List.map_cons, changes, List.foldl_cons]
      exact ih _

namespace Sample

open Node (Change Keyed IsGenesis)

/-- Mine one block. -/
def oneMined : List Change := (chainCalls 1).map fun call => .fed (.mined call.1 call.2)

theorem received_oneMined : ∀ c ∈ oneMined, c.Received := by
  intro c hc
  obtain ⟨call, -, rfl⟩ := List.mem_map.mp hc
  trivial

theorem changes_oneMined : Node.changes { chain := ChainState.seeded false true {} } oneMined
    = { chain := built true (chain 1) } := by
  rw [oneMined, Node.changes_mined, run_chainCalls]

/-- Its main chain is genesis and the block. -/
theorem mainChain_one : (built true (chain 1)).mainChain = [blockHash 0 0, blockHash 1 0] := by
  have f := followed_chain true (n := 1) (by decide)
  have inv := ChainState.Archival.run false {} (chainCalls 1)
  rw [run_chainCalls] at inv
  have hsp := f.spOf_spine (spine_chain 1) Nat.zero_lt_one
  rw [inv.mainChain f.selectedTip_chain, GhostdagMap.selectedChain_step f.numbered.whole.dagInv.descends hsp,
    GhostdagMap.selectedChain_root f.spOf_genesis]
  rfl

theorem genesis_one : (built true (chain 1)).dag[blockHash 0 0]? = some genesisBlock := by
  have hgenesis := (ChainState.archival_genesis false {} (chainCalls 1)).1
  rwa [run_chainCalls, genesis_hash] at hgenesis

/-- The miner's key has its size. -/
theorem keyed_one : Keyed { chain := built true (chain 1) } := by
  intro h b hb
  change (built true (chain 1)).dag[h]? = some b at hb
  have f := followed_chain true (n := 1) (by decide)
  obtain ⟨i, hi, rfl⟩ := (f.numbered.mem h).mp (DagInv.mem_of_getElem? hb)
  rw [length_chain] at hi
  rcases (by omega : i = 0 ∨ i = 1) with rfl | rfl
  · obtain rfl := Option.some.inj (genesis_one.symm.trans hb)
    exact Or.inl rfl
  · right
    have f₀ := followed_chain true (n := 0) (Nat.zero_le _)
    have hnumbered := f₀.numbered
    rw [length_chain] at hnumbered
    have hbuild : Numbered.Buildable (0 + 1) [0] :=
      ⟨by simp, by simp [maxBlockParents], by simp, by simp, Or.inr ⟨0, rfl⟩⟩
    obtain ⟨gd, sp, a, hhash, -, -, -, gd', sp', hmined⟩ :=
      hnumbered.admitted hbuild (hnumbered.shallow (by decide))
    have hget := a.getElem?_step f₀.mode
    have hrun := run_chainCalls 1
    rw [chainCalls, ChainState.run_concat, run_chainCalls] at hrun
    rw [hhash, hrun] at hget
    rw [← Option.some.inj (hget.symm.trans hb), hmined, (committed_draft _ gd' sp' (hashes [0]) _ 0).2.1]
    exact List.length_replicate

theorem sendable_one : Node.Sendable (built true (chain 1)) := by
  rw [← run_chainCalls]
  exact (Node.Sendable.seeded false true {}).run _

/-- What there is to know of a node with one block. -/
structure OneBlock (st : ChainState) : Prop where
  changes : Node.changes { chain := ChainState.seeded false true {} } oneMined = { chain := st }
  keyed : Keyed { chain := st }
  sendable : Node.Sendable st
  mainChain : st.mainChain = [blockHash 0 0, blockHash 1 0]
  genesis : st.dag[blockHash 0 0]? = some genesisBlock
  dag : ∀ h ∈ st.mainChain, h ∈ st.dag

theorem exists_oneBlock : ∃ st, OneBlock st := by
  have f := followed_chain true (n := 1) (by decide)
  refine ⟨built true (chain 1), changes_oneMined, keyed_one, sendable_one, mainChain_one, genesis_one, fun h hh => ?_⟩
  rw [mainChain_one, List.mem_pair] at hh
  rcases hh with rfl | rfl
  · exact f.mem (Nat.zero_le _)
  · exact f.mem (by rw [length_chain])

variable {st : ChainState}

/-- The walk from genesis covers what it is allowed to. -/
theorem segment_whole (limit : Nat) : Node.segment { chain := st } [] Hash.zero limit
    = st.mainChain.take (max 1 (min limit maxHeadersPerMsg)) := by
  have hupTo : ∀ hs, Node.segment.upTo Hash.zero hs = hs := by
    intro hs
    induction hs with
    | nil => rfl
    | cons h hs ih => rw [Node.segment.upTo, if_neg (fun hstop => hstop.2 rfl), ih]
  unfold Node.segment
  simp only [List.take_nil, List.find?_nil, Option.none_or, hupTo]
  cases st.mainChain with
  | nil => simp
  | cons h hs => simp

theorem OneBlock.known (one : OneBlock st) (limit : Nat) :
    (Node.segment { chain := st } [] Hash.zero limit).filter st.dag.contains
      = [blockHash 0 0, blockHash 1 0].take (max 1 (min limit maxHeadersPerMsg)) := by
  rw [segment_whole, ← one.mainChain]
  exact List.filter_eq_self.mpr fun h hh => ExtTreeMap.contains_iff_mem.mpr (one.dag h (List.mem_of_mem_take hh))

/-- It answers a request for headers with some. -/
theorem OneBlock.answers (one : OneBlock st) (limit : Nat) :
    Node.answer { chain := st } (.getHeaders [] Hash.zero limit)
      = some (.headers (Node.servedHeaders { chain := st } [] Hash.zero limit)) := by
  have hne : Node.servedHeaders { chain := st } [] Hash.zero limit ≠ [] := by
    obtain ⟨k, hk⟩ := Nat.exists_eq_add_of_le' (le_max_left 1 (min limit maxHeadersPerMsg))
    rw [Node.servedHeaders_known, one.known, hk, List.take_succ_cons, List.filterMap_cons, one.genesis]
    exact List.cons_ne_nil _ _
  rw [Node.answer]
  exact if_neg (by simpa using hne)

end Sample

end HassanNode
