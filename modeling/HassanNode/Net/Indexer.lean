import Mathlib
import HassanNode.Lib.Map
import HassanNode.Lib.Mirror
import HassanNode.Consensus.Removed
import HassanNode.Consensus.Views
import HassanNode.Net.Headers

/-!
# HassanNode.Net.Indexer

The explorer's index (`indexer.rs`): four maps that follow the selected chain.
`sync_from_state` visits the main chain from the front that pruning has left, leaves
what it knows, and drops everything from the first block that differs.

The four maps agree in every step (`Sound`); the blocks are a `Mirror` of the main
chain. A walk that meets no difference would leave the rest of a longer old chain, but
the selected tip is never an inner block of an earlier main chain
(`getLast?_mainChain_outside`), so after each sync of a run the index mirrors the
selected chain (`IndexerDb.follows_chain`). Heights are natural numbers.
-/

namespace HassanNode

open Std (ExtTreeMap)
open Params

/-! ### Records -/

def indexerFormat : UInt32 := 1
def maxSeriesPoints : Nat := 4096
def maxAddrTxs : Nat := 2048
def maxTxRecords : Nat := 50000

/-- `hex::encode` of a digest. -/
def hexHash (h : Hash) : Bytes := Address.hexEncode h.asBytes

/-- `to_string` of a number. -/
def decimal (n : Nat) : Bytes := utf8 (toString n)

structure BlockRecord where
  height : Nat
  hash : Bytes
  blueScore : Nat
  timestamp : UInt64
  difficulty : UInt64
  miner : Bytes
  transfers : UInt32
  registryOps : UInt32
  custodyOps : UInt32
  utxoTxs : UInt32
  fees : Bytes
  selectedParent : Option Bytes
  isChainBlock : Bool

structure TxRecord where
  txHash : Bytes
  height : Nat
  blockHash : Bytes
  from_ : Bytes
  to_ : Bytes
  amount : Bytes
  fee : Bytes
  nonce : Nat
  timestamp : UInt64

structure SeriesPoint where
  height : Nat
  blueScore : Nat
  timestamp : UInt64
  difficulty : UInt64
  transfers : UInt32
  fees : Bytes
  mintedSupply : Bytes
  mempool : UInt32
  dagBlocks : UInt32

structure IndexerDb where
  format : UInt32 := 0
  tipHeight : Nat := 0
  tipHash : Option Bytes := none
  blocks : ExtTreeMap Nat BlockRecord := ∅
  byHash : ExtTreeMap Bytes Nat := ∅
  txs : ExtTreeMap Bytes TxRecord := ∅
  addressTxs : ExtTreeMap Bytes (List Bytes) := ∅
  labels : ExtTreeMap Bytes Bytes := ∅
  series : List SeriesPoint := []
  indexedAtMs : Nat := 0

/-- What a sync reads from its process: the clock, and the order in which the map of
transfers happens to be iterated. -/
structure Sync where
  now : Nat
  iter : List (Bytes × TxRecord) → List (Bytes × TxRecord)
  iter_perm : ∀ xs, (iter xs).Perm xs

namespace IndexerDb

/-! ### Operations -/

/-- `entry(key).or_insert(text)` on the labels. -/
def label (db : IndexerDb) (key text : Bytes) : IndexerDb := { db with labels := db.labels.insertIfNew key text }

/-- `seed_protocol_labels`. -/
def seedProtocolLabels (db : IndexerDb) : IndexerDb :=
  ((db.label (utf8 "protocol:genesis") (utf8 "Hassan genesis")).label (utf8 "protocol:kernel")
    (utf8 "Kernel rules ID")).label (utf8 "domain:" ++ genesisDomain) (utf8 "Genesis domain")

/-- `IndexerDb::new`. -/
def new : IndexerDb := seedProtocolLabels { format := indexerFormat }

/-- Keep the listed transfers that are in the map. -/
def retainListed (txs : ExtTreeMap Bytes TxRecord) (addressTxs : ExtTreeMap Bytes (List Bytes)) :
    ExtTreeMap Bytes (List Bytes) :=
  addressTxs.map fun _ list => list.filter txs.contains

/-- The loop body of `trim_from_height`. -/
def dropHeight (db : IndexerDb) (h : Nat) : IndexerDb :=
  match db.blocks[h]? with
  | none => db
  | some b => { db with blocks := db.blocks.erase h, byHash := db.byHash.erase b.hash }

/-- `trim_from_height`. -/
def trimFromHeight (db : IndexerDb) (height : Nat) : IndexerDb :=
  let db := (db.blocks.keys.filter (height ≤ ·)).foldl dropHeight db
  let txs := db.txs.filter fun _ t => t.height < height
  { db with
    txs := txs
    series := db.series.filter (·.height < height)
    addressTxs := retainListed txs db.addressTxs }

/-- `push_addr_tx`. -/
def pushAddrTx (db : IndexerDb) (addr txid : Bytes) : IndexerDb :=
  let list := db.addressTxs[addr]?.getD []
  let pushed := if list.getLast? = some txid then list else list ++ [txid]
  { db with addressTxs := db.addressTxs.insert addr (pushed.drop (pushed.length - maxAddrTxs)) }

/-- `trim_tx_cap`: the lowest ones go first. -/
def trimTxCap (sync : Sync) (db : IndexerDb) : IndexerDb :=
  if db.txs.size ≤ maxTxRecords then db
  else
    let pairs := ((sync.iter db.txs.toList).map fun p => (p.2.height, p.1)).mergeSort fun a b => a.1 ≤ b.1
    let txs := (pairs.take (db.txs.size - maxTxRecords)).foldl (fun txs p => txs.erase p.2) db.txs
    { db with txs := txs, addressTxs := retainListed txs db.addressTxs }

/-! ### The sync -/

section Sync

variable [Crypto]

/-- The record of a block. A sum of fees wraps. -/
def blockRecord (s : ChainState) (height : Nat) (h : Hash) (b : Block) : BlockRecord where
  height := height
  hash := hexHash h
  blueScore := (s.ghostdag[h]?.map GhostdagData.blueScore).getD 0
  timestamp := b.timestamp
  difficulty := b.difficulty
  miner := utf8 "hsn:" ++ hexHash b.miner
  transfers := UInt32.ofNat b.transparentTxs.length
  registryOps := UInt32.ofNat b.registryOps.length
  custodyOps := UInt32.ofNat b.custodyOps.length
  utxoTxs := UInt32.ofNat b.utxoTxs.length
  fees := decimal ((b.transparentTxs.map TransparentTx.fee).sum % 2 ^ 128)
  selectedParent := (s.ghostdag[h]?.bind GhostdagData.selectedParent).map hexHash
  isChainBlock := true

/-- The record of a transfer in a block. -/
def txRecord (record : BlockRecord) (tx : TransparentTx) : TxRecord where
  txHash := hexHash tx.txHash
  height := record.height
  blockHash := record.hash
  from_ := tx.from_
  to_ := tx.to_
  amount := decimal tx.amount
  fee := decimal tx.fee
  nonce := tx.nonce
  timestamp := record.timestamp

/-- The loop body over the transfers of a block. -/
def indexTx (record : BlockRecord) (db : IndexerDb) (tx : TransparentTx) : IndexerDb :=
  let txid := hexHash tx.txHash
  let db := (db.pushAddrTx tx.from_ txid).pushAddrTx tx.to_ txid
  let db := (db.label tx.from_ (utf8 "Active account")).label tx.to_ (utf8 "Active account")
  { db with txs := db.txs.insert txid (txRecord record tx) }

def seriesPoint (s : ChainState) (record : BlockRecord) : SeriesPoint where
  height := record.height
  blueScore := record.blueScore
  timestamp := record.timestamp
  difficulty := record.difficulty
  transfers := record.transfers
  fees := record.fees
  mintedSupply := decimal s.live.mintedSupply
  mempool := UInt32.ofNat s.transparentMempool.length
  dagBlocks := UInt32.ofNat s.dag.size

/-- A new block of the main chain. -/
def indexBlock (s : ChainState) (db : IndexerDb) (height : Nat) (h : Hash) (b : Block) : IndexerDb :=
  let record := blockRecord s height h b
  let db := { db with byHash := db.byHash.insert record.hash height, blocks := db.blocks.insert height record }
  let db := db.label record.miner (utf8 s!"Miner @ height {height}")
  let db := b.transparentTxs.foldl (indexTx record) db
  { db with series := db.series ++ [seriesPoint s record] }

/-- The rest of the loop body, for a height that is not indexed. -/
def indexHash (s : ChainState) (db : IndexerDb) (height : Nat) (h : Hash) : IndexerDb :=
  match s.dag[h]? with
  | none => db
  | some b => db.indexBlock s height h b

/-- The loop body of `sync_from_state`. -/
def visit (s : ChainState) (db : IndexerDb) (height : Nat) (h : Hash) : IndexerDb :=
  match db.blocks[height]? with
  | none => db.indexHash s height h
  | some existing =>
    if existing.hash = hexHash h then db
    else (db.trimFromHeight height).indexHash s height h

/-- A tip that is not on the chain only gets a label. -/
def labelTip (db : IndexerDb) (tip : Hash) : IndexerDb :=
  if db.byHash.contains (hexHash tip) then db else db.label (hexHash tip) (utf8 "DAG tip (non-indexed body)")

/-- `sync_from_state`. -/
def syncFromState (sync : Sync) (db : IndexerDb) (s : ChainState) : IndexerDb :=
  let base := s.prunedSelectedBlocks
  let db := s.mainChain.zipIdx.foldl (fun db p => db.visit s (base + p.2) p.1) db
  let db := s.tips.foldl labelTip db
  let db := { db with series := db.series.drop (db.series.length - maxSeriesPoints) }
  { db.trimTxCap sync with
    tipHeight := s.tipHeight
    tipHash := s.mainChain.getLast?.map hexHash
    indexedAtMs := sync.now
    format := indexerFormat }

end Sync

end IndexerDb

/-! ### The maps -/

theorem hexHash_injective : Function.Injective hexHash := by
  intro h k heq
  have hbytes := congrArg Address.hexDecode heq
  rw [hexHash, hexHash, Address.hexDecode_hexEncode, Address.hexDecode_hexEncode] at hbytes
  exact Hash.asBytes_injective (Option.some.inj hbytes)

namespace IndexerDb

/-- The hash that is indexed at a height. -/
def hashAt (db : IndexerDb) (h : Nat) : Option Bytes := db.blocks[h]?.map BlockRecord.hash

/-- `by_hash` is the inverse of the hashes of `blocks`. -/
def Inverse (db : IndexerDb) : Prop :=
  ∀ x h, db.byHash[x]? = some h ↔ ∃ r : BlockRecord, db.blocks[h]? = some r ∧ r.hash = x

section Sound

variable [Crypto] {pos : Hash → Nat} {known : Hash → Prop} {mined : Block → Prop} {db db' : IndexerDb}

/-- A transfer belongs to an indexed block: its record names the one at its height, and
a mined block with that hash has it. -/
def Holds (mined : Block → Prop) (db : IndexerDb) (txid : Bytes) (t : TxRecord) : Prop :=
  ∃ r, db.blocks[t.height]? = some r ∧ r.hash = t.blockHash ∧
    ∃ b, mined b ∧ hexHash b.hash = r.hash ∧ ∃ tx ∈ b.transparentTxs, hexHash tx.txHash = txid

/-- The maps agree, and every block is at its height. -/
structure Sound (pos : Hash → Nat) (known : Hash → Prop) (mined : Block → Prop) (db : IndexerDb) : Prop where
  inverse : db.Inverse
  placed : ∀ h (r : BlockRecord), db.blocks[h]? = some r → ∃ k, known k ∧ r.hash = hexHash k ∧ pos k = h
  txs : ∀ txid t, db.txs[txid]? = some t → db.Holds mined txid t
  listed : ∀ (addr : Bytes) (list : List Bytes) txid, db.addressTxs[addr]? = some list → txid ∈ list → txid ∈ db.txs

/-- It is about the four maps. -/
theorem Sound.congr (s : Sound pos known mined db) (hblocks : db'.blocks = db.blocks) (hbyHash : db'.byHash = db.byHash)
    (htxs : db'.txs = db.txs) (haddressTxs : db'.addressTxs = db.addressTxs) : Sound pos known mined db' where
  inverse := by unfold Inverse; rw [hblocks, hbyHash]; exact s.inverse
  placed := by rw [hblocks]; exact s.placed
  txs := by
    unfold Holds
    rw [hblocks, htxs]
    exact s.txs
  listed := by rw [htxs, haddressTxs]; exact s.listed

theorem Sound.mono {pos' : Hash → Nat} {known' : Hash → Prop} {mined' : Block → Prop} (s : Sound pos known mined db)
    (hknown : ∀ k, known k → known' k ∧ pos' k = pos k) (hmined : ∀ b, mined b → mined' b) :
    Sound pos' known' mined' db where
  inverse := s.inverse
  placed h r hr := by
    obtain ⟨k, hk, hhash, hpos⟩ := s.placed h r hr
    exact ⟨k, (hknown k hk).1, hhash, (hknown k hk).2.trans hpos⟩
  txs txid t ht := by
    obtain ⟨r, hr, hhash, b, hb, hrest⟩ := s.txs txid t ht
    exact ⟨r, hr, hhash, b, hmined b hb, hrest⟩
  listed := s.listed

omit [Crypto] in
theorem getElem?_retainListed {txs : ExtTreeMap Bytes TxRecord} {addressTxs : ExtTreeMap Bytes (List Bytes)}
    {addr : Bytes} {list : List Bytes} (h : (retainListed txs addressTxs)[addr]? = some list) :
    ∀ txid ∈ list, txid ∈ txs := by
  rw [retainListed, ExtTreeMap.getElem?_map] at h
  obtain ⟨old, -, rfl⟩ := Option.map_eq_some_iff.mp h
  intro txid hmem
  exact ExtTreeMap.contains_iff_mem.mp (List.mem_filter.mp hmem).2

/-! ### Trimming -/

omit [Crypto] in
theorem Inverse.dropHeight (hinv : db.Inverse) (h : Nat) : (db.dropHeight h).Inverse := by
  unfold IndexerDb.dropHeight
  cases hb : db.blocks[h]? with
  | none => exact hinv
  | some b =>
      intro x k
      have hat := hinv x k
      simp only [ExtTreeMap.getElem?_erase, Std.LawfulEqCmp.compare_eq_iff_eq]
      by_cases hx : b.hash = x
      · -- this hash is at this height only
        have hself := (hinv x h).mpr ⟨b, hb, hx⟩
        rw [if_pos hx]
        refine ⟨(fun hnone => nomatch hnone), fun ⟨r, hr, hhash⟩ => ?_⟩
        split at hr
        · cases hr
        · rename_i hne
          exact absurd (Option.some.inj (hself.symm.trans (hat.mpr ⟨r, hr, hhash⟩))) hne
      · rw [if_neg hx, hat]
        constructor
        · rintro ⟨r, hr, hhash⟩
          refine ⟨r, ?_, hhash⟩
          rw [if_neg, hr]
          rintro rfl
          exact hx (Option.some.inj (hb.symm.trans hr) ▸ hhash)
        · rintro ⟨r, hr, hhash⟩
          split at hr
          · cases hr
          · exact ⟨r, hr, hhash⟩

omit [Crypto] in
theorem getElem?_dropHeight (db : IndexerDb) (h k : Nat) :
    (db.dropHeight h).blocks[k]? = if h = k then none else db.blocks[k]? := by
  unfold dropHeight
  cases hb : db.blocks[h]? with
  | none =>
      by_cases hk : h = k
      · rw [if_pos hk, ← hk]
        exact hb
      · rw [if_neg hk]
  | some b =>
      dsimp only
      rw [ExtTreeMap.getElem?_erase]
      simp only [Std.LawfulEqCmp.compare_eq_iff_eq]

omit [Crypto] in
theorem foldl_dropHeight (hs : List Nat) (db : IndexerDb) :
    (∀ k, (hs.foldl dropHeight db).blocks[k]? = if k ∈ hs then none else db.blocks[k]?) ∧
      (db.Inverse → (hs.foldl dropHeight db).Inverse) ∧
      (hs.foldl dropHeight db).txs = db.txs ∧ (hs.foldl dropHeight db).addressTxs = db.addressTxs := by
  induction hs generalizing db with
  | nil => exact ⟨fun k => by simp, id, rfl, rfl⟩
  | cons h hs ih =>
      obtain ⟨hblocks, hinv, htxs, haddressTxs⟩ := ih (db.dropHeight h)
      have hmaps : (db.dropHeight h).txs = db.txs ∧ (db.dropHeight h).addressTxs = db.addressTxs := by
        unfold dropHeight
        cases db.blocks[h]? <;> exact ⟨rfl, rfl⟩
      refine ⟨fun k => ?_, fun h' => hinv (h'.dropHeight h), htxs.trans hmaps.1, haddressTxs.trans hmaps.2⟩
      rw [List.foldl_cons, hblocks, getElem?_dropHeight]
      by_cases hk : h = k
      · simp [hk]
      · simp [hk, Ne.symm hk]

omit [Crypto] in
/-- What trimming leaves of the blocks. -/
theorem getElem?_trimFromHeight (db : IndexerDb) (height h : Nat) :
    (db.trimFromHeight height).blocks[h]? = if height ≤ h then none else db.blocks[h]? := by
  unfold trimFromHeight
  dsimp only
  rw [(foldl_dropHeight _ db).1]
  have hdropped : h ∈ db.blocks.keys.filter (height ≤ ·) ↔ h ∈ db.blocks ∧ height ≤ h := by
    rw [List.mem_filter, ExtTreeMap.mem_keys, decide_eq_true_iff]
  by_cases hle : height ≤ h
  · rw [if_pos hle]
    by_cases hmem : h ∈ db.blocks
    · rw [if_pos (hdropped.mpr ⟨hmem, hle⟩)]
    · rw [ExtTreeMap.getElem?_eq_none hmem, ite_self]
  · rw [if_neg hle, if_neg fun hmem => hle (hdropped.mp hmem).2]

omit [Crypto] in
theorem hashAt_trimFromHeight (db : IndexerDb) (height : Nat) :
    (db.trimFromHeight height).hashAt = Mirror.trim db.hashAt height := by
  funext h
  rw [hashAt, getElem?_trimFromHeight, Mirror.trim, hashAt]
  split <;> rfl

theorem Sound.trimFromHeight (s : Sound pos known mined db) (height : Nat) :
    Sound pos known mined (db.trimFromHeight height) where
  inverse := (foldl_dropHeight _ db).2.1 s.inverse
  placed h r hr := by
    rw [getElem?_trimFromHeight] at hr
    split at hr
    · cases hr
    · exact s.placed h r hr
  txs txid t ht := by
    unfold IndexerDb.trimFromHeight at ht
    dsimp only at ht
    rw [ExtTreeMap.getElem?_filter', (foldl_dropHeight _ db).2.2.1] at ht
    obtain ⟨hold, hlow⟩ := Option.filter_eq_some_iff.mp ht
    obtain ⟨r, hr, hrest⟩ := s.txs txid t hold
    refine ⟨r, ?_, hrest⟩
    rw [getElem?_trimFromHeight, if_neg (Nat.not_le.mpr (of_decide_eq_true hlow)), hr]
  listed _ _ txid hlist hmem := getElem?_retainListed hlist txid hmem

/-! ### Adding a block -/

omit [Crypto] in
theorem mem_pushAddrTx {addr txid a id : Bytes} {list : List Bytes}
    (h : (db.pushAddrTx addr txid).addressTxs[a]? = some list) (hmem : id ∈ list) :
    id = txid ∨ ∃ old, db.addressTxs[a]? = some old ∧ id ∈ old := by
  rcases Map.insert_eq_some.mp h with ⟨rfl, rfl⟩ | ⟨-, hold⟩
  · -- the new list of the address, from which only old entries are cut off
    have hpushed := List.mem_of_mem_drop hmem
    have hor : id ∈ db.addressTxs[addr]?.getD [] ∨ id = txid := by
      split at hpushed
      · exact Or.inl hpushed
      · exact (List.mem_append.mp hpushed).imp_right List.mem_singleton.mp
    rcases hor with hold | rfl
    · cases hget : db.addressTxs[addr]? with
      | none =>
          rw [hget] at hold
          cases hold
      | some old =>
          rw [hget] at hold
          exact Or.inr ⟨old, rfl, hold⟩
    · exact Or.inl rfl
  · exact Or.inr ⟨list, hold, hmem⟩

/-- A transfer of an indexed block. -/
theorem Sound.indexTx {record : BlockRecord} {tx : TransparentTx} {b : Block} (s : Sound pos known mined db)
    (hrecord : db.blocks[record.height]? = some record) (hb : mined b) (hhash : hexHash b.hash = record.hash)
    (htx : tx ∈ b.transparentTxs) : Sound pos known mined (db.indexTx record tx) where
  inverse := s.inverse
  placed := s.placed
  txs txid t ht := by
    rcases Map.insert_eq_some.mp ht with ⟨rfl, rfl⟩ | ⟨-, hold⟩
    · exact ⟨record, hrecord, rfl, b, hb, hhash, tx, htx, rfl⟩
    · exact s.txs txid t hold
  listed addr list txid hlist hmem := by
    have hin : txid = hexHash tx.txHash ∨ txid ∈ db.txs := by
      rcases mem_pushAddrTx hlist hmem with rfl | ⟨mid, hmid, hmem⟩
      · exact Or.inl rfl
      · rcases mem_pushAddrTx hmid hmem with rfl | ⟨old, hold, hmem⟩
        · exact Or.inl rfl
        · exact Or.inr (s.listed addr old txid hold hmem)
    refine ExtTreeMap.mem_insert.mpr (hin.imp_left fun heq => ?_)
    rw [Std.LawfulEqCmp.compare_eq_iff_eq, heq]

theorem foldl_indexTx_blocks (record : BlockRecord) (txs : List TransparentTx) (db : IndexerDb) :
    (txs.foldl (indexTx record) db).blocks = db.blocks := by
  induction txs generalizing db with
  | nil => rfl
  | cons tx txs ih => exact ih (db.indexTx record tx)

theorem Sound.foldl_indexTx {record : BlockRecord} {txs : List TransparentTx} (s : Sound pos known mined db)
    (hrecord : db.blocks[record.height]? = some record)
    (htxs : ∀ tx ∈ txs, ∃ b, mined b ∧ hexHash b.hash = record.hash ∧ tx ∈ b.transparentTxs) :
    Sound pos known mined (txs.foldl (IndexerDb.indexTx record) db) := by
  induction txs generalizing db with
  | nil => exact s
  | cons tx txs ih =>
      obtain ⟨b, hb, hhash, htx⟩ := htxs tx List.mem_cons_self
      exact ih (s.indexTx hrecord hb hhash htx) hrecord fun tx htx => htxs tx (List.mem_cons_of_mem _ htx)

variable {s : ChainState} {height : Nat} {h : Hash} {b : Block}

theorem hashAt_indexBlock : (db.indexBlock s height h b).hashAt = Function.update db.hashAt height (some (hexHash h)) := by
  funext k
  have hblocks : (db.indexBlock s height h b).blocks = db.blocks.insert height (blockRecord s height h b) :=
    foldl_indexTx_blocks ..
  rw [hashAt, hblocks, ExtTreeMap.getElem?_insert]
  by_cases hk : height = k
  · subst hk
    simp [blockRecord]
  · rw [if_neg fun heq => hk (Std.LawfulEqCmp.compare_eq_iff_eq.mp heq), Function.update_of_ne (Ne.symm hk), hashAt]

/-- **A block at a height that is free**, where it belongs. -/
theorem Sound.indexBlock (m : Sound pos known mined db) (hknown : known h) (hpos : pos h = height)
    (hfree : db.blocks[height]? = none)
    (htxs : ∀ tx ∈ b.transparentTxs, ∃ b', mined b' ∧ b'.hash = h ∧ tx ∈ b'.transparentTxs) :
    Sound pos known mined (db.indexBlock s height h b) := by
  -- the hash is not indexed, since it could only be at its own height
  have hnew : ∀ k, db.byHash[hexHash h]? ≠ some k := by
    intro k hk
    obtain ⟨r, hr, hhash⟩ := (m.inverse _ k).mp hk
    obtain ⟨x, -, hx, hplace⟩ := m.placed k r hr
    obtain rfl := hexHash_injective (hx.symm.trans hhash)
    rw [← hplace, hpos, hfree] at hr
    cases hr
  have hbase : Sound pos known mined { db with
      byHash := db.byHash.insert (hexHash h) height
      blocks := db.blocks.insert height (blockRecord s height h b) } := by
    refine ⟨fun x k => ?_, fun k r hr => ?_, fun txid t ht => ?_, m.listed⟩
    · refine Map.insert_eq_some.trans ⟨?_, ?_⟩
      · rintro (⟨rfl, rfl⟩ | ⟨-, hold⟩)
        · exact ⟨_, Map.insert_eq_some.mpr (Or.inl ⟨rfl, rfl⟩), rfl⟩
        · obtain ⟨r, hr, hhash⟩ := (m.inverse x k).mp hold
          refine ⟨r, Map.insert_eq_some.mpr (Or.inr ⟨?_, hr⟩), hhash⟩
          rintro rfl
          rw [hfree] at hr
          cases hr
      · rintro ⟨r, hr, rfl⟩
        rcases Map.insert_eq_some.mp hr with ⟨rfl, rfl⟩ | ⟨-, hold⟩
        · exact Or.inl ⟨rfl, rfl⟩
        · have hback := (m.inverse r.hash k).mpr ⟨r, hold, rfl⟩
          exact Or.inr ⟨fun heq => hnew k (heq ▸ hback), hback⟩
    · rcases Map.insert_eq_some.mp hr with ⟨rfl, rfl⟩ | ⟨-, hold⟩
      · exact ⟨h, hknown, rfl, hpos⟩
      · exact m.placed k r hold
    · obtain ⟨r, hr, hrest⟩ := m.txs txid t ht
      refine ⟨r, Map.insert_eq_some.mpr (Or.inr ⟨?_, hr⟩), hrest⟩
      rintro rfl
      rw [hfree] at hr
      cases hr
  have hlabelled : Sound pos known mined (IndexerDb.label { db with
      byHash := db.byHash.insert (hexHash h) height
      blocks := db.blocks.insert height (blockRecord s height h b) } (blockRecord s height h b).miner
        (utf8 s!"Miner @ height {height}")) := hbase.congr rfl rfl rfl rfl
  have htransfers : ∀ tx ∈ b.transparentTxs, ∃ b', mined b' ∧
      hexHash b'.hash = (blockRecord s height h b).hash ∧ tx ∈ b'.transparentTxs := by
    intro tx htx
    obtain ⟨b', hb', hhash, htx⟩ := htxs tx htx
    exact ⟨b', hb', congrArg hexHash hhash, htx⟩
  exact (hlabelled.foldl_indexTx ExtTreeMap.getElem?_insert_self htransfers).congr rfl rfl rfl rfl

/-- **A step of the walk** keeps the maps sound, and is a step of the mirror. -/
theorem Sound.visit (m : Sound pos known mined db) (hknown : known h) (hpos : pos h = height) (hb : s.dag[h]? = some b)
    (htxs : ∀ tx ∈ b.transparentTxs, ∃ b', mined b' ∧ b'.hash = h ∧ tx ∈ b'.transparentTxs) :
    Sound pos known mined (db.visit s height h) ∧
      (db.visit s height h).hashAt = Mirror.visit db.hashAt height (hexHash h) := by
  have hindex : ∀ db : IndexerDb, db.indexHash s height h = db.indexBlock s height h b := by
    intro db
    rw [indexHash, hb]
  unfold IndexerDb.visit Mirror.visit
  cases hget : db.blocks[height]? with
  | none =>
      have hnone : db.hashAt height = none := by rw [hashAt, hget, Option.map_none]
      rw [hnone, hindex]
      exact ⟨m.indexBlock hknown hpos hget htxs, hashAt_indexBlock⟩
  | some existing =>
      have hsome : db.hashAt height = some existing.hash := by rw [hashAt, hget, Option.map_some]
      rw [hsome]
      dsimp only
      by_cases hsame : existing.hash = hexHash h
      · rw [if_pos hsame, if_pos hsame]
        exact ⟨m, rfl⟩
      · have hfree : (db.trimFromHeight height).blocks[height]? = none := by
          rw [getElem?_trimFromHeight, if_pos le_rfl]
        rw [if_neg hsame, if_neg hsame, hindex, hashAt_indexBlock, hashAt_trimFromHeight]
        exact ⟨(m.trimFromHeight height).indexBlock hknown hpos hfree htxs, rfl⟩

/-! ### A sync -/

/-- The walk along a chain of known blocks at their heights. -/
theorem Sound.walk {base : Nat} {chain : List Hash} (m : Sound pos known mined db)
    (hchain : ∀ i k, chain[i]? = some k → known k ∧ pos k = base + i ∧ ∃ b, s.dag[k]? = some b ∧
      ∀ tx ∈ b.transparentTxs, ∃ b', mined b' ∧ b'.hash = k ∧ tx ∈ b'.transparentTxs) :
    Sound pos known mined (chain.zipIdx.foldl (fun db p => db.visit s (base + p.2) p.1) db) ∧
      (chain.zipIdx.foldl (fun db p => db.visit s (base + p.2) p.1) db).hashAt
        = Mirror.walk base db.hashAt (chain.map hexHash) := by
  induction chain using List.reverseRecOn with
  | nil => exact ⟨m, rfl⟩
  | append_singleton xs k ih =>
      obtain ⟨hsound, hwalk⟩ := ih fun i x hx => hchain i x (by
        rw [List.getElem?_append_left (List.getElem?_eq_some_iff.mp hx).1, hx])
      obtain ⟨hknown, hpos, b, hb, htxs⟩ := hchain xs.length k (by simp)
      have hstep := hsound.visit hknown hpos hb htxs
      rw [List.map_append, List.map_singleton, Mirror.walk_concat, List.length_map, ← hwalk, List.zipIdx_append,
        List.foldl_append, Nat.zero_add]
      exact hstep

omit [Crypto] in
theorem foldl_labelTip (tips : List Hash) (db : IndexerDb) :
    (tips.foldl labelTip db).blocks = db.blocks ∧ (tips.foldl labelTip db).byHash = db.byHash ∧
      (tips.foldl labelTip db).txs = db.txs ∧ (tips.foldl labelTip db).addressTxs = db.addressTxs := by
  induction tips generalizing db with
  | nil => exact ⟨rfl, rfl, rfl, rfl⟩
  | cons tip tips ih =>
      have hlabel : (db.labelTip tip).blocks = db.blocks ∧ (db.labelTip tip).byHash = db.byHash ∧
          (db.labelTip tip).txs = db.txs ∧ (db.labelTip tip).addressTxs = db.addressTxs := by
        unfold labelTip
        split <;> exact ⟨rfl, rfl, rfl, rfl⟩
      obtain ⟨hblocks, hbyHash, htxs, haddressTxs⟩ := ih (db.labelTip tip)
      exact ⟨hblocks.trans hlabel.1, hbyHash.trans hlabel.2.1, htxs.trans hlabel.2.2.1,
        haddressTxs.trans hlabel.2.2.2⟩

omit [Crypto] in
theorem getElem?_foldl_erase {ps : List (Nat × Bytes)} {txs : ExtTreeMap Bytes TxRecord} {txid : Bytes} {t : TxRecord}
    (h : (ps.foldl (fun txs p => txs.erase p.2) txs)[txid]? = some t) : txs[txid]? = some t := by
  induction ps generalizing txs with
  | nil => exact h
  | cons p ps ih =>
      have hstep := ih h
      rw [ExtTreeMap.getElem?_erase] at hstep
      split at hstep
      · cases hstep
      · exact hstep

omit [Crypto] in
/-- The cap takes transfers out, and out of the lists. -/
theorem trimTxCap_cases (sync : Sync) (db : IndexerDb) : db.trimTxCap sync = db ∨
    ∃ txs : ExtTreeMap Bytes TxRecord, (∀ (txid : Bytes) t, txs[txid]? = some t → db.txs[txid]? = some t) ∧
      db.trimTxCap sync = { db with txs := txs, addressTxs := retainListed txs db.addressTxs } := by
  rw [trimTxCap]
  split
  · exact Or.inl rfl
  · exact Or.inr ⟨_, fun txid t ht => getElem?_foldl_erase ht, rfl⟩

omit [Crypto] in
theorem trimTxCap_blocks (sync : Sync) (db : IndexerDb) : (db.trimTxCap sync).blocks = db.blocks := by
  rcases trimTxCap_cases sync db with heq | ⟨txs, -, heq⟩
  · rw [heq]
  · rw [heq]

theorem Sound.trimTxCap (m : Sound pos known mined db) (sync : Sync) : Sound pos known mined (db.trimTxCap sync) := by
  rcases trimTxCap_cases sync db with heq | ⟨txs, hsub, heq⟩
  · rw [heq]
    exact m
  · rw [heq]
    exact ⟨m.inverse, m.placed, fun txid t ht => m.txs txid t (hsub txid t ht),
      fun _ _ txid hlist hmem => getElem?_retainListed hlist txid hmem⟩

/-- **A sync** with a state whose main chain has known blocks at their heights. -/
theorem Sound.syncFromState (m : Sound pos known mined db) (sync : Sync)
    (hchain : ∀ i k, s.mainChain[i]? = some k → known k ∧ pos k = s.prunedSelectedBlocks + i ∧ ∃ b, s.dag[k]? = some b ∧
      ∀ tx ∈ b.transparentTxs, ∃ b', mined b' ∧ b'.hash = k ∧ tx ∈ b'.transparentTxs) :
    Sound pos known mined (db.syncFromState sync s) ∧
      (db.syncFromState sync s).hashAt = Mirror.walk s.prunedSelectedBlocks db.hashAt (s.mainChain.map hexHash) := by
  obtain ⟨hsound, hwalk⟩ := m.walk hchain
  obtain ⟨hblocks, hbyHash, htxs, haddressTxs⟩ := foldl_labelTip s.tips
    (s.mainChain.zipIdx.foldl (fun db p => db.visit s (s.prunedSelectedBlocks + p.2) p.1) db)
  have hlabelled := hsound.congr hblocks hbyHash htxs haddressTxs
  constructor
  · unfold IndexerDb.syncFromState
    dsimp only
    refine Sound.congr (Sound.trimTxCap ?_ sync) rfl rfl rfl rfl
    exact hlabelled.congr rfl rfl rfl rfl
  · rw [← hwalk]
    funext k
    unfold hashAt IndexerDb.syncFromState
    dsimp only
    rw [trimTxCap_blocks, ← hblocks]

end Sound

end IndexerDb

/-! ### The main chain along a run -/

namespace ChainState

section MainChain

variable [Crypto] {easy archival : Bool} {seed : Ledger} {calls more : List (Env × Block)}

omit [Crypto] in
theorem getLast?_selectedChain (gd : GhostdagMap) (tip : Hash) : (gd.selectedChain tip).getLast? = some tip := by
  rw [GhostdagMap.selectedChain, List.getLast?_reverse, GhostdagMap.selectedWalk, List.head?_cons]

theorem mainChain_eq {tip : Hash} (htip : ((seeded easy archival seed).run calls).selectedTip = some tip) :
    ((seeded easy archival seed).run calls).mainChain = ((seeded easy archival seed).run calls).ghostdag.selectedChain tip := by
  obtain ⟨tip', htip', hchain⟩ := ((Charted.seeded easy archival seed).run calls).charted
  obtain rfl := Option.some.inj (htip.symm.trans htip')
  exact hchain

theorem run_append (st : ChainState) (calls more : List (Env × Block)) : st.run (calls ++ more) = (st.run calls).run more :=
  List.foldl_append

/-- The blocks of the main chain are at their heights. -/
theorem mainChain_heights {i : Nat} {k : Hash} (hk : ((seeded easy archival seed).run calls).mainChain[i]? = some k) :
    (seeded easy archival seed).positions calls k = ((seeded easy archival seed).run calls).prunedSelectedBlocks + i := by
  obtain ⟨tip, root, an⟩ := Anchored.run easy archival seed calls
  rw [mainChain_eq an.selected] at hk
  rw [← an.counted]
  exact (selectedChain_heights an.consistent.descends an.rises an.first an.below).2 i k hk

/-- **A later tip is not inside an earlier main chain**: its score would be too low. -/
theorem getLast?_mainChain_outside (hfree : CollisionFree (calls ++ more)) {i : Nat} {k : Hash}
    (hi : i + 1 < ((seeded easy archival seed).run calls).mainChain.length)
    (hk : ((seeded easy archival seed).run calls).mainChain[i]? = some k) :
    ((seeded easy archival seed).run (calls ++ more)).mainChain.getLast? ≠ some k := by
  intro hlast
  obtain ⟨tip, root, an⟩ := Anchored.run easy archival seed calls
  obtain ⟨tip', root', an'⟩ := Anchored.run easy archival seed (calls ++ more)
  rw [mainChain_eq an'.selected, getLast?_selectedChain] at hlast
  obtain rfl := Option.some.inj hlast
  have hheight := mainChain_heights hk
  rw [mainChain_eq an.selected] at hi hk
  have hlength := (selectedChain_heights an.consistent.descends an.rises an.first an.below).1
  have hcounted := an.counted
  have habove := (GhostdagMap.mem_selectedChain an.consistent.descends).mp (List.mem_of_getElem? hk)
  have hmem := an.consistent.above_mem an.tip_mem habove
  have hlower : ((seeded easy archival seed).run calls).ghostdag.scoreOf tip'
      < ((seeded easy archival seed).run calls).ghostdag.scoreOf tip := by
    rcases habove.cases_step with rfl | ⟨p, hp, hup⟩
    · omega
    · exact lt_of_le_of_lt (an.consistent.descends.score_le hup) (an.consistent.descends.spOf_lt hp)
  have s : Severed ((seeded easy archival seed).run calls) ((seeded easy archival seed).history calls) :=
    .run hfree.prefix
  have s' : Severed ((seeded easy archival seed).run (calls ++ more))
      ((seeded easy archival seed).history (calls ++ more)) := .run hfree
  have hsame := (settled hfree (s.known tip' hmem)).2.2
  rw [← s'.scores tip' an'.tip_mem, ← s.scores tip' hmem] at hsame
  have hrises := (selectedTip_rises an.selected an'.selected).1
  omega

/-- The transfers of a block that is still whole are those of a block of the run. -/
theorem dag_transfers {h : Hash} {b : Block} (hb : ((seeded easy archival seed).run calls).dag[h]? = some b) :
    ∀ tx ∈ b.transparentTxs, ∃ b' ∈ calls.map Prod.snd, b'.hash = h ∧ tx ∈ b'.transparentTxs := by
  have hwhole : ∀ (h : Hash) (b : Block), ((seeded easy archival seed).run calls).dag[h]? = some b →
      b.transparentTxs = [] ∨ b ∈ calls.map Prod.snd := by
    clear hb
    induction calls using List.reverseRecOn with
    | nil =>
        intro h b hb
        rw [(seeded_get easy archival seed hb).2]
        exact Or.inl rfl
    | append_singleton calls call ih =>
        intro h b hb
        have hmore : ∀ {b}, b ∈ calls.map Prod.snd → b ∈ (calls ++ [call]).map Prod.snd := fun hb => by
          rw [List.map_append]
          exact List.mem_append_left _ hb
        rw [run_concat] at hb
        rcases step_cases ((seeded easy archival seed).run calls) call with heq | ⟨gd, sp, a, heq⟩
        · rw [heq] at hb
          exact (ih h b hb).imp_right hmore
        · rw [heq] at hb
          obtain ⟨b₀, hor, rfl | rfl⟩ := accept_getElem? hb
          · rcases hor with ⟨rfl, -⟩ | hold
            · exact Or.inr (by simp)
            · exact (ih h b hold).imp_right hmore
          · exact Or.inl rfl
  intro tx htx
  rcases hwhole h b hb with hnone | hmem
  · rw [hnone] at htx
    cases htx
  · exact ⟨b, hmem, (Consistent.run easy archival seed calls).keyed.hash hb, htx⟩

end MainChain

end ChainState

/-! ### Following a run -/

namespace IndexerDb

section Follow

variable [Crypto]

/-- A node and its explorer: some calls, then a sync, again and again. -/
def follow (st : ChainState) (observed : List (Sync × List (Env × Block))) : ChainState × IndexerDb :=
  observed.foldl (fun p o => (p.1.run o.2, p.2.syncFromState o.1 (p.1.run o.2))) (st, new)

/-- The index has the main chain of a state, block by block, and no block above it; its
other maps are about the blocks it has. -/
structure FollowsChain (mined : Block → Prop) (db : IndexerDb) (s : ChainState) : Prop where
  below_tip : ∀ h (r : BlockRecord), db.blocks[h]? = some r → h < s.prunedSelectedBlocks + s.mainChain.length ∧
    (s.prunedSelectedBlocks + s.mainChain.length < 2 ^ 64 → h ≤ s.tipHeight)
  on_chain : ∀ h, s.prunedSelectedBlocks ≤ h →
    db.blocks[h]?.map BlockRecord.hash = s.mainChain[h - s.prunedSelectedBlocks]?.map hexHash
  inverse : db.Inverse
  txs : ∀ txid t, db.txs[txid]? = some t → db.Holds mined txid t
  listed : ∀ (addr : Bytes) (list : List Bytes) txid, db.addressTxs[addr]? = some list → txid ∈ list →
    ∃ t, db.txs[txid]? = some t ∧ db.Holds mined txid t

variable {pos : Hash → Nat} {known : Hash → Prop} {mined : Block → Prop} {db : IndexerDb} {s : ChainState}

theorem sound_new : Sound pos known mined new where
  inverse x h := by
    have hbyHash : new.byHash[x]? = none := ExtTreeMap.getElem?_empty
    have hblocks : new.blocks[h]? = none := ExtTreeMap.getElem?_empty
    rw [hbyHash, hblocks]
    exact ⟨(fun hnone => nomatch hnone), fun ⟨r, hr, _⟩ => nomatch hr⟩
  placed h r hr := by
    have hblocks : new.blocks[h]? = none := ExtTreeMap.getElem?_empty
    rw [hblocks] at hr
    cases hr
  txs txid t ht := by
    have htxs : new.txs[txid]? = none := ExtTreeMap.getElem?_empty
    rw [htxs] at ht
    cases ht
  listed addr list txid hlist _ := by
    have haddressTxs : new.addressTxs[addr]? = none := ExtTreeMap.getElem?_empty
    rw [haddressTxs] at hlist
    cases hlist

/-- Sound maps and a mirror of the main chain are all there is to it. -/
theorem Sound.followsChain (m : Sound pos known mined db) (hne : s.mainChain ≠ [])
    (hmirrors : Mirror.Mirrors db.hashAt s.prunedSelectedBlocks (s.mainChain.map hexHash)) : FollowsChain mined db s := by
  have hlength : 0 < s.mainChain.length := List.length_pos_of_ne_nil hne
  have hbelow : ∀ h (r : BlockRecord), db.blocks[h]? = some r → h < s.prunedSelectedBlocks + s.mainChain.length := by
    intro h r hr
    by_contra hhigh
    have hnone := hmirrors h (by omega)
    rw [hashAt, hr, List.getElem?_eq_none (by rw [List.length_map]; omega)] at hnone
    cases hnone
  refine ⟨fun h r hr => ⟨hbelow h r hr, fun hfits => ?_⟩, fun h hh => ?_, m.inverse, m.txs,
    fun addr list txid hlist hmem => ?_⟩
  · have hlow := hbelow h r hr
    rw [ChainState.tipHeight, satAdd64_eq (by rw [u64Max]; omega)]
    omega
  · have hat := hmirrors h hh
    rwa [List.getElem?_map] at hat
  · obtain ⟨t, ht⟩ := Option.isSome_iff_exists.mp (ExtTreeMap.mem_iff_isSome_getElem?.mp (m.listed addr list txid hlist hmem))
    exact ⟨t, ht, m.txs txid t ht⟩

theorem follow_concat (st : ChainState) (observed : List (Sync × List (Env × Block))) (o : Sync × List (Env × Block)) :
    follow st (observed ++ [o]) = ((follow st observed).1.run o.2,
      (follow st observed).2.syncFromState o.1 ((follow st observed).1.run o.2)) := by
  rw [follow, List.foldl_append]
  rfl

theorem follow_fst (st : ChainState) (observed : List (Sync × List (Env × Block))) :
    (follow st observed).1 = st.run (observed.flatMap Prod.snd) := by
  induction observed using List.reverseRecOn with
  | nil => rfl
  | append_singleton observed o ih =>
      rw [follow_concat, ih, List.flatMap_append, List.flatMap_singleton, ChainState.run_append]

variable {easy archival : Bool} {seed : Ledger} {observed : List (Sync × List (Env × Block))}

/-- Where a follower of a run is: its maps are sound, and it mirrors the main chain, or
has not synced yet. -/
structure Following (easy archival : Bool) (seed : Ledger) (calls : List (Env × Block)) (db : IndexerDb) : Prop where
  sound : Sound ((ChainState.seeded easy archival seed).positions calls)
    (· ∈ ((ChainState.seeded easy archival seed).history calls).dag) (· ∈ calls.map Prod.snd) db
  mirrors : ∃ base chain, Mirror.Mirrors db.hashAt base (chain.map hexHash) ∧
    base ≤ ((ChainState.seeded easy archival seed).run calls).prunedSelectedBlocks ∧
      (chain = [] ∨ chain = ((ChainState.seeded easy archival seed).run calls).mainChain)

/-- **A sync after some more calls.** -/
theorem Following.syncFromState {calls more : List (Env × Block)} {db : IndexerDb} (f : Following easy archival seed calls db)
    (hfree : ChainState.CollisionFree (calls ++ more)) (sync : Sync) :
    Sound ((ChainState.seeded easy archival seed).positions (calls ++ more))
      (· ∈ ((ChainState.seeded easy archival seed).history (calls ++ more)).dag) (· ∈ (calls ++ more).map Prod.snd)
      (db.syncFromState sync ((ChainState.seeded easy archival seed).run (calls ++ more))) ∧
    Mirror.Mirrors (db.syncFromState sync ((ChainState.seeded easy archival seed).run (calls ++ more))).hashAt
      ((ChainState.seeded easy archival seed).run (calls ++ more)).prunedSelectedBlocks
      (((ChainState.seeded easy archival seed).run (calls ++ more)).mainChain.map hexHash) := by
  have hcharted := (ChainState.Charted.seeded easy archival seed).run (calls ++ more)
  have hsevered : ((ChainState.seeded easy archival seed).run (calls ++ more)).Severed
      ((ChainState.seeded easy archival seed).history (calls ++ more)) := .run hfree
  have hkept : Sound ((ChainState.seeded easy archival seed).positions (calls ++ more))
      (· ∈ ((ChainState.seeded easy archival seed).history (calls ++ more)).dag) (· ∈ (calls ++ more).map Prod.snd) db := by
    refine f.sound.mono (fun k hk => ?_) fun b hb => ?_
    · obtain ⟨hmem, hheight, -⟩ := ChainState.settled hfree hk
      exact ⟨hmem, hheight⟩
    · rw [List.map_append]
      exact List.mem_append_left _ hb
  obtain ⟨hsound, hwalk⟩ := hkept.syncFromState sync fun i k hk => by
    have hmem := hcharted.mainChain_mem (List.mem_of_getElem? hk)
    obtain ⟨b, hb⟩ := DagInv.exists_block hmem
    exact ⟨hsevered.known k hmem, ChainState.mainChain_heights hk, b, hb, ChainState.dag_transfers hb⟩
  refine ⟨hsound, ?_⟩
  obtain ⟨base, chain, hmirrors, hbase, hchain⟩ := f.mirrors
  obtain ⟨tip, root, an⟩ := ChainState.Anchored.run easy archival seed calls
  obtain ⟨tip', root', an'⟩ := ChainState.Anchored.run easy archival seed (calls ++ more)
  have hrises := (ChainState.selectedTip_rises an.selected an'.selected).2
  rw [hwalk]
  refine Mirror.walk_mirrors hmirrors (hbase.trans hrises) ?_ fun i hi heq => ?_
  · exact fun hnil => hcharted.mainChain_ne (List.map_eq_nil_iff.mp hnil)
  · rw [List.length_map] at hi
    rcases hchain with rfl | rfl
    · cases hi
    · -- the new tip would be inside the old chain
      have hget := List.getElem?_eq_getElem (Nat.lt_of_succ_lt hi)
      rw [List.getElem?_map, hget, Option.map_some, List.getLast?_map] at heq
      obtain ⟨k, hlast, hk⟩ := Option.map_eq_some_iff.mp heq.symm
      rw [hexHash_injective hk] at hlast
      exact ChainState.getLast?_mainChain_outside hfree hi hget hlast

theorem follow_following (hfree : ChainState.CollisionFree (observed.flatMap Prod.snd)) :
    Following easy archival seed (observed.flatMap Prod.snd) (follow (ChainState.seeded easy archival seed) observed).2 := by
  induction observed using List.reverseRecOn with
  | nil =>
      refine ⟨sound_new, 0, [], fun h _ => ?_, Nat.zero_le _, Or.inl rfl⟩
      have hblocks : new.blocks[h]? = none := ExtTreeMap.getElem?_empty
      exact congrArg (Option.map BlockRecord.hash) hblocks
  | append_singleton observed o ih =>
      rw [List.flatMap_append, List.flatMap_singleton] at hfree ⊢
      rw [follow_concat, follow_fst, ← ChainState.run_append]
      obtain ⟨hsound, hmirrors⟩ := (ih hfree.prefix).syncFromState hfree o.1
      exact ⟨hsound, _, _, hmirrors, le_rfl, Or.inr rfl⟩

/-- **The explorer's index mirrors the selected chain** after every sync, wherever the
syncs fall in a run, with its reorganizations and its pruning. -/
theorem follows_chain (easy archival : Bool) (seed : Ledger) (observed : List (Sync × List (Env × Block)))
    (hsynced : observed ≠ []) (hfree : ChainState.CollisionFree (observed.flatMap Prod.snd)) :
    FollowsChain (· ∈ (observed.flatMap Prod.snd).map Prod.snd) (follow (ChainState.seeded easy archival seed) observed).2
      (follow (ChainState.seeded easy archival seed) observed).1 := by
  obtain ⟨before, o, rfl⟩ := List.eq_nil_or_concat' observed |>.resolve_left hsynced
  rw [List.flatMap_append, List.flatMap_singleton] at hfree ⊢
  rw [follow_concat, follow_fst, ← ChainState.run_append]
  obtain ⟨hsound, hmirrors⟩ := (follow_following hfree.prefix).syncFromState hfree o.1
  exact hsound.followsChain ((ChainState.Charted.seeded easy archival seed).run _).mainChain_ne hmirrors

end Follow

end IndexerDb

namespace Sample

theorem collisionFree_single {env : Env} {block : Block} (hne : genesisBlock.hash ≠ block.hash) :
    ChainState.CollisionFree [(env, block)] := by
  intro b hb b' hb' heq
  rcases List.mem_pair.mp hb with hb | hb <;> rcases List.mem_pair.mp hb' with hb' | hb' <;> rw [hb, hb'] at heq ⊢
  · exact absurd heq hne
  · exact absurd heq.symm hne

/-- A sync before the first block, and one after it. -/
theorem indexed_block : ∃ observed : List (Sync × List (Env × Block)), observed.length = 2 ∧
    blockHash 1 0 ∈ (IndexerDb.follow (ChainState.seeded false true {}) observed).1.dag ∧
    IndexerDb.FollowsChain (· ∈ (observed.flatMap Prod.snd).map Prod.snd)
      (IndexerDb.follow (ChainState.seeded false true {}) observed).2
      (IndexerDb.follow (ChainState.seeded false true {}) observed).1 := by
  have h := numbered_seeded true
  have hb : Numbered.Buildable 1 [0] :=
    ⟨by simp, by simp [maxBlockParents], by simp, by simp, Or.inr ⟨0, rfl⟩⟩
  obtain ⟨gd, sp, a, hhash, -⟩ := h.admitted hb (h.shallow (by decide))
  let calls : List (Env × Block) := [(env, mined (ChainState.seeded false true {}) (hashes [0]) 1 0)]
  let sync : Sync := ⟨0, id, fun xs => .refl xs⟩
  have hfree : ChainState.CollisionFree calls := by
    refine collisionFree_single ?_
    rw [genesis_hash, hhash]
    exact blockHash_ne (by decide) (by decide) (by decide)
  refine ⟨[(sync, []), (sync, calls)], rfl, ?_, ?_⟩
  · have hmem := DagInv.mem_of_getElem? (a.getElem?_step rfl)
    rw [hhash] at hmem
    rw [IndexerDb.follow_fst, List.flatMap_cons, List.flatMap_cons, List.flatMap_nil, List.append_nil,
      List.nil_append, ChainState.run, List.foldl_cons, List.foldl_nil]
    exact hmem
  · exact IndexerDb.follows_chain false true {} [(sync, []), (sync, calls)] (List.cons_ne_nil _ _) hfree

end Sample

end HassanNode
