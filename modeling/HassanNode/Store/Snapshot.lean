import Mathlib
import HassanNode.Lib.RollingFile
import HassanNode.Consensus.TopologicalOrder

/-!
# HassanNode.Store.Snapshot

The state file (`lib.rs`): what is written of a node, the frame around the payload,
`load_one` with its checks and `rebuild_derived`, the three files that `save_to` and
`load_from` go through, and the choice `main` makes at start-up. The payload encoding
is bincode's.
-/

namespace HassanNode

open Params Bincode

def stateMagic : Bytes := utf8 "HASSANST"
def stateFormatVersion : Nat := 31
def stateChecksumLen : Nat := 64
def maxChainstateBytes : Nat := 512 * 1024 * 1024

/-- bincode on the node's state. -/
structure StateCodec where
  serialize : ChainState → Bytes
  deserialize : Bytes → Except String ChainState

section Frame

variable [Crypto]

/-- The integrity tag over magic, version and payload. -/
def integrityTag (body : Bytes) : Bytes := (Crypto.blake3 (utf8 "hassan-chainstate-v1" ++ body)).asBytes

def frame (payload : Bytes) : Bytes :=
  let body := stateMagic ++ u32 stateFormatVersion ++ payload
  body ++ integrityTag body

/-- What `load_one` tests before it parses the payload. -/
def unframe (bytes : Bytes) : Except String Bytes := do
  ensure (12 ≤ bytes.length && bytes.take 8 == stateMagic) "not a Hassan state file (bad magic)"
  let version := Bytes.toNatLE ((bytes.drop 8).take 4)
  ensure (version == stateFormatVersion)
    s!"incompatible state format (file v{version}, this build expects v{stateFormatVersion}) — starting fresh; wipe the data dir or resync from an archival node"
  ensure (12 + stateChecksumLen ≤ bytes.length) "chainstate missing integrity tag"
  let body := bytes.take (bytes.length - stateChecksumLen)
  ensure (bytes.drop (bytes.length - stateChecksumLen) == integrityTag body)
    "corrupt chainstate: integrity tag mismatch"
  let payload := body.drop 12
  ensure (payload.length ≤ maxChainstateBytes) "chainstate payload exceeds MAX_CHAINSTATE_BYTES"
  return payload

end Frame

namespace ChainState

variable [Crypto]

/-- What comes back of a written state: the skipped fields have their defaults. -/
def persisted (st : ChainState) : ChainState :=
  { st with
    transparentMempool := [], utxoMempool := [], registryMempool := [], custodyMempool := []
    reachability := .new, archival := false }

/-- What `save_to` does to the node before it writes. -/
def pruned (st : ChainState) (env : Env) : ChainState :=
  if st.archival then st else (st.pruneBodies env).pruneHistory

/-- The bytes of the state file. -/
def snapshot (codec : StateCodec) (st : ChainState) : Except String Bytes :=
  let payload := codec.serialize st
  if payload.length > maxChainstateBytes then .error "chainstate payload exceeds MAX_CHAINSTATE_BYTES"
  else .ok (frame payload)

/-- `validate_hardcoded_chain`. -/
def validateHardcodedChain (st : ChainState) : Except String Unit := do
  ensure (st.chainId == Params.chainId)
    s!"wrong chain_id in state file (got {st.chainId}, this build is {Params.chainId}) — wipe data dir or use a matching binary"
  match st.dag[genesisBlock.hash]? with
  | some b =>
    ensure (b.height == 0 && b.parents.isEmpty) "corrupt hardcoded genesis block"
    ensure (b.difficulty == genesisDifficulty) "corrupt genesis difficulty"
    ensure (b.hash == genesisBlock.hash)
      "genesis hash mismatch (file tip != hassan genesis hassan-genesis-v31) — wipe chainstate"
  | none =>
    ensure st.pruningPoint.isSome
      "missing hardcoded genesis block for hassan-genesis-v31 — wipe chainstate or resync"
  ensure (st.mainChain.all st.dag.contains) "corrupt chainstate: main_chain hash missing from DAG"
  ensure (st.mainChain.length ≤ st.dag.size) "corrupt chainstate: DAG smaller than main_chain"
  ensure (st.live.mintedSupply ≤ maxSupply) "corrupt chainstate: minted_supply exceeds MAX_SUPPLY"

/-- One block of the replay into a fresh index. -/
def indexBlock (st : ChainState) (env : Env) (r : Reachability) (h : Hash) : Reachability :=
  match st.ghostdag[h]? with
  | none => r
  | some gd => r.addBlock env.iter h gd.selectedParent gd.merged

/-- `rebuild_derived`. -/
def rebuildDerived (st : ChainState) (env : Env) : ChainState :=
  let order := (st.topologicalOrder env).getD []
  { st with
    reachability := order.foldl (st.indexBlock env) .new
    baseCaptured := true }.recomputeVirtualState

/-- `load_one`, on the contents of the file. -/
def loadOne (codec : StateCodec) (env : Env) (bytes : Bytes) : Except String ChainState := do
  let payload ← unframe bytes
  let st ← (codec.deserialize payload).mapError ("deserialize state: " ++ ·)
  st.validateHardcodedChain
  ensure st.supplyInvariantOk "corrupt chainstate: supply invariant failed"
  return st.rebuildDerived env

/-- An archival node after a restart: the mode is not written, and is set again. -/
def restarted (st : ChainState) : ChainState := { st with archival := true }

end ChainState

/-! ### The files -/

def missingFile : String := "read state: No such file or directory (os error 2)"

/-- The errors after which the backups are not tried: they have the same identity. -/
def foreignState (e : String) : Bool :=
  ["incompatible state format", "wrong chain_id", "missing hardcoded genesis", "corrupt hardcoded genesis",
    "corrupt genesis"].any fun text => text.toList.isPrefixOf e.toList

section Files

variable [Crypto]

/-- `load_from`. -/
def loadFrom (codec : StateCodec) (env : Env) (files : RollingFile.Files Bytes) : Except String ChainState :=
  files.load (ChainState.loadOne codec env) missingFile foreignState

/-- The node `main` starts with: what it loads, or a new one if there is no primary file. -/
def startNode (codec : StateCodec) (env : Env) (files : RollingFile.Files Bytes) : Except String ChainState :=
  if files.primary.isSome then loadFrom codec env files else .ok (ChainState.new env.labEasyPow)

end Files

end HassanNode
