import Mathlib
import HassanNode.Net.Node

/-!
# HassanNode.Net.Downloads

The requests of a node for bodies and transactions (`in_flight_bodies` and
`in_flight_tx_gets` of `p2p.rs`): which message makes the node ask which peer,
and what takes a hash out of the two sets again.

Every connection has a number of its own, and `sent` remembers the requests that
were sent on it. A peer may disconnect at any time, so ban scores, which only
decide when, are left out; what the node answers is in `Node.answer`.
-/

namespace HassanNode

open Std (ExtTreeMap ExtTreeSet)
open Params

def maxPeers : Nat := 64
def maxPeersPerGroup : Nat := 3
def maxPendingHeaders : Nat := 2048
def maxInFlightBodies : Nat := 32
def maxInFlightTxGets : Nat := 64

namespace ChainState

variable [Crypto]

/-- `precheck_header`. -/
def precheckHeader (st : ChainState) (env : Env) (header : Block) : Except String Unit := do
  ensure (!st.dag.contains header.hash) "Block already known"
  ensure (!header.parents.isEmpty) "Block has no parents"
  ensure (header.parents.length ≤ maxBlockParents) "Too many parents"
  st.scanParents [] header.parents
  let required := st.expectedDifficultyAt env.labEasyPow header.parents header.timestamp.toNat
  ensure (header.difficulty.toNat == required) "Wrong difficulty"
  ensure (verifyPow header.hash header.difficulty) "Invalid proof of work"
  match st.ghostdag.selectParent header.parents with
  | none => .error "Cannot select parent"
  | some selectedParent =>
    let expectedInterlinks := (st.dag[selectedParent]?.map computeInterlinks).getD []
    ensure (header.interlinks == expectedInterlinks) "interlinks do not match selected parent"

/-- `header_work_units`. -/
def headerWorkUnits (difficulty : UInt64) : Nat := satAdd128 difficulty.toNat 1

end ChainState

/-- `should_fetch`: unknown, and not below a verified pruning point. -/
def Node.shouldFetch (n : Node) (h : Hash) : Bool :=
  !n.chain.dag.contains h && match n.verifiedPruningPoint with
    | none => true
    | some pp => !n.chain.dag.contains pp
        || !(h != pp && n.chain.reachability.isAncestor n.chain.dag h pp)

/-! ### The two sets -/

inductive Request
  | getBlock (hash : Hash)
  | getTx (hash : Hash)
  | getUtxoTx (hash : Hash)

structure PeerHandle where
  group : Option Bytes
  conn : Nat

structure PendingHeader where
  work : Nat
  requested : Bool := false

structure Downloads where
  peers : List PeerHandle := []
  inFlightBodies : ExtTreeSet Hash := ∅
  inFlightTxGets : ExtTreeSet Hash := ∅
  pendingHeaders : ExtTreeMap Hash PendingHeader := ∅
  /-- The number of the next connection. -/
  next : Nat := 0
  sent : List (Nat × Request) := []

namespace Downloads

def send (d : Downloads) (conn : Nat) (r : Request) : Downloads := { d with sent := (conn, r) :: d.sent }

def broadcast (d : Downloads) (r : Request) : Downloads :=
  { d with sent := (d.peers.map fun p => (p.conn, r)) ++ d.sent }

/-- The hashes that need no body any more leave the set. -/
def retain (d : Downloads) (n : Node) : Downloads :=
  { d with inFlightBodies := d.inFlightBodies.filter n.shouldFetch }

/-- `request_block_body`. -/
def requestBlockBody (d : Downloads) (n : Node) (conn : Nat) (h : Hash) : Downloads :=
  if !n.shouldFetch h then d
  else
    let d := d.retain n
    if maxInFlightBodies ≤ d.inFlightBodies.size then d
    else if d.inFlightBodies.contains h then d
    else
      { d with
        inFlightBodies := d.inFlightBodies.insert h
        pendingHeaders := d.pendingHeaders.modify h fun p => { p with requested := true }
      }.send conn (.getBlock h)

/-- `request_tx_pull`. -/
def requestTxPull (d : Downloads) (conn : Nat) (h : Hash) (utxo : Bool) : Downloads :=
  if maxInFlightTxGets ≤ d.inFlightTxGets.size then d
  else if d.inFlightTxGets.contains h then d
  else
    { d with inFlightTxGets := d.inFlightTxGets.insert h }.send conn (if utxo then .getUtxoTx h else .getTx h)

/-- `clear_body_inflight`. -/
def clearBodyInflight (d : Downloads) (h : Hash) : Downloads :=
  { d with inFlightBodies := d.inFlightBodies.erase h }

/-- `clear_tx_inflight`. -/
def clearTxInflight (d : Downloads) (h : Hash) : Downloads :=
  { d with inFlightTxGets := d.inFlightTxGets.erase h }

/-! ### Orphan backfill -/

/-- The missing parents of an orphan that the cheap test found. -/
def backfill (n : Node) : List Hash → Downloads → Downloads
  | [], d => d
  | p :: missing, d =>
    if !n.shouldFetch p then backfill n missing d
    else
      let d := d.retain n
      if maxInFlightBodies ≤ d.inFlightBodies.size then d
      else if d.inFlightBodies.contains p then backfill n missing d
      else backfill n missing ({ d with inFlightBodies := d.inFlightBodies.insert p }.broadcast (.getBlock p))

/-- Those that only `add_block` found are asked for without being counted. -/
def askAround (n : Node) : List Hash → Downloads → Downloads
  | [], d => d
  | p :: missing, d =>
    if n.shouldFetch p then askAround n missing (d.broadcast (.getBlock p)) else askAround n missing d

variable [Crypto]

/-- What a turn of `ingest_block` does to the requests. -/
def turn (d : Downloads) (s : Node.Ingest) (env : Env) : Downloads :=
  match s.queue with
  | [] => d
  | (b, isDirect) :: _ =>
    let missing := b.parents.filter fun p => !s.node.chain.dag.contains p
    if s.node.chain.dag.contains b.hash then d
    else
      match s.node.chain.precheckBlock env b with
      | .error message => if mentions message "Unknown parent" then backfill s.node missing d else d
      | .ok () =>
        if !(s.spend env isDirect).1 then d
        else
          match s.node.chain.addBlock env b with
          | .ok _ =>
            let d := d.clearBodyInflight b.hash
            { d with pendingHeaders := d.pendingHeaders.erase b.hash }
          | .error message => if mentions message "Unknown parent" then askAround s.node missing d else d

/-- The loop, with the requests beside it. -/
def ingest : Downloads → Node.Ingest → List Env → Downloads × Node.Ingest
  | d, s, [] => (d, s)
  | d, s, env :: envs => ingest (d.turn s env) (s.pass env) envs

/-! ### Headers first -/

/-- The first loop of the `Headers` handler: what is accepted, and the parents
that are pulled. -/
def checkHeaders (n : Node) (env : Env) (conn : Nat) :
    List Block → List (Hash × PendingHeader) → Downloads → List (Hash × PendingHeader) × Downloads
  | [], accepted, d => (accepted, d)
  | h :: headers, accepted, d =>
    if n.chain.dag.contains h.hash then checkHeaders n env conn headers accepted d
    else
      match n.chain.precheckHeader env h with
      | .ok () =>
        let parentWork := ((h.parents.filterMap (n.chain.dag[·]?)).map
          fun b => ChainState.headerWorkUnits b.difficulty).foldl max 0
        let work := satAdd128 parentWork (ChainState.headerWorkUnits h.difficulty)
        checkHeaders n env conn headers (accepted ++ [(h.hash, { work := work })]) d
      | .error message =>
        if mentions message "Unknown parent" then
          checkHeaders n env conn headers accepted
            (h.parents.foldl (fun d p => d.requestBlockBody n conn p) d)
        else checkHeaders n env conn headers accepted d

/-- The work that a pending header is ranked by. -/
def workOf (pending : ExtTreeMap Hash PendingHeader) (h : Hash) : Nat := (pending[h]?.map (·.work)).getD 0

/-- Those with the least work make room. -/
def makeRoom (env : Env) (count : Nat) (pending : ExtTreeMap Hash PendingHeader) : ExtTreeMap Hash PendingHeader :=
  if pending.size + count > maxPendingHeaders then
    let byWork := (env.iter pending.keys).mergeSort fun a b => workOf pending a ≤ workOf pending b
    (byWork.take (pending.size + count - maxPendingHeaders)).foldl (·.erase ·) pending
  else pending

/-- The bodies, those with the most work first, while the budget lasts. -/
def requestRanked (n : Node) (conn : Nat) : List Hash → Downloads → Downloads
  | [], d => d
  | h :: ranked, d =>
    if maxInFlightBodies ≤ d.inFlightBodies.size then d
    else requestRanked n conn ranked (d.requestBlockBody n conn h)

/-- The `Headers` handler. -/
def headers (d : Downloads) (n : Node) (env : Env) (conn : Nat) (hs : List Block) : Downloads :=
  if hs.length > maxHeadersPerMsg then d
  else
    let (accepted, d) := checkHeaders n env conn hs [] d
    if accepted.isEmpty then d
    else
      let pending := accepted.foldl (fun pending a => pending.insertIfNew a.1 a.2)
        (makeRoom env accepted.length d.pendingHeaders)
      let unrequested := (env.iter pending.keys).filter fun h => (pending[h]?.map (!·.requested)).getD false
      requestRanked n conn (unrequested.mergeSort fun a b => workOf pending b ≤ workOf pending a)
        { d with pendingHeaders := pending }

end Downloads

/-! ### The node and its peers -/

structure Shared where
  node : Node
  downloads : Downloads := {}

/-- What a peer says: a message that `Node.dispatch` knows, or one of the
announcements and transactions that only concern the requests and the mempools. -/
inductive Heard
  | message (m : Message)
  | inv (hash : Hash)
  | tx (t : TransparentTx)
  | txInv (hash : Hash)
  | utxoTxInv (hash : Hash)
  | compactBlock (headerHash : Hash)

/-- What happens to a node: connections come and go, it mines a block, its
mempools change, or it hears from a peer. -/
inductive Traffic
  | connected (group : Option Bytes)
  | disconnected (conn : Nat)
  | mined (env : Env) (b : Block)
  | pools (transparent : List TransparentTx) (utxo : List UtxoTx)
  | heard (conn : Nat) (budget : StarkVerifyBudget) (env : Env) (later : List Env) (w : Heard)

namespace Shared

/-- The registration in `handle_conn`. -/
def connect (s : Shared) (group : Option Bytes) : Shared :=
  let d := s.downloads
  if maxPeers ≤ d.peers.length then s
  else if group.isSome && decide (maxPeersPerGroup ≤ (d.peers.filter fun p => p.group == group).length) then s
  else { s with downloads := { d with peers := d.peers ++ [⟨group, d.next⟩], next := d.next + 1 } }

/-- The deregistration on disconnect. -/
def disconnect (s : Shared) (conn : Nat) : Shared :=
  { s with downloads := { s.downloads with peers := s.downloads.peers.filter fun p => p.conn != conn } }

variable [Crypto]

def dispatchMessage (s : Shared) (conn : Nat) (budget : StarkVerifyBudget) (env : Env) (later : List Env) :
    Message → Shared
  | .block b =>
    let (d, i) := s.downloads.ingest { node := s.node, budget := budget, queue := [(b, true)] } (env :: later)
    { node := i.node, downloads := d.clearBodyInflight b.hash }
  | .tips hashes =>
    { s with downloads := hashes.foldl (fun d h => d.requestBlockBody s.node conn h) s.downloads }
  | .headers hs => { s with downloads := s.downloads.headers s.node env conn hs }
  | .notFound h => { s with downloads := (s.downloads.clearBodyInflight h).clearTxInflight h }
  | .utxoTx tx => { s with downloads := s.downloads.clearTxInflight tx.txid }
  | m => { s with node := (s.node.dispatch budget env later m).1 }

/-- `dispatch`, with its effect on the requests. -/
def dispatch (s : Shared) (conn : Nat) (budget : StarkVerifyBudget) (env : Env) (later : List Env) : Heard → Shared
  | .message m => s.dispatchMessage conn budget env later m
  | .inv h => { s with downloads := s.downloads.requestBlockBody s.node conn h }
  | .tx t => { s with downloads := s.downloads.clearTxInflight t.txHash }
  | .txInv h =>
    if s.node.chain.transparentMempool.any fun t => t.txHash == h then s
    else { s with downloads := s.downloads.requestTxPull conn h false }
  | .utxoTxInv h =>
    if s.node.chain.utxoMempool.any fun t => t.txid == h then s
    else { s with downloads := s.downloads.requestTxPull conn h true }
  | .compactBlock h =>
    if s.node.shouldFetch h then { s with downloads := s.downloads.requestBlockBody s.node conn h } else s

def step (s : Shared) : Traffic → Shared
  | .connected group => s.connect group
  | .disconnected conn => s.disconnect conn
  | .mined env b => { s with node := s.node.feed (.mined env b) }
  | .pools transparent utxo =>
    { s with node := { s.node with chain := { s.node.chain with
        transparentMempool := transparent, utxoMempool := utxo } } }
  | .heard conn budget env later w =>
    if s.downloads.peers.any fun p => p.conn == conn then s.dispatch conn budget env later w else s

def run (s : Shared) (events : List Traffic) : Shared := events.foldl step s

/-- The requests change nothing about what a message does to the node. -/
theorem dispatchMessage_node (s : Shared) (conn : Nat) (budget : StarkVerifyBudget) (env : Env)
    (later : List Env) (m : Message) :
    (s.dispatchMessage conn budget env later m).node = (s.node.dispatch budget env later m).1 := by
  have hingest : ∀ (envs : List Env) (d : Downloads) (i : Node.Ingest),
      (d.ingest i envs).2 = envs.foldl Node.Ingest.pass i := by
    intro envs
    induction envs with
    | nil => exact fun d i => rfl
    | cons env envs ih => exact fun d i => ih _ _
  cases m with
  | block b => exact congrArg Node.Ingest.node (hingest (env :: later) _ _)
  | _ => rfl

end Shared

/-! ### Who was asked -/

namespace Downloads

/-- Every hash in the two sets was requested from a peer that is connected. -/
structure Owned (d : Downloads) : Prop where
  bodies : ∀ h ∈ d.inFlightBodies, ∃ p ∈ d.peers, (p.conn, .getBlock h) ∈ d.sent
  txs : ∀ h ∈ d.inFlightTxGets, ∃ p ∈ d.peers, (p.conn, .getTx h) ∈ d.sent ∨ (p.conn, .getUtxoTx h) ∈ d.sent

/-- A change that keeps the peers and asks one of them for every hash it adds. -/
structure Asks (d d' : Downloads) : Prop where
  peers : d'.peers = d.peers
  sent : ∀ r ∈ d.sent, r ∈ d'.sent
  bodies : ∀ h ∈ d'.inFlightBodies, h ∈ d.inFlightBodies ∨ ∃ p ∈ d.peers, (p.conn, .getBlock h) ∈ d'.sent
  txs : ∀ h ∈ d'.inFlightTxGets, h ∈ d.inFlightTxGets ∨
    ∃ p ∈ d.peers, (p.conn, .getTx h) ∈ d'.sent ∨ (p.conn, .getUtxoTx h) ∈ d'.sent

variable {d d' d'' : Downloads} {n : Node} {conn : Nat} {h : Hash}

theorem Asks.refl (d : Downloads) : d.Asks d := ⟨rfl, fun _ hr => hr, fun _ hh => .inl hh, fun _ hh => .inl hh⟩

theorem Asks.trans (a : d.Asks d') (a' : d'.Asks d'') : d.Asks d'' where
  peers := a'.peers.trans a.peers
  sent r hr := a'.sent r (a.sent r hr)
  bodies h hh := by
    obtain hh | ⟨p, hp, hs⟩ := a'.bodies h hh
    · obtain hh | ⟨p, hp, hs⟩ := a.bodies h hh
      · exact Or.inl hh
      · exact Or.inr ⟨p, hp, a'.sent _ hs⟩
    · exact Or.inr ⟨p, a.peers ▸ hp, hs⟩
  txs h hh := by
    obtain hh | ⟨p, hp, hs⟩ := a'.txs h hh
    · obtain hh | ⟨p, hp, hs⟩ := a.txs h hh
      · exact Or.inl hh
      · exact Or.inr ⟨p, hp, hs.imp (a'.sent _) (a'.sent _)⟩
    · exact Or.inr ⟨p, a.peers ▸ hp, hs⟩

theorem Owned.asks (hd : d.Owned) (a : d.Asks d') : d'.Owned where
  bodies h hh := by
    rw [a.peers]
    obtain hh | hasked := a.bodies h hh
    · obtain ⟨p, hp, hs⟩ := hd.bodies h hh
      exact ⟨p, hp, a.sent _ hs⟩
    · exact hasked
  txs h hh := by
    rw [a.peers]
    obtain hh | hasked := a.txs h hh
    · obtain ⟨p, hp, hs⟩ := hd.txs h hh
      exact ⟨p, hp, hs.imp (a.sent _) (a.sent _)⟩
    · exact hasked

/-- The connection is registered. -/
def Registered (d : Downloads) (conn : Nat) : Prop := ∃ p ∈ d.peers, p.conn = conn

theorem Asks.registered (a : d.Asks d') (h : d.Registered conn) : d'.Registered conn := by
  obtain ⟨p, hp, heq⟩ := h
  exact ⟨p, a.peers ▸ hp, heq⟩

theorem asks_retain (d : Downloads) (n : Node) : d.Asks (d.retain n) where
  peers := rfl
  sent _ hr := hr
  bodies _ hh := .inl (ExtTreeSet.mem_filter.mp hh).1
  txs _ hh := .inl hh

theorem asks_clearBody (d : Downloads) (h : Hash) : d.Asks (d.clearBodyInflight h) where
  peers := rfl
  sent _ hr := hr
  bodies _ hh := .inl (ExtTreeSet.mem_erase.mp hh).2
  txs _ hh := .inl hh

theorem asks_clearTx (d : Downloads) (h : Hash) : d.Asks (d.clearTxInflight h) where
  peers := rfl
  sent _ hr := hr
  bodies _ hh := .inl hh
  txs _ hh := .inl (ExtTreeSet.mem_erase.mp hh).2

theorem asks_pending (d : Downloads) (pending : ExtTreeMap Hash PendingHeader) :
    d.Asks { d with pendingHeaders := pending } := ⟨rfl, fun _ hr => hr, fun _ hh => .inl hh, fun _ hh => .inl hh⟩

theorem asks_broadcast (d : Downloads) (r : Request) : d.Asks (d.broadcast r) :=
  ⟨rfl, fun _ hr => List.mem_append_right _ hr, fun _ hh => .inl hh, fun _ hh => .inl hh⟩

theorem asks_requestBlockBody (hconn : d.Registered conn) (n : Node) (h : Hash) :
    d.Asks (d.requestBlockBody n conn h) := by
  obtain ⟨p, hp, rfl⟩ := hconn
  unfold requestBlockBody
  split
  · exact .refl d
  · refine (d.asks_retain n).trans ?_
    dsimp only
    split
    · exact .refl _
    · split
      · exact .refl _
      · refine ⟨rfl, fun _ hr => List.mem_cons_of_mem _ hr, ?_, fun _ hh => .inl hh⟩
        intro h' hh
        obtain heq | hh := ExtTreeSet.mem_insert.mp hh
        · obtain rfl := Std.compare_eq_iff_eq.mp heq
          exact Or.inr ⟨p, hp, List.mem_cons_self ..⟩
        · exact Or.inl hh

theorem asks_requestTxPull (hconn : d.Registered conn) (h : Hash) (utxo : Bool) :
    d.Asks (d.requestTxPull conn h utxo) := by
  obtain ⟨p, hp, rfl⟩ := hconn
  unfold requestTxPull
  split
  · exact .refl d
  · split
    · exact .refl d
    · refine ⟨rfl, fun _ hr => List.mem_cons_of_mem _ hr, fun _ hh => .inl hh, ?_⟩
      intro h' hh
      obtain heq | hh := ExtTreeSet.mem_insert.mp hh
      · obtain rfl := Std.compare_eq_iff_eq.mp heq
        refine Or.inr ⟨p, hp, ?_⟩
        cases utxo with
        | false => exact Or.inl (List.mem_cons_self ..)
        | true => exact Or.inr (List.mem_cons_self ..)
      · exact Or.inl hh

/-- One body after another. -/
theorem asks_foldl_request (hconn : d.Registered conn) (n : Node) (hashes : List Hash) :
    d.Asks (hashes.foldl (fun d h => d.requestBlockBody n conn h) d) := by
  induction hashes generalizing d with
  | nil => exact .refl d
  | cons h hashes ih =>
      have a := asks_requestBlockBody hconn n h
      exact a.trans (ih (a.registered hconn))

/-- A missing parent is broadcast to every peer, so at least to the sender. -/
theorem asks_backfill (hconn : d.Registered conn) (n : Node) (missing : List Hash) :
    d.Asks (backfill n missing d) := by
  induction missing generalizing d with
  | nil => exact .refl d
  | cons p missing ih =>
      unfold backfill
      split
      · exact ih hconn
      · have hretain := d.asks_retain n
        dsimp only
        split
        · exact hretain
        · split
          · exact hretain.trans (ih (hretain.registered hconn))
          · obtain ⟨q, hq, hq'⟩ := hconn
            have a : d.Asks ({ d.retain n with inFlightBodies := (d.retain n).inFlightBodies.insert p }.broadcast
                (.getBlock p)) := by
              refine hretain.trans ⟨rfl, fun _ hr => List.mem_append_right _ hr, ?_, fun _ hh => .inl hh⟩
              intro h' hh
              obtain heq | hh := ExtTreeSet.mem_insert.mp hh
              · obtain rfl := Std.compare_eq_iff_eq.mp heq
                exact Or.inr ⟨q, hq, List.mem_append_left _ (List.mem_map.mpr ⟨q, hq, rfl⟩)⟩
              · exact Or.inl hh
            exact a.trans (ih (a.registered ⟨q, hq, hq'⟩))

theorem asks_askAround (n : Node) (missing : List Hash) (d : Downloads) : d.Asks (askAround n missing d) := by
  induction missing generalizing d with
  | nil => exact .refl d
  | cons p missing ih =>
      unfold askAround
      split
      · exact (d.asks_broadcast _).trans (ih _)
      · exact ih d

section Handlers

variable [Crypto] {env : Env}

theorem asks_turn (hconn : d.Registered conn) (s : Node.Ingest) (env : Env) : d.Asks (d.turn s env) := by
  unfold turn
  split
  · exact .refl d
  · dsimp only
    split
    · exact .refl d
    · split
      · split
        · exact asks_backfill hconn _ _
        · exact .refl d
      · split
        · exact .refl d
        · split
          · exact (d.asks_clearBody _).trans (asks_pending _ _)
          · split
            · exact asks_askAround _ _ d
            · exact .refl d

theorem asks_ingest (hconn : d.Registered conn) (s : Node.Ingest) (envs : List Env) : d.Asks (d.ingest s envs).1 := by
  induction envs generalizing d s with
  | nil => exact .refl d
  | cons env envs ih =>
      have a := asks_turn hconn s env
      exact a.trans (ih (a.registered hconn) _)

theorem asks_checkHeaders (hconn : d.Registered conn) (n : Node) (hs : List Block)
    (accepted : List (Hash × PendingHeader)) : d.Asks (checkHeaders n env conn hs accepted d).2 := by
  induction hs generalizing accepted d with
  | nil => exact .refl d
  | cons b hs ih =>
      unfold checkHeaders
      split
      · exact ih hconn _
      · split
        · exact ih hconn _
        · split
          · have a := asks_foldl_request hconn n b.parents
            exact a.trans (ih (a.registered hconn) _)
          · exact ih hconn _

omit [Crypto] in
theorem asks_requestRanked (hconn : d.Registered conn) (n : Node) (ranked : List Hash) :
    d.Asks (requestRanked n conn ranked d) := by
  induction ranked generalizing d with
  | nil => exact .refl d
  | cons h ranked ih =>
      unfold requestRanked
      split
      · exact .refl d
      · have a := asks_requestBlockBody hconn n h
        exact a.trans (ih (a.registered hconn))

theorem asks_headers (hconn : d.Registered conn) (n : Node) (hs : List Block) : d.Asks (d.headers n env conn hs) := by
  unfold headers
  split
  · exact .refl d
  · have hcheck : d.Asks (checkHeaders n env conn hs [] d).2 := asks_checkHeaders hconn n hs []
    dsimp only
    split
    · exact hcheck
    · refine hcheck.trans ((asks_pending _ _).trans (asks_requestRanked ?_ n _))
      exact hcheck.registered hconn

end Handlers

end Downloads

/-! ### Runs -/

namespace Shared

variable [Crypto] {s : Shared} {conn : Nat}

/-- Whatever a registered peer says, the node asks it, or all its peers, for the
hashes it adds. -/
theorem asks_dispatch (hconn : s.downloads.Registered conn) (budget : StarkVerifyBudget) (env : Env)
    (later : List Env) (w : Heard) :
    s.downloads.Asks (s.dispatch conn budget env later w).downloads := by
  cases w with
  | message m =>
      cases m with
      | block b => exact (Downloads.asks_ingest hconn _ (env :: later)).trans (Downloads.asks_clearBody _ _)
      | tips hashes => exact Downloads.asks_foldl_request hconn _ _
      | headers hs => exact Downloads.asks_headers hconn _ _
      | notFound h => exact (Downloads.asks_clearBody _ _).trans (Downloads.asks_clearTx _ _)
      | utxoTx tx => exact Downloads.asks_clearTx _ _
      | _ => exact .refl _
  | inv h => exact Downloads.asks_requestBlockBody hconn _ _
  | tx t => exact Downloads.asks_clearTx _ _
  | txInv h =>
      show s.downloads.Asks (if _ then s else _).downloads
      split
      · exact .refl _
      · exact Downloads.asks_requestTxPull hconn _ _
  | utxoTxInv h =>
      show s.downloads.Asks (if _ then s else _).downloads
      split
      · exact .refl _
      · exact Downloads.asks_requestTxPull hconn _ _
  | compactBlock h =>
      show s.downloads.Asks (if _ then _ else s).downloads
      split
      · exact Downloads.asks_requestBlockBody hconn _ _
      · exact .refl _

/-- Every hash in the two sets was requested from a connected peer other than
this one. -/
structure Spares (s : Shared) (conn : Nat) : Prop where
  bodies : ∀ h ∈ s.downloads.inFlightBodies, ∃ p ∈ s.downloads.peers, p.conn ≠ conn ∧
    (p.conn, .getBlock h) ∈ s.downloads.sent
  txs : ∀ h ∈ s.downloads.inFlightTxGets, ∃ p ∈ s.downloads.peers, p.conn ≠ conn ∧
    ((p.conn, .getTx h) ∈ s.downloads.sent ∨ (p.conn, .getUtxoTx h) ∈ s.downloads.sent)

omit [Crypto] in
/-- A disconnect leaves no hash behind exactly when every hash has another peer. -/
theorem owned_disconnect : (s.disconnect conn).downloads.Owned ↔ s.Spares conn := by
  have hpeers : ∀ p, p ∈ (s.disconnect conn).downloads.peers ↔ p ∈ s.downloads.peers ∧ p.conn ≠ conn := by
    intro p
    show p ∈ s.downloads.peers.filter _ ↔ _
    rw [List.mem_filter, bne_iff_ne]
  constructor
  · rintro ⟨hbodies, htxs⟩
    refine ⟨fun h hh => ?_, fun h hh => ?_⟩
    · obtain ⟨p, hp, hs⟩ := hbodies h hh
      obtain ⟨hp, hne⟩ := (hpeers p).mp hp
      exact ⟨p, hp, hne, hs⟩
    · obtain ⟨p, hp, hs⟩ := htxs h hh
      obtain ⟨hp, hne⟩ := (hpeers p).mp hp
      exact ⟨p, hp, hne, hs⟩
  · rintro ⟨hbodies, htxs⟩
    refine ⟨fun h hh => ?_, fun h hh => ?_⟩
    · obtain ⟨p, hp, hne, hs⟩ := hbodies h hh
      exact ⟨p, (hpeers p).mpr ⟨hp, hne⟩, hs⟩
    · obtain ⟨p, hp, hne, hs⟩ := htxs h hh
      exact ⟨p, (hpeers p).mpr ⟨hp, hne⟩, hs⟩

omit [Crypto] in
theorem owned_connect (h : s.downloads.Owned) (group : Option Bytes) : (s.connect group).downloads.Owned := by
  unfold connect
  dsimp only
  split
  · exact h
  · split
    · exact h
    · refine ⟨fun h' hh => ?_, fun h' hh => ?_⟩
      · obtain ⟨p, hp, hs⟩ := h.bodies h' hh
        exact ⟨p, List.mem_append_left _ hp, hs⟩
      · obtain ⟨p, hp, hs⟩ := h.txs h' hh
        exact ⟨p, List.mem_append_left _ hp, hs⟩

/-- Only a disconnect can leave a hash behind. -/
theorem owned_step (h : s.downloads.Owned) {e : Traffic} (hspares : ∀ c, e = .disconnected c → s.Spares c) :
    (s.step e).downloads.Owned := by
  cases e with
  | connected group => exact owned_connect h group
  | disconnected conn => exact owned_disconnect.mpr (hspares conn rfl)
  | mined env b => exact h
  | pools transparent utxo => exact h
  | heard conn budget env later w =>
      show (if _ then s.dispatch conn budget env later w else s).downloads.Owned
      split
      · rename_i hany
        obtain ⟨p, hp, heq⟩ := List.any_eq_true.mp hany
        exact h.asks (asks_dispatch ⟨p, hp, eq_of_beq heq⟩ budget env later w)
      · exact h

theorem run_concat (s : Shared) (events : List Traffic) (e : Traffic) :
    s.run (events ++ [e]) = (s.run events).step e := List.foldl_concat ..

/-- **Downloads leak exactly on disconnects**: from the start of a node every hash
in flight was requested from a connected peer in all states of a run if and only
if no disconnect of the run takes the only such peer of a hash in flight. -/
theorem in_flight_owned_iff (n : Node) (events : List Traffic) :
    (∀ front, front <+: events → (run { node := n } front).downloads.Owned) ↔
      ∀ front c, front ++ [.disconnected c] <+: events → (run { node := n } front).Spares c := by
  constructor
  · intro howned front c hfront
    have hstep := howned _ hfront
    rw [run_concat] at hstep
    exact owned_disconnect.mp hstep
  · intro hspares front hfront
    induction front using List.reverseRecOn with
    | nil =>
        refine ⟨fun h hh => ?_, fun h hh => ?_⟩
        · exact absurd hh ExtTreeSet.not_mem_empty
        · exact absurd hh ExtTreeSet.not_mem_empty
    | append_singleton front e ih =>
        rw [run_concat]
        refine owned_step (ih ((List.prefix_append front [e]).trans hfront)) ?_
        rintro c rfl
        exact hspares front c hfront

end Shared

namespace Sample

theorem requestBlockBody_first {n : Node} {h : Hash} (hfetch : n.shouldFetch h = true) (d : Downloads)
    (hempty : d.inFlightBodies = ∅) (conn : Nat) :
    h ∈ (d.requestBlockBody n conn h).inFlightBodies ∧
      (d.requestBlockBody n conn h).inFlightTxGets = d.inFlightTxGets ∧
      (d.requestBlockBody n conn h).peers = d.peers := by
  have hretain : (d.retain n).inFlightBodies = ∅ := by
    refine ExtTreeSet.ext_mem fun k => ?_
    show k ∈ d.inFlightBodies.filter _ ↔ _
    rw [hempty]
    simp
  unfold Downloads.requestBlockBody
  rw [hfetch, if_neg (by simp)]
  dsimp only
  rw [hretain, if_neg (by decide), if_neg (by simp)]
  exact ⟨ExtTreeSet.mem_insert_self, rfl, rfl⟩

theorem requestTxPull_first (d : Downloads) (hempty : d.inFlightTxGets = ∅) (conn : Nat) (h : Hash) (utxo : Bool) :
    h ∈ (d.requestTxPull conn h utxo).inFlightTxGets ∧
      (d.requestTxPull conn h utxo).inFlightBodies = d.inFlightBodies ∧
      (d.requestTxPull conn h utxo).peers = d.peers := by
  unfold Downloads.requestTxPull
  rw [hempty, if_neg (by decide), if_neg (by simp)]
  exact ⟨ExtTreeSet.mem_insert_self, rfl, rfl⟩

/-- What the first connection says. -/
def said (w : Heard) : Traffic := .heard 0 { limit := 8, windowMs := 10000 } env [] w

/-- A peer announces a block and a transaction, and leaves. -/
def comeAndGo (h : Hash) : List Traffic :=
  [.connected none, said (.inv h), said (.txInv h), .disconnected 0]

theorem run_comeAndGo {n : Node} {h : Hash} (hfetch : n.shouldFetch h = true)
    (hpool : n.chain.transparentMempool = []) :
    h ∈ (Shared.run { node := n } (comeAndGo h)).downloads.inFlightBodies ∧
      h ∈ (Shared.run { node := n } (comeAndGo h)).downloads.inFlightTxGets ∧
      (Shared.run { node := n } (comeAndGo h)).downloads.peers = [] := by
  let d : Downloads := { peers := [⟨none, 0⟩], next := 1 }
  obtain ⟨hbody, htx, hpeers⟩ := requestBlockBody_first hfetch d rfl 0
  obtain ⟨htx', hbody', hpeers'⟩ := requestTxPull_first (d.requestBlockBody n 0 h) htx 0 h false
  have hconnected : Shared.step { node := n } (.connected none) = { node := n, downloads := d } := rfl
  have hinv : Shared.step { node := n, downloads := d } (said (.inv h))
      = { node := n, downloads := d.requestBlockBody n 0 h } := rfl
  have htxInv : Shared.step { node := n, downloads := d.requestBlockBody n 0 h } (said (.txInv h))
      = { node := n, downloads := (d.requestBlockBody n 0 h).requestTxPull 0 h false } := by
    have hsaid : ∀ s : Shared, s.step (said (.txInv h)) = if s.downloads.peers.any fun p => p.conn == 0 then
        s.dispatch 0 { limit := 8, windowMs := 10000 } env [] (.txInv h) else s := fun _ => rfl
    rw [hsaid, hpeers, if_pos (by rfl), Shared.dispatch, hpool]
    rfl
  rw [Shared.run, comeAndGo, List.foldl_cons, hconnected, List.foldl_cons, hinv, List.foldl_cons, htxInv,
    List.foldl_cons, List.foldl_nil]
  refine ⟨?_, htx', ?_⟩
  · show h ∈ ((d.requestBlockBody n 0 h).requestTxPull 0 h false).inFlightBodies
    rw [hbody']
    exact hbody
  · show ((d.requestBlockBody n 0 h).requestTxPull 0 h false).peers.filter _ = []
    rw [hpeers', hpeers]
    rfl

/-- **A disconnect leaks a download**: on a fresh node the hashes stay in flight
with nobody connected. -/
theorem disconnect_leaks : ∃ (n : Node) (events : List Traffic) (h : Hash),
    h ∈ (Shared.run { node := n } events).downloads.inFlightBodies ∧
      h ∈ (Shared.run { node := n } events).downloads.inFlightTxGets ∧
      (Shared.run { node := n } events).downloads.peers = [] := by
  refine ⟨{ chain := ChainState.seeded false false {} }, comeAndGo (blockHash 1 0), blockHash 1 0, ?_⟩
  refine run_comeAndGo ?_ rfl
  have hnew : blockHash 1 0 ∉ (ChainState.seeded false false {}).dag := by
    rw [ChainState.seeded_mem, genesis_hash]
    exact blockHash_ne (by norm_num) (by norm_num) (by norm_num)
  have hcontains : (ChainState.seeded false false {}).dag.contains (blockHash 1 0) = false :=
    Bool.eq_false_iff.mpr fun h => hnew (ExtTreeMap.contains_iff_mem.mp h)
  show (!(ChainState.seeded false false {}).dag.contains (blockHash 1 0) && true) = true
  rw [hcontains]
  rfl

end Sample

end HassanNode
