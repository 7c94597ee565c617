import Mathlib
import HassanNode.Net.Node

/-!
# HassanNode.Net.Intake

The ingest loop over any chain state: what `ingest_block` does with its queue and
its orphan pool, whatever decides about a block. The loop of a node is the
instance at `ChainState` (`intake_pass`); where `add_block` is taken as accepting
a block exactly when its parents are known, the order of delivery is irrelevant.

The invariant behind it (`Kept`): a delivered block is known, or a copy of it is
queued, or one of its copies has a missing parent and a copy waits under every
missing parent of that one.
-/

namespace HassanNode

open Std (ExtTreeMap ExtTreeSet)

/-! ### The loop -/

/-- What the loop asks of a chain state. -/
structure ChainOps (σ : Type) where
  has : σ → Hash → Bool
  precheckBlock : σ → Env → Block → Except String Unit
  addBlock : σ → Env → Block → Except String σ

/-- The work queue of `ingest_block` before any chain state. -/
structure Intake (σ : Type) where
  chain : σ
  orphans : ExtTreeMap Hash (List OrphanBlock) := ∅
  budget : Option StarkVerifyBudget := none
  queue : List (Block × Bool) := []
  penalty : Nat := 0

/-- The orphans that wait for a parent. -/
def waitingFor (orphans : ExtTreeMap Hash (List OrphanBlock)) (p : Hash) : List OrphanBlock :=
  (orphans[p]?).getD []

/-- The number that is compared with `MAX_ORPHANS`. -/
def poolSize (orphans : ExtTreeMap Hash (List OrphanBlock)) : Nat :=
  (orphans.toList.map (·.2.length)).sum

section Loop

variable [Crypto] {σ : Type}

/-- `buffer_orphan` on the pool. -/
def bufferOrphan (now : Nat) (missing : List Hash) (b : Block)
    (orphans : ExtTreeMap Hash (List OrphanBlock)) : ExtTreeMap Hash (List OrphanBlock) :=
  let orphans := Node.pruneOrphans now orphans
  if poolSize orphans ≥ maxOrphans then orphans
  else missing.foldl (Node.bufferOrphan.wait now b) orphans

namespace Intake

def charge (s : Intake σ) (isDirect : Bool) (points : Nat) : Intake σ :=
  if isDirect then { s with penalty := satAdd32 s.penalty points } else s

def orphan (ops : ChainOps σ) (s : Intake σ) (env : Env) (b : Block) : Intake σ :=
  { s with orphans := bufferOrphan env.now (b.parents.filter fun p => !ops.has s.chain p) b s.orphans }

def refuse (ops : ChainOps σ) (s : Intake σ) (env : Env) (b : Block) (isDirect : Bool)
    (message : String) : Intake σ :=
  if mentions message "Unknown parent" then s.orphan ops env b
  else s.charge isDirect (blockBanPenalty message)

/-- The orphans that an accepted block releases, the next one first. -/
def released (s : Intake σ) (env : Env) (h : Hash) : List (Block × Bool) :=
  (((waitingFor s.orphans h).filter fun o => env.now - o.insertedAt < orphanTtlMs).map
    fun o => (o.block, false)).reverse

def accept (s : Intake σ) (env : Env) (b : Block) (st : σ) : Intake σ :=
  { s with
    chain := st
    orphans := s.orphans.erase b.hash
    queue := s.released env b.hash ++ s.queue }

/-- Without a budget every verification is granted. -/
def spend (s : Intake σ) (env : Env) (isDirect : Bool) : Bool × Intake σ :=
  match isDirect, s.budget with
  | true, some budget =>
    let (allowed, budget) := budget.tryConsume env.now
    (allowed, { s with budget := some budget })
  | _, _ => (true, s)

def process (ops : ChainOps σ) (s : Intake σ) (env : Env) (b : Block) (isDirect : Bool) : Intake σ :=
  match ops.precheckBlock s.chain env b with
  | .error message => s.refuse ops env b isDirect message
  | .ok () =>
    let (allowed, s) := s.spend env isDirect
    if !allowed then s.charge true invalidStarkPenalty
    else
      match ops.addBlock s.chain env b with
      | .ok st => s.accept env b st
      | .error message => s.refuse ops env b isDirect message

/-- One turn of the loop. -/
def pass (ops : ChainOps σ) (s : Intake σ) (env : Env) : Intake σ :=
  match s.queue with
  | [] => s
  | (b, isDirect) :: queue =>
    if ops.has s.chain b.hash then { s with queue := queue }
    else { s with queue := queue }.process ops env b isDirect

end Intake

/-! ### The loop of a node -/

/-- What a node's own chain state answers. -/
def chainOps : ChainOps ChainState where
  has st h := st.dag.contains h
  precheckBlock := ChainState.precheckBlock
  addBlock := ChainState.addBlock

namespace Node.Ingest

/-- What the loop sees of a node. -/
def intake (s : Ingest) : Intake ChainState where
  chain := s.node.chain
  orphans := s.node.orphans
  budget := some s.budget
  queue := s.queue
  penalty := s.penalty

omit [Crypto] in
theorem intake_charge (s : Ingest) (isDirect : Bool) (points : Nat) :
    (s.charge isDirect points).intake = s.intake.charge isDirect points := by
  cases isDirect with
  | false => rfl
  | true => rfl

theorem intake_orphan (s : Ingest) (env : Env) (b : Block) :
    (s.orphan env b).intake = s.intake.orphan chainOps env b := by
  have hbuffer : ∀ missing, (s.node.bufferOrphan env.now missing b).orphans
      = HassanNode.bufferOrphan env.now missing b s.node.orphans
      ∧ (s.node.bufferOrphan env.now missing b).chain = s.node.chain := by
    intro missing
    unfold Node.bufferOrphan HassanNode.bufferOrphan poolSize
    dsimp only
    split
    · exact ⟨rfl, rfl⟩
    · exact ⟨rfl, rfl⟩
  let missing := b.parents.filter fun p => !s.node.chain.dag.contains p
  show Intake.mk (s.node.bufferOrphan env.now missing b).chain (s.node.bufferOrphan env.now missing b).orphans
      (some s.budget) s.queue s.penalty
    = Intake.mk s.node.chain (HassanNode.bufferOrphan env.now missing b s.node.orphans)
      (some s.budget) s.queue s.penalty
  rw [(hbuffer missing).1, (hbuffer missing).2]

theorem intake_refuse (s : Ingest) (env : Env) (b : Block) (isDirect : Bool) (message : String) :
    (s.refuse env b isDirect message).intake = s.intake.refuse chainOps env b isDirect message := by
  unfold refuse Intake.refuse
  split
  · exact s.intake_orphan env b
  · exact s.intake_charge isDirect _

theorem intake_process (s : Ingest) (env : Env) (b : Block) (isDirect : Bool) :
    (s.process env b isDirect).intake = s.intake.process chainOps env b isDirect := by
  have hspend : (s.intake.spend env isDirect) = ((s.spend env isDirect).1, (s.spend env isDirect).2.intake) := by
    cases isDirect with
    | false => rfl
    | true => rfl
  have hcheck : chainOps.precheckBlock s.intake.chain env b = s.node.chain.precheckBlock env b := rfl
  unfold process Intake.process
  rw [hcheck]
  cases s.node.chain.precheckBlock env b with
  | error message => exact s.intake_refuse env b isDirect message
  | ok _ =>
      dsimp only
      rw [hspend]
      dsimp only
      split
      · exact intake_charge _ _ _
      · have hadd : chainOps.addBlock (s.spend env isDirect).2.intake.chain env b
            = (s.spend env isDirect).2.node.chain.addBlock env b := rfl
        rw [hadd]
        cases (s.spend env isDirect).2.node.chain.addBlock env b with
        | ok st => rfl
        | error message => exact intake_refuse _ env b isDirect message

/-- A turn of a node is a turn over its chain state. -/
theorem intake_pass (s : Ingest) (env : Env) : (s.pass env).intake = s.intake.pass chainOps env := by
  obtain ⟨n, budget, queue, penalty⟩ := s
  cases queue with
  | nil => rfl
  | cons e queue =>
      show Ingest.intake (if n.chain.dag.contains e.1.hash then _ else _)
        = if n.chain.dag.contains e.1.hash then _ else _
      split
      · rfl
      · exact intake_process _ env e.1 e.2

end Node.Ingest

/-! ### The pool -/

omit [Crypto] in
theorem waitingFor_prune (now : Nat) (orphans : ExtTreeMap Hash (List OrphanBlock)) (p : Hash) :
    waitingFor (Node.pruneOrphans now orphans) p
      = (waitingFor orphans p).filter fun o => now - o.insertedAt < orphanTtlMs := by
  unfold waitingFor Node.pruneOrphans
  rw [ExtTreeMap.getElem?_filter', ExtTreeMap.getElem?_map]
  cases orphans[p]? with
  | none => rfl
  | some waiting =>
      show (Option.filter _ (some (waiting.filter _))).getD [] = waiting.filter _
      cases waiting.filter fun o => now - o.insertedAt < orphanTtlMs with
      | nil => rfl
      | cons o rest => rfl

omit [Crypto] in
theorem waitingFor_erase (orphans : ExtTreeMap Hash (List OrphanBlock)) (h p : Hash) :
    waitingFor (orphans.erase h) p = if h = p then [] else waitingFor orphans p := by
  unfold waitingFor
  rw [ExtTreeMap.getElem?_erase]
  by_cases hp : h = p
  · simp [hp]
  · simp [hp]

omit [Crypto] in
/-- Dropping the orphans that are out of date makes the pool no larger. -/
theorem poolSize_prune (now : Nat) (orphans : ExtTreeMap Hash (List OrphanBlock)) :
    poolSize (Node.pruneOrphans now orphans) ≤ poolSize orphans := by
  unfold poolSize Node.pruneOrphans
  rw [ExtTreeMap.toList_filter, ExtTreeMap.toList_map]
  induction orphans.toList with
  | nil => exact le_rfl
  | cons e es ih =>
      have hle := List.length_filter_le (fun o : OrphanBlock => decide (now - o.insertedAt < orphanTtlMs)) e.2
      rw [List.map_cons, List.filter_cons]
      split
      · simp only [List.map_cons, List.sum_cons]
        omega
      · simp only [List.map_cons, List.sum_cons]
        omega

section Wait

variable {now : Nat} {b : Block} {orphans : ExtTreeMap Hash (List OrphanBlock)} {o : OrphanBlock} {p q : Hash}

/-- One more waiting block: at the parent, unless a copy waits there already. -/
theorem waitingFor_wait : waitingFor (Node.bufferOrphan.wait now b orphans p) q
    = if p = q then
        if (waitingFor orphans p).any fun w => w.block.hash == b.hash then waitingFor orphans p
        else waitingFor orphans p ++ [⟨b, now⟩]
      else waitingFor orphans q := by
  show ((orphans.insert p _)[q]?).getD [] = _
  rw [ExtTreeMap.getElem?_insert]
  by_cases hp : p = q
  · rw [if_pos (Std.compare_eq_iff_eq.mpr hp), if_pos hp]
    rfl
  · rw [if_neg fun h => hp (Std.compare_eq_iff_eq.mp h), if_neg hp]
    rfl

theorem mem_wait_of_mem (h : o ∈ waitingFor orphans q) :
    o ∈ waitingFor (Node.bufferOrphan.wait now b orphans p) q := by
  rw [waitingFor_wait]
  split
  · rename_i hp
    subst hp
    split
    · exact h
    · exact List.mem_append_left _ h
  · exact h

theorem mem_of_mem_wait (h : o ∈ waitingFor (Node.bufferOrphan.wait now b orphans p) q) :
    o ∈ waitingFor orphans q ∨ p = q ∧ o = ⟨b, now⟩ := by
  rw [waitingFor_wait] at h
  split at h
  · rename_i hp
    subst hp
    split at h
    · exact Or.inl h
    · obtain h | h := List.mem_append.mp h
      · exact Or.inl h
      · exact Or.inr ⟨rfl, List.mem_singleton.mp h⟩
  · exact Or.inl h

theorem waits_wait : ∃ o ∈ waitingFor (Node.bufferOrphan.wait now b orphans p) p, o.block.hash = b.hash := by
  rw [waitingFor_wait, if_pos rfl]
  split
  · rename_i hany
    obtain ⟨o, ho, hhash⟩ := List.any_eq_true.mp hany
    exact ⟨o, ho, eq_of_beq hhash⟩
  · exact ⟨⟨b, now⟩, List.mem_append_right _ (List.mem_singleton_self _), rfl⟩

theorem mem_foldl_wait {missing : List Hash} (h : o ∈ waitingFor orphans q) :
    o ∈ waitingFor (missing.foldl (Node.bufferOrphan.wait now b) orphans) q := by
  induction missing generalizing orphans with
  | nil => exact h
  | cons p missing ih => exact ih (mem_wait_of_mem h)

theorem mem_of_mem_foldl_wait {missing : List Hash}
    (h : o ∈ waitingFor (missing.foldl (Node.bufferOrphan.wait now b) orphans) q) :
    o ∈ waitingFor orphans q ∨ q ∈ missing ∧ o = ⟨b, now⟩ := by
  induction missing generalizing orphans with
  | nil => exact Or.inl h
  | cons p missing ih =>
      obtain h | ⟨hq, ho⟩ := ih h
      · obtain h | ⟨hp, ho⟩ := mem_of_mem_wait h
        · exact Or.inl h
        · exact Or.inr ⟨hp ▸ List.mem_cons_self .., ho⟩
      · exact Or.inr ⟨List.mem_cons_of_mem _ hq, ho⟩

/-- A buffered block waits under every missing parent. -/
theorem waits_foldl_wait {missing : List Hash} (hp : p ∈ missing) :
    ∃ o ∈ waitingFor (missing.foldl (Node.bufferOrphan.wait now b) orphans) p, o.block.hash = b.hash := by
  induction missing generalizing orphans with
  | nil => cases hp
  | cons q missing ih =>
      obtain rfl | hp := List.mem_cons.mp hp
      · obtain ⟨o, ho, hhash⟩ : ∃ o ∈ waitingFor (Node.bufferOrphan.wait now b orphans p) p,
            o.block.hash = b.hash := waits_wait
        rw [List.foldl_cons]
        exact ⟨o, mem_foldl_wait ho, hhash⟩
      · exact ih hp

end Wait

/-- Buffering adds copies of the block only, and under its missing parents only. -/
theorem mem_of_mem_bufferOrphan {now : Nat} {missing : List Hash} {b : Block}
    {orphans : ExtTreeMap Hash (List OrphanBlock)} {q : Hash} {o : OrphanBlock}
    (h : o ∈ waitingFor (bufferOrphan now missing b orphans) q) :
    o ∈ waitingFor orphans q ∨ q ∈ missing ∧ o = ⟨b, now⟩ := by
  have hprune : o ∈ waitingFor (Node.pruneOrphans now orphans) q → o ∈ waitingFor orphans q := by
    intro hmem
    rw [waitingFor_prune] at hmem
    exact (List.mem_filter.mp hmem).1
  unfold bufferOrphan at h
  dsimp only at h
  split at h
  · exact Or.inl (hprune h)
  · obtain h | h := mem_of_mem_foldl_wait h
    · exact Or.inl (hprune h)
    · exact Or.inr h

/-! ### What a turn does -/

/-- `add_block` taken as accepting a block exactly when its parents are known:
the cheap test already reports the first unknown one. -/
structure ChainOps.ByParents (ops : ChainOps σ) : Prop where
  waits {st : σ} (env : Env) {b : Block} {p : Hash} : ops.has st b.hash = false → p ∈ b.parents →
    ops.has st p = false →
    ∃ message, ops.precheckBlock st env b = .error message ∧ mentions message "Unknown parent" = true
  passes {st : σ} (env : Env) {b : Block} : ops.has st b.hash = false →
    (∀ p ∈ b.parents, ops.has st p = true) → ops.precheckBlock st env b = .ok ()
  adds {st : σ} (env : Env) {b : Block} : ops.has st b.hash = false →
    (∀ p ∈ b.parents, ops.has st p = true) →
    ∃ st', ops.addBlock st env b = .ok st' ∧ ∀ h, ops.has st' h = (ops.has st h || h == b.hash)

namespace Intake

variable {ops : ChainOps σ} {s : Intake σ} {env : Env}

/-- Everything that a turn can do. -/
inductive Turn (ops : ChainOps σ) (s : Intake σ) (env : Env) : Intake σ → Prop
  | idle : s.queue = [] → Turn ops s env s
  | known {b isDirect queue} : s.queue = (b, isDirect) :: queue → ops.has s.chain b.hash = true →
      Turn ops s env { s with queue := queue }
  | waits {b isDirect queue} (p : Hash) : s.queue = (b, isDirect) :: queue → p ∈ b.parents →
      ops.has s.chain p = false → Turn ops s env { s with
        queue := queue
        orphans := bufferOrphan env.now (b.parents.filter fun p => !ops.has s.chain p) b s.orphans }
  | refused {b queue budget} (left : StarkVerifyBudget) (penalty : Nat) : s.queue = (b, true) :: queue →
      s.budget = some budget → (budget.tryConsume env.now).1 = false →
      Turn ops s env { s with queue := queue, budget := some left, penalty := penalty }
  | added {b isDirect queue} (left : Option StarkVerifyBudget) (st : σ) :
      s.queue = (b, isDirect) :: queue → ops.has s.chain b.hash = false →
      (∀ h, ops.has st h = (ops.has s.chain h || h == b.hash)) → Turn ops s env { s with
        chain := st
        orphans := s.orphans.erase b.hash
        budget := left
        queue := s.released env b.hash ++ queue }

theorem process_added {s' : Intake σ} {b : Block} {isDirect : Bool} {st : σ}
    (hcheck : ops.precheckBlock s.chain env b = .ok ()) (hspend : s.spend env isDirect = (true, s'))
    (hadd : ops.addBlock s'.chain env b = .ok st) : s.process ops env b isDirect = s'.accept env b st := by
  unfold process
  rw [hcheck, hspend]
  dsimp only
  rw [if_neg (by simp), hadd]

theorem process_refused {s' : Intake σ} {b : Block} {isDirect : Bool}
    (hcheck : ops.precheckBlock s.chain env b = .ok ()) (hspend : s.spend env isDirect = (false, s')) :
    s.process ops env b isDirect = s'.charge true invalidStarkPenalty := by
  unfold process
  rw [hcheck, hspend]
  dsimp only
  rw [if_pos (by simp)]

theorem turn (laws : ops.ByParents) (s : Intake σ) (env : Env) : Turn ops s env (s.pass ops env) := by
  obtain ⟨chain, orphans, budget, queue, penalty⟩ := s
  cases queue with
  | nil => exact .idle rfl
  | cons e queue =>
      obtain ⟨b, isDirect⟩ := e
      unfold pass
      dsimp only
      by_cases hknown : ops.has chain b.hash = true
      · rw [if_pos hknown]
        exact .known rfl hknown
      · rw [if_neg hknown]
        rw [Bool.not_eq_true] at hknown
        by_cases hparents : ∀ p ∈ b.parents, ops.has chain p = true
        · have hcheck := laws.passes env hknown hparents
          obtain ⟨st, hadd, hhas⟩ := laws.adds env hknown hparents
          -- only a direct block of a peer with a budget can be refused
          cases isDirect with
          | false =>
              rw [process_added hcheck rfl hadd]
              exact .added budget st rfl hknown hhas
          | true =>
              cases budget with
              | none =>
                  rw [process_added hcheck rfl hadd]
                  exact .added none st rfl hknown hhas
              | some budget =>
                  let left := (budget.tryConsume env.now).2
                  have hspend : spend ⟨chain, orphans, some budget, queue, penalty⟩ env true
                      = ((budget.tryConsume env.now).1, ⟨chain, orphans, some left, queue, penalty⟩) := rfl
                  cases hallowed : (budget.tryConsume env.now).1 with
                  | false =>
                      rw [hallowed] at hspend
                      rw [process_refused hcheck hspend]
                      exact .refused left _ rfl rfl hallowed
                  | true =>
                      rw [hallowed] at hspend
                      rw [process_added hcheck hspend hadd]
                      exact .added (some left) st rfl hknown hhas
        · obtain ⟨p, hp, hmissing⟩ : ∃ p ∈ b.parents, ops.has chain p = false := by simpa using hparents
          obtain ⟨message, heq, hmention⟩ := laws.waits env hknown hp hmissing
          unfold process
          dsimp only
          rw [heq]
          dsimp only
          rw [refuse, if_pos hmention]
          exact .waits p rfl hp hmissing

/-! ### The queue runs empty -/

/-- Every queued or waiting block is one of these. -/
def Within (s : Intake σ) (blocks : Set Block) : Prop :=
  (∀ e ∈ s.queue, e.1 ∈ blocks) ∧ ∀ p, ∀ o ∈ waitingFor s.orphans p, o.block ∈ blocks

theorem Turn.within {s' : Intake σ} {blocks : Set Block} (t : Turn ops s env s') (h : s.Within blocks) :
    s'.Within blocks := by
  obtain ⟨hqueue, hpool⟩ := h
  cases t with
  | idle => exact ⟨hqueue, hpool⟩
  | known heq =>
      rw [heq] at hqueue
      exact ⟨fun e he => hqueue e (List.mem_cons_of_mem _ he), hpool⟩
  | waits p heq =>
      rw [heq] at hqueue
      refine ⟨fun e he => hqueue e (List.mem_cons_of_mem _ he), ?_⟩
      intro q o ho
      obtain ho | ⟨-, rfl⟩ := mem_of_mem_bufferOrphan ho
      · exact hpool q o ho
      · exact hqueue _ (List.mem_cons_self ..)
  | refused left penalty heq =>
      rw [heq] at hqueue
      exact ⟨fun e he => hqueue e (List.mem_cons_of_mem _ he), hpool⟩
  | @added b _ _ left st heq =>
      rw [heq] at hqueue
      refine ⟨?_, ?_⟩
      · intro e he
        obtain he | he := List.mem_append.mp he
        · obtain ⟨o, ho, rfl⟩ := List.mem_map.mp (List.mem_reverse.mp he)
          exact hpool b.hash o (List.mem_filter.mp ho).1
        · exact hqueue e (List.mem_cons_of_mem _ he)
      · intro q o ho
        dsimp only at ho
        rw [waitingFor_erase] at ho
        split at ho
        · cases ho
        · exact hpool q o ho

/-- How many of these hashes are not known yet. -/
def pending (ops : ChainOps σ) (s : Intake σ) (hashes : List Hash) : Nat :=
  hashes.countP fun h => !ops.has s.chain h

/-- A turn adds a block, or takes one out of the queue. -/
theorem Turn.decreases {s' : Intake σ} {hashes : List Hash} (t : Turn ops s env s')
    (hwithin : s.Within {b | b.hash ∈ hashes}) (hqueue : s.queue ≠ []) :
    toLex (s'.pending ops hashes, s'.queue.length) < toLex (s.pending ops hashes, s.queue.length) := by
  rw [Prod.Lex.toLex_lt_toLex]
  cases t with
  | idle heq => exact absurd heq hqueue
  | known heq =>
      refine Or.inr ⟨rfl, ?_⟩
      show List.length _ < _
      rw [heq]
      exact Nat.lt_succ_self _
  | waits p heq =>
      refine Or.inr ⟨rfl, ?_⟩
      show List.length _ < _
      rw [heq]
      exact Nat.lt_succ_self _
  | refused left penalty heq =>
      refine Or.inr ⟨rfl, ?_⟩
      show List.length _ < _
      rw [heq]
      exact Nat.lt_succ_self _
  | @added b isDirect _ left st heq hnew hhas =>
      have hb : b.hash ∈ hashes := hwithin.1 (b, isDirect) (heq ▸ List.mem_cons_self ..)
      obtain ⟨front, back, hsplit⟩ := List.append_of_mem hb
      have hmono : ∀ h, (!ops.has st h) = true → (!ops.has s.chain h) = true := by
        intro h hst
        rw [hhas] at hst
        simp_all
      have hfront := List.countP_mono_left (l := front) fun h _ => hmono h
      have hback := List.countP_mono_left (l := back) fun h _ => hmono h
      refine Or.inl ?_
      show hashes.countP (fun h => !ops.has st h) < hashes.countP fun h => !ops.has s.chain h
      rw [hsplit, List.countP_append, List.countP_append, List.countP_cons_of_neg (by simp [hhas]),
        List.countP_cons_of_pos (by simp [hnew])]
      omega

/-- The blocks of a state have finitely many hashes. -/
theorem exists_within (s : Intake σ) : ∃ hashes : List Hash, s.Within {b | b.hash ∈ hashes} := by
  refine ⟨s.queue.map (·.1.hash) ++ s.orphans.toList.flatMap (·.2.map (·.block.hash)), ?_, ?_⟩
  · intro e he
    exact List.mem_append_left _ (List.mem_map_of_mem he)
  · intro p o ho
    refine List.mem_append_right _ (List.mem_flatMap.mpr ?_)
    unfold waitingFor at ho
    cases hp : s.orphans[p]? with
    | none =>
        rw [hp] at ho
        cases ho
    | some waiting =>
        rw [hp] at ho
        exact ⟨(p, waiting), ExtTreeMap.mem_toList_iff_getElem?_eq_some.mpr hp, List.mem_map_of_mem ho⟩

/-- Whatever the clock shows, the loop ends. -/
theorem terminates (laws : ops.ByParents) (s : Intake σ) (clock : Nat → Env) :
    ∃ turns, (((List.range turns).map clock).foldl (pass ops) s).queue = [] := by
  obtain ⟨hashes, hwithin⟩ := s.exists_within
  induction hm : toLex (s.pending ops hashes, s.queue.length) using WellFoundedLT.induction
    generalizing s clock with
  | ind m ih =>
      by_cases hqueue : s.queue = []
      · exact ⟨0, hqueue⟩
      · have t := turn laws s (clock 0)
        obtain ⟨turns, hturns⟩ := ih _ (hm ▸ t.decreases hwithin hqueue) (s.pass ops (clock 0))
          (fun n => clock (n + 1)) (t.within hwithin) rfl
        refine ⟨turns + 1, ?_⟩
        rw [List.range_succ_eq_map, List.map_cons, List.map_map, List.foldl_cons]
        exact hturns

/-! ### Nothing is lost -/

/-- A delivered block is known, or queued, or waits under every missing parent
of one of its copies. -/
def Kept (ops : ChainOps σ) (blocks : Set Block) (s : Intake σ) (h : Hash) : Prop :=
  ops.has s.chain h = true ∨ (∃ e ∈ s.queue, e.1.hash = h) ∨
    ∃ c ∈ blocks, c.hash = h ∧ (∃ p ∈ c.parents, ops.has s.chain p = false) ∧
      ∀ p ∈ c.parents, ops.has s.chain p = false → ∃ o ∈ waitingFor s.orphans p, o.block.hash = h

/-- There is room in the pool, and nothing in it is out of date. -/
def Roomy (s : Intake σ) (env : Env) : Prop :=
  poolSize s.orphans < maxOrphans ∧
    ∀ p, ∀ o ∈ waitingFor s.orphans p, env.now - o.insertedAt < orphanTtlMs

theorem Roomy.bufferOrphan (h : s.Roomy env) (missing : List Hash) (b : Block) :
    bufferOrphan env.now missing b s.orphans
      = missing.foldl (Node.bufferOrphan.wait env.now b) (Node.pruneOrphans env.now s.orphans) := by
  have hle := poolSize_prune env.now s.orphans
  have hlt := h.1
  unfold HassanNode.bufferOrphan
  dsimp only
  rw [if_neg (by omega)]

/-- Then every orphan keeps its place. -/
theorem Roomy.mem_bufferOrphan (h : s.Roomy env) {missing : List Hash} {b : Block} {q : Hash}
    {o : OrphanBlock} (ho : o ∈ waitingFor s.orphans q) :
    o ∈ waitingFor (HassanNode.bufferOrphan env.now missing b s.orphans) q := by
  rw [h.bufferOrphan]
  refine mem_foldl_wait ?_
  rw [waitingFor_prune]
  exact List.mem_filter.mpr ⟨ho, decide_eq_true (h.2 q o ho)⟩

theorem Turn.has_mono {s' : Intake σ} (t : Turn ops s env s') {h : Hash} (hh : ops.has s.chain h = true) :
    ops.has s'.chain h = true := by
  cases t with
  | idle => exact hh
  | known => exact hh
  | waits => exact hh
  | refused => exact hh
  | added left st heq hnew hhas =>
      show ops.has st h = true
      rw [hhas, hh]
      rfl

theorem Turn.kept {s' : Intake σ} {blocks : Set Block} (t : Turn ops s env s') (hwithin : s.Within blocks)
    (hroom : s.queue = [] ∨ s.Roomy env)
    (hgranted : ∀ b queue budget, s.queue = (b, true) :: queue → s.budget = some budget →
      (budget.tryConsume env.now).1 = true) {h : Hash} (hkept : s.Kept ops blocks h) :
    s'.Kept ops blocks h := by
  obtain hh | ⟨e, he, rfl⟩ | ⟨c, hc, rfl, ⟨p₀, hp₀, hmissing⟩, hwaits⟩ := hkept
  · exact Or.inl (t.has_mono hh)
  · -- a queued copy
    cases t with
    | idle => exact Or.inr (Or.inl ⟨e, he, rfl⟩)
    | known heq hknown =>
        rw [heq] at he
        obtain rfl | he := List.mem_cons.mp he
        · exact Or.inl hknown
        · exact Or.inr (Or.inl ⟨e, he, rfl⟩)
    | @waits b isDirect queue p heq hp hmissing =>
        have hroom := hroom.resolve_left (by rw [heq]; exact List.cons_ne_nil _ _)
        have hb : b ∈ blocks := hwithin.1 (b, isDirect) (heq ▸ List.mem_cons_self ..)
        rw [heq] at he
        obtain rfl | he := List.mem_cons.mp he
        · refine Or.inr (Or.inr ⟨b, hb, rfl, ⟨p, hp, hmissing⟩, ?_⟩)
          intro q hq hqmissing
          show ∃ o ∈ waitingFor (HassanNode.bufferOrphan _ _ _ _) q, _
          rw [hroom.bufferOrphan]
          exact waits_foldl_wait (List.mem_filter.mpr ⟨hq, by rw [hqmissing]; rfl⟩)
        · exact Or.inr (Or.inl ⟨e, he, rfl⟩)
    | refused left penalty heq hbudget hrefused =>
        rw [hgranted _ _ _ heq hbudget] at hrefused
        cases hrefused
    | added left st heq hnew hhas =>
        rw [heq] at he
        obtain rfl | he := List.mem_cons.mp he
        · exact Or.inl (by show ops.has st _ = true; rw [hhas]; simp)
        · exact Or.inr (Or.inl ⟨e, List.mem_append_right _ he, rfl⟩)
  · -- copies that wait under every missing parent of `c`
    cases t with
    | idle => exact Or.inr (Or.inr ⟨c, hc, rfl, ⟨p₀, hp₀, hmissing⟩, hwaits⟩)
    | known => exact Or.inr (Or.inr ⟨c, hc, rfl, ⟨p₀, hp₀, hmissing⟩, hwaits⟩)
    | waits p heq =>
        have hroom := hroom.resolve_left (by rw [heq]; exact List.cons_ne_nil _ _)
        refine Or.inr (Or.inr ⟨c, hc, rfl, ⟨p₀, hp₀, hmissing⟩, ?_⟩)
        intro q hq hqmissing
        obtain ⟨o, ho, hhash⟩ := hwaits q hq hqmissing
        exact ⟨o, hroom.mem_bufferOrphan ho, hhash⟩
    | refused => exact Or.inr (Or.inr ⟨c, hc, rfl, ⟨p₀, hp₀, hmissing⟩, hwaits⟩)
    | @added b isDirect queue left st heq hnew hhas =>
        have hroom := hroom.resolve_left (by rw [heq]; exact List.cons_ne_nil _ _)
        by_cases hparent : b.hash ∈ c.parents
        · -- the copy under the new block is released
          obtain ⟨o, ho, hhash⟩ := hwaits b.hash hparent hnew
          refine Or.inr (Or.inl ⟨(o.block, false), List.mem_append_left _ ?_, hhash⟩)
          refine List.mem_reverse.mpr (List.mem_map.mpr ⟨o, List.mem_filter.mpr ⟨ho, ?_⟩, rfl⟩)
          exact decide_eq_true (hroom.2 _ o ho)
        · have hsame : ∀ p ∈ c.parents, ops.has st p = ops.has s.chain p := by
            intro p hp
            have hne : p ≠ b.hash := fun heq => hparent (heq ▸ hp)
            rw [hhas, beq_eq_false_iff_ne.mpr hne, Bool.or_false]
          refine Or.inr (Or.inr ⟨c, hc, rfl, ⟨p₀, hp₀, (hsame p₀ hp₀).trans hmissing⟩, ?_⟩)
          intro q hq hqmissing
          obtain ⟨o, ho, hhash⟩ := hwaits q hq ((hsame q hq).symm.trans hqmissing)
          refine ⟨o, ?_, hhash⟩
          show o ∈ waitingFor (s.orphans.erase b.hash) q
          rw [waitingFor_erase, if_neg fun hb : b.hash = q => hparent (hb ▸ hq)]
          exact ho

/-- What waits in the pool waits for a parent that is missing. -/
def Filed (ops : ChainOps σ) (s : Intake σ) : Prop :=
  ∀ p, ∀ o ∈ waitingFor s.orphans p, ops.has s.chain p = false ∧ p ∈ o.block.parents

theorem Turn.filed {s' : Intake σ} (t : Turn ops s env s') (h : s.Filed ops) : s'.Filed ops := by
  cases t with
  | idle => exact h
  | known => exact h
  | waits p heq =>
      intro q o ho
      obtain ho | ⟨hq, rfl⟩ := mem_of_mem_bufferOrphan ho
      · exact h q o ho
      · obtain ⟨hparent, hmissing⟩ := List.mem_filter.mp hq
        exact ⟨by simpa using hmissing, hparent⟩
  | refused => exact h
  | added left st heq hnew hhas =>
      intro q o ho
      dsimp only at ho
      rw [waitingFor_erase] at ho
      split at ho
      · cases ho
      · rename_i hne
        obtain ⟨hmissing, hparent⟩ := h q o ho
        refine ⟨?_, hparent⟩
        show ops.has st q = false
        rw [hhas, hmissing, Bool.false_or]
        exact beq_eq_false_iff_ne.mpr (Ne.symm hne)

/-- The blocks after the first are not charged to the peer. -/
theorem Turn.settled {s' : Intake σ} (t : Turn ops s env s') (h : ∀ e ∈ s.queue.tail, e.2 = false) :
    ∀ e ∈ s'.queue, e.2 = false := by
  cases t with
  | idle heq =>
      rw [heq]
      exact fun e he => nomatch he
  | known heq =>
      rw [heq] at h
      exact h
  | waits p heq =>
      rw [heq] at h
      exact h
  | refused left penalty heq =>
      rw [heq] at h
      exact h
  | added left st heq =>
      rw [heq] at h
      intro e he
      obtain he | he := List.mem_append.mp he
      · obtain ⟨o, -, rfl⟩ := List.mem_map.mp (List.mem_reverse.mp he)
        rfl
      · exact h e he

end Intake

/-! ### Deliveries -/

/-- One call of `ingest_block`: the block, the budget of its sender, and what the
process reads at each turn. -/
structure Delivery where
  block : Block
  budget : Option StarkVerifyBudget := none
  env : Env
  later : List Env := []

/-- The sender may still have a block verified. -/
def Delivery.Granted (d : Delivery) : Prop :=
  ∀ budget, d.budget = some budget → (budget.tryConsume d.env.now).1 = true

namespace Intake

variable {ops : ChainOps σ} {s : Intake σ} {blocks : Set Block}

def begin (s : Intake σ) (d : Delivery) : Intake σ :=
  { s with queue := [(d.block, true)], budget := d.budget, penalty := 0 }

def ingest (ops : ChainOps σ) (s : Intake σ) (d : Delivery) : Intake σ :=
  (d.env :: d.later).foldl (pass ops) (s.begin d)

def run (ops : ChainOps σ) (s : Intake σ) (ds : List Delivery) : Intake σ := ds.foldl (ingest ops) s

/-- Every turn that takes a block finds room. -/
def Steady (ops : ChainOps σ) : Intake σ → List Env → Prop
  | _, [] => True
  | s, env :: envs => (s.queue = [] ∨ s.Roomy env) ∧ Steady ops (s.pass ops env) envs

/-- Every call is steady and runs to its end. -/
def Calm (ops : ChainOps σ) : Intake σ → List Delivery → Prop
  | _, [] => True
  | s, d :: ds => Steady ops (s.begin d) (d.env :: d.later) ∧ (s.ingest ops d).queue = [] ∧
      Calm ops (s.ingest ops d) ds

theorem foldl_pass_kept (laws : ops.ByParents) {envs : List Env} (hsettled : ∀ e ∈ s.queue, e.2 = false)
    (hsteady : Steady ops s envs) (hwithin : s.Within blocks) {h : Hash} (hkept : s.Kept ops blocks h) :
    (envs.foldl (pass ops) s).Kept ops blocks h := by
  induction envs generalizing s with
  | nil => exact hkept
  | cons env envs ih =>
      have t := turn laws s env
      refine ih (t.settled fun e he => hsettled e (List.mem_of_mem_tail he)) hsteady.2 (t.within hwithin) ?_
      refine t.kept hwithin hsteady.1 ?_ hkept
      intro b queue budget heq
      have := hsettled (b, true) (heq ▸ List.mem_cons_self ..)
      cases this

theorem foldl_pass_within (laws : ops.ByParents) {envs : List Env} (hwithin : s.Within blocks) :
    (envs.foldl (pass ops) s).Within blocks := by
  induction envs generalizing s with
  | nil => exact hwithin
  | cons env envs ih => exact ih ((turn laws s env).within hwithin)

theorem foldl_pass_filed (laws : ops.ByParents) {envs : List Env} (h : s.Filed ops) :
    (envs.foldl (pass ops) s).Filed ops := by
  induction envs generalizing s with
  | nil => exact h
  | cons env envs ih => exact ih ((turn laws s env).filed h)

theorem foldl_pass_has (laws : ops.ByParents) {envs : List Env} {h : Hash} (hh : ops.has s.chain h = true) :
    ops.has (envs.foldl (pass ops) s).chain h = true := by
  induction envs generalizing s with
  | nil => exact hh
  | cons env envs ih => exact ih ((turn laws s env).has_mono hh)

omit [Crypto] in
theorem begin_within {d : Delivery} (hwithin : s.Within blocks) (hd : d.block ∈ blocks) :
    (s.begin d).Within blocks := by
  refine ⟨?_, hwithin.2⟩
  intro e he
  obtain rfl := List.mem_singleton.mp he
  exact hd

/-- A call keeps its own block and the blocks delivered before. -/
theorem ingest_kept (laws : ops.ByParents) {d : Delivery} (hgranted : d.Granted)
    (hsteady : Steady ops (s.begin d) (d.env :: d.later)) (hwithin : s.Within blocks)
    (hd : d.block ∈ blocks) {h : Hash} (hkept : s.queue = [] ∧ s.Kept ops blocks h ∨ d.block.hash = h) :
    (s.ingest ops d).Kept ops blocks h := by
  have t := turn laws (s.begin d) d.env
  have hbegin := begin_within hwithin hd
  refine foldl_pass_kept laws (t.settled fun e he => nomatch he) hsteady.2 (t.within hbegin) ?_
  refine t.kept hbegin hsteady.1 ?_ ?_
  · intro b queue budget _ hbudget
    exact hgranted budget hbudget
  · obtain ⟨hidle, hh | ⟨e, he, -⟩ | hwaits⟩ | rfl := hkept
    · exact Or.inl hh
    · rw [hidle] at he
      cases he
    · exact Or.inr (Or.inr hwaits)
    · exact Or.inr (Or.inl ⟨_, List.mem_singleton_self _, rfl⟩)

theorem run_kept (laws : ops.ByParents) {ds : List Delivery} (hgranted : ∀ d ∈ ds, d.Granted)
    (hcalm : Calm ops s ds) (hwithin : s.Within blocks) (hds : ∀ d ∈ ds, d.block ∈ blocks)
    (hidle : s.queue = []) : (s.run ops ds).queue = [] ∧ ∀ h,
      s.Kept ops blocks h ∨ (∃ d ∈ ds, d.block.hash = h) → (s.run ops ds).Kept ops blocks h := by
  induction ds generalizing s with
  | nil =>
      refine ⟨hidle, ?_⟩
      rintro h (hkept | ⟨d, hd, -⟩)
      · exact hkept
      · cases hd
  | cons d ds ih =>
      have hd := hds d (List.mem_cons_self ..)
      obtain ⟨hend, hall⟩ := ih (fun d hd => hgranted d (List.mem_cons_of_mem _ hd)) hcalm.2.2
        (foldl_pass_within laws (begin_within hwithin hd)) (fun d hd => hds d (List.mem_cons_of_mem _ hd))
        hcalm.2.1
      have hstep : ∀ h, s.queue = [] ∧ s.Kept ops blocks h ∨ d.block.hash = h →
          (s.ingest ops d).Kept ops blocks h := fun h =>
        ingest_kept laws (hgranted d (List.mem_cons_self ..)) hcalm.1 hwithin hd
      refine ⟨hend, ?_⟩
      rintro h (hkept | ⟨d', hd', hhash⟩)
      · exact hall h (Or.inl (hstep h (Or.inl ⟨hidle, hkept⟩)))
      · obtain rfl | hd' := List.mem_cons.mp hd'
        · exact hall h (Or.inl (hstep h (Or.inr hhash)))
        · exact hall h (Or.inr ⟨d', hd', hhash⟩)

theorem run_has (laws : ops.ByParents) {ds : List Delivery} {h : Hash} (hh : ops.has s.chain h = true) :
    ops.has (s.run ops ds).chain h = true := by
  induction ds generalizing s with
  | nil => exact hh
  | cons d ds ih => exact ih (foldl_pass_has laws (s := s.begin d) hh)

/-- A node that starts with an empty pool is filed, and stays so. -/
theorem run_filed (laws : ops.ByParents) {ds : List Delivery} (h : s.Filed ops) : (s.run ops ds).Filed ops := by
  induction ds generalizing s with
  | nil => exact h
  | cons d ds ih => exact ih (foldl_pass_filed laws (s := s.begin d) h)

omit [Crypto] in
theorem filed_empty (st : σ) : Filed ops { chain := st } := by
  intro p o ho
  have : waitingFor ∅ p = [] := by simp [waitingFor]
  rw [this] at ho
  cases ho

/-- A set of blocks, closed under parents above what the node has, is delivered
in some order, perhaps among others and repeatedly, while the pool has room. -/
structure Delivers (ops : ChainOps σ) (s : Intake σ) (ds : List Delivery) (S : Set Block) : Prop where
  idle : s.queue = []
  closed : ∀ b ∈ S, ∀ p ∈ b.parents, ops.has s.chain p = true ∨ ∃ a ∈ S, a.hash = p
  acyclic : WellFounded fun p h : Hash => ∃ b ∈ S, b.hash = h ∧ p ∈ b.parents
  delivered : ∀ b ∈ S, ∃ d ∈ ds, d.block = b
  copies : ∀ c, (∃ d ∈ ds, d.block = c) ∨ (∃ p, ∃ o ∈ waitingFor s.orphans p, o.block = c) →
    ∀ b ∈ S, c.hash = b.hash → c ∈ S ∨ c.parents = b.parents
  calm : Calm ops s ds

/-- **The order of delivery is irrelevant.** The queue of a call runs empty
whatever the clock shows; and once every block of the set was delivered, in any
order, every one of them is known and none of them waits. -/
theorem ingested_in_any_order (ops : ChainOps σ) (laws : ops.ByParents) :
    (∀ (s : Intake σ) (clock : Nat → Env),
      ∃ turns, (((List.range turns).map clock).foldl (pass ops) s).queue = []) ∧
    ∀ (s : Intake σ) (ds : List Delivery) (S : Set Block), Delivers ops s ds S → (∀ d ∈ ds, d.Granted) →
      (∀ b ∈ S, ops.has (s.run ops ds).chain b.hash = true) ∧
      (s.Filed ops → ∀ p, ∀ o ∈ waitingFor (s.run ops ds).orphans p, o.block ∉ S) := by
  refine ⟨terminates laws, ?_⟩
  intro s ds S hdelivers hgranted
  let blocks : Set Block := { c | (∃ d ∈ ds, d.block = c) ∨ ∃ p, ∃ o ∈ waitingFor s.orphans p, o.block = c }
  have hwithin : s.Within blocks := by
    refine ⟨?_, fun p o ho => Or.inr ⟨p, o, ho, rfl⟩⟩
    rw [hdelivers.idle]
    exact fun e he => nomatch he
  obtain ⟨hend, hkept⟩ := run_kept laws hgranted hdelivers.calm hwithin (fun d hd => Or.inl ⟨d, hd, rfl⟩)
    hdelivers.idle
  -- by induction on the parents: a copy that still waits has a missing parent of lower rank
  have hall : ∀ h, ∀ b ∈ S, b.hash = h → ops.has (s.run ops ds).chain h = true := by
    intro h
    induction h using hdelivers.acyclic.induction with
    | _ h ih =>
        rintro b hb rfl
        obtain ⟨d, hd, rfl⟩ := hdelivers.delivered b hb
        obtain hh | ⟨e, he, -⟩ | ⟨c, hc, hhash, ⟨p, hp, hmissing⟩, -⟩ := hkept d.block.hash (Or.inr ⟨d, hd, rfl⟩)
        · exact hh
        · rw [hend] at he
          cases he
        · obtain ⟨b', hb', hhash', hp'⟩ : ∃ b' ∈ S, b'.hash = d.block.hash ∧ p ∈ b'.parents := by
            obtain hcS | hsame := hdelivers.copies c hc d.block hb hhash
            · exact ⟨c, hcS, hhash, hp⟩
            · exact ⟨d.block, hb, rfl, hsame ▸ hp⟩
          have hparent : ops.has (s.run ops ds).chain p = true := by
            obtain hhas | ⟨a, ha, rfl⟩ := hdelivers.closed b' hb' p hp'
            · exact run_has laws hhas
            · exact ih a.hash ⟨b', hb', hhash', hp'⟩ a ha rfl
          rw [hparent] at hmissing
          cases hmissing
  refine ⟨fun b hb => hall b.hash b hb rfl, ?_⟩
  intro hfiled p o ho hmem
  obtain ⟨hmissing, hp⟩ := run_filed laws hfiled p o ho
  have hparent : ops.has (s.run ops ds).chain p = true := by
    obtain hhas | ⟨a, ha, rfl⟩ := hdelivers.closed o.block hmem p hp
    · exact run_has laws hhas
    · exact hall a.hash a ha rfl
  rw [hparent] at hmissing
  cases hmissing

end Intake

/-- `ingest_block` of a node is a delivery to its loop. -/
theorem Node.intake_ingestBlock (n : Node) (budget : StarkVerifyBudget) (env : Env) (later : List Env)
    (b : Block) : (n.ingestBlock budget env later b).intake
      = Intake.ingest chainOps { chain := n.chain, orphans := n.orphans }
          { block := b, budget := some budget, env := env, later := later } := by
  have hfold : ∀ (envs : List Env) (s : Node.Ingest),
      (envs.foldl Node.Ingest.pass s).intake = envs.foldl (Intake.pass chainOps) s.intake := by
    intro envs
    induction envs with
    | nil => exact fun s => rfl
    | cons env envs ih =>
        intro s
        rw [List.foldl_cons, ih, s.intake_pass, List.foldl_cons]
  exact hfold (env :: later) { node := n, budget := budget, queue := [(b, true)] }

/-! ### A chain of hashes -/

/-- A chain state that is the list of its hashes. -/
def knownHashes : ChainOps (List Hash) where
  has st h := st.contains h
  precheckBlock st _ b := if b.parents.all st.contains then .ok () else .error "Unknown parent block"
  addBlock st _ b := if b.parents.all st.contains then .ok (b.hash :: st) else .error "Unknown parent block"

theorem knownHashes_byParents : knownHashes.ByParents where
  waits := by
    intro st env b p _ hp hmissing
    refine ⟨"Unknown parent block", if_neg ?_, by decide⟩
    intro hall
    exact Bool.false_ne_true (hmissing.symm.trans (List.all_eq_true.mp hall p hp))
  passes := by
    intro st env b _ hall
    exact if_pos (List.all_eq_true.mpr hall)
  adds := by
    intro st env b _ hall
    refine ⟨b.hash :: st, if_pos (List.all_eq_true.mpr hall), ?_⟩
    intro h
    show (b.hash :: st).contains h = (st.contains h || h == b.hash)
    rw [List.contains_cons, Bool.or_comm]

omit [Crypto] in
theorem poolSize_empty : poolSize ∅ = 0 := Map.sumBy_empty List.length

omit [Crypto] in
theorem waitingFor_empty (p : Hash) : waitingFor ∅ p = [] := by simp [waitingFor]

theorem poolSize_wait_le (now : Nat) (b : Block) (orphans : ExtTreeMap Hash (List OrphanBlock)) (p : Hash) :
    poolSize (Node.bufferOrphan.wait now b orphans p) ≤ poolSize orphans + 1 := by
  have hinsert := Map.sumBy_insert List.length orphans p (waitingFor (Node.bufferOrphan.wait now b orphans p) p)
  have hvalue : Map.valueAt List.length orphans p = (waitingFor orphans p).length := by
    unfold Map.valueAt waitingFor
    cases orphans[p]? with
    | none => rfl
    | some waiting => rfl
  have hwait : (waitingFor (Node.bufferOrphan.wait now b orphans p) p).length ≤ (waitingFor orphans p).length + 1 := by
    rw [waitingFor_wait, if_pos rfl]
    split
    · omega
    · rw [List.length_append, List.length_singleton]
  have hsame : Node.bufferOrphan.wait now b orphans p
      = orphans.insert p (waitingFor (Node.bufferOrphan.wait now b orphans p) p) := by
    rw [waitingFor_wait, if_pos rfl]
    rfl
  rw [hsame]
  show Map.sumBy List.length _ ≤ Map.sumBy List.length _ + 1
  omega

omit [Crypto] in
theorem poolSize_erase_le (orphans : ExtTreeMap Hash (List OrphanBlock)) (h : Hash) :
    poolSize (orphans.erase h) ≤ poolSize orphans := by
  have := Map.sumBy_erase List.length orphans h
  show Map.sumBy List.length _ ≤ Map.sumBy List.length _
  omega

end Loop

namespace Sample

/-- A block of this height over one parent. -/
def childOf (parent number : Nat) : Block :=
  { genesisBlock with height := .ofNat number, parents := [blockHash parent 0] }

theorem hash_childOf {parent number : Nat} (h : number < 2 ^ 64) :
    (childOf parent number).hash = blockHash number 0 := by
  rw [hash_eq]
  show blockHash (UInt64.ofNat number).toNat (0 : UInt64).toNat = _
  rw [UInt64.toNat_ofNat_of_lt' h]
  rfl

theorem acyclic_childOf {S : Set Block} (h : ∀ b ∈ S, ∃ n < 100, b = childOf n (n + 1)) :
    WellFounded fun p q : Hash => ∃ b ∈ S, b.hash = q ∧ p ∈ b.parents := by
  refine Subrelation.wf ?_ (measure Hash.toNat).wf
  rintro p q ⟨b, hb, rfl, hp⟩
  obtain ⟨n, hn, rfl⟩ := h b hb
  obtain rfl := List.mem_singleton.mp hp
  show (blockHash n 0).toNat < (childOf n (n + 1)).hash.toNat
  rw [hash_childOf (by omega), blockHash_toNat (by omega) (by norm_num), blockHash_toNat (by omega) (by norm_num)]
  omega

/-- The chain state that has these blocks. -/
def having (numbers : List Nat) : List Hash := numbers.map fun k => blockHash k 0

theorem has_having {numbers : List Nat} (hnumbers : ∀ k ∈ numbers, k < 2 ^ 64) {n : Nat} (hn : n < 2 ^ 64) :
    knownHashes.has (having numbers) (blockHash n 0) = numbers.contains n := by
  show List.contains _ _ = _
  rw [Bool.eq_iff_iff, List.contains_iff_mem, List.contains_iff_mem, having, List.mem_map]
  constructor
  · rintro ⟨k, hk, heq⟩
    obtain rfl := (blockHash_inj (hnumbers k hk) (by norm_num) hn (by norm_num) heq).1
    exact hk
  · exact fun h => ⟨n, h, rfl⟩

theorem roomy_empty (st : List Hash) (budget : Option StarkVerifyBudget) (queue : List (Block × Bool))
    (penalty : Nat) : Intake.Roomy ⟨st, ∅, budget, queue, penalty⟩ env := by
  refine ⟨?_, ?_⟩
  · show poolSize ∅ < maxOrphans
    rw [poolSize_empty]
    decide
  · intro p o ho
    rw [waitingFor_empty] at ho
    cases ho

/-- The budget of a peer that had its eight blocks of the window verified. -/
def usedUp : StarkVerifyBudget where
  windowStart := env.now
  count := 8
  limit := 8
  windowMs := 10000

theorem pass_refused {s : Intake (List Hash)} {b : Block} (hbudget : s.budget = some usedUp)
    (hqueue : s.queue = [(b, true)]) (hnew : knownHashes.has s.chain b.hash = false)
    (hparents : ∀ p ∈ b.parents, knownHashes.has s.chain p = true) :
    s.pass knownHashes env = { s with
      budget := some (usedUp.tryConsume env.now).2, queue := [], penalty := satAdd32 s.penalty invalidStarkPenalty } := by
  have hspend : Intake.spend { s with queue := [] } env true
      = (false, { s with budget := some (usedUp.tryConsume env.now).2, queue := [] }) := by
    unfold Intake.spend
    rw [hbudget]
    rfl
  unfold Intake.pass
  rw [hqueue]
  dsimp only
  rw [hnew, if_neg (by simp)]
  exact Intake.process_refused (s := { s with queue := [] })
    (knownHashes_byParents.passes env hnew hparents) hspend

/-- **A block can be lost**: it is dropped, not buffered, when its sender used up
the budget, although its parent is known. -/
theorem refused_delivery_lost : ∃ (s : Intake (List Hash)) (ds : List Delivery) (S : Set Block),
    Intake.Delivers knownHashes s ds S ∧ s.orphans = ∅ ∧ (∀ d ∈ ds, d.block ∈ S) ∧
      ¬∀ b ∈ S, knownHashes.has (s.run knownHashes ds).chain b.hash = true := by
  let d : Delivery := { block := childOf 0 1, budget := some usedUp, env := env }
  let s : Intake (List Hash) := { chain := having [0] }
  have hnew : knownHashes.has s.chain (childOf 0 1).hash = false := by
    rw [hash_childOf (by norm_num)]
    exact has_having (by simp) (by norm_num)
  have hparents : ∀ p ∈ (childOf 0 1).parents, knownHashes.has s.chain p = true := by
    intro p hp
    obtain rfl := List.mem_singleton.mp hp
    exact has_having (by simp) (by norm_num)
  have hingest : s.ingest knownHashes d = { s.begin d with
      budget := some (usedUp.tryConsume env.now).2
      queue := []
      penalty := satAdd32 (s.begin d).penalty invalidStarkPenalty } := by
    unfold Intake.ingest
    rw [List.foldl_cons, List.foldl_nil]
    exact pass_refused rfl rfl hnew hparents
  refine ⟨s, [d], {childOf 0 1}, ⟨rfl, ?_, ?_, ?_, ?_, ?_⟩, rfl, ?_, ?_⟩
  · rintro b rfl p hp
    exact Or.inl (hparents p hp)
  · exact acyclic_childOf fun b hb => ⟨0, by norm_num, hb⟩
  · rintro b rfl
    exact ⟨d, List.mem_singleton_self d, rfl⟩
  · rintro c (⟨e, he, rfl⟩ | ⟨p, o, ho, -⟩) b rfl -
    · obtain rfl := List.mem_singleton.mp he
      exact Or.inl rfl
    · rw [show waitingFor s.orphans p = [] from waitingFor_empty p] at ho
      cases ho
  · refine ⟨⟨Or.inr (roomy_empty _ _ _ _), trivial⟩, ?_, trivial⟩
    rw [hingest]
  · intro e he
    obtain rfl := List.mem_singleton.mp he
    rfl
  · intro hall
    have hhas := hall (childOf 0 1) rfl
    rw [Intake.run, List.foldl_cons, List.foldl_nil, hingest] at hhas
    exact Bool.false_ne_true (hnew.symm.trans hhas)

theorem pass_added {s : Intake (List Hash)} {b : Block} {isDirect : Bool} {queue : List (Block × Bool)}
    (hbudget : s.budget = none) (hqueue : s.queue = (b, isDirect) :: queue)
    (hnew : knownHashes.has s.chain b.hash = false)
    (hparents : ∀ p ∈ b.parents, knownHashes.has s.chain p = true) :
    s.pass knownHashes env = Intake.accept { s with queue := queue } env b (b.hash :: s.chain) := by
  have hspend : Intake.spend { s with queue := queue } env isDirect = (true, { s with queue := queue }) := by
    unfold Intake.spend
    dsimp only
    rw [hbudget]
    cases isDirect with
    | false => rfl
    | true => rfl
  unfold Intake.pass
  rw [hqueue]
  dsimp only
  rw [hnew, if_neg (by simp)]
  exact Intake.process_added (s := { s with queue := queue })
    (knownHashes_byParents.passes env hnew hparents) hspend (if_pos (List.all_eq_true.mpr hparents))

theorem pass_waits {s : Intake (List Hash)} {b : Block} {isDirect : Bool} {queue : List (Block × Bool)}
    {p : Hash} (hqueue : s.queue = (b, isDirect) :: queue) (hnew : knownHashes.has s.chain b.hash = false)
    (hp : b.parents = [p]) (hmissing : knownHashes.has s.chain p = false) :
    s.pass knownHashes env
      = { s with queue := queue, orphans := bufferOrphan env.now [p] b s.orphans } := by
  have hfilter : (b.parents.filter fun p => !knownHashes.has s.chain p) = [p] := by
    rw [hp]
    simp [hmissing]
  obtain ⟨message, heq, hmention⟩ := knownHashes_byParents.waits env hnew
    (hp ▸ List.mem_singleton_self p : p ∈ b.parents) hmissing
  unfold Intake.pass
  rw [hqueue]
  dsimp only
  rw [hnew, if_neg (by simp)]
  unfold Intake.process
  dsimp only
  rw [heq]
  dsimp only
  rw [Intake.refuse, if_pos hmention, Intake.orphan, hfilter]

/-- The pool with one block in it. -/
def onePending : ExtTreeMap Hash (List OrphanBlock) :=
  bufferOrphan env.now [blockHash 1 0] (childOf 1 2) ∅

theorem onePending_eq : onePending = Node.bufferOrphan.wait env.now (childOf 1 2)
    (Node.pruneOrphans env.now ∅) (blockHash 1 0) := by
  have hle := poolSize_prune env.now ∅
  rw [poolSize_empty] at hle
  unfold onePending bufferOrphan
  dsimp only
  rw [if_neg (by unfold maxOrphans; omega)]
  rfl

theorem waitingFor_onePending (p : Hash) :
    waitingFor onePending p = if blockHash 1 0 = p then [⟨childOf 1 2, env.now⟩] else [] := by
  have hempty : ∀ q, waitingFor (Node.pruneOrphans env.now ∅) q = [] := by
    intro q
    rw [waitingFor_prune, waitingFor_empty]
    rfl
  rw [onePending_eq, waitingFor_wait, hempty, hempty]
  rfl

theorem poolSize_onePending : poolSize onePending ≤ 1 := by
  have hwait := poolSize_wait_le env.now (childOf 1 2) (Node.pruneOrphans env.now ∅) (blockHash 1 0)
  have hprune := poolSize_prune env.now ∅
  rw [poolSize_empty] at hprune
  rw [onePending_eq]
  omega

/-- The delivery of the child and then of its parent. -/
def childFirst : List Delivery :=
  [{ block := childOf 1 2, env := env }, { block := childOf 0 1, env := env, later := [env] }]

/-- The node after the child, and after the first turn for its parent. -/
def afterChild : Intake (List Hash) where
  chain := having [0]
  orphans := onePending

def afterParent : Intake (List Hash) where
  chain := having [1, 0]
  orphans := onePending.erase (childOf 0 1).hash
  queue := [(childOf 1 2, false)]

theorem roomy_afterChild (d : Delivery) : (afterChild.begin d).Roomy env := by
  refine ⟨lt_of_le_of_lt poolSize_onePending (by decide), ?_⟩
  intro p o ho
  have hmem : o ∈ waitingFor onePending p := ho
  rw [waitingFor_onePending] at hmem
  split at hmem
  · obtain rfl := List.mem_singleton.mp hmem
    show env.now - env.now < orphanTtlMs
    rw [Nat.sub_self]
    decide
  · cases hmem

theorem roomy_afterParent : afterParent.Roomy env := by
  obtain ⟨hsize, hyoung⟩ := roomy_afterChild { block := childOf 0 1, env := env }
  refine ⟨lt_of_le_of_lt (poolSize_erase_le _ _) hsize, ?_⟩
  intro p o ho
  have hmem : o ∈ waitingFor (onePending.erase (childOf 0 1).hash) p := ho
  rw [waitingFor_erase] at hmem
  split at hmem
  · cases hmem
  · exact hyoung p o hmem

theorem pass_child : (Intake.begin { chain := having [0] } { block := childOf 1 2, env := env }).pass knownHashes env
    = afterChild := by
  refine (pass_waits rfl ?_ rfl ?_).trans rfl
  · rw [hash_childOf (by norm_num)]
    exact has_having (by simp) (by norm_num)
  · exact has_having (by simp) (by norm_num)

theorem released_onePending (s : Intake (List Hash)) (h : s.orphans = onePending) :
    s.released env (childOf 0 1).hash = [(childOf 1 2, false)] := by
  unfold Intake.released
  rw [h, waitingFor_onePending, if_pos (hash_childOf (by norm_num)).symm, List.filter_cons_of_pos]
  · rfl
  · show decide (env.now - env.now < orphanTtlMs) = true
    rw [Nat.sub_self]
    decide

theorem pass_parent : (afterChild.begin { block := childOf 0 1, env := env, later := [env] }).pass knownHashes env
    = afterParent := by
  have hhash : (childOf 0 1).hash = blockHash 1 0 := hash_childOf (by norm_num)
  have hnew : knownHashes.has (having [0]) (childOf 0 1).hash = false := by
    rw [hhash]
    exact has_having (by simp) (by norm_num)
  have hparents : ∀ p ∈ (childOf 0 1).parents, knownHashes.has (having [0]) p = true := by
    intro p hp
    obtain rfl := List.mem_singleton.mp hp
    exact has_having (by simp) (by norm_num)
  rw [pass_added (s := afterChild.begin { block := childOf 0 1, env := env, later := [env] }) (b := childOf 0 1)
    rfl rfl hnew hparents]
  unfold Intake.accept
  rw [released_onePending _ rfl]
  show Intake.mk ((childOf 0 1).hash :: having [0]) _ _ _ _ = Intake.mk (having [1, 0]) _ _ _ _
  rw [hhash]
  rfl

theorem pass_released : (afterParent.pass knownHashes env).queue = [] ∧
    (afterParent.pass knownHashes env).chain = (childOf 1 2).hash :: having [1, 0] := by
  have hhash : (childOf 1 2).hash = blockHash 2 0 := hash_childOf (by norm_num)
  have hnew : knownHashes.has (having [1, 0]) (childOf 1 2).hash = false := by
    rw [hhash]
    exact has_having (by simp) (by norm_num)
  have hparents : ∀ p ∈ (childOf 1 2).parents, knownHashes.has (having [1, 0]) p = true := by
    intro p hp
    obtain rfl := List.mem_singleton.mp hp
    exact has_having (by simp) (by norm_num)
  have hnone : waitingFor (onePending.erase (childOf 0 1).hash) (childOf 1 2).hash = [] := by
    rw [waitingFor_erase, waitingFor_onePending, hhash, if_neg (blockHash_ne (by norm_num) (by norm_num) (by norm_num))]
    split
    · rfl
    · rfl
  rw [pass_added (s := afterParent) (b := childOf 1 2) rfl rfl hnew hparents]
  refine ⟨?_, rfl⟩
  show List.reverse (List.map _ (List.filter _ (waitingFor (onePending.erase (childOf 0 1).hash) _))) ++ [] = []
  rw [hnone]
  rfl

theorem ingest_child : Intake.ingest knownHashes { chain := having [0] } { block := childOf 1 2, env := env }
    = afterChild := by
  unfold Intake.ingest
  rw [List.foldl_cons, List.foldl_nil, pass_child]

theorem ingest_parent : afterChild.ingest knownHashes { block := childOf 0 1, env := env, later := [env] }
    = afterParent.pass knownHashes env := by
  unfold Intake.ingest
  rw [List.foldl_cons, pass_parent, List.foldl_cons, List.foldl_nil]

theorem childFirst_delivers :
    Intake.Delivers knownHashes { chain := having [0] } childFirst {childOf 1 2, childOf 0 1} where
  idle := rfl
  closed := by
    rintro b (rfl | rfl) p hp
    · obtain rfl := List.mem_singleton.mp hp
      exact Or.inr ⟨childOf 0 1, Or.inr rfl, hash_childOf (by norm_num)⟩
    · obtain rfl := List.mem_singleton.mp hp
      exact Or.inl (has_having (by simp) (by norm_num))
  acyclic := by
    refine acyclic_childOf ?_
    rintro b (rfl | rfl)
    · exact ⟨1, by norm_num, rfl⟩
    · exact ⟨0, by norm_num, rfl⟩
  delivered := by
    rintro b (rfl | rfl)
    · exact ⟨_, List.mem_cons_self .., rfl⟩
    · exact ⟨_, List.mem_cons_of_mem _ (List.mem_singleton_self _), rfl⟩
  copies := by
    rintro c (⟨d, hd, rfl⟩ | ⟨p, o, ho, -⟩) b hb -
    · obtain rfl | hd := List.mem_cons.mp hd
      · exact Or.inl (Or.inl rfl)
      · obtain rfl := List.mem_singleton.mp hd
        exact Or.inl (Or.inr rfl)
    · rw [waitingFor_empty] at ho
      cases ho
  calm := by
    refine ⟨⟨Or.inr (roomy_empty _ _ _ _), trivial⟩, ?_, ?_⟩
    · rw [ingest_child]
      rfl
    · rw [ingest_child]
      refine ⟨⟨Or.inr (roomy_afterChild _), ?_⟩, ?_, trivial⟩
      · rw [pass_parent]
        exact ⟨Or.inr roomy_afterParent, trivial⟩
      · rw [ingest_parent]
        exact pass_released.1

/-- The child comes before its parent: both are known afterwards, and nothing waits. -/
theorem child_first_ingested :
    (∀ b ∈ ({childOf 1 2, childOf 0 1} : Set Block),
      knownHashes.has (Intake.run knownHashes { chain := having [0] } childFirst).chain b.hash = true) ∧
    ∀ p, ∀ o ∈ waitingFor (Intake.run knownHashes { chain := having [0] } childFirst).orphans p,
      o.block ∉ ({childOf 1 2, childOf 0 1} : Set Block) := by
  obtain ⟨hhas, hnone⟩ := (Intake.ingested_in_any_order knownHashes knownHashes_byParents).2 _ _ _
    childFirst_delivers (by
      intro d hd budget hbudget
      obtain rfl | hd := List.mem_cons.mp hd
      · cases hbudget
      · obtain rfl := List.mem_singleton.mp hd
        cases hbudget)
  exact ⟨hhas, hnone (Intake.filed_empty _)⟩

end Sample

end HassanNode
