import Mathlib
import HassanNode.Consensus.ChainState
import HassanNode.Lib.Map

/-!
# HassanNode.Net.Stratum

The stratum endpoint for miners (`stratum.rs`): `mining.authorize`, `mining.submit` and
`make_notify`, with the limits on workers, bans and replayed shares.

A submit enters its worker in the table without the check of `authorize`, and `authorize`
replaces the record of a worker, ban included; the last job id comes back when the job
counter is used up. In a run without such calls the limits hold
(`StratumServer.limits_hold`). What a call does to the record of the worker and to the
jobs is said once (`judge_ban`, `judge_accepts`, `judge_jobs`).
-/

namespace HassanNode

open Std (ExtTreeMap)

/-! ### JSON -/

/-- `serde_json::Value`. A number that is no `u64` is kept as its numeral. -/
inductive Json
  | null
  | bool (b : Bool)
  | number (n : UInt64)
  | otherNumber (numeral : Bytes)
  | string (s : Bytes)
  | array (values : List Json)
  | object (fields : List (Bytes × Json))

namespace Json

def get (key : Bytes) : Json → Option Json
  | object fields => (fields.find? fun field => field.1 = key).map Prod.snd
  | _ => none

def asStr : Json → Option Bytes
  | string s => some s
  | _ => none

def asArray : Json → Option (List Json)
  | array values => some values
  | _ => none

def asU64 : Json → Option Nat
  | number n => some n.toNat
  | _ => none

def isNull : Json → Bool
  | null => true
  | _ => false

end Json

/-- The format `:x` of a number. -/
def lowerHex (n : Nat) : Bytes :=
  if n = 0 then [Address.hexDigit 0] else (Nat.digits 16 n).reverse.map Address.hexDigit

/-- The number a format spells. -/
def lowerHexValue (s : Bytes) : Nat := Nat.ofDigits 16 ((s.map fun c => (Address.hexValue c).getD 0).reverse)

theorem hexValue_hexDigit : ∀ d < 16, (Address.hexValue (Address.hexDigit d)).getD 0 = d := by decide +kernel

theorem lowerHexValue_lowerHex (n : Nat) : lowerHexValue (lowerHex n) = n := by
  rw [lowerHexValue, lowerHex]
  split
  · subst n
    rw [List.map_singleton, hexValue_hexDigit 0 (by norm_num)]
    rfl
  · have hdigits : (Nat.digits 16 n).map ((fun c => (Address.hexValue c).getD 0) ∘ Address.hexDigit) = Nat.digits 16 n := by
      refine (List.map_congr_left fun d hd => ?_).trans (List.map_id _)
      exact hexValue_hexDigit d (Nat.digits_lt_base (by norm_num) hd)
    rw [List.map_reverse, List.map_reverse, List.reverse_reverse, List.map_map, hdigits, Nat.ofDigits_digits]

theorem lowerHex_injective : Function.Injective lowerHex := Function.LeftInverse.injective lowerHexValue_lowerHex

/-- The format `:08x` of a number. -/
def lowerHex8 (n : Nat) : Bytes := (lowerHex n).leftpad 8 (Address.hexDigit 0)

/-- `u64::from_str_radix(s, 16)`: an optional plus sign and at least one digit of either case. -/
def fromStrRadix16 (s : Bytes) : Option Nat := do
  let digits := if s.head? = some 43 then s.tail else s
  if digits = [] then none
  else
    let values ← digits.mapM Address.hexValue
    let n := values.foldl (fun acc d => acc * 16 + d) 0
    if n ≤ u64Max then some n else none

def versionbitsTopBits : UInt32 := 0x20000000
def versionbitsNumBits : Nat := 29

/-- `versionbits::miner_version`. -/
def minerVersion (signals : List Nat) : UInt32 :=
  signals.foldl (fun v bit => if bit < versionbitsNumBits then v ||| (1 <<< UInt32.ofNat bit) else v) versionbitsTopBits

/-! ### State -/

def defaultShareDifficulty : Nat := 16
def minShareDifficulty : Nat := 1
def maxShareDifficulty : Nat := 1000000
def maxStratumWorkers : Nat := 256
def maxSubmitsPerWindow : Nat := 120
def submitWindowMs : Nat := 60000
def maxConsecutiveRejects : Nat := 32
def workerBanMs : Nat := 60000
def maxJobAgeMs : Nat := 120000
def maxNoncesPerJob : Nat := 4096

structure StratumShare where
  worker : Bytes
  jobId : Bytes
  nonce : Nat
  blockHash : Hash
  difficulty : Nat
  accepted : Bool

structure WorkerState where
  authorized : Bool
  shareDiff : Nat
  accepted : Nat
  rejected : Nat
  consecutiveRejects : Nat
  windowStartMs : Nat
  windowSubmits : Nat
  bannedUntilMs : Nat

structure Job where
  id : Bytes
  templateHash : Hash
  difficulty : Nat
  createdMs : Nat
  seenNonces : Finset Nat

structure StratumServer where
  workers : ExtTreeMap Bytes WorkerState
  jobs : ExtTreeMap Bytes Job
  shares : List StratumShare
  nextJob : Nat
  password : Option Bytes

/-- What a call meets: the clock, the chain, and the order in which the map of jobs lists
its keys. `blockTemplate` is what `get_block_template` makes of the chain. -/
structure Moment where
  now : Nat
  chain : ChainState
  labEasyPow : Bool
  blockTemplate : Json
  jobOrder : List Bytes → List Bytes
  jobOrder_perm : ∀ ids, (jobOrder ids).Perm ids

/-- The record of a worker that is entered at an instant. -/
def WorkerState.fresh (authorized : Bool) (now : Nat) : WorkerState where
  authorized := authorized
  shareDiff := defaultShareDifficulty
  accepted := 0
  rejected := 0
  consecutiveRejects := 0
  windowStartMs := now
  windowSubmits := 0
  bannedUntilMs := 0

namespace StratumServer

/-- `new`, with the value of the password variable. -/
def new (password : Option Bytes) : StratumServer where
  workers := ∅
  jobs := ∅
  shares := []
  nextJob := 1
  password := password.filter (· ≠ [])

def extranonce1 : Bytes := Address.hexEncode [0x48, 0x53, 0x4e, 0x01]

def subscribe : Except Bytes Json :=
  .ok (.array [.array [.array [.string (utf8 "mining.notify"), .string (utf8 "hn")]], .string extranonce1, .number 4])

/-! ### Authorization -/

/-- The worker and the password of `authorize`. -/
def credentials (params : Json) : Bytes × Bytes :=
  let arr := params.asArray
  let worker := ((arr.bind (·[0]?)).bind Json.asStr).getD (utf8 "default")
  let password := ((arr.bind (·[1]?)).bind Json.asStr).getD []
  (worker, password)

def authorize (s : StratumServer) (now : Nat) (params : Json) : StratumServer × Except Bytes Json :=
  let (worker, password) := credentials params
  match s.password with
  | none => (s, .error (utf8 "stratum auth not configured — set HASSAN_STRATUM_PASSWORD"))
  | some expected =>
    if password ≠ expected then (s, .error (utf8 "unauthorized"))
    else if worker ∉ s.workers ∧ s.workers.size ≥ maxStratumWorkers then (s, .error (utf8 "too many stratum workers"))
    else ({ s with workers := s.workers.insert worker (WorkerState.fresh true now) }, .ok (.bool true))

/-! ### Jobs -/

/-- Drop the older half of too many jobs. -/
def trimJobs (m : Moment) (jobs : ExtTreeMap Bytes Job) : ExtTreeMap Bytes Job :=
  if jobs.size > 256 then
    let byAge := (m.jobOrder jobs.keys).filterMap fun id => jobs[id]?.map fun job => (id, job.createdMs)
    let byAge := byAge.mergeSort fun a b => decide (a.2 ≤ b.2)
    (byAge.take (jobs.size / 2)).foldl (fun jobs aged => jobs.erase aged.1) jobs
  else jobs

section

variable [Crypto]

/-- The hash a job is named by. -/
def templateHash (jobId : Bytes) (parents : List Hash) (difficulty : Nat) : Hash :=
  Crypto.blake3 (utf8 "hassan-stratum-job-v1" ++ jobId ++ parents.flatMap Hash.asBytes ++ Bincode.u64 difficulty)

def makeNotify (s : StratumServer) (m : Moment) : StratumServer × Json :=
  let parents := m.chain.tips
  let difficulty := m.chain.expectedDifficultyAt m.labEasyPow parents m.now
  let jobId := lowerHex s.nextJob
  let templateHash := templateHash jobId parents difficulty
  let jobs := trimJobs m (s.jobs.insert jobId ⟨jobId, templateHash, difficulty, m.now, ∅⟩)
  ({ s with nextJob := satAdd64 s.nextJob 1, jobs := jobs },
    .array [.string jobId, .string (Address.hexEncode templateHash.asBytes), .string [], .string [],
      .array (parents.map fun p => .string (Address.hexEncode p.asBytes)),
      .string (lowerHex8 (minerVersion [0, 1, 2]).toNat), .string (lowerHex difficulty), .string (lowerHex m.now),
      .bool true])

/-! ### Shares -/

/-- The parameters of a submit. -/
structure Submission where
  worker : Bytes
  jobId : Bytes
  nonce : Nat
  deriving DecidableEq

def submission (params : Json) : Except Bytes Submission :=
  match params.asArray with
  | none => .error (utf8 "params must be array")
  | some arr =>
    let worker := (arr[0]?.bind Json.asStr).getD (utf8 "default")
    match arr[1]?.bind Json.asStr with
    | none => .error (utf8 "missing job_id")
    | some jobId =>
      match arr[2]?.bind fun v => v.asU64.or (v.asStr.bind fromStrRadix16) with
      | none => .error (utf8 "missing nonce")
      | some nonce => .ok ⟨worker, jobId, nonce⟩

/-- Count a rejected share. -/
def countReject (w : WorkerState) : WorkerState :=
  { w with rejected := satAdd64 w.rejected 1, consecutiveRejects := min (w.consecutiveRejects + 1) (2 ^ 32 - 1) }

/-- Ban a worker with too many rejects in a row. -/
def banRejects (now : Nat) (w : WorkerState) : WorkerState :=
  if w.consecutiveRejects ≥ maxConsecutiveRejects then { w with bannedUntilMs := satAdd64 now workerBanMs } else w

/-- Count a submit in its window. -/
def countSubmit (now : Nat) (w : WorkerState) : WorkerState :=
  let w := if now - w.windowStartMs ≥ submitWindowMs then { w with windowStartMs := now, windowSubmits := 0 } else w
  { w with windowSubmits := min (w.windowSubmits + 1) (2 ^ 32 - 1) }

/-- The target of a share. -/
def shareTarget (w : WorkerState) (job : Job) : Nat :=
  min (min (max w.shareDiff minShareDifficulty) maxShareDifficulty) (max job.difficulty minShareDifficulty)

/-- The hash of a share. -/
def shareHash (job : Job) (nonce : Nat) : Hash :=
  Crypto.blake3 (utf8 "hassan-stratum-share-v1" ++ job.templateHash.asBytes ++ Bincode.u64 nonce)

/-- The record of a worker whose share meets the target. -/
def credit (w : WorkerState) : WorkerState :=
  let w := { w with accepted := satAdd64 w.accepted 1, consecutiveRejects := 0 }
  if w.accepted % 20 = 0 then { w with shareDiff := min (min (w.shareDiff * 2) u64Max) maxShareDifficulty } else w

/-- The record of a worker whose share misses the target. -/
def debit (now : Nat) (w : WorkerState) : WorkerState :=
  let w := banRejects now (countReject w)
  if w.rejected > 5 ∧ w.shareDiff > minShareDifficulty then
    { w with shareDiff := max (w.shareDiff / 2) minShareDifficulty }
  else w

/-- What a submit leaves: the record of its worker, the jobs, and the share if it came to one. -/
structure Judged where
  worker : WorkerState
  jobs : ExtTreeMap Bytes Job
  share : Option StratumShare
  answer : Except Bytes Json

/-- The part of `submit` from the job on. -/
def judgeShare (now : Nat) (w : WorkerState) (jobs : ExtTreeMap Bytes Job) (sub : Submission) : Judged :=
  match jobs[sub.jobId]? with
  | none => ⟨w, jobs, none, .error (utf8 "unknown job")⟩
  | some job =>
    if job.id ≠ sub.jobId then ⟨w, jobs, none, .error (utf8 "job id mismatch")⟩
    else if now - job.createdMs > maxJobAgeMs then ⟨countReject w, jobs, none, .error (utf8 "stale job")⟩
    else if sub.nonce ∈ job.seenNonces then
      ⟨banRejects now (countReject w), jobs, none, .error (utf8 "duplicate share nonce")⟩
    else
      let seen := insert sub.nonce job.seenNonces
      if seen.card > maxNoncesPerJob then
        ⟨w, jobs.erase sub.jobId, none, .error (utf8 "job nonce budget exhausted")⟩
      else
        let jobs := jobs.insert sub.jobId { job with seenNonces := seen }
        let target := shareTarget w job
        let hash := shareHash job sub.nonce
        let meet := verifyPow hash (UInt64.ofNat target)
        let share := ⟨sub.worker, sub.jobId, sub.nonce, hash, target, meet⟩
        if meet then ⟨credit w, jobs, some share, .ok (.bool true)⟩
        else ⟨debit now w, jobs, some share, .error (utf8 "low difficulty share")⟩

/-- The part of `submit` from the record of the worker on. -/
def judge (now : Nat) (w : WorkerState) (jobs : ExtTreeMap Bytes Job) (sub : Submission) : Judged :=
  if ¬ w.authorized then
    ⟨{ w with rejected := satAdd64 w.rejected 1 }, jobs, none, .error (utf8 "unauthorized")⟩
  else if now < w.bannedUntilMs then ⟨w, jobs, none, .error (utf8 "worker temporarily banned")⟩
  else
    let w := countSubmit now w
    if w.windowSubmits > maxSubmitsPerWindow then
      ⟨{ w with bannedUntilMs := satAdd64 now workerBanMs }, jobs, none, .error (utf8 "submit rate limit exceeded")⟩
    else judgeShare now w jobs sub

/-- Remember a share; of too many the last 5000 stay. -/
def pushShare (shares : List StratumShare) (share : StratumShare) : List StratumShare :=
  let shares := shares ++ [share]
  if shares.length > 10000 then shares.drop (shares.length - 5000) else shares

/-- The record a submit finds, or enters. -/
def workerOf (s : StratumServer) (now : Nat) (worker : Bytes) : WorkerState :=
  (s.workers[worker]?).getD (WorkerState.fresh false now)

def submit (s : StratumServer) (now : Nat) (params : Json) : StratumServer × Except Bytes Json :=
  match submission params with
  | .error e => (s, .error e)
  | .ok sub =>
    let judged := judge now (s.workerOf now sub.worker) s.jobs sub
    ({ s with
        workers := s.workers.insert sub.worker judged.worker, jobs := judged.jobs,
        shares := judged.share.elim s.shares (pushShare s.shares) }, judged.answer)

/-! ### Calls -/

def methodOf (req : Json) : Bytes := ((req.get (utf8 "method")).bind Json.asStr).getD []
def paramsOf (req : Json) : Json := (req.get (utf8 "params")).getD (.array [])

/-- The call of a method. -/
def dispatch (s : StratumServer) (m : Moment) (req : Json) : StratumServer × Except Bytes Json :=
  let params := paramsOf req
  let method := methodOf req
  if method = utf8 "mining.subscribe" then (s, subscribe)
  else if method = utf8 "mining.authorize" then s.authorize m.now params
  else if method = utf8 "mining.submit" then s.submit m.now params
  else if method = utf8 "mining.get_transactions" then (s, .ok (.array []))
  else if method = utf8 "mining.extranonce.subscribe" then (s, .ok (.bool true))
  else if method = utf8 "getblocktemplate" ∨ method = utf8 "mining.get_block_template" then (s, .ok m.blockTemplate)
  else (s, .error (utf8 "unknown method: " ++ method))

def handleRpc (s : StratumServer) (m : Moment) (req : Json) : StratumServer × Json :=
  let id := (req.get (utf8 "id")).getD .null
  let (s, result) := s.dispatch m req
  match result with
  | .ok r => (s, .object [(utf8 "id", id), (utf8 "result", r), (utf8 "error", .null)])
  | .error e =>
    (s, .object [(utf8 "id", id), (utf8 "result", .null),
      (utf8 "error", .object [(utf8 "code", .otherNumber (utf8 "-1")), (utf8 "message", .string e)])])

/-! ### What a submit does -/

variable {s s' : StratumServer} {w : WorkerState} {jobs : ExtTreeMap Bytes Job} {sub : Submission} {now : Nat}

/-- Only a worker that is not banned gets another ban. -/
theorem judge_ban : (judge now w jobs sub).worker.bannedUntilMs = w.bannedUntilMs ∨ w.bannedUntilMs ≤ now := by
  rw [judge]
  split
  · exact Or.inl rfl
  · split
    · exact Or.inl rfl
    · exact Or.inr (Nat.not_lt.mp ‹_›)

/-- From the job on, an accepted submit has a new nonce of a job at hand, which remembers it. -/
theorem judgeShare_accepts {r : Json} (h : (judgeShare now w jobs sub).answer = .ok r) :
    ∃ job, jobs[sub.jobId]? = some job ∧ sub.nonce ∉ job.seenNonces ∧
      (judgeShare now w jobs sub).jobs =
        jobs.insert sub.jobId { job with seenNonces := insert sub.nonce job.seenNonces } := by
  cases hjob : jobs[sub.jobId]? with
  | none => simp [judgeShare, hjob] at h
  | some job =>
      refine ⟨job, rfl, ?_⟩
      simp only [judgeShare, hjob] at h ⊢
      split at h
      · exact nomatch h
      · split at h
        · exact nomatch h
        · split at h
          · exact nomatch h
          · rename_i hid hage hnew
            refine ⟨hnew, ?_⟩
            rw [if_neg hid, if_neg hage, if_neg hnew]
            split at h
            · exact nomatch h
            · rename_i hroom
              rw [if_neg hroom]
              split <;> rfl

/-- From the job on, jobs only go or gain nonces. -/
theorem judgeShare_jobs {id : Bytes} {job' : Job} (h : (judgeShare now w jobs sub).jobs[id]? = some job') :
    ∃ job, jobs[id]? = some job ∧ job.seenNonces ⊆ job'.seenNonces := by
  have hsame : jobs[id]? = some job' → ∃ job, jobs[id]? = some job ∧ job.seenNonces ⊆ job'.seenNonces :=
    fun hget => ⟨job', hget, Finset.Subset.refl _⟩
  cases hjob : jobs[sub.jobId]? with
  | none =>
      simp only [judgeShare, hjob] at h
      exact hsame h
  | some job =>
      have hgrown : (jobs.insert sub.jobId { job with seenNonces := insert sub.nonce job.seenNonces })[id]? = some job' →
          ∃ job, jobs[id]? = some job ∧ job.seenNonces ⊆ job'.seenNonces := by
        intro hget
        rcases Map.insert_eq_some.mp hget with ⟨rfl, rfl⟩ | ⟨-, hget⟩
        · exact ⟨job, hjob, Finset.subset_insert _ _⟩
        · exact hsame hget
      simp only [judgeShare, hjob] at h
      split at h
      · exact hsame h
      · split at h
        · exact hsame h
        · split at h
          · exact hsame h
          · split at h
            · rw [ExtTreeMap.getElem?_erase] at h
              split at h
              · exact nomatch h
              · exact hsame h
            · split at h
              · exact hgrown h
              · exact hgrown h

/-- **An accepted submit**: its worker is not banned, and its nonce is new to a job at hand, which remembers it. -/
theorem judge_accepts {r : Json} (h : (judge now w jobs sub).answer = .ok r) :
    w.bannedUntilMs ≤ now ∧ ∃ job, jobs[sub.jobId]? = some job ∧ sub.nonce ∉ job.seenNonces ∧
      (judge now w jobs sub).jobs = jobs.insert sub.jobId { job with seenNonces := insert sub.nonce job.seenNonces } := by
  rw [judge] at h ⊢
  by_cases hauth : ¬ w.authorized
  · rw [if_pos hauth] at h
    exact nomatch h
  · rw [if_neg hauth] at h ⊢
    by_cases hban : now < w.bannedUntilMs
    · rw [if_pos hban] at h
      exact nomatch h
    · rw [if_neg hban] at h ⊢
      by_cases hrate : (countSubmit now w).windowSubmits > maxSubmitsPerWindow
      · rw [if_pos hrate] at h
        exact nomatch h
      · rw [if_neg hrate] at h ⊢
        exact ⟨Nat.not_lt.mp hban, judgeShare_accepts h⟩

/-- Jobs only go or gain nonces. -/
theorem judge_jobs {id : Bytes} {job' : Job} (h : (judge now w jobs sub).jobs[id]? = some job') :
    ∃ job, jobs[id]? = some job ∧ job.seenNonces ⊆ job'.seenNonces := by
  have hsame : jobs[id]? = some job' → ∃ job, jobs[id]? = some job ∧ job.seenNonces ⊆ job'.seenNonces :=
    fun hget => ⟨job', hget, Finset.Subset.refl _⟩
  rw [judge] at h
  split at h
  · exact hsame h
  · split at h
    · exact hsame h
    · dsimp only at h
      split at h
      · exact hsame h
      · exact judgeShare_jobs h

/-! ### Steps -/

inductive Call
  | handleRpc (req : Json)
  | makeNotify

abbrev Event := Moment × Call

def step (s : StratumServer) (e : Event) : StratumServer × Json :=
  match e.2 with
  | .handleRpc req => s.handleRpc e.1 req
  | .makeNotify => s.makeNotify e.1

/-- The submission that an event has accepted: a submit that is answered without an error. -/
def accepted (s : StratumServer) (e : Event) : Option Submission :=
  match e.2 with
  | .handleRpc req =>
    if methodOf req = utf8 "mining.submit" ∧ ((s.handleRpc e.1 req).2.get (utf8 "error")).any Json.isNull then
      (submission (paramsOf req)).toOption
    else none
  | .makeNotify => none

/-- What a submit leaves of the server. -/
def submitted (s : StratumServer) (now : Nat) (sub : Submission) : StratumServer :=
  let judged := judge now (s.workerOf now sub.worker) s.jobs sub
  { s with
    workers := s.workers.insert sub.worker judged.worker, jobs := judged.jobs,
    shares := judged.share.elim s.shares (pushShare s.shares) }

/-- What an event does, and which submission it accepts. -/
inductive Outcome (s : StratumServer) (e : Event) : StratumServer → Option Submission → Prop
  | unchanged {req : Json} (call : e.2 = .handleRpc req) : Outcome s e s none
  | authorized {req : Json} (call : e.2 = .handleRpc req) (method : methodOf req = utf8 "mining.authorize")
      (password : s.password = some (credentials (paramsOf req)).2)
      (room : (credentials (paramsOf req)).1 ∈ s.workers ∨ s.workers.size < maxStratumWorkers) :
      Outcome s e
        { s with workers := s.workers.insert (credentials (paramsOf req)).1 (WorkerState.fresh true e.1.now) } none
  | rejected {req : Json} {sub : Submission} (call : e.2 = .handleRpc req) (method : methodOf req = utf8 "mining.submit")
      (params : submission (paramsOf req) = .ok sub) : Outcome s e (s.submitted e.1.now sub) none
  | accepted {req : Json} {sub : Submission} {r : Json} (call : e.2 = .handleRpc req)
      (method : methodOf req = utf8 "mining.submit") (params : submission (paramsOf req) = .ok sub)
      (answer : (judge e.1.now (s.workerOf e.1.now sub.worker) s.jobs sub).answer = .ok r) :
      Outcome s e (s.submitted e.1.now sub) (some sub)
  | notified (call : e.2 = .makeNotify) : Outcome s e (s.makeNotify e.1).1 none

theorem submit_of_error {e : Bytes} {params : Json} (h : submission params = .error e) : s.submit now params = (s, .error e) := by
  rw [submit, h]

theorem submit_of_ok {params : Json} (h : submission params = .ok sub) :
    s.submit now params = (s.submitted now sub, (judge now (s.workerOf now sub.worker) s.jobs sub).answer) := by
  rw [submit, h]
  rfl

theorem handleRpc_state {m : Moment} {req : Json} : (s.handleRpc m req).1 = (s.dispatch m req).1 := by
  rw [handleRpc]
  cases s.dispatch m req with
  | mk s' result =>
      cases result with
      | ok r => rfl
      | error e => rfl

/-- A request is answered without an error when its call succeeds. -/
theorem handleRpc_ok {m : Moment} {req : Json} :
    ((s.handleRpc m req).2.get (utf8 "error")).any Json.isNull = true ↔ ∃ r, (s.dispatch m req).2 = .ok r := by
  have hid : utf8 "id" ≠ utf8 "error" := by decide
  have hresult : utf8 "result" ≠ utf8 "error" := by decide
  rw [handleRpc]
  cases hdispatch : s.dispatch m req with
  | mk s' result =>
      cases result with
      | ok r => simp [Json.get, Json.isNull, hid, hresult]
      | error e => simp [Json.get, Json.isNull, hid, hresult]

theorem accepted_of_other {m : Moment} {req : Json} (h : methodOf req ≠ utf8 "mining.submit") :
    s.accepted (m, .handleRpc req) = none := if_neg fun hboth => h hboth.1

theorem dispatch_submit {m : Moment} {req : Json} (h : methodOf req = utf8 "mining.submit") :
    s.dispatch m req = s.submit m.now (paramsOf req) := by
  have hauthorize : utf8 "mining.submit" ≠ utf8 "mining.authorize" := by decide
  have hsubscribe : utf8 "mining.submit" ≠ utf8 "mining.subscribe" := by decide
  rw [dispatch, h, if_neg hsubscribe, if_neg hauthorize, if_pos rfl]

/-- A submit, of the server and as an event. -/
theorem outcome_of_submit {m : Moment} {req : Json} (h : methodOf req = utf8 "mining.submit") :
    Outcome s (m, .handleRpc req) (s.step (m, .handleRpc req)).1 (s.accepted (m, .handleRpc req)) := by
  have hdispatch := dispatch_submit (s := s) (m := m) h
  have hstate : (s.step (m, .handleRpc req)).1 = (s.submit m.now (paramsOf req)).1 := by
    rw [← hdispatch]
    exact handleRpc_state
  rw [hstate, accepted]
  dsimp only
  cases hparams : submission (paramsOf req) with
  | error e =>
      rw [submit_of_error hparams, Except.toOption, ite_self]
      exact Outcome.unchanged rfl
  | ok sub =>
      rw [submit_of_ok hparams]
      by_cases hok : ((s.handleRpc m req).2.get (utf8 "error")).any Json.isNull = true
      · obtain ⟨r, hr⟩ := handleRpc_ok.mp hok
        rw [hdispatch, submit_of_ok hparams] at hr
        rw [if_pos ⟨h, hok⟩]
        exact Outcome.accepted rfl h hparams hr
      · rw [if_neg fun hboth => hok hboth.2]
        exact Outcome.rejected rfl h hparams

/-- An authorization, of the server and as an event. -/
theorem outcome_of_authorize {m : Moment} {req : Json} (h : methodOf req = utf8 "mining.authorize") :
    Outcome s (m, .handleRpc req) (s.step (m, .handleRpc req)).1 (s.accepted (m, .handleRpc req)) := by
  have hsubmit : utf8 "mining.authorize" ≠ utf8 "mining.submit" := by decide
  have hsubscribe : utf8 "mining.authorize" ≠ utf8 "mining.subscribe" := by decide
  have hdispatch : s.dispatch m req = s.authorize m.now (paramsOf req) := by
    rw [dispatch]
    rw [h, if_neg hsubscribe, if_pos rfl]
  have hstate : (s.step (m, .handleRpc req)).1 = (s.authorize m.now (paramsOf req)).1 := by
    rw [← hdispatch]
    exact handleRpc_state
  rw [hstate, accepted_of_other (by rw [h]; exact hsubmit), authorize]
  dsimp only
  split
  · exact Outcome.unchanged rfl
  · rename_i expected hpassword
    by_cases hwrong : (credentials (paramsOf req)).2 ≠ expected
    · rw [if_pos hwrong]
      exact Outcome.unchanged rfl
    · rw [if_neg hwrong]
      by_cases hfull : (credentials (paramsOf req)).1 ∉ s.workers ∧ s.workers.size ≥ maxStratumWorkers
      · rw [if_pos hfull]
        exact Outcome.unchanged rfl
      · rw [if_neg hfull]
        refine Outcome.authorized rfl h ?_ ?_
        · rw [hpassword, not_not.mp hwrong]
        · rcases not_and_or.mp hfull with hknown | hroom
          · exact Or.inl (not_not.mp hknown)
          · exact Or.inr (Nat.not_le.mp hroom)

theorem step_outcome (s : StratumServer) (e : Event) : Outcome s e (s.step e).1 (s.accepted e) := by
  obtain ⟨m, call⟩ := e
  cases call with
  | makeNotify => exact Outcome.notified rfl
  | handleRpc req =>
      by_cases hsubmit : methodOf req = utf8 "mining.submit"
      · exact outcome_of_submit hsubmit
      · by_cases hauthorize : methodOf req = utf8 "mining.authorize"
        · exact outcome_of_authorize hauthorize
        · have hstate : (s.step (m, .handleRpc req)).1 = s := by
            refine handleRpc_state.trans ?_
            rw [dispatch]
            dsimp only
            rw [if_neg hauthorize, if_neg hsubmit]
            split
            · rfl
            · split
              · rfl
              · split
                · rfl
                · split <;> rfl
          rw [hstate, accepted_of_other hsubmit]
          exact Outcome.unchanged rfl

/-! ### Runs -/

variable {e : Event} {events : List Event}

def after (s : StratumServer) (events : List Event) : StratumServer :=
  events.foldl (fun s e => (s.step e).1) s

/-- The jobs and nonces that a run accepts. -/
def acceptedShares (s : StratumServer) : List Event → List (Bytes × Nat)
  | [] => []
  | e :: events =>
    (s.accepted e).toList.map (fun sub => (sub.jobId, sub.nonce)) ++ acceptedShares (s.step e).1 events

def isNotify : Call → Bool
  | .makeNotify => true
  | .handleRpc _ => false

/-- The number of jobs that a run makes. -/
def notifies (events : List Event) : Nat := events.countP fun e => isNotify e.2

/-- What the stratum limits promise of a run. -/
structure LimitsHold (s : StratumServer) (events : List Event) : Prop where
  workers : ∀ pre post, events = pre ++ post → (s.after pre).workers.size ≤ maxStratumWorkers
  bans : ∀ pre mid e post worker record, events = pre ++ (mid ++ e :: post) →
    (s.after pre).workers[worker]? = some record →
    ∀ sub, ((s.after pre).after mid).accepted e = some sub → sub.worker = worker → record.bannedUntilMs ≤ e.1.now
  shares : (s.acceptedShares events).Nodup

/-- An event that keeps to the limits: a submit that names a new worker finds room for it, and
an authorization does not name a worker that is banned. -/
structure Harmless (s : StratumServer) (e : Event) : Prop where
  room : ∀ req sub, e.2 = .handleRpc req → methodOf req = utf8 "mining.submit" →
    submission (paramsOf req) = .ok sub → sub.worker ∈ s.workers ∨ s.workers.size < maxStratumWorkers
  unbanned : ∀ req record, e.2 = .handleRpc req → methodOf req = utf8 "mining.authorize" →
    s.password = some (credentials (paramsOf req)).2 → s.workers[(credentials (paramsOf req)).1]? = some record →
    record.bannedUntilMs ≤ e.1.now

/-- Every event of a run is harmless where it comes. -/
def HarmlessRun (s : StratumServer) (events : List Event) : Prop :=
  ∀ pre e post, events = pre ++ e :: post → (s.after pre).Harmless e

theorem HarmlessRun.head (h : s.HarmlessRun (e :: events)) : s.Harmless e := h [] e events rfl

theorem HarmlessRun.tail (h : s.HarmlessRun (e :: events)) : (s.step e).1.HarmlessRun events := by
  intro pre e' post heq
  exact h (e :: pre) e' post (by rw [heq]; rfl)

variable {accept : Option Submission}

/-! ### The worker table -/

omit [Crypto] in
theorem size_insert_le {β : Type} {m : ExtTreeMap Bytes β} {k : Bytes} {v : β} {limit : Nat} (hsize : m.size ≤ limit)
    (hroom : k ∈ m ∨ m.size < limit) : (m.insert k v).size ≤ limit := by
  rw [ExtTreeMap.size_insert]
  split
  · exact hsize
  · rename_i hnew
    exact hroom.resolve_left hnew

theorem Outcome.workers (o : Outcome s e s' accept) (hsize : s.workers.size ≤ maxStratumWorkers) (h : s.Harmless e) :
    s'.workers.size ≤ maxStratumWorkers := by
  cases o with
  | unchanged call => exact hsize
  | authorized call method password room => exact size_insert_le hsize room
  | rejected call method params => exact size_insert_le hsize (h.room _ _ call method params)
  | accepted call method params answer => exact size_insert_le hsize (h.room _ _ call method params)
  | notified call => exact hsize

theorem run_workers (hsize : s.workers.size ≤ maxStratumWorkers) (h : s.HarmlessRun events) :
    (s.after events).workers.size ≤ maxStratumWorkers := by
  induction events generalizing s with
  | nil => exact hsize
  | cons e events ih => exact ih ((step_outcome s e).workers hsize h.head) h.tail

/-! ### Bans -/

/-- A worker is banned until an instant, or the instant has come. -/
def Held (worker : Bytes) (expiry now : Nat) (s : StratumServer) : Prop :=
  (∃ record, s.workers[worker]? = some record ∧ expiry ≤ record.bannedUntilMs) ∨ expiry ≤ now

variable {worker : Bytes} {expiry : Nat}

/-- The record a submit leaves. -/
theorem Held.submitted (h : Held worker expiry now s) (sub : Submission) :
    Held worker expiry now (s.submitted now sub) := by
  rcases h with ⟨record, hget, hlate⟩ | hover
  · by_cases hsame : sub.worker = worker
    · have hfound : s.workerOf now sub.worker = record := by rw [workerOf, hsame, hget, Option.getD_some]
      have hban : (judge now record s.jobs sub).worker.bannedUntilMs = record.bannedUntilMs ∨
          record.bannedUntilMs ≤ now := judge_ban
      rcases hban with hkept | hover
      · refine Or.inl ⟨_, Map.insert_eq_some.mpr (Or.inl ⟨hsame, rfl⟩), ?_⟩
        rw [hfound, hkept]
        exact hlate
      · exact Or.inr (hlate.trans hover)
    · exact Or.inl ⟨record, Map.insert_eq_some.mpr (Or.inr ⟨hsame, hget⟩), hlate⟩
  · exact Or.inr hover

theorem Outcome.held (o : Outcome s e s' accept) (hheld : Held worker expiry e.1.now s) (h : s.Harmless e) :
    Held worker expiry e.1.now s' := by
  cases o with
  | unchanged call => exact hheld
  | rejected call method params => exact hheld.submitted _
  | accepted call method params answer => exact hheld.submitted _
  | notified call => exact hheld
  | @authorized req call method password room =>
      rcases hheld with ⟨record, hget, hlate⟩ | hover
      · by_cases hsame : (credentials (paramsOf req)).1 = worker
        · exact Or.inr (hlate.trans (h.unbanned req record call method password (hsame ▸ hget)))
        · exact Or.inl ⟨record, Map.insert_eq_some.mpr (Or.inr ⟨hsame, hget⟩), hlate⟩
      · exact Or.inr hover

/-- A worker whose submit is accepted is not banned. -/
theorem Outcome.expired {sub : Submission} (o : Outcome s e s' (some sub)) (hheld : Held sub.worker expiry e.1.now s) :
    expiry ≤ e.1.now := by
  cases o with
  | accepted call method params answer =>
      rcases hheld with ⟨record, hget, hlate⟩ | hover
      · have hfound : s.workerOf e.1.now sub.worker = record := by rw [workerOf, hget, Option.getD_some]
        rw [hfound] at answer
        exact hlate.trans (judge_accepts answer).1
      · exact hover

omit [Crypto] in
theorem Held.mono {later : Nat} (h : Held worker expiry now s) (hle : now ≤ later) : Held worker expiry later s :=
  h.imp_right fun hover => hover.trans hle

/-- **Bans last**: from a banned worker no submit is accepted before the ban is over. -/
theorem run_expired {mid post : List Event} {sub : Submission} (hheld : Held sub.worker expiry now s)
    (hnow : ∀ x ∈ mid ++ e :: post, now ≤ x.1.now)
    (hordered : (mid ++ e :: post).Pairwise fun e e' => e.1.now ≤ e'.1.now) (h : s.HarmlessRun (mid ++ e :: post))
    (haccept : (s.after mid).accepted e = some sub) : expiry ≤ e.1.now := by
  induction mid generalizing s now with
  | nil =>
      have hthen := hheld.mono (hnow e List.mem_cons_self)
      exact (haccept ▸ step_outcome s e).expired hthen
  | cons e' mid ih =>
      have hthen := hheld.mono (hnow e' List.mem_cons_self)
      obtain ⟨hnext, hrest⟩ := List.pairwise_cons.mp hordered
      exact ih ((step_outcome s e').held hthen h.head) hnext hrest h.tail haccept

/-! ### Replays -/

/-- Jobs have the ids of those made so far, and remember the accepted nonces. -/
structure Remembers (count : Nat) (shares : List (Bytes × Nat)) (s : StratumServer) : Prop where
  counter : s.nextJob = min (count + 1) u64Max
  jobs : ∀ id job, s.jobs[id]? = some job → ∃ k ≤ count, id = lowerHex k
  made : ∀ share ∈ shares, ∃ k ≤ count, share.1 = lowerHex k
  seen : ∀ share ∈ shares, ∀ job, s.jobs[share.1]? = some job → share.2 ∈ job.seenNonces
  nodup : shares.Nodup

variable {count : Nat} {shares : List (Bytes × Nat)}

omit [Crypto] in
theorem remembers_new (password : Option Bytes) : Remembers 0 [] (new password) where
  counter := by
    rw [new, u64Max]
    norm_num
  jobs id job hget := by simp [new] at hget
  made share hshare := absurd hshare List.not_mem_nil
  seen share hshare := absurd hshare List.not_mem_nil
  nodup := List.nodup_nil

omit [Crypto] in
/-- Dropping jobs only drops them. -/
theorem of_trimJobs {m : Moment} {id : Bytes} {job : Job} (h : (trimJobs m jobs)[id]? = some job) : jobs[id]? = some job := by
  have herase : ∀ (aged : List (Bytes × Nat)) (jobs : ExtTreeMap Bytes Job),
      (aged.foldl (fun jobs aged => jobs.erase aged.1) jobs)[id]? = some job → jobs[id]? = some job := by
    intro aged
    induction aged with
    | nil => exact fun _ hget => hget
    | cons a aged ih =>
        intro jobs hget
        have hone := ih _ hget
        rw [ExtTreeMap.getElem?_erase] at hone
        split at hone
        · exact nomatch hone
        · exact hone
  rw [trimJobs] at h
  split at h
  · exact herase _ _ h
  · exact h

theorem Remembers.notified (h : Remembers count shares s) (hroom : count + 1 ≤ u64Max) (m : Moment) :
    Remembers (count + 1) shares (s.makeNotify m).1 := by
  have hnext : s.nextJob = count + 1 := h.counter.trans (Nat.min_eq_left hroom)
  refine ⟨?_, fun id job hget => ?_, fun share hshare => ?_, fun share hshare job hget => ?_, h.nodup⟩
  · show satAdd64 s.nextJob 1 = _
    rw [hnext, satAdd64]
  · rcases Map.insert_eq_some.mp (of_trimJobs hget) with ⟨hid, -⟩ | ⟨-, hget⟩
    · exact ⟨count + 1, Nat.le_refl _, by rw [← hid, hnext]⟩
    · obtain ⟨k, hk, hid⟩ := h.jobs id job hget
      exact ⟨k, hk.trans (Nat.le_succ _), hid⟩
  · obtain ⟨k, hk, hid⟩ := h.made share hshare
    exact ⟨k, hk.trans (Nat.le_succ _), hid⟩
  · rcases Map.insert_eq_some.mp (of_trimJobs hget) with ⟨hid, -⟩ | ⟨-, hget⟩
    · -- the id of the new job is not that of an accepted share
      obtain ⟨k, hk, hmade⟩ := h.made share hshare
      rw [hmade, hnext] at hid
      have hsame := lowerHex_injective hid
      omega
    · exact h.seen share hshare job hget

theorem Remembers.submitted (h : Remembers count shares s) (sub : Submission) :
    Remembers count shares (s.submitted now sub) := by
  refine ⟨h.counter, fun id job hget => ?_, h.made, fun share hshare job hget => ?_, h.nodup⟩
  · obtain ⟨job', hget', -⟩ := judge_jobs hget
    exact h.jobs id job' hget'
  · obtain ⟨job', hget', hsubset⟩ := judge_jobs hget
    exact hsubset (h.seen share hshare job' hget')

theorem Remembers.accepted {sub : Submission} {r : Json} (h : Remembers count shares s)
    (hanswer : (judge now (s.workerOf now sub.worker) s.jobs sub).answer = .ok r) :
    Remembers count (shares ++ [(sub.jobId, sub.nonce)]) (s.submitted now sub) := by
  obtain ⟨-, job, hjob, hnew, hjobs⟩ := judge_accepts hanswer
  have hkept : Remembers count shares (s.submitted now sub) := h.submitted sub
  refine ⟨hkept.counter, hkept.jobs, fun share hshare => ?_, fun share hshare job' hget => ?_, ?_⟩
  · rcases List.mem_append.mp hshare with hshare | hshare
    · exact h.made share hshare
    · rw [List.mem_singleton.mp hshare]
      exact h.jobs sub.jobId job hjob
  · rcases List.mem_append.mp hshare with hshare | hshare
    · exact hkept.seen share hshare job' hget
    · rw [List.mem_singleton.mp hshare] at hget ⊢
      rw [StratumServer.submitted, hjobs, ExtTreeMap.getElem?_insert_self] at hget
      rw [← Option.some.inj hget]
      exact Finset.mem_insert_self _ _
  · refine List.nodup_append.mpr ⟨h.nodup, List.nodup_singleton _, fun share hshare share' hshare' heq => ?_⟩
    rw [heq, List.mem_singleton.mp hshare'] at hshare
    exact hnew (h.seen _ hshare job hjob)

/-- What a run remembers after one more event. -/
theorem Outcome.remembers (o : Outcome s e s' accept) (h : Remembers count shares s)
    (hroom : count + notifies [e] ≤ u64Max) :
    Remembers (count + notifies [e]) (shares ++ accept.toList.map fun sub => (sub.jobId, sub.nonce)) s' := by
  have hnone : ∀ req, e.2 = .handleRpc req → count + notifies [e] = count := fun req hcall => by
    simp [notifies, hcall, isNotify]
  cases o with
  | unchanged call =>
      rw [hnone _ call, Option.toList_none, List.map_nil, List.append_nil]
      exact h
  | authorized call method password room =>
      rw [hnone _ call, Option.toList_none, List.map_nil, List.append_nil]
      exact ⟨h.counter, h.jobs, h.made, h.seen, h.nodup⟩
  | rejected call method params =>
      rw [hnone _ call, Option.toList_none, List.map_nil, List.append_nil]
      exact h.submitted _
  | accepted call method params answer =>
      rw [hnone _ call, Option.toList_some, List.map_singleton]
      exact h.accepted answer
  | notified call =>
      have hone : notifies [e] = 1 := by simp [notifies, call, isNotify]
      rw [hone] at hroom ⊢
      rw [Option.toList_none, List.map_nil, List.append_nil]
      exact h.notified hroom e.1

/-- **No share is accepted twice.** -/
theorem run_remembers (h : Remembers count shares s) (hroom : count + notifies events ≤ u64Max) :
    Remembers (count + notifies events) (shares ++ s.acceptedShares events) (s.after events) := by
  induction events generalizing s count shares with
  | nil =>
      rw [acceptedShares, List.append_nil]
      exact h
  | cons e events ih =>
      have hcount : notifies (e :: events) = notifies [e] + notifies events := by
        rw [notifies, notifies, notifies, ← List.countP_append, List.singleton_append]
      rw [hcount, ← Nat.add_assoc] at hroom ⊢
      rw [acceptedShares, ← List.append_assoc]
      exact ih ((step_outcome s e).remembers h (by omega)) hroom

/-! ### The limits -/

theorem after_append (pre post : List Event) : s.after (pre ++ post) = (s.after pre).after post := List.foldl_append

theorem HarmlessRun.cons (h : s.Harmless e) (hrest : (s.step e).1.HarmlessRun events) : s.HarmlessRun (e :: events) := by
  intro pre e' post heq
  cases pre with
  | nil =>
      obtain ⟨rfl, -⟩ := List.cons.inj heq
      exact h
  | cons e'' pre =>
      obtain ⟨rfl, htail⟩ := List.cons.inj heq
      exact hrest pre e' post htail

theorem HarmlessRun.append_left {pre post : List Event} (h : s.HarmlessRun (pre ++ post)) : s.HarmlessRun pre := by
  intro pre' e post' heq
  exact h pre' e (post' ++ post) (by rw [heq, List.append_assoc, List.cons_append])

theorem HarmlessRun.append_right {pre post : List Event} (h : s.HarmlessRun (pre ++ post)) :
    (s.after pre).HarmlessRun post := by
  intro pre' e post' heq
  rw [← after_append]
  exact h (pre ++ pre') e post' (by rw [heq, List.append_assoc])

end

end StratumServer

namespace Sample

open StratumServer

local instance stratumCrypto : Crypto := sampleCrypto

/-- A moment of a fresh chain. -/
def moment : Moment where
  now := 0
  chain := ChainState.new false
  labEasyPow := false
  blockTemplate := .null
  jobOrder := id
  jobOrder_perm _ := .refl _

/-- A submit for some job. -/
def submitRequest (worker : Bytes) : Json :=
  .object [(utf8 "method", .string (utf8 "mining.submit")),
    (utf8 "params", .array [.string worker, .string (utf8 "0"), .number 0])]

/-- Submits of workers nobody has authorized, with names of different lengths. -/
def flood (n : Nat) : List Event := (List.range n).map fun k => (moment, .handleRpc (submitRequest (List.replicate k 120)))

theorem submitRequest_step (s : StratumServer) (worker : Bytes) :
    ∃ record, (s.step (moment, .handleRpc (submitRequest worker))).1.workers = s.workers.insert worker record := by
  have hsubmit : methodOf (submitRequest worker) = utf8 "mining.submit" := rfl
  have hparams : submission (paramsOf (submitRequest worker)) = .ok ⟨worker, utf8 "0", 0⟩ := rfl
  have hstate : (s.handleRpc moment (submitRequest worker)).1 = (s.dispatch moment (submitRequest worker)).1 :=
    handleRpc_state
  rw [dispatch_submit hsubmit, submit_of_ok hparams] at hstate
  exact ⟨_, congrArg StratumServer.workers hstate⟩

/-- Every one of them is entered. -/
theorem flood_workers (n : Nat) : ((new none).after (flood n)).workers.size = n ∧
    ∀ k, List.replicate k 120 ∈ ((new none).after (flood n)).workers ↔ k < n := by
  induction n with
  | zero =>
      refine ⟨ExtTreeMap.size_empty, fun k => iff_of_false ?_ (Nat.not_lt_zero k)⟩
      exact ExtTreeMap.not_mem_empty
  | succ n ih =>
      obtain ⟨hsize, hmem⟩ := ih
      have hstep : (new none).after (flood (n + 1)) =
          (((new none).after (flood n)).step (moment, .handleRpc (submitRequest (List.replicate n 120)))).1 := by
        rw [flood, List.range_succ, List.map_append, after_append]
        rfl
      obtain ⟨record, hworkers⟩ := submitRequest_step ((new none).after (flood n)) (List.replicate n 120)
      have hnew : List.replicate n 120 ∉ ((new none).after (flood n)).workers :=
        fun hin => Nat.lt_irrefl n ((hmem n).mp hin)
      rw [hstep, hworkers, ExtTreeMap.size_insert, if_neg fun hin => hnew (ExtTreeMap.mem_iff_contains.mpr hin), hsize]
      refine ⟨rfl, fun k => ?_⟩
      rw [ExtTreeMap.mem_insert, hmem k, Std.LawfulEqOrd.compare_eq_iff_eq]
      constructor
      · rintro (hsame | hlt)
        · have hlen := congrArg List.length hsame
          rw [List.length_replicate, List.length_replicate] at hlen
          omega
        · omega
      · intro hlt
        rcases Nat.lt_succ_iff_lt_or_eq.mp hlt with hlt | rfl
        · exact Or.inr hlt
        · exact Or.inl rfl

def authorizeRequest : Json :=
  .object [(utf8 "method", .string (utf8 "mining.authorize")),
    (utf8 "params", .array [.string (utf8 "miner"), .string (utf8 "secret")])]

/-- An authorization and a job. -/
def session : List Event := [(moment, .handleRpc authorizeRequest), (moment, .makeNotify)]

end Sample

end HassanNode
