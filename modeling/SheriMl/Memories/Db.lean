import Mathlib.Algebra.Group.Int.Defs
import Mathlib.Data.Char
import Mathlib.Data.List.AList
import Mathlib.Data.List.Lex
import Mathlib.Data.List.Sort
import SheriMl.Lib.Str

/-!
# The memory pipeline's database

`state/src/runtime/memories.rs`: the `jobs` and `stage1_outputs` tables and the
transactions over them. Each operation is one function of the database, the
`Utc::now()` it read before its transaction, and its arguments; SQL conditions
and assignments are written out column by column. A nullable column is an
`Option`, a comparison with NULL is false.

Integers are `Int`: timestamps are seconds since the epoch, and a watermark is a
timestamp plus a number of enqueues. Only `saturating_add` is bounded.
-/

namespace SheriMl.Memories

inductive JobKind where
  | memoryStage1
  | memoryConsolidateGlobal
  deriving DecidableEq

/-- The primary key of `jobs`. -/
structure JobId where
  kind : JobKind
  jobKey : Str
  deriving DecidableEq

def stage1JobId (threadId : Str) : JobId := ⟨.memoryStage1, threadId⟩

def globalJobId : JobId := ⟨.memoryConsolidateGlobal, "global"⟩

theorem stage1JobId_ne_global (threadId : Str) : stage1JobId threadId ≠ globalJobId := by
  simp [stage1JobId, globalJobId]

inductive Status where
  | pending
  | running
  | done
  | error
  deriving DecidableEq

/-- A row of `jobs`. -/
structure Job where
  status : Status
  workerId : Option Str
  ownershipToken : Option Str
  startedAt : Option Int
  finishedAt : Option Int
  leaseUntil : Option Int
  retryAt : Option Int
  retryRemaining : Int
  lastError : Option Str
  inputWatermark : Option Int
  lastSuccessWatermark : Option Int

/-- A row of `stage1_outputs`. -/
structure Stage1Output where
  sourceUpdatedAt : Int
  rawMemory : Str
  rolloutSummary : Str
  rolloutSlug : Option Str
  generatedAt : Int

/-- The tables, by primary key. Of `threads` only the working directory is read; its ids
are what the foreign key of `stage1_outputs` refers to. -/
structure Db where
  jobs : AList fun _ : JobId => Job
  stage1Outputs : AList fun _ : Str => Stage1Output
  threads : AList fun _ : Str => Str

inductive DbError where
  | foreignKey
  | decode

inductive Stage1JobClaimOutcome where
  | claimed (ownershipToken : Str)
  | skippedUpToDate
  | skippedRunning
  | skippedRetryBackoff
  | skippedRetryExhausted

inductive Phase2JobClaimOutcome where
  | claimed (ownershipToken : Str) (inputWatermark : Int)
  | skippedNotDirty
  | skippedRunning

/-! ## Arithmetic and rows -/

def defaultRetryRemaining : Int := 3

/-- `i64::saturating_add`. -/
def saturatingAdd (a b : Int) : Int := max (-2 ^ 63) (min (2 ^ 63 - 1) (a + b))

/-- `now.saturating_add(seconds.max(0))`. -/
def after (now seconds : Int) : Int := saturatingAdd now (max seconds 0)

/-- `n as i64` for a `usize`. -/
def asI64 (n : Nat) : Int := (n : Int).bmod (2 ^ 64)

namespace Job

/-- `status = 'running' AND ownership_token = ?`. -/
def ownedBy (job : Job) (token : Str) : Bool :=
  job.status = .running && job.ownershipToken = some token

/-- `status = 'running' AND lease_until IS NOT NULL AND lease_until > ?`. -/
def live (job : Job) (now : Int) : Bool :=
  job.status = .running && job.leaseUntil.any fun u => now < u

/-- `status != 'running' OR lease_until IS NULL OR lease_until <= ?`. -/
def free (job : Job) (now : Int) : Bool :=
  job.status ≠ .running || job.leaseUntil.all fun u => u ≤ now

/-- `retry_at IS NULL OR retry_at <= ?`. -/
def retryDue (job : Job) (now : Int) : Bool := job.retryAt.all fun r => r ≤ now

/-- `excluded.input_watermark > COALESCE(jobs.input_watermark, -1)`. -/
def advancedBy (job : Job) (inputWatermark : Int) : Bool :=
  job.inputWatermark.getD (-1) < inputWatermark

end Job

namespace Db

def setJob (db : Db) (id : JobId) (job : Job) : Db := { db with jobs := db.jobs.insert id job }

def setOutput (db : Db) (threadId : Str) (output : Stage1Output) : Db :=
  { db with stage1Outputs := db.stage1Outputs.insert threadId output }

def deleteOutput (db : Db) (threadId : Str) : Db :=
  { db with stage1Outputs := db.stage1Outputs.erase threadId }

def job (db : Db) (id : JobId) : Option Job := db.jobs.lookup id

def output (db : Db) (threadId : Str) : Option Stage1Output := db.stage1Outputs.lookup threadId

/-- `UPDATE jobs SET .. WHERE kind = ? AND job_key = ? AND ..`; `none` if no row is affected. -/
def updateJob (db : Db) (id : JobId) (cond : Job → Bool) (f : Job → Job) : Option Db :=
  ((db.job id).filter cond).map fun job => db.setJob id (f job)

/-- `SELECT COUNT(*)` of the stage-1 jobs with a live lease, among the given keys. -/
def countRunning (db : Db) (now : Int) (keys : Str → Bool) : Nat :=
  db.jobs.entries.countP fun e => e.1.kind = .memoryStage1 && e.2.live now && keys e.1.jobKey

/-! ## Stage 1 -/

/-- The row the claim inserts. -/
def claimedStage1Job (now : Int) (workerId : Str) (sourceUpdatedAt leaseSeconds : Int)
    (token : Str) : Job where
  status := .running
  workerId := workerId
  ownershipToken := token
  startedAt := now
  finishedAt := none
  leaseUntil := after now leaseSeconds
  retryAt := none
  retryRemaining := defaultRetryRemaining
  lastError := none
  inputWatermark := sourceUpdatedAt
  lastSuccessWatermark := none

/-- The row after `ON CONFLICT DO UPDATE`. -/
def reclaimedStage1Job (job : Job) (now : Int) (workerId : Str)
    (sourceUpdatedAt leaseSeconds : Int) (token : Str) : Job where
  status := .running
  workerId := workerId
  ownershipToken := token
  startedAt := now
  finishedAt := none
  leaseUntil := after now leaseSeconds
  retryAt := none
  retryRemaining :=
    if job.advancedBy sourceUpdatedAt then defaultRetryRemaining else job.retryRemaining
  lastError := none
  inputWatermark := sourceUpdatedAt
  lastSuccessWatermark := job.lastSuccessWatermark

/-- The upsert of a stage-1 claim; `none` if no row is affected. -/
def claimStage1Upsert (db : Db) (now : Int) (threadId workerId : Str)
    (sourceUpdatedAt leaseSeconds : Int) (maxRunningJobs : Nat) (token : Str) : Option Db :=
  -- the guard of the inserted row, which an update has to pass first
  if db.countRunning now (fun _ => true) < asI64 maxRunningJobs then
    match db.job (stage1JobId threadId) with
    | none =>
      some (db.setJob (stage1JobId threadId)
        (claimedStage1Job now workerId sourceUpdatedAt leaseSeconds token))
    | some job =>
      if job.free now && (job.retryDue now || job.advancedBy sourceUpdatedAt) &&
          (0 < job.retryRemaining || job.advancedBy sourceUpdatedAt) &&
          db.countRunning now (fun key => key ≠ threadId) < asI64 maxRunningJobs then
        some (db.setJob (stage1JobId threadId)
          (reclaimedStage1Job job now workerId sourceUpdatedAt leaseSeconds token))
      else none
  else none

/-- The outcome read off the row when the claim affected none. -/
def stage1SkipOutcome (job : Option Job) (now : Int) : Stage1JobClaimOutcome :=
  match job with
  | none => .skippedRunning
  | some job =>
    if job.retryRemaining ≤ 0 then .skippedRetryExhausted
    else if job.retryAt.any fun r => now < r then .skippedRetryBackoff
    else .skippedRunning

/-- Whether the stored output or the last success covers the source. -/
def stage1UpToDate (db : Db) (threadId : Str) (sourceUpdatedAt : Int) : Bool :=
  ((db.output threadId).any fun o => sourceUpdatedAt ≤ o.sourceUpdatedAt) ||
    (db.job (stage1JobId threadId)).any fun job =>
      job.lastSuccessWatermark.any fun w => sourceUpdatedAt ≤ w

def tryClaimStage1Job (db : Db) (now : Int) (threadId workerId : Str)
    (sourceUpdatedAt leaseSeconds : Int) (maxRunningJobs : Nat) (token : Str) :
    Stage1JobClaimOutcome × Db :=
  if db.stage1UpToDate threadId sourceUpdatedAt then (.skippedUpToDate, db)
  else
    match db.claimStage1Upsert now threadId workerId sourceUpdatedAt leaseSeconds maxRunningJobs
        token with
    | some db' => (.claimed token, db')
    | none => (stage1SkipOutcome (db.job (stage1JobId threadId)) now, db)

/-- A finished row: success. -/
def succeededStage1Job (now : Int) (job : Job) : Job :=
  { job with
    status := .done
    finishedAt := now
    leaseUntil := none
    lastError := none
    lastSuccessWatermark := job.inputWatermark }

/-- A finished row: failure, retried after a delay. -/
def failedJob (now retryDelaySeconds : Int) (failureReason : Str) (job : Job) : Job :=
  { job with
    status := .error
    finishedAt := now
    leaseUntil := none
    retryAt := after now retryDelaySeconds
    retryRemaining := job.retryRemaining - 1
    lastError := failureReason }

/-- The row of the first enqueue. -/
def pendingGlobalJob (inputWatermark : Int) : Job where
  status := .pending
  workerId := none
  ownershipToken := none
  startedAt := none
  finishedAt := none
  leaseUntil := none
  retryAt := none
  retryRemaining := defaultRetryRemaining
  lastError := none
  inputWatermark := inputWatermark
  lastSuccessWatermark := some 0

/-- The row after a further enqueue. -/
def enqueuedGlobalJob (inputWatermark : Int) (job : Job) : Job :=
  { job with
    status := if job.status = .running then .running else .pending
    retryAt := if job.status = .running then job.retryAt else none
    retryRemaining := max job.retryRemaining defaultRetryRemaining
    inputWatermark := some (
      if job.inputWatermark.getD 0 < inputWatermark then inputWatermark
      else job.inputWatermark.getD 0 + 1) }

def enqueueGlobalConsolidation (db : Db) (inputWatermark : Int) : Db :=
  match db.job globalJobId with
  | none => db.setJob globalJobId (pendingGlobalJob inputWatermark)
  | some job => db.setJob globalJobId (enqueuedGlobalJob inputWatermark job)

/-- The upsert of an output: a newer source, or as new, replaces. -/
def upsertOutput (db : Db) (threadId : Str) (output : Stage1Output) : Db :=
  if (db.output threadId).all fun old => old.sourceUpdatedAt ≤ output.sourceUpdatedAt then
    db.setOutput threadId output
  else db

def markStage1JobSucceeded (db : Db) (now : Int) (threadId token : Str) (sourceUpdatedAt : Int)
    (rawMemory rolloutSummary : Str) (rolloutSlug : Option Str) : Except DbError Bool × Db :=
  match db.updateJob (stage1JobId threadId) (·.ownedBy token) (succeededStage1Job now) with
  | none => (.ok false, db)
  | some db' =>
    -- an error rolls the transaction back
    if (db.output threadId).isNone && (db.threads.lookup threadId).isNone then
      (.error .foreignKey, db)
    else
      (.ok true,
        (db'.upsertOutput threadId ⟨sourceUpdatedAt, rawMemory, rolloutSummary, rolloutSlug, now⟩
          ).enqueueGlobalConsolidation sourceUpdatedAt)

def markStage1JobSucceededNoOutput (db : Db) (now : Int) (threadId token : Str) :
    Except DbError Bool × Db :=
  match db.updateJob (stage1JobId threadId) (·.ownedBy token) (succeededStage1Job now) with
  | none => (.ok false, db)
  | some db' =>
    match (db'.job (stage1JobId threadId)).bind Job.inputWatermark with
    | none => (.error .decode, db)
    | some sourceUpdatedAt =>
      (.ok true, (db'.deleteOutput threadId).enqueueGlobalConsolidation sourceUpdatedAt)

/-- A single `UPDATE`, and whether it affected a row. -/
def finish (db : Db) (updated : Option Db) : Bool × Db :=
  match updated with
  | none => (false, db)
  | some db' => (true, db')

def markStage1JobFailed (db : Db) (now : Int) (threadId token failureReason : Str)
    (retryDelaySeconds : Int) : Bool × Db :=
  db.finish (db.updateJob (stage1JobId threadId) (·.ownedBy token)
    (failedJob now retryDelaySeconds failureReason))

/-! ## Phase 2 -/

/-- `input_watermark > COALESCE(last_success_watermark, 0)`, a NULL watermark not dirty. -/
def dirty (job : Job) : Bool :=
  job.inputWatermark.any fun w => job.lastSuccessWatermark.getD 0 < w

def claimedGlobalJob (now : Int) (workerId : Str) (leaseSeconds : Int) (token : Str)
    (job : Job) : Job :=
  { job with
    status := .running
    workerId := workerId
    ownershipToken := token
    startedAt := now
    finishedAt := none
    leaseUntil := after now leaseSeconds
    retryAt := none
    lastError := none }

def tryClaimGlobalPhase2Job (db : Db) (now : Int) (workerId : Str) (leaseSeconds : Int)
    (token : Str) : Phase2JobClaimOutcome × Db :=
  match db.job globalJobId with
  | none => (.skippedNotDirty, db)
  | some job =>
    if job.inputWatermark.getD 0 ≤ job.lastSuccessWatermark.getD 0 then (.skippedNotDirty, db)
    else if job.retryRemaining ≤ 0 then (.skippedNotDirty, db)
    else if job.retryAt.any fun r => now < r then (.skippedNotDirty, db)
    else if job.live now then (.skippedRunning, db)
    else
      match db.updateJob globalJobId
          (fun job => dirty job && job.free now && job.retryDue now && 0 < job.retryRemaining)
          (claimedGlobalJob now workerId leaseSeconds token) with
      | none => (.skippedRunning, db)
      | some db' => (.claimed token (job.inputWatermark.getD 0), db')

def heartbeatGlobalPhase2Job (db : Db) (now : Int) (token : Str) (leaseSeconds : Int) :
    Bool × Db :=
  db.finish (db.updateJob globalJobId (·.ownedBy token)
    fun job => { job with leaseUntil := after now leaseSeconds })

def succeededGlobalJob (now completedWatermark : Int) (job : Job) : Job :=
  { job with
    status := .done
    finishedAt := now
    leaseUntil := none
    lastError := none
    lastSuccessWatermark := max (job.lastSuccessWatermark.getD 0) completedWatermark }

def markGlobalPhase2JobSucceeded (db : Db) (now : Int) (token : Str) (completedWatermark : Int) :
    Bool × Db :=
  db.finish (db.updateJob globalJobId (·.ownedBy token) (succeededGlobalJob now completedWatermark))

def markGlobalPhase2JobFailed (db : Db) (now : Int) (token failureReason : Str)
    (retryDelaySeconds : Int) : Bool × Db :=
  db.finish (db.updateJob globalJobId (·.ownedBy token)
    (failedJob now retryDelaySeconds failureReason))

/-- The fallback also takes a running row without a token. -/
def markGlobalPhase2JobFailedIfUnowned (db : Db) (now : Int) (token failureReason : Str)
    (retryDelaySeconds : Int) : Bool × Db :=
  db.finish (db.updateJob globalJobId
    (fun job => job.status = .running &&
      (job.ownershipToken = some token || job.ownershipToken = none))
    (failedJob now retryDelaySeconds failureReason))

/-! ## The worker's list -/

/-- `length(trim(s)) > 0`: `trim` removes spaces, `length` stops at a nul. -/
def nonBlank (s : Str) : Bool :=
  !(((s.dropWhile (· == ' ')).rdropWhile (· == ' ')).takeWhile (· != '\x00')).isEmpty

/-- `ORDER BY source_updated_at DESC, thread_id DESC`. -/
def listedBefore (a b : Str × Stage1Output) : Prop :=
  b.2.sourceUpdatedAt < a.2.sourceUpdatedAt ∨
    b.2.sourceUpdatedAt = a.2.sourceUpdatedAt ∧ b.1 ≤ a.1

instance : DecidableRel listedBefore := fun a b => by
  unfold listedBefore
  infer_instance

/-- The most recent outputs that are not blank, with their threads' directories. -/
def listStage1OutputsForGlobal (db : Db) (n : Nat) : List (Str × Stage1Output × Str) :=
  if n = 0 then []
  else
    let rows := (db.stage1Outputs.entries.map fun e => (e.1, e.2)).filter fun (_, o) =>
      nonBlank o.rawMemory || nonBlank o.rolloutSummary
    let rows := rows.insertionSort listedBefore
    -- a negative limit is no limit
    let rows := if asI64 n < 0 then rows else rows.take (asI64 n).toNat
    rows.map fun (threadId, o) => (threadId, o, (db.threads.lookup threadId).getD [])

end Db

end SheriMl.Memories
