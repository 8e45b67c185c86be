import Mathlib.Logic.Function.Basic
import SheriMl.Lib.Lease
import SheriMl.Lib.Transition
import SheriMl.Memories.Db

/-!
# Leases on memory jobs

A row of `jobs` as a leased resource (`Lib/Lease`), what each transaction does to
it, and any number of workers running the transactions in any order under a clock
that only moves forward (`System`). A transaction reads its time before it takes
the database, so its time may be behind the clock. Tokens of claims are fresh
(version 4 UUIDs).
-/

namespace SheriMl.Memories

open Lease

/-! ## Rows as leased resources -/

/-- The last owner, and its lease while the job runs. -/
def Job.holder (job : Job) : Holder Str Int :=
  ⟨job.ownershipToken, if job.status = .running then job.leaseUntil else none⟩

namespace Db

def holder (db : Db) (id : JobId) : Holder Str Int :=
  ((db.job id).map Job.holder).getD ⟨none, none⟩

/-- A running row has an owner and a lease. -/
def WF (db : Db) : Prop :=
  ∀ id job, db.job id = some job → job.status = .running →
    job.ownershipToken.isSome ∧ job.leaseUntil.isSome

section Rows

variable {db db' : Db} {id : JobId} {job : Job} {threadId : Str} {o : Stage1Output}

theorem job_setJob (id' : JobId) :
    (db.setJob id job).job id' = if id' = id then some job else db.job id' := by
  unfold Db.job setJob
  by_cases h : id' = id
  · subst h
    simp
  · simp [h, AList.lookup_insert_ne h]

@[simp] theorem job_setJob_self : (db.setJob id job).job id = some job := by
  simp [job_setJob]

theorem job_setJob_of_ne {id' : JobId} (h : id' ≠ id) : (db.setJob id job).job id' = db.job id' := by
  simp [job_setJob, h]

@[simp] theorem job_deleteOutput : (db.deleteOutput threadId).job = db.job := rfl

theorem jobs_upsertOutput (db : Db) (threadId : Str) (o : Stage1Output) :
    (db.upsertOutput threadId o).jobs = db.jobs := by
  unfold upsertOutput
  split <;> rfl

@[simp] theorem job_upsertOutput : (db.upsertOutput threadId o).job = db.job := by
  unfold Db.job
  rw [jobs_upsertOutput]

theorem updateJob_eq_some {cond : Job → Bool} {f : Job → Job} :
    db.updateJob id cond f = some db' ↔
      ∃ job, db.job id = some job ∧ cond job = true ∧ db' = db.setJob id (f job) := by
  simp only [updateJob, Option.map_eq_some_iff, Option.filter_eq_some_iff]
  constructor
  · rintro ⟨job, ⟨hjob, hcond⟩, rfl⟩
    exact ⟨job, hjob, hcond, rfl⟩
  · rintro ⟨job, hjob, hcond, rfl⟩
    exact ⟨job, ⟨hjob, hcond⟩, rfl⟩

theorem updateJob_eq_none {cond : Job → Bool} {f : Job → Job}
    (h : ∀ job, db.job id = some job → cond job = false) : db.updateJob id cond f = none := by
  rw [Option.eq_none_iff_forall_ne_some]
  intro db' hdb'
  obtain ⟨job, hjob, hcond, -⟩ := updateJob_eq_some.1 hdb'
  rw [h job hjob] at hcond
  cases hcond

theorem holder_of_job (h : db.job id = some job) : db.holder id = job.holder := by
  simp [holder, h]

theorem holder_setJob : (db.setJob id job).holder = Function.update db.holder id job.holder := by
  funext id'
  rw [Function.update_apply, holder, job_setJob]
  split <;> rfl

theorem holder_congr (h : db'.job = db.job) : db'.holder = db.holder := by
  unfold holder
  rw [h]

theorem WF.congr (hwf : db.WF) (h : db'.job = db.job) : db'.WF := by
  unfold WF
  rw [h]
  exact hwf

theorem WF.setJob (hwf : db.WF)
    (hjob : job.status = .running → job.ownershipToken.isSome ∧ job.leaseUntil.isSome) :
    (db.setJob id job).WF := by
  intro id' job' h hrun
  rw [job_setJob] at h
  split at h
  · cases h
    exact hjob hrun
  · exact hwf id' job' h hrun

theorem holder_enqueueGlobalConsolidation (w : Int) :
    (db.enqueueGlobalConsolidation w).holder = db.holder := by
  unfold enqueueGlobalConsolidation
  split
  · next hnone =>
    rw [holder_setJob, Function.update_eq_self_iff]
    simp [holder, hnone, Job.holder, pendingGlobalJob]
  · next job hjob =>
    rw [holder_setJob, Function.update_eq_self_iff, holder_of_job hjob]
    -- running stays running, and nothing else has a lease
    by_cases hrun : job.status = .running
    · simp [Job.holder, enqueuedGlobalJob, hrun]
    · simp [Job.holder, enqueuedGlobalJob, hrun]

theorem WF.enqueueGlobalConsolidation (hwf : db.WF) (w : Int) :
    (db.enqueueGlobalConsolidation w).WF := by
  unfold Db.enqueueGlobalConsolidation
  split
  · exact hwf.setJob (by simp [pendingGlobalJob])
  · next job hjob =>
    refine hwf.setJob fun hrun => ?_
    have hrun' : job.status = .running := by
      by_contra h
      simp [enqueuedGlobalJob, h] at hrun
    exact hwf _ job hjob hrun'

end Rows

/-! ## What a transaction does to a row -/

/-- The holder of `id` takes the step that its caller is told of; the other holders stay. -/
structure Told (db : Db) (now : Int) (id : JobId) (e : Event Str Int) (db' : Db) : Prop where
  wf : db'.WF
  step : ∃ h', (db.holder id).Step now e h' ∧ db'.holder = Function.update db.holder id h'

/-- No holder changes. -/
structure Silent (db db' : Db) : Prop where
  wf : db'.WF
  holder : db'.holder = db.holder

section Transactions

variable {db db' : Db} {id : JobId} {now : Int} {token : Str} {f : Job → Job}

theorem ownedBy_iff {job : Job} :
    job.ownedBy token = true ↔ job.status = .running ∧ job.ownershipToken = some token := by
  simp [Job.ownedBy]

theorem Silent.refl (hwf : db.WF) : Silent db db := ⟨hwf, rfl⟩

theorem Told.finished {cond : Job → Bool} (hwf : db.WF)
    (h : db.updateJob id cond f = some db')
    (hcond : ∀ job, db.job id = some job → cond job = true → job.ownedBy token = true)
    (hf : ∀ job, (f job).status ≠ .running ∧ (f job).ownershipToken = job.ownershipToken) :
    Told db now id (.finished token) db' := by
  obtain ⟨job, hjob, hc, rfl⟩ := updateJob_eq_some.1 h
  obtain ⟨hrun, htok⟩ := ownedBy_iff.1 (hcond job hjob hc)
  obtain ⟨hstatus, htok'⟩ := hf job
  refine ⟨hwf.setJob fun hr => absurd hr hstatus, ⟨some token, none⟩, ?_, ?_⟩
  · rw [holder_of_job hjob]
    refine .finished htok ?_
    simpa [Job.holder, hrun] using (hwf id job hjob hrun).2
  · rw [holder_setJob]
    congr 1
    simp [Job.holder, hstatus, htok', htok]

theorem Told.extended {u : Int} (hwf : db.WF)
    (h : db.updateJob id (·.ownedBy token) f = some db')
    (hf : ∀ job, (f job).status = job.status ∧ (f job).ownershipToken = job.ownershipToken ∧
      (f job).leaseUntil = some u) :
    Told db now id (.extended token u) db' := by
  obtain ⟨job, hjob, hc, rfl⟩ := updateJob_eq_some.1 h
  obtain ⟨hrun, htok⟩ := ownedBy_iff.1 hc
  obtain ⟨hstatus, htok', hlease⟩ := hf job
  refine ⟨hwf.setJob fun _ => by simp [htok', htok, hlease], ⟨some token, some u⟩, ?_, ?_⟩
  · rw [holder_of_job hjob]
    refine .extended htok ?_
    simpa [Job.holder, hrun] using (hwf id job hjob hrun).2
  · rw [holder_setJob]
    congr 1
    simp [Job.holder, hstatus, hrun, htok', htok, hlease]

/-- A claim writes a running row with the caller's token over a free one. -/
theorem Told.claimed {u : Int} {job : Job} (hwf : db.WF)
    (hfree : ∀ old, db.job id = some old → old.free now = true)
    (hrun : job.status = .running) (htok : job.ownershipToken = some token)
    (hlease : job.leaseUntil = some u) :
    Told db now id (.claimed token u) (db.setJob id job) := by
  refine ⟨hwf.setJob fun _ => by simp [htok, hlease], ⟨some token, some u⟩, .claimed ?_, ?_⟩
  · intro u' hu'
    cases hold : db.job id with
    | none => simp [holder, hold] at hu'
    | some old =>
      rw [holder_of_job hold] at hu'
      have := hfree old hold
      by_cases hr : old.status = .running
      · simp_all [Job.holder, Job.free]
      · simp [Job.holder, hr] at hu'
  · rw [holder_setJob]
    congr 1
    simp [Job.holder, hrun, htok, hlease]

/-- The tables that a further enqueue and a write of an output leave alone. -/
theorem Told.congr {e : Event Str Int} {db'' : Db} (h : Told db now id e db')
    (hwf : db''.WF) (hholder : db''.holder = db'.holder) : Told db now id e db'' := by
  obtain ⟨h', hstep, heq⟩ := h.step
  exact ⟨hwf, h', hstep, hholder.trans heq⟩

theorem countRunning_mono {p q : Str → Bool} (h : ∀ key, p key = true → q key = true) :
    db.countRunning now p ≤ db.countRunning now q := by
  refine List.countP_mono_left fun e _ he => ?_
  simp only [Bool.and_eq_true] at he ⊢
  exact ⟨he.1, h _ he.2⟩

/-- What a successful stage-1 claim has checked, and the row it writes. -/
structure Stage1Claimed (db : Db) (now : Int) (threadId : Str) (sourceUpdatedAt leaseSeconds : Int)
    (maxRunningJobs : Nat) (token : Str) (job : Job) : Prop where
  free : ∀ old, db.job (stage1JobId threadId) = some old → old.free now = true
  below : db.countRunning now (fun key => key ≠ threadId) < asI64 maxRunningJobs
  status : job.status = .running
  token : job.ownershipToken = some token
  lease : job.leaseUntil = some (after now leaseSeconds)
  watermark : job.inputWatermark = some sourceUpdatedAt

theorem stage1SkipOutcome_ne_claimed (job : Option Job) (now : Int) (t : Str) :
    stage1SkipOutcome job now ≠ .claimed t := by
  unfold stage1SkipOutcome
  split
  · simp
  · split
    · simp
    · split <;> simp

theorem claimStage1Upsert_eq_some {threadId workerId : Str} {sourceUpdatedAt leaseSeconds : Int}
    {maxRunningJobs : Nat}
    (h : db.claimStage1Upsert now threadId workerId sourceUpdatedAt leaseSeconds maxRunningJobs
      token = some db') :
    ∃ job, db' = db.setJob (stage1JobId threadId) job ∧
      Stage1Claimed db now threadId sourceUpdatedAt leaseSeconds maxRunningJobs token job := by
  unfold claimStage1Upsert at h
  split at h
  · next hcount =>
    split at h
    · next hnone =>
      cases h
      refine ⟨_, rfl, by simp [hnone], ?_, rfl, rfl, rfl, rfl⟩
      refine lt_of_le_of_lt (Int.ofNat_le.2 (countRunning_mono ?_)) hcount
      exact fun _ _ => rfl
    · next job hjob =>
      split at h
      · next hc =>
        cases h
        simp only [Bool.and_eq_true, decide_eq_true_eq] at hc
        refine ⟨_, rfl, fun old hold => ?_, hc.2, rfl, rfl, rfl, rfl⟩
        rw [hjob] at hold
        cases hold
        exact hc.1.1.1
      · cases h
  · cases h

end Transactions

/-! ## The transactions one by one -/

section Cases

variable (db : Db) (now : Int) (token : Str)

theorem tryClaimStage1Job_cases (threadId workerId : Str) (sourceUpdatedAt leaseSeconds : Int)
    (maxRunningJobs : Nat) :
    (∃ o, db.tryClaimStage1Job now threadId workerId sourceUpdatedAt leaseSeconds maxRunningJobs
        token = (o, db) ∧ ∀ t, o ≠ .claimed t) ∨
      ∃ job, db.tryClaimStage1Job now threadId workerId sourceUpdatedAt leaseSeconds maxRunningJobs
          token = (.claimed token, db.setJob (stage1JobId threadId) job) ∧
        Stage1Claimed db now threadId sourceUpdatedAt leaseSeconds maxRunningJobs token job := by
  unfold tryClaimStage1Job
  split
  · exact .inl ⟨_, rfl, by simp⟩
  · split
    · next h =>
      obtain ⟨job, rfl, hjob⟩ := claimStage1Upsert_eq_some h
      exact .inr ⟨job, rfl, hjob⟩
    · exact .inl ⟨_, rfl, stage1SkipOutcome_ne_claimed _ _⟩

/-- A global claim changes nothing, or takes a dirty, free row that is due for a try. -/
theorem tryClaimGlobalPhase2Job_cases (workerId : Str) (leaseSeconds : Int) :
    (∃ o, db.tryClaimGlobalPhase2Job now workerId leaseSeconds token = (o, db) ∧
        ∀ t w, o ≠ .claimed t w) ∨
      ∃ job w, db.job globalJobId = some job ∧ job.inputWatermark = some w ∧
        job.lastSuccessWatermark.getD 0 < w ∧ job.free now = true ∧ job.retryDue now = true ∧
        db.tryClaimGlobalPhase2Job now workerId leaseSeconds token =
          (.claimed token w,
            db.setJob globalJobId (claimedGlobalJob now workerId leaseSeconds token job)) := by
  unfold tryClaimGlobalPhase2Job
  split
  · exact .inl ⟨_, rfl, by simp⟩
  · next job hjob =>
    split
    · exact .inl ⟨_, rfl, by simp⟩
    split
    · exact .inl ⟨_, rfl, by simp⟩
    split
    · exact .inl ⟨_, rfl, by simp⟩
    split
    · exact .inl ⟨_, rfl, by simp⟩
    split
    · exact .inl ⟨_, rfl, by simp⟩
    · next h =>
      obtain ⟨job', hjob', hc, rfl⟩ := updateJob_eq_some.1 h
      obtain rfl : job = job' := Option.some.inj (hjob ▸ hjob')
      simp only [Bool.and_eq_true, dirty, Option.any_eq_true, decide_eq_true_eq] at hc
      obtain ⟨⟨⟨⟨w, hw, hdirty⟩, hfree⟩, hdue⟩, -⟩ := hc
      exact .inr ⟨job, w, hjob, hw, hdirty, hfree, hdue, by rw [hw]; rfl⟩

/-- A success keeps the database, or finishes the owner's row, stores the output and
enqueues phase 2. -/
theorem markStage1JobSucceeded_cases (threadId : Str) (sourceUpdatedAt : Int)
    (rawMemory rolloutSummary : Str) (rolloutSlug : Option Str) :
    (∃ r, db.markStage1JobSucceeded now threadId token sourceUpdatedAt rawMemory rolloutSummary
        rolloutSlug = (r, db) ∧ r ≠ .ok true) ∨
      ∃ db₁, db.updateJob (stage1JobId threadId) (·.ownedBy token) (succeededStage1Job now) =
          some db₁ ∧
        db.markStage1JobSucceeded now threadId token sourceUpdatedAt rawMemory rolloutSummary
            rolloutSlug =
          (.ok true,
            (db₁.upsertOutput threadId
              ⟨sourceUpdatedAt, rawMemory, rolloutSummary, rolloutSlug, now⟩
              ).enqueueGlobalConsolidation sourceUpdatedAt) := by
  unfold markStage1JobSucceeded
  split
  · exact .inl ⟨_, rfl, by simp⟩
  · next db₁ h =>
    split
    · exact .inl ⟨_, rfl, by simp⟩
    · exact .inr ⟨db₁, h, rfl⟩

theorem markStage1JobSucceededNoOutput_cases (threadId : Str) :
    (∃ r, db.markStage1JobSucceededNoOutput now threadId token = (r, db) ∧ r ≠ .ok true) ∨
      ∃ db₁ w, db.updateJob (stage1JobId threadId) (·.ownedBy token) (succeededStage1Job now) =
          some db₁ ∧
        db.markStage1JobSucceededNoOutput now threadId token =
          (.ok true, (db₁.deleteOutput threadId).enqueueGlobalConsolidation w) := by
  unfold markStage1JobSucceededNoOutput
  split
  · exact .inl ⟨_, rfl, by simp⟩
  · next db₁ h =>
    split
    · exact .inl ⟨_, rfl, by simp⟩
    · next w _ => exact .inr ⟨db₁, w, h, rfl⟩

theorem finish_cases (updated : Option Db) :
    (updated = none ∧ db.finish updated = (false, db)) ∨
      ∃ db', updated = some db' ∧ db.finish updated = (true, db') := by
  cases updated with
  | none => exact .inl ⟨rfl, rfl⟩
  | some db' => exact .inr ⟨db', rfl, rfl⟩

end Cases

end Db

/-! ## Workers -/

/-- A transaction with its arguments; a claim with the token it generates. -/
inductive Op where
  | claimStage1 (threadId workerId : Str) (sourceUpdatedAt leaseSeconds : Int)
      (maxRunningJobs : Nat) (token : Str)
  | succeedStage1 (threadId token : Str) (sourceUpdatedAt : Int)
      (rawMemory rolloutSummary : Str) (rolloutSlug : Option Str)
  | succeedStage1NoOutput (threadId token : Str)
  | failStage1 (threadId token failureReason : Str) (retryDelaySeconds : Int)
  | enqueueGlobal (inputWatermark : Int)
  | claimGlobal (workerId : Str) (leaseSeconds : Int) (token : Str)
  | heartbeatGlobal (token : Str) (leaseSeconds : Int)
  | succeedGlobal (token : Str) (completedWatermark : Int)
  | failGlobal (token failureReason : Str) (retryDelaySeconds : Int)
  | failGlobalIfUnowned (token failureReason : Str) (retryDelaySeconds : Int)

/-- What the caller gets back. -/
inductive Reply where
  | stage1Claim (outcome : Stage1JobClaimOutcome)
  | phase2Claim (outcome : Phase2JobClaimOutcome)
  | applied (result : Except DbError Bool)
  | enqueued

namespace Op

def exec (db : Db) (now : Int) : Op → Reply × Db
  | claimStage1 threadId workerId source lease maxRunning token =>
    let r := db.tryClaimStage1Job now threadId workerId source lease maxRunning token
    (.stage1Claim r.1, r.2)
  | succeedStage1 threadId token source rawMemory rolloutSummary rolloutSlug =>
    let r := db.markStage1JobSucceeded now threadId token source rawMemory rolloutSummary
      rolloutSlug
    (.applied r.1, r.2)
  | succeedStage1NoOutput threadId token =>
    let r := db.markStage1JobSucceededNoOutput now threadId token
    (.applied r.1, r.2)
  | failStage1 threadId token reason delay =>
    let r := db.markStage1JobFailed now threadId token reason delay
    (.applied (.ok r.1), r.2)
  | enqueueGlobal w => (.enqueued, db.enqueueGlobalConsolidation w)
  | claimGlobal workerId lease token =>
    let r := db.tryClaimGlobalPhase2Job now workerId lease token
    (.phase2Claim r.1, r.2)
  | heartbeatGlobal token lease =>
    let r := db.heartbeatGlobalPhase2Job now token lease
    (.applied (.ok r.1), r.2)
  | succeedGlobal token completed =>
    let r := db.markGlobalPhase2JobSucceeded now token completed
    (.applied (.ok r.1), r.2)
  | failGlobal token reason delay =>
    let r := db.markGlobalPhase2JobFailed now token reason delay
    (.applied (.ok r.1), r.2)
  | failGlobalIfUnowned token reason delay =>
    let r := db.markGlobalPhase2JobFailedIfUnowned now token reason delay
    (.applied (.ok r.1), r.2)

/-- The token a claim generates. -/
def newToken : Op → Option Str
  | claimStage1 _ _ _ _ _ token => some token
  | claimGlobal _ _ token => some token
  | _ => none

/-- The job an operation under a token is about, and the token. -/
def under : Op → Option (JobId × Str)
  | succeedStage1 threadId token _ _ _ _ => some (stage1JobId threadId, token)
  | succeedStage1NoOutput threadId token => some (stage1JobId threadId, token)
  | failStage1 threadId token _ _ => some (stage1JobId threadId, token)
  | heartbeatGlobal token _ => some (globalJobId, token)
  | succeedGlobal token _ => some (globalJobId, token)
  | failGlobal token _ _ => some (globalJobId, token)
  | failGlobalIfUnowned token _ _ => some (globalJobId, token)
  | _ => none

/-- What a reply tells the caller about the lease on a job. -/
def told (now : Int) : Op → Reply → Option (JobId × Event Str Int)
  | claimStage1 threadId _ _ lease _ _, .stage1Claim (.claimed token) =>
    some (stage1JobId threadId, .claimed token (after now lease))
  | claimGlobal _ lease _, .phase2Claim (.claimed token _) =>
    some (globalJobId, .claimed token (after now lease))
  | heartbeatGlobal token lease, .applied (.ok true) =>
    some (globalJobId, .extended token (after now lease))
  | op, .applied (.ok true) => op.under.map fun (id, token) => (id, .finished token)
  | _, _ => none

section Exec

variable {db : Db} {now : Int}

/-- Either nobody's lease changes, or the caller is told how its lease changes. -/
def Tells (db : Db) (now : Int) (op : Op) : Prop :=
  (op.told now (op.exec db now).1 = none ∧ Db.Silent db (op.exec db now).2) ∨
    ∃ id e, op.told now (op.exec db now).1 = some (id, e) ∧ e.claim = op.newToken ∧
      Db.Told db now id e (op.exec db now).2

theorem tells_claimStage1 (hwf : db.WF) (threadId workerId : Str) (source lease : Int)
    (maxRunning : Nat) (token : Str) :
    Tells db now (.claimStage1 threadId workerId source lease maxRunning token) := by
  unfold Tells
  rcases Db.tryClaimStage1Job_cases db now token threadId workerId
    source lease maxRunning with ⟨o, ho, hne⟩ | ⟨job, hc, hjob⟩
  · rw [exec, ho]
    refine .inl ⟨?_, .refl hwf⟩
    cases o with
    | claimed t => exact absurd rfl (hne t)
    | _ => rfl
  · rw [exec, hc]
    exact .inr ⟨_, _, rfl, rfl, .claimed hwf hjob.free hjob.status hjob.token hjob.lease⟩

theorem tells_claimGlobal (hwf : db.WF) (workerId : Str) (lease : Int) (token : Str) :
    Tells db now (.claimGlobal workerId lease token) := by
  unfold Tells
  rcases Db.tryClaimGlobalPhase2Job_cases db now token workerId lease
    with ⟨o, ho, hne⟩ | ⟨job, w, hjob, -, -, hfree, -, hc⟩
  · rw [exec, ho]
    refine .inl ⟨?_, .refl hwf⟩
    cases o with
    | claimed t w => exact absurd rfl (hne t w)
    | _ => rfl
  · rw [exec, hc]
    refine .inr ⟨_, _, rfl, rfl, .claimed hwf (fun old hold => ?_) rfl rfl rfl⟩
    rw [hjob] at hold
    cases hold
    exact hfree

theorem tells_succeedStage1 (hwf : db.WF) (threadId token : Str) (source : Int)
    (rawMemory rolloutSummary : Str) (rolloutSlug : Option Str) :
    Tells db now (.succeedStage1 threadId token source rawMemory rolloutSummary rolloutSlug) := by
  unfold Tells
  rcases Db.markStage1JobSucceeded_cases db now token threadId source
    rawMemory rolloutSummary rolloutSlug with ⟨r, hr, hne⟩ | ⟨db₁, hupd, hr⟩
  · rw [exec, hr]
    refine .inl ⟨?_, .refl hwf⟩
    rcases r with e | b
    · rfl
    · cases b with
      | true => exact absurd rfl hne
      | false => rfl
  · rw [exec, hr]
    have hfin : Db.Told db now (stage1JobId threadId) (.finished token) db₁ :=
      .finished hwf hupd (fun _ _ h => h) fun job => ⟨by simp [Db.succeededStage1Job], rfl⟩
    refine .inr ⟨_, _, rfl, rfl, hfin.congr ?_ ?_⟩
    · exact (hfin.wf.congr Db.job_upsertOutput).enqueueGlobalConsolidation _
    · rw [Db.holder_enqueueGlobalConsolidation, Db.holder_congr Db.job_upsertOutput]

theorem tells_succeedStage1NoOutput (hwf : db.WF) (threadId token : Str) :
    Tells db now (.succeedStage1NoOutput threadId token) := by
  unfold Tells
  rcases Db.markStage1JobSucceededNoOutput_cases db now token threadId
    with ⟨r, hr, hne⟩ | ⟨db₁, w, hupd, hr⟩
  · rw [exec, hr]
    refine .inl ⟨?_, .refl hwf⟩
    rcases r with e | b
    · rfl
    · cases b with
      | true => exact absurd rfl hne
      | false => rfl
  · rw [exec, hr]
    have hfin : Db.Told db now (stage1JobId threadId) (.finished token) db₁ :=
      .finished hwf hupd (fun _ _ h => h) fun job => ⟨by simp [Db.succeededStage1Job], rfl⟩
    refine .inr ⟨_, _, rfl, rfl, hfin.congr ?_ ?_⟩
    · exact (hfin.wf.congr Db.job_deleteOutput).enqueueGlobalConsolidation _
    · rw [Db.holder_enqueueGlobalConsolidation, Db.holder_congr Db.job_deleteOutput]

theorem tells_finish {op : Op} {id : JobId} {token : Str} {cond : Job → Bool} {f : Job → Job}
    (hwf : db.WF)
    (hexec : op.exec db now = (.applied (.ok (db.finish (db.updateJob id cond f)).1),
      (db.finish (db.updateJob id cond f)).2))
    (htold : op.told now (.applied (.ok true)) = some (id, .finished token))
    (hsilent : op.told now (.applied (.ok false)) = none) (hnew : op.newToken = none)
    (hcond : ∀ job, db.job id = some job → cond job = true → job.ownedBy token = true)
    (hf : ∀ job, (f job).status ≠ .running ∧ (f job).ownershipToken = job.ownershipToken) :
    Tells db now op := by
  unfold Tells
  rw [hexec]
  rcases Db.finish_cases db (db.updateJob id cond f) with ⟨-, h⟩ | ⟨db', hupd, h⟩
  · rw [h]
    exact .inl ⟨hsilent, .refl hwf⟩
  · rw [h]
    exact .inr ⟨_, _, htold, hnew.symm, .finished hwf hupd hcond hf⟩

theorem tells_heartbeatGlobal (hwf : db.WF) (token : Str) (lease : Int) :
    Tells db now (.heartbeatGlobal token lease) := by
  unfold Tells
  rcases Db.finish_cases db (db.updateJob globalJobId (·.ownedBy token)
    fun job => { job with leaseUntil := after now lease }) with ⟨-, h⟩ | ⟨db', hupd, h⟩
  · rw [exec, Db.heartbeatGlobalPhase2Job, h]
    exact .inl ⟨rfl, .refl hwf⟩
  · rw [exec, Db.heartbeatGlobalPhase2Job, h]
    exact .inr ⟨_, _, rfl, rfl, .extended hwf hupd fun job => ⟨rfl, rfl, rfl⟩⟩

theorem failedJob_ended (delay : Int) (reason : Str) (job : Job) :
    (Db.failedJob now delay reason job).status ≠ .running ∧
      (Db.failedJob now delay reason job).ownershipToken = job.ownershipToken :=
  ⟨by simp [Db.failedJob], rfl⟩

/-- A running row has an owner, so the fallback takes the caller's own row only. -/
theorem ownedBy_of_unowned {id : JobId} {job : Job} {token : Str} (hwf : db.WF)
    (hjob : db.job id = some job)
    (h : (job.status = .running && (job.ownershipToken = some token ||
      job.ownershipToken = none)) = true) : job.ownedBy token = true := by
  simp only [Bool.and_eq_true, Bool.or_eq_true, decide_eq_true_eq] at h
  obtain ⟨hrun, htok | hnone⟩ := h
  · exact Db.ownedBy_iff.2 ⟨hrun, htok⟩
  · have := (hwf id job hjob hrun).1
    simp [hnone] at this

theorem tells (hwf : db.WF) (now : Int) (op : Op) : Tells db now op := by
  cases op with
  | claimStage1 => exact tells_claimStage1 hwf ..
  | succeedStage1 => exact tells_succeedStage1 hwf ..
  | succeedStage1NoOutput => exact tells_succeedStage1NoOutput hwf ..
  | failStage1 threadId token reason delay =>
    exact tells_finish hwf rfl rfl rfl rfl (fun _ _ h => h) (failedJob_ended delay reason)
  | enqueueGlobal w =>
    exact .inl ⟨rfl, hwf.enqueueGlobalConsolidation w, Db.holder_enqueueGlobalConsolidation w⟩
  | claimGlobal => exact tells_claimGlobal hwf ..
  | heartbeatGlobal => exact tells_heartbeatGlobal hwf ..
  | succeedGlobal token completed =>
    exact tells_finish hwf rfl rfl rfl rfl (fun _ _ h => h)
      fun job => ⟨by simp [Db.succeededGlobalJob], rfl⟩
  | failGlobal token reason delay =>
    exact tells_finish hwf rfl rfl rfl rfl (fun _ _ h => h) (failedJob_ended delay reason)
  | failGlobalIfUnowned token reason delay =>
    exact tells_finish hwf rfl rfl rfl rfl (fun _ hjob h => ownedBy_of_unowned hwf hjob h)
      (failedJob_ended delay reason)

/-- Under a token that is not the row's, an operation returns false and leaves the
database as it is. -/
theorem exec_of_not_owner (hwf : db.WF) {op : Op} {id : JobId} {token : Str}
    (hunder : op.under = some (id, token)) (hne : (db.holder id).token ≠ some token) :
    op.exec db now = (.applied (.ok false), db) := by
  have hnot : ∀ job, db.job id = some job → job.ownedBy token = false := by
    intro job hjob
    rw [Db.holder_of_job hjob] at hne
    rw [Bool.eq_false_iff]
    exact fun h => hne (Db.ownedBy_iff.1 h).2
  have hnone : ∀ f, db.updateJob id (·.ownedBy token) f = none :=
    fun f => Db.updateJob_eq_none hnot
  cases op with
  | failGlobalIfUnowned token' reason delay =>
    cases hunder
    have hnone' : db.updateJob globalJobId (fun job => job.status = .running &&
        (job.ownershipToken = some token || job.ownershipToken = none))
        (Db.failedJob now delay reason) = none := by
      refine Db.updateJob_eq_none fun job hjob => Bool.eq_false_iff.2 fun h => ?_
      have hown := ownedBy_of_unowned hwf hjob h
      rw [hnot job hjob] at hown
      cases hown
    simp only [exec, Db.markGlobalPhase2JobFailedIfUnowned, hnone', Db.finish]
  | claimStage1 | enqueueGlobal | claimGlobal => cases hunder
  | _ =>
    cases hunder
    simp only [exec, Db.markStage1JobSucceeded, Db.markStage1JobSucceededNoOutput,
      Db.markStage1JobFailed, Db.heartbeatGlobalPhase2Job, Db.markGlobalPhase2JobSucceeded,
      Db.markGlobalPhase2JobFailed, hnone, Db.finish]

end Exec

end Op

/-! ## Any number of workers -/

/-- The database, the clock, and what the workers were told about each job. -/
structure System where
  db : Db
  clock : Int
  log : JobId → List (Event Str Int)

inductive Label where
  | tick (later : Int)
  | exec (now : Int) (op : Op)

namespace System

/-- The log after a transaction. -/
def record (s : System) (now : Int) (op : Op) : JobId → List (Event Str Int) :=
  match op.told now (op.exec s.db now).1 with
  | none => s.log
  | some (id, e) => Function.update s.log id (e :: s.log id)

def exec (s : System) (now : Int) (op : Op) : System :=
  { s with db := (op.exec s.db now).2, log := s.record now op }

theorem mem_record {s : System} {id : JobId} {e : Event Str Int} (h : e ∈ s.log id) (now : Int)
    (op : Op) : e ∈ s.record now op id := by
  unfold record
  cases op.told now (op.exec s.db now).1 with
  | none => exact h
  | some p =>
    simp only [Function.update_apply]
    split
    · next hid => exact List.mem_cons_of_mem _ (hid ▸ h)
    · exact h

/-- No worker was told of this token. -/
def FreshToken (s : System) (token : Str) : Prop := ∀ id, ∀ e ∈ s.log id, e.token ≠ token

inductive Step : System → Label → System → Prop
  | tick {s : System} {later : Int} (h : s.clock ≤ later) :
      Step s (.tick later) { s with clock := later }
  | exec {s : System} {now : Int} {op : Op} (hnow : now ≤ s.clock)
      (hfresh : ∀ token ∈ op.newToken, s.FreshToken token) :
      Step s (.exec now op) (s.exec now op)

/-- No jobs and no outputs yet. -/
def init (threads : AList fun _ : Str => Str) (clock : Int) : System :=
  ⟨⟨∅, ∅, threads⟩, clock, fun _ => []⟩

def Initial (s : System) : Prop := ∃ threads clock, s = init threads clock

def Reachable : System → Prop := Transition.Reachable Step Initial

theorem freshToken_init (threads : AList fun _ : Str => Str) (clock : Int) (token : Str) :
    (init threads clock).FreshToken token := by
  intro id e he
  cases he

theorem FreshToken.exec {s : System} {now : Int} {op : Op} {token : Str} (h : s.FreshToken token)
    (hne : ∀ p ∈ op.told now (op.exec s.db now).1, p.2.token ≠ token) :
    (s.exec now op).FreshToken token := by
  intro id e he
  simp only [System.exec, record] at he
  cases htold : op.told now (op.exec s.db now).1 with
  | none =>
    rw [htold] at he
    exact h id e he
  | some p =>
    rw [htold] at he hne
    simp only [Function.update_apply] at he
    split at he
    · rcases List.mem_cons.1 he with rfl | he
      · exact hne p rfl
      · exact h p.1 e he
    · exact h id e he

/-- Every row is accounted for by what the workers were told. -/
structure Inv (s : System) : Prop where
  wf : s.db.WF
  tracks : ∀ id, Tracks (s.log id) s.clock (s.db.holder id)

theorem inv_init (threads : AList fun _ : Str => Str) (clock : Int) : (init threads clock).Inv where
  wf := fun id job h => by simp [init, Db.job] at h
  tracks := fun id => .nil clock

theorem Inv.step {s t : System} {l : Label} (hs : s.Inv) (h : Step s l t) : t.Inv := by
  cases h with
  | tick hlater => exact ⟨hs.wf, fun id => (hs.tracks id).tick hlater⟩
  | @exec now op hnow hfresh =>
    rcases op.tells hs.wf now with ⟨htold, hsil⟩ | ⟨id, e, htold, hclaim, htells⟩
    · refine ⟨hsil.wf, fun id => ?_⟩
      simp only [System.exec, record, htold, hsil.holder]
      exact hs.tracks id
    · obtain ⟨h', hstep, hholder⟩ := htells.step
      refine ⟨htells.wf, fun id' => ?_⟩
      simp only [System.exec, record, htold, hholder]
      by_cases hid : id' = id
      · subst hid
        simp only [Function.update_self]
        refine (hs.tracks id').step hstep hnow fun t ht => ?_
        rw [hclaim] at ht
        exact hfresh t ht id'
      · simp only [Function.update_of_ne hid]
        exact hs.tracks id'

theorem Reachable.inv {s : System} (h : s.Reachable) : s.Inv := by
  refine Transition.Reachable.invariant ?_ (fun hs hstep => hs.step hstep) h
  rintro _ ⟨threads, clock, rfl⟩
  exact inv_init threads clock

/-! ## Exclusive leases -/

/-- The leases of a state: they exclude each other, the rows hold what the owners were
told, a token finishes at most once, and a token that a later claim superseded does nothing. -/
structure LeaseSafe (s : System) : Prop where
  exclusive : ∀ id token token' u u', leaseOf token (s.log id) = some u → s.clock < u →
    leaseOf token' (s.log id) = some u' → s.clock < u' → token = token'
  row : ∀ id job token u, s.db.job id = some job → job.status = .running →
    job.ownershipToken = some token → job.leaseUntil = some u → leaseOf token (s.log id) = some u
  once : ∀ id token, (s.log id).count (.finished token) ≤ 1
  stale : ∀ (op : Op) id token now, op.under = some (id, token) →
    Superseded (s.log id) token → op.exec s.db now = (.applied (.ok false), s.db)

theorem leaseSafe_of_reachable {s : System} (h : s.Reachable) : s.LeaseSafe := by
  have hinv := h.inv
  refine ⟨?_, ?_, ?_, ?_⟩
  · intro id token token' u u' hu hlive hu' hlive'
    exact (hinv.tracks id).exclusive hu hlive hu' hlive'
  · intro id job token u hjob hrun htok hlease
    have hholder : s.db.holder id = ⟨some token, some u⟩ := by
      rw [Db.holder_of_job hjob, Job.holder, if_pos hrun, htok, hlease]
    have hl := (hinv.tracks id).lease token (by rw [hholder])
    rw [← hl, hholder]
  · intro id token
    exact (hinv.tracks id).once token
  · intro op id token now hunder hsup
    exact op.exec_of_not_owner hinv.wf hunder ((hinv.tracks id).token_ne_of_superseded hsup)

def firstClaim : System := (init ∅ 0).exec 0 (.claimStage1 "t" "w" 5 10 1 "a")

/-- The state after the end of its lease and a second claim. -/
def takenOver : System :=
  { firstClaim with clock := 20 }.exec 20 (.claimStage1 "t" "w" 5 10 1 "b")

theorem step_firstClaim :
    Step (init ∅ 0) (.exec 0 (.claimStage1 "t" "w" 5 10 1 "a")) firstClaim := by
  exact .exec (le_refl _) fun token _ => freshToken_init ∅ 0 token

theorem freshToken_firstClaim : firstClaim.FreshToken "b" :=
  (freshToken_init ∅ 0 "b").exec (by decide)

/-- The first worker wakes up after the take-over: its success is refused. -/
theorem leaseSafe_takenOver : takenOver.LeaseSafe ∧
    (Op.succeedStage1NoOutput "t" "a").exec takenOver.db 21 =
      (.applied (.ok false), takenOver.db) := by
  have hsecond : Step { firstClaim with clock := 20 }
      (.exec 20 (.claimStage1 "t" "w" 5 10 1 "b")) takenOver := by
    refine .exec (le_refl _) ?_
    rintro token ⟨⟩
    exact freshToken_firstClaim
  have hreach : takenOver.Reachable :=
    ⟨init ∅ 0, _, ⟨∅, 0, rfl⟩,
      .cons step_firstClaim (.cons (.tick (by decide)) (.single hsecond))⟩
  exact ⟨leaseSafe_of_reachable hreach,
    (leaseSafe_of_reachable hreach).stale _ _ _ _ rfl ⟨"b", by decide⟩⟩

end System

end SheriMl.Memories
