import SheriMl.Memories.Leases

/-!
# Phase-2 consolidation

The global job of `state/src/runtime/memories.rs` with the worker of
`core/src/memories/phase2.rs`: it claims the job, lists the stage-1 outputs, and
marks success with the watermark of what it listed. Stage-1 completions, other
workers and the clock run between its steps.

What a completion adds after the list is above the watermark of the list, so the
job is dirty after the success and the next claim takes it
(`consolidation_loses_no_work`).
-/

namespace SheriMl.Memories

open Lease

/-! ## The global row -/

namespace Db

def watermark (db : Db) : Option Int := (db.job globalJobId).bind Job.inputWatermark

def enqueuedRow (job : Option Job) (w : Int) : Job :=
  match job with
  | none => pendingGlobalJob w
  | some job => enqueuedGlobalJob w job

/-- Every output was there before, or its source is at most `w`. -/
def OutputsFrom (db db' : Db) (w : Int) : Prop :=
  ∀ threadId o, db'.output threadId = some o →
    db.output threadId = some o ∨ o.sourceUpdatedAt ≤ w

variable {db db' : Db} {id : JobId} {job : Job} {threadId : Str} {o : Stage1Output}

theorem job_enqueue (w : Int) : (db.enqueueGlobalConsolidation w).job globalJobId =
    some (enqueuedRow (db.job globalJobId) w) := by
  unfold enqueueGlobalConsolidation
  split
  · next h => rw [job_setJob_self, h, enqueuedRow]
  · next job h => rw [job_setJob_self, h, enqueuedRow]

@[simp] theorem output_enqueue (w : Int) :
    (db.enqueueGlobalConsolidation w).output = db.output := by
  unfold enqueueGlobalConsolidation
  split <;> rfl

theorem output_updateJob {cond : Job → Bool} {f : Job → Job}
    (h : db.updateJob id cond f = some db') : db'.output = db.output := by
  obtain ⟨_, -, -, rfl⟩ := updateJob_eq_some.1 h
  rfl

theorem job_updateJob_of_ne {id' : JobId} {cond : Job → Bool} {f : Job → Job}
    (h : db.updateJob id cond f = some db') (hne : id' ≠ id) : db'.job id' = db.job id' := by
  obtain ⟨_, -, -, rfl⟩ := updateJob_eq_some.1 h
  exact job_setJob_of_ne hne

theorem outputsFrom_upsertOutput :
    OutputsFrom db (db.upsertOutput threadId o) o.sourceUpdatedAt := by
  intro threadId' o' h
  unfold upsertOutput at h
  split at h
  · by_cases heq : threadId' = threadId
    · subst heq
      rw [output, setOutput, AList.lookup_insert] at h
      cases h
      exact .inr (le_refl _)
    · rw [output, setOutput, AList.lookup_insert_ne heq] at h
      exact .inl h
  · exact .inl h

theorem outputsFrom_deleteOutput (w : Int) : OutputsFrom db (db.deleteOutput threadId) w := by
  intro threadId' o' h
  by_cases heq : threadId' = threadId
  · subst heq
    simp [output, deleteOutput] at h
  · rw [output, deleteOutput, AList.lookup_erase_ne heq] at h
    exact .inl h

theorem watermark_enqueuedRow (job : Option Job) (w : Int) :
    ∃ w', (enqueuedRow job w).inputWatermark = some w' ∧ w ≤ w' ∧
      ∀ old ∈ job.bind Job.inputWatermark, old < w' := by
  cases job with
  | none => exact ⟨w, rfl, le_refl w, by simp⟩
  | some job =>
    refine ⟨_, rfl, ?_, ?_⟩
    · split <;> omega
    · intro old hold
      have hold' : job.inputWatermark = some old := hold
      simp only [hold', Option.getD_some]
      split <;> omega

theorem retryRemaining_enqueuedRow (job : Option Job) (w : Int) :
    0 < (enqueuedRow job w).retryRemaining := by
  have hdefault : 0 < defaultRetryRemaining := by decide
  cases job with
  | none => exact hdefault
  | some job => exact lt_of_lt_of_le hdefault (le_max_right _ _)

end Db

/-- What a transaction does to the global row and to the outputs. -/
inductive GlobalEffect (db : Db) (now : Int) : Op → Db → Prop
  | same {op : Op} {db' : Db} (row : db'.job globalJobId = db.job globalJobId)
      (output : db'.output = db.output) : GlobalEffect db now op db'
  | enqueued {op : Op} {db' : Db} (w : Int)
      (row : db'.job globalJobId = some (Db.enqueuedRow (db.job globalJobId) w))
      (outputs : db.OutputsFrom db' w) : GlobalEffect db now op db'
  | claimed {workerId token : Str} {lease w : Int} {job : Job}
      (row : db.job globalJobId = some job) (watermark : job.inputWatermark = some w)
      (dirty : job.lastSuccessWatermark.getD 0 < w) (due : job.retryDue now = true) :
      GlobalEffect db now (.claimGlobal workerId lease token)
        (db.setJob globalJobId (Db.claimedGlobalJob now workerId lease token job))
  | extended {token : Str} {lease : Int} {job : Job} (row : db.job globalJobId = some job)
      (owned : job.ownedBy token = true) :
      GlobalEffect db now (.heartbeatGlobal token lease)
        (db.setJob globalJobId { job with leaseUntil := after now lease })
  | succeeded {token : Str} {completed : Int} {job : Job} (row : db.job globalJobId = some job)
      (owned : job.ownedBy token = true) :
      GlobalEffect db now (.succeedGlobal token completed)
        (db.setJob globalJobId (Db.succeededGlobalJob now completed job))
  | failed {op : Op} {job : Job} {delay : Int} {reason : Str}
      (row : db.job globalJobId = some job) (running : job.status = .running) :
      GlobalEffect db now op (db.setJob globalJobId (Db.failedJob now delay reason job))

namespace Op

/-- The transaction enqueues the global job. -/
def Enqueues (db : Db) (now : Int) (op : Op) : Prop :=
  match op with
  | .enqueueGlobal _ => True
  | .succeedStage1 .. | .succeedStage1NoOutput .. => (op.exec db now).1 = .applied (.ok true)
  | _ => False

variable {db : Db} {now : Int}

theorem succeedStage1_effect (db : Db) (now : Int) (threadId token : Str) (source : Int)
    (rawMemory rolloutSummary : Str) (rolloutSlug : Option Str) :
    let op := Op.succeedStage1 threadId token source rawMemory rolloutSummary rolloutSlug
    ((op.exec db now).1 ≠ .applied (.ok true) ∧ (op.exec db now).2 = db) ∨
      (op.exec db now).2.job globalJobId = some (Db.enqueuedRow (db.job globalJobId) source) ∧
        db.OutputsFrom (op.exec db now).2 source := by
  rcases db.markStage1JobSucceeded_cases now token threadId source rawMemory rolloutSummary
    rolloutSlug with ⟨r, hr, hne⟩ | ⟨db₁, hupd, hr⟩
  · simp only [exec, hr]
    exact .inl ⟨by simpa using hne, trivial⟩
  · simp only [exec, hr]
    refine .inr ⟨?_, ?_⟩
    · rw [Db.job_enqueue, Db.job_upsertOutput,
        Db.job_updateJob_of_ne hupd (stage1JobId_ne_global threadId).symm]
    · intro threadId' o ho
      rw [Db.output_enqueue] at ho
      rw [← Db.output_updateJob hupd]
      exact Db.outputsFrom_upsertOutput threadId' o ho

theorem succeedStage1NoOutput_effect (db : Db) (now : Int) (threadId token : Str) :
    let op := Op.succeedStage1NoOutput threadId token
    ((op.exec db now).1 ≠ .applied (.ok true) ∧ (op.exec db now).2 = db) ∨
      ∃ w, (op.exec db now).2.job globalJobId = some (Db.enqueuedRow (db.job globalJobId) w) ∧
        db.OutputsFrom (op.exec db now).2 w := by
  rcases db.markStage1JobSucceededNoOutput_cases now token threadId with
    ⟨r, hr, hne⟩ | ⟨db₁, w, hupd, hr⟩
  · simp only [exec, hr]
    exact .inl ⟨by simpa using hne, trivial⟩
  · simp only [exec, hr]
    refine .inr ⟨w, ?_, ?_⟩
    · rw [Db.job_enqueue, Db.job_deleteOutput,
        Db.job_updateJob_of_ne hupd (stage1JobId_ne_global threadId).symm]
    · intro threadId' o ho
      rw [Db.output_enqueue] at ho
      rw [← Db.output_updateJob hupd]
      exact Db.outputsFrom_deleteOutput w threadId' o ho

theorem enqueuedRow_of_enqueues {op : Op} (h : op.Enqueues db now) :
    ∃ w, (op.exec db now).2.job globalJobId = some (Db.enqueuedRow (db.job globalJobId) w) := by
  cases op with
  | enqueueGlobal w => exact ⟨w, Db.job_enqueue w⟩
  | succeedStage1 threadId token source rawMemory rolloutSummary rolloutSlug =>
    rcases succeedStage1_effect db now threadId token source rawMemory
      rolloutSummary rolloutSlug with ⟨hne, -⟩ | ⟨hrow, -⟩
    · exact absurd h hne
    · exact ⟨source, hrow⟩
  | succeedStage1NoOutput threadId token =>
    rcases succeedStage1NoOutput_effect db now threadId token with
      ⟨hne, -⟩ | ⟨w, hrow, -⟩
    · exact absurd h hne
    · exact ⟨w, hrow⟩
  | _ => cases h

theorem globalEffect_finish {op : Op} {id : JobId} {cond : Job → Bool} {f : Job → Job}
    (hexec : (op.exec db now).2 = (db.finish (db.updateJob id cond f)).2)
    (heffect : ∀ job, db.job id = some job → cond job = true →
      GlobalEffect db now op (db.setJob id (f job))) :
    GlobalEffect db now op (op.exec db now).2 := by
  rw [hexec]
  rcases db.finish_cases (db.updateJob id cond f) with ⟨-, h⟩ | ⟨db', hupd, h⟩
  · rw [h]
    exact .same rfl rfl
  · rw [h]
    obtain ⟨job, hjob, hc, rfl⟩ := Db.updateJob_eq_some.1 hupd
    exact heffect job hjob hc

theorem globalEffect (db : Db) (now : Int) (op : Op) :
    GlobalEffect db now op (op.exec db now).2 := by
  cases op with
  | claimStage1 threadId workerId source lease maxRunning token =>
    rcases db.tryClaimStage1Job_cases now token threadId workerId source lease maxRunning with
      ⟨o, ho, -⟩ | ⟨job, hc, -⟩
    · simp only [exec, ho]
      exact .same rfl rfl
    · simp only [exec, hc]
      exact .same (Db.job_setJob_of_ne (stage1JobId_ne_global threadId).symm) rfl
  | succeedStage1 threadId token source rawMemory rolloutSummary rolloutSlug =>
    rcases succeedStage1_effect db now threadId token source rawMemory
      rolloutSummary rolloutSlug with ⟨-, h⟩ | ⟨hrow, houtputs⟩
    · rw [h]
      exact .same rfl rfl
    · exact .enqueued source hrow houtputs
  | succeedStage1NoOutput threadId token =>
    rcases succeedStage1NoOutput_effect db now threadId token with
      ⟨-, h⟩ | ⟨w, hrow, houtputs⟩
    · rw [h]
      exact .same rfl rfl
    · exact .enqueued w hrow houtputs
  | failStage1 threadId token reason delay =>
    refine globalEffect_finish rfl fun job _ _ => .same ?_ rfl
    exact Db.job_setJob_of_ne (stage1JobId_ne_global threadId).symm
  | enqueueGlobal w =>
    refine .enqueued w (Db.job_enqueue w) fun threadId o ho => .inl ?_
    rwa [exec, Db.output_enqueue] at ho
  | claimGlobal workerId lease token =>
    rcases db.tryClaimGlobalPhase2Job_cases now token workerId lease with
      ⟨o, ho, -⟩ | ⟨job, w, hjob, hw, hdirty, -, hdue, hc⟩
    · simp only [exec, ho]
      exact .same rfl rfl
    · simp only [exec, hc]
      exact .claimed hjob hw hdirty hdue
  | heartbeatGlobal token lease =>
    exact globalEffect_finish rfl fun job hjob hown => .extended hjob hown
  | succeedGlobal token completed =>
    exact globalEffect_finish rfl fun job hjob hown => .succeeded hjob hown
  | failGlobal token reason delay =>
    exact globalEffect_finish rfl fun job hjob hown => .failed hjob (Db.ownedBy_iff.1 hown).1
  | failGlobalIfUnowned token reason delay =>
    refine globalEffect_finish rfl fun job hjob hc => .failed hjob ?_
    simp only [Bool.and_eq_true, decide_eq_true_eq] at hc
    exact hc.1

end Op

/-! ## The phase-2 worker -/

/-- `get_watermark`. -/
def getWatermark (claimedWatermark : Int) (latestMemories : List (Str × Stage1Output × Str)) :
    Int :=
  max ((latestMemories.map fun memory => memory.2.1.sourceUpdatedAt).max?.getD claimedWatermark)
    claimedWatermark

/-- Where the worker of a claim stands, with the watermark it holds. -/
inductive WorkerState where
  | claimed (watermark : Int)
  | listed (newWatermark : Int)
  deriving DecidableEq

def WorkerState.mark : WorkerState → Int
  | claimed w => w
  | listed w => w

/-- The system with the phase-2 workers, by the token of their claim. -/
structure Pipeline where
  sys : System
  workers : Str → Option WorkerState

inductive PipelineLabel where
  | run (l : Label)
  | list (token : Str) (maxRawMemories : Nat)

def PipelineLabel.IsGlobalClaim : PipelineLabel → Prop
  | .run (.exec _ (.claimGlobal ..)) => True
  | _ => False

namespace Pipeline

/-- A claimed global job starts a worker. -/
def startWorker (s : Pipeline) : Label → Str → Option WorkerState
  | .exec now (.claimGlobal workerId lease token) =>
    match ((Op.claimGlobal workerId lease token).exec s.sys.db now).1 with
    | .phase2Claim (.claimed token' w) => Function.update s.workers token' (some (.claimed w))
    | _ => s.workers
  | _ => s.workers

/-- Transactions of anyone, except that only a worker that has listed marks success, and
with the watermark of its list. -/
inductive Step : Pipeline → PipelineLabel → Pipeline → Prop
  | run {s : Pipeline} {l : Label} {t : System} (h : System.Step s.sys l t)
      (hlisted : ∀ now token w, l = .exec now (.succeedGlobal token w) →
        s.workers token = some (.listed w)) :
      Step s (.run l) ⟨t, s.startWorker l⟩
  | list {s : Pipeline} {token : Str} {w : Int} {n : Nat}
      (h : s.workers token = some (.claimed w)) :
      Step s (.list token n)
        ⟨s.sys, Function.update s.workers token
          (some (.listed (getWatermark w (s.sys.db.listStage1OutputsForGlobal n))))⟩

def Initial (s : Pipeline) : Prop := s.sys.Initial ∧ ∀ token, s.workers token = none

def Runs : Pipeline → List PipelineLabel → Pipeline → Prop := Transition.Run Step

def Reachable : Pipeline → Prop := Transition.Reachable Step Initial

end Pipeline

theorem Db.output_of_mem_list {db : Db} {n : Nat} {m : Str × Stage1Output × Str}
    (h : m ∈ db.listStage1OutputsForGlobal n) : db.output m.1 = some m.2.1 := by
  unfold Db.listStage1OutputsForGlobal at h
  split at h
  · cases h
  · obtain ⟨⟨threadId, o⟩, hmem, rfl⟩ := List.mem_map.1 h
    have hsorted : (threadId, o) ∈ ((db.stage1Outputs.entries.map fun e => (e.1, e.2)).filter
        fun x => Db.nonBlank x.2.rawMemory || Db.nonBlank x.2.rolloutSummary).insertionSort
          Db.listedBefore := by
      split at hmem
      · exact hmem
      · exact List.mem_of_mem_take hmem
    rw [List.mem_insertionSort, List.mem_filter] at hsorted
    obtain ⟨e, he, heq⟩ := List.mem_map.1 hsorted.1
    cases heq
    exact AList.mem_lookup_iff.2 he

/-- The worker's watermark stays below any bound on its claim and its list. -/
theorem getWatermark_le {w bound : Int} {l : List (Str × Stage1Output × Str)} (hw : w ≤ bound)
    (hl : ∀ m ∈ l, m.2.1.sourceUpdatedAt ≤ bound) : getWatermark w l ≤ bound := by
  refine max_le ?_ hw
  cases hmax : (l.map fun memory => memory.2.1.sourceUpdatedAt).max? with
  | none => exact hw
  | some x =>
    obtain ⟨m, hm, rfl⟩ := List.mem_map.1 (List.max?_mem hmax)
    exact hl m hm

/-! ## Invariants -/

/-- The watermark covers the outputs, and a running global job is dirty and not backing off. -/
structure Db.Accounted (db : Db) : Prop where
  outputs : ∀ threadId o, db.output threadId = some o → ∃ w ∈ db.watermark, o.sourceUpdatedAt ≤ w
  running : ∀ job, db.job globalJobId = some job → job.status = .running →
    job.retryAt = none ∧ ∃ w, job.inputWatermark = some w ∧ job.lastSuccessWatermark.getD 0 < w

theorem Db.watermark_of_job {db : Db} {job : Job} (h : db.job globalJobId = some job) :
    db.watermark = job.inputWatermark := by
  rw [watermark, h]
  rfl

namespace GlobalEffect

variable {db db' : Db} {now : Int} {op : Op}

/-- The watermark never falls. -/
theorem watermark_le (h : GlobalEffect db now op db') :
    ∀ w ∈ db.watermark, ∃ w' ∈ db'.watermark, w ≤ w' := by
  intro w hw
  cases h with
  | same hrow _ => exact ⟨w, by rwa [Db.watermark, hrow], le_refl w⟩
  | enqueued x hrow _ =>
    obtain ⟨w', hw', -, hlt⟩ := Db.watermark_enqueuedRow (db.job globalJobId) x
    exact ⟨w', by rw [Db.watermark_of_job hrow, hw']; rfl, le_of_lt (hlt w hw)⟩
  | claimed hrow | extended hrow | succeeded hrow | failed hrow =>
    rw [Db.watermark_of_job hrow] at hw
    exact ⟨w, by rwa [Db.watermark_of_job Db.job_setJob_self], le_refl w⟩

theorem accounted (h : GlobalEffect db now op db') (hdb : db.Accounted) : db'.Accounted := by
  have hkept : ∀ o : Stage1Output, (∃ w ∈ db.watermark, o.sourceUpdatedAt ≤ w) →
      ∃ w ∈ db'.watermark, o.sourceUpdatedAt ≤ w := by
    rintro o ⟨w, hw, hle⟩
    obtain ⟨w', hw', hle'⟩ := h.watermark_le w hw
    exact ⟨w', hw', le_trans hle hle'⟩
  cases h with
  | same hrow houtput =>
    refine ⟨fun threadId o ho => hkept o (hdb.outputs threadId o (houtput ▸ ho)), ?_⟩
    rw [hrow]
    exact hdb.running
  | enqueued x hrow houtputs =>
    obtain ⟨w', hw', hx, hlt⟩ := Db.watermark_enqueuedRow (db.job globalJobId) x
    refine ⟨fun threadId o ho => ?_, fun job hjob hrun => ?_⟩
    · rcases houtputs threadId o ho with hold | hnew
      · exact hkept o (hdb.outputs threadId o hold)
      · exact ⟨w', by rw [Db.watermark_of_job hrow, hw']; rfl, le_trans hnew hx⟩
    · obtain rfl : _ = job := Option.some.inj (hrow.symm.trans hjob)
      cases hold : db.job globalJobId with
      | none => simp [hold, Db.enqueuedRow, Db.pendingGlobalJob] at hrun
      | some old =>
        rw [hold] at hw' hlt hrun
        -- only a running row stays running
        have hrun' : old.status = .running := by
          by_contra hne
          simp [Db.enqueuedRow, Db.enqueuedGlobalJob, hne] at hrun
        obtain ⟨hretry, w, hw, hdirty⟩ := hdb.running old hold hrun'
        refine ⟨by simp [Db.enqueuedRow, Db.enqueuedGlobalJob, hrun', hretry], w', hw', ?_⟩
        exact lt_trans hdirty (hlt w hw)
  | claimed hrow hw hdirty _ =>
    refine ⟨fun threadId o ho => hkept o (hdb.outputs threadId o ho), fun job hjob _ => ?_⟩
    rw [Db.job_setJob_self] at hjob
    cases hjob
    exact ⟨rfl, _, hw, hdirty⟩
  | @extended _ _ old hrow _ =>
    refine ⟨fun threadId o ho => hkept o (hdb.outputs threadId o ho), fun job hjob hrun => ?_⟩
    rw [Db.job_setJob_self] at hjob
    cases hjob
    exact hdb.running old hrow hrun
  | succeeded | failed =>
    refine ⟨fun threadId o ho => hkept o (hdb.outputs threadId o ho), fun job hjob hrun => ?_⟩
    rw [Db.job_setJob_self] at hjob
    cases hjob
    cases hrun

end GlobalEffect

namespace Pipeline

/-- Some worker was told of the token. -/
def Known (s : Pipeline) (token : Str) : Prop := ∃ e ∈ s.sys.log globalJobId, e.token = token

structure Inv (s : Pipeline) : Prop where
  sys : s.sys.Inv
  db : s.sys.db.Accounted
  known : ∀ token st, s.workers token = some st → s.Known token
  marks : ∀ token st, s.workers token = some st → ∃ w ∈ s.sys.db.watermark, st.mark ≤ w

variable {s t : Pipeline} {l : PipelineLabel}

theorem known_of_system {s : Pipeline} {l : Label} {t : System} {token : Str}
    (h : System.Step s.sys l t) (hk : s.Known token) : ∃ e ∈ t.log globalJobId, e.token = token := by
  obtain ⟨e, he, htok⟩ := hk
  refine ⟨e, ?_, htok⟩
  cases h with
  | tick => exact he
  | exec => exact System.mem_record he ..

theorem startWorker_cases {l : Label} {u : System} (h : System.Step s.sys l u) (token : Str) :
    s.startWorker l token = s.workers token ∨
      (∃ w ∈ u.db.watermark, s.startWorker l token = some (.claimed w)) ∧
        (∃ e ∈ u.log globalJobId, e.token = token) ∧ s.sys.FreshToken token := by
  cases h with
  | tick => exact .inl rfl
  | @exec now op _ hfresh =>
    cases op with
    | claimGlobal workerId lease token' =>
      rcases s.sys.db.tryClaimGlobalPhase2Job_cases now token' workerId lease with
        ⟨o, ho, hne⟩ | ⟨job, w, hjob, hw, -, -, -, hc⟩
      · left
        unfold startWorker
        simp only [Op.exec, ho]
        cases o with
        | claimed t w => exact absurd rfl (hne t w)
        | skippedNotDirty => rfl
        | skippedRunning => rfl
      · by_cases htok : token = token'
        · subst htok
          refine .inr ⟨⟨w, ?_, ?_⟩, ?_, hfresh token rfl⟩
          · simp only [System.exec, Op.exec, hc]
            rw [Db.watermark_of_job Db.job_setJob_self]
            exact hw
          · simp [startWorker, Op.exec, hc]
          · refine ⟨.claimed token (after now lease), ?_, rfl⟩
            simp [System.exec, System.record, Op.exec, hc, Op.told]
        · left
          simp [startWorker, Op.exec, hc, htok]
    | _ => exact .inl rfl

theorem inv_of_initial (h : s.Initial) : s.Inv := by
  obtain ⟨⟨threads, clock, hsys⟩, hworkers⟩ := h
  refine ⟨hsys ▸ System.inv_init threads clock, ⟨?_, ?_⟩, ?_, ?_⟩
  · intro threadId o ho
    simp [hsys, System.init, Db.output] at ho
  · intro job hjob
    simp [hsys, System.init, Db.job] at hjob
  · intro token st h
    simp [hworkers] at h
  · intro token st h
    simp [hworkers] at h

theorem Inv.step (hs : s.Inv) (h : Step s l t) : t.Inv := by
  cases h with
  | @run l u h hlisted =>
    have hwater : ∀ w ∈ s.sys.db.watermark, ∃ w' ∈ u.db.watermark, w ≤ w' := by
      cases h with
      | tick => exact fun w hw => ⟨w, hw, le_refl w⟩
      | exec => exact (Op.globalEffect ..).watermark_le
    refine ⟨hs.sys.step h, ?_, fun token st hst => ?_, fun token st hst => ?_⟩
    · cases h with
      | tick => exact hs.db
      | exec => exact (Op.globalEffect ..).accounted hs.db
    · rcases startWorker_cases h token with hold | ⟨-, hknown, -⟩
      · exact known_of_system h (hs.known token st (hold ▸ hst))
      · exact hknown
    · rcases startWorker_cases h token with hold | ⟨⟨w, hw, hnew⟩, -, -⟩
      · obtain ⟨w, hw, hle⟩ := hs.marks token st (hold ▸ hst)
        obtain ⟨w', hw', hle'⟩ := hwater w hw
        exact ⟨w', hw', le_trans hle hle'⟩
      · obtain rfl : WorkerState.claimed w = st := Option.some.inj (hnew.symm.trans hst)
        exact ⟨w, hw, le_refl w⟩
  | @list token w n hclaimed =>
    refine ⟨hs.sys, hs.db, fun token' st hst => ?_, fun token' st hst => ?_⟩
    · by_cases htok : token' = token
      · subst htok
        exact hs.known token' _ hclaimed
      · dsimp only at hst
        rw [Function.update_of_ne htok] at hst
        exact hs.known token' st hst
    · by_cases htok : token' = token
      · subst htok
        dsimp only at hst
        rw [Function.update_self] at hst
        cases hst
        -- the listed sources and the claimed watermark are at most the row's
        obtain ⟨w', hw', hle⟩ := hs.marks token' _ hclaimed
        refine ⟨w', hw', getWatermark_le hle fun m hm => ?_⟩
        obtain ⟨w'', hw'', hle'⟩ := hs.db.outputs _ _ (Db.output_of_mem_list hm)
        obtain rfl : w' = w'' := Option.some.inj (hw'.symm.trans hw'')
        exact hle'
      · dsimp only at hst
        rw [Function.update_of_ne htok] at hst
        exact hs.marks token' st hst

theorem Reachable.inv (h : s.Reachable) : s.Inv :=
  Transition.Reachable.invariant (I := Inv) inv_of_initial (fun hs hstep => hs.step hstep) h

/-! ## No work is lost -/

/-- The worker has listed, and its watermark is at most the row's. -/
structure Listed (token : Str) (w : Int) (s : Pipeline) : Prop where
  inv : s.Inv
  worker : s.workers token = some (.listed w)

/-- More was enqueued after the list, with tries left for the owner's row. -/
structure Ahead (token : Str) (w : Int) (s : Pipeline) : Prop extends Listed token w s where
  above : ∃ w' ∈ s.sys.db.watermark, w < w'
  tries : ∀ job, s.sys.db.job globalJobId = some job → job.ownedBy token = true →
    0 < job.retryRemaining

theorem listed_of_list {token : Str} {n : Nat} (hs : s.Inv) (h : Step s (.list token n) t) :
    ∃ w, Listed token w t := by
  have hinv := hs.step h
  cases h with
  | list => exact ⟨_, hinv, Function.update_self ..⟩

theorem listed_of_success {token : Str} {w now : Int}
    (h : Step s (.run (.exec now (.succeedGlobal token w))) t) :
    s.workers token = some (.listed w) := by
  cases h with
  | run _ hlisted => exact hlisted _ _ _ rfl

theorem Listed.step {token : Str} {w : Int} (hs : Listed token w s) (h : Step s l t) :
    Listed token w t := by
  refine ⟨hs.inv.step h, ?_⟩
  cases h with
  | run h _ =>
    rcases startWorker_cases h token with hsame | ⟨-, -, hfresh⟩
    · exact hsame.trans hs.worker
    · obtain ⟨e, he, htok⟩ := hs.inv.known token _ hs.worker
      exact absurd htok (hfresh _ e he)
  | @list token' w' n hclaimed =>
    have hne : token ≠ token' := by
      rintro rfl
      rw [hs.worker] at hclaimed
      cases hclaimed
    simpa [hne] using hs.worker

theorem Listed.ahead_of_enqueues {token : Str} {w now : Int} {op : Op} (hs : Listed token w s)
    (h : Step s (.run (.exec now op)) t) (henq : op.Enqueues s.sys.db now) : Ahead token w t := by
  obtain ⟨x, hrow⟩ := Op.enqueuedRow_of_enqueues henq
  obtain ⟨w', hw', -, hlt⟩ := Db.watermark_enqueuedRow (s.sys.db.job globalJobId) x
  obtain ⟨w₀, hw₀, hle⟩ := hs.inv.marks token _ hs.worker
  refine ⟨hs.step h, ?_, ?_⟩
  · cases h with
    | run h _ =>
      cases h with
      | exec =>
        refine ⟨w', ?_, lt_of_le_of_lt hle (hlt w₀ hw₀)⟩
        rw [System.exec, Db.watermark_of_job hrow, hw']
        rfl
  · cases h with
    | run h _ =>
      cases h with
      | exec =>
        intro job hjob _
        obtain rfl : _ = job := Option.some.inj (hrow.symm.trans hjob)
        exact Db.retryRemaining_enqueuedRow _ x

theorem tries_of_effect {db db' : Db} {now : Int} {op : Op} {token : Str}
    (h : GlobalEffect db now op db') (hnew : op.newToken ≠ some token)
    (htries : ∀ job, db.job globalJobId = some job → job.ownedBy token = true →
      0 < job.retryRemaining) :
    ∀ job, db'.job globalJobId = some job → job.ownedBy token = true →
      0 < job.retryRemaining := by
  intro job hjob hown
  cases h with
  | same hrow _ => exact htries job (hrow ▸ hjob) hown
  | enqueued x hrow _ =>
    obtain rfl : _ = job := Option.some.inj (hrow.symm.trans hjob)
    exact Db.retryRemaining_enqueuedRow _ x
  | @claimed _ token' _ _ _ _ _ _ _ =>
    rw [Db.job_setJob_self] at hjob
    cases hjob
    have htok := (Db.ownedBy_iff.1 hown).2
    exact absurd htok hnew
  | @extended _ _ old hrow _ =>
    rw [Db.job_setJob_self] at hjob
    cases hjob
    exact htries old hrow hown
  | succeeded | failed =>
    rw [Db.job_setJob_self] at hjob
    cases hjob
    exact absurd (Db.ownedBy_iff.1 hown).1 (by simp [Db.succeededGlobalJob, Db.failedJob])

theorem Ahead.step {token : Str} {w : Int} (hs : Ahead token w s) (h : Step s l t) :
    Ahead token w t := by
  refine ⟨hs.toListed.step h, ?_, ?_⟩
  · obtain ⟨w', hw', hlt⟩ := hs.above
    cases h with
    | run h _ =>
      cases h with
      | tick => exact ⟨w', hw', hlt⟩
      | exec =>
        obtain ⟨w'', hw'', hle⟩ := (Op.globalEffect ..).watermark_le w' hw'
        exact ⟨w'', hw'', lt_of_lt_of_le hlt hle⟩
    | list => exact ⟨w', hw', hlt⟩
  · cases h with
    | run h _ =>
      cases h with
      | tick => exact hs.tries
      | exec _ hfresh =>
        refine tries_of_effect (Op.globalEffect ..) (fun hnew => ?_) hs.tries
        obtain ⟨e, he, htok⟩ := hs.inv.known token _ hs.worker
        exact hfresh token hnew _ e he htok
    | list => exact hs.tries

/-- A claim of the global job is let through. -/
structure Claimable (db : Db) (job : Job) (w : Int) : Prop where
  row : db.job globalJobId = some job
  idle : job.status ≠ .running
  watermark : job.inputWatermark = some w
  dirty : job.lastSuccessWatermark.getD 0 < w
  retry : job.retryAt = none
  tries : 0 < job.retryRemaining

theorem Claimable.claim {db : Db} {job : Job} {w : Int} (h : Claimable db job w) (now : Int)
    (workerId : Str) (lease : Int) (token : Str) :
    (db.tryClaimGlobalPhase2Job now workerId lease token).1 = .claimed token w := by
  have hupd : db.updateJob globalJobId
      (fun job => Db.dirty job && job.free now && job.retryDue now && 0 < job.retryRemaining)
      (Db.claimedGlobalJob now workerId lease token) =
      some (db.setJob globalJobId (Db.claimedGlobalJob now workerId lease token job)) := by
    refine Db.updateJob_eq_some.2 ⟨job, h.row, ?_, rfl⟩
    simp [Db.dirty, Job.free, Job.retryDue, h.watermark, h.dirty, h.idle, h.retry, h.tries]
  simp [Db.tryClaimGlobalPhase2Job, h.row, not_le.2 h.dirty, not_le.2 h.tries, h.retry, Job.live,
    h.idle, hupd, h.watermark]

/-- It stays so until someone claims it. -/
theorem Claimable.step {db db' : Db} {job : Job} {w now : Int} {op : Op} (h : Claimable db job w)
    (he : GlobalEffect db now op db')
    (hop : ∀ workerId lease token, op ≠ .claimGlobal workerId lease token) :
    ∃ job' w', Claimable db' job' w' := by
  cases he with
  | same hrow _ => exact ⟨job, w, { h with row := hrow.trans h.row }⟩
  | enqueued x hrow _ =>
    rw [h.row] at hrow
    refine ⟨_, _, hrow, ?_, rfl, ?_, ?_, ?_⟩
    · simp [Db.enqueuedRow, Db.enqueuedGlobalJob, h.idle]
    · have hdirty := h.dirty
      simp only [Db.enqueuedRow, Db.enqueuedGlobalJob, h.watermark, Option.getD_some]
      split <;> omega
    · simp [Db.enqueuedRow, Db.enqueuedGlobalJob, h.idle]
    · exact Db.retryRemaining_enqueuedRow _ x
  | claimed => exact absurd rfl (hop _ _ _)
  | extended hrow hown | succeeded hrow hown =>
    obtain rfl := Option.some.inj (h.row.symm.trans hrow)
    exact absurd (Db.ownedBy_iff.1 hown).1 h.idle
  | failed hrow hrun =>
    obtain rfl := Option.some.inj (h.row.symm.trans hrow)
    exact absurd hrun h.idle

/-- The worker that is behind marks success: the job is left to be claimed. -/
theorem Ahead.claimable {token : Str} {w now : Int} (hs : Ahead token w s)
    (h : Step s (.run (.exec now (.succeedGlobal token w))) t)
    (haccepted : ((Op.succeedGlobal token w).exec s.sys.db now).1 = .applied (.ok true)) :
    ∃ job w', Claimable t.sys.db job w' := by
  rcases s.sys.db.finish_cases (s.sys.db.updateJob globalJobId (·.ownedBy token)
    (Db.succeededGlobalJob now w)) with ⟨-, hf⟩ | ⟨db', hupd, hf⟩
  · rw [Op.exec, Db.markGlobalPhase2JobSucceeded, hf] at haccepted
    cases haccepted
  · obtain ⟨job, hjob, hown, rfl⟩ := Db.updateJob_eq_some.1 hupd
    obtain ⟨hretry, w₀, hw₀, hdirty⟩ := hs.inv.db.running job hjob (Db.ownedBy_iff.1 hown).1
    obtain ⟨w', hw', hlt⟩ := hs.above
    rw [Db.watermark_of_job hjob] at hw'
    obtain rfl : w₀ = w' := Option.some.inj (hw₀.symm.trans hw')
    have htdb : t.sys.db = s.sys.db.setJob globalJobId (Db.succeededGlobalJob now w job) := by
      cases h with
      | run h _ =>
        cases h with
        | exec => simp only [System.exec, Op.exec, Db.markGlobalPhase2JobSucceeded, hf]
    refine ⟨Db.succeededGlobalJob now w job, w₀, ?_, by simp [Db.succeededGlobalJob], hw₀, ?_,
      hretry, hs.tries job hjob hown⟩
    · rw [htdb, Db.job_setJob_self]
    · exact max_lt hdirty hlt

theorem claimable_runs {ls : List PipelineLabel} (h : Runs s ls t)
    (hs : ∃ job w, Claimable s.sys.db job w) (hls : ∀ l ∈ ls, ¬ l.IsGlobalClaim) :
    ∃ job w, Claimable t.sys.db job w := by
  refine h.invariant_of_labels (P := fun l => ¬ l.IsGlobalClaim)
    (I := fun s => ∃ job w, Claimable s.sys.db job w) ?_ hls hs
  intro s l t hl hs h
  obtain ⟨job, w, hc⟩ := hs
  cases h with
  | list => exact ⟨job, w, hc⟩
  | run h _ =>
    cases h with
    | tick => exact ⟨job, w, hc⟩
    | exec =>
      refine hc.step (Op.globalEffect ..) ?_
      rintro workerId lease token rfl
      exact hl trivial

/-- From `s`, a worker lists; then a stage-1 completion (or another enqueue) commits; then
the worker's success is accepted, in `t`. Anything else runs in between. -/
inductive LateCompletion (token : Str) : Pipeline → Pipeline → Prop
  | mk {s s₁ s₂ s₃ s₄ t : Pipeline} {n : Nat} {ls ls' : List PipelineLabel} {op : Op}
      {now now' w : Int} (list : Step s (.list token n) s₁) (before : Runs s₁ ls s₂)
      (completion : Step s₂ (.run (.exec now op)) s₃) (enqueues : op.Enqueues s₂.sys.db now)
      (after : Runs s₃ ls' s₄)
      (success : Step s₄ (.run (.exec now' (.succeedGlobal token w))) t)
      (accepted : ((Op.succeedGlobal token w).exec s₄.sys.db now').1 = .applied (.ok true)) :
      LateCompletion token s t

theorem claimable_of_lateCompletion {token : Str} (hs : s.Inv) (h : LateCompletion token s t) :
    ∃ job w, Claimable t.sys.db job w := by
  obtain ⟨hlist, hbefore, hcompletion, henq, hafter, hsuccess, haccepted⟩ := h
  obtain ⟨w, hlisted⟩ := listed_of_list hs hlist
  have hlisted' := Transition.Run.invariant (I := Listed token w) (fun h hstep => h.step hstep)
    hbefore hlisted
  have hahead := Transition.Run.invariant (I := Ahead token w) (fun h hstep => h.step hstep)
    hafter (hlisted'.ahead_of_enqueues hcompletion henq)
  -- the success carries the watermark of the list
  have hw := listed_of_success hsuccess
  rw [hahead.worker] at hw
  cases hw
  exact hahead.claimable hsuccess haccepted

def Dirty (db : Db) : Prop := ∃ job, db.job globalJobId = some job ∧ Db.dirty job = true

/-- Phase 2 loses no work: a completion after the worker's list leaves the job dirty after
its success, and the next claim takes it; every enqueue raises the watermark, which covers
the outputs. -/
theorem consolidation_loses_no_work {s : Pipeline} (hs : s.Reachable) :
    (∀ token t, LateCompletion token s t →
      Dirty t.sys.db ∧
        ∀ ls u, Runs t ls u → (∀ l ∈ ls, ¬ l.IsGlobalClaim) →
          ∀ now workerId lease token', ∃ w,
            (u.sys.db.tryClaimGlobalPhase2Job now workerId lease token').1 =
              .claimed token' w) ∧
      (∀ (op : Op) now, op.Enqueues s.sys.db now → ∀ w ∈ s.sys.db.watermark,
        ∃ w' ∈ (op.exec s.sys.db now).2.watermark, w < w') ∧
      ∀ threadId o, s.sys.db.output threadId = some o →
        ∃ w ∈ s.sys.db.watermark, o.sourceUpdatedAt ≤ w := by
  refine ⟨fun token t hlate => ?_, fun op now henq w hw => ?_, hs.inv.db.outputs⟩
  · have hclaimable := claimable_of_lateCompletion hs.inv hlate
    constructor
    · obtain ⟨job, w, hc⟩ := hclaimable
      exact ⟨job, hc.row, by simp [Db.dirty, hc.watermark, hc.dirty]⟩
    · intro ls u hrun hls now workerId lease token'
      obtain ⟨job, w, hc⟩ := claimable_runs hrun hclaimable hls
      exact ⟨w, hc.claim now workerId lease token'⟩
  · obtain ⟨x, hrow⟩ := Op.enqueuedRow_of_enqueues henq
    obtain ⟨w', hw', -, hlt⟩ := Db.watermark_enqueuedRow (s.sys.db.job globalJobId) x
    exact ⟨w', by rw [Db.watermark_of_job hrow, hw']; rfl, hlt w hw⟩

def exec (s : Pipeline) (now : Int) (op : Op) : Pipeline :=
  ⟨s.sys.exec now op, s.startWorker (.exec now op)⟩

theorem step_exec (now : Int) (op : Op) (hnow : now ≤ s.sys.clock)
    (hfresh : ∀ token ∈ op.newToken, s.sys.FreshToken token)
    (hlisted : ∀ token w, op = .succeedGlobal token w → s.workers token = some (.listed w)) :
    Step s (.run (.exec now op)) (s.exec now op) := by
  refine .run (.exec hnow hfresh) ?_
  rintro now' token w ⟨⟩
  exact hlisted token w rfl

def twoThreads : AList fun _ : Str => Str :=
  AList.insert ("t" : Str) ("/" : Str) (AList.insert ("u" : Str) ("/" : Str) ∅)

def start : Pipeline := ⟨System.init twoThreads 10, fun _ => none⟩

/-- The first thread's memory is stored and enqueued. -/
def stored : Pipeline :=
  (start.exec 1 (.claimStage1 "t" "w" 5 100 8 "a")).exec 2 (.succeedStage1 "t" "a" 5 "m" "r" none)

def globalClaimed : Pipeline := stored.exec 3 (.claimGlobal "w" 100 "g")

/-- The worker has listed the first thread's memory. -/
def memoriesListed : Pipeline :=
  { globalClaimed with
    workers := Function.update globalClaimed.workers "g" (some (.listed 5)) }

/-- The second thread's memory is stored, then the worker is done. -/
def lateStored : Pipeline :=
  (memoriesListed.exec 4 (.claimStage1 "u" "w" 5 100 8 "b")).exec 5
    (.succeedStage1 "u" "b" 5 "m" "r" none)

def lateDone : Pipeline := lateStored.exec 6 (.succeedGlobal "g" 5)

/-- The second memory is as old as the first, and yet the job is dirty again. -/
theorem consolidation_loses_no_work_lateDone :
    LateCompletion "g" globalClaimed lateDone ∧ Dirty lateDone.sys.db := by
  have hfirst : ∀ token, start.sys.FreshToken token := System.freshToken_init twoThreads 10
  have hreach : globalClaimed.Reachable := by
    refine ⟨start, _, ⟨⟨twoThreads, 10, rfl⟩, fun _ => rfl⟩,
      .cons (step_exec _ _ (by decide) (fun token _ => hfirst token) (by simp))
        (.cons (step_exec _ _ (by decide) (by simp [Op.newToken]) (by simp))
          (.single (step_exec _ _ (by decide) ?_ (by simp))))⟩
    rintro token ⟨⟩
    exact ((hfirst "g").exec (by decide)).exec (by decide)
  have hlist : Step globalClaimed (.list "g" 10) memoriesListed := .list (w := 5) (by decide)
  have hbefore : Runs memoriesListed _ (memoriesListed.exec 4 _) :=
    .single (step_exec 4 (.claimStage1 "u" "w" 5 100 8 "b") (by decide) (by
      rintro token ⟨⟩
      exact (((hfirst "b").exec (by decide)).exec (by decide)).exec (by decide)) (by simp))
  have hlate : LateCompletion "g" globalClaimed lateDone :=
    .mk hlist hbefore (step_exec 5 (.succeedStage1 "u" "b" 5 "m" "r" none) (by decide)
      (by simp [Op.newToken]) (by simp)) rfl (.nil _)
      (step_exec 6 (.succeedGlobal "g" 5) (by decide) (by simp [Op.newToken]) (by
        rintro token w ⟨⟩
        decide)) rfl
  exact ⟨hlate, ((consolidation_loses_no_work hreach).1 "g" lateDone hlate).1⟩

end Pipeline

end SheriMl.Memories
