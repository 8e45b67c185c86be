import SheriMl.Memories.Cap
import SheriMl.Memories.Consolidation

/-!
# Claims of stage 1

What a thread's claims and finalisations do to its row of `jobs` and its output
(`RowEffect`), over any run of transactions: the success watermark and the source of the
output never go back, and a claim that is refused is refused for the reason it gives,
although it reads the reason off the row after the fact.

A worker passes to its success the source it was handed with its claim
(`Label.PassesClaimed`), as `phase1.rs` does; and no more jobs may run than an `i64` can
count (`max_rollouts_per_startup` is at most 128).
-/

namespace SheriMl.Memories

namespace Db

variable (db : Db) (now : Int) (threadId : Str)

/-- The success watermark of a thread's stage-1 job. -/
def lastSuccess : Option Int := (db.job (stage1JobId threadId)).bind Job.lastSuccessWatermark

def outputAt : Option Int := (db.output threadId).map Stage1Output.sourceUpdatedAt

/-- A source at or below the success watermark or the output. -/
def Covered (source : Int) : Prop :=
  (∃ w, db.outputAt threadId = some w ∧ source ≤ w) ∨
    ∃ w, db.lastSuccess threadId = some w ∧ source ≤ w

/-- A claim says what is the case. -/
structure Truthful (source : Int) (maxRunningJobs : Nat) (outcome : Stage1JobClaimOutcome) :
    Prop where
  upToDate : outcome = .skippedUpToDate ↔ db.Covered threadId source
  running : outcome = .skippedRunning →
    (∃ job, db.job (stage1JobId threadId) = some job ∧ job.live now = true) ∨
      maxRunningJobs ≤ db.countAll now
  backoff : outcome = .skippedRetryBackoff → ∃ job retryAt,
    db.job (stage1JobId threadId) = some job ∧ job.retryAt = some retryAt ∧ now < retryAt
  exhausted : outcome = .skippedRetryExhausted → ∃ job,
    db.job (stage1JobId threadId) = some job ∧ job.retryRemaining ≤ 0

section Claim

variable {db : Db} {db' : Db} {now : Int} {threadId : Str} {workerId token : Str}
  {source lease : Int} {maxRunningJobs : Nat}

theorem stage1UpToDate_iff :
    db.stage1UpToDate threadId source = true ↔ db.Covered threadId source := by
  unfold stage1UpToDate Covered outputAt lastSuccess
  rw [Bool.or_eq_true]
  refine or_congr ?_ ?_
  · cases db.output threadId with
    | none => simp
    | some o => simp
  · cases db.job (stage1JobId threadId) with
    | none => simp
    | some job => simp [Option.any_eq_true]

/-- The cap as SQLite gets it. -/
theorem asI64_eq {n : Nat} (h : n < 2 ^ 63) : asI64 n = n := by
  unfold asI64 Int.bmod
  dsimp only
  split <;> omega

theorem live_of_not_free {job : Job} (h : job.free now = false) : job.live now = true := by
  unfold Job.free at h
  unfold Job.live
  simp only [ne_eq, decide_not, Bool.or_eq_false_iff, Bool.not_eq_false', decide_eq_true_eq] at h
  obtain ⟨hrun, hlease⟩ := h
  cases hl : job.leaseUntil with
  | none =>
    rw [hl] at hlease
    cases hlease
  | some u =>
    rw [hl, Option.all_some, decide_eq_false_iff_not] at hlease
    simp [hrun, not_le.1 hlease]

/-- A claim that writes no row found the cap reached, the row leased, or no try left or due. -/
theorem claimStage1Upsert_eq_none (hcap : maxRunningJobs < 2 ^ 63)
    (h : db.claimStage1Upsert now threadId workerId source lease maxRunningJobs token = none) :
    maxRunningJobs ≤ db.countAll now ∨ ∃ job, db.job (stage1JobId threadId) = some job ∧
      (job.live now = true ∨ job.retryDue now = false ∨ job.retryRemaining ≤ 0) := by
  unfold claimStage1Upsert at h
  rw [asI64_eq hcap] at h
  split at h
  next hcount =>
    split at h
    · cases h
    next job hjob =>
      split at h
      · cases h
      next hguard =>
        rw [Bool.not_eq_true] at hguard
        simp only [Bool.and_eq_false_iff, Bool.or_eq_false_iff, decide_eq_false_iff_not, not_lt]
          at hguard
        rcases hguard with ((hfree | hdue) | hretry) | hothers
        · exact .inr ⟨job, hjob, .inl (live_of_not_free hfree)⟩
        · exact .inr ⟨job, hjob, .inr (.inl hdue.1)⟩
        · exact .inr ⟨job, hjob, .inr (.inr hretry.1)⟩
        · left
          have hall : db.countRunning now (fun key => key ≠ threadId) ≤ db.countAll now :=
            countRunning_mono fun _ _ => rfl
          exact le_trans (Int.ofNat_le.1 hothers) hall
  next hcount => exact .inl (Int.ofNat_le.1 (not_lt.1 hcount))

theorem stage1SkipOutcome_ne_upToDate (job : Option Job) (now : Int) :
    stage1SkipOutcome job now ≠ .skippedUpToDate := by
  unfold stage1SkipOutcome
  split
  · exact fun h => by cases h
  · split
    · exact fun h => by cases h
    · split
      · exact fun h => by cases h
      · exact fun h => by cases h

/-- Every refused claim says why. -/
theorem truthful_tryClaimStage1Job (workerId : Str) (lease : Int) (token : Str)
    (hcap : maxRunningJobs < 2 ^ 63) : db.Truthful now threadId source maxRunningJobs
      (db.tryClaimStage1Job now threadId workerId source lease maxRunningJobs token).1 := by
  unfold tryClaimStage1Job
  by_cases hcovered : db.Covered threadId source
  · rw [if_pos (stage1UpToDate_iff.2 hcovered)]
    exact ⟨iff_of_true rfl hcovered, fun h => (by cases h), fun h => (by cases h),
      fun h => (by cases h)⟩
  rw [if_neg (mt stage1UpToDate_iff.1 hcovered)]
  cases hupsert : db.claimStage1Upsert now threadId workerId source lease maxRunningJobs token with
  | some db' =>
    exact ⟨iff_of_false (fun h => by cases h) hcovered, fun h => (by cases h),
      fun h => (by cases h), fun h => (by cases h)⟩
  | none =>
    dsimp only
    refine ⟨iff_of_false (stage1SkipOutcome_ne_upToDate _ _) hcovered, fun h => ?_, fun h => ?_,
      fun h => ?_⟩
    · rcases claimStage1Upsert_eq_none hcap hupsert with hfull | ⟨job, hjob, hreason⟩
      · exact .inr hfull
      · rw [hjob] at h
        -- the reasons read off the row before this one do not hold
        unfold stage1SkipOutcome at h
        dsimp only at h
        split at h
        · cases h
        next hretry =>
          split at h
          · cases h
          next hdue =>
            rcases hreason with hlive | hback | hexhausted
            · exact .inl ⟨job, hjob, hlive⟩
            · exfalso
              unfold Job.retryDue at hback
              cases hr : job.retryAt with
              | none =>
                rw [hr] at hback
                cases hback
              | some r =>
                rw [hr, Option.all_some, decide_eq_false_iff_not] at hback
                rw [hr, Option.any_some, decide_eq_true_eq] at hdue
                omega
            · exact absurd hexhausted hretry
    · unfold stage1SkipOutcome at h
      split at h
      · cases h
      next job hjob =>
        split at h
        · cases h
        · split at h
          next hback =>
            simp only [Option.any_eq_true, decide_eq_true_eq] at hback
            obtain ⟨r, hr, hlt⟩ := hback
            exact ⟨job, r, hjob, hr, hlt⟩
          · cases h
    · unfold stage1SkipOutcome at h
      split at h
      · cases h
      next job hjob =>
        split at h
        next hexhausted => exact ⟨job, hjob, hexhausted⟩
        · split at h
          · cases h
          · cases h

end Claim

end Db

/-! ## What a transaction does to a thread -/

/-- The row of a thread's stage-1 job and its output after a transaction. -/
inductive RowEffect (db : Db) (now : Int) (threadId : Str) :
    Op → Option Job → Option Stage1Output → Prop
  | kept {op : Op} :
      RowEffect db now threadId op (db.job (stage1JobId threadId)) (db.output threadId)
  | claimed {workerId token : Str} {source lease : Int} {maxRunning : Nat} {job : Job} :
      ¬ db.Covered threadId source → job.ownershipToken = some token →
      job.inputWatermark = some source → job.lastSuccessWatermark = db.lastSuccess threadId →
      RowEffect db now threadId (.claimStage1 threadId workerId source lease maxRunning token)
        (some job) (db.output threadId)
  | succeeded {token rawMemory rolloutSummary : Str} {source : Int} {rolloutSlug : Option Str}
      {job : Job} {o : Stage1Output} :
      db.job (stage1JobId threadId) = some job → job.ownedBy token = true →
      o.sourceUpdatedAt = source ∨ db.output threadId = some o →
      RowEffect db now threadId
        (.succeedStage1 threadId token source rawMemory rolloutSummary rolloutSlug)
        (some (Db.succeededStage1Job now job)) (some o)
  | succeededNoOutput {token : Str} {job : Job} :
      db.job (stage1JobId threadId) = some job → job.ownedBy token = true →
      RowEffect db now threadId (.succeedStage1NoOutput threadId token)
        (some (Db.succeededStage1Job now job)) none
  | failed {op : Op} {job : Job} {delay : Int} {reason : Str} :
      db.job (stage1JobId threadId) = some job →
      RowEffect db now threadId op (some (Db.failedJob now delay reason job)) (db.output threadId)

section Effects

variable {db db' : Db} {now : Int} {threadId threadId' : Str} {id : JobId}

theorem stage1JobId_inj : stage1JobId threadId = stage1JobId threadId' ↔ threadId = threadId' := by
  simp [stage1JobId]

theorem job_enqueue_stage1 (w : Int) :
    (db.enqueueGlobalConsolidation w).job (stage1JobId threadId) =
      db.job (stage1JobId threadId) := by
  unfold Db.enqueueGlobalConsolidation
  split
  · exact Db.job_setJob_of_ne (stage1JobId_ne_global threadId)
  · exact Db.job_setJob_of_ne (stage1JobId_ne_global threadId)

theorem output_deleteOutput_of_ne (h : threadId ≠ threadId') :
    (db.deleteOutput threadId').output threadId = db.output threadId :=
  AList.lookup_erase_ne h

theorem output_deleteOutput_self : (db.deleteOutput threadId).output threadId = none :=
  AList.lookup_erase threadId _

theorem output_upsertOutput_of_ne {o : Stage1Output} (h : threadId ≠ threadId') :
    (db.upsertOutput threadId' o).output threadId = db.output threadId := by
  unfold Db.upsertOutput
  split
  · exact AList.lookup_insert_ne h
  · rfl

theorem output_upsertOutput_self (db : Db) (threadId : Str) (o : Stage1Output) : ∃ o',
    (db.upsertOutput threadId o).output threadId = some o' ∧
      (o'.sourceUpdatedAt = o.sourceUpdatedAt ∨ db.output threadId = some o') := by
  unfold Db.upsertOutput
  split
  · exact ⟨o, AList.lookup_insert _, .inl rfl⟩
  next hnewer =>
    cases hold : db.output threadId with
    | none =>
      rw [hold] at hnewer
      exact absurd rfl hnewer
    | some old => exact ⟨old, rfl, .inr rfl⟩

theorem RowEffect.of_eq {op : Op}
    (hjob : db'.job (stage1JobId threadId) = db.job (stage1JobId threadId))
    (houtput : db'.output threadId = db.output threadId) :
    RowEffect db now threadId op (db'.job (stage1JobId threadId)) (db'.output threadId) := by
  rw [hjob, houtput]
  exact .kept

theorem RowEffect.of_finish {op : Op} {cond : Job → Bool} {f : Job → Job}
    (hexec : (op.exec db now).2 = (db.finish (db.updateJob globalJobId cond f)).2) :
    RowEffect db now threadId op ((op.exec db now).2.job (stage1JobId threadId))
      ((op.exec db now).2.output threadId) := by
  rw [hexec]
  rcases db.finish_cases (db.updateJob globalJobId cond f) with ⟨-, h⟩ | ⟨db', hupd, h⟩
  · rw [h]
    exact .kept
  · rw [h]
    exact .of_eq (Db.job_updateJob_of_ne hupd (stage1JobId_ne_global threadId))
      (by rw [Db.output_updateJob hupd])

theorem lastSuccess_of_claim {workerId token : Str} {source lease : Int} {maxRunning : Nat}
    (h : db.claimStage1Upsert now threadId workerId source lease maxRunning token = some db') :
    ∃ job, db' = db.setJob (stage1JobId threadId) job ∧ job.ownershipToken = some token ∧
      job.inputWatermark = some source ∧
      job.lastSuccessWatermark = db.lastSuccess threadId := by
  unfold Db.claimStage1Upsert at h
  unfold Db.lastSuccess
  split at h
  · split at h
    next hnone =>
      cases h
      rw [hnone]
      exact ⟨_, rfl, rfl, rfl, rfl⟩
    next job hjob =>
      split at h
      · cases h
        rw [hjob]
        exact ⟨_, rfl, rfl, rfl, rfl⟩
      · cases h
  · cases h

theorem rowEffect_claimStage1 (workerId : Str) (source lease : Int) (maxRunning : Nat)
    (token : Str) :
    let op := Op.claimStage1 threadId' workerId source lease maxRunning token
    RowEffect db now threadId op ((op.exec db now).2.job (stage1JobId threadId))
      ((op.exec db now).2.output threadId) := by
  simp only [Op.exec, Db.tryClaimStage1Job]
  by_cases hcovered : db.Covered threadId' source
  · rw [if_pos (Db.stage1UpToDate_iff.2 hcovered)]
    exact .kept
  rw [if_neg (mt Db.stage1UpToDate_iff.1 hcovered)]
  cases hupsert : db.claimStage1Upsert now threadId' workerId source lease maxRunning token with
  | none => exact .kept
  | some db' =>
    obtain ⟨job, rfl, htoken, hinput, hlast⟩ := lastSuccess_of_claim hupsert
    by_cases hthread : threadId = threadId'
    · subst hthread
      dsimp only
      rw [Db.job_setJob_self]
      exact .claimed hcovered htoken hinput hlast
    · exact .of_eq (Db.job_setJob_of_ne (mt stage1JobId_inj.1 hthread)) rfl

theorem rowEffect_succeedStage1 (token : Str) (source : Int) (rawMemory rolloutSummary : Str)
    (rolloutSlug : Option Str) :
    let op := Op.succeedStage1 threadId' token source rawMemory rolloutSummary rolloutSlug
    RowEffect db now threadId op ((op.exec db now).2.job (stage1JobId threadId))
      ((op.exec db now).2.output threadId) := by
  simp only [Op.exec]
  rcases db.markStage1JobSucceeded_cases now token threadId' source rawMemory rolloutSummary
    rolloutSlug with ⟨r, hr, -⟩ | ⟨db₁, hupd, hr⟩
  · rw [hr]
    exact .kept
  · rw [hr]
    dsimp only
    rw [job_enqueue_stage1, Db.output_enqueue, Db.job_upsertOutput]
    by_cases hthread : threadId = threadId'
    · subst hthread
      obtain ⟨o, ho, hsource⟩ := output_upsertOutput_self db₁ threadId
        ⟨source, rawMemory, rolloutSummary, rolloutSlug, now⟩
      rw [Db.output_updateJob hupd] at hsource
      obtain ⟨job, hjob, howned, rfl⟩ := Db.updateJob_eq_some.1 hupd
      rw [ho, Db.job_setJob_self]
      exact .succeeded hjob howned hsource
    · rw [output_upsertOutput_of_ne hthread]
      exact .of_eq (Db.job_updateJob_of_ne hupd (mt stage1JobId_inj.1 hthread))
        (by rw [Db.output_updateJob hupd])

theorem rowEffect_succeedStage1NoOutput (token : Str) :
    let op := Op.succeedStage1NoOutput threadId' token
    RowEffect db now threadId op ((op.exec db now).2.job (stage1JobId threadId))
      ((op.exec db now).2.output threadId) := by
  simp only [Op.exec]
  rcases db.markStage1JobSucceededNoOutput_cases now token threadId' with
    ⟨r, hr, -⟩ | ⟨db₁, w, hupd, hr⟩
  · rw [hr]
    exact .kept
  · rw [hr]
    dsimp only
    rw [job_enqueue_stage1, Db.output_enqueue, Db.job_deleteOutput]
    by_cases hthread : threadId = threadId'
    · subst hthread
      obtain ⟨job, hjob, howned, rfl⟩ := Db.updateJob_eq_some.1 hupd
      rw [output_deleteOutput_self, Db.job_setJob_self]
      exact .succeededNoOutput hjob howned
    · rw [output_deleteOutput_of_ne hthread]
      exact .of_eq (Db.job_updateJob_of_ne hupd (mt stage1JobId_inj.1 hthread))
        (by rw [Db.output_updateJob hupd])

theorem rowEffect (db : Db) (now : Int) (threadId : Str) (op : Op) :
    RowEffect db now threadId op ((op.exec db now).2.job (stage1JobId threadId))
      ((op.exec db now).2.output threadId) := by
  cases op with
  | claimStage1 => exact rowEffect_claimStage1 ..
  | succeedStage1 => exact rowEffect_succeedStage1 ..
  | succeedStage1NoOutput => exact rowEffect_succeedStage1NoOutput ..
  | failStage1 threadId' token reason delay =>
    simp only [Op.exec, Db.markStage1JobFailed]
    rcases db.finish_cases (db.updateJob (stage1JobId threadId') (·.ownedBy token)
      (Db.failedJob now delay reason)) with ⟨-, h⟩ | ⟨db', hupd, h⟩
    · rw [h]
      exact .kept
    · rw [h]
      by_cases hthread : threadId = threadId'
      · subst hthread
        obtain ⟨job, hjob, -, rfl⟩ := Db.updateJob_eq_some.1 hupd
        dsimp only
        rw [Db.job_setJob_self]
        exact .failed hjob
      · exact .of_eq (Db.job_updateJob_of_ne hupd (mt stage1JobId_inj.1 hthread))
          (by rw [Db.output_updateJob hupd])
  | enqueueGlobal w => exact .of_eq (job_enqueue_stage1 w) (by rw [Op.exec, Db.output_enqueue])
  | claimGlobal workerId lease token =>
    simp only [Op.exec]
    rcases db.tryClaimGlobalPhase2Job_cases now token workerId lease with
      ⟨o, ho, -⟩ | ⟨job, w, -, -, -, -, -, hc⟩
    · rw [ho]
      exact .kept
    · rw [hc]
      exact .of_eq (Db.job_setJob_of_ne (stage1JobId_ne_global threadId)) rfl
  | heartbeatGlobal => exact .of_finish rfl
  | succeedGlobal => exact .of_finish rfl
  | failGlobal => exact .of_finish rfl
  | failGlobalIfUnowned => exact .of_finish rfl

end Effects

/-! ## Runs -/

/-- A success passes the source that the claim under its token was made with. -/
def Label.PassesClaimed (past : List Label) : Label → Prop
  | .exec _ (.succeedStage1 threadId token source _ _ _) =>
    ∀ now workerId source' lease maxRunning,
      Label.exec now (.claimStage1 threadId workerId source' lease maxRunning token) ∈ past →
        source = source'
  | _ => True

/-- All successes of a run do. -/
def PassClaimed (ls : List Label) : Prop :=
  ∀ past l rest, ls = past ++ l :: rest → l.PassesClaimed past

theorem PassClaimed.of_concat {past : List Label} {l : Label} (h : PassClaimed (past ++ [l])) :
    PassClaimed past ∧ l.PassesClaimed past := by
  refine ⟨fun before l' rest hpast => ?_, h past l [] rfl⟩
  refine h before l' (rest ++ [l]) ?_
  rw [hpast, List.append_assoc, List.cons_append]

/-- A running row is one that was claimed, for a source past its success watermark. -/
def FromClaim (past : List Label) (threadId : Str) (job : Job) : Prop :=
  ∃ token source, job.ownershipToken = some token ∧ job.inputWatermark = some source ∧
    (∀ w, job.lastSuccessWatermark = some w → w < source) ∧
    ∃ now workerId lease maxRunning,
      Label.exec now (.claimStage1 threadId workerId source lease maxRunning token) ∈ past

/-- Running rows come from claims, and the success watermark covers the output. -/
structure StageInv (past : List Label) (db : Db) : Prop where
  running : ∀ threadId job, db.job (stage1JobId threadId) = some job → job.status = .running →
    FromClaim past threadId job
  covered : ∀ threadId o, db.outputAt threadId = some o →
    ∃ w, db.lastSuccess threadId = some w ∧ o ≤ w

/-- Nothing goes back for a thread: the success watermark is kept or raised, and an output is an
old one or past the success watermark, which is raised to it. -/
structure Forward (db db' : Db) (threadId : Str) : Prop where
  lastSuccess : ∀ w, db.lastSuccess threadId = some w →
    ∃ w', db'.lastSuccess threadId = some w' ∧ w ≤ w'
  output : ∀ o, db'.outputAt threadId = some o →
    db.outputAt threadId = some o ∨
      (∀ w, db.lastSuccess threadId = some w → w < o) ∧ db'.lastSuccess threadId = some o

section Invariant

variable {db db' : Db} {past : List Label} {now : Int} {threadId : Str} {op : Op}
  {job' : Option Job} {output' : Option Stage1Output}

theorem FromClaim.mono {job : Job} (h : FromClaim past threadId job) (l : Label) :
    FromClaim (past ++ [l]) threadId job := by
  obtain ⟨token, source, htoken, hinput, hlast, now, workerId, lease, maxRunning, hmem⟩ := h
  exact ⟨token, source, htoken, hinput, hlast, now, workerId, lease, maxRunning,
    List.mem_append_left _ hmem⟩

theorem lastSuccess_of_job {job : Job} (h : db.job (stage1JobId threadId) = some job) :
    db.lastSuccess threadId = job.lastSuccessWatermark := by
  rw [Db.lastSuccess, h]
  rfl

theorem outputAt_of_output {o : Stage1Output} (h : db.output threadId = some o) :
    db.outputAt threadId = some o.sourceUpdatedAt := by
  rw [Db.outputAt, h]
  rfl

theorem RowEffect.forward (hdb : StageInv past db)
    (hpass : (Label.exec now op).PassesClaimed past)
    (h : RowEffect db now threadId op (db'.job (stage1JobId threadId)) (db'.output threadId)) :
    Forward db db' threadId := by
  generalize hjob' : db'.job (stage1JobId threadId) = job' at h
  generalize houtput' : db'.output threadId = output' at h
  have hlast : db'.lastSuccess threadId = job'.bind Job.lastSuccessWatermark := by
    rw [Db.lastSuccess, hjob']
  have hout : db'.outputAt threadId = output'.map Stage1Output.sourceUpdatedAt := by
    rw [Db.outputAt, houtput']
  have hsucceeded : ∀ job token, db.job (stage1JobId threadId) = some job →
      job.ownedBy token = true → ∃ source, job.inputWatermark = some source ∧
        (∀ w, db.lastSuccess threadId = some w → w < source) ∧
        ∃ now workerId lease maxRunning,
          Label.exec now (.claimStage1 threadId workerId source lease maxRunning token) ∈ past := by
    intro job token hjob howned
    obtain ⟨hrun, howner⟩ := Db.ownedBy_iff.1 howned
    obtain ⟨token', source, htoken, hinput, hpast, hclaim⟩ := hdb.running threadId job hjob hrun
    obtain rfl : token = token' := Option.some.inj (howner.symm.trans htoken)
    rw [lastSuccess_of_job hjob]
    exact ⟨source, hinput, hpast, hclaim⟩
  cases h with
  | kept =>
    exact ⟨fun w hw => ⟨w, by rw [hlast]; exact hw, le_refl w⟩,
      fun o ho => .inl (by rw [← ho, hout]; rfl)⟩
  | claimed hcovered htoken hinput hkept =>
    refine ⟨fun w hw => ⟨w, ?_, le_refl w⟩, fun o ho => .inl (by rw [← ho, hout]; rfl)⟩
    rw [hlast, Option.bind_some, hkept, hw]
  | @succeeded token _ _ source _ job o hjob howned hsource =>
    obtain ⟨source', hinput, hpast, claimed, workerId, lease, maxRunning, hclaim⟩ :=
      hsucceeded job token hjob howned
    obtain rfl : source = source' := hpass claimed workerId source' lease maxRunning hclaim
    have hraised : db'.lastSuccess threadId = some source := by
      rw [hlast, Option.bind_some]
      exact hinput
    refine ⟨fun w hw => ⟨source, hraised, le_of_lt (hpast w hw)⟩, fun o' ho' => ?_⟩
    · rw [hout, Option.map_some, Option.some.injEq] at ho'
      subst ho'
      rcases hsource with hsource | hold
      · rw [hsource]
        exact .inr ⟨hpast, hraised⟩
      · exact .inl (outputAt_of_output hold)
  | @succeededNoOutput token job hjob howned =>
    obtain ⟨source, hinput, hpast, -⟩ := hsucceeded job token hjob howned
    refine ⟨fun w hw => ⟨source, ?_, le_of_lt (hpast w hw)⟩, fun o' ho' => ?_⟩
    · rw [hlast, Option.bind_some]
      exact hinput
    · rw [hout] at ho'
      cases ho'
  | @failed _ job delay reason hjob =>
    refine ⟨fun w hw => ⟨w, ?_, le_refl w⟩, fun o ho => .inl (by rw [← ho, hout]; rfl)⟩
    rw [lastSuccess_of_job hjob] at hw
    rw [hlast]
    exact hw

/-- And it leaves running rows from claims, and a success watermark that covers the output. -/
theorem StageInv.exec (hdb : StageInv past db) (hpass : (Label.exec now op).PassesClaimed past) :
    StageInv (past ++ [.exec now op]) (op.exec db now).2 := by
  refine ⟨fun threadId job hjob hrun => ?_, fun threadId o ho => ?_⟩
  · have heffect := rowEffect db now threadId op
    rw [hjob] at heffect
    generalize (op.exec db now).2.output threadId = output' at heffect
    generalize hsome : some job = job' at heffect
    cases heffect with
    | kept => exact (hdb.running threadId job hsome.symm hrun).mono _
    | @claimed workerId token source lease maxRunning job hcovered htoken hinput hkept =>
      cases hsome
      refine ⟨token, source, htoken, hinput, fun w hw => ?_, now, workerId, lease, maxRunning,
        List.mem_append_right _ List.mem_cons_self⟩
      rw [hkept] at hw
      by_contra hle
      exact hcovered (.inr ⟨w, hw, not_lt.1 hle⟩)
    | succeeded =>
      cases hsome
      cases hrun
    | succeededNoOutput =>
      cases hsome
      cases hrun
    | failed =>
      cases hsome
      cases hrun
  · have heffect := rowEffect db now threadId op
    have hforward := heffect.forward hdb hpass
    rcases hforward.output o ho with hold | ⟨-, hraised⟩
    · obtain ⟨w, hw, hle⟩ := hdb.covered threadId o hold
      obtain ⟨w', hw', hle'⟩ := hforward.lastSuccess w hw
      exact ⟨w', hw', le_trans hle hle'⟩
    · exact ⟨o, hraised, le_refl o⟩

end Invariant

namespace System

/-- From one state to a later one, nothing goes back for any thread. -/
structure NotBack (db db' : Db) : Prop where
  lastSuccess : ∀ threadId w, db.lastSuccess threadId = some w →
    ∃ w', db'.lastSuccess threadId = some w' ∧ w ≤ w'
  output : ∀ threadId o o', db.outputAt threadId = some o → db'.outputAt threadId = some o' → o ≤ o'

section Runs

variable {s₀ s t : System} {past ls ls' : List Label} {l : Label} {db db' db'' : Db}

theorem NotBack.refl (db : Db) : NotBack db db where
  lastSuccess := fun _ w hw => ⟨w, hw, le_refl w⟩
  output := fun _ _ _ ho ho' => le_of_eq (Option.some.inj (ho.symm.trans ho'))

/-- An output that was deleted does not come back older: the success watermark covered it. -/
theorem NotBack.forward (hdb : StageInv past db) (h : NotBack db db')
    (hnext : ∀ threadId, Forward db' db'' threadId) : NotBack db db'' where
  lastSuccess := by
    intro threadId w hw
    obtain ⟨w', hw', hle⟩ := h.lastSuccess threadId w hw
    obtain ⟨w'', hw'', hle'⟩ := (hnext threadId).lastSuccess w' hw'
    exact ⟨w'', hw'', le_trans hle hle'⟩
  output := by
    intro threadId o o' ho ho'
    rcases (hnext threadId).output o' ho' with hold | ⟨hnew, -⟩
    · exact h.output threadId o o' ho hold
    · obtain ⟨w, hw, hle⟩ := hdb.covered threadId o ho
      obtain ⟨w', hw', hle'⟩ := h.lastSuccess threadId w hw
      exact le_trans hle (le_trans hle' (le_of_lt (hnew w' hw')))

theorem stageInv_step (hs : StageInv past s.db) (hpass : l.PassesClaimed past) (h : Step s l t) :
    StageInv (past ++ [l]) t.db ∧ ∀ threadId, Forward s.db t.db threadId := by
  cases h with
  | tick hlater =>
    refine ⟨⟨fun threadId job hjob hrun => (hs.running threadId job hjob hrun).mono _, hs.covered⟩,
      fun threadId => ⟨fun w hw => ⟨w, hw, le_refl w⟩, fun o ho => .inl ho⟩⟩
  | @exec now op hnow hfresh =>
    exact ⟨hs.exec hpass, fun threadId => (rowEffect s.db now threadId op).forward hs hpass⟩

/-- A run keeps the invariant, and does not go back from the state it starts in. -/
theorem notBack_of_run (hs : StageInv past s.db) (h : Transition.Run Step s ls t)
    (hpass : PassClaimed (past ++ ls)) : StageInv (past ++ ls) t.db ∧ NotBack s.db t.db := by
  refine h.history (I := fun past' t => PassClaimed past' → StageInv past' t.db ∧ NotBack s.db t.db)
    ?_ past (fun _ => ⟨hs, .refl s.db⟩) hpass
  intro past' t' l u hI hstep hpass'
  obtain ⟨hbefore, hl⟩ := hpass'.of_concat
  obtain ⟨hinv, hnot⟩ := hI hbefore
  obtain ⟨hinv', hforward⟩ := stageInv_step hinv hl hstep
  exact ⟨hinv', hnot.forward hs hforward⟩

theorem stageInv_initial (h : s.Initial) : StageInv [] s.db := by
  obtain ⟨threads, clock, rfl⟩ := h
  refine ⟨fun threadId job hjob => ?_, fun threadId o ho => ?_⟩
  · simp [init, Db.job] at hjob
  · simp [init, Db.outputAt, Db.output] at ho

/-- In every run, what was reached for a thread is not undone later, and a claim that is refused
says why. -/
theorem stage1_claims_safe (hinit : s₀.Initial) (h : Transition.Run Step s₀ ls s)
    (h' : Transition.Run Step s ls' t) (hpass : PassClaimed (ls ++ ls')) :
    NotBack s.db t.db ∧
      ∀ now threadId workerId source lease maxRunningJobs token, maxRunningJobs < 2 ^ 63 →
        t.db.Truthful now threadId source maxRunningJobs
          (t.db.tryClaimStage1Job now threadId workerId source lease maxRunningJobs token).1 := by
  have hbefore : PassClaimed ls := by
    intro past l rest hls
    refine hpass past l (rest ++ ls') ?_
    rw [hls, List.append_assoc, List.cons_append]
  obtain ⟨hs, -⟩ := notBack_of_run (stageInv_initial hinit) h hbefore
  obtain ⟨-, hnot⟩ := notBack_of_run hs h' hpass
  exact ⟨hnot, fun now threadId workerId source lease maxRunningJobs token hcap =>
    Db.truthful_tryClaimStage1Job workerId lease token hcap⟩

/-- A thread whose output was asked for, and stored. -/
def claimedThread : System :=
  (init (AList.singleton "t" "/work") 0).exec 0 (.claimStage1 "t" "w" 5 10 1 "a")

def storedThread : System := claimedThread.exec 0 (.succeedStage1 "t" "a" 5 "memory" "summary" none)

/-- The stored output is up to date for the source it was made from. -/
theorem stage1_claims_safe_storedThread : NotBack claimedThread.db storedThread.db ∧
    (storedThread.db.tryClaimStage1Job 1 "t" "w" 5 10 1 "b").1 = .skippedUpToDate := by
  have hclaim : Step (init (AList.singleton "t" "/work") 0)
      (.exec 0 (.claimStage1 "t" "w" 5 10 1 "a")) claimedThread :=
    .exec (le_refl _) fun token _ => freshToken_init _ 0 token
  have hstore : Step claimedThread (.exec 0 (.succeedStage1 "t" "a" 5 "memory" "summary" none))
      storedThread := .exec (le_refl _) fun token htoken => by cases htoken
  have hpass : PassClaimed ([.exec 0 (.claimStage1 "t" "w" 5 10 1 "a")] ++
      [.exec 0 (.succeedStage1 "t" "a" 5 "memory" "summary" none)]) := by
    intro past l rest hls
    cases past with
    | nil =>
      cases hls
      exact trivial
    | cons first past =>
      cases past with
      | nil =>
        cases hls
        intro now workerId source lease maxRunning hmem
        cases List.mem_singleton.1 hmem
        rfl
      | cons second past => simp at hls
  obtain ⟨hnot, htruthful⟩ :=
    stage1_claims_safe ⟨_, 0, rfl⟩ (.single hclaim) (.single hstore) hpass
  refine ⟨hnot, (htruthful 1 "t" "w" 5 10 1 "b" (by decide)).upToDate.2 (.inl ⟨5, ?_, le_refl _⟩)⟩
  decide

end Runs

end System

end SheriMl.Memories
