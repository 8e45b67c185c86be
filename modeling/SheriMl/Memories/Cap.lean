import SheriMl.Memories.Leases

/-!
# The cap on running stage-1 jobs

Every claim of stage 1 counts the other jobs with a live lease before it writes
its row, so as long as all claims pass the same cap, the rows with a live lease
never outnumber it (`runningStage1_le_cap`).
-/

namespace SheriMl.Memories

open Lease

theorem asI64_le (n : Nat) : asI64 n ≤ n := by
  unfold asI64 Int.bmod
  dsimp only
  split <;> omega

namespace Db

variable {db db' : Db} {id : JobId} {job : Job} {now : Int}

/-- All keys. -/
abbrev countAll (db : Db) (now : Int) : Nat := db.countRunning now fun _ => true

theorem countAll_congr (h : db'.jobs = db.jobs) : db'.countAll now = db.countAll now := by
  unfold countAll countRunning
  rw [h]

/-- Leases only run out. -/
theorem countRunning_antitone (db : Db) {later : Int} (h : now ≤ later) (p : Str → Bool) :
    db.countRunning later p ≤ db.countRunning now p := by
  refine List.countP_mono_left fun e _ he => ?_
  simp only [Bool.and_eq_true, Job.live, Option.any_eq_true, decide_eq_true_eq] at he ⊢
  obtain ⟨⟨hkind, hrun, u, hu, hlt⟩, hp⟩ := he
  exact ⟨⟨hkind, hrun, u, hu, lt_of_le_of_lt h hlt⟩, hp⟩

/-- The rows other than a written one are among the old rows under other ids. -/
theorem countP_setJob_le (db : Db) (id : JobId) (job : Job) (q : JobId × Job → Bool) :
    (db.setJob id job).jobs.entries.countP (fun e => q (e.1, e.2)) ≤
      (if q (id, job) then 1 else 0) +
        db.jobs.entries.countP fun e => q (e.1, e.2) && e.1 ≠ id := by
  have hentries : (db.setJob id job).jobs.entries =
      ⟨id, job⟩ :: List.kerase id db.jobs.entries := rfl
  rw [hentries, List.countP_cons, Nat.add_comm]
  refine Nat.add_le_add_left ?_ _
  have hne : ∀ e ∈ List.kerase id db.jobs.entries, e.1 ≠ id := by
    rintro e he rfl
    exact List.notMem_keys_kerase e.1 db.jobs.nodupKeys (List.mem_keys_of_mem he)
  calc (List.kerase id db.jobs.entries).countP (fun e => q (e.1, e.2))
      ≤ (List.kerase id db.jobs.entries).countP fun e => q (e.1, e.2) && e.1 ≠ id := by
        refine List.countP_mono_left fun e he hq => ?_
        simp [hq, hne e he]
    _ ≤ db.jobs.entries.countP fun e => q (e.1, e.2) && e.1 ≠ id :=
        (List.kerase_sublist id db.jobs.entries).countP_le

theorem countAll_setJob_le (h : id.kind = .memoryStage1 → job.live now = false) :
    (db.setJob id job).countAll now ≤ db.countAll now := by
  have hle := countP_setJob_le db id job
    fun e => e.1.kind = .memoryStage1 && e.2.live now && true
  have hnot : (decide (id.kind = .memoryStage1) && job.live now && true) = false := by
    by_cases hkind : id.kind = .memoryStage1
    · simp [h hkind]
    · simp [hkind]
  rw [hnot] at hle
  refine le_trans hle ?_
  rw [if_neg (by simp), Nat.zero_add]
  exact List.countP_mono_left fun e _ he => (Bool.and_eq_true_iff.1 he).1

/-- A claimed row is one more than the live rows of the other threads. -/
theorem countAll_setJob_stage1_le (db : Db) (now : Int) (threadId : Str) (job : Job) :
    (db.setJob (stage1JobId threadId) job).countAll now ≤
      1 + db.countRunning now fun key => key ≠ threadId := by
  refine le_trans (countP_setJob_le db _ job fun e =>
    e.1.kind = .memoryStage1 && e.2.live now && true) ?_
  refine Nat.add_le_add (by split <;> omega) ?_
  refine List.countP_mono_left fun e _ he => ?_
  simp only [Bool.and_eq_true, decide_eq_true_eq, Bool.and_true] at he ⊢
  obtain ⟨⟨hkind, hlive⟩, hne⟩ := he
  refine ⟨⟨hkind, hlive⟩, fun hkey => hne ?_⟩
  cases hid : e.1 with
  | mk kind jobKey => simp_all [stage1JobId]

theorem countAll_updateJob_le {cond : Job → Bool} {f : Job → Job}
    (h : db.updateJob id cond f = some db')
    (hf : id.kind = .memoryStage1 → ∀ job, (f job).live now = false) :
    db'.countAll now ≤ db.countAll now := by
  obtain ⟨job, -, -, rfl⟩ := updateJob_eq_some.1 h
  exact countAll_setJob_le fun hkind => hf hkind job

theorem countAll_finish_le {cond : Job → Bool} {f : Job → Job}
    (hf : id.kind = .memoryStage1 → ∀ job, (f job).live now = false) :
    (db.finish (db.updateJob id cond f)).2.countAll now ≤ db.countAll now := by
  rcases db.finish_cases (db.updateJob id cond f) with ⟨-, h⟩ | ⟨db', hupd, h⟩
  · rw [h]
  · rw [h]
    exact countAll_updateJob_le hupd hf

theorem countAll_enqueue_le (w : Int) :
    (db.enqueueGlobalConsolidation w).countAll now ≤ db.countAll now := by
  have hkind : ∀ job : Job, globalJobId.kind = .memoryStage1 → job.live now = false := by
    simp [globalJobId]
  unfold enqueueGlobalConsolidation
  split
  · exact countAll_setJob_le (hkind _)
  · exact countAll_setJob_le (hkind _)

theorem live_succeededStage1Job (finished : Int) (job : Job) :
    (succeededStage1Job finished job).live now = false := by
  simp [succeededStage1Job, Job.live]

theorem live_failedJob (finished delay : Int) (reason : Str) (job : Job) :
    (failedJob finished delay reason job).live now = false := by
  simp [failedJob, Job.live]

end Db

def Op.IsStage1Claim : Op → Prop
  | .claimStage1 .. => True
  | _ => False

theorem Op.countAll_exec_le {db : Db} {now at_ : Int} {op : Op} (h : ¬ op.IsStage1Claim) :
    (op.exec db at_).2.countAll now ≤ db.countAll now := by
  have hglobal : ∀ f : Job → Job, globalJobId.kind = .memoryStage1 →
      ∀ job, (f job).live now = false := by
    intro f hkind
    cases hkind
  cases op with
  | claimStage1 => exact absurd trivial h
  | succeedStage1 threadId token source rawMemory rolloutSummary rolloutSlug =>
    rcases db.markStage1JobSucceeded_cases at_ token threadId source rawMemory rolloutSummary
      rolloutSlug with ⟨r, hr, -⟩ | ⟨db₁, hupd, hr⟩
    · simp only [exec, hr, le_refl]
    · simp only [exec, hr]
      refine le_trans (Db.countAll_enqueue_le source) ?_
      rw [Db.countAll_congr (Db.jobs_upsertOutput ..)]
      exact Db.countAll_updateJob_le hupd fun _ => Db.live_succeededStage1Job at_
  | succeedStage1NoOutput threadId token =>
    rcases db.markStage1JobSucceededNoOutput_cases at_ token threadId with
      ⟨r, hr, -⟩ | ⟨db₁, w, hupd, hr⟩
    · simp only [exec, hr, le_refl]
    · simp only [exec, hr]
      refine le_trans (Db.countAll_enqueue_le w) ?_
      have hdel : (db₁.deleteOutput threadId).countAll now = db₁.countAll now :=
        Db.countAll_congr rfl
      rw [hdel]
      exact Db.countAll_updateJob_le hupd fun _ => Db.live_succeededStage1Job at_
  | failStage1 threadId token reason delay =>
    exact Db.countAll_finish_le fun _ => Db.live_failedJob at_ delay reason
  | enqueueGlobal w => exact Db.countAll_enqueue_le w
  | claimGlobal workerId lease token =>
    rcases db.tryClaimGlobalPhase2Job_cases at_ token workerId lease with
      ⟨o, ho, -⟩ | ⟨job, w, -, -, -, -, -, hc⟩
    · simp only [exec, ho, le_refl]
    · simp only [exec, hc]
      exact Db.countAll_setJob_le fun hkind => hglobal _ hkind job
  | heartbeatGlobal | succeedGlobal | failGlobal | failGlobalIfUnowned =>
    exact Db.countAll_finish_le (hglobal _)

/-- The claims of stage 1 pass this cap. -/
def Label.CapIs (maxRunningJobs : Nat) : Label → Prop
  | .exec _ (.claimStage1 _ _ _ _ maxRunning _) => maxRunning = maxRunningJobs
  | _ => True

namespace System

/-- The stage-1 jobs that run under a lease that is not over. -/
def runningStage1 (s : System) : Nat := s.db.countAll s.clock

/-- A claim that is let through leaves room for its own row. -/
theorem countAll_claimStage1_le {db : Db} {now clock : Int} (hnow : now ≤ clock)
    (threadId workerId : Str) (source lease : Int) {maxRunning : Nat} (token : Str)
    (hle : db.countAll clock ≤ maxRunning) :
    ((Op.claimStage1 threadId workerId source lease maxRunning token).exec db now).2.countAll
      clock ≤ maxRunning := by
  rcases db.tryClaimStage1Job_cases now token threadId workerId source lease maxRunning with
    ⟨o, ho, -⟩ | ⟨job, hc, hjob⟩
  · simpa only [Op.exec, ho] using hle
  · simp only [Op.exec, hc]
    have hbelow := hjob.below
    have hcap := asI64_le maxRunning
    have hothers := Db.countRunning_antitone db hnow fun key => key ≠ threadId
    have hins := Db.countAll_setJob_stage1_le db clock threadId job
    omega

theorem runningStage1_step {s t : System} {l : Label} {maxRunningJobs : Nat}
    (hcap : l.CapIs maxRunningJobs) (hs : s.runningStage1 ≤ maxRunningJobs) (h : Step s l t) :
    t.runningStage1 ≤ maxRunningJobs := by
  cases h with
  | tick hlater =>
    have hle := Db.countRunning_antitone s.db hlater fun _ => true
    exact le_trans hle hs
  | @exec now op hnow _ =>
    by_cases hclaim : op.IsStage1Claim
    · cases op with
      | claimStage1 =>
        cases hcap
        exact countAll_claimStage1_le hnow _ _ _ _ _ hs
      | _ => cases hclaim
    · exact le_trans (Op.countAll_exec_le hclaim) hs

/-- In every run whose stage-1 claims pass one cap, no more stage-1 jobs run under a
lease that is not over. -/
theorem runningStage1_le_cap {s t : System} {ls : List Label} {maxRunningJobs : Nat}
    (hinit : s.Initial) (hrun : Transition.Run Step s ls t)
    (hcap : ∀ l ∈ ls, l.CapIs maxRunningJobs) : t.runningStage1 ≤ maxRunningJobs := by
  refine hrun.invariant_of_labels (P := Label.CapIs maxRunningJobs)
    (I := fun s => s.runningStage1 ≤ maxRunningJobs)
    (fun hl hs h => runningStage1_step hl hs h) hcap ?_
  obtain ⟨threads, clock, rfl⟩ := hinit
  exact Nat.zero_le _

/-- The state after a second claim, for another thread, under a cap of one. -/
def twoClaims : System := firstClaim.exec 0 (.claimStage1 "u" "w" 5 10 1 "b")

/-- The second claim finds the cap reached. -/
theorem runningStage1_twoClaims : twoClaims.runningStage1 ≤ 1 ∧
    twoClaims.db.job (stage1JobId "u") = none ∧ (twoClaims.db.job (stage1JobId "t")).isSome := by
  have hsecond : Step firstClaim (.exec 0 (.claimStage1 "u" "w" 5 10 1 "b")) twoClaims := by
    refine .exec (le_refl _) ?_
    rintro token ⟨⟩
    exact freshToken_firstClaim
  refine ⟨runningStage1_le_cap ⟨∅, 0, rfl⟩ (.cons step_firstClaim (.single hsecond)) ?_,
    by decide, by decide⟩
  intro l hl
  simp only [List.mem_cons, List.not_mem_nil, or_false] at hl
  rcases hl with rfl | rfl
  · rfl
  · rfl

end System

end SheriMl.Memories
