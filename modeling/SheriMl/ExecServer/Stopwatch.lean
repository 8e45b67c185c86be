import SheriMl.Lib.Pool

/-!
# The stopwatch

`Stopwatch` of `exec-server/src/posix/stopwatch.rs`: its state behind a mutex, the watcher tasks of
`cancellation_token`, and the calls of `pause_for`. Each lock section is one step, but for one that
calls `notify_waiters`, which is a step of its own with the lock still held. A `Notified` future is
tokio's: it is ready once `notify_waiters` has been called since its creation, polled or not.

A watcher that has read the state lets go of the lock before it creates the future.
`exact_of_timely`: the deadline is exact as long as no notification falls into this gap, and no
watcher trusts its sleep when it was notified or while the stopwatch is paused.
-/

namespace SheriMl.ExecServer

open Pool Transition

/-- The state of `Stopwatch`, with the clock. -/
structure Stopwatch where
  limit : Nat
  elapsed : Nat
  runningSince : Option Nat
  activePauses : Nat
  /-- A pause or a resume holds the lock: it has changed the state and not yet notified. -/
  notifying : Bool
  /-- How often `notify_waiters` was called. -/
  notifyCalls : Nat
  now : Nat
  /-- For how long there was no pause in force. -/
  unpaused : Nat

namespace Stopwatch

def new (limit now : Nat) : Stopwatch where
  limit := limit
  elapsed := 0
  runningSince := some now
  activePauses := 0
  notifying := false
  notifyCalls := 0
  now := now
  unpaused := 0

variable (s : Stopwatch)

def running : Bool := s.runningSince.isSome

/-- `elapsed` with the time since `running_since`. -/
def total : Nat := s.elapsed + (s.runningSince.map fun since => s.now - since).getD 0

/-- `pause`, up to `notify_waiters`. -/
def pause : Stopwatch :=
  let s := { s with activePauses := s.activePauses + 1 }
  match s.runningSince with
  | some since =>
    if s.activePauses = 1 then
      { s with runningSince := none, elapsed := s.elapsed + (s.now - since), notifying := true }
    else s
  | none => s

/-- `resume`, up to `notify_waiters`. -/
def resume : Stopwatch :=
  if s.activePauses = 0 then s
  else
    let s := { s with activePauses := s.activePauses - 1 }
    if s.activePauses = 0 ∧ s.running = false then
      { s with runningSince := some s.now, notifying := true }
    else s

/-- `notify_waiters`, and the end of the lock section. -/
def notifyWaiters : Stopwatch :=
  { s with notifyCalls := s.notifyCalls + 1, notifying := false }

def advance (time : Nat) : Stopwatch :=
  { s with
    now := s.now + time
    unpaused := s.unpaused + if s.activePauses = 0 then time else 0 }

end Stopwatch

/-- A task or a call, by what it does next. -/
inductive Call where
  /-- the loop of the watcher: the lock section -/
  | reading
  /-- what was read, and the calls of `notify_waiters` until then -/
  | read (remaining : Nat) (running : Bool) (version : Nat)
  /-- the watcher has started to sleep and not yet created the future -/
  | sleepStarted (deadline version : Nat)
  /-- the watcher awaits the future that was created after `seen` calls of `notify_waiters` -/
  | parked (seen : Nat)
  /-- the watcher awaits this future or the end of its sleep -/
  | sleeping (deadline seen : Nat)
  /-- the watcher has left the loop -/
  | cancelling
  /-- `pause_for` before its pause -/
  | pausing
  /-- `pause_for` in the lock section of its pause -/
  | pauseNotifying
  /-- `pause_for` awaits its future -/
  | pending
  /-- `pause_for` in the lock section of its resume -/
  | resumeNotifying
  | clock

inductive Event where
  /-- a `Notified` future is created -/
  | register
  /-- a watcher goes on because its sleep is over -/
  | sleepOver
  /-- the token is cancelled -/
  | cancel
  | other

inductive CallStep : Stopwatch → Call → Event → Stopwatch → Multiset Call → Prop
  | readOver {s} : s.notifying = false → s.limit ≤ s.total →
      CallStep s .reading .other s {.cancelling}
  | read {s} : s.notifying = false → s.total < s.limit →
      CallStep s .reading .other s {.read (s.limit - s.total) s.running s.notifyCalls}
  | park {s remaining version} :
      CallStep s (.read remaining false version) .register s {.parked s.notifyCalls}
  | startSleep {s remaining version} :
      CallStep s (.read remaining true version) .other s
        {.sleepStarted (s.now + remaining) version}
  | sleep {s deadline version} :
      CallStep s (.sleepStarted deadline version) .register s {.sleeping deadline s.notifyCalls}
  | unpark {s seen} : seen ≠ s.notifyCalls → CallStep s (.parked seen) .other s {.reading}
  | wake {s deadline seen} : seen ≠ s.notifyCalls →
      CallStep s (.sleeping deadline seen) .other s {.reading}
  | sleepOver {s deadline seen} : deadline ≤ s.now →
      CallStep s (.sleeping deadline seen) .sleepOver s {.cancelling}
  | cancel {s} : CallStep s .cancelling .cancel s 0
  | pause {s} : s.notifying = false →
      CallStep s .pausing .other s.pause {if s.pause.notifying then .pauseNotifying else .pending}
  | pauseNotify {s} : CallStep s .pauseNotifying .other s.notifyWaiters {.pending}
  | resume {s} : s.notifying = false →
      CallStep s .pending .other s.resume (if s.resume.notifying then {.resumeNotifying} else 0)
  | resumeNotify {s} : CallStep s .resumeNotifying .other s.notifyWaiters 0
  | advance {s} (time : Nat) : CallStep s .clock .other (s.advance time) {.clock}

inductive Start : Call → Prop
  | watcher : Start .reading
  | pauseFor : Start .pausing
  | clock : Start .clock

abbrev State := Config Stopwatch Call

def step : State → Option Event → State → Prop := Step Start CallStep

def init (limit now : Nat) : State := ⟨.new limit now, 0⟩

/-- The stopwatch runs, no pause or resume is in its lock section, and a watcher waits for a
notification that was not given. -/
def Stuck (c : State) : Prop :=
  c.shared.running = true ∧ c.shared.notifying = false ∧ .parked c.shared.notifyCalls ∈ c.calls

/-- A watcher creates its future when nothing was notified since it read the state, and trusts its
sleep when it was not notified and the stopwatch runs. -/
def Timely (s : Stopwatch) : Call → Event → Prop
  | .read _ _ version, .register | .sleepStarted _ version, .register => version = s.notifyCalls
  | .sleeping _ seen, .sleepOver => seen = s.notifyCalls ∧ s.running = true
  | _, _ => True

def timelyStep : State → Option Event → State → Prop :=
  Step Start fun s k l s' ks' => CallStep s k l s' ks' ∧ Timely s k l

/-! ## The state -/

/-- What is counted, and that the stopwatch runs when there is no pause in force. -/
structure Stopwatch.Counts (s : Stopwatch) : Prop where
  since_le : ∀ since, s.runningSince = some since → since ≤ s.now
  total_eq : s.total = s.unpaused
  running_iff : s.running = true ↔ s.activePauses = 0

namespace Stopwatch

variable {s : Stopwatch}

theorem running_of_some {since : Nat} (h : s.runningSince = some since) : s.running = true := by
  rw [running, h]
  rfl

theorem running_of_none (h : s.runningSince = none) : s.running = false := by
  rw [running, h]
  rfl

theorem total_of_some {since : Nat} (h : s.runningSince = some since) :
    s.total = s.elapsed + (s.now - since) := by
  rw [total, h]
  rfl

theorem total_of_none (h : s.runningSince = none) : s.total = s.elapsed := by
  rw [total, h]
  rfl

/-- What a pause does: the first one stops the stopwatch. -/
theorem Counts.pause_cases (h : s.Counts) :
    s.running = true ∧ s.pause.running = false ∧ s.pause.notifying = true ∨
      s.running = false ∧ s.pause.running = false ∧ s.pause.notifying = s.notifying := by
  have hiff := h.running_iff
  cases hsince : s.runningSince with
  | some since =>
    have hzero := hiff.1 (running_of_some hsince)
    refine .inl ⟨running_of_some hsince, ?_, ?_⟩ <;> simp [pause, hsince, hzero, running]
  | none => exact .inr ⟨running_of_none hsince, by simp [pause, hsince, running],
      by simp [pause, hsince]⟩

/-- What a resume does: the last one starts the stopwatch. -/
theorem Counts.resume_cases (h : s.Counts) :
    s.running = false ∧ s.resume.running = true ∧ s.resume.notifying = true ∨
      s.resume.running = s.running ∧ s.resume.notifying = s.notifying := by
  rw [resume]
  by_cases hzero : s.activePauses = 0
  · rw [if_pos hzero]
    exact .inr ⟨rfl, rfl⟩
  · rw [if_neg hzero]
    have hrunning : s.running = false := by
      rw [← Bool.not_eq_true, h.running_iff]
      exact hzero
    by_cases hlast : s.activePauses - 1 = 0
    · exact .inl ⟨hrunning, by simp [running] at hrunning; simp [running, hlast, hrunning],
        by simp [running] at hrunning; simp [running, hlast, hrunning]⟩
    · exact .inr ⟨by simp [hlast, running], by simp [hlast]⟩

/-- What a change of the pauses keeps. -/
structure Frame (s s' : Stopwatch) : Prop where
  limit : s'.limit = s.limit
  notifyCalls : s'.notifyCalls = s.notifyCalls
  now : s'.now = s.now
  unpaused : s'.unpaused = s.unpaused

theorem frame_pause (s : Stopwatch) : Frame s s.pause := by
  rw [pause]
  split
  · split <;> exact ⟨rfl, rfl, rfl, rfl⟩
  · exact ⟨rfl, rfl, rfl, rfl⟩

theorem frame_resume (s : Stopwatch) : Frame s s.resume := by
  rw [resume]
  split
  · exact ⟨rfl, rfl, rfl, rfl⟩
  · dsimp only
    split <;> exact ⟨rfl, rfl, rfl, rfl⟩

theorem counts_new (limit now : Nat) : (new limit now).Counts := by
  refine ⟨fun since h => ?_, ?_, ?_⟩
  · obtain rfl := Option.some.inj h
    exact le_rfl
  · simp [new, total]
  · simp [new, running]

theorem Counts.pause (h : s.Counts) : s.pause.Counts := by
  obtain ⟨hsince, htotal, hrunning⟩ := h
  rw [Stopwatch.pause]
  cases hs : s.runningSince with
  | some since =>
    have hzero := hrunning.1 (running_of_some hs)
    simp only [hzero, zero_add, if_true]
    refine ⟨fun _ hnone => (by cases hnone), ?_, by simp [running]⟩
    rw [total_of_none rfl, ← htotal, total_of_some hs]
  | none =>
    refine ⟨fun since hsome => (by cases hsome), ?_, by simp [running]⟩
    rw [total_of_none rfl, ← htotal, total_of_none hs]

theorem Counts.resume (h : s.Counts) : s.resume.Counts := by
  obtain ⟨hsince, htotal, hrunning⟩ := h
  rw [Stopwatch.resume]
  split
  · exact ⟨hsince, htotal, hrunning⟩
  · next hpaused =>
    have hnone : s.runningSince = none := by
      rw [← Option.not_isSome_iff_eq_none, ← running]
      exact mt hrunning.1 hpaused
    dsimp only
    split
    · next hlast =>
      refine ⟨fun since hsome => ?_, ?_, by simp [running, hlast.1]⟩
      · obtain rfl := Option.some.inj hsome
        exact le_rfl
      · rw [total_of_some rfl, ← htotal, total_of_none hnone, Nat.sub_self, Nat.add_zero]
    · next hmore =>
      refine ⟨hsince, htotal, ?_⟩
      simp only [running, hnone, Option.isSome_none, and_true] at hmore ⊢
      simpa using hmore

theorem Counts.notifyWaiters (h : s.Counts) : s.notifyWaiters.Counts :=
  ⟨h.since_le, h.total_eq, h.running_iff⟩

theorem Counts.advance (h : s.Counts) (time : Nat) : (s.advance time).Counts := by
  obtain ⟨hsince, htotal, hrunning⟩ := h
  refine ⟨fun since hs => (hsince since hs).trans (Nat.le_add_right _ _), ?_, hrunning⟩
  have htime : (s.advance time).total = s.total + if s.activePauses = 0 then time else 0 := by
    cases hs : s.runningSince with
    | some since =>
      have hle := hsince since hs
      have hs' : (s.advance time).runningSince = some since := hs
      rw [if_pos (hrunning.1 (running_of_some hs)), total_of_some hs, total_of_some hs',
        Stopwatch.advance]
      dsimp only
      omega
    | none =>
      have hpaused : s.activePauses ≠ 0 := fun hzero => by
        have := hrunning.2 hzero
        rw [running_of_none hs] at this
        cases this
      have hs' : (s.advance time).runningSince = none := hs
      rw [if_neg hpaused, total_of_none hs, total_of_none hs']
      rfl
  rw [htime, htotal]
  rfl

end Stopwatch

/-! ## The watchers -/

/-- The sleep until `deadline` is as long as the stopwatch still has to run. -/
structure Budget (s : Stopwatch) (deadline : Nat) : Prop where
  running : s.notifying = false → s.running = true
  enough : s.running = true → s.limit + s.now ≤ s.unpaused + deadline

/-- What a watcher relies on, as long as nothing was notified. -/
def Relies (s : Stopwatch) : Call → Prop
  | .read remaining running version => version ≤ s.notifyCalls ∧
    (version = s.notifyCalls → s.notifying = false → s.running = running) ∧
    (running = true → s.limit ≤ s.unpaused + remaining)
  | .sleepStarted deadline version | .sleeping deadline version =>
    version ≤ s.notifyCalls ∧ (version = s.notifyCalls → Budget s deadline)
  | .parked seen => seen ≤ s.notifyCalls ∧
    (seen = s.notifyCalls → s.notifying = false → s.running = false)
  | .cancelling => s.limit ≤ s.unpaused
  | _ => True

section Relies

variable {s s' : Stopwatch} {k : Call}

theorem Relies.of_eq (h : Relies s k) (hframe : s.Frame s') (hrunning : s'.running = s.running)
    (hnotifying : s'.notifying = s.notifying) : Relies s' k := by
  obtain ⟨hlimit, hcalls, hnow, hunpaused⟩ := hframe
  have hbudget {deadline : Nat} (hold : Budget s deadline) : Budget s' deadline := by
    refine ⟨fun h => ?_, fun h => ?_⟩
    · rw [hrunning]
      exact hold.running (hnotifying ▸ h)
    · rw [hlimit, hnow, hunpaused]
      exact hold.enough (hrunning ▸ h)
  cases k with
  | read remaining running version =>
    rw [Relies, hcalls, hrunning, hnotifying, hlimit, hunpaused]
    exact h
  | sleepStarted deadline version | sleeping deadline version =>
    rw [Relies, hcalls]
    exact ⟨h.1, fun heq => hbudget (h.2 heq)⟩
  | parked seen =>
    rw [Relies, hcalls, hrunning, hnotifying]
    exact h
  | cancelling =>
    rw [Relies, hlimit, hunpaused]
    exact h
  | _ => trivial

/-- A pause or a resume that is going to notify. -/
theorem Relies.flip (h : Relies s k) (hframe : s.Frame s') (hidle : s.notifying = false)
    (hflip : s'.running = !s.running) (hnotifying : s'.notifying = true) : Relies s' k := by
  obtain ⟨hlimit, hcalls, hnow, hunpaused⟩ := hframe
  have hbusy {p : Prop} (h : s'.notifying = false) : p := by
    rw [hnotifying] at h
    cases h
  have hbudget {deadline : Nat} (hold : Budget s deadline) : Budget s' deadline := by
    refine ⟨hbusy, fun h => ?_⟩
    rw [hflip, hold.running hidle] at h
    cases h
  cases k with
  | read remaining running version =>
    rw [Relies, hcalls, hlimit, hunpaused]
    exact ⟨h.1, fun _ => hbusy, h.2.2⟩
  | sleepStarted deadline version | sleeping deadline version =>
    rw [Relies, hcalls]
    exact ⟨h.1, fun heq => hbudget (h.2 heq)⟩
  | parked seen =>
    rw [Relies, hcalls]
    exact ⟨h.1, fun _ => hbusy⟩
  | cancelling =>
    rw [Relies, hlimit, hunpaused]
    exact h
  | _ => trivial

theorem Relies.pause (h : Relies s k) (hs : s.Counts) (hidle : s.notifying = false) :
    Relies s.pause k := by
  rcases hs.pause_cases with ⟨hrunning, hstopped, hnotifying⟩ | ⟨hrunning, hstopped, hnotifying⟩
  · exact h.flip (Stopwatch.frame_pause s) hidle (by rw [hrunning, hstopped]; rfl) hnotifying
  · exact h.of_eq (Stopwatch.frame_pause s) (hstopped.trans hrunning.symm) hnotifying

theorem Relies.resume (h : Relies s k) (hs : s.Counts) (hidle : s.notifying = false) :
    Relies s.resume k := by
  rcases hs.resume_cases with ⟨hstopped, hrunning, hnotifying⟩ | ⟨hrunning, hnotifying⟩
  · exact h.flip (Stopwatch.frame_resume s) hidle (by rw [hrunning, hstopped]; rfl) hnotifying
  · exact h.of_eq (Stopwatch.frame_resume s) hrunning hnotifying

theorem Relies.notifyWaiters (h : Relies s k) : Relies s.notifyWaiters k := by
  have hlate {p : Prop} {version : Nat} (hle : version ≤ s.notifyCalls)
      (heq : version = s.notifyCalls + 1) : p := by omega
  cases k with
  | read remaining running version =>
    exact ⟨h.1.trans (Nat.le_succ _), hlate h.1, h.2.2⟩
  | sleepStarted deadline version | sleeping deadline version | parked version =>
    exact ⟨h.1.trans (Nat.le_succ _), hlate h.1⟩
  | cancelling => exact h
  | _ => trivial

theorem Relies.advance (h : Relies s k) (hs : s.Counts) (time : Nat) :
    Relies (s.advance time) k := by
  have hle : s.unpaused ≤ (s.advance time).unpaused := Nat.le_add_right ..
  have hbudget {deadline : Nat} (hold : Budget s deadline) : Budget (s.advance time) deadline := by
    refine ⟨hold.running, fun hrunning => ?_⟩
    have henough := hold.enough hrunning
    simp only [Stopwatch.advance, if_pos (hs.running_iff.1 hrunning)]
    omega
  cases k with
  | read remaining running version =>
    exact ⟨h.1, h.2.1, fun hrunning => (h.2.2 hrunning).trans (Nat.add_le_add_right hle _)⟩
  | sleepStarted deadline version | sleeping deadline version =>
    exact ⟨h.1, fun heq => hbudget (h.2 heq)⟩
  | parked seen => exact h
  | cancelling => exact le_trans h hle
  | _ => trivial

end Relies

/-! ## Runs -/

section Runs

variable {c c' : State} {l : Option Event} {ls : List (Option Event)} {limit now : Nat}

theorem CallStep.counts {s s' : Stopwatch} {k : Call} {e : Event} {ks' : Multiset Call}
    (h : CallStep s k e s' ks') (hs : s.Counts) : s'.Counts := by
  cases h with
  | pause => exact hs.pause
  | resume => exact hs.resume
  | pauseNotify | resumeNotify => exact hs.notifyWaiters
  | advance time => exact hs.advance time
  | _ => exact hs

/-- A step of another task. -/
theorem CallStep.frame {s s' : Stopwatch} {k k' : Call} {e : Event} {ks' : Multiset Call}
    (h : CallStep s k e s' ks') (hs : s.Counts) (hk : Relies s k') : Relies s' k' := by
  cases h with
  | pause hidle => exact hk.pause hs hidle
  | resume hidle => exact hk.resume hs hidle
  | pauseNotify | resumeNotify => exact hk.notifyWaiters
  | advance time => exact hk.advance hs time
  | _ => exact hk

theorem CallStep.relies {s s' : Stopwatch} {k : Call} {e : Event} {ks' : Multiset Call}
    (h : CallStep s k e s' ks') (htimely : Timely s k e) (hs : s.Counts) (hk : Relies s k) :
    ∀ k' ∈ ks', Relies s' k' := by
  cases h with
  | readOver hidle hover =>
    intro k' hmem
    rw [Multiset.mem_singleton.1 hmem, Relies, ← hs.total_eq]
    exact hover
  | read hidle hleft =>
    intro k' hmem
    rw [Multiset.mem_singleton.1 hmem]
    refine ⟨le_rfl, fun _ _ => rfl, fun _ => ?_⟩
    rw [← hs.total_eq]
    omega
  | park =>
    intro k' hmem
    rw [Multiset.mem_singleton.1 hmem]
    exact ⟨le_rfl, fun _ => hk.2.1 htimely⟩
  | startSleep =>
    intro k' hmem
    rw [Multiset.mem_singleton.1 hmem]
    refine ⟨hk.1, fun heq => ⟨hk.2.1 heq, fun _ => ?_⟩⟩
    have henough := hk.2.2 rfl
    omega
  | sleep =>
    intro k' hmem
    rw [Multiset.mem_singleton.1 hmem]
    exact ⟨le_rfl, fun _ => hk.2 htimely⟩
  | sleepOver hover =>
    intro k' hmem
    rw [Multiset.mem_singleton.1 hmem, Relies]
    have henough := (hk.2 htimely.1).enough htimely.2
    omega
  | unpark | wake =>
    intro k' hmem
    rw [Multiset.mem_singleton.1 hmem]
    trivial
  | pause =>
    intro k' hmem
    rw [Multiset.mem_singleton.1 hmem]
    split <;> trivial
  | resume =>
    intro k' hmem
    split at hmem
    · rw [Multiset.mem_singleton.1 hmem]
      trivial
    · cases Multiset.notMem_zero _ hmem
  | pauseNotify | advance =>
    intro k' hmem
    rw [Multiset.mem_singleton.1 hmem]
    trivial
  | cancel | resumeNotify =>
    intro k' hmem
    cases Multiset.notMem_zero _ hmem

theorem relies_of_run (h : Run timelyStep (init limit now) ls c) :
    ∀ k ∈ c.calls, Relies c.shared k := by
  refine (h.invariant
    (I := fun c : State => c.shared.Counts ∧ ∀ k ∈ c.calls, Relies c.shared k) (fun hc hstep => ?_)
    ⟨Stopwatch.counts_new limit now, fun k hk => by cases Multiset.notMem_zero _ hk⟩).2
  refine hstep.invariant (I := Stopwatch.Counts) (J := Relies) (fun hstart _ => ?_)
    (fun hop hs hk => ⟨hop.1.counts hs, hop.1.relies hop.2 hs hk⟩)
    (fun hop hs hk => hop.1.frame hs hk) hc
  cases hstart <;> trivial

theorem exact_of_timely (h : Run timelyStep (init limit now) ls c) :
    (∀ c', step c (some .cancel) c' → c.shared.limit ≤ c.shared.unpaused) ∧ ¬Stuck c := by
  have hrelies := relies_of_run h
  refine ⟨fun c' hstep => ?_, fun ⟨hrunning, hidle, hparked⟩ => ?_⟩
  · obtain ⟨k, ks', ks, hcalls, hop, -⟩ := hstep.exists_op
    generalize c'.shared = s' at hop
    cases hop
    exact hrelies _ (hcalls ▸ Multiset.mem_cons_self _ _)
  · rw [(hrelies _ hparked).2 rfl hidle] at hrunning
    cases hrunning

/-- A watcher that sleeps through, without any pause. -/
theorem exact_of_timely_sleep : ∃ ls c, Run timelyStep (init 5 0) ls c ∧
    (∃ c', step c (some .cancel) c') ∧ c.shared.limit ≤ c.shared.unpaused ∧ ¬Stuck c := by
  have hrun : Run timelyStep (init 5 0) [none, some .other, some .other, some .register, none,
      some .other, some .sleepOver]
      ⟨{ Stopwatch.new 5 0 with now := 5, unpaused := 5 }, {.cancelling, .clock}⟩ :=
    .cons (.start .watcher) <|
    .cons (.beside 0 ⟨.read rfl (by decide), trivial⟩ rfl) <|
    .cons (.beside 0 ⟨.startSleep, trivial⟩ rfl) <|
    .cons (.beside 0 ⟨.sleep, rfl⟩ rfl) <|
    .cons (.start .clock) <|
    .cons (.beside {.sleeping 5 0} ⟨.advance 5, trivial⟩ rfl) <|
    .cons (.beside {.clock} ⟨.sleepOver le_rfl, rfl, rfl⟩ (Multiset.pair_comm _ _)) <|
    .nil _
  have hcancel : step _ (some .cancel) _ := .beside {.clock}
    (CallStep.cancel (s := { Stopwatch.new 5 0 with now := 5, unpaused := 5 })) rfl
  exact ⟨_, _, hrun, ⟨_, hcancel⟩, (exact_of_timely hrun).1 _ hcancel, (exact_of_timely hrun).2⟩

/-- A resume between the read and the future leaves the watcher parked beside a running stopwatch; a
pause between them is not heard, and the token is cancelled when nothing is left of the limit but
the pause. -/
theorem notification_missed :
    (∃ ls c, Run step (init 5 0) ls c ∧ Stuck c) ∧
    ∃ ls c c', Run step (init 5 0) ls c ∧ step c (some .cancel) c' ∧ c.shared.unpaused = 0 := by
  constructor
  · have hrun : Run step (init 5 0) [none, some .other, some .other, none, some .other, some .other,
        some .other, some .register]
        ⟨(Stopwatch.new 5 0).pause.notifyWaiters.resume.notifyWaiters, {.parked 2}⟩ :=
      .cons (.start .pauseFor) <|
      .cons (.beside 0 (.pause rfl) rfl) <|
      .cons (.beside 0 .pauseNotify rfl) <|
      .cons (.start .watcher) <|
      .cons (.beside {.pending} (.read rfl (by decide)) rfl) <|
      .cons (.beside {.read 5 false 1} (.resume rfl) (Multiset.pair_comm _ _)) <|
      .cons (.beside {.read 5 false 1} .resumeNotify rfl) <|
      .cons (.beside 0 .park rfl) <|
      .nil _
    exact ⟨_, _, hrun, rfl, rfl, Multiset.mem_singleton_self _⟩
  · have hover : CallStep ((Stopwatch.new 5 0).pause.notifyWaiters.advance 5) (.sleeping 5 1)
        .sleepOver ((Stopwatch.new 5 0).pause.notifyWaiters.advance 5) {.cancelling} :=
      .sleepOver le_rfl
    have hrun : Run step (init 5 0) [none, some .other, none, some .other, some .other, some .other,
        some .register, none, some .other, some .sleepOver]
        ⟨(Stopwatch.new 5 0).pause.notifyWaiters.advance 5, {.cancelling, .clock, .pending}⟩ :=
      .cons (.start .watcher) <|
      .cons (.beside 0 (.read rfl (by decide)) rfl) <|
      .cons (.start .pauseFor) <|
      .cons (.beside {.read 5 true 0} (.pause rfl) rfl) <|
      .cons (.beside {.read 5 true 0} .pauseNotify rfl) <|
      .cons (.beside {.pending} .startSleep (Multiset.pair_comm _ _)) <|
      .cons (.beside {.pending} .sleep rfl) <|
      .cons (.start .clock) <|
      .cons (.beside {.sleeping 5 1, .pending} (.advance 5) rfl) <|
      .cons (.beside {.clock, .pending} hover
        (Multiset.cons_swap Call.clock (Call.sleeping 5 1) {Call.pending})) <|
      .nil _
    exact ⟨_, _, _, hrun, .beside _ .cancel rfl, rfl⟩

end Runs

end SheriMl.ExecServer
