import Mathlib.Tactic.Abel
import SheriMl.Turn.Lifecycle

/-!
# Runs of turns

A turn may end in one place at a time: its right to end goes from `spawn_task` to the active turn,
and from there to the task that finishes or to the call that aborts it (`endsWeight`). A finishing
task that does not find itself registered takes the right from nowhere, so that its turn ends
twice or stays registered (`ended_twice`). Where finishing tasks find themselves registered, no
turn is registered over input that waits, no task takes the input of another turn, and none is
dropped with input to record, every run keeps the promises to its turns (`kept_of_run`).
-/

namespace SheriMl.Turn

open Pool Transition

variable {I : Type}

/-- What the steps go well with: a finishing task is registered, no turn is registered over input
that waits, input is taken from the turn of the task, and no task is dropped with input to
record. -/
def Call.Orderly (s : Session I) : Call I → Operation → Prop
  | finishing turnId, .removedTask => ∃ at', s.activeTurn = some at' ∧ turnId ∈ at'.tasks
  | registering _, .registeredTask => ∀ at', s.activeTurn = some at' → at'.pendingInput = []
  | running turnId, .tookInput =>
    ∀ at', s.activeTurn = some at' → turnId ∈ at'.tasks ∨ at'.pendingInput = []
  | recording _ pendingInput, .droppedTask => pendingInput = []
  | _, _ => True

structure OrderlyStep (s : Session I) (call : Call I) (operation : Operation) (s' : Session I)
    (calls : Multiset (Call I)) : Prop where
  step : CallStep s call operation s' calls
  orderly : call.Orderly s operation

/-! ## The session -/

namespace Session

variable (s : Session I) (turnId t : Str) (items : List I)

def tasks : List Str := (s.activeTurn.map ActiveTurn.tasks).getD []

def ended : List Str := s.events.map TerminalEvent.turnId

/-- The turns that have been reported aborted. -/
def reportedAborted : List Str :=
  (s.events.filter TerminalEvent.isAborted).map TerminalEvent.turnId

/-- The input that waits for a turn. -/
def pendingOf : Multiset I :=
  match s.activeTurn with
  | some at' => if t ∈ at'.tasks then at'.pendingInput else 0
  | none => 0

def Single : Prop := ∀ at', s.activeTurn = some at' → ∃ u, at'.tasks = [u]

/-- The input that the turn has accepted is kept, if `held` is what its task holds. -/
def Accounts (held : Multiset I) : Prop :=
  s.accepted t = s.pendingOf t + s.handed t + s.recorded t + held

variable {s turnId t items}

theorem takeAllRunningTasks_eq :
    s.takeAllRunningTasks = ({ s with activeTurn := none }, s.tasks) := by
  unfold takeAllRunningTasks tasks
  cases hactive : s.activeTurn with
  | some at' => rfl
  | none =>
    obtain ⟨activeTurn⟩ := s
    obtain rfl : activeTurn = none := hactive
    rfl

theorem tasks_of_active {at' : ActiveTurn I} (h : s.activeTurn = some at') :
    s.tasks = at'.tasks := by
  rw [tasks, h]
  rfl

theorem pendingOf_of_notMem (h : t ∉ s.tasks) : s.pendingOf t = 0 := by
  unfold pendingOf
  cases hactive : s.activeTurn with
  | some at' =>
    rw [tasks_of_active hactive] at h
    exact if_neg h
  | none => rfl

/-- The input of a turn goes through the sections in one of these ways. -/
theorem removeFinished_of_registered (hsingle : s.Single)
    (h : ∃ at', s.activeTurn = some at' ∧ turnId ∈ at'.tasks) :
    s.tasks = [turnId] ∧ s.removeFinished turnId =
      ({ s with activeTurn := none, handlesAborted := s.handlesAborted ++ [turnId] },
        (s.removeFinished turnId).2) ∧
      s.pendingOf turnId = (s.removeFinished turnId).2 := by
  obtain ⟨at', hactive, hmem⟩ := h
  obtain ⟨u, htasks⟩ := hsingle at' hactive
  rw [htasks, List.mem_singleton] at hmem
  subst hmem
  refine ⟨(tasks_of_active hactive).trans htasks, ?_, ?_⟩
  · simp [removeFinished, hactive, ActiveTurn.removeTask, htasks]
  · simp [removeFinished, hactive, ActiveTurn.removeTask, htasks, pendingOf]

theorem steerInput_eq (hsingle : s.Single) (input : Option I) (expectedTurnId : Option Str) :
    (s.steerInput input expectedTurnId).1 = s ∨ ∃ at' u item, s.activeTurn = some at' ∧
      at'.tasks = [u] ∧ (s.steerInput input expectedTurnId).1 = s.push at' u [item] := by
  unfold steerInput
  cases input with
  | none => exact .inl rfl
  | some item =>
    cases hactive : s.activeTurn with
    | none => exact .inl rfl
    | some at' =>
      obtain ⟨u, htasks⟩ := hsingle at' hactive
      have hpush : ∃ at'' u' item', some at' = some at'' ∧ at''.tasks = [u'] ∧
          s.push at' u [item] = s.push at'' u' [item'] := ⟨at', u, item, rfl, htasks, rfl⟩
      simp only [htasks, List.head?_cons]
      cases expectedTurnId with
      | none => exact .inr hpush
      | some expected =>
        dsimp only
        split
        · exact .inl rfl
        · exact .inr hpush

theorem injectResponseItems_eq (hsingle : s.Single) (input : List I) :
    (s.injectResponseItems input).1 = s ∨ ∃ at' u, s.activeTurn = some at' ∧ at'.tasks = [u] ∧
      (s.injectResponseItems input).1 = s.push at' u input := by
  unfold injectResponseItems
  cases hactive : s.activeTurn with
  | none => exact .inl rfl
  | some at' =>
    obtain ⟨u, htasks⟩ := hsingle at' hactive
    refine .inr ⟨at', u, rfl, htasks, ?_⟩
    simp only [htasks, List.head?_cons, Option.getD_some]

theorem Accounts.push {at' : ActiveTurn I} {u : Str} {held : Multiset I}
    (hactive : s.activeTurn = some at') (htasks : at'.tasks = [u]) (h : s.Accounts t held) :
    (s.push at' u items).Accounts t held := by
  unfold Accounts at h ⊢
  have hpending : s.pendingOf t =
      if t ∈ at'.tasks then (at'.pendingInput : Multiset I) else 0 := by
    simp only [pendingOf, hactive]
  have hpushed : (s.push at' u items).pendingOf t =
      if t ∈ at'.tasks then ((at'.pendingInput ++ items : List I) : Multiset I) else 0 := rfl
  have haccepted : (s.push at' u items).accepted t =
      if t = u then s.accepted t + items else s.accepted t := rfl
  rw [hpushed, haccepted, h, hpending]
  simp only [htasks, List.mem_singleton]
  split
  · rw [← Multiset.coe_add]
    change _ = _ + s.handed t + s.recorded t + held
    abel
  · rfl

variable (s turnId) in
theorem getPendingInput_eq : s.getPendingInput turnId = s ∨
    ∃ at', s.activeTurn = some at' ∧ s.getPendingInput turnId =
      { s with
        activeTurn := some { at' with pendingInput := [] }
        handed := s.handed.add turnId at'.pendingInput } := by
  unfold getPendingInput
  cases hactive : s.activeTurn with
  | none => exact .inl rfl
  | some at' => exact .inr ⟨at', rfl, rfl⟩

theorem pendingOf_of_empty (h : ∀ at', s.activeTurn = some at' → at'.pendingInput = []) :
    s.pendingOf t = 0 := by
  unfold pendingOf
  cases hactive : s.activeTurn with
  | some at' =>
    simp only [h at' hactive, Multiset.coe_nil]
    exact ite_self _
  | none => rfl

theorem Accounts.getPendingInput {held : Multiset I} (hsingle : s.Single)
    (horderly : ∀ at', s.activeTurn = some at' → turnId ∈ at'.tasks ∨ at'.pendingInput = [])
    (h : s.Accounts t held) : (s.getPendingInput turnId).Accounts t held := by
  unfold Session.getPendingInput
  cases hactive : s.activeTurn with
  | none => exact h
  | some at' =>
    obtain ⟨u, htasks⟩ := hsingle at' hactive
    unfold Accounts at h ⊢
    have hpending : s.pendingOf t = if t = u then (at'.pendingInput : Multiset I) else 0 := by
      simp only [pendingOf, hactive, htasks, List.mem_singleton]
    simp only [pendingOf, htasks, List.mem_singleton, Ledger.add]
    rw [h, hpending]
    rcases horderly at' hactive with hmem | hempty
    · rw [htasks, List.mem_singleton] at hmem
      subst hmem
      split
      · simp only [Multiset.coe_nil]
        abel
      · rfl
    · simp only [hempty, Multiset.coe_nil, add_zero, ite_self]

end Session

/-! ## The right to end a turn -/

/-- The places among the calls from which a turn may end. -/
def endsWeight (t : Str) : Call I → Nat
  | .aborting _ tasks next => tasks.count t + next.toList.count t
  | .waiting _ turnId tasks next | .reporting _ turnId tasks next =>
    (turnId :: tasks).count t + next.toList.count t
  | .registering turnId | .recording turnId _ | .completing turnId => [turnId].count t
  | _ => 0

/-- The places among the calls from which a turn may still be cancelled. -/
def openWeight (t : Str) : Call I → Nat
  | .aborting _ tasks next | .waiting _ _ tasks next | .reporting _ _ tasks next =>
    tasks.count t + next.toList.count t
  | .registering turnId => [turnId].count t
  | _ => 0

def abortWeight (t : Str) : Call I → Nat
  | .aborting _ tasks _ => tasks.count t
  | .waiting _ turnId tasks _ | .reporting _ turnId tasks _ => (turnId :: tasks).count t
  | _ => 0

/-- The input that the finishing task of a turn holds. -/
def heldBy (t : Str) : Call I → Multiset I
  | .recording turnId pendingInput => if turnId = t then pendingInput else 0
  | _ => 0

/-- What an orderly step keeps for the turn `t`. -/
structure Moves (t : Str) (s : Session I) (call : Call I) (s' : Session I)
    (calls : Multiset (Call I)) : Prop where
  single : s'.Single
  nodup : s.spawned.Nodup → s'.spawned.Nodup
  ends : s'.tasks.count t + s'.ended.count t + weigh (endsWeight t) calls + s.spawned.count t ≤
    s.tasks.count t + s.ended.count t + endsWeight t call + s'.spawned.count t
  opens : s'.tasks.count t + s'.cancelled.count t + weigh (openWeight t) calls +
      s.spawned.count t ≤
    s.tasks.count t + s.cancelled.count t + openWeight t call + s'.spawned.count t
  aborts : s.reportedAborted.count t + abortWeight t call ≤
    s'.reportedAborted.count t + weigh (abortWeight t) calls
  accounts : ∀ held, s'.reportedAborted.count t + weigh (abortWeight t) calls = 0 →
    s.Accounts t (heldBy t call + held) → s'.Accounts t (weigh (heldBy t) calls + held)

theorem Session.Accounts.of_eq {s s' : Session I} {t : Str} {held : Multiset I}
    (h : s.Accounts t held) (hpending : s'.pendingOf t = s.pendingOf t)
    (haccepted : s'.accepted = s.accepted) (hhanded : s'.handed = s.handed)
    (hrecorded : s'.recorded = s.recorded) : s'.Accounts t held := by
  unfold Session.Accounts at h ⊢
  rw [haccepted, hhanded, hrecorded, hpending]
  exact h

theorem Session.Accounts.takeHeld {s : Session I} {turnId t : Str} {pendingInput handles}
    {held : Multiset I} (htasks : s.tasks = [turnId])
    (hpending : s.pendingOf turnId = (pendingInput : List I)) (h : s.Accounts t (0 + held)) :
    Session.Accounts { s with activeTurn := none, handlesAborted := handles } t
      (heldBy t (.recording turnId pendingInput) + held) := by
  unfold Session.Accounts at h ⊢
  change s.accepted t = 0 + s.handed t + s.recorded t +
    ((if turnId = t then (pendingInput : Multiset I) else 0) + held)
  have hwaiting : s.pendingOf t = if turnId = t then (pendingInput : Multiset I) else 0 := by
    split
    case isTrue heq => rw [← heq, hpending]
    case isFalse hne =>
      refine Session.pendingOf_of_notMem ?_
      rw [htasks, List.mem_singleton]
      exact fun heq => hne heq.symm
  rw [h, hwaiting]
  abel

theorem Session.Accounts.record {s : Session I} {turnId t : Str} {pendingInput : List I}
    {held : Multiset I} (h : s.Accounts t (heldBy t (.recording turnId pendingInput) + held)) :
    (s.record turnId pendingInput).Accounts t
      (heldBy t (.completing turnId : Call I) + held) := by
  unfold Session.Accounts at h ⊢
  change s.accepted t = s.pendingOf t + s.handed t + s.recorded t +
    ((if turnId = t then (pendingInput : Multiset I) else 0) + held) at h
  change s.accepted t = s.pendingOf t + s.handed t +
    (if t = turnId then s.recorded t + pendingInput else s.recorded t) + (0 + held)
  rw [h]
  by_cases heq : turnId = t
  · rw [if_pos heq, if_pos heq.symm]
    abel
  · rw [if_neg heq, if_neg fun h => heq h.symm]

/-- A step that leaves the session alone. -/
theorem Moves.of_calls {t : Str} {s : Session I} {call : Call I} {calls : Multiset (Call I)}
    (hsingle : s.Single) (hends : weigh (endsWeight t) calls ≤ endsWeight t call)
    (hopens : weigh (openWeight t) calls ≤ openWeight t call)
    (haborts : abortWeight t call ≤ weigh (abortWeight t) calls)
    (hheld : weigh (heldBy t) calls = heldBy t call) : Moves t s call s calls where
  single := hsingle
  nodup := id
  ends := by omega
  opens := by omega
  aborts := by omega
  accounts held _ h := by
    rw [hheld]
    exact h

theorem Moves.of_push {t u : Str} {s : Session I} {at' : ActiveTurn I} {items : List I}
    {call : Call I} (hactive : s.activeTurn = some at') (htasks : at'.tasks = [u])
    (habort : abortWeight t call = 0) (hheld : heldBy t call = 0) :
    Moves t s call (s.push at' u items) 0 where
  single at'' h := by
    obtain rfl : { at' with pendingInput := at'.pendingInput ++ items } = at'' :=
      Option.some.inj h
    exact ⟨u, htasks⟩
  nodup := id
  ends := by
    have hsame : (s.push at' u items).tasks = s.tasks := (Session.tasks_of_active hactive).symm
    rw [hsame]
    change _ + s.ended.count t + _ + s.spawned.count t ≤
      _ + _ + _ + s.spawned.count t
    rw [weigh_zero]
    omega
  opens := by
    have hsame : (s.push at' u items).tasks = s.tasks := (Session.tasks_of_active hactive).symm
    rw [hsame]
    change _ + s.cancelled.count t + _ + s.spawned.count t ≤
      _ + _ + _ + s.spawned.count t
    rw [weigh_zero]
    omega
  aborts := by
    rw [habort, weigh_zero]
    exact Nat.le_refl _
  accounts held _ h := by
    rw [hheld] at h
    exact h.push hactive htasks

/-- The running tasks are taken, with the turn that is spawned after them. -/
theorem Moves.of_take {t : Str} {s s' : Session I} {call : Call I} {reason : TurnAbortReason}
    {next : Option Str} (hcall : endsWeight t call = 0 ∧ openWeight t call = 0 ∧
      abortWeight t call = 0 ∧ heldBy t call = 0)
    (hs' : s' = { s with activeTurn := none, spawned := next.toList ++ s.spawned })
    (hnext : ∀ turnId, next = some turnId → turnId ∉ s.spawned) :
    Moves t s call s' {.aborting reason s.tasks next} where
  single at'' h := by
    subst hs'
    cases h
  nodup hnodup := by
    subst hs'
    cases next with
    | none => exact hnodup
    | some turnId => exact List.nodup_cons.2 ⟨hnext turnId rfl, hnodup⟩
  ends := by
    obtain ⟨hends, -, -, -⟩ := hcall
    subst hs'
    rw [hends]
    simp only [Session.tasks, Session.ended, weigh_singleton, endsWeight, List.count_append,
      Option.map_none, Option.getD_none, List.count_nil]
    omega
  opens := by
    obtain ⟨-, hopens, -, -⟩ := hcall
    subst hs'
    rw [hopens]
    simp only [Session.tasks, weigh_singleton, openWeight, List.count_append,
      Option.map_none, Option.getD_none, List.count_nil]
    omega
  aborts := by
    obtain ⟨-, -, haborts, -⟩ := hcall
    subst hs'
    rw [haborts]
    exact Nat.le_add_right _ _
  accounts held hclear h := by
    obtain ⟨-, -, -, hheld⟩ := hcall
    rw [hheld] at h
    rw [weigh_singleton] at hclear ⊢
    have hmem : t ∉ s.tasks := List.count_eq_zero.1 (Nat.eq_zero_of_add_eq_zero_left hclear)
    subst hs'
    exact h.of_eq (Session.pendingOf_of_notMem hmem).symm rfl rfl rfl

theorem OrderlyStep.moves {s s' : Session I} {call : Call I} {operation : Operation}
    {calls : Multiset (Call I)} (h : OrderlyStep s call operation s' calls)
    (hsingle : s.Single) (hopen : ∀ u, openWeight u call + s.cancelled.count u ≤ 1) (t : Str) :
    Moves t s call s' calls := by
  obtain ⟨hstep, horderly⟩ := h
  cases hstep with
  | takeForSpawn h =>
    rw [Session.takeAllRunningTasks_eq]
    refine .of_take ⟨rfl, rfl, rfl, rfl⟩ rfl fun u hu => ?_
    obtain rfl : _ = u := Option.some.inj hu
    exact h
  | take =>
    rw [Session.takeAllRunningTasks_eq]
    exact .of_take ⟨rfl, rfl, rfl, rfl⟩ rfl fun u hu => by cases hu
  | skip h =>
    -- what is taken from the active turn is not cancelled yet
    rename_i turnId tasks next
    have hmem : 0 < s.cancelled.count turnId := List.count_pos_iff.2 h
    have hcount := hopen turnId
    simp only [openWeight, List.count_cons_self] at hcount
    omega
  | cancel h =>
    refine ⟨hsingle, id, ?_, ?_, ?_, fun held _ hacc => ?_⟩
    · simp only [weigh_singleton, endsWeight]
      rfl
    · simp only [weigh_singleton, openWeight, Session.cancel, Session.tasks, List.count_cons]
      omega
    · simp only [weigh_singleton, abortWeight]
      rfl
    · exact hacc.of_eq rfl rfl rfl rfl
  | abortHandle => exact ⟨hsingle, id, Nat.le_refl _, Nat.le_refl _, Nat.le_refl _,
      fun held _ hacc => hacc.of_eq rfl rfl rfl rfl⟩
  | reportAbort =>
    rename_i reason turnId tasks next
    refine ⟨hsingle, id, ?_, Nat.le_refl _, ?_, fun held _ hacc => hacc.of_eq rfl rfl rfl rfl⟩
    · simp only [weigh_singleton, endsWeight, Session.ended, Session.sendEvent, List.map_append,
        List.count_append, List.map_cons, List.map_nil, List.count_cons, List.count_nil,
        TerminalEvent.turnId, Session.tasks]
      omega
    · simp only [weigh_singleton, abortWeight, Session.reportedAborted, Session.sendEvent,
        List.filter_append, List.map_append, List.count_append, List.count_cons,
        TerminalEvent.isAborted, List.filter_cons, if_true, List.filter_nil, List.map_cons,
        List.map_nil, List.count_nil, TerminalEvent.turnId]
      omega
  | endAborts => exact .of_calls hsingle (Nat.zero_le _) (Nat.zero_le _) (Nat.le_refl _) rfl
  | spawn =>
    rename_i reason turnId
    refine .of_calls hsingle ?_ ?_ (Nat.zero_le _) ?_
    · simp [endsWeight]
    · simp [openWeight]
    · simp [heldBy]
  | register =>
    rename_i turnId
    have hempty : s.pendingOf t = 0 := Session.pendingOf_of_empty horderly
    refine ⟨?_, id, ?_, ?_, Nat.le_refl _, fun held _ hacc => ?_⟩
    · rintro at' h
      obtain rfl : ActiveTurn.default.addTask turnId = at' := Option.some.inj h
      exact ⟨turnId, rfl⟩
    · have htasks : (s.registerNewActiveTask turnId).tasks = [turnId] := rfl
      rw [htasks]
      simp only [weigh_zero, endsWeight, Session.ended, Session.registerNewActiveTask]
      omega
    · have htasks : (s.registerNewActiveTask turnId).tasks = [turnId] := rfl
      rw [htasks]
      simp only [weigh_zero, openWeight, Session.registerNewActiveTask]
      omega
    · refine hacc.of_eq ?_ rfl rfl rfl
      rw [hempty]
      exact Session.pendingOf_of_empty fun at' h => Option.some.inj h ▸ rfl
  | takeInput =>
    rename_i turnId
    have hacc : ∀ held, s.Accounts t (0 + held) →
        (s.getPendingInput turnId).Accounts t (weigh (heldBy t) {.running turnId} + held) :=
      fun held h => h.getPendingInput hsingle horderly
    obtain hsame | ⟨at', hactive, htaken⟩ := Session.getPendingInput_eq s turnId
    · rw [hsame]
      exact .of_calls hsingle (Nat.le_refl _) (Nat.le_refl _) (Nat.le_refl _) rfl
    · rw [htaken] at hacc ⊢
      have htasks := Session.tasks_of_active hactive
      refine ⟨?_, id, ?_, ?_, Nat.le_refl _, fun held _ => hacc held⟩
      · rintro at'' h
        obtain rfl : { at' with pendingInput := [] } = at'' := Option.some.inj h
        exact hsingle at' hactive
      · rw [htasks]
        exact Nat.le_refl _
      · rw [htasks]
        exact Nat.le_refl _
  | returnFromRun | notCancelled h =>
    exact .of_calls hsingle (Nat.le_refl _) (Nat.le_refl _) (Nat.le_refl _) rfl
  | cancelled h => exact .of_calls hsingle (Nat.zero_le _) (Nat.zero_le _) (Nat.le_refl _) rfl
  | remove =>
    rename_i turnId
    obtain ⟨htasks, heq, hpending⟩ := Session.removeFinished_of_registered hsingle horderly
    rw [heq]
    refine ⟨?_, id, ?_, ?_, Nat.le_refl _, fun held _ hacc => ?_⟩
    · rintro at' h
      cases h
    · rw [htasks]
      simp only [weigh_singleton, endsWeight, Session.ended, Session.tasks, Option.map_none,
        Option.getD_none, List.count_nil]
      omega
    · rw [htasks]
      simp only [weigh_singleton, openWeight, Session.tasks, Option.map_none,
        Option.getD_none, List.count_nil]
      omega
    · rw [weigh_singleton]
      exact hacc.takeHeld htasks hpending
  | record =>
    rename_i turnId pendingInput
    refine ⟨hsingle, id, Nat.le_refl _, Nat.le_refl _, Nat.le_refl _, fun held _ hacc => ?_⟩
    rw [weigh_singleton]
    exact hacc.record
  | complete =>
    rename_i turnId
    refine ⟨hsingle, id, ?_, Nat.le_refl _, ?_, fun held _ hacc => hacc.of_eq rfl rfl rfl rfl⟩
    · simp only [weigh_zero, endsWeight, Session.ended, Session.sendEvent, List.map_append,
        List.count_append, List.map_cons, List.map_nil, TerminalEvent.turnId, Session.tasks]
      omega
    · simp [abortWeight, Session.reportedAborted, Session.sendEvent, TerminalEvent.isAborted]
  | drop htask h =>
    have hnothing : abortWeight t call = 0 ∧ heldBy t call = 0 := by
      cases call <;> cases htask <;> refine ⟨rfl, ?_⟩
      case recording =>
        obtain rfl : _ = [] := horderly
        exact ite_self _
      all_goals rfl
    obtain ⟨habort, hheld⟩ := hnothing
    exact .of_calls hsingle (Nat.zero_le _) (Nat.zero_le _) habort.le hheld.symm
  | steer =>
    obtain hsame | ⟨at', u, item, hactive, htasks, hpush⟩ := Session.steerInput_eq hsingle _ _
    · rw [hsame]
      exact .of_calls hsingle (Nat.zero_le _) (Nat.zero_le _) (Nat.le_refl _) rfl
    · rw [hpush]
      exact .of_push hactive htasks rfl rfl
  | inject =>
    obtain hsame | ⟨at', u, hactive, htasks, hpush⟩ := Session.injectResponseItems_eq hsingle _
    · rw [hsame]
      exact .of_calls hsingle (Nat.zero_le _) (Nat.zero_le _) (Nat.le_refl _) rfl
    · rw [hpush]
      exact .of_push hactive htasks rfl rfl

/-! ## The runs -/

/-- No turn has more rights to end, or to be cancelled, than it was spawned with, and its input is
accounted for until it is aborted. -/
structure Lawful (c : State I) : Prop where
  single : c.shared.Single
  nodup : c.shared.spawned.Nodup
  ends : ∀ t, c.shared.tasks.count t + c.shared.ended.count t + weigh (endsWeight t) c.calls ≤
    c.shared.spawned.count t
  opens : ∀ t, c.shared.tasks.count t + c.shared.cancelled.count t +
    weigh (openWeight t) c.calls ≤ c.shared.spawned.count t
  accounts : ∀ t, c.shared.reportedAborted.count t + weigh (abortWeight t) c.calls = 0 →
    c.shared.Accounts t (weigh (heldBy t) c.calls)

theorem Lawful.init : Lawful (init : State I) where
  single at' h := by cases h
  nodup := List.nodup_nil
  ends t := by simp [Turn.init, Session.new, Session.tasks, Session.ended]
  opens t := by simp [Turn.init, Session.new, Session.tasks]
  accounts t _ := by
    simp [Turn.init, Session.new, Session.Accounts, Session.pendingOf]

theorem Lawful.start {s : Session I} {call : Call I} {calls : Multiset (Call I)}
    (h : Lawful ⟨s, calls⟩) (hstart : call.Start) : Lawful ⟨s, call ::ₘ calls⟩ := by
  have hnothing : (∀ t, endsWeight t call = 0) ∧ (∀ t, openWeight t call = 0) ∧
      (∀ t, abortWeight t call = 0) ∧ ∀ t, heldBy t call = 0 := by
    cases hstart <;> exact ⟨fun _ => rfl, fun _ => rfl, fun _ => rfl, fun _ => rfl⟩
  obtain ⟨hends, hopens, haborts, hheld⟩ := hnothing
  refine ⟨h.single, h.nodup, fun t => ?_, fun t => ?_, fun t hclear => ?_⟩
  · rw [weigh_cons, hends, Nat.zero_add]
    exact h.ends t
  · rw [weigh_cons, hopens, Nat.zero_add]
    exact h.opens t
  · rw [weigh_cons, haborts, Nat.zero_add] at hclear
    rw [weigh_cons, hheld, zero_add]
    exact h.accounts t hclear

theorem Lawful.step {c c' : State I} {operation : Option Operation} (h : Lawful c)
    (hstep : Step Call.Start OrderlyStep c operation c') : Lawful c' := by
  cases hstep with
  | start hstart => exact h.start hstart
  | @call s s' call operation calls' calls horderly =>
    obtain ⟨hsingle, hnodup, hends, hopens, haccounts⟩ := h
    simp only [weigh_cons] at hends hopens haccounts
    have hopen : ∀ u, openWeight u call + s.cancelled.count u ≤ 1 := fun u => by
      have hu := hopens u
      have hone : s.spawned.count u ≤ 1 := List.nodup_iff_count_le_one.1 hnodup u
      omega
    have hmoves := horderly.moves hsingle hopen
    refine ⟨(hmoves []).single, (hmoves []).nodup hnodup, fun t => ?_, fun t => ?_,
      fun t hclear => ?_⟩
    · have hmove := (hmoves t).ends
      have ht := hends t
      simp only [weigh_add]
      omega
    · have hmove := (hmoves t).opens
      have ht := hopens t
      simp only [weigh_add]
      omega
    · have hmove := (hmoves t).aborts
      simp only [weigh_add] at hclear ⊢
      exact (hmoves t).accounts _ (by omega) (haccounts t (by omega))

/-- What is promised to a turn: it ends once, it is not active after that, and its input waits for
its task, is handed to it or is recorded until it is aborted, and is not waiting any more when it
has ended otherwise. -/
structure Kept (c : State I) (t : Str) : Prop where
  endsOnce : c.shared.ended.count t ≤ 1
  notActive : t ∈ c.shared.ended → ∀ at', c.shared.activeTurn = some at' → t ∉ at'.tasks
  accounts : t ∉ c.shared.reportedAborted → (∀ call ∈ c.calls, abortWeight t call = 0) →
    c.shared.accepted t = c.shared.pendingOf t + c.shared.handed t + c.shared.recorded t +
      weigh (heldBy t) c.calls
  delivered : t ∈ c.shared.ended → t ∉ c.shared.reportedAborted →
    c.shared.accepted t = c.shared.handed t + c.shared.recorded t

theorem abortWeight_le_endsWeight (t : Str) (call : Call I) :
    abortWeight t call ≤ endsWeight t call := by
  cases call <;> first | exact Nat.le_add_right _ _ | exact Nat.zero_le _

theorem heldBy_eq_zero {t : Str} {call : Call I} (h : endsWeight t call = 0) :
    heldBy t call = 0 := by
  cases call with
  | recording turnId pendingInput =>
    refine if_neg fun heq => ?_
    subst heq
    simp [endsWeight] at h
  | _ => rfl

theorem Lawful.kept {c : State I} (h : Lawful c) (t : Str) : Kept c t := by
  have hone : c.shared.spawned.count t ≤ 1 := List.nodup_iff_count_le_one.1 h.nodup t
  have hends := h.ends t
  -- the one right to end is spent
  have hspent : t ∈ c.shared.ended →
      c.shared.tasks.count t = 0 ∧ ∀ call ∈ c.calls, endsWeight t call = 0 := fun hended => by
    have hpos : 0 < c.shared.ended.count t := List.count_pos_iff.2 hended
    refine ⟨by omega, fun call hcall => ?_⟩
    have hle : endsWeight t call ≤ weigh (endsWeight t) c.calls := le_weigh hcall
    omega
  have haccounts : t ∉ c.shared.reportedAborted → (∀ call ∈ c.calls, abortWeight t call = 0) →
      c.shared.Accounts t (weigh (heldBy t) c.calls) := fun hreported hcalls =>
    h.accounts t (by rw [List.count_eq_zero.2 hreported, weigh_eq_zero _ hcalls, Nat.add_zero])
  refine ⟨by omega, fun hended at' hactive hmem => ?_, haccounts, fun hended hreported => ?_⟩
  · obtain ⟨htasks, -⟩ := hspent hended
    rw [Session.tasks_of_active hactive] at htasks
    exact List.count_eq_zero.1 htasks hmem
  · obtain ⟨htasks, hcalls⟩ := hspent hended
    have hacc := haccounts hreported fun call hcall =>
      Nat.le_zero.1 ((abortWeight_le_endsWeight t call).trans (hcalls call hcall).le)
    unfold Session.Accounts at hacc
    rw [hacc, Session.pendingOf_of_notMem (List.count_eq_zero.1 htasks),
      weigh_eq_zero _ fun call hcall => heldBy_eq_zero (hcalls call hcall)]
    rw [zero_add, add_zero]

/-- Every run of orderly steps keeps what is promised to every turn. -/
theorem kept_of_run {c : State I} {ls : List (Option Operation)}
    (h : Transition.Run (Step Call.Start OrderlyStep) init ls c) (t : Str) : Kept c t :=
  (h.invariant (fun hlawful hstep => hlawful.step hstep) Lawful.init).kept t

/-- A turn whose input is handed to its task or recorded when it finishes. -/
theorem kept_of_run_complete : ∃ ls, ∃ c : State Str,
    Run (Step Call.Start OrderlyStep) init ls c ∧ c.shared.ended = ["1".toList] ∧
    c.shared.accepted "1".toList = {"first".toList, "second".toList} ∧ Kept c "1".toList := by
  have hrun : Run (Step Call.Start OrderlyStep) (init : State Str) _ _ :=
    .cons (.start (.spawn "1".toList)) (.cons (.call ⟨.takeForSpawn (by decide), trivial⟩)
      (.cons (.next ⟨.spawn, trivial⟩)
      (.cons (.beside {Call.running "1".toList} ⟨.register, fun _ h => by cases h⟩
        (Multiset.cons_swap (Call.running "1".toList) (Call.registering "1".toList) 0))
      (.cons (.start (.steer "first".toList none)) (.cons (.call ⟨.steer, trivial⟩)
      (.cons (.beside 0 ⟨.takeInput, fun _ h =>
        .inl (by cases h; exact List.mem_singleton_self _)⟩ rfl)
      (.cons (.start (.steer "second".toList (some "1".toList))) (.cons (.call ⟨.steer, trivial⟩)
      (.cons (.beside 0 ⟨.returnFromRun, trivial⟩ rfl)
      (.cons (.next ⟨.notCancelled (by decide), trivial⟩)
      (.cons (.next ⟨.remove, ⟨_, rfl, List.mem_singleton_self _⟩⟩)
      (.cons (.next ⟨.record, trivial⟩) (.single (.next ⟨.complete, trivial⟩))))))))))))))
  exact ⟨_, _, hrun, rfl, rfl, kept_of_run hrun _⟩

/-- A task that finishes before its turn is registered: the turn stays active after it has
completed, and an interrupt ends it again. -/
theorem ended_twice : ∃ ls mid ms c, Run step (init : State Str) ls mid ∧
    (∃ at', mid.shared.activeTurn = some at' ∧ at'.tasks = ["1".toList]) ∧
    mid.shared.events = [.turnComplete "1".toList] ∧ Run step mid ms c ∧
    c.shared.events = [.turnComplete "1".toList, .turnAborted "1".toList .interrupted] :=
  ⟨_, _, _, _, .cons (.start (.spawn "1".toList)) (.cons (.call (.takeForSpawn (by decide)))
    (.cons (.next .spawn) (.cons (.beside {.registering "1".toList} .returnFromRun rfl)
    (.cons (.next (.notCancelled (by decide))) (.cons (.next .remove) (.cons (.next .record)
    (.cons (.next .complete) (.single (.beside 0 .register rfl))))))))),
    ⟨_, rfl, rfl⟩, rfl,
    .cons (.start (.abortAll .interrupted)) (.cons (.call .take)
    (.cons (.next (.cancel (by decide))) (.cons (.next .abortHandle)
    (.single (.next .reportAbort))))), rfl⟩

end SheriMl.Turn
