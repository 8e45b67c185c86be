import SheriMl.Lib.Pool
import SheriMl.Lib.Str

/-!
# The lifecycle of turns

`spawn_task`, `abort_all_tasks` and `on_task_finished` of `core/src/tasks/mod.rs`, with `steer_input`,
`inject_response_items` and `get_pending_input` of `core/src/codex.rs`, over one session. Every
acquisition of the lock on the active turn and every event that is sent is one step of a call
(`CallStep`), and any number of calls and tasks are under way. What a task does between its steps
is open, and so is when the grace period of an abort ends. `I` is the type of input items.
-/

namespace SheriMl.Turn

open Pool

inductive TurnAbortReason where
  | interrupted
  | replaced
  | reviewEnded

/-- The events that end a turn. -/
inductive TerminalEvent where
  | turnComplete (turnId : Str)
  | turnAborted (turnId : Str) (reason : TurnAbortReason)

def TerminalEvent.turnId : TerminalEvent → Str
  | turnComplete turnId | turnAborted turnId _ => turnId

def TerminalEvent.isAborted : TerminalEvent → Bool
  | turnAborted .. => true
  | turnComplete _ => false

inductive SteerInputError where
  | noActiveTurn
  | expectedTurnMismatch (expected actual : Str)
  | emptyInput

structure ActiveTurn (I : Type) where
  /-- the keys of the tasks -/
  tasks : List Str
  pendingInput : List I

namespace ActiveTurn

variable {I : Type}

def default : ActiveTurn I := ⟨[], []⟩

def addTask (at' : ActiveTurn I) (subId : Str) : ActiveTurn I :=
  { at' with tasks := if subId ∈ at'.tasks then at'.tasks else at'.tasks ++ [subId] }

/-- With whether no task is left. -/
def removeTask (at' : ActiveTurn I) (subId : Str) : ActiveTurn I × Bool :=
  ({ at' with tasks := at'.tasks.erase subId }, (at'.tasks.erase subId).isEmpty)

end ActiveTurn

/-- The input of each turn. -/
abbrev Ledger (I : Type) := Str → Multiset I

def Ledger.add {I : Type} (ledger : Ledger I) (turnId : Str) (items : Multiset I) : Ledger I :=
  fun t => if t = turnId then ledger t + items else ledger t

/-- A session, with the events it has sent and what has become of its input. -/
structure Session (I : Type) where
  activeTurn : Option (ActiveTurn I)
  spawned : List Str
  /-- the turns whose token is cancelled -/
  cancelled : List Str
  /-- the turns whose task is aborted, by its handle or by dropping it -/
  handlesAborted : List Str
  events : List TerminalEvent
  /-- accepted while the turn was the active one -/
  accepted : Ledger I
  /-- given to the task of the turn -/
  handed : Ledger I
  /-- recorded in the history when the turn finished -/
  recorded : Ledger I

namespace Session

variable {I : Type} (s : Session I)

def new : Session I := ⟨none, [], [], [], [], fun _ => 0, fun _ => 0, fun _ => 0⟩

/-- The sections under the lock on the active turn. -/
def takeAllRunningTasks : Session I × List Str :=
  match s.activeTurn with
  | some at' => ({ s with activeTurn := none }, at'.tasks)
  | none => (s, [])

/-- The active turn that is replaced is dropped, with the handles of its tasks. -/
def registerNewActiveTask (turnId : Str) : Session I :=
  { s with
    activeTurn := some (ActiveTurn.default.addTask turnId)
    handlesAborted := s.handlesAborted ++ (s.activeTurn.map ActiveTurn.tasks).getD [] }

/-- The first section of `on_task_finished`, with the input it takes. The running task that is
removed is dropped, with its own handle. -/
def removeFinished (turnId : Str) : Session I × List I :=
  match s.activeTurn with
  | some at' =>
    let handlesAborted := s.handlesAborted ++ at'.tasks.filter (· = turnId)
    match at'.removeTask turnId with
    | (_, true) => ({ s with activeTurn := none, handlesAborted }, at'.pendingInput)
    | (rest, false) => ({ s with activeTurn := some rest, handlesAborted }, [])
  | none => (s, [])

/-- `get_pending_input`, of the task of a turn. -/
def getPendingInput (turnId : Str) : Session I :=
  match s.activeTurn with
  | some at' =>
    { s with
      activeTurn := some { at' with pendingInput := [] }
      handed := s.handed.add turnId at'.pendingInput }
  | none => s

/-- Items are pushed to the pending input of the active turn. -/
def push (at' : ActiveTurn I) (turnId : Str) (items : List I) : Session I :=
  { s with
    activeTurn := some { at' with pendingInput := at'.pendingInput ++ items }
    accepted := s.accepted.add turnId items }

/-- Without an item the input is empty. -/
def steerInput (input : Option I) (expectedTurnId : Option Str) :
    Session I × Except SteerInputError Str :=
  match input with
  | none => (s, .error .emptyInput)
  | some item =>
    match s.activeTurn with
    | none => (s, .error .noActiveTurn)
    | some at' =>
      match at'.tasks.head? with
      | none => (s, .error .noActiveTurn)
      | some activeTurnId =>
        match expectedTurnId with
        | some expected =>
          if expected ≠ activeTurnId then
            (s, .error (.expectedTurnMismatch expected activeTurnId))
          else (s.push at' activeTurnId [item], .ok activeTurnId)
        | none => (s.push at' activeTurnId [item], .ok activeTurnId)

/-- With whether there is an active turn to inject into. -/
def injectResponseItems (input : List I) : Session I × Bool :=
  match s.activeTurn with
  | some at' => (s.push at' (at'.tasks.head?.getD []) input, true)
  | none => (s, false)

def cancel (turnId : Str) : Session I := { s with cancelled := turnId :: s.cancelled }

def abortHandle (turnId : Str) : Session I :=
  { s with handlesAborted := s.handlesAborted ++ [turnId] }

def sendEvent (event : TerminalEvent) : Session I := { s with events := s.events ++ [event] }

def record (turnId : Str) (items : List I) : Session I :=
  { s with recorded := s.recorded.add turnId items }

end Session

/-- What a call or a task is about to do. -/
inductive Call (I : Type) where
  /-- `spawn_task`, before it takes the running tasks -/
  | spawning (turnId : Str)
  | abortingAll (reason : TurnAbortReason)
  /-- the loop of `abort_all_tasks`, with the turn that is spawned after it -/
  | aborting (reason : TurnAbortReason) (tasks : List Str) (next : Option Str)
  /-- the token of the task is cancelled, and the grace period runs -/
  | waiting (reason : TurnAbortReason) (turnId : Str) (tasks : List Str) (next : Option Str)
  /-- the task is aborted, and this is about to be reported -/
  | reporting (reason : TurnAbortReason) (turnId : Str) (tasks : List Str) (next : Option Str)
  | registering (turnId : Str)
  /-- the task of a turn, in its `run` -/
  | running (turnId : Str)
  /-- `run` has returned -/
  | returned (turnId : Str)
  /-- the token has been found not cancelled -/
  | finishing (turnId : Str)
  | recording (turnId : Str) (pendingInput : List I)
  | completing (turnId : Str)
  | steering (input : Option I) (expectedTurnId : Option Str)
  | injecting (input : List I)

/-- The calls that may come at any time. -/
inductive Call.Start {I : Type} : Call I → Prop
  | spawn (turnId : Str) : Start (.spawning turnId)
  | abortAll (reason : TurnAbortReason) : Start (.abortingAll reason)
  | steer (input : Option I) (expectedTurnId : Option Str) : Start (.steering input expectedTurnId)
  | inject (input : List I) : Start (.injecting input)

/-- The turn whose task takes the step. -/
def Call.taskTurn? {I : Type} : Call I → Option Str
  | running turnId | returned turnId | finishing turnId | recording turnId _
  | completing turnId => some turnId
  | _ => none

inductive Operation where
  | tookTasks
  | cancelledTask
  | skippedTask
  | abortedTask
  | reportedAbort
  | spawnedTask
  | endedAborts
  | registeredTask
  | tookInput
  | returnedFromRun
  | foundNotCancelled
  | foundCancelled
  | removedTask
  | recordedInput
  | reportedComplete
  | droppedTask
  | steered
  | injected

variable {I : Type}

/-- The steps of the calls and tasks. The turn of a `spawn_task` is new. -/
inductive CallStep :
    Session I → Call I → Operation → Session I → Multiset (Call I) → Prop
  | takeForSpawn {s turnId} (h : turnId ∉ s.spawned) :
      CallStep s (.spawning turnId) .tookTasks
        { s.takeAllRunningTasks.1 with spawned := turnId :: s.spawned }
        {.aborting .replaced s.takeAllRunningTasks.2 (some turnId)}
  | take {s reason} :
      CallStep s (.abortingAll reason) .tookTasks s.takeAllRunningTasks.1
        {.aborting reason s.takeAllRunningTasks.2 none}
  | skip {s reason turnId tasks next} (h : turnId ∈ s.cancelled) :
      CallStep s (.aborting reason (turnId :: tasks) next) .skippedTask s
        {.aborting reason tasks next}
  | cancel {s reason turnId tasks next} (h : turnId ∉ s.cancelled) :
      CallStep s (.aborting reason (turnId :: tasks) next) .cancelledTask (s.cancel turnId)
        {.waiting reason turnId tasks next}
  -- the task is done, or the grace period is over
  | abortHandle {s reason turnId tasks next} :
      CallStep s (.waiting reason turnId tasks next) .abortedTask (s.abortHandle turnId)
        {.reporting reason turnId tasks next}
  | reportAbort {s reason turnId tasks next} :
      CallStep s (.reporting reason turnId tasks next) .reportedAbort
        (s.sendEvent (.turnAborted turnId reason)) {.aborting reason tasks next}
  | endAborts {s reason} : CallStep s (.aborting reason [] none) .endedAborts s 0
  | spawn {s reason turnId} :
      CallStep s (.aborting reason [] (some turnId)) .spawnedTask s
        {.running turnId, .registering turnId}
  | register {s turnId} :
      CallStep s (.registering turnId) .registeredTask (s.registerNewActiveTask turnId) 0
  | takeInput {s turnId} :
      CallStep s (.running turnId) .tookInput (s.getPendingInput turnId) {.running turnId}
  | returnFromRun {s turnId} : CallStep s (.running turnId) .returnedFromRun s {.returned turnId}
  | notCancelled {s turnId} (h : turnId ∉ s.cancelled) :
      CallStep s (.returned turnId) .foundNotCancelled s {.finishing turnId}
  | cancelled {s turnId} (h : turnId ∈ s.cancelled) :
      CallStep s (.returned turnId) .foundCancelled s 0
  | remove {s turnId} :
      CallStep s (.finishing turnId) .removedTask (s.removeFinished turnId).1
        {.recording turnId (s.removeFinished turnId).2}
  | record {s turnId pendingInput} :
      CallStep s (.recording turnId pendingInput) .recordedInput (s.record turnId pendingInput)
        {.completing turnId}
  | complete {s turnId} :
      CallStep s (.completing turnId) .reportedComplete (s.sendEvent (.turnComplete turnId)) 0
  -- an aborted task is dropped where it waits
  | drop {s call turnId} (htask : call.taskTurn? = some turnId) (h : turnId ∈ s.handlesAborted) :
      CallStep s call .droppedTask s 0
  | steer {s input expectedTurnId} :
      CallStep s (.steering input expectedTurnId) .steered (s.steerInput input expectedTurnId).1 0
  | inject {s input} :
      CallStep s (.injecting input) .injected (s.injectResponseItems input).1 0

abbrev State (I : Type) := Config (Session I) (Call I)

def step : State I → Option Operation → State I → Prop := Step Call.Start CallStep

def init : State I := ⟨.new, 0⟩

end SheriMl.Turn
