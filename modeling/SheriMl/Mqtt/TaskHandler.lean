import Mathlib.Data.List.Nodup
import Mathlib.Logic.Function.Basic
import SheriMl.Lib.Str
import SheriMl.Lib.Transition

/-!
# Tasks of a swarm

`TaskHandler` of `sheri-ml-cli/src/mqtt/task-handler.ts` and `MQTTClient.onMessage`, for agents on one
broker. A handler runs up to its `await` when a message comes; what `executeTask` is asked for ends
later. The broker delivers what was published in any order, any number of times.

An agent takes a task on the word of its own flag, and of announcements only those matter that name a
task in its queue, which stays empty. `executedOnce_iff`: tasks are executed once if and only if no
task is delivered to a second agent that would take it, nor again to the first.
-/

namespace SheriMl.Mqtt

open Transition

structure Task where
  taskId : Str
  type : Str
  assignedTo : Option Str
  deriving DecidableEq

inductive Announcement where
  | assigned (taskId agentId : Str)
  | complete (taskId agentId : Str)
  | failed (taskId agentId : Str)
  deriving DecidableEq

inductive Body where
  | newTask (task : Task)
  | announced (announcement : Announcement)

/-- A message, with the id of the agent that it is from. -/
structure Message where
  agentId : Option Str
  body : Body

/-! ## The handler -/

/-- `executing`: the calls of `claimTask` that await `executeTask`. -/
structure TaskHandler where
  currentTask : Option Str
  taskQueue : List Task
  executing : List Task
  /-- no promise was rejected without a handler, which ends the process -/
  alive : Bool

namespace TaskHandler

def new : TaskHandler := ⟨none, [], [], true⟩

/-- A string counts as true unless it is empty. -/
def isTruthy (value : Option Str) : Bool := value.any fun text => !text.isEmpty

def taskRoleMap : List (Str × List Str) :=
  [("code.review", ["review", "general"]),
    ("code.generate", ["general"]),
    ("deployment.deploy", ["deployment"]),
    ("deployment.rollback", ["deployment"]),
    ("testing.run", ["testing"]),
    ("testing.coverage", ["testing"]),
    ("security.scan", ["security", "review"]),
    ("security.audit", ["security"]),
    ("monitoring.health", ["monitoring"]),
    ("monitoring.alerts", ["monitoring"]),
    ("documentation.generate", ["documentation", "general"]),
    ("database.migrate", ["database"]),
    ("database.backup", ["database"])]

/-- The properties of every object, which have no method `includes`. -/
def objectPrototype : List Str :=
  ["constructor", "__defineGetter__", "__defineSetter__", "hasOwnProperty", "__lookupGetter__",
    "__lookupSetter__", "isPrototypeOf", "propertyIsEnumerable", "toString", "valueOf",
    "__proto__", "toLocaleString"]

/-- `canHandleTask`, or `none` if it throws. -/
def canHandleTask (role taskType : Str) : Option Bool :=
  match taskRoleMap.lookup taskType with
  | some allowedRoles => some (allowedRoles.contains role)
  | none => if objectPrototype.contains taskType then none else some (role = "general")

variable (agentId role : Str) (h : TaskHandler)

/-- `claimTask`, up to its `await`. -/
def claimTask (task : Task) : TaskHandler × List Announcement :=
  ({ h with currentTask := some task.taskId, executing := h.executing ++ [task] },
    [.assigned task.taskId agentId])

/-- `claimTask` after `executeTask` has returned or thrown. -/
def finishTask (task : Task) (ok : Bool) : TaskHandler × List Announcement :=
  let report := if ok then .complete task.taskId agentId else .failed task.taskId agentId
  let h := { h with currentTask := none, executing := h.executing.erase task }
  match h.taskQueue with
  | nextTask :: taskQueue =>
    let (h, sent) := claimTask agentId { h with taskQueue := taskQueue } nextTask
    (h, report :: sent)
  | [] => (h, [report])

def assignedElsewhere (task : Task) : Bool :=
  isTruthy task.assignedTo && task.assignedTo ≠ some agentId

def handleNewTask (task : Task) : TaskHandler × List Announcement :=
  if isTruthy h.currentTask then (h, [])
  else
    match canHandleTask role task.type with
    | none => ({ h with alive := false }, [])
    | some false => (h, [])
    | some true => if assignedElsewhere agentId task then (h, []) else h.claimTask agentId task

def handleTaskAssigned (taskId byAgent : Str) : TaskHandler :=
  if byAgent ≠ agentId ∧ (h.taskQueue.any fun task => task.taskId = taskId) = true then
    { h with taskQueue := h.taskQueue.filter fun task => task.taskId ≠ taskId }
  else h

/-- `onMessage`, which ignores messages of the agent itself, and the listener of the handler. -/
def onMessage (message : Message) : TaskHandler × List Announcement :=
  if message.agentId = some agentId then (h, [])
  else
    match message.body with
    | .newTask task => h.handleNewTask agentId role task
    | .announced (.assigned taskId byAgent) => (h.handleTaskAssigned agentId taskId byAgent, [])
    | .announced _ => (h, [])

end TaskHandler

/-! ## The swarm -/

/-- Agents by their ids, what was published on the broker, and what the agents have announced. -/
structure Swarm where
  agents : Str → TaskHandler
  published : List Message
  log : List Announcement

namespace Swarm

def init : Swarm := ⟨fun _ => .new, [], []⟩

def act (c : Swarm) (agentId : Str) (result : TaskHandler × List Announcement) : Swarm where
  agents := Function.update c.agents agentId result.1
  published := c.published ++ result.2.map fun announcement =>
    ⟨some agentId, .announced announcement⟩
  log := c.log ++ result.2

variable (c : Swarm) (agentId : Str) (result : TaskHandler × List Announcement)

@[simp] theorem log_act : (c.act agentId result).log = c.log ++ result.2 := rfl

@[simp] theorem agents_act_self : (c.act agentId result).agents agentId = result.1 :=
  Function.update_self ..

theorem agents_act_other {other : Str} (h : other ≠ agentId) :
    (c.act agentId result).agents other = c.agents other := Function.update_of_ne h ..

end Swarm

inductive Move where
  | publish (message : Message)
  | deliver (agentId : Str) (message : Message)
  | finish (agentId : Str) (task : Task) (ok : Bool)

/-- Anyone may publish. Of what `executeTask` does only that it fails for other types is told. -/
inductive Step (role : Str → Str) : Swarm → Move → Swarm → Prop
  | publish {c : Swarm} (message : Message) :
    Step role c (.publish message) { c with published := c.published ++ [message] }
  | deliver {c : Swarm} {agentId : Str} {message : Message} (published : message ∈ c.published)
      (alive : (c.agents agentId).alive = true) :
    Step role c (.deliver agentId message)
      (c.act agentId ((c.agents agentId).onMessage agentId (role agentId) message))
  | finish {c : Swarm} {agentId : Str} {task : Task} {ok : Bool}
      (executing : task ∈ (c.agents agentId).executing) (alive : (c.agents agentId).alive = true)
      (known : ok = true → (TaskHandler.taskRoleMap.lookup task.type).isSome = true) :
    Step role c (.finish agentId task ok)
      (c.act agentId ((c.agents agentId).finishTask agentId task ok))

/-! ## Announcements -/

namespace Announcement

def agentId : Announcement → Str
  | .assigned _ agentId | .complete _ agentId | .failed _ agentId => agentId

def assigned? : Announcement → Option Str
  | .assigned taskId _ => some taskId
  | .complete _ _ | .failed _ _ => none

/-- After an announcement, the task that was assigned and not reported yet: there is to be one
report, of this task, and none without a task. -/
def next : Option Str → Announcement → Option (Option Str)
  | none, .assigned taskId _ => some (some taskId)
  | some taskId, .complete taskId' _ | some taskId, .failed taskId' _ =>
    if taskId' = taskId then some none else none
  | _, _ => none

end Announcement

/-- The tasks that were assigned, in their order. -/
def assignedTasks (log : List Announcement) : List Str := log.filterMap Announcement.assigned?

def ofAgent (agentId : Str) (log : List Announcement) : List Announcement :=
  log.filter fun announcement => announcement.agentId = agentId

/-- How many tasks an agent executes: those that were assigned, less those that were reported. -/
def started (agentId : Str) (log : List Announcement) : Nat :=
  (ofAgent agentId log).countP fun announcement => announcement.assigned?.isSome

def reported (agentId : Str) (log : List Announcement) : Nat :=
  (ofAgent agentId log).countP fun announcement => announcement.assigned?.isNone

structure ExecutedOnce (log : List Announcement) : Prop where
  /-- no task is executed twice, by whomever -/
  once : (assignedTasks log).Nodup
  /-- no agent executes two tasks at the same time -/
  alone : ∀ before after agentId, log = before ++ after →
    started agentId before ≤ reported agentId before + 1
  /-- what an agent was assigned it reports before it is assigned the next -/
  alternate : ∀ agentId, ((ofAgent agentId log).foldlM Announcement.next none).isSome = true

/-- The handler of the agent takes the task of the message. -/
def Takes (role : Str → Str) (c : Swarm) (agentId : Str) (message : Message) (task : Task) : Prop :=
  message.body = .newTask task ∧ message.agentId ≠ some agentId ∧
    TaskHandler.isTruthy (c.agents agentId).currentTask = false ∧
    TaskHandler.canHandleTask (role agentId) task.type = some true ∧
    TaskHandler.assignedElsewhere agentId task = false

/-- A task is delivered to an agent that takes it only if the agent executes nothing and the task was
not taken before. -/
def Fresh (role : Str → Str) (c : Swarm) : Move → Prop
  | .deliver agentId message => ∀ task, Takes role c agentId message task →
    (c.agents agentId).executing = [] ∧ task.taskId ∉ assignedTasks c.log
  | _ => True

def FreshStep (role : Str → Str) (c : Swarm) (move : Move) (c' : Swarm) : Prop :=
  Step role c move c' ∧ Fresh role c move

/-! ## One message, one report -/

namespace TaskHandler

variable {agentId role : Str} {h : TaskHandler} {message : Message} {task : Task} {ok : Bool}

theorem handleTaskAssigned_of_empty (hqueue : h.taskQueue = []) (taskId byAgent : Str) :
    h.handleTaskAssigned agentId taskId byAgent = h := by
  rw [handleTaskAssigned, hqueue]
  exact if_neg fun hmem => Bool.false_ne_true hmem.2

variable (agentId role message) in
/-- A message makes the handler claim its task, or changes nothing that matters. -/
theorem onMessage_cases (hqueue : h.taskQueue = []) :
    (∃ task, message.body = .newTask task ∧ message.agentId ≠ some agentId ∧
      isTruthy h.currentTask = false ∧ canHandleTask role task.type = some true ∧
      assignedElsewhere agentId task = false ∧
      h.onMessage agentId role message = h.claimTask agentId task) ∨
    ∃ alive, h.onMessage agentId role message = ({ h with alive := alive }, []) := by
  rw [onMessage]
  split
  · exact .inr ⟨h.alive, rfl⟩
  · next hown =>
    split
    · next task hbody =>
      rw [handleNewTask]
      split
      · exact .inr ⟨h.alive, rfl⟩
      · next hidle =>
        split
        · exact .inr ⟨false, rfl⟩
        · exact .inr ⟨h.alive, rfl⟩
        · next hrole =>
          split
          · exact .inr ⟨h.alive, rfl⟩
          · next hmine =>
            exact .inl ⟨task, hbody, hown, Bool.eq_false_iff.2 hidle, hrole,
              Bool.eq_false_iff.2 hmine, rfl⟩
    · next taskId byAgent hbody =>
      rw [handleTaskAssigned_of_empty hqueue]
      exact .inr ⟨h.alive, rfl⟩
    · exact .inr ⟨h.alive, rfl⟩

theorem onMessage_of_takes (hbody : message.body = .newTask task)
    (hown : message.agentId ≠ some agentId) (hidle : isTruthy h.currentTask = false)
    (hrole : canHandleTask role task.type = some true)
    (hmine : assignedElsewhere agentId task = false) :
    h.onMessage agentId role message = h.claimTask agentId task := by
  simp [onMessage, handleNewTask, hbody, hown, hidle, hrole, hmine]

def report (agentId : Str) (task : Task) (ok : Bool) : Announcement :=
  if ok then .complete task.taskId agentId else .failed task.taskId agentId

variable (agentId task ok) in
theorem finishTask_of_empty (hqueue : h.taskQueue = []) : h.finishTask agentId task ok =
    ({ h with currentTask := none, executing := h.executing.erase task },
      [report agentId task ok]) := by
  simp only [finishTask, hqueue]
  rfl

theorem agentId_report : (report agentId task ok).agentId = agentId := by cases ok <;> rfl

theorem assigned?_report : (report agentId task ok).assigned? = none := by cases ok <;> rfl

theorem next_report : Announcement.next (some task.taskId) (report agentId task ok) = some none := by
  cases ok <;> simp [report, Announcement.next]

end TaskHandler

/-! ## Logs -/

section Logs

variable {agentId : Str} {log log' : List Announcement} {announcement : Announcement}

theorem assignedTasks_append : assignedTasks (log ++ log') = assignedTasks log ++ assignedTasks log' :=
  List.filterMap_append ..

theorem ofAgent_append : ofAgent agentId (log ++ log') = ofAgent agentId log ++ ofAgent agentId log' :=
  List.filter_append ..

theorem ofAgent_self (h : announcement.agentId = agentId) :
    ofAgent agentId [announcement] = [announcement] := by simp [ofAgent, h]

theorem ofAgent_assigned (taskId : Str) :
    ofAgent agentId [.assigned taskId agentId] = [.assigned taskId agentId] := ofAgent_self rfl

theorem ofAgent_other (h : announcement.agentId ≠ agentId) : ofAgent agentId [announcement] = [] := by
  simp [ofAgent, h]

theorem started_append : started agentId (log ++ log') = started agentId log + started agentId log' := by
  rw [started, ofAgent_append, List.countP_append]
  rfl

theorem reported_append :
    reported agentId (log ++ log') = reported agentId log + reported agentId log' := by
  rw [reported, ofAgent_append, List.countP_append]
  rfl

theorem started_other (h : announcement.agentId ≠ agentId) : started agentId [announcement] = 0 := by
  rw [started, ofAgent_other h]
  rfl

theorem reported_other (h : announcement.agentId ≠ agentId) : reported agentId [announcement] = 0 := by
  rw [reported, ofAgent_other h]
  rfl

/-- The reports keep up with the assignments. -/
theorem count_of_foldlM_next {l : List Announcement} {open' : Option Str} :
    ∀ {opened : Option Str}, l.foldlM Announcement.next opened = some open' →
      l.countP (fun a => a.assigned?.isSome) + opened.toList.length =
        l.countP (fun a => a.assigned?.isNone) + open'.toList.length := by
  induction l with
  | nil =>
    intro opened h
    obtain rfl := Option.some.inj h
    rfl
  | cons a l ih =>
    intro opened h
    rw [List.foldlM_cons] at h
    obtain ⟨middle, hnext, hrest⟩ := Option.bind_eq_some_iff.1 h
    have hcount := ih hrest
    rw [List.countP_cons, List.countP_cons]
    cases opened with
    | none =>
      cases a with
      | assigned taskId agentId =>
        obtain rfl := Option.some.inj hnext
        simp only [Announcement.assigned?, Option.toList, List.length_nil, List.length_singleton,
          Option.isSome_some, Option.isNone_some, if_true] at hcount ⊢
        simp only [Bool.false_eq_true, if_false]
        omega
      | complete | failed => cases hnext
    | some taskId =>
      cases a with
      | assigned taskId agentId => cases hnext
      | complete taskId' | failed taskId' =>
        simp only [Announcement.next] at hnext
        split at hnext
        · obtain rfl := Option.some.inj hnext
          simp only [Announcement.assigned?, Option.toList, List.length_nil, List.length_singleton,
            Option.isSome_none, Option.isNone_none, if_true] at hcount ⊢
          simp only [Bool.false_eq_true, if_false]
          omega
        · cases hnext

theorem isSome_foldlM_of_append {l l' : List Announcement} {opened : Option Str}
    (h : ((l ++ l').foldlM Announcement.next opened).isSome = true) :
    (l.foldlM Announcement.next opened).isSome = true := by
  rw [List.foldlM_append] at h
  cases hl : l.foldlM Announcement.next opened with
  | none => simp [hl] at h
  | some => rfl

theorem ExecutedOnce.of_append (h : ExecutedOnce (log ++ log')) : ExecutedOnce log := by
  refine ⟨?_, fun before after agentId heq => ?_, fun agentId => ?_⟩
  · have honce := h.once
    rw [assignedTasks_append] at honce
    exact honce.of_append_left
  · exact h.alone before (after ++ log') agentId (by rw [heq, List.append_assoc])
  · have halternate := h.alternate agentId
    rw [ofAgent_append] at halternate
    exact isSome_foldlM_of_append halternate

end Logs

/-! ## Runs -/

section Runs

variable {role : Str → Str} {c c' : Swarm} {move : Move} {moves : List Move}

/-- Queues are empty, and what an agent executes is what it has not reported yet. -/
structure Counts (c : Swarm) : Prop where
  queue : ∀ agentId, (c.agents agentId).taskQueue = []
  executing : ∀ agentId, started agentId c.log =
    reported agentId c.log + (c.agents agentId).executing.length

/-- What a step does: nothing that matters, or one agent takes a task, or reports one. -/
inductive Outcome (role : Str → Str) (c : Swarm) (move : Move) (c' : Swarm) : Prop
  | quiet (log : c'.log = c.log)
      (executing : ∀ agentId, (c'.agents agentId).executing = (c.agents agentId).executing)
      (queue : ∀ agentId, (c'.agents agentId).taskQueue = (c.agents agentId).taskQueue)
      (fresh : Fresh role c move)
  | take (agentId : Str) (message : Message) (task : Task) (deliver : move = .deliver agentId message)
      (takes : Takes role c agentId message task)
      (log : c'.log = c.log ++ [.assigned task.taskId agentId])
      (self : (c'.agents agentId).executing = (c.agents agentId).executing ++ [task])
      (others : ∀ other, other ≠ agentId → c'.agents other = c.agents other)
      (queue : (c'.agents agentId).taskQueue = (c.agents agentId).taskQueue)
  | finish (agentId : Str) (task : Task) (ok : Bool) (finished : move = .finish agentId task ok)
      (executing : task ∈ (c.agents agentId).executing)
      (log : c'.log = c.log ++ [TaskHandler.report agentId task ok])
      (self : (c'.agents agentId).executing = (c.agents agentId).executing.erase task)
      (others : ∀ other, other ≠ agentId → c'.agents other = c.agents other)
      (queue : (c'.agents agentId).taskQueue = (c.agents agentId).taskQueue)

theorem Step.outcome (h : Step role c move c') (hc : Counts c) : Outcome role c move c' := by
  cases h with
  | publish message => exact .quiet rfl (fun _ => rfl) (fun _ => rfl) trivial
  | @deliver agentId message _ _ =>
    rcases TaskHandler.onMessage_cases agentId (role agentId) message (hc.queue agentId) with
        ⟨task, hbody, hown, hidle, hrole, hmine, hclaim⟩ | ⟨alive, hquiet⟩
    · refine .take agentId message task rfl ⟨hbody, hown, hidle, hrole, hmine⟩ ?_ ?_
        (fun other hne => Swarm.agents_act_other _ _ _ hne) ?_
      · rw [hclaim]
        rfl
      · rw [hclaim, Swarm.agents_act_self]
        rfl
      · rw [hclaim, Swarm.agents_act_self]
        rfl
    · have hagents (other : Str) :
          ((c.act agentId ({ c.agents agentId with alive := alive }, [])).agents other).executing =
              (c.agents other).executing ∧
            ((c.act agentId ({ c.agents agentId with alive := alive }, [])).agents other).taskQueue =
              (c.agents other).taskQueue := by
        by_cases hother : other = agentId
        · rw [hother, Swarm.agents_act_self]
          exact ⟨rfl, rfl⟩
        · rw [Swarm.agents_act_other _ _ _ hother]
          exact ⟨rfl, rfl⟩
      rw [hquiet]
      refine .quiet (List.append_nil _) (fun other => (hagents other).1)
        (fun other => (hagents other).2) fun task htakes => ?_
      obtain ⟨hbody, hown, hidle, hrole, hmine⟩ := htakes
      rw [TaskHandler.onMessage_of_takes hbody hown hidle hrole hmine] at hquiet
      cases congrArg Prod.snd hquiet
  | @finish agentId task ok hexecuting _ _ =>
    have hfinish := TaskHandler.finishTask_of_empty agentId task ok (hc.queue agentId)
    rw [hfinish]
    refine .finish agentId task ok rfl hexecuting rfl ?_
      (fun other hne => Swarm.agents_act_other _ _ _ hne) ?_
    · rw [Swarm.agents_act_self]
    · rw [Swarm.agents_act_self]

theorem counts_init : Counts .init := ⟨fun _ => rfl, fun _ => rfl⟩

theorem Step.counts (h : Step role c move c') (hc : Counts c) : Counts c' := by
  have hqueue := hc.queue
  have hexecuting := hc.executing
  cases h.outcome hc with
  | quiet log executing queue =>
    refine ⟨fun agentId => (queue agentId).trans (hqueue agentId), fun agentId => ?_⟩
    rw [log, executing]
    exact hexecuting agentId
  | take agentId message task _ _ log self others queue =>
    refine ⟨fun other => ?_, fun other => ?_⟩
    · by_cases hother : other = agentId
      · rw [hother, queue]
        exact hqueue agentId
      · rw [others other hother]
        exact hqueue other
    · have hold := hexecuting other
      rw [log, started_append, reported_append]
      by_cases hother : other = agentId
      · subst hother
        have hone : started other [.assigned task.taskId other] = 1 := by
          rw [started, ofAgent_assigned]
          rfl
        have hnone : reported other [.assigned task.taskId other] = 0 := by
          rw [reported, ofAgent_assigned]
          rfl
        rw [hone, hnone, self, List.length_append, List.length_singleton]
        omega
      · have hne : (Announcement.assigned task.taskId agentId).agentId ≠ other := Ne.symm hother
        rw [others other hother, started_other hne, reported_other hne]
        exact hold
  | finish agentId task ok _ executing log self others queue =>
    refine ⟨fun other => ?_, fun other => ?_⟩
    · by_cases hother : other = agentId
      · rw [hother, queue]
        exact hqueue agentId
      · rw [others other hother]
        exact hqueue other
    · have hold := hexecuting other
      rw [log, started_append, reported_append]
      by_cases hother : other = agentId
      · subst hother
        have hself : ofAgent other [TaskHandler.report other task ok] =
            [TaskHandler.report other task ok] := ofAgent_self TaskHandler.agentId_report
        have hnone : started other [TaskHandler.report other task ok] = 0 := by
          simp [started, hself, TaskHandler.assigned?_report]
        have hone : reported other [TaskHandler.report other task ok] = 1 := by
          simp [reported, hself, TaskHandler.assigned?_report]
        have hpos := List.length_pos_of_mem executing
        rw [hone, hnone, self, List.length_erase_of_mem executing]
        omega
      · have hne : (TaskHandler.report agentId task ok).agentId ≠ other := by
          rw [TaskHandler.agentId_report]
          exact Ne.symm hother
        rw [others other hother, started_other hne, reported_other hne]
        exact hold

theorem Step.log_append (h : Step role c move c') : ∃ sent, c'.log = c.log ++ sent := by
  cases h with
  | publish => exact ⟨[], (List.append_nil _).symm⟩
  | deliver | finish => exact ⟨_, rfl⟩

theorem Run.log_append {step : Swarm → Move → Swarm → Prop}
    (hstep : ∀ {c move c'}, step c move c' → Step role c move c') (h : Run step c moves c') :
    ∃ sent, c'.log = c.log ++ sent := by
  induction h with
  | nil => exact ⟨[], (List.append_nil _).symm⟩
  | cons hmove _ ih =>
    obtain ⟨sent, hsent⟩ := (hstep hmove).log_append
    obtain ⟨sent', hsent'⟩ := ih
    exact ⟨sent ++ sent', by rw [hsent', hsent, List.append_assoc]⟩

theorem Step.fresh (h : Step role c move c') (hc : Counts c) (honce : ExecutedOnce c'.log) :
    Fresh role c move := by
  have hcounts := h.counts hc
  cases h.outcome hc with
  | quiet _ _ _ fresh => exact fresh
  | finish agentId task ok finished =>
    rw [finished]
    trivial
  | take agentId message task deliver takes log self others queue =>
    rw [deliver]
    intro task' htakes
    obtain rfl := Body.newTask.inj (takes.1.symm.trans htakes.1)
    constructor
    · have halone := honce.alone c'.log [] agentId (List.append_nil _).symm
      rw [hcounts.executing, self, List.length_append, List.length_singleton] at halone
      exact List.eq_nil_of_length_eq_zero (by omega)
    · have hnodup := honce.once
      rw [log, assignedTasks_append] at hnodup
      exact fun hmem => List.disjoint_of_nodup_append hnodup hmem List.mem_cons_self

/-- What holds as long as all steps are fresh. -/
structure InTurn (c : Swarm) : Prop where
  once : (assignedTasks c.log).Nodup
  single : ∀ agentId, (c.agents agentId).executing.length ≤ 1
  opened : ∀ agentId, (ofAgent agentId c.log).foldlM Announcement.next none =
    some ((c.agents agentId).executing.head?.map Task.taskId)

theorem inTurn_init : InTurn .init := ⟨List.nodup_nil, fun _ => Nat.zero_le _, fun _ => rfl⟩

theorem FreshStep.inTurn (h : FreshStep role c move c') (hc : Counts c) (hturn : InTurn c) :
    InTurn c' := by
  obtain ⟨honce, hsingle, hopened⟩ := hturn
  cases h.1.outcome hc with
  | quiet log executing _ _ =>
    refine ⟨by rwa [log], fun agentId => ?_, fun agentId => ?_⟩
    · rw [executing]
      exact hsingle agentId
    · rw [log, executing]
      exact hopened agentId
  | take agentId message task deliver takes log self others _ =>
    have hfresh := h.2
    rw [deliver] at hfresh
    obtain ⟨hnone, hnew⟩ := hfresh task takes
    rw [hnone, List.nil_append] at self
    refine ⟨?_, fun other => ?_, fun other => ?_⟩
    · rw [log, assignedTasks_append, List.nodup_append]
      refine ⟨honce, List.nodup_singleton _, fun taskId hmem taskId' hmem' heq => hnew ?_⟩
      rw [← List.mem_singleton.1 hmem', ← heq]
      exact hmem
    · by_cases hother : other = agentId
      · rw [hother, self, List.length_singleton]
      · rw [others other hother]
        exact hsingle other
    · rw [log, ofAgent_append, List.foldlM_append, hopened other]
      by_cases hother : other = agentId
      · subst hother
        rw [ofAgent_assigned, self, hnone]
        rfl
      · rw [ofAgent_other (Ne.symm hother), others other hother]
        rfl
  | finish agentId task ok _ executing log self others _ =>
    have honly : (c.agents agentId).executing = [task] := by
      have hle := hsingle agentId
      generalize (c.agents agentId).executing = l at executing hle
      cases l with
      | nil => cases executing
      | cons first rest =>
        obtain rfl : rest = [] := List.eq_nil_of_length_eq_zero (by simpa using hle)
        rw [List.mem_singleton.1 executing]
    rw [honly, List.erase_cons_head] at self
    refine ⟨?_, fun other => ?_, fun other => ?_⟩
    · rw [log, assignedTasks_append]
      simpa [assignedTasks, TaskHandler.assigned?_report] using honce
    · by_cases hother : other = agentId
      · rw [hother, self]
        exact Nat.zero_le _
      · rw [others other hother]
        exact hsingle other
    · rw [log, ofAgent_append, List.foldlM_append, hopened other]
      by_cases hother : other = agentId
      · subst hother
        rw [ofAgent_self TaskHandler.agentId_report, self, honly]
        simp [TaskHandler.next_report]
      · rw [ofAgent_other (by rw [TaskHandler.agentId_report]; exact Ne.symm hother),
          others other hother]
        rfl

theorem InTurn.executedOnce (h : InTurn c) : ExecutedOnce c.log := by
  have halternate (agentId : Str) :
      ((ofAgent agentId c.log).foldlM Announcement.next none).isSome = true := by
    rw [h.opened]
    rfl
  refine ⟨h.once, fun before after agentId heq => ?_, halternate⟩
  have hbefore := halternate agentId
  rw [heq, ofAgent_append] at hbefore
  obtain ⟨opened, hopened⟩ := Option.isSome_iff_exists.1 (isSome_foldlM_of_append hbefore)
  have hcount := count_of_foldlM_next hopened
  have hlength : opened.toList.length ≤ 1 := by cases opened <;> simp
  simp only [Option.toList, List.length_nil] at hcount hlength
  rw [started, reported]
  omega

theorem executedOnce_iff (h : Run (Step role) .init moves c) :
    ExecutedOnce c.log ↔ Run (FreshStep role) .init moves c := by
  constructor
  · have hgeneral : ∀ {c₀ : Swarm} {moves : List Move} {c : Swarm}, Run (Step role) c₀ moves c →
        Counts c₀ → ExecutedOnce c.log → Run (FreshStep role) c₀ moves c := by
      intro c₀ moves c hrun
      induction hrun with
      | nil => exact fun _ _ => .nil _
      | cons hstep hrest ih =>
        intro hcounts honce
        obtain ⟨sent, hsent⟩ := Run.log_append (fun hstep => hstep) hrest
        have hfresh := hstep.fresh hcounts (hsent ▸ honce).of_append
        exact .cons ⟨hstep, hfresh⟩ (ih (hstep.counts hcounts) honce)
    exact hgeneral h counts_init
  · intro hrun
    have hinvariant := hrun.invariant (I := fun c => Counts c ∧ InTurn c)
      (fun hc hstep => ⟨hstep.1.counts hc.1, hstep.inTurn hc.1 hc.2⟩) ⟨counts_init, inTurn_init⟩
    exact hinvariant.2.executedOnce

/-! ## A deployment -/

def deployment : Task := ⟨"task-1".toList, "deployment.deploy".toList, none⟩

def deploymentMessage : Message := ⟨some "publisher".toList, .newTask deployment⟩

def deploymentRole : Str → Str := fun _ => "deployment".toList

theorem executedOnce_deployment : ∃ moves c, Run (Step deploymentRole) .init moves c ∧
    ExecutedOnce c.log ∧ c.log = [.assigned "task-1".toList "a".toList,
      .complete "task-1".toList "a".toList] := by
  have hfresh : Run (FreshStep deploymentRole) .init [.publish deploymentMessage,
      .deliver "a".toList deploymentMessage, .finish "a".toList deployment true] _ :=
    .cons ⟨.publish deploymentMessage, trivial⟩ <|
    .cons ⟨.deliver (List.mem_singleton_self _) rfl, fun _ _ => ⟨rfl, List.not_mem_nil⟩⟩ <|
    .cons ⟨.finish (by decide) (by decide) (by decide), trivial⟩ <|
    .nil _
  have hrun := hfresh.mono fun hstep => hstep.1
  exact ⟨_, _, hrun, (executedOnce_iff hrun).2 hfresh, by decide⟩

/-- Two agents that get a task both execute it. -/
theorem deployed_twice : ∃ moves c, Run (Step deploymentRole) .init moves c ∧
    c.log = [.assigned "task-1".toList "a".toList, .assigned "task-1".toList "b".toList] ∧
    ¬ExecutedOnce c.log := by
  have hrun : Run (Step deploymentRole) .init [.publish deploymentMessage,
      .deliver "a".toList deploymentMessage, .deliver "b".toList deploymentMessage] _ :=
    .cons (.publish deploymentMessage) <|
    .cons (.deliver (List.mem_singleton_self _) rfl) <|
    .cons (.deliver List.mem_cons_self (by decide)) <|
    .nil _
  exact ⟨_, _, hrun, by decide, fun h => absurd h.once (by decide)⟩

end Runs

end SheriMl.Mqtt
