import Mathlib.Data.Char
import Mathlib.Data.List.AList
import Mathlib.Data.List.Lex
import Mathlib.Logic.Function.Basic
import SheriMl.Lib.Str

/-!
# The event stream of `exec --json`

`EventProcessorWithJsonOutput::collect_thread_events` of
`exec/src/event_processor_with_jsonl_output.rs`. Calls of each kind are kept in a map of their own,
from their begin to their end; of these maps only that of the commands is emptied with the turn.
-/

namespace SheriMl.Exec

universe u

/-! ## Core events -/

inductive AgentStatus where
  | pendingInit
  | running
  | completed (message : Option Str)
  | errored (message : Str)
  | shutdown
  | notFound

inductive WebSearchAction where
  | search (query : Option Str) (queries : Option (List Str))
  | openPage (url : Option Str)
  | findInPage (url pattern : Option Str)
  | other

inductive FileChange where
  | add
  | delete
  | update

inductive StepStatus where
  | pending
  | inProgress
  | completed
  deriving DecidableEq

structure TokenUsage where
  inputTokens : Int
  cachedInputTokens : Int
  outputTokens : Int

/-- `ν`: JSON values. -/
structure McpInvocation (ν : Type u) where
  server : Str
  tool : Str
  arguments : Option ν

structure CallToolResult (ν : Type u) where
  content : List ν
  structuredContent : Option ν
  isError : Option Bool

inductive EventMsg (ν : Type u) where
  | sessionConfigured (sessionId : Str)
  | agentMessage (message : Str)
  /-- `ItemCompleted` of a plan -/
  | planCompleted (text : Str)
  | agentReasoning (text : Str)
  | execCommandBegin (callId : Str) (command : List Str)
  | execCommandEnd (callId aggregatedOutput : Str) (exitCode : Int)
  | mcpToolCallBegin (callId : Str) (invocation : McpInvocation ν)
  | mcpToolCallEnd (callId : Str) (invocation : McpInvocation ν)
      (result : Except Str (CallToolResult ν))
  | collabAgentSpawnBegin (callId senderThreadId prompt : Str)
  | collabAgentSpawnEnd (callId senderThreadId : Str) (newThreadId : Option Str) (prompt : Str)
      (status : AgentStatus)
  | collabAgentInteractionBegin (callId senderThreadId receiverThreadId prompt : Str)
  | collabAgentInteractionEnd (callId senderThreadId receiverThreadId prompt : Str)
      (status : AgentStatus)
  | collabWaitingBegin (callId senderThreadId : Str) (receiverThreadIds : List Str)
  | collabWaitingEnd (callId senderThreadId : Str) (statuses : List (Str × AgentStatus))
  | collabCloseBegin (callId senderThreadId receiverThreadId : Str)
  | collabCloseEnd (callId senderThreadId receiverThreadId : Str) (status : AgentStatus)
  /-- a path that is no UTF-8 is `none` -/
  | patchApplyBegin (callId : Str) (changes : List (Option Str × FileChange))
  | patchApplyEnd (callId : Str) (success : Bool)
  | webSearchBegin (callId : Str)
  | webSearchEnd (callId query : Str) (action : WebSearchAction)
  | tokenCount (totalTokenUsage : Option TokenUsage)
  | turnStarted
  | turnComplete
  | error (message : Str)
  | warning (message : Str)
  | streamError (message : Str) (additionalDetails : Option Str)
  | planUpdate (plan : List (Str × StepStatus))
  /-- an event that nothing is done for -/
  | other

/-! ## Thread events -/

inductive CommandExecutionStatus where
  | inProgress
  | completed
  | failed

inductive CallStatus where
  | inProgress
  | completed
  | failed

inductive CollabTool where
  | spawnAgent
  | sendInput
  | wait
  | closeAgent

inductive CollabAgentStatus where
  | pendingInit
  | running
  | completed
  | errored
  | shutdown
  | notFound

structure CollabAgentState where
  status : CollabAgentStatus
  message : Option Str

inductive PatchChangeKind where
  | add
  | delete
  | update

structure TodoItem where
  text : Str
  completed : Bool

structure McpToolCallItemResult (ν : Type u) where
  content : List ν
  structuredContent : Option ν

inductive ThreadItemDetails (ν : Type u) where
  | agentMessage (text : Str)
  | reasoning (text : Str)
  | commandExecution (command aggregatedOutput : Str) (exitCode : Option Int)
      (status : CommandExecutionStatus)
  | fileChange (changes : List (Str × PatchChangeKind)) (status : CallStatus)
  | mcpToolCall (server tool : Str) (arguments : ν) (result : Option (McpToolCallItemResult ν))
      (error : Option Str) (status : CallStatus)
  | collabToolCall (tool : CollabTool) (senderThreadId : Str) (receiverThreadIds : List Str)
      (prompt : Option Str) (agentsStates : List (Str × CollabAgentState)) (status : CallStatus)
  | webSearch (id query : Str) (action : WebSearchAction)
  | todoList (items : List TodoItem)
  | error (message : Str)

structure ThreadItem (ν : Type u) where
  id : Str
  details : ThreadItemDetails ν

inductive ThreadEvent (ν : Type u) where
  | threadStarted (threadId : Str)
  | turnStarted
  | turnCompleted (usage : TokenUsage)
  | turnFailed (error : Str)
  | itemStarted (item : ThreadItem ν)
  | itemUpdated (item : ThreadItem ν)
  | itemCompleted (item : ThreadItem ν)
  | error (message : Str)

/-! ## The processor -/

structure RunningCommand where
  command : Str
  itemId : Str
  aggregatedOutput : Str

structure RunningTodoList where
  itemId : Str
  items : List TodoItem

structure RunningMcpToolCall (ν : Type u) where
  server : Str
  tool : Str
  itemId : Str
  arguments : ν

structure RunningCollabToolCall where
  tool : CollabTool
  itemId : Str

/-- What the source takes from elsewhere. -/
structure Env (ν : Type u) where
  null : ν
  /-- `shlex::try_join`, which fails on a nul byte -/
  shlexTryJoin : List Str → Option Str
  /-- the order of `HashMap::drain` -/
  drain : List (Σ _ : Str, RunningCommand) → List (Σ _ : Str, RunningCommand)
  drain_perm : ∀ running, (drain running).Perm running

structure EventProcessorWithJsonOutput (ν : Type u) where
  lastProposedPlan : Option Str
  nextEventId : Nat
  runningCommands : AList fun _ : Str => RunningCommand
  runningPatchApplies : Str → Option (List (Option Str × FileChange))
  runningTodoList : Option RunningTodoList
  lastTotalTokenUsage : Option TokenUsage
  runningMcpToolCalls : Str → Option (RunningMcpToolCall ν)
  runningCollabToolCalls : Str → Option RunningCollabToolCall
  runningWebSearchCalls : Str → Option Str
  lastCriticalError : Option Str

/-- `get_next_item_id`, of a counter. -/
def itemId (n : Nat) : Str := ("item_" : Str) ++ Nat.toDigits 10 n

def isCollabFailure : AgentStatus → Bool
  | .errored _ | .notFound => true
  | _ => false

/-- `From<CoreAgentStatus> for CollabAgentState`. -/
def CollabAgentState.ofStatus : AgentStatus → CollabAgentState
  | .pendingInit => ⟨.pendingInit, none⟩
  | .running => ⟨.running, none⟩
  | .completed message => ⟨.completed, message⟩
  | .errored message => ⟨.errored, some message⟩
  | .shutdown => ⟨.shutdown, none⟩
  | .notFound => ⟨.notFound, none⟩

def mapChangeKind : FileChange → PatchChangeKind
  | .add => .add
  | .delete => .delete
  | .update => .update

def todoItemsFromPlan (plan : List (Str × StepStatus)) : List TodoItem :=
  plan.map fun step => ⟨step.1, step.2 = .completed⟩

namespace EventProcessorWithJsonOutput

variable {ν : Type u}

def new : EventProcessorWithJsonOutput ν where
  lastProposedPlan := none
  nextEventId := 0
  runningCommands := ∅
  runningPatchApplies := fun _ => none
  runningTodoList := none
  lastTotalTokenUsage := none
  runningMcpToolCalls := fun _ => none
  runningCollabToolCalls := fun _ => none
  runningWebSearchCalls := fun _ => none
  lastCriticalError := none

/-- The processor afterwards, and the thread events. -/
abbrev Collected (ν : Type u) := EventProcessorWithJsonOutput ν × List (ThreadEvent ν)

variable (env : Env ν) (s : EventProcessorWithJsonOutput ν)

def takeItemId : EventProcessorWithJsonOutput ν := { s with nextEventId := s.nextEventId + 1 }

/-- An item that is reported at its completion only. -/
def completeNew (details : ThreadItemDetails ν) : Collected ν :=
  (s.takeItemId, [.itemCompleted ⟨itemId s.nextEventId, details⟩])

def handleAgentMessage (message : Str) : Collected ν := s.completeNew (.agentMessage message)

def handleReasoningEvent (text : Str) : Collected ν := s.completeNew (.reasoning text)

def handleWarning (message : Str) : Collected ν := s.completeNew (.error message)

/-! ### Web searches -/

def handleWebSearchBegin (callId : Str) : Collected ν :=
  if (s.runningWebSearchCalls callId).isSome then (s, [])
  else
    let itemId := itemId s.nextEventId
    ({ s.takeItemId with
       runningWebSearchCalls := Function.update s.runningWebSearchCalls callId (some itemId) },
      [.itemStarted ⟨itemId, .webSearch callId [] .other⟩])

def handleWebSearchEnd (callId query : Str) (action : WebSearchAction) : Collected ν :=
  let removed := { s with
    runningWebSearchCalls := Function.update s.runningWebSearchCalls callId none }
  let (s, itemId) :=
    match s.runningWebSearchCalls callId with
    | some itemId => (removed, itemId)
    | none => (removed.takeItemId, itemId s.nextEventId)
  (s, [.itemCompleted ⟨itemId, .webSearch callId query action⟩])

/-! ### Commands -/

def handleExecCommandBegin (callId : Str) (command : List Str) : Collected ν :=
  let itemId := itemId s.nextEventId
  let commandString := (env.shlexTryJoin command).getD (Str.join " " command)
  ({ s.takeItemId with
     runningCommands := s.runningCommands.insert callId ⟨commandString, itemId, []⟩ },
    [.itemStarted ⟨itemId, .commandExecution commandString [] none .inProgress⟩])

def handleExecCommandEnd (callId aggregatedOutput : Str) (exitCode : Int) : Collected ν :=
  match s.runningCommands.lookup callId with
  | some running =>
    let status := if exitCode = 0 then .completed else .failed
    let output := if aggregatedOutput.isEmpty then running.aggregatedOutput else aggregatedOutput
    ({ s with runningCommands := s.runningCommands.erase callId },
      [.itemCompleted ⟨running.itemId,
        .commandExecution running.command output (some exitCode) status⟩])
  | none => (s, [])

/-! ### MCP tool calls -/

def handleMcpToolCallBegin (callId : Str) (invocation : McpInvocation ν) : Collected ν :=
  let itemId := itemId s.nextEventId
  let arguments := invocation.arguments.getD env.null
  ({ s.takeItemId with
     runningMcpToolCalls := Function.update s.runningMcpToolCalls callId
       (some ⟨invocation.server, invocation.tool, itemId, arguments⟩) },
    [.itemStarted ⟨itemId,
      .mcpToolCall invocation.server invocation.tool arguments none none .inProgress⟩])

/-- `McpToolCallEndEvent::is_success`. -/
def isSuccess : Except Str (CallToolResult ν) → Bool
  | .ok result => !result.isError.getD false
  | .error _ => false

def handleMcpToolCallEnd (callId : Str) (invocation : McpInvocation ν)
    (result : Except Str (CallToolResult ν)) : Collected ν :=
  let status := if isSuccess result then .completed else .failed
  let removed := { s with
    runningMcpToolCalls := Function.update s.runningMcpToolCalls callId none }
  let (s, running) :=
    match s.runningMcpToolCalls callId with
    | some running => (removed, running)
    | none =>
      (removed.takeItemId, ⟨invocation.server, invocation.tool, itemId s.nextEventId,
        invocation.arguments.getD env.null⟩)
  let (result, error) :=
    match result with
    | .ok value => (some ⟨value.content, value.structuredContent⟩, none)
    | .error message => (none, some message)
  (s, [.itemCompleted ⟨running.itemId,
    .mcpToolCall running.server running.tool running.arguments result error status⟩])

/-! ### Collab tool calls -/

def startCollabToolCall (callId : Str) (tool : CollabTool) (senderThreadId : Str)
    (receiverThreadIds : List Str) (prompt : Option Str) : Collected ν :=
  let itemId := itemId s.nextEventId
  ({ s.takeItemId with
     runningCollabToolCalls := Function.update s.runningCollabToolCalls callId
       (some ⟨tool, itemId⟩) },
    [.itemStarted ⟨itemId,
      .collabToolCall tool senderThreadId receiverThreadIds prompt [] .inProgress⟩])

def finishCollabToolCall (callId : Str) (tool : CollabTool) (senderThreadId : Str)
    (receiverThreadIds : List Str) (prompt : Option Str)
    (agentsStates : List (Str × CollabAgentState)) (status : CallStatus) : Collected ν :=
  let removed := { s with
    runningCollabToolCalls := Function.update s.runningCollabToolCalls callId none }
  let (s, running) :=
    match s.runningCollabToolCalls callId with
    | some running => (removed, running)
    | none => (removed.takeItemId, ⟨tool, itemId s.nextEventId⟩)
  (s, [.itemCompleted ⟨running.itemId, .collabToolCall running.tool senderThreadId
    receiverThreadIds prompt agentsStates status⟩])

def handleCollabSpawnBegin (callId senderThreadId prompt : Str) : Collected ν :=
  s.startCollabToolCall callId .spawnAgent senderThreadId [] (some prompt)

def handleCollabSpawnEnd (callId senderThreadId : Str) (newThreadId : Option Str) (prompt : Str)
    (status : AgentStatus) : Collected ν :=
  s.finishCollabToolCall callId .spawnAgent senderThreadId newThreadId.toList (some prompt)
    (newThreadId.toList.map fun receiverId => (receiverId, .ofStatus status))
    (if newThreadId.isSome && !isCollabFailure status then .completed else .failed)

def handleCollabInteractionBegin (callId senderThreadId receiverThreadId prompt : Str) :
    Collected ν :=
  s.startCollabToolCall callId .sendInput senderThreadId [receiverThreadId] (some prompt)

def handleCollabInteractionEnd (callId senderThreadId receiverThreadId prompt : Str)
    (status : AgentStatus) : Collected ν :=
  s.finishCollabToolCall callId .sendInput senderThreadId [receiverThreadId] (some prompt)
    [(receiverThreadId, .ofStatus status)] (if isCollabFailure status then .failed else .completed)

def handleCollabWaitBegin (callId senderThreadId : Str) (receiverThreadIds : List Str) :
    Collected ν :=
  s.startCollabToolCall callId .wait senderThreadId receiverThreadIds none

def handleCollabWaitEnd (callId senderThreadId : Str) (statuses : List (Str × AgentStatus)) :
    Collected ν :=
  s.finishCollabToolCall callId .wait senderThreadId
    ((statuses.map Prod.fst).mergeSort fun a b => decide (a ≤ b)) none
    (statuses.map fun entry => (entry.1, .ofStatus entry.2))
    (if statuses.any fun entry => isCollabFailure entry.2 then .failed else .completed)

def handleCollabCloseBegin (callId senderThreadId receiverThreadId : Str) : Collected ν :=
  s.startCollabToolCall callId .closeAgent senderThreadId [receiverThreadId] none

def handleCollabCloseEnd (callId senderThreadId receiverThreadId : Str) (status : AgentStatus) :
    Collected ν :=
  s.finishCollabToolCall callId .closeAgent senderThreadId [receiverThreadId] none
    [(receiverThreadId, .ofStatus status)] (if isCollabFailure status then .failed else .completed)

/-! ### Patches -/

def handlePatchApplyBegin (callId : Str) (changes : List (Option Str × FileChange)) : Collected ν :=
  ({ s with
     runningPatchApplies := Function.update s.runningPatchApplies callId (some changes) }, [])

def handlePatchApplyEnd (callId : Str) (success : Bool) : Collected ν :=
  match s.runningPatchApplies callId with
  | some changes =>
    let s := { s with
      runningPatchApplies := Function.update s.runningPatchApplies callId none }
    s.completeNew (.fileChange
      (changes.map fun (path, change) => (path.getD [], mapChangeKind change))
      (if success then .completed else .failed))
  | none => (s, [])

/-! ### Turns -/

def handlePlanUpdate (plan : List (Str × StepStatus)) : Collected ν :=
  let items := todoItemsFromPlan plan
  match s.runningTodoList with
  | some running =>
    ({ s with runningTodoList := some { running with items := items } },
      [.itemUpdated ⟨running.itemId, .todoList items⟩])
  | none =>
    let itemId := itemId s.nextEventId
    ({ s.takeItemId with runningTodoList := some ⟨itemId, items⟩ },
      [.itemStarted ⟨itemId, .todoList items⟩])

def handleTaskStarted : Collected ν := ({ s with lastCriticalError := none }, [.turnStarted])

/-- The last event of a turn, which failed if there was an error. -/
def turnEnded (usage : TokenUsage) : Option Str → ThreadEvent ν
  | some error => .turnFailed error
  | none => .turnCompleted usage

def handleTaskComplete : Collected ν :=
  let usage := s.lastTotalTokenUsage.getD ⟨0, 0, 0⟩
  let todoItems := s.runningTodoList.toList.map fun running =>
    .itemCompleted ⟨running.itemId, .todoList running.items⟩
  let commandItems := (env.drain s.runningCommands.entries).map fun running =>
    .itemCompleted ⟨running.2.itemId, .commandExecution running.2.command
      running.2.aggregatedOutput none .completed⟩
  ({ s with runningTodoList := none, runningCommands := ∅, lastCriticalError := none },
    todoItems ++ commandItems ++ [turnEnded usage s.lastCriticalError])

def handleStreamError (message : Str) (additionalDetails : Option Str) : Collected ν :=
  let message :=
    match additionalDetails with
    | some details =>
      if (Str.trim details).isEmpty then message
      else message ++ (" (" : Str) ++ details ++ (")" : Str)
    | none => message
  (s, [.error message])

def collectThreadEvents : EventMsg ν → Collected ν
  | .sessionConfigured sessionId => (s, [.threadStarted sessionId])
  | .agentMessage message => s.handleAgentMessage message
  | .planCompleted text => ({ s with lastProposedPlan := some text }, [])
  | .agentReasoning text => s.handleReasoningEvent text
  | .execCommandBegin callId command => s.handleExecCommandBegin env callId command
  | .execCommandEnd callId output exitCode => s.handleExecCommandEnd callId output exitCode
  | .mcpToolCallBegin callId invocation => s.handleMcpToolCallBegin env callId invocation
  | .mcpToolCallEnd callId invocation result =>
    s.handleMcpToolCallEnd env callId invocation result
  | .collabAgentSpawnBegin callId sender prompt => s.handleCollabSpawnBegin callId sender prompt
  | .collabAgentSpawnEnd callId sender newThreadId prompt status =>
    s.handleCollabSpawnEnd callId sender newThreadId prompt status
  | .collabAgentInteractionBegin callId sender receiver prompt =>
    s.handleCollabInteractionBegin callId sender receiver prompt
  | .collabAgentInteractionEnd callId sender receiver prompt status =>
    s.handleCollabInteractionEnd callId sender receiver prompt status
  | .collabWaitingBegin callId sender receivers => s.handleCollabWaitBegin callId sender receivers
  | .collabWaitingEnd callId sender statuses => s.handleCollabWaitEnd callId sender statuses
  | .collabCloseBegin callId sender receiver => s.handleCollabCloseBegin callId sender receiver
  | .collabCloseEnd callId sender receiver status =>
    s.handleCollabCloseEnd callId sender receiver status
  | .patchApplyBegin callId changes => s.handlePatchApplyBegin callId changes
  | .patchApplyEnd callId success => s.handlePatchApplyEnd callId success
  | .webSearchBegin callId => s.handleWebSearchBegin callId
  | .webSearchEnd callId query action => s.handleWebSearchEnd callId query action
  | .tokenCount usage => ({ s with lastTotalTokenUsage := usage <|> s.lastTotalTokenUsage }, [])
  | .turnStarted => s.handleTaskStarted
  | .turnComplete => s.handleTaskComplete env
  | .error message => ({ s with lastCriticalError := some message }, [.error message])
  | .warning message => s.handleWarning message
  | .streamError message additionalDetails => s.handleStreamError message additionalDetails
  | .planUpdate plan => s.handlePlanUpdate plan
  | .other => (s, [])

def after (events : List (EventMsg ν)) : EventProcessorWithJsonOutput ν :=
  events.foldl (fun s event => (s.collectThreadEvents env event).1) s

def collectAll : List (EventMsg ν) → EventProcessorWithJsonOutput ν → List (ThreadEvent ν)
  | [], _ => []
  | event :: events, s =>
    let collected := s.collectThreadEvents env event
    collected.2 ++ collectAll events collected.1

end EventProcessorWithJsonOutput

end SheriMl.Exec
