import SheriMl.Exec.JsonlOutput
import SheriMl.Lib.ItemLog
import SheriMl.Lib.Numeral

/-!
# The items of the event stream

The stream is a log of items, and the maps of the processor are its slots. Every event but the end of
a turn writes one entry at most (`collect_outcome`). `itemLifecycle_iff`: the items are told of as they
should be if and only if no turn ends with an MCP tool call, a collab tool call or a web search open.
-/

namespace SheriMl.Exec

open ItemLog

universe u

variable {ν : Type u}

/-! ## Items -/

/-- What an item is about, and stays about. -/
inductive Subject (ν : Type u) where
  | agentMessage
  | reasoning
  | commandExecution (command : Str)
  | fileChange
  | mcpToolCall (server tool : Str) (arguments : ν)
  | collabToolCall (tool : CollabTool)
  | webSearch (id : Str)
  | todoList
  | error

def ThreadItemDetails.subject : ThreadItemDetails ν → Subject ν
  | .agentMessage _ => .agentMessage
  | .reasoning _ => .reasoning
  | .commandExecution command _ _ _ => .commandExecution command
  | .fileChange _ _ => .fileChange
  | .mcpToolCall server tool arguments _ _ _ => .mcpToolCall server tool arguments
  | .collabToolCall tool _ _ _ _ _ => .collabToolCall tool
  | .webSearch id _ _ => .webSearch id
  | .todoList _ => .todoList
  | .error _ => .error

/-- An item is known by its id. -/
abbrev Item (ν : Type u) := Str × Subject ν

def ThreadItem.told (item : ThreadItem ν) : Item ν := (item.id, item.details.subject)

/-- The end of a turn is a barrier. -/
def ThreadEvent.entry? : ThreadEvent ν → Option (Entry (Item ν))
  | .itemStarted item => some (.started item.told)
  | .itemUpdated item => some (.updated item.told)
  | .itemCompleted item => some (.completed item.told)
  | .turnCompleted _ | .turnFailed _ => some .barrier
  | .threadStarted _ | .turnStarted | .error _ => none

def entries (sent : List (ThreadEvent ν)) : List (Entry (Item ν)) :=
  sent.filterMap ThreadEvent.entry?

theorem entries_append (sent sent' : List (ThreadEvent ν)) :
    entries (sent ++ sent') = entries sent ++ entries sent' := List.filterMap_append ..

/-! ## Calls -/

inductive CallKind where
  | command
  | mcpToolCall
  | collabToolCall
  | patchApply
  | webSearch
  deriving DecidableEq

structure Call where
  kind : CallKind
  callId : Str
  deriving DecidableEq

namespace EventMsg

def begins? : EventMsg ν → Option Call
  | .execCommandBegin callId _ => some ⟨.command, callId⟩
  | .mcpToolCallBegin callId _ => some ⟨.mcpToolCall, callId⟩
  | .collabAgentSpawnBegin callId _ _ | .collabAgentInteractionBegin callId _ _ _
  | .collabWaitingBegin callId _ _ | .collabCloseBegin callId _ _ =>
    some ⟨.collabToolCall, callId⟩
  | .patchApplyBegin callId _ => some ⟨.patchApply, callId⟩
  | .webSearchBegin callId => some ⟨.webSearch, callId⟩
  | _ => none

def ends? : EventMsg ν → Option Call
  | .execCommandEnd callId _ _ => some ⟨.command, callId⟩
  | .mcpToolCallEnd callId _ _ => some ⟨.mcpToolCall, callId⟩
  | .collabAgentSpawnEnd callId _ _ _ _ | .collabAgentInteractionEnd callId _ _ _ _
  | .collabWaitingEnd callId _ _ | .collabCloseEnd callId _ _ _ => some ⟨.collabToolCall, callId⟩
  | .patchApplyEnd callId _ => some ⟨.patchApply, callId⟩
  | .webSearchEnd callId _ _ => some ⟨.webSearch, callId⟩
  | _ => none

def isTurnComplete : EventMsg ν → Bool
  | .turnComplete => true
  | _ => false

theorem isTurnComplete_iff {event : EventMsg ν} :
    event.isTurnComplete = true ↔ event = .turnComplete := by
  cases event <;> simp [isTurnComplete]

end EventMsg

/-- The calls that are open after an event: a call is open until it ends or its turn does. -/
def openAfter (calls : List Call) (event : EventMsg ν) : List Call :=
  if event.isTurnComplete then []
  else event.begins?.toList ++ calls.filter fun call => event.ends? ≠ some call

def openCalls (events : List (EventMsg ν)) : List Call := events.foldl openAfter []

/-- Calls that are open at the same time have distinct ids. -/
def DistinctCalls (events : List (EventMsg ν)) : Prop :=
  ∀ before event after, events = before ++ event :: after →
    ∀ call, event.begins? = some call → call ∉ openCalls before

/-- No turn ends with a call open of a kind that is not completed with the turn. -/
def ClosedAtTurnEnds (events : List (EventMsg ν)) : Prop :=
  ∀ before after, events = before ++ .turnComplete :: after →
    ∀ call ∈ openCalls before, call.kind = .command ∨ call.kind = .patchApply

section OpenCalls

variable {events : List (EventMsg ν)} {event : EventMsg ν} {call : Call}

theorem openCalls_concat : openCalls (events ++ [event]) = openAfter (openCalls events) event := by
  rw [openCalls, List.foldl_append]
  rfl

theorem mem_openCalls_concat : call ∈ openCalls (events ++ [event]) ↔
    event.isTurnComplete = false ∧
      (event.begins? = some call ∨ call ∈ openCalls events ∧ event.ends? ≠ some call) := by
  rw [openCalls_concat, openAfter]
  cases event.isTurnComplete <;> simp

/-- What holds at each place of a list with one more event holds at each of the list, and of it. -/
theorem forall_split_concat {p : List (EventMsg ν) → EventMsg ν → Prop} :
    (∀ before e after, events ++ [event] = before ++ e :: after → p before e) ↔
      (∀ before e after, events = before ++ e :: after → p before e) ∧ p events event := by
  constructor
  · intro h
    refine ⟨fun before e after heq => ?_, h events event [] rfl⟩
    exact h before e (after ++ [event]) (by rw [heq, List.append_assoc, List.cons_append])
  · rintro ⟨h, hlast⟩ before e after heq
    rcases List.eq_nil_or_concat after with rfl | ⟨after, last, rfl⟩
    · obtain ⟨rfl, hevent⟩ := List.append_inj' heq rfl
      obtain rfl := (List.cons.inj hevent).1
      exact hlast
    · rw [List.concat_eq_append, ← List.cons_append, ← List.append_assoc] at heq
      exact h before e after (List.append_inj' heq rfl).1

theorem distinctCalls_concat : DistinctCalls (events ++ [event]) ↔
    DistinctCalls events ∧ ∀ call, event.begins? = some call → call ∉ openCalls events :=
  forall_split_concat (p := fun before e => ∀ call, e.begins? = some call → call ∉ openCalls before)

theorem closedAtTurnEnds_iff : ClosedAtTurnEnds events ↔
    ∀ before e after, events = before ++ e :: after → e = .turnComplete →
      ∀ call ∈ openCalls before, call.kind = .command ∨ call.kind = .patchApply :=
  ⟨fun h before _ after heq he => h before after (he ▸ heq),
    fun h before after heq => h before _ after heq rfl⟩

theorem closedAtTurnEnds_concat : ClosedAtTurnEnds (events ++ [event]) ↔
    ClosedAtTurnEnds events ∧ (event = .turnComplete →
      ∀ call ∈ openCalls events, call.kind = .command ∨ call.kind = .patchApply) := by
  rw [closedAtTurnEnds_iff, closedAtTurnEnds_iff]
  exact forall_split_concat (p := fun before e => e = .turnComplete →
    ∀ call ∈ openCalls before, call.kind = .command ∨ call.kind = .patchApply)

theorem forall_split_iff {p : List (EventMsg ν) → EventMsg ν → Prop} :
    (∀ before e after, events = before ++ e :: after → p before e) ↔
      ∀ i : Fin events.length, p (events.take i) (events.get i) := by
  constructor
  · intro h i
    refine h _ _ (events.drop (i + 1)) ?_
    rw [List.get_eq_getElem, ← List.drop_eq_getElem_cons, List.take_append_drop]
  · rintro h before e after rfl
    simpa using h ⟨before.length, by simp⟩

instance (events : List (EventMsg ν)) : Decidable (DistinctCalls events) :=
  decidable_of_iff (∀ i : Fin events.length, ∀ call ∈ (events.get i).begins?,
      call ∉ openCalls (events.take i))
    (forall_split_iff (p := fun before e => ∀ call, e.begins? = some call →
      call ∉ openCalls before)).symm

instance (events : List (EventMsg ν)) : Decidable (ClosedAtTurnEnds events) :=
  decidable_of_iff (∀ i : Fin events.length, (events.get i).isTurnComplete = true →
      ∀ call ∈ openCalls (events.take i), call.kind = .command ∨ call.kind = .patchApply) <| by
    rw [closedAtTurnEnds_iff, forall_split_iff (p := fun before e => e = .turnComplete →
      ∀ call ∈ openCalls before, call.kind = .command ∨ call.kind = .patchApply)]
    simp only [EventMsg.isTurnComplete_iff]

end OpenCalls

/-! ## The maps as slots -/

inductive Slot where
  | call (call : Call)
  | todoList
  deriving DecidableEq

namespace EventProcessorWithJsonOutput

variable (env : Env ν) (s : EventProcessorWithJsonOutput ν)

def heldCall (callId : Str) : CallKind → Option (Item ν)
  | .command => (s.runningCommands.lookup callId).map fun running =>
    (running.itemId, .commandExecution running.command)
  | .mcpToolCall => (s.runningMcpToolCalls callId).map fun running =>
    (running.itemId, .mcpToolCall running.server running.tool running.arguments)
  | .collabToolCall => (s.runningCollabToolCalls callId).map fun running =>
    (running.itemId, .collabToolCall running.tool)
  | .webSearch => (s.runningWebSearchCalls callId).map fun itemId => (itemId, .webSearch callId)
  | .patchApply => none

def held : Slot → Option (Item ν)
  | .call call => s.heldCall call.callId call.kind
  | .todoList => s.runningTodoList.map fun running => (running.itemId, .todoList)

/-- What collecting one event can do, unless it ends the turn. -/
inductive Outcome (event : EventMsg ν) : Collected ν → Prop
  | quiet {s' : EventProcessorWithJsonOutput ν} {sent : List (ThreadEvent ν)}
      (held : s'.held = s.held) (next : s'.nextEventId = s.nextEventId) (sent_eq : entries sent = [])
      (begins : ∀ call, event.begins? = some call →
        call.kind = .patchApply ∨ s.held (.call call) ≠ none)
      (ends : ∀ call, event.ends? = some call → s.held (.call call) = none) :
      Outcome event (s', sent)
  | once {s' : EventProcessorWithJsonOutput ν} {sent : List (ThreadEvent ν)} (subject : Subject ν)
      (held : s'.held = s.held) (next : s'.nextEventId = s.nextEventId + 1)
      (sent_eq : entries sent = [.completed (itemId s.nextEventId, subject)])
      (begins : event.begins? = none)
      (ends : ∀ call, event.ends? = some call → s.held (.call call) = none) :
      Outcome event (s', sent)
  | start {s' : EventProcessorWithJsonOutput ν} {sent : List (ThreadEvent ν)} (slot : Slot)
      (subject : Subject ν)
      (held : s'.held = Function.update s.held slot (some (itemId s.nextEventId, subject)))
      (next : s'.nextEventId = s.nextEventId + 1)
      (sent_eq : entries sent = [.started (itemId s.nextEventId, subject)])
      (begins : slot = .todoList ∧ s.held slot = none ∧ event.begins? = none ∨
        ∃ call, slot = .call call ∧ event.begins? = some call)
      (ends : event.ends? = none) : Outcome event (s', sent)
  | update {s' : EventProcessorWithJsonOutput ν} {sent : List (ThreadEvent ν)} (slot : Slot)
      (item : Item ν) (held : s'.held = s.held) (next : s'.nextEventId = s.nextEventId)
      (held_item : s.held slot = some item) (sent_eq : entries sent = [.updated item])
      (begins : event.begins? = none) (ends : event.ends? = none) : Outcome event (s', sent)
  | finish {s' : EventProcessorWithJsonOutput ν} {sent : List (ThreadEvent ν)} (call : Call)
      (item : Item ν) (held : s'.held = Function.update s.held (.call call) none)
      (next : s'.nextEventId = s.nextEventId) (held_item : s.held (.call call) = some item)
      (sent_eq : entries sent = [.completed item]) (begins : event.begins? = none)
      (ends : event.ends? = some call) : Outcome event (s', sent)

section Held

variable {s}

theorem held_webSearch (callId : Str) (running : Option Str) :
    held { s with runningWebSearchCalls := Function.update s.runningWebSearchCalls callId running } =
      Function.update s.held (.call ⟨.webSearch, callId⟩)
        (running.map fun itemId => (itemId, .webSearch callId)) := by
  refine Function.eq_update_iff.2 ⟨by simp [held, heldCall], fun slot hslot => ?_⟩
  rcases slot with ⟨kind, callId'⟩ | _
  · cases kind with
    | webSearch =>
      have hne : callId' ≠ callId := fun heq => hslot (by rw [heq])
      simp [held, heldCall, Function.update_of_ne hne]
    | _ => rfl
  · rfl

theorem held_mcpToolCall (callId : Str) (running : Option (RunningMcpToolCall ν)) :
    held { s with runningMcpToolCalls := Function.update s.runningMcpToolCalls callId running } =
      Function.update s.held (.call ⟨.mcpToolCall, callId⟩) (running.map fun running =>
        (running.itemId, .mcpToolCall running.server running.tool running.arguments)) := by
  refine Function.eq_update_iff.2 ⟨by simp [held, heldCall], fun slot hslot => ?_⟩
  rcases slot with ⟨kind, callId'⟩ | _
  · cases kind with
    | mcpToolCall =>
      have hne : callId' ≠ callId := fun heq => hslot (by rw [heq])
      simp [held, heldCall, Function.update_of_ne hne]
    | _ => rfl
  · rfl

theorem held_collabToolCall (callId : Str) (running : Option RunningCollabToolCall) :
    held { s with
      runningCollabToolCalls := Function.update s.runningCollabToolCalls callId running } =
      Function.update s.held (.call ⟨.collabToolCall, callId⟩)
        (running.map fun running => (running.itemId, .collabToolCall running.tool)) := by
  refine Function.eq_update_iff.2 ⟨by simp [held, heldCall], fun slot hslot => ?_⟩
  rcases slot with ⟨kind, callId'⟩ | _
  · cases kind with
    | collabToolCall =>
      have hne : callId' ≠ callId := fun heq => hslot (by rw [heq])
      simp [held, heldCall, Function.update_of_ne hne]
    | _ => rfl
  · rfl

theorem held_commands (callId : Str) {running : AList fun _ : Str => RunningCommand}
    (hother : ∀ callId', callId' ≠ callId →
      running.lookup callId' = s.runningCommands.lookup callId') :
    held { s with runningCommands := running } =
      Function.update s.held (.call ⟨.command, callId⟩) ((running.lookup callId).map fun running =>
        (running.itemId, .commandExecution running.command)) := by
  refine Function.eq_update_iff.2 ⟨rfl, fun slot hslot => ?_⟩
  rcases slot with ⟨kind, callId'⟩ | _
  · cases kind with
    | command =>
      have hne : callId' ≠ callId := fun heq => hslot (by rw [heq])
      simp [held, heldCall, hother callId' hne]
    | _ => rfl
  · rfl

end Held

section Outcomes

variable {event : EventMsg ν} {callId : Str}

theorem completeNew_outcome (details : ThreadItemDetails ν) (hbegins : event.begins? = none)
    (hends : ∀ call, event.ends? = some call → s.held (.call call) = none) :
    s.Outcome event (s.completeNew details) :=
  .once details.subject rfl rfl rfl hbegins hends

theorem handleWebSearchBegin_outcome (callId : Str) :
    s.Outcome (.webSearchBegin callId) (s.handleWebSearchBegin callId) := by
  rw [handleWebSearchBegin]
  split
  next hrunning =>
    refine .quiet rfl rfl rfl (fun call hcall => .inr ?_) (fun call hcall => by cases hcall)
    obtain rfl := Option.some.inj hcall
    obtain ⟨itemId, hitem⟩ := Option.isSome_iff_exists.1 hrunning
    simp [held, heldCall, hitem]
  · exact .start _ (.webSearch callId) (held_webSearch (s := s.takeItemId) callId _) rfl rfl
      (.inr ⟨_, rfl, rfl⟩) rfl

theorem handleWebSearchEnd_outcome (callId query : Str) (action : WebSearchAction) :
    s.Outcome (.webSearchEnd callId query action) (s.handleWebSearchEnd callId query action) := by
  rw [handleWebSearchEnd]
  cases hrunning : s.runningWebSearchCalls callId with
  | some itemId =>
    exact .finish ⟨.webSearch, callId⟩ (itemId, .webSearch callId) (held_webSearch callId none) rfl
      (by simp [held, heldCall, hrunning]) rfl rfl rfl
  | none =>
    have hnone : s.held (.call ⟨.webSearch, callId⟩) = none := by simp [held, heldCall, hrunning]
    refine .once (.webSearch callId) ?_ rfl rfl rfl fun call hcall => ?_
    · exact (held_webSearch (s := s.takeItemId) callId none).trans
        (Function.update_eq_self_iff.2 hnone.symm)
    · obtain rfl := Option.some.inj hcall
      exact hnone

theorem handleMcpToolCallEnd_outcome (callId : Str) (invocation : McpInvocation ν)
    (result : Except Str (CallToolResult ν)) :
    s.Outcome (.mcpToolCallEnd callId invocation result)
      (s.handleMcpToolCallEnd env callId invocation result) := by
  unfold handleMcpToolCallEnd
  cases hrunning : s.runningMcpToolCalls callId with
  | some running =>
    have hheld : s.held (.call ⟨.mcpToolCall, callId⟩) =
        some (running.itemId, .mcpToolCall running.server running.tool running.arguments) := by
      simp [held, heldCall, hrunning]
    cases result <;>
      exact .finish ⟨.mcpToolCall, callId⟩ _ (held_mcpToolCall callId none) rfl hheld rfl rfl rfl
  | none =>
    have hnone : s.held (.call ⟨.mcpToolCall, callId⟩) = none := by simp [held, heldCall, hrunning]
    have hkept : held { s.takeItemId with
        runningMcpToolCalls := Function.update s.runningMcpToolCalls callId none } = s.held :=
      (held_mcpToolCall (s := s.takeItemId) callId none).trans
        (Function.update_eq_self_iff.2 hnone.symm)
    have hends (call : Call) (hcall : some (Call.mk .mcpToolCall callId) = some call) :
        s.held (.call call) = none := by
      obtain rfl := Option.some.inj hcall
      exact hnone
    cases result <;> exact .once _ hkept rfl rfl rfl hends

theorem startCollabToolCall_outcome (tool : CollabTool) (senderThreadId : Str)
    (receiverThreadIds : List Str) (prompt : Option Str)
    (hbegins : event.begins? = some ⟨.collabToolCall, callId⟩) (hends : event.ends? = none) :
    s.Outcome event (s.startCollabToolCall callId tool senderThreadId receiverThreadIds prompt) :=
  .start (.call ⟨.collabToolCall, callId⟩) (.collabToolCall tool)
    (held_collabToolCall (s := s.takeItemId) callId _) rfl rfl (.inr ⟨_, rfl, hbegins⟩) hends

theorem finishCollabToolCall_outcome (tool : CollabTool) (senderThreadId : Str)
    (receiverThreadIds : List Str) (prompt : Option Str)
    (agentsStates : List (Str × CollabAgentState)) (status : CallStatus)
    (hbegins : event.begins? = none) (hends : event.ends? = some ⟨.collabToolCall, callId⟩) :
    s.Outcome event (s.finishCollabToolCall callId tool senderThreadId receiverThreadIds prompt
      agentsStates status) := by
  rw [finishCollabToolCall]
  cases hrunning : s.runningCollabToolCalls callId with
  | some running =>
    exact .finish ⟨.collabToolCall, callId⟩ (running.itemId, .collabToolCall running.tool)
      (held_collabToolCall callId none) rfl (by simp [held, heldCall, hrunning]) rfl hbegins hends
  | none =>
    have hnone : s.held (.call ⟨.collabToolCall, callId⟩) = none := by
      simp [held, heldCall, hrunning]
    refine .once (.collabToolCall tool) ?_ rfl rfl hbegins fun call hcall => ?_
    · exact (held_collabToolCall (s := s.takeItemId) callId none).trans
        (Function.update_eq_self_iff.2 hnone.symm)
    · obtain rfl := Option.some.inj (hends.symm.trans hcall)
      exact hnone

theorem handleExecCommandBegin_outcome (callId : Str) (command : List Str) :
    s.Outcome (.execCommandBegin callId command) (s.handleExecCommandBegin env callId command) := by
  refine .start (.call ⟨.command, callId⟩) (.commandExecution _) ?_ rfl rfl
    (.inr ⟨_, rfl, rfl⟩) rfl
  refine (held_commands (s := s.takeItemId) callId fun callId' hne =>
    AList.lookup_insert_ne hne).trans ?_
  rw [AList.lookup_insert]
  rfl

theorem handleExecCommandEnd_outcome (callId output : Str) (exitCode : Int) :
    s.Outcome (.execCommandEnd callId output exitCode)
      (s.handleExecCommandEnd callId output exitCode) := by
  rw [handleExecCommandEnd]
  cases hrunning : s.runningCommands.lookup callId with
  | some running =>
    refine .finish ⟨.command, callId⟩ (running.itemId, .commandExecution running.command) ?_ rfl
      (by simp [held, heldCall, hrunning]) rfl rfl rfl
    refine (held_commands callId fun callId' hne => AList.lookup_erase_ne hne).trans ?_
    rw [AList.lookup_erase]
    rfl
  | none =>
    refine .quiet rfl rfl rfl (fun call hcall => by cases hcall) fun call hcall => ?_
    obtain rfl := Option.some.inj hcall
    simp [held, heldCall, hrunning]

theorem handlePatchApplyEnd_outcome (callId : Str) (success : Bool) :
    s.Outcome (.patchApplyEnd callId success) (s.handlePatchApplyEnd callId success) := by
  have hnone (call : Call)
      (hcall : (EventMsg.patchApplyEnd callId success : EventMsg ν).ends? = some call) :
      s.held (.call call) = none := by
    obtain rfl := Option.some.inj hcall
    rfl
  rw [handlePatchApplyEnd]
  split
  · exact .once .fileChange rfl rfl rfl rfl hnone
  · exact .quiet rfl rfl rfl (fun call hcall => by cases hcall) hnone

theorem handlePlanUpdate_outcome (plan : List (Str × StepStatus)) :
    s.Outcome (.planUpdate plan) (s.handlePlanUpdate plan) := by
  rw [handlePlanUpdate]
  cases hrunning : s.runningTodoList with
  | some running =>
    refine .update .todoList (running.itemId, .todoList) ?_ rfl (by simp [held, hrunning]) rfl rfl rfl
    funext slot
    cases slot with
    | call call => rfl
    | todoList => simp [held, hrunning]
  | none =>
    refine .start .todoList .todoList ?_ rfl rfl (.inl ⟨rfl, by simp [held, hrunning], rfl⟩) rfl
    refine Function.eq_update_iff.2 ⟨rfl, fun slot hslot => ?_⟩
    cases slot with
    | call call => rfl
    | todoList => exact absurd rfl hslot

theorem collect_outcome (hevent : event.isTurnComplete = false) :
    s.Outcome event (s.collectThreadEvents env event) := by
  cases event with
  | turnComplete => cases hevent
  | sessionConfigured | planCompleted | tokenCount | turnStarted | error | streamError | other =>
    exact .quiet rfl rfl rfl (fun call hcall => by cases hcall) fun call hcall => by cases hcall
  | agentMessage | agentReasoning | warning =>
    exact completeNew_outcome s _ rfl fun call hcall => by cases hcall
  | execCommandBegin callId command => exact s.handleExecCommandBegin_outcome env callId command
  | execCommandEnd callId output exitCode =>
    exact s.handleExecCommandEnd_outcome callId output exitCode
  | mcpToolCallBegin callId invocation =>
    exact .start (.call ⟨.mcpToolCall, callId⟩) _ (held_mcpToolCall (s := s.takeItemId) callId _)
      rfl rfl (.inr ⟨_, rfl, rfl⟩) rfl
  | mcpToolCallEnd callId invocation result =>
    exact s.handleMcpToolCallEnd_outcome env callId invocation result
  | collabAgentSpawnBegin | collabAgentInteractionBegin | collabWaitingBegin | collabCloseBegin =>
    exact s.startCollabToolCall_outcome _ _ _ _ rfl rfl
  | collabAgentSpawnEnd | collabAgentInteractionEnd | collabWaitingEnd | collabCloseEnd =>
    exact s.finishCollabToolCall_outcome _ _ _ _ _ _ rfl rfl
  | patchApplyBegin callId changes =>
    refine .quiet rfl rfl rfl (fun call hcall => .inl ?_) fun call hcall => by cases hcall
    obtain rfl := Option.some.inj hcall
    rfl
  | patchApplyEnd callId success => exact s.handlePatchApplyEnd_outcome callId success
  | webSearchBegin callId => exact s.handleWebSearchBegin_outcome callId
  | webSearchEnd callId query action => exact s.handleWebSearchEnd_outcome callId query action
  | planUpdate plan => exact s.handlePlanUpdate_outcome plan

end Outcomes

/-! ### The end of a turn -/

/-- The slots that are emptied with the turn, in the order of their completions. -/
def heldByTurn : List (Slot × Item ν) :=
  s.runningTodoList.toList.map (fun running => (.todoList, running.itemId, .todoList)) ++
    (env.drain s.runningCommands.entries).map fun running =>
      (.call ⟨.command, running.1⟩, running.2.itemId, .commandExecution running.2.command)

section TurnEnd

variable {env s}

theorem entries_taskComplete :
    entries (s.handleTaskComplete env).2 =
      (finishAll (s.heldByTurn env)).map Op.entry ++ [.barrier] := by
  have hlast (usage : TokenUsage) (error : Option Str) :
      entries [(turnEnded usage error : ThreadEvent ν)] = [.barrier] := by
    cases error <;> rfl
  have hcommands (running : List (Σ _ : Str, RunningCommand)) :
      entries (running.map fun running => (.itemCompleted ⟨running.2.itemId, .commandExecution
        running.2.command running.2.aggregatedOutput none .completed⟩ : ThreadEvent ν)) =
      running.map fun running =>
        .completed (running.2.itemId, .commandExecution running.2.command) := by
    rw [entries, List.filterMap_map, ← List.filterMap_eq_map]
    rfl
  rw [handleTaskComplete, entries_append, entries_append, hlast, hcommands, finishAll, heldByTurn,
    List.map_append, List.map_append]
  congr 1
  congr 1
  · cases s.runningTodoList <;> rfl
  · rw [List.map_map, List.map_map]
    rfl

theorem mem_drain {running : Σ _ : Str, RunningCommand} :
    running ∈ env.drain s.runningCommands.entries ↔
      s.runningCommands.lookup running.1 = some running.2 := by
  rw [(env.drain_perm _).mem_iff]
  exact AList.mem_lookup_iff.symm

theorem heldByTurn_held : ∀ slot ∈ s.heldByTurn env, s.held slot.1 = some slot.2 := by
  intro slot hslot
  rcases List.mem_append.1 hslot with hmem | hmem
  · obtain ⟨running, hrunning, rfl⟩ := List.mem_map.1 hmem
    simp [held, Option.mem_toList.1 hrunning]
  · obtain ⟨running, hrunning, rfl⟩ := List.mem_map.1 hmem
    simp [held, heldCall, mem_drain.1 hrunning]

variable (env s) in
theorem heldByTurn_distinct : ((s.heldByTurn env).map Prod.fst).Nodup := by
  rw [heldByTurn, List.map_append, List.map_map, List.map_map, List.nodup_append]
  refine ⟨?_, ?_, ?_⟩
  · cases s.runningTodoList <;> simp
  · have hkeys : ((env.drain s.runningCommands.entries).map Sigma.fst).Nodup :=
      ((env.drain_perm _).map Sigma.fst).nodup_iff.2 s.runningCommands.nodupKeys
    have hcall : Function.Injective fun callId => Slot.call ⟨.command, callId⟩ := by
      intro callId callId' heq
      simpa using heq
    have hmap := hkeys.map hcall
    rwa [List.map_map] at hmap
  · intro slot hslot slot' hslot'
    obtain ⟨_, -, rfl⟩ := List.mem_map.1 hslot
    obtain ⟨_, -, rfl⟩ := List.mem_map.1 hslot'
    exact Slot.noConfusion

theorem mem_heldByTurn_fst {slot : Slot} : slot ∈ (s.heldByTurn env).map Prod.fst ↔
    s.held slot ≠ none ∧ ∀ call, slot = .call call → call.kind = .command := by
  constructor
  · intro hslot
    obtain ⟨slot, hmem, rfl⟩ := List.mem_map.1 hslot
    refine ⟨by simp [heldByTurn_held slot hmem], fun call hcall => ?_⟩
    rcases List.mem_append.1 hmem with hmem | hmem
    · obtain ⟨_, -, rfl⟩ := List.mem_map.1 hmem
      cases hcall
    · obtain ⟨_, -, rfl⟩ := List.mem_map.1 hmem
      obtain rfl := Slot.call.inj hcall
      rfl
  · rintro ⟨hheld, hkind⟩
    rw [heldByTurn, List.map_append, List.mem_append]
    cases slot with
    | todoList =>
      cases hrunning : s.runningTodoList with
      | none => simp [held, hrunning] at hheld
      | some running => simp
    | call call =>
      obtain ⟨kind, callId⟩ := call
      obtain rfl : kind = .command := hkind _ rfl
      cases hrunning : s.runningCommands.lookup callId with
      | none => simp [held, heldCall, hrunning] at hheld
      | some running =>
        have hmem : (⟨callId, running⟩ : Σ _ : Str, RunningCommand) ∈
            env.drain s.runningCommands.entries := mem_drain.2 hrunning
        exact .inr (List.mem_map.2 ⟨_, List.mem_map_of_mem hmem, rfl⟩)

variable (env s) in
theorem held_taskComplete (slot : Slot) : (s.handleTaskComplete env).1.held slot =
    if slot ∈ (s.heldByTurn env).map Prod.fst then none else s.held slot := by
  have hturn (h : ∀ call, slot = .call call → call.kind = .command) :
      (if slot ∈ (s.heldByTurn env).map Prod.fst then none else s.held slot) = none := by
    by_cases hheld : s.held slot = none
    · rw [hheld, ite_self]
    · rw [if_pos (mem_heldByTurn_fst.2 ⟨hheld, h⟩)]
  cases slot with
  | todoList => exact (hturn fun call hcall => by cases hcall).symm
  | call call =>
    obtain ⟨kind, callId⟩ := call
    by_cases hkind : kind = .command
    · subst hkind
      exact (hturn fun call hcall => by rw [← Slot.call.inj hcall]).symm
    · rw [if_neg fun hmem => hkind ((mem_heldByTurn_fst.1 hmem).2 _ rfl)]
      cases kind <;> first | exact absurd rfl hkind | rfl

end TurnEnd

/-! ### One event -/

theorem itemId_injective : Function.Injective itemId := by
  intro n n' heq
  exact Decimal.toDigits_inj (List.append_cancel_left heq)

/-- No item of a log has an id that the counter still is to give. -/
def FreshFrom (n : Nat) (log : List (Entry (Item ν))) : Prop :=
  ∀ m, n ≤ m → ∀ entry ∈ log, ∀ item, entry.item? = some item → item.1 ≠ itemId m

variable {s} {log : List (Entry (Item ν))} {n : Nat}

theorem FreshFrom.history_eq_nil (h : FreshFrom n log) :
    history Prod.fst (itemId n) log = [] :=
  ItemLog.history_eq_nil fun entry hentry item hitem => h n le_rfl entry hentry item hitem

theorem FreshFrom.append_new (h : FreshFrom n log) {entry : Entry (Item ν)} {subject : Subject ν}
    (hentry : entry.item? = some (itemId n, subject)) : FreshFrom (n + 1) (log ++ [entry]) := by
  intro m hm e he item hitem
  rcases List.mem_append.1 he with hmem | hmem
  · exact h m (by omega) e hmem item hitem
  · obtain rfl := List.mem_singleton.1 hmem
    obtain rfl := Option.some.inj (hentry.symm.trans hitem)
    intro heq
    have := itemId_injective heq
    omega

theorem FreshFrom.append_held (h : FreshFrom n log) (hsound : Sound Prod.fst ⟨s.held, log⟩)
    {sent : List (Entry (Item ν))}
    (hsent : ∀ entry ∈ sent, ∀ item, entry.item? = some item → ∃ slot, s.held slot = some item) :
    FreshFrom n (log ++ sent) := by
  intro m hm entry hentry item hitem
  rcases List.mem_append.1 hentry with hmem | hmem
  · exact h m hm entry hmem item hitem
  · obtain ⟨slot, hslot⟩ := hsent entry hmem item hitem
    obtain ⟨updates, hhistory⟩ := hsound.open_history hslot
    have hstarted : Entry.started item ∈ log := by
      rw [← mem_history Prod.fst rfl, hhistory]
      exact List.mem_cons_self
    exact h m hm _ hstarted item rfl

/-- What an event does to the slots and to the log are operations that are allowed. -/
structure Performs (s : EventProcessorWithJsonOutput ν) (event : EventMsg ν)
    (log : List (Entry (Item ν))) (collected : Collected ν) (ops : List (Op Slot (Item ν))) :
    Prop where
  entries_eq : entries collected.2 = ops.map Op.entry
  held_eq : collected.1.held = (Op.applyAll ops ⟨s.held, log⟩).slots
  allowed : Op.AllowedAll Prod.fst ops ⟨s.held, log⟩
  vacant : (∀ call, event.begins? = some call → s.held (.call call) = none) →
    Op.VacantAll ops ⟨s.held, log⟩
  fresh : FreshFrom collected.1.nextEventId (log ++ entries collected.2)

theorem Outcome.performs {event : EventMsg ν} {collected : Collected ν}
    (h : s.Outcome event collected) (hsound : Sound Prod.fst ⟨s.held, log⟩)
    (hfresh : FreshFrom s.nextEventId log) :
    ∃ ops, Performs s event log collected ops ∧ ∀ op ∈ ops, op.entry ≠ .barrier := by
  cases h with
  | quiet held next sent_eq begins ends =>
    refine ⟨[], ⟨sent_eq, held, trivial, fun _ => trivial, ?_⟩, fun op hop => by cases hop⟩
    rw [sent_eq, List.append_nil, next]
    exact hfresh
  | once subject held next sent_eq begins ends =>
    refine ⟨[.once (itemId s.nextEventId, subject)],
      ⟨sent_eq, held, ⟨hfresh.history_eq_nil, trivial⟩, fun _ => ⟨trivial, trivial⟩, ?_⟩,
      fun op hop => ?_⟩
    · rw [sent_eq, next]
      exact hfresh.append_new rfl
    · rw [List.mem_singleton.1 hop]
      simp [Op.entry]
  | start slot subject held next sent_eq begins ends =>
    refine ⟨[.start slot (itemId s.nextEventId, subject)],
      ⟨sent_eq, held, ⟨hfresh.history_eq_nil, trivial⟩, fun hvacant => ⟨?_, trivial⟩, ?_⟩,
      fun op hop => ?_⟩
    · rcases begins with ⟨-, hnone, -⟩ | ⟨call, rfl, hcall⟩
      · exact hnone
      · exact hvacant call hcall
    · rw [sent_eq, next]
      exact hfresh.append_new rfl
    · rw [List.mem_singleton.1 hop]
      simp [Op.entry]
  | update slot item held next held_item sent_eq begins ends =>
    refine ⟨[.update slot item],
      ⟨sent_eq, held, ⟨held_item, trivial⟩, fun _ => ⟨trivial, trivial⟩, ?_⟩, fun op hop => ?_⟩
    · rw [sent_eq, next]
      refine hfresh.append_held hsound fun entry hentry item' hitem => ⟨slot, ?_⟩
      rw [List.mem_singleton.1 hentry] at hitem
      exact held_item.trans hitem
    · rw [List.mem_singleton.1 hop]
      simp [Op.entry]
  | finish call item held next held_item sent_eq begins ends =>
    refine ⟨[.finish (.call call) item],
      ⟨sent_eq, held, ⟨held_item, trivial⟩, fun _ => ⟨trivial, trivial⟩, ?_⟩, fun op hop => ?_⟩
    · rw [sent_eq, next]
      refine hfresh.append_held hsound fun entry hentry item' hitem => ⟨.call call, ?_⟩
      rw [List.mem_singleton.1 hentry] at hitem
      exact held_item.trans hitem
    · rw [List.mem_singleton.1 hop]
      simp [Op.entry]

theorem performs_taskComplete (hsound : Sound Prod.fst ⟨s.held, log⟩)
    (hfresh : FreshFrom s.nextEventId log) :
    Performs s .turnComplete log (s.handleTaskComplete env)
      (finishAll (s.heldByTurn env) ++ [.barrier]) := by
  obtain ⟨hallowed, hvacant, hslots⟩ := finishAll_spec Prod.fst (s := ⟨s.held, log⟩)
    (heldByTurn_distinct env s) heldByTurn_held
  refine ⟨?_, ?_, allowedAll_append.2 ⟨hallowed, trivial, trivial⟩,
    fun _ => vacantAll_append.2 ⟨hvacant, trivial, trivial⟩, ?_⟩
  · rw [entries_taskComplete, List.map_append]
    rfl
  · funext slot
    rw [held_taskComplete env s, Op.applyAll, List.foldl_append]
    exact (hslots slot).symm
  · refine hfresh.append_held hsound fun entry hentry item hitem => ?_
    rw [entries_taskComplete] at hentry
    rcases List.mem_append.1 hentry with hmem | hmem
    · obtain ⟨op, hop, rfl⟩ := List.mem_map.1 hmem
      obtain ⟨slot, hslot, rfl⟩ := List.mem_map.1 hop
      obtain rfl := Option.some.inj hitem
      exact ⟨slot.1, heldByTurn_held slot hslot⟩
    · rw [List.mem_singleton.1 hmem] at hitem
      cases hitem

theorem collect_performs (event : EventMsg ν) (hsound : Sound Prod.fst ⟨s.held, log⟩)
    (hfresh : FreshFrom s.nextEventId log) :
    ∃ ops, Performs s event log (s.collectThreadEvents env event) ops := by
  cases hevent : event.isTurnComplete with
  | false =>
    obtain ⟨ops, hops, -⟩ := (s.collect_outcome env hevent).performs hsound hfresh
    exact ⟨ops, hops⟩
  | true =>
    rw [EventMsg.isTurnComplete_iff.1 hevent]
    exact ⟨_, performs_taskComplete env hsound hfresh⟩

theorem Performs.ledger {event : EventMsg ν} {collected : Collected ν}
    {ops : List (Op Slot (Item ν))} (h : Performs s event log collected ops) :
    (⟨collected.1.held, log ++ entries collected.2⟩ : State Slot (Item ν)) =
      Op.applyAll ops ⟨s.held, log⟩ := by
  rw [h.held_eq, h.entries_eq, ← log_applyAll ops ⟨s.held, log⟩]

/-- A call holds a slot from the event that begins it until one that ends it, or until the end of the
turn if it is a command. -/
theorem held_collect (event : EventMsg ν) {call : Call} (hkind : call.kind ≠ .patchApply) :
    (s.collectThreadEvents env event).1.held (.call call) ≠ none ↔
      event.begins? = some call ∨ s.held (.call call) ≠ none ∧ event.ends? ≠ some call ∧
        ¬ (event.isTurnComplete = true ∧ call.kind = .command) := by
  cases hevent : event.isTurnComplete with
  | true =>
    rw [EventMsg.isTurnComplete_iff.1 hevent]
    have hheld := held_taskComplete env s (.call call)
    rw [collectThreadEvents, hheld]
    by_cases hmem : Slot.call call ∈ (s.heldByTurn env).map Prod.fst
    · have hcommand := (mem_heldByTurn_fst.1 hmem).2 call rfl
      rw [if_pos hmem]
      simp [EventMsg.begins?, hcommand]
    · have hcommand (h : s.held (.call call) ≠ none) : call.kind ≠ .command := fun hkind =>
        hmem (mem_heldByTurn_fst.2 ⟨h, fun call' heq => Slot.call.inj heq ▸ hkind⟩)
      rw [if_neg hmem]
      simpa [EventMsg.begins?, EventMsg.ends?, EventMsg.isTurnComplete] using hcommand
  | false =>
    generalize hcollected : s.collectThreadEvents env event = collected
    have houtcome := hcollected ▸ s.collect_outcome env hevent
    cases houtcome with
    | quiet held next sent_eq begins ends =>
      dsimp only
      rw [held]
      constructor
      · intro h
        exact .inr ⟨h, fun hends => h (ends call hends), by simp⟩
      · rintro (hbegins | ⟨h, -⟩)
        · exact (begins call hbegins).resolve_left hkind
        · exact h
    | once subject held next sent_eq begins ends =>
      dsimp only
      rw [held, begins]
      constructor
      · intro h
        exact .inr ⟨h, fun hends => h (ends call hends), by simp⟩
      · rintro (hbegins | ⟨h, -⟩)
        · cases hbegins
        · exact h
    | start slot subject held next sent_eq begins ends =>
      dsimp only
      rw [held, ends]
      rcases begins with ⟨rfl, -, hbegins⟩ | ⟨call', rfl, hbegins⟩
      · rw [Function.update_of_ne (by simp), hbegins]
        simp
      · by_cases hcall : call = call'
        · simp [hcall, hbegins]
        · rw [Function.update_of_ne (by simpa using hcall), hbegins]
          simp [Ne.symm hcall]
    | update slot item held next held_item sent_eq begins ends =>
      dsimp only
      rw [held, begins, ends]
      simp
    | finish call' item held next held_item sent_eq begins ends =>
      dsimp only
      rw [held, begins, ends]
      by_cases hcall : call = call'
      · simp [hcall]
      · rw [Function.update_of_ne (by simpa using hcall)]
        simp [Ne.symm hcall]

/-! ## Runs -/

section Runs

variable {env} {events : List (EventMsg ν)} {event : EventMsg ν}

theorem after_concat : s.after env (events ++ [event]) =
    ((s.after env events).collectThreadEvents env event).1 := List.foldl_concat ..

theorem collectAll_concat : collectAll env (events ++ [event]) s =
    collectAll env events s ++ ((s.after env events).collectThreadEvents env event).2 := by
  induction events generalizing s with
  | nil => simp [collectAll, after]
  | cons first events ih =>
    rw [List.cons_append, collectAll, collectAll, ih, ← List.append_assoc]
    rfl

variable (env events) in
/-- The processor after events, and the thread events, as a ledger. -/
def ledger : State Slot (Item ν) where
  slots := (new.after env events).held
  log := entries (collectAll env events new)

variable (env events) in
structure Tracked : Prop where
  sound : Sound Prod.fst (ledger env events)
  fresh : FreshFrom (new.after env events).nextEventId (ledger env events).log
  opened : ∀ call ∈ openCalls events, call.kind ≠ .patchApply →
    (ledger env events).slots (.call call) ≠ none

/-- One event more in a run. -/
theorem Tracked.performs (h : Tracked env events) (event : EventMsg ν) :
    ∃ ops, Performs (new.after env events) event (ledger env events).log
        ((new.after env events).collectThreadEvents env event) ops ∧
      ledger env (events ++ [event]) = Op.applyAll ops (ledger env events) := by
  obtain ⟨ops, hops⟩ := collect_performs env event h.sound h.fresh
  refine ⟨ops, hops, ?_⟩
  rw [ledger, after_concat, collectAll_concat, entries_append]
  exact hops.ledger

theorem held_concat {call : Call} (hkind : call.kind ≠ .patchApply) :
    (ledger env (events ++ [event])).slots (.call call) ≠ none ↔
      event.begins? = some call ∨ (ledger env events).slots (.call call) ≠ none ∧
        event.ends? ≠ some call ∧ ¬ (event.isTurnComplete = true ∧ call.kind = .command) := by
  rw [ledger, after_concat]
  exact held_collect env event hkind

variable (env events) in
theorem tracked : Tracked env events := by
  induction events using List.reverseRecOn with
  | nil =>
    refine ⟨⟨fun _ => .inl rfl, fun {slot} _ hslot => ?_, fun {slot} _ _ _ hslot => ?_⟩,
      fun _ _ _ hentry => (by cases hentry), fun _ hcall => by cases hcall⟩
    · obtain ⟨kind, callId⟩ | _ := slot
      · cases kind <;> cases hslot
      · cases hslot
    · obtain ⟨kind, callId⟩ | _ := slot
      · cases kind <;> cases hslot
      · cases hslot
  | append_singleton events event ih =>
    obtain ⟨ops, hops, hledger⟩ := ih.performs event
    refine ⟨?_, ?_, fun call hcall hkind => ?_⟩
    · rw [hledger]
      exact ih.sound.applyAll hops.allowed
    · have hfresh := hops.fresh
      rw [ledger, after_concat, collectAll_concat, entries_append]
      exact hfresh
    · obtain ⟨hevent, hopen⟩ := mem_openCalls_concat.1 hcall
      refine (held_concat hkind).2 (hopen.imp id fun h => ?_)
      exact ⟨ih.opened call h.1 hkind, h.2, by simp [hevent]⟩

variable (env) in
/-- Open items are in the maps, and the calls in the maps are open. -/
theorem tight_of_closed (hdistinct : DistinctCalls events) (hclosed : ClosedAtTurnEnds events) :
    Tight Prod.fst (ledger env events) ∧
      ∀ call, (ledger env events).slots (.call call) ≠ none → call ∈ openCalls events := by
  induction events using List.reverseRecOn with
  | nil =>
    refine ⟨fun item updates h => (by cases h), fun call hcall => ?_⟩
    obtain ⟨kind, callId⟩ := call
    cases kind <;> exact absurd rfl hcall
  | append_singleton events event ih =>
    obtain ⟨hdistinct, hnew⟩ := distinctCalls_concat.1 hdistinct
    obtain ⟨hclosed, hend⟩ := closedAtTurnEnds_concat.1 hclosed
    obtain ⟨htight, hopen⟩ := ih hdistinct hclosed
    have htracked := tracked env events
    obtain ⟨ops, hops, hledger⟩ := htracked.performs event
    have hvacant := hops.vacant fun call hcall => by
      by_contra hheld
      exact hnew call hcall (hopen call hheld)
    refine ⟨?_, fun call hcall => ?_⟩
    · rw [hledger]
      exact htight.applyAll htracked.sound hops.allowed hvacant
    · have hkind : call.kind ≠ .patchApply := by
        rintro hkind
        obtain ⟨kind, callId⟩ := call
        obtain rfl : kind = .patchApply := hkind
        exact hcall rfl
      rw [held_concat hkind] at hcall
      refine mem_openCalls_concat.2 ⟨?_, ?_⟩
      · cases hevent : event.isTurnComplete with
        | false => rfl
        | true =>
          obtain rfl := EventMsg.isTurnComplete_iff.1 hevent
          obtain hbegins | ⟨hheld, -, hcommand⟩ := hcall
          · cases hbegins
          · rcases hend rfl call (hopen call hheld) with h | h
            · exact absurd ⟨hevent, h⟩ hcommand
            · exact absurd h hkind
      · exact hcall.imp id fun h => ⟨hopen call h.1, h.2.1⟩

variable (env) in
theorem settled_iff (hdistinct : DistinctCalls events) :
    Settled (ledger env events).log ↔ ClosedAtTurnEnds events := by
  induction events using List.reverseRecOn with
  | nil =>
    refine iff_of_true settled_nil fun before after heq => ?_
    simp at heq
  | append_singleton events event ih =>
    obtain ⟨hbefore, -⟩ := distinctCalls_concat.1 hdistinct
    have htracked := tracked env events
    have hlog : (ledger env (events ++ [event])).log = (ledger env events).log ++
        entries ((new.after env events).collectThreadEvents env event).2 := by
      rw [ledger, collectAll_concat, entries_append]
      rfl
    rw [closedAtTurnEnds_concat, ← ih hbefore, hlog]
    cases hevent : event.isTurnComplete with
    | false =>
      obtain ⟨ops, hops, hbarrier⟩ := ((new.after env events).collect_outcome env hevent).performs
        htracked.sound htracked.fresh
      have hne : event ≠ .turnComplete := fun heq => by
        rw [EventMsg.isTurnComplete_iff.2 heq] at hevent
        cases hevent
      rw [settled_append]
      · exact (and_iff_left fun heq => absurd heq hne).symm
      · rw [hops.entries_eq]
        intro entry hentry
        obtain ⟨op, hop, rfl⟩ := List.mem_map.1 hentry
        exact hbarrier op hop
    | true =>
      obtain rfl := EventMsg.isTurnComplete_iff.1 hevent
      set s := new.after env events
      obtain ⟨hallowed, -, hslots⟩ := finishAll_spec Prod.fst (s := ledger env events)
        (heldByTurn_distinct env s) heldByTurn_held
      have hsound := htracked.sound.applyAll hallowed
      rw [collectThreadEvents, entries_taskComplete, ← List.append_assoc, ← log_applyAll,
        settled_append_singleton, log_applyAll, settled_append fun entry hentry => by
          obtain ⟨op, hop, rfl⟩ := List.mem_map.1 hentry
          obtain ⟨slot, -, rfl⟩ := List.mem_map.1 hop
          simp [Op.entry], ← log_applyAll]
      refine and_congr_right fun hsettled => ?_
      obtain ⟨htight, hopen⟩ := tight_of_closed env hbefore ((ih hbefore).1 hsettled)
      constructor
      · intro hall _ call hcall
        by_contra hkind
        obtain ⟨hcommand, hpatch⟩ := not_or.1 hkind
        have hheld := htracked.opened call hcall hpatch
        have hkept := hslots (.call call)
        rw [if_neg fun hmem => hcommand ((mem_heldByTurn_fst.1 hmem).2 call rfl)] at hkept
        obtain ⟨item, hitem⟩ := Option.ne_none_iff_exists'.1 hheld
        exact hsound.not_allCompleted (hkept.trans hitem) (hall rfl)
      · intro hclosed _
        refine hsound.allCompleted ?_ fun slot => ?_
        · exact htight.applyAll htracked.sound hallowed (finishAll_spec Prod.fst
            (heldByTurn_distinct env s) heldByTurn_held).2.1
        · rw [hslots]
          by_cases hmem : slot ∈ (s.heldByTurn env).map Prod.fst
          · rw [if_pos hmem]
          · rw [if_neg hmem]
            by_contra hheld
            refine hmem (mem_heldByTurn_fst.2 ⟨hheld, fun call heq => ?_⟩)
            subst heq
            refine (hclosed rfl call (hopen call hheld)).resolve_right fun hpatch => hheld ?_
            obtain ⟨kind, callId⟩ := call
            obtain rfl : kind = .patchApply := hpatch
            rfl

end Runs

/-! ## Ends and their begins -/

section Ends

variable {env} {call : Call} {event : EventMsg ν}

/-- The events of a call: what begins it, what ends it, and the end of the turn if it is a command. -/
def Concerns (call : Call) (event : EventMsg ν) : Prop :=
  event.begins? = some call ∨ event.ends? = some call ∨
    event = .turnComplete ∧ call.kind = .command

theorem held_of_not_concerns (h : ¬Concerns call event) :
    (s.collectThreadEvents env event).1.held (.call call) = s.held (.call call) := by
  obtain ⟨hbegins, h⟩ := not_or.1 h
  obtain ⟨hends, hturn⟩ := not_or.1 h
  cases hevent : event.isTurnComplete with
  | true =>
    obtain rfl := EventMsg.isTurnComplete_iff.1 hevent
    rw [collectThreadEvents, held_taskComplete env s, if_neg]
    exact fun hmem => hturn ⟨rfl, (mem_heldByTurn_fst.1 hmem).2 call rfl⟩
  | false =>
    generalize hcollected : s.collectThreadEvents env event = collected
    have houtcome := hcollected ▸ s.collect_outcome env hevent
    cases houtcome with
    | quiet held | once _ held | update _ _ held => exact congrFun held _
    | start slot subject held next sent_eq begins =>
      refine (congrFun held _).trans (Function.update_of_ne ?_ ..)
      rintro rfl
      obtain ⟨h, -⟩ | ⟨call', h, hcall⟩ := begins
      · cases h
      · exact hbegins (Slot.call.inj h ▸ hcall)
    | finish call' item held next held_item sent_eq begins ends =>
      refine (congrFun held _).trans (Function.update_of_ne ?_ ..)
      intro h
      exact hends (Slot.call.inj h ▸ ends)

theorem held_after {mid : List (EventMsg ν)} (h : ∀ event ∈ mid, ¬Concerns call event) :
    (s.after env mid).held (.call call) = s.held (.call call) := by
  induction mid generalizing s with
  | nil => rfl
  | cons event mid ih =>
    obtain ⟨hevent, hmid⟩ := List.forall_mem_cons.1 h
    exact (ih hmid).trans (held_of_not_concerns hevent)

theorem mem_entries {sent : List (ThreadEvent ν)} {told : ThreadEvent ν} {entry : Entry (Item ν)}
    (h : told ∈ sent) (hentry : told.entry? = some entry) : entry ∈ entries sent :=
  List.mem_filterMap.2 ⟨told, h, hentry⟩

theorem held_of_started {item : ThreadItem ν} (hbegins : event.begins? = some call)
    (h : .itemStarted item ∈ (s.collectThreadEvents env event).2) :
    (s.collectThreadEvents env event).1.held (.call call) = some item.told := by
  have hentry := mem_entries h rfl
  have hevent : event.isTurnComplete = false := by cases event <;> first | rfl | cases hbegins
  revert hentry
  generalize hcollected : s.collectThreadEvents env event = collected
  have houtcome := hcollected ▸ s.collect_outcome env hevent
  cases houtcome with
  | quiet _ _ sent_eq => simp [sent_eq]
  | once _ _ _ _ begins | update _ _ _ _ _ _ begins | finish _ _ _ _ _ _ begins =>
    rw [hbegins] at begins
    cases begins
  | start slot subject held next sent_eq begins =>
    intro hentry
    rw [sent_eq, List.mem_singleton] at hentry
    obtain ⟨-, -, h⟩ | ⟨call', rfl, hcall⟩ := begins
    · rw [hbegins] at h
      cases h
    · obtain rfl := Option.some.inj (hbegins.symm.trans hcall)
      rw [Entry.started.inj hentry, held]
      exact Function.update_self ..

theorem told_of_completed {item : ThreadItem ν} {told : Item ν} (hends : event.ends? = some call)
    (hheld : s.held (.call call) = some told)
    (h : .itemCompleted item ∈ (s.collectThreadEvents env event).2) : item.told = told := by
  have hentry := mem_entries h rfl
  have hevent : event.isTurnComplete = false := by cases event <;> first | rfl | cases hends
  revert hentry
  generalize hcollected : s.collectThreadEvents env event = collected
  have houtcome := hcollected ▸ s.collect_outcome env hevent
  cases houtcome with
  | quiet _ _ _ _ ends | once _ _ _ _ _ ends =>
    rw [ends call hends] at hheld
    cases hheld
  | start _ _ _ _ _ _ ends | update _ _ _ _ _ _ _ ends =>
    rw [hends] at ends
    cases ends
  | finish call' item' held next held_item sent_eq begins ends =>
    obtain rfl := Option.some.inj (hends.symm.trans ends)
    intro hentry
    rw [sent_eq, List.mem_singleton] at hentry
    rw [Entry.completed.inj hentry]
    exact Option.some.inj (held_item.symm.trans hheld)

end Ends

end EventProcessorWithJsonOutput

/-! ## The items of a run -/

section Lifecycle

variable (env : Env ν) (events : List (EventMsg ν))

def sentFor : List (ThreadEvent ν) := EventProcessorWithJsonOutput.new.collectAll env events

/-- The thread events for one core event after others. -/
def sentAt (before : List (EventMsg ν)) (event : EventMsg ν) : List (ThreadEvent ν) :=
  ((EventProcessorWithJsonOutput.new.after env before).collectThreadEvents env event).2

structure ItemLifecycle : Prop where
  /-- Every id is that of one item, which is started once at most, not updated before or after, and
  completed once at most. -/
  lawful : Lawful Prod.fst (entries (sentFor env events))
  /-- The end of a call completes the item that its begin has started. -/
  own : ∀ before begins mid ends after call started completed,
    events = before ++ begins :: (mid ++ ends :: after) → begins.begins? = some call →
    ends.ends? = some call → (∀ event ∈ mid, ¬EventProcessorWithJsonOutput.Concerns call event) →
    .itemStarted started ∈ sentAt env before begins →
    .itemCompleted completed ∈ sentAt env (before ++ begins :: mid) ends →
    completed.told = started.told
  /-- Items that were started or updated are completed before the turn ends. -/
  settled : Settled (entries (sentFor env events))

variable {events}

theorem itemLifecycle_iff (hdistinct : DistinctCalls events) :
    ItemLifecycle env events ↔ ClosedAtTurnEnds events := by
  have hsettled := EventProcessorWithJsonOutput.settled_iff env hdistinct
  refine ⟨fun h => hsettled.1 h.settled, fun h => ⟨?_, ?_, hsettled.2 h⟩⟩
  · exact (EventProcessorWithJsonOutput.tracked env events).sound.lawful
  · intro before begins mid ends after call started completed _ hbegins hends hmid hstarted hcompleted
    refine EventProcessorWithJsonOutput.told_of_completed hends ?_ hcompleted
    rw [EventProcessorWithJsonOutput.after, List.foldl_append, List.foldl_cons]
    exact (EventProcessorWithJsonOutput.held_after hmid).trans
      (EventProcessorWithJsonOutput.held_of_started hbegins hstarted)

/-- What it is in the examples: nothing is quoted, and the order of a map is that of its entries. -/
def plainEnv : Env Unit := ⟨(), fun _ => none, id, fun running => .refl running⟩

/-- A turn with a plan, a web search, and a command that is still running at its end. -/
def planTurn : List (EventMsg Unit) :=
  [.turnStarted, .planUpdate [("step".toList, .pending)],
    .execCommandBegin "c1".toList ["ls".toList], .webSearchBegin "w1".toList,
    .webSearchEnd "w1".toList "query".toList .other, .turnComplete]

theorem itemLifecycle_planTurn : DistinctCalls planTurn ∧ ItemLifecycle plainEnv planTurn :=
  have hdistinct : DistinctCalls planTurn := by decide
  ⟨hdistinct, (itemLifecycle_iff plainEnv hdistinct).2 (by decide)⟩

/-- A turn that ends with a tool call open. -/
def toolTurn : List (EventMsg Unit) :=
  [.turnStarted, .mcpToolCallBegin "m1".toList ⟨"server".toList, "tool".toList, none⟩,
    .turnComplete]

theorem toolTurn_not_completed : DistinctCalls toolTurn ∧ ¬ItemLifecycle plainEnv toolTurn := by
  refine ⟨by decide, fun h => ?_⟩
  have hcompleted := h.settled
    [.started ("item_0".toList, .mcpToolCall "server".toList "tool".toList ())] [] rfl _
    (.inl List.mem_cons_self)
  simp at hcompleted

end Lifecycle

end SheriMl.Exec
