import SheriMl.Lib.Machine
import SheriMl.Protocol.Models

/-!
# Tool calls and their answers

From the item that calls a tool to the item that answers it: `ToolRouter` of `core/src/tools/router.rs`,
`ToolOutput::into_response` of `core/src/tools/context.rs`, and `ToolCallRuntime::handle_tool_call` of
`core/src/tools/parallel.rs`. What a tool does is open (`ToolOutcome`); whatever it returns is answered
under the id of its call (`callId_handleToolCall`).
-/

namespace SheriMl.Tools

open Protocol

inductive FunctionCallError where
  | respondToModel (message : Str)
  | missingLocalShellCallId
  | fatal (message : Str)
  deriving DecidableEq

/-- `to_string`. -/
def FunctionCallError.text : FunctionCallError → Str
  | respondToModel message => message
  | missingLocalShellCallId => "LocalShellCall without call_id or id"
  | fatal message => "Fatal error: " ++ message

/-- What the handler of a tool computes. -/
abbrev Computes (α : Type) := Except (Machine.Stop FunctionCallError) α

def respond {α : Type} (message : Str) : Computes α := .error (.returns (.respondToModel message))

/-- The errors of `core/src/error.rs`; of what one carries, its text. -/
inductive CodexErr where
  | turnAborted
  | stream (message : Str)
  | contextWindowExceeded
  | threadNotFound (id : Str)
  | agentLimitReached (maxThreads : Nat)
  | sessionConfiguredNotFirstEvent
  | timeout
  | spawn
  | interrupted
  | unexpectedStatus (message : Str)
  | invalidRequest (message : Str)
  | invalidImageRequest
  | usageLimitReached (message : Str)
  | serverOverloaded
  | responseStreamFailed (message : Str)
  | connectionFailed (message : Str)
  | quotaExceeded
  | usageNotIncluded
  | internalServerError
  | retryLimit (message : Str)
  | internalAgentDied
  | sandbox (message : Str)
  | landlockSandboxExecutableNotProvided
  | unsupportedOperation (message : Str)
  | refreshTokenFailed (message : Str)
  | fatal (message : Str)
  | io (message : Str)
  | json (message : Str)
  | landlockRuleset (message : Str)
  | landlockPathFd (message : Str)
  | tokioJoin (message : Str)
  | envVar (message : Str)

def CodexErr.isRetryable : CodexErr → Bool
  | turnAborted | interrupted | envVar _ | fatal _ | usageNotIncluded | quotaExceeded
  | invalidImageRequest | invalidRequest _ | refreshTokenFailed _ | unsupportedOperation _
  | sandbox _ | landlockSandboxExecutableNotProvided | retryLimit _ | contextWindowExceeded
  | threadNotFound _ | agentLimitReached _ | spawn | sessionConfiguredNotFirstEvent
  | usageLimitReached _ | serverOverloaded => false
  | stream _ | timeout | unexpectedStatus _ | responseStreamFailed _ | connectionFailed _
  | internalServerError | internalAgentDied | io _ | json _ | tokioJoin _ => true
  | landlockRuleset _ | landlockPathFd _ => false

inductive ToolPayload where
  | function (arguments : Str)
  | custom (input : Str)
  | localShell (command : List Str)
  | mcp (server tool rawArguments : Str)

def ToolPayload.isCustom : ToolPayload → Bool
  | custom _ => true
  | function _ | localShell _ | mcp .. => false

structure ToolCall where
  toolName : Str
  callId : Str
  payload : ToolPayload

/-- What a turn reads of its session and its configuration. `R` is the type of the results of MCP
servers (`CallToolResult`). -/
structure TurnContext (R : Type) where
  planMode : Bool
  jsReplToolsOnly : Bool
  hasPendingInput : Bool
  /-- `Session::parse_mcp_tool_name`: the server and the tool. -/
  parseMcpToolName : Str → Option (Str × Str)
  /-- `FunctionCallOutputPayload::from`. -/
  payloadOf : R → FunctionCallOutputPayload
  /-- The debug format of a string. -/
  debugStr : Str → Str

inductive ResponseInputItem (R : Type) where
  | message (role : Str) (content : List ContentItem)
  | functionCallOutput (callId : Str) (output : FunctionCallOutputPayload)
  | mcpToolCallOutput (callId : Str) (result : Except Str R)
  | customToolCallOutput (callId output : Str)

variable {R : Type} (turn : TurnContext R)

/-- `ResponseItem::from`. -/
def ResponseInputItem.toResponseItem : ResponseInputItem R → ResponseItem
  | message role content => .message none role content none none
  | functionCallOutput callId output => .functionCallOutput callId output
  | mcpToolCallOutput callId (.ok result) => .functionCallOutput callId (turn.payloadOf result)
  | mcpToolCallOutput callId (.error err) =>
    .functionCallOutput callId ⟨.text ("err: " ++ turn.debugStr err), some false⟩
  | customToolCallOutput callId output => .customToolCallOutput callId output

/-- `response_input_to_response_item`. -/
def responseInputToResponseItem : ResponseInputItem R → Option ResponseItem
  | .functionCallOutput callId output => some (.functionCallOutput callId output)
  | .customToolCallOutput callId output => some (.customToolCallOutput callId output)
  | .mcpToolCallOutput callId (.ok result) =>
    some (.functionCallOutput callId (turn.payloadOf result))
  | .mcpToolCallOutput callId (.error err) =>
    some (.functionCallOutput callId ⟨.text err, some false⟩)
  | .message .. => none

/-- `ToolRouter::build_tool_call`. -/
def buildToolCall : ResponseItem → Except FunctionCallError (Option ToolCall)
  | .functionCall _ name arguments callId =>
    match turn.parseMcpToolName name with
    | some (server, tool) => .ok (some ⟨name, callId, .mcp server tool arguments⟩)
    | none => .ok (some ⟨name, callId, .function arguments⟩)
  | .customToolCall _ _ callId name input => .ok (some ⟨name, callId, .custom input⟩)
  | .localShellCall id callId command =>
    match callId.or id with
    | some callId => .ok (some ⟨"local_shell", callId, .localShell command⟩)
    | none => .error .missingLocalShellCallId
  | _ => .ok none

/-- `function_call_output_content_items_to_text`. -/
def functionCallOutputContentItemsToText (contentItems : List FunctionCallOutputContentItem) :
    Option Str :=
  let textSegments := contentItems.filterMap fun
    | .inputText text => if (Str.trim text).isEmpty then none else some text
    | .inputImage _ => none
  if textSegments.isEmpty then none else some (Str.join "\n" textSegments)

/-- `FunctionCallOutputBody::to_text`. -/
def toText : FunctionCallOutputBody → Option Str
  | .text content => some content
  | .contentItems items => functionCallOutputContentItemsToText items

inductive ToolOutput (R : Type) where
  | function (body : FunctionCallOutputBody) (success : Option Bool)
  | mcp (result : Except Str R)

/-- `ToolOutput::into_response`. -/
def ToolOutput.intoResponse (callId : Str) (payload : ToolPayload) :
    ToolOutput R → ResponseInputItem R
  | function body success =>
    if payload.isCustom then .customToolCallOutput callId ((toText body).getD [])
    else .functionCallOutput callId ⟨body, success⟩
  | mcp result => .mcpToolCallOutput callId result

/-- `ToolRouter::failure_response`. -/
def failureResponse (callId : Str) (payloadOutputsCustom : Bool) (err : FunctionCallError) :
    ResponseInputItem R :=
  if payloadOutputsCustom then .customToolCallOutput callId err.text
  else .functionCallOutput callId ⟨.text err.text, some false⟩

/-- `js_repl_tools_only` leaves only these tools to a direct call. -/
def directCallDisabled (call : ToolCall) : Bool :=
  turn.jsReplToolsOnly && !(call.toolName = "js_repl" || call.toolName = "js_repl_reset")

/-- `ToolRouter::dispatch_tool_call` for a direct call; `result` is what the registry's handler
gives. -/
def dispatchToolCall (call : ToolCall) (result : Except FunctionCallError (ToolOutput R)) :
    Except FunctionCallError (ResponseInputItem R) :=
  if directCallDisabled turn call then
    .ok (failureResponse call.callId call.payload.isCustom (.respondToModel
      "direct tool calls are disabled; use js_repl and codex.tool(...) instead"))
  else
    match result with
    | .ok output => .ok (output.intoResponse call.callId call.payload)
    | .error (.fatal message) => .error (.fatal message)
    | .error err => .ok (failureResponse call.callId call.payload.isCustom err)

/-- How the task of a call ends. -/
inductive ToolOutcome (R : Type) where
  /-- The token is cancelled first; `secs` is the time since the start, with one decimal. -/
  | cancelled (secs : Str)
  | finished (result : Except FunctionCallError (ToolOutput R))
  /-- The task panics or is aborted; `err` is the debug format of the join error. -/
  | lost (err : Str)

def abortMessage (call : ToolCall) (secs : Str) : Str :=
  if call.toolName ∈ (["shell", "container.exec", "local_shell", "shell_command", "unified_exec"] :
      List Str) then
    "Wall time: " ++ secs ++ " seconds\naborted by user"
  else "aborted by user after " ++ secs ++ "s"

def abortedResponse (call : ToolCall) (secs : Str) : ResponseInputItem R :=
  match call.payload with
  | .custom _ => .customToolCallOutput call.callId (abortMessage call secs)
  | .mcp .. => .mcpToolCallOutput call.callId (.error (abortMessage call secs))
  | .function _ | .localShell _ =>
    .functionCallOutput call.callId ⟨.text (abortMessage call secs), none⟩

/-- `ToolCallRuntime::handle_tool_call`, for how the task of the call ends. -/
def handleToolCall (call : ToolCall) : ToolOutcome R → Except CodexErr (ResponseInputItem R)
  | .cancelled secs => .ok (abortedResponse call secs)
  | .finished result =>
    match dispatchToolCall turn call result with
    | .ok response => .ok response
    | .error (.fatal message) => .error (.fatal message)
    | .error other => .error (.fatal other.text)
  | .lost err => .error (.fatal ("tool task failed to receive: " ++ err))

/-! ## What is answered, and under which id -/

/-- Whether an item calls a tool (`true`) or answers a call, and the id of the call. The id of a shell
call that has none is empty. -/
def callRole : ResponseItem → Option (Str × Bool)
  | .functionCall _ _ _ callId => some (callId, true)
  | .customToolCall _ _ callId _ _ => some (callId, true)
  | .localShellCall id callId _ => some ((callId.or id).getD [], true)
  | .functionCallOutput callId _ => some (callId, false)
  | .customToolCallOutput callId _ => some (callId, false)
  | _ => none

/-- The tool fails with a fatal error, or its task is lost. -/
def ToolOutcome.Fails (call : ToolCall) : ToolOutcome R → Prop
  | cancelled _ => False
  | finished (.error (.fatal _)) => directCallDisabled turn call = false
  | finished _ => False
  | lost _ => True

variable {turn} {call : ToolCall}

theorem callRole_failureResponse {callId : Str} {custom : Bool} {err : FunctionCallError} :
    callRole ((failureResponse callId custom err).toResponseItem turn) = some (callId, false) := by
  cases custom with
  | true => rfl
  | false => rfl

theorem callRole_abortedResponse {secs : Str} :
    callRole ((abortedResponse call secs).toResponseItem turn) = some (call.callId, false) := by
  obtain ⟨toolName, callId, payload⟩ := call
  cases payload with
  | function | custom | localShell | mcp => rfl

theorem callRole_intoResponse {callId : Str} {payload : ToolPayload} (output : ToolOutput R) :
    callRole ((output.intoResponse callId payload).toResponseItem turn) = some (callId, false) := by
  cases output with
  | function body success =>
    rw [ToolOutput.intoResponse]
    split <;> rfl
  | mcp result =>
    cases result with
    | ok | error => rfl

/-- What a tool gives is answered under the id of its call, unless it is a fatal error. -/
theorem dispatchToolCall_cases (turn : TurnContext R) (call : ToolCall)
    (result : Except FunctionCallError (ToolOutput R)) :
    (∃ response, dispatchToolCall turn call result = .ok response ∧
      callRole (response.toResponseItem turn) = some (call.callId, false) ∧
      ¬ (ToolOutcome.finished result).Fails turn call) ∨
    ∃ message, dispatchToolCall turn call result = .error (.fatal message) ∧
      (ToolOutcome.finished result).Fails turn call := by
  unfold dispatchToolCall
  split
  · next hdisabled =>
    refine .inl ⟨_, rfl, callRole_failureResponse, ?_⟩
    cases result with
    | ok => exact not_false
    | error err =>
      cases err with
      | respondToModel | missingLocalShellCallId => exact not_false
      | fatal => exact fun h => Bool.false_ne_true (h.symm.trans hdisabled)
  · next hdisabled =>
    cases result with
    | ok output => exact .inl ⟨_, rfl, callRole_intoResponse output, not_false⟩
    | error err =>
      cases err with
      | respondToModel | missingLocalShellCallId =>
        exact .inl ⟨_, rfl, callRole_failureResponse, not_false⟩
      | fatal message => exact .inr ⟨message, rfl, Bool.eq_false_iff.2 hdisabled⟩

/-- The future of a call gives an answer under the call's id, or fails. -/
theorem handleToolCall_cases (turn : TurnContext R) (call : ToolCall) (outcome : ToolOutcome R) :
    (∃ response, handleToolCall turn call outcome = .ok response ∧
      callRole (response.toResponseItem turn) = some (call.callId, false) ∧
      ¬ outcome.Fails turn call) ∨
    ∃ err, handleToolCall turn call outcome = .error err ∧ outcome.Fails turn call := by
  cases outcome with
  | cancelled secs => exact .inl ⟨_, rfl, callRole_abortedResponse, not_false⟩
  | finished result =>
    obtain ⟨response, h, hrole, hfails⟩ | ⟨message, h, hfails⟩ :=
      dispatchToolCall_cases turn call result
    · exact .inl ⟨response, by rw [handleToolCall, h], hrole, hfails⟩
    · exact .inr ⟨.fatal message, by rw [handleToolCall, h], hfails⟩
  | lost err => exact .inr ⟨_, rfl, trivial⟩

/-- What `build_tool_call` makes of an item: a call under the item's id, nothing of an item that calls
no tool, and an error only of a shell call without an id. -/
theorem buildToolCall_cases (turn : TurnContext R) (item : ResponseItem) :
    (∃ call, buildToolCall turn item = .ok (some call) ∧
      callRole item = some (call.callId, true)) ∨
    (buildToolCall turn item = .ok none ∧ ∀ callId, callRole item ≠ some (callId, true)) ∨
    (buildToolCall turn item = .error .missingLocalShellCallId ∧
      callRole item = some ([], true)) := by
  cases item with
  | functionCall id name arguments callId =>
    rw [buildToolCall]
    split
    · exact .inl ⟨_, rfl, rfl⟩
    · exact .inl ⟨_, rfl, rfl⟩
  | customToolCall => exact .inl ⟨_, rfl, rfl⟩
  | localShellCall id callId command =>
    rw [buildToolCall]
    cases hid : callId.or id with
    | some callId => exact .inl ⟨_, rfl, by rw [callRole, hid]; rfl⟩
    | none => exact .inr (.inr ⟨rfl, by rw [callRole, hid]; rfl⟩)
  | _ => exact .inr (.inl ⟨rfl, fun _ h => by cases h⟩)

end SheriMl.Tools
