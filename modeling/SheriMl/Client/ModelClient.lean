import SheriMl.Lib.Str

/-!
# Requests of the model client

`build_responses_request`, `get_incremental_items`, `prepare_websocket_request` and the task of
`map_response_stream` of `core/src/client.rs`, with the events of a response as
`process_responses_event` of `codex-api/src/sse/responses.rs` reads them. `I` is the type of
response items and `J` that of JSON values. The input of a `Prompt` is the formatted one.
-/

namespace SheriMl.Client

inductive ReasoningEffort where
  | none
  | minimal
  | low
  | medium
  | high
  | xHigh
  deriving DecidableEq

inductive ReasoningSummary where
  | auto
  | concise
  | detailed
  | none
  deriving DecidableEq

inductive Verbosity where
  | low
  | medium
  | high
  deriving DecidableEq

structure Reasoning where
  effort : Option ReasoningEffort
  summary : Option ReasoningSummary
  deriving DecidableEq

structure TextFormat (J : Type) where
  strict : Bool
  schema : J
  name : Str
  deriving DecidableEq

structure TextControls (J : Type) where
  verbosity : Option Verbosity
  format : Option (TextFormat J)
  deriving DecidableEq

structure ResponsesApiRequest (I J : Type) where
  model : Str
  instructions : Str
  input : List I
  tools : List J
  toolChoice : Str
  parallelToolCalls : Bool
  reasoning : Option Reasoning
  store : Bool
  stream : Bool
  «include» : List Str
  promptCacheKey : Option Str
  text : Option (TextControls J)
  deriving DecidableEq

def ResponsesApiRequest.withoutInput {I J : Type} (request : ResponsesApiRequest I J) :
    ResponsesApiRequest I J :=
  { request with input := [] }

/-- A `ResponseCreateWsRequest` has the fields of the request and the response it goes on from. -/
structure ResponseCreateWsRequest (I J : Type) extends ResponsesApiRequest I J where
  previousResponseId : Option Str

inductive ResponsesWsRequest (I J : Type) where
  | responseCreate (payload : ResponseCreateWsRequest I J)
  | responseAppend (input : List I)

structure LastResponse (I : Type) where
  responseId : Str
  itemsAdded : List I
  canAppend : Bool

/-! ## Building the request -/

structure Prompt (I J : Type) where
  input : List I
  tools : List J
  parallelToolCalls : Bool
  baseInstructions : Str
  outputSchema : Option J

structure ModelInfo where
  slug : Str
  supportsReasoningSummaries : Bool
  defaultReasoningLevel : Option ReasoningEffort
  supportVerbosity : Bool
  defaultVerbosity : Option Verbosity
  preferWebsockets : Bool

/-- The settings of a session that requests and transports depend on. -/
structure ModelClientState where
  conversationId : Str
  isAzureResponsesEndpoint : Bool
  supportsWebsockets : Bool
  modelVerbosity : Option Verbosity
  enableResponsesWebsockets : Bool
  enableResponsesWebsocketsV2 : Bool

namespace ModelClientState

variable {I J : Type} (client : ModelClientState)

def responsesWebsocketEnabled (modelInfo : ModelInfo) : Bool :=
  client.supportsWebsockets && (client.enableResponsesWebsockets || modelInfo.preferWebsockets)

def createTextParamForRequest (verbosity : Option Verbosity) (outputSchema : Option J) :
    Option (TextControls J) :=
  if verbosity.isNone && outputSchema.isNone then none
  else some
    { verbosity
      format := outputSchema.map fun schema =>
        { strict := true, schema, name := "codex_output_schema".toList } }

def buildResponsesRequest (prompt : Prompt I J) (modelInfo : ModelInfo)
    (effort : Option ReasoningEffort) (summary : ReasoningSummary) : ResponsesApiRequest I J :=
  let reasoning :=
    if modelInfo.supportsReasoningSummaries then
      some
        { effort := effort.or modelInfo.defaultReasoningLevel
          summary := if summary = .none then none else some summary }
    else none
  let verbosity :=
    if modelInfo.supportVerbosity then client.modelVerbosity.or modelInfo.defaultVerbosity
    else none
  { model := modelInfo.slug
    instructions := prompt.baseInstructions
    input := prompt.input
    tools := prompt.tools
    toolChoice := "auto".toList
    parallelToolCalls := prompt.parallelToolCalls
    reasoning
    store := client.isAzureResponsesEndpoint
    stream := true
    «include» := if reasoning.isSome then ["reasoning.encrypted_content".toList] else []
    promptCacheKey := some client.conversationId
    text := createTextParamForRequest verbosity prompt.outputSchema }

end ModelClientState

/-! ## The incremental request -/

section Incremental

variable {I J : Type} [DecidableEq I] [DecidableEq J]

def getIncrementalItems (websocketLastRequest : Option (ResponsesApiRequest I J))
    (request : ResponsesApiRequest I J) (lastResponse : LastResponse I) : Option (List I) :=
  match websocketLastRequest with
  | none => none
  | some previousRequest =>
    if previousRequest.withoutInput ≠ request.withoutInput then none
    else
      let baseline := previousRequest.input ++ lastResponse.itemsAdded
      if 0 < baseline.length ∧ baseline <+: request.input ∧ baseline.length < request.input.length
      then some (request.input.drop baseline.length)
      else none

def ResponseCreateWsRequest.from (request : ResponsesApiRequest I J) :
    ResponseCreateWsRequest I J :=
  { request with previousResponseId := none }

/-- `prepare_websocket_request`, given what `get_last_response` returns. -/
def prepareWebsocketRequest (responsesWebsocketsV2Enabled : Bool)
    (websocketLastRequest : Option (ResponsesApiRequest I J))
    (request : ResponsesApiRequest I J) (lastResponse : Option (LastResponse I)) :
    ResponsesWsRequest I J :=
  let payload := ResponseCreateWsRequest.from request
  match lastResponse with
  | none => .responseCreate payload
  | some lastResponse =>
    if ¬ responsesWebsocketsV2Enabled ∧ ¬ lastResponse.canAppend then .responseCreate payload
    else
      match getIncrementalItems websocketLastRequest request lastResponse with
      | some appendItems =>
        if responsesWebsocketsV2Enabled ∧ lastResponse.responseId ≠ [] then
          .responseCreate
            { payload with
              previousResponseId := some lastResponse.responseId
              input := appendItems }
        else if ¬ responsesWebsocketsV2Enabled then .responseAppend appendItems
        else .responseCreate payload
      | none => .responseCreate payload

/-- What is left of the request after the input of the previous one and the items added. -/
theorem getIncrementalItems_eq_some {websocketLastRequest : Option (ResponsesApiRequest I J)}
    {request : ResponsesApiRequest I J} {lastResponse : LastResponse I} {appendItems : List I}
    (h : getIncrementalItems websocketLastRequest request lastResponse = some appendItems) :
    ∃ previousRequest, websocketLastRequest = some previousRequest ∧ request =
      { previousRequest with
        input := previousRequest.input ++ lastResponse.itemsAdded ++ appendItems } := by
  cases websocketLastRequest with
  | none => cases h
  | some previousRequest =>
    refine ⟨previousRequest, rfl, ?_⟩
    simp only [getIncrementalItems] at h
    split at h
    · cases h
    next hsame =>
      split at h
      next hprefix =>
        obtain ⟨-, hprefix, -⟩ := hprefix
        obtain ⟨rest, hrest⟩ := hprefix
        have hdrop := Option.some.inj h
        rw [← hrest, List.drop_left] at hdrop
        subst hdrop
        rw [hrest]
        have hfields := not_not.1 hsame
        cases request
        cases previousRequest
        simp only [ResponsesApiRequest.withoutInput, ResponsesApiRequest.mk.injEq, true_and]
          at hfields ⊢
        simpa [eq_comm] using hfields
      · cases h

/-- The request that is sent is the full one, or goes on from the last response. -/
theorem prepareWebsocketRequest_cases (v2 : Bool)
    (websocketLastRequest : Option (ResponsesApiRequest I J)) (request : ResponsesApiRequest I J)
    (lastResponse : Option (LastResponse I)) :
    prepareWebsocketRequest v2 websocketLastRequest request lastResponse =
        .responseCreate (.from request) ∨
      ∃ previousRequest last appendItems, websocketLastRequest = some previousRequest ∧
        lastResponse = some last ∧
        request = { previousRequest with
          input := previousRequest.input ++ last.itemsAdded ++ appendItems } ∧
        (prepareWebsocketRequest v2 websocketLastRequest request lastResponse =
            .responseCreate
              { request with previousResponseId := some last.responseId, input := appendItems } ∧
          last.responseId ≠ [] ∨
        prepareWebsocketRequest v2 websocketLastRequest request lastResponse =
          .responseAppend appendItems ∧ v2 = false) := by
  unfold prepareWebsocketRequest
  cases lastResponse with
  | none => exact .inl rfl
  | some last =>
    dsimp only
    split
    · exact .inl rfl
    · cases hitems : getIncrementalItems websocketLastRequest request last with
      | none => exact .inl rfl
      | some appendItems =>
        obtain ⟨previousRequest, hlast, hrequest⟩ := getIncrementalItems_eq_some hitems
        dsimp only
        split
        next hbranch =>
          exact .inr ⟨previousRequest, last, appendItems, hlast, rfl, hrequest,
            .inl ⟨rfl, hbranch.2⟩⟩
        · split
          next happend =>
            exact .inr ⟨previousRequest, last, appendItems, hlast, rfl, hrequest,
              .inr ⟨rfl, by simpa using happend⟩⟩
          · exact .inl rfl

end Incremental

/-! ## The events of a response -/

/-- An event on the wire. `none` is an item that does not parse. -/
inductive WireEvent (I : Type) where
  | outputItemDone (item : Option I)
  | responseCompleted (id : Str)
  | responseDone (id : Option Str)
  /-- `response.failed`, `response.incomplete`, a wrapped error, a close or a timeout -/
  | failed
  | other

inductive ResponseEvent (I : Type) where
  | outputItemDone (item : I)
  | completed (responseId : Str) (canAppend : Bool)
  | failed
  | other

variable {I : Type}

def processResponsesEvent : WireEvent I → Option (ResponseEvent I)
  | .outputItemDone (some item) => some (.outputItemDone item)
  | .outputItemDone none => none
  | .responseCompleted id => some (.completed id false)
  | .responseDone id => some (.completed (id.getD []) true)
  | .failed => some .failed
  | .other => some .other

/-- The task of `map_response_stream`. -/
structure StreamMap (I : Type) where
  /-- the events it has not read yet -/
  apiStream : List (ResponseEvent I)
  itemsAdded : List I
  /-- what it has sent on its channel -/
  lastResponse : Option (LastResponse I)
  /-- the caller has dropped the stream -/
  dropped : Bool
  returned : Bool

namespace StreamMap

def new : StreamMap I := ⟨[], [], none, false, false⟩

/-- One turn of the loop: an item counts also where sending it on fails. -/
def handle (streamMap : StreamMap I) : ResponseEvent I → StreamMap I
  | .outputItemDone item =>
    { streamMap with
      itemsAdded := streamMap.itemsAdded ++ [item]
      returned := streamMap.dropped }
  | .completed responseId canAppend =>
    match streamMap.lastResponse with
    | none =>
      { streamMap with
        lastResponse := some ⟨responseId, streamMap.itemsAdded, canAppend⟩
        itemsAdded := []
        returned := streamMap.dropped }
    | some _ => { streamMap with returned := streamMap.dropped }
  | .failed | .other => { streamMap with returned := streamMap.dropped }

end StreamMap

end SheriMl.Client
