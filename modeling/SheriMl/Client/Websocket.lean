import Mathlib.Logic.Function.Basic
import SheriMl.Client.ModelClient

/-!
# Streams over a WebSocket

`stream`, `stream_responses_websocket`, `websocket_connection`, `prewarm_websocket` and
`try_switch_fallback_transport` of `core/src/client.rs` on one `ModelClientSession`, with the
connection of `codex-api/src/endpoint/responses_websocket.rs`: `stream_request` spawns a task, and
the task sends the request when it has the lock on the stream. It keeps the lock until the response
is over. Connections and calls are numbered.

The server holds, for each connection, the request it accepted last, with the items it has streamed
since as the rest of its input, and what it held when each response was completed.
-/

namespace SheriMl.Client

variable {I J : Type}

/-- A request as the server has it, with what it has streamed. -/
def ResponsesApiRequest.answered (request : ResponsesApiRequest I J) (streamed : List (Option I)) :
    ResponsesApiRequest (Option I) J :=
  { request with input := request.input.map some ++ streamed }

structure Connection (I J : Type) where
  closed : Bool
  /-- the call whose task has the lock on the stream -/
  holder : Option Nat
  /-- the call whose request the server has accepted last -/
  lastAccepted : Option Nat
  held : Option (ResponsesApiRequest (Option I) J)
  /-- by response id -/
  responses : List (Str × ResponsesApiRequest (Option I) J)

namespace Connection

variable (connection : Connection I J)

def new : Connection I J := ⟨false, none, none, none, []⟩

/-- The request that the server reconstructs, if it can. -/
def reconstruct : ResponsesWsRequest I J → Option (ResponsesApiRequest (Option I) J)
  | .responseCreate payload =>
    match payload.previousResponseId with
    | none => some (payload.toResponsesApiRequest.answered [])
    | some responseId => (connection.responses.lookup responseId).map fun held =>
        { payload.toResponsesApiRequest with input := held.input ++ payload.input.map some }
  | .responseAppend input => connection.held.map fun held =>
      { held with input := held.input ++ input.map some }

/-- The request of the call `n` is sent. -/
def send (n : Nat) (wsRequest : ResponsesWsRequest I J) : Connection I J :=
  match connection.reconstruct wsRequest with
  | some request =>
    { connection with holder := some n, lastAccepted := some n, held := some request }
  | none => { connection with holder := some n }

def close : Connection I J := { connection with closed := true, holder := none }

def complete (responseId : Str) : Connection I J :=
  { connection with
    holder := none
    responses := (connection.held.toList.map fun held => (responseId, held)) ++
      connection.responses }

/-- The server streams an event, and the task that has the lock reads it. -/
def stream : WireEvent I → Connection I J
  | .outputItemDone item =>
    { connection with
      held := connection.held.map fun held => { held with input := held.input ++ [item] } }
  | .responseCompleted id => connection.complete id
  | .responseDone id => connection.complete (id.getD [])
  | .failed => connection.close
  | .other => connection

end Connection

/-- The id of the response that an event completes. -/
def WireEvent.completedId? : WireEvent I → Option Str
  | .responseCompleted id => some id
  | .responseDone id => some (id.getD [])
  | _ => none

/-- A call of `stream` that goes over a connection. -/
structure Call (I J : Type) where
  connection : Nat
  /-- the full request -/
  request : ResponsesApiRequest I J
  /-- what is sent of it -/
  wsRequest : ResponsesWsRequest I J
  /-- the call whose response was looked at -/
  previous : Option Nat
  /-- the task has not had the lock yet -/
  queued : Bool
  streamMap : StreamMap I

structure ModelClientSession (I J : Type) where
  connection : Option Nat
  websocketLastRequest : Option (ResponsesApiRequest I J)
  /-- the call whose channel this is -/
  websocketLastResponseRx : Option Nat

/-- The arguments of `stream` that the request is built from. -/
structure StreamArgs (I J : Type) where
  prompt : Prompt I J
  modelInfo : ModelInfo
  effort : Option ReasoningEffort
  summary : ReasoningSummary

def StreamArgs.request (args : StreamArgs I J) (client : ModelClientState) :
    ResponsesApiRequest I J :=
  client.buildResponsesRequest args.prompt args.modelInfo args.effort args.summary

structure State (I J : Type) where
  disableWebsockets : Bool
  session : ModelClientSession I J
  connections : Nat → Option (Connection I J)
  calls : Nat → Option (Call I J)
  /-- each request that a server received: the full one, and what the server reconstructs -/
  received : List (ResponsesApiRequest I J × Option (ResponsesApiRequest (Option I) J))

namespace State

variable (s : State I J) (client : ModelClientState)

def init : State I J := ⟨false, ⟨none, none, none⟩, fun _ => none, fun _ => none, []⟩

def websocketEnabled (modelInfo : ModelInfo) : Prop :=
  client.responsesWebsocketEnabled modelInfo = true ∧ s.disableWebsockets = false

/-- `websocket_connection` needs a new connection. -/
def NeedsNew : Prop :=
  ∀ c, s.session.connection = some c →
    ∃ connection, s.connections c = some connection ∧ connection.closed = true

/-- `websocket_connection`, before it connects. -/
def reset : State I J :=
  { s with
    session := { s.session with
      websocketLastRequest := none
      websocketLastResponseRx := none } }

def connect (c : Nat) : State I J :=
  { s with
    session := { s.session with connection := some c }
    connections := Function.update s.connections c (some .new) }

def getLastResponse : Option (LastResponse I) :=
  s.session.websocketLastResponseRx.bind fun n =>
    (s.calls n).bind fun call => call.streamMap.lastResponse

/-- The rest of `stream_responses_websocket`, on the connection `c`. -/
def streamRequest [DecidableEq I] [DecidableEq J] (n c : Nat) (request : ResponsesApiRequest I J) :
    State I J :=
  { s with
    session := { s.session with
      websocketLastRequest := some request
      websocketLastResponseRx := some n }
    calls := Function.update s.calls n (some
      { connection := c
        request
        wsRequest := prepareWebsocketRequest client.enableResponsesWebsocketsV2
          s.session.websocketLastRequest request s.getLastResponse
        previous := s.session.websocketLastResponseRx
        queued := true
        streamMap := .new }) }

def streamResponsesApi (request : ResponsesApiRequest I J) : State I J :=
  { s with received := s.received ++ [(request, some (request.answered []))] }

def trySwitchFallbackTransport (modelInfo : ModelInfo) : State I J :=
  if client.responsesWebsocketEnabled modelInfo ∧ ¬ s.disableWebsockets then
    { s with disableWebsockets := true, session := ⟨none, none, none⟩ }
  else s

/-- A step of the task of the call `n`, or of its response. -/
def setCall (n : Nat) (call : Call I J) (connection : Connection I J) : State I J :=
  { s with
    calls := Function.update s.calls n (some call)
    connections := Function.update s.connections call.connection (some connection) }

end State

namespace Call

variable (call : Call I J)

def receive (event : Option (ResponseEvent I)) : Call I J :=
  { call with streamMap := { call.streamMap with
      apiStream := call.streamMap.apiStream ++ event.toList } }

def setStreamMap (streamMap : StreamMap I) : Call I J := { call with streamMap }

def start : Call I J := { call with queued := false }

end Call

inductive Action (I J : Type) where
  | streamed (n : Nat) (args : StreamArgs I J)
  | connectedAndStreamed (n c : Nat) (args : StreamArgs I J)
  | connectFailed
  | upgradeRequired (args : StreamArgs I J)
  | streamedHttp (args : StreamArgs I J)
  | switchedFallback (modelInfo : ModelInfo)
  /-- by another session of the client -/
  | disabledWebsockets
  | prewarmed (c : Nat) (modelInfo : ModelInfo)
  | sent (n : Nat)
  | sendFailed (n : Nat)
  | foundClosed (n : Nat)
  | event (n : Nat) (event : WireEvent I)
  | handled (n : Nat)
  | dropped (n : Nat)

/-- The steps of the calls on a session, of their tasks, and of the server. -/
inductive Step [DecidableEq I] [DecidableEq J] (client : ModelClientState) :
    State I J → Action I J → State I J → Prop
  -- the lock is free when the connection is found open
  | streamed {s c connection} (n args) (henabled : s.websocketEnabled client args.modelInfo)
      (hsession : s.session.connection = some c) (hconnection : s.connections c = some connection)
      (hopen : connection.closed = false) (hfree : connection.holder = none)
      (hn : s.calls n = none) :
      Step client s (.streamed n args) (s.streamRequest client n c (args.request client))
  | connectedAndStreamed {s} (n c args) (henabled : s.websocketEnabled client args.modelInfo)
      (hneeds : s.NeedsNew) (hc : s.connections c = none) (hn : s.calls n = none) :
      Step client s (.connectedAndStreamed n c args)
        ((s.reset.connect c).streamRequest client n c (args.request client))
  | connectFailed {s} {args : StreamArgs I J}
      (henabled : s.websocketEnabled client args.modelInfo) (hneeds : s.NeedsNew) :
      Step client s .connectFailed s.reset
  | upgradeRequired {s args} (henabled : s.websocketEnabled client args.modelInfo)
      (hneeds : s.NeedsNew) :
      Step client s (.upgradeRequired args)
        ((s.reset.trySwitchFallbackTransport client args.modelInfo).streamResponsesApi
          (args.request client))
  | streamedHttp {s args} (hdisabled : ¬ s.websocketEnabled client args.modelInfo) :
      Step client s (.streamedHttp args) (s.streamResponsesApi (args.request client))
  | switchedFallback {s modelInfo} :
      Step client s (.switchedFallback modelInfo) (s.trySwitchFallbackTransport client modelInfo)
  | disabledWebsockets {s} :
      Step client s .disabledWebsockets { s with disableWebsockets := true }
  | prewarmed {s c modelInfo} (henabled : s.websocketEnabled client modelInfo)
      (hsession : s.session.connection = none) (hc : s.connections c = none) :
      Step client s (.prewarmed c modelInfo) (s.connect c)
  | sent {s call connection} (n) (hcall : s.calls n = some call) (hqueued : call.queued = true)
      (hconnection : s.connections call.connection = some connection)
      (hopen : connection.closed = false) (hfree : connection.holder = none) :
      Step client s (.sent n)
        { s.setCall n call.start (connection.send n call.wsRequest) with
          received := s.received ++ [(call.request, connection.reconstruct call.wsRequest)] }
  | sendFailed {s n call connection} (hcall : s.calls n = some call) (hqueued : call.queued = true)
      (hconnection : s.connections call.connection = some connection)
      (hopen : connection.closed = false) (hfree : connection.holder = none) :
      Step client s (.sendFailed n)
        (s.setCall n (call.start.receive (some .failed)) connection.close)
  | foundClosed {s n call connection} (hcall : s.calls n = some call) (hqueued : call.queued = true)
      (hconnection : s.connections call.connection = some connection)
      (hclosed : connection.closed = true) :
      Step client s (.foundClosed n)
        (s.setCall n (call.start.receive (some .failed)) connection)
  -- the server answers what it has accepted, and its response ids are new
  | event {s call connection} (n event) (hcall : s.calls n = some call)
      (hconnection : s.connections call.connection = some connection)
      (hholder : connection.holder = some n)
      (haccepted : event = .failed ∨ connection.lastAccepted = some n)
      (hid : ∀ id, event.completedId? = some id → id ≠ [] → connection.responses.lookup id = none) :
      Step client s (.event n event)
        (s.setCall n (call.receive (processResponsesEvent event)) (connection.stream event))
  | handled {s call connection event rest} (n) (hcall : s.calls n = some call)
      (hconnection : s.connections call.connection = some connection)
      (hreturned : call.streamMap.returned = false)
      (hevents : call.streamMap.apiStream = event :: rest) :
      Step client s (.handled n)
        (s.setCall n (call.setStreamMap ({ call.streamMap with apiStream := rest }.handle event))
          connection)
  | dropped {s call connection} (n) (hcall : s.calls n = some call)
      (hconnection : s.connections call.connection = some connection) :
      Step client s (.dropped n)
        (s.setCall n (call.setStreamMap { call.streamMap with dropped := true }) connection)

end SheriMl.Client
