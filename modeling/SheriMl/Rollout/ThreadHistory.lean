import SheriMl.Protocol.Rollout

/-!
# The turns of a thread

`build_turns_from_rollout_items` of
`app-server-protocol/src/protocol/thread_history.rs`: the turns that a client is
shown, from the events of a rollout. A turn that no event names has an id made up for
it, here `none`.
-/

namespace SheriMl.Rollout

open Protocol

/-- The app server's `UserInput`. -/
inductive ThreadInput where
  | text (text : Str)
  | image (url : Str)
  | localImage (path : Str)
  deriving DecidableEq

inductive ThreadItem where
  | userMessage (id : Str) (content : List ThreadInput)
  | agentMessage (id text : Str)
  | plan (id text : Str)
  | reasoning (id : Str) (summary content : List Str)
  | commandExecution (id : Str)
  | tool (id : Str)
  | contextCompaction (id : Str)
  | enteredReviewMode (id review : Str)
  | exitedReviewMode (id review : Str)

inductive TurnStatus where
  | completed
  | interrupted
  | failed
  | inProgress

structure Turn where
  id : Option Str
  items : List ThreadItem
  error : Option Str
  status : TurnStatus

structure PendingTurn extends Turn where
  openedExplicitly : Bool
  sawCompaction : Bool

structure ThreadHistoryBuilder where
  turns : List Turn
  currentTurn : Option PendingTurn
  nextItemIndex : Nat

def newTurn (id : Option Str) : PendingTurn := ⟨⟨id, [], none, .completed⟩, false, false⟩

def PendingTurn.push (turn : PendingTurn) (item : ThreadItem) : PendingTurn :=
  { turn with items := turn.items ++ [item] }

def Turn.push (turn : Turn) (item : ThreadItem) : Turn := { turn with items := turn.items ++ [item] }

/-- `find` with `iter_mut`: changes the first turn of an id. -/
def updateTurn (turnId : Str) (change : Turn → Turn) : List Turn → Option (List Turn)
  | [] => none
  | turn :: turns =>
    if turn.id = some turnId then some (change turn :: turns)
    else (updateTurn turnId change turns).map (turn :: ·)

def buildUserInputs (payload : UserMessageEvent) : List ThreadInput :=
  (if (Str.trim payload.message).isEmpty then [] else [.text payload.message]) ++
    (payload.images.getD []).map .image ++ payload.localImages.map .localImage

/-- `render_review_output_text`, of the explanation of a review. -/
def renderReviewOutputText (explanation : Str) : Str :=
  if (Str.trim explanation).isEmpty then ("Reviewer failed to output a response." : Str)
  else Str.trim explanation

/-- The reasoning item that a turn ends with, if it does. -/
def lastReasoning (items : List ThreadItem) : Option (Str × List Str × List Str) :=
  match items.getLast? with
  | some (.reasoning id summary content) => some (id, summary, content)
  | _ => none

namespace ThreadHistoryBuilder

def new : ThreadHistoryBuilder := ⟨[], none, 1⟩

def finishCurrentTurn (b : ThreadHistoryBuilder) : ThreadHistoryBuilder :=
  match b.currentTurn with
  | none => b
  | some turn =>
    if turn.items.isEmpty && !turn.openedExplicitly && !turn.sawCompaction then
      { b with currentTurn := none }
    else { b with turns := b.turns ++ [turn.toTurn], currentTurn := none }

def finish (b : ThreadHistoryBuilder) : List Turn := b.finishCurrentTurn.turns

/-- `ensure_turn`: the current turn, or a new one. -/
def ensureTurn (b : ThreadHistoryBuilder) : PendingTurn := b.currentTurn.getD (newTurn none)

def setTurn (b : ThreadHistoryBuilder) (turn : PendingTurn) : ThreadHistoryBuilder :=
  { b with currentTurn := some turn }

def nextItemId (b : ThreadHistoryBuilder) : Str :=
  ("item-" : Str) ++ Nat.toDigits 10 b.nextItemIndex

def pushItem (b : ThreadHistoryBuilder) (item : ThreadItem) : ThreadHistoryBuilder :=
  b.setTurn (b.ensureTurn.push item)

/-- Pushes an item that takes the next id. -/
def pushNumbered (b : ThreadHistoryBuilder) (item : Str → ThreadItem) : ThreadHistoryBuilder :=
  { b.pushItem (item b.nextItemId) with nextItemIndex := b.nextItemIndex + 1 }

def handleUserMessage (b : ThreadHistoryBuilder) (payload : UserMessageEvent) :
    ThreadHistoryBuilder :=
  let b :=
    match b.currentTurn with
    | some turn =>
      if !turn.openedExplicitly && !(turn.sawCompaction && turn.items.isEmpty) then
        b.finishCurrentTurn
      else b
    | none => b
  b.pushNumbered fun id => .userMessage id (buildUserInputs payload)

def handleAgentMessage (b : ThreadHistoryBuilder) (text : Str) : ThreadHistoryBuilder :=
  if text.isEmpty then b else b.pushNumbered fun id => .agentMessage id text

/-- `handle_agent_reasoning` and `handle_agent_reasoning_raw_content`: adds to the reasoning
item the turn ends with, or pushes one. -/
def handleReasoning (b : ThreadHistoryBuilder) (text : Str) (raw : Bool) : ThreadHistoryBuilder :=
  if text.isEmpty then b
  else
    let turn := b.ensureTurn
    match lastReasoning turn.items with
    | some (id, summary, content) =>
      let item := if raw then ThreadItem.reasoning id summary (content ++ [text])
        else .reasoning id (summary ++ [text]) content
      b.setTurn { turn with items := turn.items.dropLast ++ [item] }
    | none =>
      b.pushNumbered fun id => if raw then .reasoning id [] [text] else .reasoning id [text] []

/-- An item of a turn that an event names: the current one, an earlier one, or none known. -/
def handleExecCommandEnd (b : ThreadHistoryBuilder) (callId turnId : Str) : ThreadHistoryBuilder :=
  let item := ThreadItem.commandExecution callId
  if (b.currentTurn.map fun turn => turn.id) = some (some turnId) then b.pushItem item
  else
    match updateTurn turnId (fun turn => turn.push item) b.turns with
    | some turns => { b with turns }
    | none => b.pushItem item

def handleError (b : ThreadHistoryBuilder) (message : Str) (affectsTurnStatus : Bool) :
    ThreadHistoryBuilder :=
  if !affectsTurnStatus then b
  else
    match b.currentTurn with
    | none => b
    | some turn => b.setTurn { turn with status := .failed, error := some message }

/-- Changes the status of the turn named, or of the current one. -/
def handleTurnAborted (b : ThreadHistoryBuilder) (turnId : Option Str) : ThreadHistoryBuilder :=
  let interruptCurrent :=
    match b.currentTurn with
    | none => b
    | some turn => b.setTurn { turn with status := .interrupted }
  match turnId with
  | none => interruptCurrent
  | some turnId =>
    if (b.currentTurn.map fun turn => turn.id) = some (some turnId) then interruptCurrent
    else
      match updateTurn turnId (fun turn => { turn with status := .interrupted }) b.turns with
      | some turns => { b with turns }
      | none => interruptCurrent

def handleTurnStarted (b : ThreadHistoryBuilder) (turnId : Str) : ThreadHistoryBuilder :=
  b.finishCurrentTurn.setTurn { newTurn (some turnId) with openedExplicitly := true }

def markCompleted (status : TurnStatus) : TurnStatus :=
  match status with
  | .completed => .completed
  | .inProgress => .completed
  | status => status

def handleTurnComplete (b : ThreadHistoryBuilder) (turnId : Str) : ThreadHistoryBuilder :=
  let completeCurrent :=
    match b.currentTurn with
    | none => b
    | some turn => (b.setTurn { turn with status := markCompleted turn.status }).finishCurrentTurn
  if (b.currentTurn.map fun turn => turn.id) = some (some turnId) then completeCurrent
  else
    match updateTurn turnId (fun turn => { turn with status := markCompleted turn.status })
        b.turns with
    | some turns => { b with turns }
    | none => completeCurrent

def handleCompacted (b : ThreadHistoryBuilder) : ThreadHistoryBuilder :=
  b.setTurn { b.ensureTurn with sawCompaction := true }

def handleThreadRollback (b : ThreadHistoryBuilder) (numTurns : Nat) : ThreadHistoryBuilder :=
  let b := b.finishCurrentTurn
  let turns := if b.turns.length ≤ numTurns then [] else b.turns.take (b.turns.length - numTurns)
  ⟨turns, b.currentTurn, (turns.map fun turn => turn.items.length).sum + 1⟩

def handleEvent (b : ThreadHistoryBuilder) : EventMsg → ThreadHistoryBuilder
  | .userMessage payload => b.handleUserMessage payload
  | .agentMessage message => b.handleAgentMessage message
  | .agentReasoning text => b.handleReasoning text false
  | .agentReasoningRawContent text => b.handleReasoning text true
  | .planCompleted id text => if text.isEmpty then b else b.pushItem (.plan id text)
  | .execCommandEnd callId turnId => b.handleExecCommandEnd callId turnId
  | .toolEnd callId => b.pushItem (.tool callId)
  | .contextCompacted => b.pushNumbered .contextCompaction
  | .enteredReviewMode review =>
    b.pushNumbered fun id => .enteredReviewMode id (review.getD ("Review requested." : Str))
  | .exitedReviewMode explanation =>
    b.pushNumbered fun id =>
      .exitedReviewMode id
        ((explanation.map renderReviewOutputText).getD
          ("Reviewer failed to output a response." : Str))
  | .error message affectsTurnStatus => b.handleError message affectsTurnStatus
  | .turnStarted turnId => b.handleTurnStarted turnId
  | .turnComplete turnId => b.handleTurnComplete turnId
  | .turnAborted turnId => b.handleTurnAborted turnId
  | .threadRolledBack numTurns => b.handleThreadRollback numTurns
  | .other => b

def handleRolloutItem (b : ThreadHistoryBuilder) : RolloutItem → ThreadHistoryBuilder
  | .eventMsg event => b.handleEvent event
  | .compacted _ => b.handleCompacted
  | _ => b

end ThreadHistoryBuilder

def buildThreadHistory (items : List RolloutItem) : ThreadHistoryBuilder :=
  items.foldl ThreadHistoryBuilder.handleRolloutItem .new

def buildTurnsFromRolloutItems (items : List RolloutItem) : List Turn :=
  (buildThreadHistory items).finish

end SheriMl.Rollout
