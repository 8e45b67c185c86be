import Mathlib.Logic.Function.Basic
import SheriMl.ContextManager.EventMapping
import SheriMl.Streaming.TaggedBlockParser

/-!
# Streaming in plan mode

The events that `try_run_sampling_request` of `core/src/codex.rs` sends for the items of a response
in plan mode. The text of an assistant message goes through a parser of its own, and what stands in
`<proposed_plan>` blocks goes to a plan item, of which there is one. The start of a message waits for
text that is not blank. The finished items come from the text of `OutputItemDone`, parsed again.
-/

namespace SheriMl.Turn.PlanMode

open Protocol Streaming

/-- An item, with the id that is made up for it where it has none. -/
inductive TurnItem where
  | agentMessage (id : Str) (content : List Str) (phase : Option MessagePhase)
  | plan (id text : Str)
  | other (id : Str) (item : ContextManager.TurnItem)
  deriving DecidableEq

def TurnItem.id : TurnItem → Str
  | .agentMessage id _ _ => id
  | .plan id _ => id
  | .other id _ => id

inductive EventMsg where
  | itemStarted (item : TurnItem)
  | itemCompleted (item : TurnItem)
  | agentMessageContentDelta (itemId delta : Str)
  | planDelta (itemId delta : Str)
  deriving DecidableEq

/-- The events of the stream. `uuid`: the id that is made up for an item without one. -/
inductive ResponseEvent where
  | outputItemAdded (item : ResponseItem) (uuid : Str)
  | outputItemDone (item : ResponseItem) (uuid : Str)
  | outputTextDelta (delta : Str)
  | completed
  /-- an event that leaves the items and their text -/
  | unrelated

/-! ## Texts -/

def isBlank (text : Str) : Bool := text.all Str.isWhitespace

def outputText (content : List ContentItem) : Str :=
  content.flatMap fun
    | .outputText text => text
    | _ => []

/-- The loop of `extract_proposed_plan_text`: whether a block was seen, and its text. -/
def extractSegment : Bool × Str → ProposedPlanSegment → Bool × Str
  | _, .proposedPlanStart => (true, [])
  | (sawPlanBlock, planText), .proposedPlanDelta delta => (sawPlanBlock, planText ++ delta)
  | result, .proposedPlanEnd | result, .normal _ => result

def extractProposedPlanText (text : Str) : Option Str :=
  let (sawPlanBlock, planText) := (planStream [text]).foldl extractSegment (false, [])
  if sawPlanBlock then some planText else none

/-- `parse_turn_item`, with the id that is made up. -/
def ofParsed (uuid : Str) : ContextManager.TurnItem → TurnItem
  | .agentMessage id content phase => .agentMessage (id.getD uuid) content phase
  | .userMessage content => .other uuid (.userMessage content)
  | .reasoning id summaryText rawContent => .other id (.reasoning id summaryText rawContent)
  | .webSearch id => .other id (.webSearch id)

def handleNonToolResponseItem (item : ResponseItem) (uuid : Str) : Option TurnItem :=
  (ContextManager.parseTurnItem item).map fun parsed =>
    match ofParsed uuid parsed with
    | .agentMessage id content phase =>
      .agentMessage id [stripProposedPlanBlocks content.flatten] phase
    | turnItem => turnItem

/-! ## The state of a response -/

structure ProposedPlanItemState where
  itemId : Str
  started : Bool
  completed : Bool

/-- The state of the response, with the events sent so far. -/
structure PlanModeStreamState where
  planParsers : List (Str × TaggedLineParser PlanTag)
  pendingAgentMessageItems : Str → Option TurnItem
  startedAgentMessageItems : Str → Bool
  leadingWhitespaceByItem : Str → Option Str
  planItemState : ProposedPlanItemState
  activeItem : Option TurnItem
  sent : List EventMsg

namespace PlanModeStreamState

def new (turnId : Str) : PlanModeStreamState where
  planParsers := []
  pendingAgentMessageItems := fun _ => none
  startedAgentMessageItems := fun _ => false
  leadingWhitespaceByItem := fun _ => none
  planItemState := ⟨turnId ++ "-plan".toList, false, false⟩
  activeItem := none
  sent := []

def send (event : EventMsg) (s : PlanModeStreamState) : PlanModeStreamState :=
  { s with sent := s.sent ++ [event] }

/-! ## The plan item -/

/-- `ProposedPlanItemState::start`. -/
def startPlan (s : PlanModeStreamState) : PlanModeStreamState :=
  if s.planItemState.started || s.planItemState.completed then s
  else
    { s with planItemState := { s.planItemState with started := true } }.send
      (.itemStarted (.plan s.planItemState.itemId []))

/-- `ProposedPlanItemState::push_delta`. -/
def pushPlanDelta (delta : Str) (s : PlanModeStreamState) : PlanModeStreamState :=
  if s.planItemState.completed then s
  else if delta.isEmpty then s
  else s.send (.planDelta s.planItemState.itemId delta)

/-- `ProposedPlanItemState::complete_with_text`. -/
def completePlanWithText (text : Str) (s : PlanModeStreamState) : PlanModeStreamState :=
  if s.planItemState.completed || !s.planItemState.started then s
  else
    { s with planItemState := { s.planItemState with completed := true } }.send
      (.itemCompleted (.plan s.planItemState.itemId text))

/-! ## Text of a message -/

def maybeEmitPendingAgentMessageStart (itemId : Str) (s : PlanModeStreamState) :
    PlanModeStreamState :=
  if s.startedAgentMessageItems itemId then s
  else
    match s.pendingAgentMessageItems itemId with
    | some item =>
      { s with
        pendingAgentMessageItems := Function.update s.pendingAgentMessageItems itemId none
        startedAgentMessageItems := Function.update s.startedAgentMessageItems itemId true }.send
        (.itemStarted item)
    | none => s

/-- One segment of the loop in `handle_plan_segments`. -/
def handlePlanSegment (itemId : Str) (s : PlanModeStreamState) :
    ProposedPlanSegment → PlanModeStreamState
  | .normal delta =>
    if delta.isEmpty then s
    else if isBlank delta && !s.startedAgentMessageItems itemId then
      { s with
        leadingWhitespaceByItem := Function.update s.leadingWhitespaceByItem itemId
          (some ((s.leadingWhitespaceByItem itemId).getD [] ++ delta)) }
    else
      let (s, delta) :=
        if s.startedAgentMessageItems itemId then (s, delta)
        else
          match s.leadingWhitespaceByItem itemId with
          | some whitespace =>
            ({ s with
               leadingWhitespaceByItem := Function.update s.leadingWhitespaceByItem itemId none },
              whitespace ++ delta)
          | none => (s, delta)
      (maybeEmitPendingAgentMessageStart itemId s).send (.agentMessageContentDelta itemId delta)
  | .proposedPlanStart => if s.planItemState.completed then s else startPlan s
  | .proposedPlanDelta delta =>
    if s.planItemState.completed then s
    else pushPlanDelta delta (if s.planItemState.started then s else startPlan s)
  | .proposedPlanEnd => s

def handlePlanSegments (itemId : Str) (segments : List ProposedPlanSegment)
    (s : PlanModeStreamState) : PlanModeStreamState :=
  segments.foldl (handlePlanSegment itemId) s

def parseTextDelta (itemId delta : Str) (s : PlanModeStreamState) : PlanModeStreamState :=
  let parser := (s.planParsers.lookup itemId).getD (.new planSpecs)
  let (parser, segments) := parser.parse delta
  handlePlanSegments itemId (segments.map mapPlanSegment)
    { s with planParsers := (itemId, parser) :: s.planParsers.filter fun entry => entry.1 ≠ itemId }

def flushProposedPlanSegmentsForItem (itemId : Str) (s : PlanModeStreamState) :
    PlanModeStreamState :=
  match s.planParsers.lookup itemId with
  | some parser =>
    handlePlanSegments itemId (parser.finish.2.map mapPlanSegment)
      { s with planParsers := s.planParsers.filter fun entry => entry.1 ≠ itemId }
  | none => s

/-- The parsers that are left, of which the source does not tell the order. -/
def flushProposedPlanSegmentsAll (s : PlanModeStreamState) : PlanModeStreamState :=
  s.planParsers.foldl
    (fun s entry => handlePlanSegments entry.1 (entry.2.finish.2.map mapPlanSegment) s)
    { s with planParsers := [] }

/-! ## Finished items -/

def completePlanItemFromText (text : Str) (s : PlanModeStreamState) : PlanModeStreamState :=
  match extractProposedPlanText text with
  | some planText =>
    completePlanWithText planText (if s.planItemState.started then s else startPlan s)
  | none => s

def maybeCompletePlanItemFromMessage (item : ResponseItem) (s : PlanModeStreamState) :
    PlanModeStreamState :=
  match item with
  | .message _ role content _ _ =>
    if role = "assistant" then completePlanItemFromText (outputText content) s else s
  | _ => s

def emitAgentMessageInPlanMode (id : Str) (content : List Str) (phase : Option MessagePhase)
    (s : PlanModeStreamState) : PlanModeStreamState :=
  if (Str.trim content.flatten).isEmpty then
    { s with
      pendingAgentMessageItems := Function.update s.pendingAgentMessageItems id none
      startedAgentMessageItems := Function.update s.startedAgentMessageItems id false }
  else
    let s := maybeEmitPendingAgentMessageStart id s
    let s :=
      if s.startedAgentMessageItems id then s
      else
        let startItem := (s.pendingAgentMessageItems id).getD (.agentMessage id [] none)
        { s with
          pendingAgentMessageItems := Function.update s.pendingAgentMessageItems id none
          startedAgentMessageItems := Function.update s.startedAgentMessageItems id true }.send
          (.itemStarted startItem)
    let s := s.send (.itemCompleted (.agentMessage id content phase))
    { s with startedAgentMessageItems := Function.update s.startedAgentMessageItems id false }

/-- Also the branch of `handle_output_item_done` for an item that is no tool call. -/
def emitTurnItemInPlanMode (turnItem : TurnItem) (previouslyActive : Option TurnItem)
    (s : PlanModeStreamState) : PlanModeStreamState :=
  match turnItem with
  | .agentMessage id content phase => emitAgentMessageInPlanMode id content phase s
  | turnItem =>
    (if previouslyActive.isNone then s.send (.itemStarted turnItem) else s).send
      (.itemCompleted turnItem)

/-! ## The loop -/

def outputItemAdded (item : ResponseItem) (uuid : Str) (s : PlanModeStreamState) :
    PlanModeStreamState :=
  match handleNonToolResponseItem item uuid with
  | some (.agentMessage id content phase) =>
    { s with
      pendingAgentMessageItems := Function.update s.pendingAgentMessageItems id
        (some (.agentMessage id content phase))
      activeItem := some (.agentMessage id content phase) }
  | some turnItem => { s.send (.itemStarted turnItem) with activeItem := some turnItem }
  | none => s

def flushPreviouslyActive (previouslyActive : Option TurnItem) (s : PlanModeStreamState) :
    PlanModeStreamState :=
  match previouslyActive with
  | some (.agentMessage id _ _) => flushProposedPlanSegmentsForItem id s
  | _ => s

def outputItemDone (item : ResponseItem) (uuid : Str) (s : PlanModeStreamState) :
    PlanModeStreamState :=
  let previouslyActive := s.activeItem
  let s := flushPreviouslyActive previouslyActive { s with activeItem := none }
  let s := maybeCompletePlanItemFromMessage item s
  match handleNonToolResponseItem item uuid with
  | some turnItem => emitTurnItemInPlanMode turnItem previouslyActive s
  | none => s

def outputTextDelta (delta : Str) (s : PlanModeStreamState) : PlanModeStreamState :=
  match s.activeItem with
  | some (.agentMessage id _ _) => parseTextDelta id delta s
  | some active => s.send (.agentMessageContentDelta active.id delta)
  -- `error_or_panic`
  | none => s

def receive (s : PlanModeStreamState) : ResponseEvent → PlanModeStreamState
  | .outputItemAdded item uuid => outputItemAdded item uuid s
  | .outputItemDone item uuid => outputItemDone item uuid s
  | .outputTextDelta delta => outputTextDelta delta s
  | .completed => flushProposedPlanSegmentsAll s
  | .unrelated => s

def receiveAll (events : List ResponseEvent) (s : PlanModeStreamState) : PlanModeStreamState :=
  events.foldl receive s

end PlanModeStreamState

end SheriMl.Turn.PlanMode
