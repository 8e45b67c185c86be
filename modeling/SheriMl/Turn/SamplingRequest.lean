import SheriMl.Lib.Pairing
import SheriMl.Streaming.TaggedBlockParser
import SheriMl.Tools.Router

/-!
# A sampling request

`try_run_sampling_request` of `core/src/codex.rs` with `handle_output_item_done` of
`core/src/stream_events_utils.rs`: the items that it records while it reads the model's stream and
when it drains the tool calls in flight. The events it sends to the client are left out. A poll of the
stream is one `Poll`; how the task of the `k`-th tool call ends is open.
-/

namespace SheriMl.Turn

open Protocol Tools Pairing
open Streaming (stripProposedPlanBlocks)

/-- The events of the stream. Of those that record nothing, only the names are kept. -/
inductive ResponseEvent where
  | created
  | outputItemDone (item : ResponseItem)
  | outputItemAdded
  | serverReasoningIncluded
  | completed
  | outputTextDelta
  | reasoningSummaryDelta
  | reasoningContentDelta
  | reasoningSummaryPartAdded
  | rateLimits
  | modelsEtag

/-- What `stream.next().or_cancel(..)` gives. -/
inductive Poll where
  | cancelled
  | closed
  | failed (err : CodexErr)
  | event (event : ResponseEvent)

structure SamplingRequestResult where
  needsFollowUp : Bool
  lastAgentMessage : Option Str

structure OutputItemResult where
  lastAgentMessage : Option Str
  needsFollowUp : Bool
  toolFuture : Option ToolCall

/-- The state of the loop. `recorded` is what went to `record_conversation_items`. -/
structure Receiving where
  recorded : List ResponseItem
  inFlight : List ToolCall
  needsFollowUp : Bool
  lastAgentMessage : Option Str

/-- How the loop is left: by a break, or by a return of the whole function. -/
inductive Exit where
  | broke (outcome : Except CodexErr SamplingRequestResult)
  | returned (err : CodexErr)

variable {R : Type} (turn : TurnContext R) (outcomes : Nat → ToolOutcome R)

def lastAssistantMessageFromItem (planMode : Bool) : ResponseItem → Option Str
  | .message _ role content _ _ =>
    if role = "assistant" then
      let combined := content.flatMap fun
        | .outputText text => text
        | _ => []
      if combined.isEmpty then none
      else if planMode then
        let stripped := stripProposedPlanBlocks combined
        if (Str.trim stripped).isEmpty then none else some stripped
      else some combined
    else none
  | _ => none

/-- A response that the guard rails record in place of a tool's. -/
def guardrailResponse (message : Str) : ResponseItem :=
  .functionCallOutput [] ⟨.text message, none⟩

/-- What `handle_output_item_done` records, and its result. -/
def handleOutputItemDone (item : ResponseItem) :
    List ResponseItem × Except CodexErr OutputItemResult :=
  match buildToolCall turn item with
  | .ok (some call) => ([item], .ok ⟨none, true, some call⟩)
  | .ok none => ([item], .ok ⟨lastAssistantMessageFromItem turn.planMode item, false, none⟩)
  | .error .missingLocalShellCallId =>
    ([item, guardrailResponse "LocalShellCall without call_id or id"], .ok ⟨none, true, none⟩)
  | .error (.respondToModel message) =>
    ([item, guardrailResponse message], .ok ⟨none, true, none⟩)
  | .error (.fatal message) => ([], .error (.fatal message))

/-- `handle_assistant_item_done_in_plan_mode` takes the item. -/
def isAssistantMessage : ResponseItem → Bool
  | .message _ role _ _ _ => role = "assistant"
  | _ => false

/-- The branch of the loop for a finished item. -/
def outputItemDone (item : ResponseItem) (s : Receiving) : Receiving × Option Exit :=
  if turn.planMode && isAssistantMessage item then
    ({ s with
      recorded := s.recorded ++ [item]
      lastAgentMessage := (lastAssistantMessageFromItem true item).or s.lastAgentMessage }, none)
  else
    match handleOutputItemDone turn item with
    | (records, .ok output) =>
      ({ recorded := s.recorded ++ records
         inFlight := s.inFlight ++ output.toolFuture.toList
         needsFollowUp := s.needsFollowUp || output.needsFollowUp
         lastAgentMessage := output.lastAgentMessage.or s.lastAgentMessage }, none)
    | (records, .error err) =>
      ({ s with recorded := s.recorded ++ records }, some (.returned err))

/-- One turn of the loop. -/
def receive (s : Receiving) : Poll → Receiving × Option Exit
  | .cancelled => (s, some (.broke (.error .turnAborted)))
  | .closed => (s, some (.broke (.error (.stream "stream closed before response.completed"))))
  -- `res?`
  | .failed err => (s, some (.returned err))
  | .event .completed =>
    (s, some (.broke (.ok ⟨s.needsFollowUp || turn.hasPendingInput, s.lastAgentMessage⟩)))
  | .event (.outputItemDone item) => outputItemDone turn item s
  | .event _ => (s, none)

/-- The loop; nothing when it still waits after the polls. -/
def receiveAll : List Poll → Receiving → Option (Receiving × Exit)
  | [], _ => none
  | poll :: polls, s =>
    match receive turn s poll with
    | (s', none) => receiveAll polls s'
    | (s', some exit) => some (s', exit)

/-- What `drain_in_flight` records for the calls from the `k`-th on: an error is only logged. -/
def drainInFlight (k : Nat) : List ToolCall → List ResponseItem
  | [] => []
  | call :: calls =>
    match handleToolCall turn call (outcomes k) with
    | .ok response => response.toResponseItem turn :: drainInFlight (k + 1) calls
    | .error _ => drainInFlight (k + 1) calls

/-- What `try_run_sampling_request` has recorded when it returns, and what it returns. `opened` is the
stream, or the error that opening it ends in. -/
def tryRunSamplingRequest (opened : Except CodexErr (List Poll)) :
    Option (List ResponseItem × Except CodexErr SamplingRequestResult) :=
  match opened with
  | .error err => some ([], .error err)
  | .ok polls =>
    match receiveAll turn polls ⟨[], [], false, none⟩ with
    | none => none
    | some (s, .broke outcome) =>
      some (s.recorded ++ drainInFlight turn outcomes 0 s.inFlight, outcome)
    | some (s, .returned err) => some (s.recorded, .error err)

/-! ## The calls of a stream -/

/-- The loop goes on after the poll. -/
def Poll.continues : Poll → Bool
  | cancelled | closed | failed _ | event .completed => false
  | event _ => true

/-- The items that are done before the stream ends. -/
def doneItems (polls : List Poll) : List ResponseItem :=
  (polls.takeWhile Poll.continues).filterMap fun
    | .event (.outputItemDone item) => some item
    | _ => none

def startedCall (item : ResponseItem) : Option ToolCall :=
  match buildToolCall turn item with
  | .ok call => call
  | .error _ => none

def startedCalls (polls : List Poll) : List ToolCall := (doneItems polls).filterMap (startedCall turn)

def EndsInError (polls : List Poll) : Prop :=
  ∃ err, (polls.dropWhile Poll.continues).head? = some (.failed err)

/-! ## The loop -/

variable {turn} {outcomes}

/-- The calls in flight are the recorded ones that await their answer. -/
def InFlight (s : Receiving) : Prop :=
  Awaiting callRole s.recorded (s.inFlight.map (·.callId))

/-- A finished item that is no answer: it is recorded, its call is put in flight, and the loop goes
on. -/
theorem outputItemDone_spec (turn : TurnContext R) {item : ResponseItem} (s : Receiving)
    (hitem : ∀ callId, callRole item ≠ some (callId, false)) (h : InFlight s) :
    ∃ s', outputItemDone turn item s = (s', none) ∧ InFlight s' ∧
      s'.inFlight = s.inFlight ++ (startedCall turn item).toList := by
  have hnone (hcall : ∀ callId, callRole item ≠ some (callId, true)) : callRole item = none := by
    cases hrole : callRole item with
    | none => rfl
    | some role =>
      obtain ⟨callId, opens⟩ := role
      cases opens with
      | false => exact absurd hrole (hitem callId)
      | true => exact absurd hrole (hcall callId)
  unfold outputItemDone
  split
  · next hplan =>
    rw [Bool.and_eq_true] at hplan
    cases item with
    | message =>
      refine ⟨_, rfl, Awaiting.unpaired h rfl, ?_⟩
      simp [startedCall, buildToolCall]
    | _ => cases hplan.2
  · rw [handleOutputItemDone]
    obtain ⟨call, hbuild, hrole⟩ | ⟨hbuild, hcall⟩ | ⟨hbuild, hrole⟩ :=
      buildToolCall_cases turn item
    · rw [hbuild]
      refine ⟨_, rfl, ?_, by simp [startedCall, hbuild]⟩
      have hopen := Awaiting.opened h hrole
      simpa [InFlight] using hopen
    · rw [hbuild]
      refine ⟨_, rfl, ?_, by simp [startedCall, hbuild]⟩
      have hopen := Awaiting.unpaired h (hnone hcall)
      simpa [InFlight] using hopen
    · rw [hbuild]
      refine ⟨_, rfl, ?_, by simp [startedCall, hbuild]⟩
      have hopen := (Awaiting.opened h hrole).perm (List.perm_append_singleton [] _)
      have hclosed := hopen.closed (a := guardrailResponse
        "LocalShellCall without call_id or id") rfl
      simpa [InFlight, List.append_assoc] using hclosed

theorem doneItems_cons_done {item : ResponseItem} {polls : List Poll} :
    doneItems (.event (.outputItemDone item) :: polls) = item :: doneItems polls :=
  rfl

/-- When the loop is left, the calls of the stream are in flight, and it has returned from the whole
function only if the stream ends in an error. -/
theorem receiveAll_spec {polls : List Poll} {s t : Receiving} {exit : Exit}
    (hitems : ∀ item ∈ doneItems polls, ∀ callId, callRole item ≠ some (callId, false))
    (hs : InFlight s) (h : receiveAll turn polls s = some (t, exit)) :
    InFlight t ∧ t.inFlight = s.inFlight ++ startedCalls turn polls ∧
      ((∃ err, exit = .returned err) ↔ EndsInError polls) := by
  induction polls generalizing s with
  | nil => cases h
  | cons poll polls ih =>
    have hstay {event : ResponseEvent} (hpoll : poll = .event event)
        (hcontinues : poll.continues = true) (hdone : doneItems (poll :: polls) = doneItems polls)
        (hreceive : receive turn s poll = (s, none)) : InFlight t ∧
          t.inFlight = s.inFlight ++ startedCalls turn (poll :: polls) ∧
          ((∃ err, exit = .returned err) ↔ EndsInError (poll :: polls)) := by
      rw [receiveAll, hreceive] at h
      rw [startedCalls, hdone, EndsInError, List.dropWhile_cons_of_pos hcontinues]
      exact ih (fun item hitem => hitems item (hdone ▸ hitem)) hs h
    cases poll with
    | cancelled | closed | failed err =>
      cases h
      exact ⟨hs, (List.append_nil _).symm, by simp [EndsInError, Poll.continues]⟩
    | event event =>
      cases event with
      | completed =>
        cases h
        exact ⟨hs, (List.append_nil _).symm, by simp [EndsInError, Poll.continues]⟩
      | outputItemDone item =>
        rw [doneItems_cons_done] at hitems
        obtain ⟨s', hdone, hs', hcalls⟩ :=
          outputItemDone_spec turn s (hitems item List.mem_cons_self) hs
        rw [receiveAll, receive, hdone] at h
        obtain ⟨ht, hinFlight, hexit⟩ :=
          ih (fun item hitem => hitems item (List.mem_cons_of_mem _ hitem)) hs' h
        refine ⟨ht, ?_, hexit⟩
        rw [hinFlight, hcalls, startedCalls, startedCalls, doneItems_cons_done, List.append_assoc]
        cases hcall : startedCall turn item with
        | none => rw [List.filterMap_cons_none hcall]; rfl
        | some call => rw [List.filterMap_cons_some hcall]; rfl
      | _ => exact hstay rfl rfl rfl rfl

/-- The drain answers the calls in flight in order, up to those whose future fails. -/
theorem drainInFlight_spec (turn : TurnContext R) (outcomes : Nat → ToolOutcome R) (k : Nat)
    (lost : List Str) {calls : List ToolCall} {recorded : List ResponseItem}
    (h : Awaiting callRole recorded (lost ++ calls.map (·.callId))) :
    ∃ left, Awaiting callRole (recorded ++ drainInFlight turn outcomes k calls) (lost ++ left) ∧
      (left = [] ↔ ∀ i call, calls[i]? = some call → ¬ (outcomes (k + i)).Fails turn call) := by
  induction calls generalizing recorded lost k with
  | nil => exact ⟨[], by simpa [drainInFlight] using h, by simp⟩
  | cons call calls ih =>
    rw [drainInFlight]
    obtain ⟨response, hresponse, hrole, hfails⟩ | ⟨err, herr, hfails⟩ :=
      handleToolCall_cases turn call (outcomes k)
    · rw [hresponse]
      have hclosed := (h.perm List.perm_middle).closed hrole
      obtain ⟨left, hleft, hiff⟩ := ih (k + 1) lost hclosed
      refine ⟨left, by simpa using hleft, hiff.trans ⟨fun hall i c hc => ?_, fun hall i c hc => ?_⟩⟩
      · cases i with
        | zero =>
          cases hc
          exact hfails
        | succ i => exact Nat.add_right_comm k 1 i ▸ hall i c hc
      · exact Nat.add_right_comm k 1 i ▸ hall (i + 1) c hc
    · rw [herr]
      obtain ⟨left, hleft, -⟩ := ih (k + 1) (lost ++ [call.callId])
        (by simpa using h)
      refine ⟨call.callId :: left, by simpa using hleft, ?_⟩
      constructor
      · intro hnil
        cases hnil
      · intro hall
        exact absurd hfails (hall 0 call rfl)

/-- A sampling request that returns has recorded an answer to every call exactly if its stream does
not end in an error after a call, and no future of a call fails. -/
theorem matched_iff_of_returned {opened : Except CodexErr (List Poll)}
    {recorded : List ResponseItem} {result : Except CodexErr SamplingRequestResult}
    (hitems : ∀ polls, opened = .ok polls →
      ∀ item ∈ doneItems polls, ∀ callId, callRole item ≠ some (callId, false))
    (h : tryRunSamplingRequest turn outcomes opened = some (recorded, result)) :
    Matched callRole recorded ↔ ∀ polls, opened = .ok polls →
      (EndsInError polls → startedCalls turn polls = []) ∧
      ∀ k call, (startedCalls turn polls)[k]? = some call → ¬ (outcomes k).Fails turn call := by
  cases opened with
  | error err =>
    cases h
    exact ⟨fun _ polls hpolls => (by cases hpolls), fun _ => Awaiting.nil.matched_iff.2 rfl⟩
  | ok polls =>
    rw [tryRunSamplingRequest] at h
    cases hreceive : receiveAll turn polls ⟨[], [], false, none⟩ with
    | none =>
      rw [hreceive] at h
      cases h
    | some left =>
      obtain ⟨t, exit⟩ := left
      have hinit : InFlight ⟨[], [], false, none⟩ := Awaiting.nil
      obtain ⟨ht, hcalls, hexit⟩ := receiveAll_spec (hitems polls rfl) hinit hreceive
      rw [List.nil_append] at hcalls
      rw [InFlight, hcalls] at ht
      rw [hreceive] at h
      have hpolls (P : List Poll → Prop) :
          (∀ polls', (Except.ok polls : Except CodexErr _) = .ok polls' → P polls') ↔ P polls :=
        ⟨fun hP => hP polls rfl, fun hP polls' heq => by cases heq; exact hP⟩
      rw [hpolls]
      cases exit with
      | broke outcome =>
        cases h
        have herr : ¬ EndsInError polls := fun herr => by
          obtain ⟨err, heq⟩ := hexit.2 herr
          cases heq
        obtain ⟨left, hleft, hiff⟩ := drainInFlight_spec turn outcomes 0 [] ht
        rw [hcalls, hleft.matched_iff, List.nil_append, hiff]
        simp [herr]
      | returned err =>
        cases h
        have herr : EndsInError polls := hexit.1 ⟨err, rfl⟩
        rw [ht.matched_iff, List.map_eq_nil_iff]
        constructor
        · intro hnil
          refine ⟨fun _ => hnil, fun k call hcall => ?_⟩
          rw [hnil] at hcall
          cases hcall
        · exact fun hall => hall.1 herr

/-! ## A stream with one call -/

def plainTurn : TurnContext Unit where
  planMode := false
  jsReplToolsOnly := false
  hasPendingInput := false
  parseMcpToolName := fun _ => none
  payloadOf := fun _ => ⟨.text [], none⟩
  debugStr := id

def shellCall : ResponseItem := .functionCall none "shell" "\x7b\x7d" "call-1"

def succeeding : Nat → ToolOutcome Unit := fun _ => .finished (.ok (.function (.text "done") none))

/-- The call is answered when the stream completes. -/
theorem matched_of_completed : ∃ recorded result,
    tryRunSamplingRequest plainTurn succeeding
      (.ok [.event (.outputItemDone shellCall), .event .completed]) = some (recorded, result) ∧
    Matched callRole recorded := by
  have hrun : tryRunSamplingRequest plainTurn succeeding
      (.ok [.event (.outputItemDone shellCall), .event .completed]) =
        some ([shellCall, .functionCallOutput "call-1" ⟨.text "done", none⟩],
          .ok ⟨true, none⟩) := rfl
  refine ⟨_, _, hrun, (matched_iff_of_returned ?_ hrun).2 ?_⟩
  · intro polls hpolls item hitem callId
    cases hpolls
    obtain rfl := List.mem_singleton.1 hitem
    simp [shellCall, callRole]
  · intro polls hpolls
    cases hpolls
    refine ⟨?_, fun _ _ _ hfails => hfails⟩
    rintro ⟨err, herr⟩
    cases herr

/-- The stream fails after a call; its answer is not recorded. -/
theorem unanswered_of_failed :
    ¬ ∀ (turn : TurnContext Unit) (outcomes : Nat → ToolOutcome Unit)
      (opened : Except CodexErr (List Poll)) (recorded : List ResponseItem)
      (result : Except CodexErr SamplingRequestResult),
      (∀ polls, opened = .ok polls →
        ∀ item ∈ doneItems polls, ∀ callId, callRole item ≠ some (callId, false)) →
      tryRunSamplingRequest turn outcomes opened = some (recorded, result) →
        Matched callRole recorded := by
  intro hall
  have h := hall plainTurn succeeding
    (.ok [.event (.outputItemDone shellCall), .failed (.stream "connection reset")]) [shellCall] _
    (fun polls hpolls item hitem callId => by
      cases hpolls
      obtain rfl := List.mem_singleton.1 hitem
      simp [shellCall, callRole]) rfl
  have hbalanced := h.1 "call-1"
  revert hbalanced
  decide

end SheriMl.Turn
