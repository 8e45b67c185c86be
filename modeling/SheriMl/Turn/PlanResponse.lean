import Mathlib.Data.List.ReduceOption
import SheriMl.Turn.PlanStream

/-!
# Responses in plan mode

A message is announced, streamed and finished; a response is a sequence of such messages, with other
items between them.
-/

namespace SheriMl.Turn.PlanMode

open Protocol Streaming

/-- An assistant message with an id: what it is announced with, its deltas among events that do not
concern the items (`none`), and what it is finished with. -/
structure AnnouncedMessage where
  id : Str
  announced : List ContentItem
  announcedPhase : Option MessagePhase
  announcedEndTurn : Option Bool
  body : List (Option Str)
  content : List ContentItem
  phase : Option MessagePhase
  endTurn : Option Bool
  uuid : Str
  /-- the finished text is the deltas together -/
  text_eq : outputText content = body.reduceOption.flatten

namespace AnnouncedMessage

variable (message : AnnouncedMessage)

def bodyEvent : Option Str → ResponseEvent
  | some delta => .outputTextDelta delta
  | none => .unrelated

def events : List ResponseEvent :=
  .outputItemAdded (.message (some message.id) "assistant".toList message.announced
      message.announcedEndTurn message.announcedPhase) message.uuid ::
    (message.body.map bodyEvent ++
      [.outputItemDone (.message (some message.id) "assistant".toList message.content
        message.endTurn message.phase) message.uuid])

def text : Str := outputText message.content

def normal : Str := stripProposedPlanBlocks message.text

def startedItem : TurnItem :=
  .agentMessage message.id [stripProposedPlanBlocks (outputText message.announced)]
    message.announcedPhase

def completedItem : TurnItem := .agentMessage message.id [message.normal] message.phase

/-- What is to be sent for the message. -/
def view : ItemView :=
  if isBlank message.normal then .empty
  else ⟨[message.startedItem], [message.completedItem], message.normal⟩

end AnnouncedMessage

theorem flatten_outputTexts (content : List ContentItem) :
    (content.filterMap fun
      | .outputText text => some text
      | _ => none).flatten = outputText content := by
  induction content with
  | nil => rfl
  | cons item content ih => cases item <;> simp_all [outputText]

theorem handleNonToolResponseItem_message (id : Str) (content : List ContentItem)
    (endTurn : Option Bool) (phase : Option MessagePhase) (uuid : Str) :
    handleNonToolResponseItem (.message (some id) "assistant".toList content endTurn phase) uuid =
      some (.agentMessage id [stripProposedPlanBlocks (outputText content)] phase) := by
  have hparse : ContextManager.parseTurnItem
      (.message (some id) "assistant".toList content endTurn phase) =
        some (ContextManager.parseAgentMessage (some id) content phase) := by
    simp only [ContextManager.parseTurnItem]
    rw [if_neg (by decide), if_pos trivial]
  simp only [handleNonToolResponseItem, hparse, Option.map_some, ContextManager.parseAgentMessage,
    ofParsed, Option.getD_some]
  exact congrArg (fun text => some (TurnItem.agentMessage id [stripProposedPlanBlocks text] phase))
    (flatten_outputTexts content)

theorem trim_isEmpty (text : Str) : (Str.trim text).isEmpty = isBlank text := by
  rw [Bool.eq_iff_iff, List.isEmpty_iff, Str.trim, Str.trimEnd, List.rdropWhile_eq_nil_iff,
    isBlank, List.all_eq_true]
  constructor
  · intro h ch hmem
    by_cases hdrop : ch ∈ Str.trimStart text
    · exact h ch hdrop
    · have hsplit := List.takeWhile_append_dropWhile (p := Str.isWhitespace) (l := text)
      rw [← hsplit] at hmem
      rcases List.mem_append.1 hmem with hmem | hmem
      · exact List.mem_takeWhile_imp hmem
      · exact absurd hmem hdrop
  · intro h ch hmem
    exact h ch (List.dropWhile_subset _ hmem)

namespace PlanModeStreamState

variable {s s' : PlanModeStreamState} {id itemId : Str} {phase : PlanPhase} {item : TurnItem}

/-! ## The body of a message -/

/-- The message is active, and its parser, if there is one, has read the deltas. -/
structure Reading (s : PlanModeStreamState) (id : Str) (deltas : List Str) : Prop where
  parser : (s.planParsers.lookup id).getD (.new planSpecs) =
    ((TaggedLineParser.new planSpecs).parseAll deltas).1
  only : ∀ entry ∈ s.planParsers, entry.1 = id
  active : ∃ content phase, s.activeItem = some (.agentMessage id content phase)

theorem filter_only {parsers : List (Str × TaggedLineParser PlanTag)}
    (h : ∀ entry ∈ parsers, entry.1 = id) : parsers.filter (fun entry => entry.1 ≠ id) = [] := by
  rw [List.filter_eq_nil_iff]
  intro entry hmem
  simp [h entry hmem]

/-- What is emitted for the deltas, as plan segments. -/
def segmentsOf (deltas : List Str) : List ProposedPlanSegment :=
  ((TaggedLineParser.new planSpecs).parseAll deltas).2.map mapPlanSegment

theorem segmentsOf_concat (deltas : List Str) (delta : Str) :
    segmentsOf (deltas ++ [delta]) = segmentsOf deltas ++
      (((TaggedLineParser.new planSpecs).parseAll deltas).1.parse delta).2.map mapPlanSegment := by
  simp only [segmentsOf, TaggedLineParser.parseAll, List.foldl_append, List.foldl_cons,
    List.foldl_nil, List.map_append]

theorem reading_delta {deltas : List Str} (hreading : s.Reading id deltas) (hpending : s.Pending)
    (delta : Str) : ∃ segments, (outputTextDelta delta s).Reading id (deltas ++ [delta]) ∧
      segmentsOf (deltas ++ [delta]) = segmentsOf deltas ++ segments ∧
      Handled id segments s (outputTextDelta delta s) := by
  obtain ⟨hparser, honly, content, phase, hactive⟩ := hreading
  have hsegments := segmentsOf_concat deltas delta
  generalize hafter : ((TaggedLineParser.new planSpecs).parseAll deltas).1 = parser
    at hparser hsegments
  have hstep : outputTextDelta delta s = handlePlanSegments id
      ((parser.parse delta).2.map mapPlanSegment)
      { s with planParsers := [(id, (parser.parse delta).1)] } := by
    simp only [outputTextDelta, hactive, parseTextDelta, hparser, filter_only honly]
  have hhandled := (handled_segments (s := { s with planParsers := [(id, (parser.parse delta).1)] })
    hpending id ((parser.parse delta).2.map mapPlanSegment)).ofBase
  have hparsers : (outputTextDelta delta s).planParsers = [(id, (parser.parse delta).1)] := by
    rw [hstep, (base_handlePlanSegments ..).1]
  rw [← hstep] at hhandled
  refine ⟨_, ⟨?_, ?_, content, phase, ?_⟩, hsegments, hhandled⟩
  · rw [hparsers, List.lookup_cons_self, Option.getD_some, TaggedLineParser.parseAll,
      List.foldl_concat, ← TaggedLineParser.parseAll]
    exact congrArg (fun parser => (parser.parse delta).1) hafter.symm
  · rw [hparsers]
    exact fun entry hmem => congrArg Prod.fst (List.mem_singleton.1 hmem)
  · rw [hstep, (base_handlePlanSegments ..).2, hactive]

theorem reading_body {deltas : List Str} (hreading : s.Reading id deltas) (hpending : s.Pending)
    (body : List (Option Str)) :
    ∃ segments, (receiveAll (body.map AnnouncedMessage.bodyEvent) s).Reading id
        (deltas ++ body.reduceOption) ∧
      segmentsOf (deltas ++ body.reduceOption) = segmentsOf deltas ++ segments ∧
      Handled id segments s (receiveAll (body.map AnnouncedMessage.bodyEvent) s) := by
  induction body generalizing s deltas with
  | nil =>
    refine ⟨[], ?_, ?_, .nil hpending⟩
    · rw [List.reduceOption_nil, List.append_nil]
      exact hreading
    · rw [List.reduceOption_nil, List.append_nil, List.append_nil]
  | cons event body ih =>
    cases event with
    | none => exact ih hreading hpending
    | some delta =>
      obtain ⟨segments, hreading', hsegments, hhandled⟩ := reading_delta hreading hpending delta
      obtain ⟨rest, hreading'', hrest, hhandled'⟩ := ih hreading' hhandled.pending
      rw [List.reduceOption_cons_of_some]
      rw [List.append_assoc, List.singleton_append] at hreading'' hrest
      refine ⟨segments ++ rest, hreading'', ?_, hhandled.append hhandled'⟩
      rw [hrest, hsegments, List.append_assoc]

/-- All that a stream emits, once the parser of the message is flushed. -/
theorem flush_handled {deltas : List Str} (hreading : s.Reading id deltas) (hpending : s.Pending) :
    ∃ segments s', flushProposedPlanSegmentsForItem id { s with activeItem := none } = s' ∧
      planStream deltas = segmentsOf deltas ++ segments ∧ s'.planParsers = [] ∧
      s'.activeItem = none ∧ Handled id segments s s' := by
  obtain ⟨hparser, honly, -⟩ := hreading
  have hstream : planStream deltas = segmentsOf deltas ++
      ((TaggedLineParser.new planSpecs).parseAll deltas).1.finish.2.map mapPlanSegment := by
    rw [planStream, stream, List.map_append]
    rfl
  rw [← hparser] at hstream
  simp only [flushProposedPlanSegmentsForItem]
  split
  next parser hlookup =>
    rw [hlookup, Option.getD_some] at hstream
    have hhandled := handled_segments (s := { s with
      planParsers := s.planParsers.filter fun entry => entry.1 ≠ id, activeItem := none })
      hpending id (parser.finish.2.map mapPlanSegment)
    refine ⟨_, _, rfl, hstream, ?_, ?_, hhandled.ofBase⟩
    · rw [(base_handlePlanSegments ..).1, filter_only honly]
    · rw [(base_handlePlanSegments ..).2]
  next hlookup =>
    rw [hlookup, Option.getD_none] at hstream
    have hnil : Handled id [] { s with activeItem := none } { s with activeItem := none } :=
      .nil hpending
    refine ⟨[], _, rfl, hstream, ?_, rfl, hnil.ofBase⟩
    cases hparsers : s.planParsers with
    | nil => rfl
    | cons entry parsers =>
      obtain ⟨id', parser⟩ := entry
      have hid : id' = id := honly _ (hparsers ▸ List.mem_cons_self)
      rw [hparsers, hid, List.lookup_cons_self] at hlookup
      cases hlookup

/-! ## The end of a message -/

theorem planOnly_completePlan (text : Str) (s : PlanModeStreamState) :
    PlanOnly s (completePlanItemFromText text s) := by
  simp only [completePlanItemFromText, startPlan_guarded]
  split
  next planText htext => exact (PlanOnly.startPlan s).trans (.completePlanWithText planText _)
  · exact .refl s

theorem planAt_completePlan (text : Str) (h : s.PlanAt itemId phase) :
    (completePlanItemFromText text s).PlanAt itemId
      (phase.complete (extractProposedPlanText text)) := by
  simp only [completePlanItemFromText, startPlan_guarded]
  cases extractProposedPlanText text with
  | none => cases phase <;> exact h
  | some planText =>
    cases phase with
    | idle => exact planAt_completePlanWithText planText (planAt_startPlan h)
    | streaming streamed =>
      dsimp only
      rw [startPlan_started h.started]
      exact planAt_completePlanWithText planText h
    | done streamed text' =>
      dsimp only
      rw [startPlan_started h.started, completePlanWithText,
        if_pos (by simp [h.completed, PlanPhase.finished])]
      exact h

theorem emit_spec {normal : Str} (hmessage : s.MessageAt id item normal)
    (messagePhase : Option MessagePhase) :
    ∃ s', emitAgentMessageInPlanMode id [normal] messagePhase s = s' ∧ Local id s s' ∧
      s'.planParsers = s.planParsers ∧ s'.activeItem = s.activeItem ∧
      messageView id s'.sent =
        if isBlank normal then .empty
        else ⟨[item], [.agentMessage id [normal] messagePhase], normal⟩ := by
  have htrim : (Str.trim [normal].flatten).isEmpty = isBlank normal := by
    rw [List.flatten_singleton, trim_isEmpty]
  cases hmessage with
  | waiting hblank _ _ _ hview =>
    simp only [emitAgentMessageInPlanMode, htrim, hblank, if_true]
    exact ⟨_, rfl, .settle id false s, rfl, rfl, hview⟩
  | shown hblank hstarted hview =>
    simp only [emitAgentMessageInPlanMode, htrim, hblank, Bool.false_eq_true, if_false,
      maybeEmitPendingAgentMessageStart, hstarted, if_true]
    have hcompleted : (TurnItem.agentMessage id [normal] messagePhase).isMessage id = true :=
      decide_eq_true rfl
    refine ⟨_, rfl, (Local.sendItem hcompleted (.inr rfl) s).trans (.forget id _), rfl, rfl, ?_⟩
    simp only [send]
    rw [messageView_completed hcompleted, hview]
    rfl

/-! ## Messages and what is between them -/

/-- No message is being streamed. -/
structure Between (s : PlanModeStreamState) : Prop where
  noParsers : s.planParsers = []
  inactive : ∀ id content phase, s.activeItem ≠ some (.agentMessage id content phase)
  pending : s.Pending

/-- Nothing is known of a message. -/
structure Fresh (s : PlanModeStreamState) (id : Str) : Prop where
  started : s.startedAgentMessageItems id = false
  leading : s.leadingWhitespaceByItem id = none
  view : messageView id s.sent = .empty

theorem Fresh.kept (h : s.Fresh id) (hkept : Kept id s s') : s'.Fresh id :=
  ⟨hkept.started.trans h.started, hkept.leading.trans h.leading, hkept.view.trans h.view⟩

theorem isMessage_startedItem (message : AnnouncedMessage) :
    message.startedItem.isMessage message.id = true := decide_eq_true rfl

theorem message_run (message : AnnouncedMessage) (hbetween : s.Between)
    (hfresh : s.Fresh message.id) (hplan : s.PlanAt itemId phase)
    (hphase : ∀ streamed, phase ≠ .streaming streamed) :
    ∃ s', receiveAll message.events s = s' ∧ s'.Between ∧
      messageView message.id s'.sent = message.view ∧
      s'.PlanAt itemId (phase.after (planBlocks message.text)) ∧
      ∀ id, id ≠ message.id → Kept id s s' := by
  -- the announcement
  let s₁ : PlanModeStreamState := { s with
    pendingAgentMessageItems := Function.update s.pendingAgentMessageItems message.id
      (some message.startedItem)
    activeItem := some message.startedItem }
  have hadded : receive s (.outputItemAdded (.message (some message.id) "assistant".toList
      message.announced message.announcedEndTurn message.announcedPhase) message.uuid) = s₁ := by
    simp only [receive, outputItemAdded, handleNonToolResponseItem_message]
    rfl
  have hpending₁ : s₁.Pending := fun id item hitem => by
    by_cases heq : id = message.id
    · subst heq
      simp only [s₁, Function.update_self] at hitem
      obtain rfl := Option.some.inj hitem
      exact isMessage_startedItem message
    · simp only [s₁, Function.update_of_ne heq] at hitem
      exact hbetween.pending id item hitem
  have hmessage₁ : s₁.MessageAt message.id message.startedItem [] :=
    .waiting rfl (Function.update_self ..) hfresh.started (by simp only [s₁, hfresh.leading]; rfl)
      hfresh.view
  have hplan₁ : s₁.PlanAt itemId phase := ⟨hplan.itemId_eq, hplan.started, hplan.completed, hplan.view⟩
  have hreading₁ : s₁.Reading message.id [] := by
    refine ⟨?_, ?_, _, _, rfl⟩
    · simp only [s₁, hbetween.noParsers]
      rfl
    · simp only [s₁, hbetween.noParsers]
      exact fun entry hmem => by cases hmem
  -- the deltas
  obtain ⟨segments, hreading₂, hsegments, hhandled⟩ := reading_body hreading₁ hpending₁ message.body
  generalize hbody : receiveAll (message.body.map AnnouncedMessage.bodyEvent) s₁ = s₂
    at hreading₂ hhandled
  obtain ⟨rest, s₃, hflush, hstream, hparsers₃, hactive₃, hrest⟩ :=
    flush_handled hreading₂ hhandled.pending
  obtain ⟨activeContent, activePhase, hactive₂⟩ := hreading₂.active
  have hall : Handled message.id (planStream message.body.reduceOption) s₁ s₃ := by
    rw [List.nil_append] at hsegments hstream
    rw [hstream, hsegments]
    exact hhandled.append hrest
  -- the plan, and the message
  have hcomplete := planOnly_completePlan (outputText message.content) s₃
  have hplan₄ := planAt_completePlan (outputText message.content)
    (hall.planAt itemId phase hplan₁)
  have hmessage₄ := hcomplete.messageAt
    (hall.messageAt message.startedItem [] (isMessage_startedItem message) hmessage₁)
  generalize hfour : completePlanItemFromText (outputText message.content) s₃ = s₄
    at hcomplete hplan₄ hmessage₄
  rw [List.nil_append, normalText_planStream, ← message.text_eq] at hmessage₄
  rw [message.text_eq, PlanPhase.foldl_complete _ _ hphase, ← message.text_eq] at hplan₄
  obtain ⟨s₅, hemit, hlocal, hparsers₅, hactive₅, hview⟩ := emit_spec hmessage₄ message.phase
  have hparsers₄ : s₄.planParsers = [] := by rw [hcomplete.state]; exact hparsers₃
  have hactive₄ : s₄.activeItem = none := by rw [hcomplete.state]; exact hactive₃
  have hdone : receive s₂ (.outputItemDone (.message (some message.id) "assistant".toList
      message.content message.endTurn message.phase) message.uuid) = s₅ := by
    simp only [receive, outputItemDone, hactive₂, flushPreviouslyActive, hflush,
      maybeCompletePlanItemFromMessage, if_true, hfour, handleNonToolResponseItem_message]
    exact hemit
  refine ⟨s₅, ?_, ⟨hparsers₅.trans hparsers₄, ?_, ?_⟩, hview, hlocal.plan.planAt hplan₄, ?_⟩
  · rw [receiveAll] at hbody ⊢
    rw [AnnouncedMessage.events, List.foldl_cons, List.foldl_append, hadded, hbody,
      List.foldl_cons, hdone, List.foldl_nil]
  · intro id content phase
    rw [hactive₅, hactive₄]
    exact fun hnone => by cases hnone
  · exact hlocal.pending (hcomplete.pending hall.pending)
  · intro id hne
    have hkept₁ : Kept id s s₁ := ⟨rfl, rfl, rfl⟩
    exact ((hkept₁.trans (hall.kept id hne)).trans (hcomplete.kept id)).trans (hlocal.kept id hne)

end PlanModeStreamState

/-- An event for other items, or for none. A text delta belongs to a message. -/
def ResponseEvent.IsBetween : ResponseEvent → Prop
  | .outputItemAdded item _ | .outputItemDone item _ =>
    ∀ id content endTurn phase, item ≠ .message id "assistant".toList content endTurn phase
  | .unrelated => True
  | .outputTextDelta _ | .completed => False

theorem handleNonToolResponseItem_other {item : ResponseItem} {uuid : Str} {turnItem : TurnItem}
    (hitem : ∀ id content endTurn phase, item ≠ .message id "assistant".toList content endTurn phase)
    (h : handleNonToolResponseItem item uuid = some turnItem) :
    ∃ id parsed, turnItem = .other id parsed := by
  obtain ⟨parsed, hparsed, rfl⟩ := Option.map_eq_some_iff.1 h
  cases parsed with
  | userMessage content => exact ⟨uuid, _, rfl⟩
  | reasoning id summaryText rawContent => exact ⟨id, _, rfl⟩
  | webSearch id => exact ⟨id, _, rfl⟩
  | agentMessage id content phase =>
    exfalso
    cases item with
    | message id' role content' endTurn phase' =>
      simp only [ContextManager.parseTurnItem] at hparsed
      split at hparsed
      · obtain ⟨_, -, heq⟩ := Option.map_eq_some_iff.1 hparsed
        cases heq
      · split at hparsed
        next hrole => exact hitem id' content' endTurn phase' (by rw [hrole])
        · cases hparsed
    | _ => cases hparsed

namespace PlanModeStreamState

variable {s : PlanModeStreamState} {itemId : Str} {phase : PlanPhase}

theorem between_event {event : ResponseEvent} (hbetween : s.Between) (hevent : event.IsBetween) :
    (s.receive event).Between ∧ (∀ id, Kept id s (s.receive event)) ∧
      PlanKept s (s.receive event) := by
  have hself : s.Between ∧ (∀ id, Kept id s s) ∧ PlanKept s s :=
    ⟨hbetween, fun id => .refl id s, rfl, rfl⟩
  cases event with
  | outputTextDelta | completed => cases hevent
  | unrelated => exact hself
  | outputItemAdded item uuid =>
    simp only [receive, outputItemAdded]
    cases hitem : handleNonToolResponseItem item uuid with
    | none => exact hself
    | some turnItem =>
      obtain ⟨id, parsed, rfl⟩ := handleNonToolResponseItem_other hevent hitem
      exact ⟨⟨hbetween.noParsers, fun _ _ _ h => (by cases h), hbetween.pending⟩,
        fun id' => ⟨rfl, rfl, messageView_notFor rfl⟩, rfl, planView_notFor rfl⟩
  | outputItemDone item uuid =>
    have hflush : flushPreviouslyActive s.activeItem { s with activeItem := none } =
        { s with activeItem := none } := by
      unfold flushPreviouslyActive
      split
      next id content phase hactive => exact absurd hactive (hbetween.inactive id content phase)
      · rfl
    have hassistant : ∀ s, maybeCompletePlanItemFromMessage item s = s := by
      intro s
      unfold maybeCompletePlanItemFromMessage
      split
      next id role content endTurn phase =>
        rw [if_neg fun hrole => hevent id content endTurn phase (by rw [hrole])]
      · rfl
    simp only [receive, outputItemDone, hflush, hassistant]
    have hquiet : ({ s with activeItem := none } : PlanModeStreamState).Between :=
      ⟨hbetween.noParsers, fun _ _ _ h => (by cases h), hbetween.pending⟩
    cases hitem : handleNonToolResponseItem item uuid with
    | none => exact ⟨hquiet, fun id' => ⟨rfl, rfl, rfl⟩, rfl, rfl⟩
    | some turnItem =>
      obtain ⟨id, parsed, rfl⟩ := handleNonToolResponseItem_other hevent hitem
      simp only [emitTurnItemInPlanMode]
      split
      · refine ⟨⟨hquiet.noParsers, hquiet.inactive, hquiet.pending⟩,
          fun id' => ⟨rfl, rfl, ?_⟩, rfl, ?_⟩
        · have hstart : messageView id' (s.sent ++ [.itemStarted (.other id parsed)]) =
              messageView id' s.sent := messageView_notFor rfl
          have hdone : messageView id' ((s.sent ++ [.itemStarted (.other id parsed)]) ++
              [.itemCompleted (.other id parsed)]) =
                messageView id' (s.sent ++ [.itemStarted (.other id parsed)]) :=
            messageView_notFor rfl
          exact hdone.trans hstart
        · have hstart : planView (s.sent ++ [.itemStarted (.other id parsed)]) =
              planView s.sent := planView_notFor rfl
          have hdone : planView ((s.sent ++ [.itemStarted (.other id parsed)]) ++
              [.itemCompleted (.other id parsed)]) =
                planView (s.sent ++ [.itemStarted (.other id parsed)]) := planView_notFor rfl
          exact hdone.trans hstart
      · exact ⟨⟨hquiet.noParsers, hquiet.inactive, hquiet.pending⟩,
          fun id' => ⟨rfl, rfl, messageView_notFor rfl⟩, rfl, planView_notFor rfl⟩

theorem between_events {events : List ResponseEvent} (hbetween : s.Between)
    (hevents : ∀ event ∈ events, event.IsBetween) :
    (receiveAll events s).Between ∧ (∀ id, Kept id s (receiveAll events s)) ∧
      PlanKept s (receiveAll events s) := by
  induction events generalizing s with
  | nil => exact ⟨hbetween, fun id => .refl id s, rfl, rfl⟩
  | cons event events ih =>
    obtain ⟨hevent, hevents⟩ := List.forall_mem_cons.1 hevents
    obtain ⟨hfirst, hkept, hplan⟩ := between_event hbetween hevent
    obtain ⟨hrest, hkept', hplan'⟩ := ih hfirst hevents
    exact ⟨hrest, fun id => (hkept id).trans (hkept' id),
      hplan'.planItemState_eq.trans hplan.planItemState_eq, hplan'.view.trans hplan.view⟩

end PlanModeStreamState

/-! ## Responses -/

inductive Part where
  | message (message : AnnouncedMessage)
  | between (events : List ResponseEvent) (isBetween : ∀ event ∈ events, event.IsBetween)

def Part.events : Part → List ResponseEvent
  | .message found => found.events
  | .between others _ => others

def Part.message? : Part → Option AnnouncedMessage
  | .message found => some found
  | .between _ _ => none

def messagesOf (parts : List Part) : List AnnouncedMessage :=
  parts.filterMap Part.message?

/-- Messages with ids of their own, and other items between them. -/
structure Response where
  parts : List Part
  distinct : ((messagesOf parts).map AnnouncedMessage.id).Nodup

namespace Response

variable (response : Response)

def messages : List AnnouncedMessage := messagesOf response.parts

def events : List ResponseEvent := response.parts.flatMap Part.events ++ [.completed]

end Response

def phaseAfter (phase : PlanPhase) (messages : List AnnouncedMessage) : PlanPhase :=
  messages.foldl (fun phase message => phase.after (planBlocks message.text)) phase

theorem phaseAfter_cons (phase : PlanPhase) (message : AnnouncedMessage)
    (messages : List AnnouncedMessage) : phaseAfter phase (message :: messages) =
      phaseAfter (phase.after (planBlocks message.text)) messages := rfl

theorem phaseAfter_append (phase : PlanPhase) (before after : List AnnouncedMessage) :
    phaseAfter phase (before ++ after) = phaseAfter (phaseAfter phase before) after :=
  List.foldl_append

theorem phaseAfter_done (streamed text : Str) (messages : List AnnouncedMessage) :
    phaseAfter (.done streamed text) messages = .done streamed text := by
  induction messages with
  | nil => rfl
  | cons message messages ih => exact ih

theorem phaseAfter_idle {messages : List AnnouncedMessage}
    (h : ∀ message ∈ messages, planBlocks message.text = []) : phaseAfter .idle messages = .idle := by
  induction messages with
  | nil => rfl
  | cons message messages ih =>
    obtain ⟨hfirst, hrest⟩ := List.forall_mem_cons.1 h
    rw [phaseAfter_cons, hfirst]
    exact ih hrest

theorem after_ne_streaming {phase : PlanPhase} (hphase : ∀ streamed, phase ≠ .streaming streamed)
    (blocks : List Str) (streamed : Str) : phase.after blocks ≠ .streaming streamed := by
  cases phase with
  | streaming streamed' => exact absurd rfl (hphase streamed')
  | done => exact hphase streamed
  | idle =>
    rw [PlanPhase.after]
    split <;> exact fun h => by cases h

namespace PlanModeStreamState

variable {s : PlanModeStreamState} {itemId : Str} {phase : PlanPhase}

theorem parts_run {parts : List Part} (hbetween : s.Between) (hplan : s.PlanAt itemId phase)
    (hphase : ∀ streamed, phase ≠ .streaming streamed)
    (hdistinct : ((messagesOf parts).map AnnouncedMessage.id).Nodup)
    (hfresh : ∀ message ∈ messagesOf parts, s.Fresh message.id) :
    ∃ s', receiveAll (parts.flatMap Part.events) s = s' ∧ s'.Between ∧
      (∀ message ∈ messagesOf parts, messageView message.id s'.sent = message.view) ∧
      s'.PlanAt itemId (phaseAfter phase (messagesOf parts)) ∧
      ∀ id, (∀ message ∈ messagesOf parts, message.id ≠ id) → Kept id s s' := by
  induction parts generalizing s phase with
  | nil => exact ⟨s, rfl, hbetween, fun message hmem => (by cases hmem), hplan, fun id _ => .refl id s⟩
  | cons part parts ih =>
    rw [List.flatMap_cons, receiveAll, List.foldl_append, ← receiveAll, ← receiveAll]
    cases part with
    | between events isBetween =>
      obtain ⟨hbetween', hkept, hplanKept⟩ := between_events hbetween isBetween
      obtain ⟨s', hrun, hbetween'', hviews, hplan', hkept'⟩ := ih hbetween' (hplanKept.planAt hplan)
        hphase hdistinct fun message hmem => (hfresh message hmem).kept (hkept message.id)
      refine ⟨s', ?_, hbetween'', hviews, hplan', fun id hid => (hkept id).trans (hkept' id hid)⟩
      rw [Part.events]
      exact hrun
    | message message =>
      obtain ⟨hnotMem, hdistinct⟩ := List.nodup_cons.1 hdistinct
      obtain ⟨hfreshMessage, hfresh⟩ := List.forall_mem_cons.1 hfresh
      have hother : ∀ other ∈ messagesOf parts, other.id ≠ message.id := fun other hmem heq =>
        hnotMem (List.mem_map.2 ⟨other, hmem, heq⟩)
      obtain ⟨s₁, hrun, hbetween₁, hview, hplan₁, hkept⟩ :=
        message_run message hbetween hfreshMessage hplan hphase
      obtain ⟨s', hrun', hbetween', hviews, hplan', hkept'⟩ := ih hbetween₁ hplan₁
        (after_ne_streaming hphase _) hdistinct fun other hmem =>
          (hfresh other hmem).kept (hkept other.id (hother other hmem))
      refine ⟨s', ?_, hbetween', List.forall_mem_cons.2 ⟨?_, hviews⟩, hplan', fun id hid => ?_⟩
      · rw [Part.events, hrun, hrun']
      · exact (hkept' message.id hother).view.trans hview
      · obtain ⟨hne, hid⟩ := List.forall_mem_cons.1 hid
        exact (hkept id hne.symm).trans (hkept' id hid)

end PlanModeStreamState

/-- A message outside of whose plan blocks there is more than white space is started and completed
once, and its deltas make up its text; of another one nothing is sent. The plan item is started and
completed once if some message has a block: streamed are all blocks of the first such message, and
the completed text is its last one. -/
structure Agrees (response : Response) (itemId : Str) (sent : List EventMsg) : Prop where
  message : ∀ message ∈ response.messages, messageView message.id sent = message.view
  noPlan : (∀ message ∈ response.messages, planBlocks message.text = []) → planView sent = .empty
  plan : ∀ (before after : List AnnouncedMessage) (message : AnnouncedMessage)
    (blocks : List Str) (last : Str), response.messages = before ++ message :: after →
    (∀ message ∈ before, planBlocks message.text = []) →
    planBlocks message.text = blocks ++ [last] →
    planView sent = ⟨[.plan itemId []], [.plan itemId last], (blocks ++ [last]).flatten⟩

theorem streamed_agrees (turnId : Str) (response : Response) :
    Agrees response (turnId ++ "-plan".toList)
      (PlanModeStreamState.receiveAll response.events (.new turnId)).sent := by
  have hnew : (PlanModeStreamState.new turnId).PlanAt (turnId ++ "-plan".toList) .idle :=
    ⟨rfl, rfl, rfl, rfl⟩
  obtain ⟨s, hrun, hbetween, hviews, hplan, -⟩ := PlanModeStreamState.parts_run
    ⟨rfl, fun _ _ _ h => (by cases h), fun _ _ h => by cases h⟩ hnew
    (fun _ h => by cases h) response.distinct (fun message _ => ⟨rfl, rfl, rfl⟩)
  have hcompleted : PlanModeStreamState.receiveAll response.events (.new turnId) =
      { s with planParsers := [] } := by
    rw [PlanModeStreamState.receiveAll] at hrun ⊢
    rw [Response.events, List.foldl_append, hrun, List.foldl_cons, List.foldl_nil]
    simp only [PlanModeStreamState.receive, PlanModeStreamState.flushProposedPlanSegmentsAll,
      hbetween.noParsers, List.foldl_nil]
  rw [hcompleted]
  refine ⟨hviews, fun hnone => ?_, fun before after message blocks last hmessages hbefore hblocks => ?_⟩
  · rw [← Response.messages, phaseAfter_idle hnone] at hplan
    exact hplan.view
  · have hafter : PlanPhase.after (blocks ++ [last]) .idle =
        .done (blocks ++ [last]).flatten last := by
      rw [PlanPhase.after, List.getLast?_concat]
    rw [← Response.messages, hmessages, phaseAfter_append, phaseAfter_idle hbefore,
      phaseAfter_cons, hblocks, hafter, phaseAfter_done] at hplan
    exact hplan.view

/-! ## Several blocks, and messages without an id -/

def twoBlocksText : Str :=
  "<proposed_plan>\na\n</proposed_plan>\n<proposed_plan>\nb\n</proposed_plan>\n".toList

def twoBlocks : Response where
  parts := [.message ⟨"m".toList, [], none, none, [some twoBlocksText],
    [.outputText twoBlocksText], none, none, "u".toList, by simp [outputText]⟩]
  distinct := by simp [messagesOf, Part.message?]

/-- A message that comes without an id, and gets one each time it is parsed. -/
def withoutId : List ResponseEvent :=
  [.outputItemAdded (.message none "assistant".toList [] none none) "u1".toList,
    .outputTextDelta "hi".toList,
    .outputItemDone (.message none "assistant".toList [.outputText "hi".toList] none none)
      "u2".toList,
    .completed]

/-- Of two blocks the deltas of both are streamed, and the plan is completed with the second; a
message without an id is started twice. -/
theorem two_blocks_disagree :
    (planView (PlanModeStreamState.receiveAll twoBlocks.events (.new "t".toList)).sent =
      ⟨[.plan "t-plan".toList []], [.plan "t-plan".toList "b\n".toList], "a\nb\n".toList⟩) ∧
    (PlanModeStreamState.receiveAll withoutId (.new "t".toList)).sent =
      [.itemStarted (.agentMessage "u1".toList [[]] none),
        .agentMessageContentDelta "u1".toList "hi".toList,
        .itemStarted (.agentMessage "u2".toList [] none),
        .itemCompleted (.agentMessage "u2".toList ["hi".toList] none)] := by
  decide +kernel

end SheriMl.Turn.PlanMode
