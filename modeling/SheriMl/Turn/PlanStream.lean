import SheriMl.Turn.PlanMode

/-!
# What is streamed and what is finished in plan mode

The text of a message outside of its plan blocks is streamed as it is finished, however it is cut
(`streamed_agrees`). The plan item is streamed with all the blocks of the first message that has
one, and finished with the last of them.
-/

namespace SheriMl.Turn.PlanMode

open List

open Protocol Streaming

/-! ## Segments of a text -/

def normalText (segments : List ProposedPlanSegment) : Str :=
  segments.flatMap fun
    | .normal text => text
    | _ => []

def planText (segments : List ProposedPlanSegment) : Str :=
  segments.flatMap fun
    | .proposedPlanDelta text => text
    | _ => []

/-- What stands in a block up to the start of the next one. -/
def untilStart : List ProposedPlanSegment → Str
  | [] => []
  | .proposedPlanStart :: _ => []
  | .proposedPlanDelta text :: segments => text ++ untilStart segments
  | .proposedPlanEnd :: segments | .normal _ :: segments => untilStart segments

def blocksOf : List ProposedPlanSegment → List Str
  | [] => []
  | .proposedPlanStart :: segments => untilStart segments :: blocksOf segments
  | .proposedPlanDelta _ :: segments | .proposedPlanEnd :: segments | .normal _ :: segments =>
    blocksOf segments

def planBlocks (text : Str) : List Str := blocksOf (planStream [text])

theorem planText_eq (segments : List ProposedPlanSegment) :
    planText segments = untilStart segments ++ (blocksOf segments).flatten := by
  induction segments with
  | nil => rfl
  | cons segment segments ih =>
    rw [planText, flatMap_cons, ← planText, ih]
    cases segment with
    | normal | proposedPlanEnd => rfl
    | proposedPlanStart => simp [untilStart, blocksOf]
    | proposedPlanDelta text => simp [untilStart, blocksOf]

theorem foldl_extractSegment (segments : List ProposedPlanSegment) (sawPlanBlock : Bool)
    (text : Str) :
    segments.foldl extractSegment (sawPlanBlock, text) =
      match (blocksOf segments).getLast? with
      | some last => (true, last)
      | none => (sawPlanBlock, text ++ untilStart segments) := by
  induction segments generalizing sawPlanBlock text with
  | nil => simp [blocksOf, untilStart]
  | cons segment segments ih =>
    cases segment with
    | normal | proposedPlanEnd =>
      rw [foldl_cons, extractSegment, ih]
      rfl
    | proposedPlanDelta delta =>
      rw [foldl_cons, extractSegment, ih]
      simp [untilStart, blocksOf]
    | proposedPlanStart =>
      rw [foldl_cons, extractSegment, ih, blocksOf, List.getLast?_cons]
      cases (blocksOf segments).getLast? <;> simp

theorem extractProposedPlanText_eq (text : Str) :
    extractProposedPlanText text = (planBlocks text).getLast? := by
  simp only [extractProposedPlanText, foldl_extractSegment, planBlocks]
  cases (blocksOf (planStream [text])).getLast? <;> rfl

section Tokens

variable {segments : List (TaggedLineSegment PlanTag)} {deltas : List Str}

def normalChar : Token PlanTag → Option Char
  | .text none ch => some ch
  | _ => none

def planChar : Token PlanTag → Option Char
  | .text (some _) ch => some ch
  | _ => none

def isStart : Token PlanTag → Bool
  | .start _ => true
  | _ => false

theorem tokensOf_cons (segment : TaggedLineSegment PlanTag)
    (segments : List (TaggedLineSegment PlanTag)) :
    tokensOf (segment :: segments) = segment.tokens ++ tokensOf segments := flatMap_cons

theorem filterMap_text_none (f : Token PlanTag → Option Char) (active : Option PlanTag)
    (text : Str) (h : ∀ ch, f (.text active ch) = none) :
    (text.map (.text active)).filterMap f = [] := by
  rw [filterMap_map, filterMap_eq_nil_iff]
  exact fun ch _ => h ch

theorem filterMap_text_some (f : Token PlanTag → Option Char) (active : Option PlanTag)
    (text : Str) (h : ∀ ch, f (.text active ch) = some ch) :
    (text.map (.text active)).filterMap f = text := by
  rw [filterMap_map]
  have hsome : (f ∘ Token.text active) = some := funext h
  rw [hsome, filterMap_some]

theorem normalText_map (segments : List (TaggedLineSegment PlanTag)) :
    normalText (segments.map mapPlanSegment) = (tokensOf segments).filterMap normalChar := by
  induction segments with
  | nil => rfl
  | cons segment segments ih =>
    rw [map_cons, normalText, flatMap_cons, ← normalText, ih, tokensOf_cons,
      filterMap_append]
    congr 1
    cases segment with
    | normal text => exact (filterMap_text_some _ none text fun _ => rfl).symm
    | tagDelta tag text => exact (filterMap_text_none _ (some tag) text fun _ => rfl).symm
    | tagStart | tagEnd => rfl

theorem planText_map (segments : List (TaggedLineSegment PlanTag)) :
    planText (segments.map mapPlanSegment) = (tokensOf segments).filterMap planChar := by
  induction segments with
  | nil => rfl
  | cons segment segments ih =>
    rw [map_cons, planText, flatMap_cons, ← planText, ih, tokensOf_cons,
      filterMap_append]
    congr 1
    cases segment with
    | normal text => exact (filterMap_text_none _ none text fun _ => rfl).symm
    | tagDelta tag text => exact (filterMap_text_some _ (some tag) text fun _ => rfl).symm
    | tagStart | tagEnd => rfl

theorem blocksOf_map_eq_nil_iff (segments : List (TaggedLineSegment PlanTag)) :
    blocksOf (segments.map mapPlanSegment) = [] ↔ (tokensOf segments).any isStart = false := by
  induction segments with
  | nil => simp [blocksOf, tokensOf]
  | cons segment segments ih =>
    rw [map_cons, tokensOf_cons, any_append]
    cases segment with
    | normal | tagDelta =>
      simp only [mapPlanSegment, blocksOf, ih, TaggedLineSegment.tokens, any_map]
      simp [Function.comp_def, isStart]
    | tagStart => simp [mapPlanSegment, blocksOf, TaggedLineSegment.tokens, isStart]
    | tagEnd => simp [mapPlanSegment, blocksOf, TaggedLineSegment.tokens, isStart, ih]

/-- However a text is cut, the marks and characters are the same. -/
theorem tokensOf_stream_congr (deltas : List Str) :
    tokensOf (stream planSpecs deltas) = tokensOf (stream planSpecs [deltas.flatten]) := by
  rw [tokensOf_stream, tokensOf_stream, flatten_singleton]

theorem normalText_planStream (deltas : List Str) :
    normalText (planStream deltas) = stripProposedPlanBlocks deltas.flatten := by
  change _ = normalText (planStream [deltas.flatten])
  rw [planStream, planStream, normalText_map, normalText_map, tokensOf_stream_congr]

theorem blocksOf_planStream_eq_nil_iff (deltas : List Str) :
    blocksOf (planStream deltas) = [] ↔ planBlocks deltas.flatten = [] := by
  rw [planBlocks, planStream, planStream, blocksOf_map_eq_nil_iff, blocksOf_map_eq_nil_iff,
    tokensOf_stream_congr]

/-- Before the first block there is no text of one. -/
theorem untilStart_eq_nil (h : nested none (tokensOf segments) = true) :
    untilStart (segments.map mapPlanSegment) = [] := by
  induction segments with
  | nil => rfl
  | cons segment segments ih =>
    rw [tokensOf_cons] at h
    cases segment with
    | normal text =>
      rw [TaggedLineSegment.tokens, nested_text] at h
      exact ih h
    | tagStart tag => rfl
    | tagEnd tag => cases h
    | tagDelta tag text =>
      cases text with
      | nil => exact ih h
      | cons ch text => simp [TaggedLineSegment.tokens, nested] at h

theorem planText_planStream (deltas : List Str) :
    planText (planStream deltas) = (planBlocks deltas.flatten).flatten := by
  have hwhole : planText (planStream deltas) = planText (planStream [deltas.flatten]) := by
    rw [planStream, planStream, planText_map, planText_map, tokensOf_stream_congr]
  rw [hwhole, planText_eq]
  have hnested := (stream_eq_reference planSpecs [deltas.flatten]).2.1
  rw [planStream, untilStart_eq_nil hnested]
  rfl

end Tokens

/-! ## What was sent for an item -/

/-- The started and completed items of a kind, and the deltas. -/
structure ItemView where
  starts : List TurnItem
  completions : List TurnItem
  text : Str
  deriving DecidableEq

def ItemView.empty : ItemView := ⟨[], [], []⟩

def TurnItem.isMessage (id : Str) : TurnItem → Bool
  | .agentMessage id' _ _ => id' = id
  | _ => false

def TurnItem.isPlan : TurnItem → Bool
  | .plan _ _ => true
  | _ => false

def EventMsg.started (mine : TurnItem → Bool) : EventMsg → Option TurnItem
  | .itemStarted item => if mine item then some item else none
  | _ => none

def EventMsg.completed (mine : TurnItem → Bool) : EventMsg → Option TurnItem
  | .itemCompleted item => if mine item then some item else none
  | _ => none

def EventMsg.messageDelta (id : Str) : EventMsg → Str
  | .agentMessageContentDelta id' delta => if id' = id then delta else []
  | _ => []

def EventMsg.planText : EventMsg → Str
  | .planDelta _ delta => delta
  | _ => []

def messageView (id : Str) (sent : List EventMsg) : ItemView where
  starts := sent.filterMap (EventMsg.started (TurnItem.isMessage id))
  completions := sent.filterMap (EventMsg.completed (TurnItem.isMessage id))
  text := sent.flatMap (EventMsg.messageDelta id)

def planView (sent : List EventMsg) : ItemView where
  starts := sent.filterMap (EventMsg.started TurnItem.isPlan)
  completions := sent.filterMap (EventMsg.completed TurnItem.isPlan)
  text := sent.flatMap EventMsg.planText

section Views

variable {id : Str} {sent : List EventMsg} {item : TurnItem}

theorem messageView_started (h : item.isMessage id = true) :
    messageView id (sent ++ [.itemStarted item]) =
      { messageView id sent with starts := (messageView id sent).starts ++ [item] } := by
  simp [messageView, EventMsg.started, EventMsg.completed, EventMsg.messageDelta, h]

theorem messageView_completed (h : item.isMessage id = true) :
    messageView id (sent ++ [.itemCompleted item]) =
      { messageView id sent with completions := (messageView id sent).completions ++ [item] } := by
  simp [messageView, EventMsg.started, EventMsg.completed, EventMsg.messageDelta, h]

theorem messageView_delta (delta : Str) :
    messageView id (sent ++ [.agentMessageContentDelta id delta]) =
      { messageView id sent with text := (messageView id sent).text ++ delta } := by
  simp [messageView, EventMsg.started, EventMsg.completed, EventMsg.messageDelta]

/-- An event is for other items than the message. -/
def EventMsg.NotFor (id : Str) : EventMsg → Prop
  | .itemStarted item | .itemCompleted item => item.isMessage id = false
  | .agentMessageContentDelta id' _ => id' ≠ id
  | .planDelta _ _ => True

theorem messageView_notFor {event : EventMsg} (h : event.NotFor id) :
    messageView id (sent ++ [event]) = messageView id sent := by
  cases event <;>
    simp_all [messageView, EventMsg.started, EventMsg.completed, EventMsg.messageDelta,
      EventMsg.NotFor]

def EventMsg.NotForPlan : EventMsg → Prop
  | .itemStarted item | .itemCompleted item => item.isPlan = false
  | .agentMessageContentDelta _ _ => True
  | .planDelta _ _ => False

theorem planView_notFor {event : EventMsg} (h : event.NotForPlan) :
    planView (sent ++ [event]) = planView sent := by
  cases event <;>
    simp_all [planView, EventMsg.started, EventMsg.completed, EventMsg.planText,
      EventMsg.NotForPlan]

end Views

/-! ## The plan item -/

/-- The plan item of a response, with the text that is streamed and the one it is finished with. -/
inductive PlanPhase where
  | idle
  | streaming (streamed : Str)
  | done (streamed text : Str)

namespace PlanPhase

def begun : PlanPhase → Bool
  | .idle => false
  | _ => true

def finished : PlanPhase → Bool
  | .done _ _ => true
  | _ => false

def next : PlanPhase → ProposedPlanSegment → PlanPhase
  | .idle, .proposedPlanStart => .streaming []
  | .idle, .proposedPlanDelta delta => .streaming delta
  | .streaming streamed, .proposedPlanDelta delta => .streaming (streamed ++ delta)
  | phase, _ => phase

/-- A finished message with the text of its last block, if it has one. -/
def complete : Option Str → PlanPhase → PlanPhase
  | some text, .idle => .done [] text
  | some text, .streaming streamed => .done streamed text
  | _, phase => phase

/-- The phase after a message with these blocks. -/
def after (blocks : List Str) : PlanPhase → PlanPhase
  | .idle =>
    match blocks.getLast? with
    | some last => .done blocks.flatten last
    | none => .idle
  | phase => phase

def view (itemId : Str) : PlanPhase → ItemView
  | .idle => .empty
  | .streaming streamed => ⟨[.plan itemId []], [], streamed⟩
  | .done streamed text => ⟨[.plan itemId []], [.plan itemId text], streamed⟩

theorem foldl_streaming (segments : List ProposedPlanSegment) (streamed : Str) :
    segments.foldl next (.streaming streamed) = .streaming (streamed ++ planText segments) := by
  induction segments generalizing streamed with
  | nil => simp [planText]
  | cons segment segments ih =>
    cases segment with
    | normal | proposedPlanStart | proposedPlanEnd =>
      rw [foldl_cons, next.eq_def, ih]
      rfl
    | proposedPlanDelta delta =>
      rw [foldl_cons, next, ih]
      simp [planText]

theorem foldl_done (segments : List ProposedPlanSegment) (streamed text : Str) :
    segments.foldl next (.done streamed text) = .done streamed text := by
  induction segments with
  | nil => rfl
  | cons segment segments ih => cases segment <;> exact ih

theorem foldl_idle {segments : List (TaggedLineSegment PlanTag)} (hfilled : Filled segments)
    (hnested : nested none (tokensOf segments) = true) :
    (segments.map mapPlanSegment).foldl next .idle =
      if blocksOf (segments.map mapPlanSegment) = [] then .idle
      else .streaming (Turn.PlanMode.planText (segments.map mapPlanSegment)) := by
  induction segments with
  | nil => rfl
  | cons segment segments ih =>
    have hrest : Filled segments := fun other hmem => hfilled other (mem_cons_of_mem _ hmem)
    rw [tokensOf_cons] at hnested
    rw [map_cons, foldl_cons]
    cases segment with
    | normal text =>
      rw [TaggedLineSegment.tokens, nested_text] at hnested
      exact ih hrest hnested
    | tagEnd tag => cases hnested
    | tagDelta tag text =>
      cases text with
      | nil => exact absurd rfl (hfilled _ mem_cons_self)
      | cons ch text => simp [TaggedLineSegment.tokens, nested] at hnested
    | tagStart tag =>
      rw [if_neg (by simp [mapPlanSegment, blocksOf])]
      exact foldl_streaming _ []

theorem foldl_complete (deltas : List Str) (phase : PlanPhase)
    (hphase : ∀ streamed, phase ≠ .streaming streamed) :
    complete (extractProposedPlanText deltas.flatten) ((planStream deltas).foldl next phase) =
      phase.after (planBlocks deltas.flatten) := by
  rw [extractProposedPlanText_eq]
  cases phase with
  | streaming streamed => exact absurd rfl (hphase streamed)
  | done streamed text =>
    rw [foldl_done]
    cases (planBlocks deltas.flatten).getLast? <;> rfl
  | idle =>
    have hfold := foldl_idle (filled_stream planSpecs deltas)
      (stream_eq_reference planSpecs deltas).2.1
    rw [← planStream, planText_planStream] at hfold
    simp only [blocksOf_planStream_eq_nil_iff] at hfold
    rw [hfold, after]
    cases hlast : (planBlocks deltas.flatten).getLast? with
    | none =>
      rw [if_pos (List.getLast?_eq_none_iff.1 hlast)]
      rfl
    | some last =>
      rw [if_neg fun hnil => by rw [hnil] at hlast; cases hlast]
      rfl

end PlanPhase

namespace PlanModeStreamState

variable {s : PlanModeStreamState} {phase : PlanPhase} {itemId : Str}

/-- The plan item of the state is in a phase, and was sent so. -/
structure PlanAt (s : PlanModeStreamState) (itemId : Str) (phase : PlanPhase) : Prop where
  itemId_eq : s.planItemState.itemId = itemId
  started : s.planItemState.started = phase.begun
  completed : s.planItemState.completed = phase.finished
  view : planView s.sent = phase.view itemId

/-- Nothing about the plan changes. -/
structure PlanKept (s s' : PlanModeStreamState) : Prop where
  planItemState_eq : s'.planItemState = s.planItemState
  view : planView s'.sent = planView s.sent

theorem PlanKept.planAt {s' : PlanModeStreamState} (h : PlanKept s s')
    (hplan : s.PlanAt itemId phase) : s'.PlanAt itemId phase := by
  obtain ⟨hitem, hstarted, hcompleted, hview⟩ := hplan
  exact ⟨by rw [h.planItemState_eq, hitem], by rw [h.planItemState_eq, hstarted],
    by rw [h.planItemState_eq, hcompleted], h.view.trans hview⟩

theorem planAt_startPlan (h : s.PlanAt itemId .idle) :
    (startPlan s).PlanAt itemId (.streaming []) := by
  obtain ⟨rfl, hstarted, hcompleted, hview⟩ := h
  have hstart : startPlan s =
      { s with planItemState := { s.planItemState with started := true } }.send
        (.itemStarted (.plan s.planItemState.itemId [])) := by
    rw [startPlan, if_neg]
    rw [hstarted, hcompleted]
    decide
  rw [hstart]
  refine ⟨rfl, rfl, hcompleted, ?_⟩
  simp only [planView, PlanPhase.view, PlanPhase.view, ItemView.empty, ItemView.mk.injEq] at hview
  simp [send, planView, PlanPhase.view, EventMsg.started, EventMsg.completed, EventMsg.planText,
    TurnItem.isPlan, hview]

theorem planAt_pushPlanDelta {streamed : Str} (delta : Str)
    (h : s.PlanAt itemId (.streaming streamed)) :
    (pushPlanDelta delta s).PlanAt itemId (.streaming (streamed ++ delta)) := by
  obtain ⟨rfl, hstarted, hcompleted, hview⟩ := h
  rw [pushPlanDelta, if_neg (by simp [hcompleted, PlanPhase.finished])]
  split
  next hempty =>
    rw [List.isEmpty_iff.1 hempty, append_nil]
    exact ⟨rfl, hstarted, hcompleted, hview⟩
  · refine ⟨rfl, hstarted, hcompleted, ?_⟩
    simp only [planView, PlanPhase.view, ItemView.mk.injEq] at hview
    simp [send, planView, PlanPhase.view, EventMsg.started, EventMsg.completed, EventMsg.planText,
      hview]

theorem planAt_completePlanWithText {streamed : Str} (text : Str)
    (h : s.PlanAt itemId (.streaming streamed)) :
    (completePlanWithText text s).PlanAt itemId (.done streamed text) := by
  obtain ⟨rfl, hstarted, hcompleted, hview⟩ := h
  rw [completePlanWithText,
    if_neg (by simp [hcompleted, hstarted, PlanPhase.finished, PlanPhase.begun])]
  refine ⟨rfl, hstarted, rfl, ?_⟩
  simp only [planView, PlanPhase.view, ItemView.mk.injEq] at hview
  simp [send, planView, PlanPhase.view, EventMsg.started, EventMsg.completed, EventMsg.planText,
    TurnItem.isPlan, hview]

/-! ## The text of a message -/

/-- What is pending under an id is the message of that id. -/
def Pending (s : PlanModeStreamState) : Prop :=
  ∀ id item, s.pendingAgentMessageItems id = some item → item.isMessage id = true

theorem not_isMessage {item : TurnItem} {id id' : Str} (h : item.isMessage id = true)
    (hne : id' ≠ id) : item.isMessage id' = false := by
  cases item with
  | agentMessage id₁ content phase =>
    rw [TurnItem.isMessage, decide_eq_true_eq] at h
    rw [TurnItem.isMessage, decide_eq_false_iff_not, h]
    exact hne.symm
  | plan | other => rfl

theorem not_isPlan {item : TurnItem} {id : Str} (h : item.isMessage id = true) :
    item.isPlan = false := by
  cases item with
  | agentMessage => rfl
  | plan | other => cases h

/-- What is known of a message stays. -/
structure Kept (id : Str) (s s' : PlanModeStreamState) : Prop where
  started : s'.startedAgentMessageItems id = s.startedAgentMessageItems id
  leading : s'.leadingWhitespaceByItem id = s.leadingWhitespaceByItem id
  view : messageView id s'.sent = messageView id s.sent

theorem Kept.refl (id : Str) (s : PlanModeStreamState) : Kept id s s := ⟨rfl, rfl, rfl⟩

theorem Kept.trans {id : Str} {s s' s'' : PlanModeStreamState} (h : Kept id s s')
    (h' : Kept id s' s'') : Kept id s s'' :=
  ⟨h'.started.trans h.started, h'.leading.trans h.leading, h'.view.trans h.view⟩

/-- The message waits, as its text is blank so far, or has been started and streamed. -/
inductive MessageAt (s : PlanModeStreamState) (id : Str) (item : TurnItem) (text : Str) : Prop
  | waiting : isBlank text = true → s.pendingAgentMessageItems id = some item →
      s.startedAgentMessageItems id = false →
      (s.leadingWhitespaceByItem id).getD [] = text → messageView id s.sent = .empty →
      MessageAt s id item text
  | shown : isBlank text = false → s.startedAgentMessageItems id = true →
      messageView id s.sent = ⟨[item], [], text⟩ → MessageAt s id item text

theorem isBlank_append (text text' : Str) : isBlank (text ++ text') = (isBlank text && isBlank text') :=
  all_append

section Normal

variable {id delta : Str}

theorem handle_blank (hne : delta ≠ []) (hblank : isBlank delta = true)
    (hstarted : s.startedAgentMessageItems id = false) :
    handlePlanSegment id s (.normal delta) =
      { s with
        leadingWhitespaceByItem := Function.update s.leadingWhitespaceByItem id
          (some ((s.leadingWhitespaceByItem id).getD [] ++ delta)) } := by
  simp [handlePlanSegment, hne, hblank, hstarted]

theorem handle_started (hne : delta ≠ []) (hstarted : s.startedAgentMessageItems id = true) :
    handlePlanSegment id s (.normal delta) = s.send (.agentMessageContentDelta id delta) := by
  simp [handlePlanSegment, hne, hstarted, maybeEmitPendingAgentMessageStart]

/-- The first text that is not blank goes out with the white space before it. -/
theorem handle_first (hblank : isBlank delta = false)
    (hstarted : s.startedAgentMessageItems id = false) :
    handlePlanSegment id s (.normal delta) =
      (maybeEmitPendingAgentMessageStart id { s with
        leadingWhitespaceByItem := Function.update s.leadingWhitespaceByItem id none }).send
        (.agentMessageContentDelta id ((s.leadingWhitespaceByItem id).getD [] ++ delta)) := by
  have hne : delta ≠ [] := by
    rintro rfl
    cases hblank
  cases hleading : s.leadingWhitespaceByItem id with
  | some whitespace => simp [handlePlanSegment, hne, hblank, hstarted, hleading]
  | none =>
    have hself : Function.update s.leadingWhitespaceByItem id none = s.leadingWhitespaceByItem := by
      rw [← hleading, Function.update_eq_self]
    simp [handlePlanSegment, hne, hblank, hstarted, hleading, hself]

theorem maybeEmit_waiting {item : TurnItem} (hstarted : s.startedAgentMessageItems id = false)
    (hpending : s.pendingAgentMessageItems id = some item) :
    maybeEmitPendingAgentMessageStart id s =
      { s with
        pendingAgentMessageItems := Function.update s.pendingAgentMessageItems id none
        startedAgentMessageItems := Function.update s.startedAgentMessageItems id true }.send
        (.itemStarted item) := by
  simp [maybeEmitPendingAgentMessageStart, hstarted, hpending]

theorem messageAt_normal {item : TurnItem} {text : Str} (hitem : item.isMessage id = true)
    (h : s.MessageAt id item text) (delta : Str) :
    (handlePlanSegment id s (.normal delta)).MessageAt id item (text ++ delta) := by
  by_cases hne : delta = []
  · subst hne
    rw [append_nil]
    exact h
  cases h with
  | waiting hblank hpending hstarted hleading hview =>
    cases hdelta : isBlank delta with
    | true =>
      rw [handle_blank hne hdelta hstarted]
      refine .waiting ?_ hpending hstarted ?_ hview
      · rw [isBlank_append, hblank, hdelta]
        rfl
      · simp [hleading]
    | false =>
      have hemit := maybeEmit_waiting (s := { s with
        leadingWhitespaceByItem := Function.update s.leadingWhitespaceByItem id none })
        hstarted hpending
      rw [handle_first hdelta hstarted, hemit, hleading]
      refine .shown ?_ (Function.update_self ..) ?_
      · rw [isBlank_append, hdelta, Bool.and_false]
      · simp only [send]
        rw [messageView_delta, messageView_started hitem, hview]
        rfl
  | shown hblank hstarted hview =>
    rw [handle_started hne hstarted]
    refine .shown ?_ hstarted ?_
    · rw [isBlank_append, hblank, Bool.false_and]
    · simp only [send]
      rw [messageView_delta, hview]

end Normal

/-- Only what concerns the plan changes. -/
structure PlanOnly (s s' : PlanModeStreamState) : Prop where
  state : s' = { s with planItemState := s'.planItemState, sent := s'.sent }
  view : ∀ id, messageView id s'.sent = messageView id s.sent

namespace PlanOnly

variable {s' s'' : PlanModeStreamState}

theorem refl (s : PlanModeStreamState) : PlanOnly s s := ⟨rfl, fun _ => rfl⟩

theorem trans (h : PlanOnly s s') (h' : PlanOnly s' s'') : PlanOnly s s'' :=
  ⟨by rw [h'.state, h.state], fun id => (h'.view id).trans (h.view id)⟩

theorem startPlan (s : PlanModeStreamState) : PlanOnly s (startPlan s) := by
  unfold PlanModeStreamState.startPlan
  split
  · exact .refl s
  · exact ⟨rfl, fun _ => messageView_notFor rfl⟩

theorem pushPlanDelta (delta : Str) (s : PlanModeStreamState) :
    PlanOnly s (pushPlanDelta delta s) := by
  unfold PlanModeStreamState.pushPlanDelta
  split
  · exact .refl s
  · split
    · exact .refl s
    · exact ⟨rfl, fun _ => messageView_notFor trivial⟩

theorem completePlanWithText (text : Str) (s : PlanModeStreamState) :
    PlanOnly s (completePlanWithText text s) := by
  unfold PlanModeStreamState.completePlanWithText
  split
  · exact .refl s
  · exact ⟨rfl, fun _ => messageView_notFor rfl⟩

theorem pending (h : PlanOnly s s') (hpending : s.Pending) : s'.Pending := by
  rw [Pending, h.state]
  exact hpending

theorem kept (h : PlanOnly s s') (id : Str) : Kept id s s' :=
  ⟨by rw [h.state], by rw [h.state], h.view id⟩

theorem messageAt {id : Str} {item : TurnItem} {text : Str} (h : PlanOnly s s')
    (hmessage : s.MessageAt id item text) : s'.MessageAt id item text := by
  obtain ⟨hstarted, hleading, hview⟩ := h.kept id
  cases hmessage with
  | waiting hblank hpending hnot hwhite hempty =>
    exact .waiting hblank (by rw [h.state]; exact hpending) (hstarted.trans hnot)
      (by rw [hleading, hwhite]) (hview.trans hempty)
  | shown hblank hshown hsent => exact .shown hblank (hstarted.trans hshown) (hview.trans hsent)

end PlanOnly

/-- The segments of a message have been handled: they tell on its text and on the plan. -/
structure Handled (id : Str) (segments : List ProposedPlanSegment)
    (s s' : PlanModeStreamState) : Prop where
  pending : s'.Pending
  kept : ∀ id', id' ≠ id → Kept id' s s'
  planAt : ∀ itemId phase, s.PlanAt itemId phase →
    s'.PlanAt itemId (segments.foldl PlanPhase.next phase)
  messageAt : ∀ item text, item.isMessage id = true → s.MessageAt id item text →
    s'.MessageAt id item (text ++ normalText segments)

namespace Handled

variable {id : Str} {segments segments' : List ProposedPlanSegment} {s' s'' : PlanModeStreamState}

theorem nil (h : s.Pending) : Handled id [] s s :=
  ⟨h, fun id' _ => .refl id' s, fun _ _ hplan => hplan, fun item text _ hmessage => by
    rwa [normalText, flatMap_nil, append_nil]⟩

theorem append (h : Handled id segments s s') (h' : Handled id segments' s' s'') :
    Handled id (segments ++ segments') s s'' := by
  refine ⟨h'.pending, fun id' hne => (h.kept id' hne).trans (h'.kept id' hne), ?_, ?_⟩
  · intro itemId phase hplan
    rw [foldl_append]
    exact h'.planAt itemId _ (h.planAt itemId phase hplan)
  · intro item text hitem hmessage
    rw [normalText, flatMap_append, ← append_assoc]
    exact h'.messageAt item _ hitem (h.messageAt item text hitem hmessage)

theorem ofPlan {segment : ProposedPlanSegment} (hpending : s.Pending) (h : PlanOnly s s')
    (hplan : ∀ itemId phase, s.PlanAt itemId phase → s'.PlanAt itemId (phase.next segment))
    (hnormal : normalText [segment] = []) : Handled id [segment] s s' := by
  refine ⟨h.pending hpending, fun id' _ => h.kept id', hplan, fun item text _ hmessage => ?_⟩
  rw [hnormal, append_nil]
  exact h.messageAt hmessage

theorem ofBase {parsers : List (Str × TaggedLineParser PlanTag)} {active : Option TurnItem}
    (h : Handled id segments { s with planParsers := parsers, activeItem := active } s') :
    Handled id segments s s' := by
  refine ⟨h.pending, fun id' hne => ?_, fun itemId phase hplan => ?_,
    fun item text hitem hmessage => ?_⟩
  · obtain ⟨hstarted, hleading, hview⟩ := h.kept id' hne
    exact ⟨hstarted, hleading, hview⟩
  · obtain ⟨hid, hstarted, hcompleted, hview⟩ := hplan
    exact h.planAt itemId phase ⟨hid, hstarted, hcompleted, hview⟩
  · refine h.messageAt item text hitem ?_
    cases hmessage with
    | waiting hblank hpending hstarted hleading hview =>
      exact .waiting hblank hpending hstarted hleading hview
    | shown hblank hstarted hview => exact .shown hblank hstarted hview

end Handled

/-- Only what concerns the message of an id changes. -/
structure Local (id : Str) (s s' : PlanModeStreamState) : Prop where
  pending : s.Pending → s'.Pending
  kept : ∀ id', id' ≠ id → Kept id' s s'
  plan : PlanKept s s'

namespace Local

variable {id : Str} {s' s'' : PlanModeStreamState}

theorem trans (h : Local id s s') (h' : Local id s' s'') : Local id s s'' :=
  ⟨fun hpending => h'.pending (h.pending hpending),
    fun id' hne => (h.kept id' hne).trans (h'.kept id' hne),
    ⟨h'.plan.planItemState_eq.trans h.plan.planItemState_eq, h'.plan.view.trans h.plan.view⟩⟩

theorem leading (id : Str) (whitespace : Option Str) (s : PlanModeStreamState) :
    Local id s { s with
      leadingWhitespaceByItem := Function.update s.leadingWhitespaceByItem id whitespace } :=
  ⟨fun hpending => hpending,
    fun _ hne => ⟨rfl, Function.update_of_ne hne _ _, rfl⟩, rfl, rfl⟩

theorem sendDelta (id delta : Str) (s : PlanModeStreamState) :
    Local id s (s.send (.agentMessageContentDelta id delta)) :=
  ⟨fun hpending => hpending,
    fun _ hne => ⟨rfl, rfl, messageView_notFor hne.symm⟩, rfl, planView_notFor trivial⟩

theorem sendItem {item : TurnItem} (hitem : item.isMessage id = true) {event : EventMsg}
    (hevent : event = .itemStarted item ∨ event = .itemCompleted item) (s : PlanModeStreamState) :
    Local id s (s.send event) := by
  refine ⟨fun hpending => hpending, fun id' hne => ⟨rfl, rfl, messageView_notFor ?_⟩,
    rfl, planView_notFor ?_⟩
  · rcases hevent with rfl | rfl <;> exact not_isMessage hitem hne
  · rcases hevent with rfl | rfl <;> exact not_isPlan hitem

/-- The message is pending no longer, and has been started or forgotten. -/
theorem settle (id : Str) (started : Bool) (s : PlanModeStreamState) :
    Local id s { s with
      pendingAgentMessageItems := Function.update s.pendingAgentMessageItems id none
      startedAgentMessageItems := Function.update s.startedAgentMessageItems id started } := by
  refine ⟨fun hpending id' item hitem => ?_,
    fun _ hne => ⟨Function.update_of_ne hne _ _, rfl, rfl⟩, rfl, rfl⟩
  by_cases heq : id' = id
  · subst heq
    simp at hitem
  · simp only [Function.update_of_ne heq] at hitem
    exact hpending id' item hitem

theorem forget (id : Str) (s : PlanModeStreamState) :
    Local id s { s with
      startedAgentMessageItems := Function.update s.startedAgentMessageItems id false } :=
  ⟨fun hpending => hpending,
    fun _ hne => ⟨Function.update_of_ne hne _ _, rfl, rfl⟩, rfl, rfl⟩

theorem maybeEmit (id : Str) (hpending : s.Pending) :
    Local id s (maybeEmitPendingAgentMessageStart id s) := by
  have hself : Local id s s := ⟨fun h => h, fun id' _ => .refl id' s, rfl, rfl⟩
  unfold maybeEmitPendingAgentMessageStart
  split
  · exact hself
  · split
    next item hitem => exact (settle id true s).trans (sendItem (hpending id item hitem) (.inl rfl) _)
    · exact hself

end Local

section Segments

variable {id : Str}

theorem handled_normal (hpending : s.Pending) (id delta : Str) :
    Handled id [.normal delta] s (handlePlanSegment id s (.normal delta)) := by
  have hlocal : Local id s (handlePlanSegment id s (.normal delta)) := by
    by_cases hne : delta = []
    · subst hne
      exact ⟨fun h => h, fun id' _ => .refl id' s, rfl, rfl⟩
    cases hstarted : s.startedAgentMessageItems id with
    | true =>
      rw [handle_started hne hstarted]
      exact .sendDelta id delta s
    | false =>
      cases hblank : isBlank delta with
      | true =>
        rw [handle_blank hne hblank hstarted]
        exact .leading id _ s
      | false =>
        rw [handle_first hblank hstarted]
        have hleading := Local.leading id none s
        exact (hleading.trans (.maybeEmit id (hleading.pending hpending))).trans
          (.sendDelta id _ _)
  refine ⟨hlocal.pending hpending, hlocal.kept, ?_, ?_⟩
  · intro itemId phase hplan
    have hnext : phase.next (.normal delta) = phase := by cases phase <;> rfl
    rw [foldl_cons, foldl_nil, hnext]
    exact hlocal.plan.planAt hplan
  · intro item text hitem hmessage
    have htext : normalText [.normal delta] = delta := append_nil delta
    rw [htext]
    exact messageAt_normal hitem hmessage delta

theorem startPlan_started (h : s.planItemState.started = true) : startPlan s = s := by
  rw [startPlan, if_pos]
  rw [h, Bool.true_or]

theorem startPlan_guarded (s : PlanModeStreamState) :
    (if s.planItemState.started then s else startPlan s) = startPlan s := by
  split
  next h => rw [startPlan_started h]
  · rfl

theorem handled_start (hpending : s.Pending) (id : Str) :
    Handled id [.proposedPlanStart] s (handlePlanSegment id s .proposedPlanStart) := by
  simp only [handlePlanSegment]
  refine .ofPlan hpending ?_ (fun itemId phase hplan => ?_) rfl
  · split
    · exact .refl s
    · exact .startPlan s
  · cases phase with
    | idle =>
      rw [if_neg (by simp [hplan.completed, PlanPhase.finished])]
      exact planAt_startPlan hplan
    | streaming streamed =>
      rw [if_neg (by simp [hplan.completed, PlanPhase.finished]), startPlan_started hplan.started]
      exact hplan
    | done streamed text =>
      rw [if_pos (by simp [hplan.completed, PlanPhase.finished])]
      exact hplan

theorem handled_delta (hpending : s.Pending) (id delta : Str) :
    Handled id [.proposedPlanDelta delta] s (handlePlanSegment id s (.proposedPlanDelta delta)) := by
  simp only [handlePlanSegment, startPlan_guarded]
  refine .ofPlan hpending ?_ (fun itemId phase hplan => ?_) rfl
  · split
    · exact .refl s
    · exact (PlanOnly.startPlan s).trans (.pushPlanDelta delta _)
  · cases phase with
    | idle =>
      rw [if_neg (by simp [hplan.completed, PlanPhase.finished])]
      exact planAt_pushPlanDelta delta (planAt_startPlan hplan)
    | streaming streamed =>
      rw [if_neg (by simp [hplan.completed, PlanPhase.finished]), startPlan_started hplan.started]
      exact planAt_pushPlanDelta delta hplan
    | done streamed text =>
      rw [if_pos (by simp [hplan.completed, PlanPhase.finished])]
      exact hplan

theorem handled_segments (hpending : s.Pending) (id : Str) (segments : List ProposedPlanSegment) :
    Handled id segments s (handlePlanSegments id segments s) := by
  induction segments generalizing s with
  | nil => exact .nil hpending
  | cons segment segments ih =>
    have hfirst : Handled id [segment] s (handlePlanSegment id s segment) := by
      cases segment with
      | normal delta => exact handled_normal hpending id delta
      | proposedPlanStart => exact handled_start hpending id
      | proposedPlanDelta delta => exact handled_delta hpending id delta
      | proposedPlanEnd =>
        refine .ofPlan hpending (.refl s) (fun itemId phase hplan => ?_) rfl
        cases phase <;> exact hplan
    exact hfirst.append (ih hfirst.pending)

theorem base_handlePlanSegments (id : Str) (segments : List ProposedPlanSegment)
    (s : PlanModeStreamState) : (handlePlanSegments id segments s).planParsers = s.planParsers ∧
      (handlePlanSegments id segments s).activeItem = s.activeItem := by
  have hsegment : ∀ (s : PlanModeStreamState) segment,
      (handlePlanSegment id s segment).planParsers = s.planParsers ∧
        (handlePlanSegment id s segment).activeItem = s.activeItem := by
    intro s segment
    cases segment <;>
      simp only [handlePlanSegment, pushPlanDelta, startPlan, send,
        maybeEmitPendingAgentMessageStart] <;> grind
  induction segments generalizing s with
  | nil => exact ⟨rfl, rfl⟩
  | cons segment segments ih =>
    obtain ⟨hparsers, hactive⟩ := ih (handlePlanSegment id s segment)
    exact ⟨hparsers.trans (hsegment s segment).1, hactive.trans (hsegment s segment).2⟩

end Segments

end PlanModeStreamState

end SheriMl.Turn.PlanMode
