import Mathlib.Logic.Relation
import SheriMl.Rollout.ThreadHistory

/-!
# What the handlers do to a thread

Every handler of `ThreadHistoryBuilder` but the rollback's is made of a few edits of the turns:
`edits_handleEvent`. What an edit keeps, the handlers keep.
-/

namespace SheriMl.Rollout

open Protocol

def ThreadItem.userContent : ThreadItem → Option (List ThreadInput)
  | .userMessage _ content => some content
  | _ => none

/-- The id of an item that `next_item_id` names; the other items are named by their events. -/
def ThreadItem.generatedId : ThreadItem → Option Str
  | .userMessage id _ => some id
  | .agentMessage id _ => some id
  | .reasoning id _ _ => some id
  | .contextCompaction id => some id
  | .enteredReviewMode id _ => some id
  | .exitedReviewMode id _ => some id
  | .plan _ _ => none
  | .commandExecution _ => none
  | .tool _ => none

section

variable {b : ThreadHistoryBuilder} {turn : PendingTurn} {turns turns' : List Turn}
  {items : List ThreadItem} {item : ThreadItem} {turnId : Str} {change : Turn → Turn}

theorem updateTurn_eq_some (h : updateTurn turnId change turns = some turns') :
    ∃ pre turn post, turns = pre ++ turn :: post ∧ turns' = pre ++ change turn :: post := by
  induction turns generalizing turns' with
  | nil => cases h
  | cons turn turns ih =>
    rw [updateTurn] at h
    split at h
    · obtain rfl := Option.some.inj h
      exact ⟨[], turn, turns, rfl, rfl⟩
    · obtain ⟨rest, hrest, rfl⟩ := Option.map_eq_some_iff.1 h
      obtain ⟨pre, found, post, rfl, rfl⟩ := ih hrest
      exact ⟨turn :: pre, found, post, rfl, rfl⟩

theorem lastReasoning_eq_some {id : Str} {summary content : List Str}
    (h : lastReasoning items = some (id, summary, content)) :
    ∃ earlier, items = earlier ++ [.reasoning id summary content] := by
  unfold lastReasoning at h
  split at h
  next id' summary' content' hget =>
    obtain ⟨rfl, rfl, rfl⟩ : id' = id ∧ summary' = summary ∧ content' = content := by
      simpa using h
    exact List.getLast?_eq_some_iff.1 hget
  · cases h

namespace ThreadHistoryBuilder

theorem currentTurn_finishCurrentTurn : b.finishCurrentTurn.currentTurn = none := by
  unfold finishCurrentTurn
  split
  next hcurrent => exact hcurrent
  · split
    · rfl
    · rfl

/-- An edit of the turns that adds no user message. -/
inductive Edit (b : ThreadHistoryBuilder) : ThreadHistoryBuilder → Prop where
  | finish : Edit b b.finishCurrentTurn
  | set (turn : PendingTurn)
      (hids : turn.items.map ThreadItem.generatedId =
        b.ensureTurn.items.map ThreadItem.generatedId)
      (huser : turn.items.filterMap ThreadItem.userContent =
        b.ensureTurn.items.filterMap ThreadItem.userContent) : Edit b (b.setTurn turn)
  | push (item : ThreadItem) (hid : item.generatedId = none) : Edit b (b.pushItem item)
  | number (item : Str → ThreadItem) (hid : ∀ id, (item id).generatedId = some id)
      (huser : ∀ id, (item id).userContent = none) : Edit b (b.pushNumbered item)
  | update (pre post : List Turn) (turn turn' : Turn) (items : List ThreadItem)
      (hturns : b.turns = pre ++ turn :: post) (hitems : turn'.items = turn.items ++ items)
      (hids : ∀ item ∈ items, item.generatedId = none) :
      Edit b { b with turns := pre ++ turn' :: post }

def Edits : ThreadHistoryBuilder → ThreadHistoryBuilder → Prop := Relation.ReflTransGen Edit

theorem Edit.once {b' : ThreadHistoryBuilder} (h : Edit b b') : Edits b b' :=
  Relation.ReflTransGen.single h

theorem Edits.none : Edits b b := Relation.ReflTransGen.refl

theorem edits_pushItem (hid : item.generatedId = none) : Edits b (b.pushItem item) :=
  Edit.once (.push item hid)

theorem edits_pushNumbered {item : Str → ThreadItem} (hid : ∀ id, (item id).generatedId = some id)
    (huser : ∀ id, (item id).userContent = none) : Edits b (b.pushNumbered item) :=
  Edit.once (.number item hid huser)

theorem edits_setTurn (hitems : turn.items = b.ensureTurn.items) : Edits b (b.setTurn turn) := by
  apply Edit.once
  apply Edit.set
  · rw [hitems]
  · rw [hitems]

theorem ensureTurn_of_some (h : b.currentTurn = some turn) : b.ensureTurn = turn := by
  rw [ensureTurn, h]
  rfl

theorem edits_updateTurn (hchange : ∀ turn, (change turn).items = turn.items)
    (h : updateTurn turnId change b.turns = some turns) : Edits b { b with turns } := by
  obtain ⟨pre, turn, post, hturns, rfl⟩ := updateTurn_eq_some h
  apply Edit.once
  refine .update pre post turn (change turn) [] hturns ?_ ?_
  · rw [hchange, List.append_nil]
  · intro item hitem
    cases hitem

theorem edits_handleReasoning (text : Str) (raw : Bool) : Edits b (b.handleReasoning text raw) := by
  unfold handleReasoning
  dsimp only
  split
  · exact Edits.none
  · split
    next id summary content hlast =>
      obtain ⟨earlier, hitems⟩ := lastReasoning_eq_some hlast
      apply Edit.once
      apply Edit.set
      · dsimp only
        rw [hitems, List.dropLast_concat, List.map_append, List.map_append]
        cases raw with
        | false => rfl
        | true => rfl
      · dsimp only
        rw [hitems, List.dropLast_concat, List.filterMap_append, List.filterMap_append]
        cases raw with
        | false => rfl
        | true => rfl
    · cases raw with
      | false | true => exact edits_pushNumbered (fun _ => rfl) fun _ => rfl

theorem edits_handleExecCommandEnd (callId turnId : Str) :
    Edits b (b.handleExecCommandEnd callId turnId) := by
  unfold handleExecCommandEnd
  dsimp only
  split
  · exact edits_pushItem rfl
  · split
    next turns hupdate =>
      -- a late end of a command goes to its own turn, and takes no number
      obtain ⟨pre, turn, post, hturns, rfl⟩ := updateTurn_eq_some hupdate
      apply Edit.once
      refine .update pre post turn _ [.commandExecution callId] hturns rfl ?_
      intro item hitem
      rw [List.mem_singleton.1 hitem]
      rfl
    · exact edits_pushItem rfl

theorem edits_handleError (message : Str) (affectsTurnStatus : Bool) :
    Edits b (b.handleError message affectsTurnStatus) := by
  unfold handleError
  split
  · exact Edits.none
  · split
    · exact Edits.none
    next turn hcurrent =>
      apply edits_setTurn
      rw [ensureTurn_of_some hcurrent]

theorem edits_interrupt : Edits b (match b.currentTurn with
    | none => b
    | some turn => b.setTurn { turn with status := .interrupted }) := by
  split
  · exact Edits.none
  next turn hcurrent =>
    apply edits_setTurn
    rw [ensureTurn_of_some hcurrent]

theorem edits_handleTurnAborted (turnId : Option Str) : Edits b (b.handleTurnAborted turnId) := by
  have hinterrupt := edits_interrupt (b := b)
  unfold handleTurnAborted
  dsimp only
  split
  · exact hinterrupt
  · split
    · exact hinterrupt
    · split
      next turns hupdate =>
        refine edits_updateTurn ?_ hupdate
        intro turn
        rfl
      · exact hinterrupt

theorem edits_handleTurnStarted (turnId : Str) : Edits b (b.handleTurnStarted turnId) := by
  apply Edit.finish.once.trans
  apply edits_setTurn
  rw [ensureTurn, currentTurn_finishCurrentTurn]
  rfl

theorem edits_complete : Edits b (match b.currentTurn with
    | none => b
    | some turn =>
      (b.setTurn { turn with status := markCompleted turn.status }).finishCurrentTurn) := by
  split
  · exact Edits.none
  next turn hcurrent =>
    refine .tail ?_ .finish
    apply edits_setTurn
    rw [ensureTurn_of_some hcurrent]

theorem edits_handleTurnComplete (turnId : Str) : Edits b (b.handleTurnComplete turnId) := by
  have hcomplete := edits_complete (b := b)
  unfold handleTurnComplete
  dsimp only
  split
  · exact hcomplete
  · split
    next turns hupdate =>
      refine edits_updateTurn ?_ hupdate
      intro turn
      rfl
    · exact hcomplete

theorem edits_handleCompacted : Edits b b.handleCompacted := edits_setTurn rfl

/-- Every event but a user message and a rollback edits the turns. -/
theorem edits_handleEvent {event : EventMsg} (huser : ∀ payload, event ≠ .userMessage payload)
    (hrollback : ∀ numTurns, event ≠ .threadRolledBack numTurns) :
    Edits b (b.handleEvent event) := by
  cases event with
  | userMessage payload => exact absurd rfl (huser payload)
  | threadRolledBack numTurns => exact absurd rfl (hrollback numTurns)
  | agentMessage message =>
    rw [handleEvent, handleAgentMessage]
    split
    · exact Edits.none
    · exact edits_pushNumbered (fun _ => rfl) fun _ => rfl
  | agentReasoning text => exact edits_handleReasoning text false
  | agentReasoningRawContent text => exact edits_handleReasoning text true
  | planCompleted id text =>
    rw [handleEvent]
    split
    · exact Edits.none
    · exact edits_pushItem rfl
  | execCommandEnd callId turnId => exact edits_handleExecCommandEnd callId turnId
  | toolEnd callId => exact edits_pushItem rfl
  | contextCompacted => exact edits_pushNumbered (fun _ => rfl) fun _ => rfl
  | enteredReviewMode review | exitedReviewMode explanation =>
    rw [handleEvent]
    exact edits_pushNumbered (fun _ => rfl) fun _ => rfl
  | error message affectsTurnStatus => exact edits_handleError message affectsTurnStatus
  | turnStarted turnId => exact edits_handleTurnStarted turnId
  | turnComplete turnId => exact edits_handleTurnComplete turnId
  | turnAborted turnId => exact edits_handleTurnAborted turnId
  | other => exact Edits.none

theorem turns_handleThreadRollback (numTurns : Nat) : (b.handleThreadRollback numTurns).turns =
    b.finish.take (b.finish.length - numTurns) := by
  change (if b.finish.length ≤ numTurns then [] else _) = _
  split
  next hall => rw [Nat.sub_eq_zero_of_le hall, List.take_zero]
  · rfl

theorem currentTurn_handleThreadRollback (numTurns : Nat) :
    (b.handleThreadRollback numTurns).currentTurn = none := currentTurn_finishCurrentTurn

end ThreadHistoryBuilder

end

end SheriMl.Rollout
