import SheriMl.ContextManager.Compact
import SheriMl.Protocol.Rollout

/-!
# Replaying a rollout

`reconstruct_history_from_rollout` of `core/src/codex.rs`: the history that a rollout
stands for. A resumed session records what was rebuilt once more (`resume`).
`resume_recorded_iff`: when the resumed history of a session that only recorded items
is the history it held.
-/

namespace SheriMl.Rollout

open Protocol ContextManager

/-- What of a turn's context its initial items and its truncation depend on. -/
structure TurnContext where
  developerTexts : List Str
  userInstructions : Option Str
  cwd : Str
  environmentLines : List Str
  truncationPolicy : TruncationPolicy

def developerMessage (text : Str) : ResponseItem :=
  .message none "developer" [.inputText text] none none

/-- `UserInstructions`, as a message. -/
def userInstructionsMessage (directory contents : Str) : ResponseItem :=
  userMessageItem
    (("# AGENTS.md instructions for " : Str) ++ directory ++ ("\n\n<INSTRUCTIONS>\n" : Str) ++
      contents ++ ("\n</INSTRUCTIONS>" : Str))

/-- `EnvironmentContext`, as a message. -/
def environmentMessage (lines : List Str) : ResponseItem :=
  userMessageItem
    (Str.join "\n"
      ([("<environment_context>" : Str)] ++ lines ++ [("</environment_context>" : Str)]))

def buildInitialContext (context : TurnContext) : List ResponseItem :=
  context.developerTexts.map developerMessage ++
    (context.userInstructions.map (userInstructionsMessage context.cwd)).toList ++
    [environmentMessage context.environmentLines]

/-- One entry of the loop of `reconstruct_history_from_rollout`. -/
def replayItem (context : TurnContext) (history : List ResponseItem) :
    RolloutItem → List ResponseItem
  | .responseItem item => recordItems history [item] context.truncationPolicy
  | .compacted compacted =>
    match compacted.replacementHistory with
    | some replacement => replacement
    | none =>
      buildCompactedHistory (buildInitialContext context) (collectUserMessages history)
        compacted.message
  | .eventMsg (.threadRolledBack numTurns) => dropLastNUserTurns history numTurns
  | _ => history

def reconstructHistoryFromRollout (context : TurnContext) (items : List RolloutItem) :
    List ResponseItem :=
  items.foldl (replayItem context) []

/-- The history of a resumed session: what is rebuilt is recorded again. -/
def resume (context : TurnContext) (items : List RolloutItem) : List ResponseItem :=
  recordItems [] (reconstructHistoryFromRollout context items) context.truncationPolicy

/-! ## A session's rollout -/

/-- The history a session holds and the rollout it writes. -/
structure Session where
  history : List ResponseItem
  rollout : List RolloutItem

def shouldPersistResponseItem : ResponseItem → Bool
  | .other => false
  | _ => true

namespace Session

/-- `record_conversation_items`, with the recorder's filter. -/
def recordConversationItems (s : Session) (context : TurnContext) (items : List ResponseItem) :
    Session :=
  ⟨recordItems s.history items context.truncationPolicy,
    s.rollout ++ (items.filter shouldPersistResponseItem).map .responseItem⟩

/-- `persist_rollout_items`. -/
def persist (s : Session) (item : RolloutItem) : Session :=
  { s with rollout := s.rollout ++ [item] }

end Session

/-- An entry that no replay reads. -/
def Passive : RolloutItem → Prop
  | .responseItem _ => False
  | .compacted _ => False
  | .eventMsg (.threadRolledBack _) => False
  | _ => True

/-- A step of a session that neither compacts nor rolls back. -/
inductive Recording where
  | record (items : List ResponseItem)
  | write (item : RolloutItem) (passive : Passive item)

/-- What a session recorded, in order. -/
def recorded : List Recording → List ResponseItem
  | [] => []
  | .record items :: steps => items ++ recorded steps
  | .write _ _ :: steps => recorded steps

/-- The session after its steps, all under one context. -/
def recordAll (context : TurnContext) (s : Session) : List Recording → Session
  | [] => s
  | .record items :: steps => recordAll context (s.recordConversationItems context items) steps
  | .write item _ :: steps => recordAll context (s.persist item) steps

section Replay

variable {context : TurnContext} {s : Session} {items items' : List RolloutItem}
  {recordedItems : List ResponseItem} {history : List ResponseItem} {item : RolloutItem}
  {policy : TruncationPolicy} {steps : List Recording}

theorem reconstruct_append : reconstructHistoryFromRollout context (items ++ items') =
    items'.foldl (replayItem context) (reconstructHistoryFromRollout context items) := by
  rw [reconstructHistoryFromRollout, List.foldl_append]
  rfl

theorem reconstruct_concat : reconstructHistoryFromRollout context (items ++ [item]) =
    replayItem context (reconstructHistoryFromRollout context items) item :=
  reconstruct_append

theorem recordItems_append (a b : List ResponseItem) :
    recordItems history (a ++ b) policy = recordItems (recordItems history a policy) b policy := by
  simp only [recordItems, List.filter_append, List.map_append, List.append_assoc]

theorem recordItems_concat {x : ResponseItem} (a : List ResponseItem) :
    recordItems history (x :: a) policy =
      recordItems (recordItems history [x] policy) a policy :=
  recordItems_append [x] a

theorem foldl_replay_persisted :
    ((recordedItems.filter shouldPersistResponseItem).map RolloutItem.responseItem).foldl
        (replayItem context) history =
      recordItems history recordedItems context.truncationPolicy := by
  induction recordedItems generalizing history with
  | nil => simp [recordItems]
  | cons x recordedItems ih =>
    rw [recordItems_concat, ← ih]
    cases x with
    | other => simp [shouldPersistResponseItem, recordItems, isRecorded, isApiMessage,
        isGhostSnapshot]
    | _ => rfl

theorem replayItem_passive (h : Passive item) : replayItem context history item = history := by
  cases item with
  | responseItem x => exact h.elim
  | compacted x => exact h.elim
  | eventMsg event =>
    cases event with
    | threadRolledBack numTurns => exact h.elim
    | _ => rfl
  | _ => rfl

theorem reconstruct_recordAll
    (h : reconstructHistoryFromRollout context s.rollout = s.history) :
    reconstructHistoryFromRollout context (recordAll context s steps).rollout =
      (recordAll context s steps).history := by
  induction steps generalizing s with
  | nil => exact h
  | cons step steps ih =>
    cases step with
    | record items =>
      apply ih
      rw [Session.recordConversationItems, reconstruct_append, h, foldl_replay_persisted]
    | write item passive =>
      apply ih
      rw [Session.persist, reconstruct_concat, h, replayItem_passive passive]

theorem history_recordAll : (recordAll context s steps).history =
    recordItems s.history (recorded steps) context.truncationPolicy := by
  induction steps generalizing s with
  | nil => simp [recordAll, recorded, recordItems]
  | cons step steps ih =>
    cases step with
    | record items =>
      rw [recordAll, ih, recorded, recordItems_append]
      rfl
    | write item passive =>
      rw [recordAll, ih, recorded]
      rfl

/-- Recording an item twice records it once just if its outputs are stable, and so is what
a resumed session holds what the session held. -/
theorem resume_recorded_iff (item : ResponseItem) (policy : TruncationPolicy)
    (context : TurnContext) (steps : List Recording) :
    (processItem (processItem item policy) policy = processItem item policy ↔
      ItemStable policy item) ∧
    (resume context (recordAll context ⟨[], []⟩ steps).rollout =
        (recordAll context ⟨[], []⟩ steps).history ↔
      ∀ item ∈ recorded steps, isRecorded item = true →
        ItemStable context.truncationPolicy item) := by
  refine ⟨processItem_idem_iff, ?_⟩
  rw [resume, reconstruct_recordAll (s := ⟨[], []⟩) rfl, history_recordAll]
  exact recordItems_again_iff

end Replay

/-- A context under which outputs keep twelve bytes. -/
def tenBytes : TurnContext := ⟨[], none, "/w", [], .bytes 10⟩

def longOutput : ResponseItem :=
  .customToolCallOutput "c1" "the quick brown fox jumps"

/-- Truncated again, the output tells of 20 characters in place of 13. -/
theorem resume_ne_longOutput :
    processItem longOutput tenBytes.truncationPolicy =
      .customToolCallOutput "c1" "the qu…13 chars truncated… jumps" ∧
    processItem (processItem longOutput tenBytes.truncationPolicy) tenBytes.truncationPolicy =
      .customToolCallOutput "c1" "the qu…20 chars truncated… jumps" ∧
    resume tenBytes (recordAll tenBytes ⟨[], []⟩ [.record [longOutput]]).rollout ≠
      (recordAll tenBytes ⟨[], []⟩ [.record [longOutput]]).history := by
  decide +kernel

end SheriMl.Rollout
