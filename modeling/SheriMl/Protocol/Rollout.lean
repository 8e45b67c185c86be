import SheriMl.Protocol.Models

/-!
# Rollouts

The entries of a rollout, from `protocol/src/protocol.rs`. Of the events those are
told apart that the history of a thread or its turns depend on; the ends of web
searches, patches, tool calls, views and agent calls are one kind. A session's
metadata and a turn's context are read by no replay, so that they carry no data.
-/

namespace SheriMl.Protocol

structure UserMessageEvent where
  message : Str
  images : Option (List Str)
  localImages : List Str

inductive EventMsg where
  | userMessage (payload : UserMessageEvent)
  | agentMessage (message : Str)
  | agentReasoning (text : Str)
  | agentReasoningRawContent (text : Str)
  /-- `ItemCompleted` of a plan; no other completed item is persisted. -/
  | planCompleted (id text : Str)
  | execCommandEnd (callId turnId : Str)
  | toolEnd (callId : Str)
  | contextCompacted
  | enteredReviewMode (review : Option Str)
  | exitedReviewMode (explanation : Option Str)
  | error (message : Str) (affectsTurnStatus : Bool)
  | turnStarted (turnId : Str)
  | turnComplete (turnId : Str)
  | turnAborted (turnId : Option Str)
  | threadRolledBack (numTurns : Nat)
  | other

structure CompactedItem where
  message : Str
  replacementHistory : Option (List ResponseItem)

inductive RolloutItem where
  | sessionMeta
  | responseItem (item : ResponseItem)
  | compacted (item : CompactedItem)
  | turnContext
  | eventMsg (event : EventMsg)

end SheriMl.Protocol
