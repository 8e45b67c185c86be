import SheriMl.Lib.Str

/-!
# Response items

The items of a conversation, from `protocol/src/models.rs`. Of a shell call, a web
search and a ghost commit only what identifies them is kept.
-/

namespace SheriMl.Protocol

inductive ContentItem where
  | inputText (text : Str)
  | inputImage (imageUrl : Str)
  | outputText (text : Str)
  deriving DecidableEq

/-- Interim commentary or final answer. -/
inductive MessagePhase where
  | commentary
  | finalAnswer
  deriving DecidableEq

/-- The subset of `ContentItem` that a function call may output. -/
inductive FunctionCallOutputContentItem where
  | inputText (text : Str)
  | inputImage (imageUrl : Str)
  deriving DecidableEq

inductive FunctionCallOutputBody where
  | text (content : Str)
  | contentItems (items : List FunctionCallOutputContentItem)
  deriving DecidableEq

structure FunctionCallOutputPayload where
  body : FunctionCallOutputBody
  success : Option Bool
  deriving DecidableEq

structure GhostCommit where
  id : Str
  parent : Option Str
  deriving DecidableEq

inductive ReasoningItemContent where
  | reasoningText (text : Str)
  | text (text : Str)
  deriving DecidableEq

inductive ResponseItem where
  | message (id : Option Str) (role : Str) (content : List ContentItem) (endTurn : Option Bool)
      (phase : Option MessagePhase)
  | reasoning (id : Str) (summary : List Str) (content : Option (List ReasoningItemContent))
      (encryptedContent : Option Str)
  | localShellCall (id callId : Option Str) (command : List Str)
  | functionCall (id : Option Str) (name arguments callId : Str)
  | functionCallOutput (callId : Str) (output : FunctionCallOutputPayload)
  | customToolCall (id status : Option Str) (callId name input : Str)
  | customToolCallOutput (callId output : Str)
  | webSearchCall (id status : Option Str)
  | ghostSnapshot (ghostCommit : GhostCommit)
  | compaction (encryptedContent : Str)
  | other
  deriving DecidableEq

end SheriMl.Protocol
