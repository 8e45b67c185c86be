import SheriMl.ContextManager.History
import SheriMl.ContextManager.Normalize

/-!
# The history as a prompt

`for_prompt` of `core/src/context_manager/history.rs`: calls without an output get one, outputs
without a call are dropped, images are replaced where the model takes none, and ghost snapshots are
left out. A ghost snapshot has no part in the prompt wherever it is (`forPrompt_filter`).
-/

namespace SheriMl.ContextManager

open List

open Protocol

def imageContentOmittedPlaceholder : Str :=
  "image content omitted because you do not support image input"

/-- The output that stands in for a missing one. -/
def missingOutput (items : List ResponseItem) : ResponseItem → Option ResponseItem
  | .functionCall _ _ _ callId | .localShellCall _ (some callId) _ =>
    if items.any (isFunctionCallOutput callId) then none
    else some (.functionCallOutput callId ⟨.text "aborted", none⟩)
  | .customToolCall _ _ callId _ _ =>
    if items.any (isCustomToolCallOutput callId) then none
    else some (.customToolCallOutput callId "aborted")
  | _ => none

/-- Each missing output is inserted right after its call. -/
def ensureCallOutputsPresent (items : List ResponseItem) : List ResponseItem :=
  items.flatMap fun item => item :: (missingOutput items item).toList

/-- An output has its call among the items. -/
def hasCall (items : List ResponseItem) : ResponseItem → Bool
  | .functionCallOutput callId _ =>
    items.any (isFunctionCall callId) || items.any (isLocalShellCall callId)
  | .customToolCallOutput callId _ => items.any (isCustomToolCall callId)
  | _ => true

def removeOrphanOutputs (items : List ResponseItem) : List ResponseItem :=
  items.filter (hasCall items)

def stripContentItem : ContentItem → ContentItem
  | .inputImage _ => .inputText imageContentOmittedPlaceholder
  | item => item

def stripOutputItem : FunctionCallOutputContentItem → FunctionCallOutputContentItem
  | .inputImage _ => .inputText imageContentOmittedPlaceholder
  | item => item

def stripImages : ResponseItem → ResponseItem
  | .message id role content endTurn phase =>
    .message id role (content.map stripContentItem) endTurn phase
  | .functionCallOutput callId ⟨.contentItems items, success⟩ =>
    .functionCallOutput callId ⟨.contentItems (items.map stripOutputItem), success⟩
  | item => item

def stripImagesWhenUnsupported (supportsImages : Bool) (items : List ResponseItem) :
    List ResponseItem :=
  if supportsImages then items else items.map stripImages

def normalizeHistory (supportsImages : Bool) (items : List ResponseItem) : List ResponseItem :=
  stripImagesWhenUnsupported supportsImages (removeOrphanOutputs (ensureCallOutputsPresent items))

/-- `ContextManager::for_prompt`. -/
def forPrompt (supportsImages : Bool) (items : List ResponseItem) : List ResponseItem :=
  (normalizeHistory supportsImages items).filter (!isGhostSnapshot ·)

/-! ## Images that are refused -/

/-- An output of a call, or a message of the user. -/
def isLastTurnItem : ResponseItem → Bool
  | .functionCallOutput .. => true
  | .message _ role _ _ _ => role = "user"
  | _ => false

def isOutputImage : FunctionCallOutputContentItem → Bool
  | .inputImage _ => true
  | .inputText _ => false

def replaceOutputImage (placeholder : Str) : FunctionCallOutputContentItem →
    FunctionCallOutputContentItem
  | .inputImage _ => .inputText placeholder
  | .inputText text => .inputText text

/-- `ContextManager::replace_last_turn_images`, with whether there was an image. -/
def replaceLastTurnImages (placeholder : Str) (items : List ResponseItem) :
    List ResponseItem × Bool :=
  let after := items.rtakeWhile (!isLastTurnItem ·)
  let upTo := items.rdropWhile (!isLastTurnItem ·)
  match upTo.getLast? with
  | some (.functionCallOutput callId ⟨.contentItems contents, success⟩) =>
    if contents.any isOutputImage then
      (upTo.dropLast ++ [.functionCallOutput callId
        ⟨.contentItems (contents.map (replaceOutputImage placeholder)), success⟩] ++ after, true)
    else (items, false)
  | _ => (items, false)

/-! ## Ghost snapshots -/

def withoutGhosts (items : List ResponseItem) : List ResponseItem :=
  items.filter (!isGhostSnapshot ·)

section Ghosts

variable {items : List ResponseItem} {item : ResponseItem} {predicate : ResponseItem → Bool}

theorem any_withoutGhosts (h : ∀ item, predicate item = true → isGhostSnapshot item = false)
    (items : List ResponseItem) : (withoutGhosts items).any predicate = items.any predicate := by
  rw [Bool.eq_iff_iff, withoutGhosts, any_filter, any_eq_true, any_eq_true]
  constructor
  · rintro ⟨item, hmem, hitem⟩
    exact ⟨item, hmem, (Bool.and_eq_true_iff.1 hitem).2⟩
  · rintro ⟨item, hmem, hitem⟩
    exact ⟨item, hmem, by simp [h item hitem, hitem]⟩

theorem isGhostSnapshot_of_role {r : (CallKind × Str) × Bool} (h : role item = some r) :
    isGhostSnapshot item = false := by
  cases item with
  | ghostSnapshot => cases h
  | _ => rfl

theorem missingOutput_withoutGhosts (items : List ResponseItem) (item : ResponseItem) :
    missingOutput (withoutGhosts items) item = missingOutput items item := by
  have hfunction (callId : Str) : (withoutGhosts items).any (isFunctionCallOutput callId) =
      items.any (isFunctionCallOutput callId) :=
    any_withoutGhosts (fun _ h => isGhostSnapshot_of_role (role_eq_functionCallOutput.2 h)) items
  have hcustom (callId : Str) : (withoutGhosts items).any (isCustomToolCallOutput callId) =
      items.any (isCustomToolCallOutput callId) :=
    any_withoutGhosts (fun _ h => isGhostSnapshot_of_role (role_eq_customToolCallOutput.2 h)) items
  cases item with
  | functionCall => rw [missingOutput, missingOutput, hfunction]
  | customToolCall => rw [missingOutput, missingOutput, hcustom]
  | localShellCall id callId command =>
    cases callId with
    | none => rfl
    | some callId => rw [missingOutput, missingOutput, hfunction]
  | _ => rfl

theorem hasCall_withoutGhosts (items : List ResponseItem) (item : ResponseItem) :
    hasCall (withoutGhosts items) item = hasCall items item := by
  have hghost {r : (CallKind × Str) × Bool} {item : ResponseItem} (h : role item = some r) :=
    isGhostSnapshot_of_role h
  cases item with
  | functionCallOutput callId output =>
    rw [hasCall, hasCall,
      any_withoutGhosts (fun _ h => hghost (role_eq_functionCall.2 (.inl h))),
      any_withoutGhosts (fun _ h => hghost (role_eq_functionCall.2 (.inr h)))]
  | customToolCallOutput callId output =>
    rw [hasCall, hasCall, any_withoutGhosts (fun _ h => hghost (role_eq_customToolCall.2 h))]
  | _ => rfl

/-- Nothing is inserted after a ghost snapshot, and what is inserted is none. -/
theorem ensureCallOutputsPresent_withoutGhosts (items : List ResponseItem) :
    ensureCallOutputsPresent (withoutGhosts items) =
      withoutGhosts (ensureCallOutputsPresent items) := by
  have hmissing (item : ResponseItem) : (missingOutput items item).toList.filter
      (!isGhostSnapshot ·) = (missingOutput items item).toList := by
    refine filter_eq_self.2 fun output houtput => ?_
    unfold missingOutput at houtput
    split at houtput
    · split at houtput
      · cases houtput
      · rw [mem_singleton.1 houtput]
        rfl
    · split at houtput
      · cases houtput
      · rw [mem_singleton.1 houtput]
        rfl
    · split at houtput
      · cases houtput
      · rw [mem_singleton.1 houtput]
        rfl
    · cases houtput
  have hstep (l : List ResponseItem) : (withoutGhosts l).flatMap
        (fun item => item :: (missingOutput items item).toList) =
      withoutGhosts (l.flatMap fun item => item :: (missingOutput items item).toList) := by
    induction l with
    | nil => rfl
    | cons item l ih =>
      rw [flatMap_cons, withoutGhosts, withoutGhosts, filter_append, filter_cons,
        filter_cons]
      change _ = _ ++ withoutGhosts _
      rw [← ih]
      cases hghost : isGhostSnapshot item with
      | true =>
        cases item with
        | ghostSnapshot => rfl
        | _ => cases hghost
      | false =>
        simp only [Bool.not_false, if_true, flatMap_cons, hmissing]
        rfl
  have hitems : (fun item => item :: (missingOutput (withoutGhosts items) item).toList) =
      fun item => item :: (missingOutput items item).toList :=
    funext fun item => by rw [missingOutput_withoutGhosts]
  rw [ensureCallOutputsPresent, hitems]
  exact hstep items

theorem removeOrphanOutputs_withoutGhosts (items : List ResponseItem) :
    removeOrphanOutputs (withoutGhosts items) = withoutGhosts (removeOrphanOutputs items) := by
  have hcall : hasCall (withoutGhosts items) = hasCall items :=
    funext (hasCall_withoutGhosts items)
  rw [removeOrphanOutputs, hcall]
  exact filter_comm ..

theorem isGhostSnapshot_stripImages (item : ResponseItem) :
    isGhostSnapshot (stripImages item) = isGhostSnapshot item := by
  unfold stripImages
  split <;> rfl

theorem stripImages_withoutGhosts (supportsImages : Bool) (items : List ResponseItem) :
    stripImagesWhenUnsupported supportsImages (withoutGhosts items) =
      withoutGhosts (stripImagesWhenUnsupported supportsImages items) := by
  unfold stripImagesWhenUnsupported
  split
  · rfl
  · rw [withoutGhosts, withoutGhosts, filter_map]
    congr 1
    refine filter_congr fun item _ => ?_
    rw [Function.comp_apply, isGhostSnapshot_stripImages]

theorem forPrompt_withoutGhosts (supportsImages : Bool) (items : List ResponseItem) :
    forPrompt supportsImages (withoutGhosts items) = forPrompt supportsImages items := by
  rw [forPrompt, forPrompt, normalizeHistory, normalizeHistory,
    ensureCallOutputsPresent_withoutGhosts, removeOrphanOutputs_withoutGhosts,
    stripImages_withoutGhosts, withoutGhosts, filter_filter]
  simp only [Bool.and_self]

theorem forPrompt_append_ghost (supportsImages : Bool) (items : List ResponseItem)
    (h : isGhostSnapshot item = true) :
    forPrompt supportsImages (items ++ [item]) = forPrompt supportsImages items := by
  rw [← forPrompt_withoutGhosts, ← forPrompt_withoutGhosts supportsImages items, withoutGhosts,
    filter_append, filter_singleton, h]
  simp [withoutGhosts]

end Ghosts

end SheriMl.ContextManager
