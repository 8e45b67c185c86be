import SheriMl.ContextManager.Truncate

/-!
# Recording into a history

`record_items` and `process_item` of `core/src/context_manager/history.rs`: what is
recorded passes a filter and has its outputs truncated. `processItem_idem_iff`:
which items processing twice leaves as processing once does.
-/

namespace SheriMl.ContextManager

open Protocol

/-- The text in place of the texts left out. -/
def omittedText (omittedTextItems : Nat) : Str :=
  ("[omitted " : Str) ++ Nat.toDigits 10 omittedTextItems ++ (" text items ...]" : Str)

/-- What a text takes of the budget, in the units of the policy. -/
def textCost (policy : TruncationPolicy) (text : Str) : Nat :=
  match policy with
  | .bytes _ => Str.utf8Size text
  | .tokens _ => approxTokenCount text

def snippetPolicy (policy : TruncationPolicy) (remainingBudget : Nat) : TruncationPolicy :=
  match policy with
  | .bytes _ => .bytes remainingBudget
  | .tokens _ => .tokens remainingBudget

/-- The loop over the items: what is kept and how many texts were left out. -/
def truncateItemsLoop (policy : TruncationPolicy) :
    Nat → List FunctionCallOutputContentItem → List FunctionCallOutputContentItem × Nat
  | _, [] => ([], 0)
  | remainingBudget, .inputText text :: items =>
    if remainingBudget = 0 then
      let (out, omitted) := truncateItemsLoop policy remainingBudget items
      (out, omitted + 1)
    else
      let cost := textCost policy text
      if cost ≤ remainingBudget then
        let (out, omitted) := truncateItemsLoop policy (remainingBudget - cost) items
        (.inputText text :: out, omitted)
      else
        let snippet := truncateText text (snippetPolicy policy remainingBudget)
        let (out, omitted) := truncateItemsLoop policy 0 items
        if snippet.isEmpty then (out, omitted + 1) else (.inputText snippet :: out, omitted)
  | remainingBudget, .inputImage imageUrl :: items =>
    let (out, omitted) := truncateItemsLoop policy remainingBudget items
    (.inputImage imageUrl :: out, omitted)

/-- The items kept, and a text that counts those left out if there are any. -/
def withOmitted (out : List FunctionCallOutputContentItem) (omitted : Nat) :
    List FunctionCallOutputContentItem :=
  if 0 < omitted then out ++ [.inputText (omittedText omitted)] else out

/-- The loop and what follows it, from a budget on. -/
def truncateItems (policy : TruncationPolicy) (remainingBudget : Nat)
    (items : List FunctionCallOutputContentItem) : List FunctionCallOutputContentItem :=
  let (out, omitted) := truncateItemsLoop policy remainingBudget items
  withOmitted out omitted

def TruncationPolicy.budget : TruncationPolicy → Nat
  | bytes limit => (bytes limit).byteBudget
  | tokens limit => (tokens limit).tokenBudget

def truncateFunctionOutputItemsWithPolicy (items : List FunctionCallOutputContentItem)
    (policy : TruncationPolicy) : List FunctionCallOutputContentItem :=
  truncateItems policy policy.budget items

/-- API messages are the items that are no system messages, ghosts or others. -/
def isApiMessage : ResponseItem → Bool
  | .message _ role _ _ _ => role != "system"
  | .ghostSnapshot _ => false
  | .other => false
  | _ => true

def isGhostSnapshot : ResponseItem → Bool
  | .ghostSnapshot _ => true
  | _ => false

def processBody (body : FunctionCallOutputBody) (policy : TruncationPolicy) :
    FunctionCallOutputBody :=
  match body with
  | .text content => .text (truncateText content policy)
  | .contentItems items => .contentItems (truncateFunctionOutputItemsWithPolicy items policy)

def processItem (item : ResponseItem) (policy : TruncationPolicy) : ResponseItem :=
  let policyWithSerializationBudget := policy.withSerializationBudget
  match item with
  | .functionCallOutput callId output =>
    .functionCallOutput callId
      ⟨processBody output.body policyWithSerializationBudget, output.success⟩
  | .customToolCallOutput callId output =>
    .customToolCallOutput callId (truncateText output policyWithSerializationBudget)
  | item => item

/-- Whether `record_items` keeps an item. -/
def isRecorded (item : ResponseItem) : Bool := isApiMessage item || isGhostSnapshot item

/-- `ContextManager::record_items`. -/
def recordItems (history items : List ResponseItem) (policy : TruncationPolicy) :
    List ResponseItem :=
  history ++ (items.filter isRecorded).map (processItem · policy)

/-! ## Processing twice -/

def textCount : List FunctionCallOutputContentItem → Nat
  | [] => 0
  | .inputText _ :: items => textCount items + 1
  | .inputImage _ :: items => textCount items

def images : List FunctionCallOutputContentItem → List FunctionCallOutputContentItem
  | [] => []
  | .inputText _ :: items => images items
  | .inputImage imageUrl :: items => .inputImage imageUrl :: images items

/-- The texts fit; or all before one fit, that one is stable under what remains of the budget and
at most one more text follows; or the budget is used up and at most one text is left out. -/
def ItemsStable (policy : TruncationPolicy) : Nat → List FunctionCallOutputContentItem → Prop
  | _, [] => True
  | remainingBudget, .inputText text :: items =>
    if remainingBudget = 0 then textCount items = 0
    else if textCost policy text ≤ remainingBudget then
      ItemsStable policy (remainingBudget - textCost policy text) items
    else Stable (snippetPolicy policy remainingBudget) text ∧ textCount items ≤ 1
  | remainingBudget, .inputImage _ :: items => ItemsStable policy remainingBudget items

def BodyStable (policy : TruncationPolicy) : FunctionCallOutputBody → Prop
  | .text content => Stable policy content
  | .contentItems items => ItemsStable policy policy.budget items

/-- The outputs of the item are stable under the budget that processing gives them. -/
def ItemStable (policy : TruncationPolicy) : ResponseItem → Prop
  | .functionCallOutput _ output => BodyStable policy.withSerializationBudget output.body
  | .customToolCallOutput _ output => Stable policy.withSerializationBudget output
  | _ => True

section Items

variable {policy : TruncationPolicy} {text : Str} {remainingBudget k k' : Nat}
  {items : List FunctionCallOutputContentItem}

theorem textCost_le_iff : textCost policy text ≤ remainingBudget ↔
    Str.utf8Size text ≤ (snippetPolicy policy remainingBudget).byteBudget := by
  cases policy with
  | bytes limit => rfl
  | tokens limit =>
    simp only [textCost, approxTokenCount, snippetPolicy, TruncationPolicy.byteBudget,
      approxBytesForTokens]
    omega

theorem omittedText_inj (h : omittedText k = omittedText k') : k = k' := by
  have hdigits := List.append_cancel_left (List.append_cancel_right h)
  exact Decimal.toDigits_inj hdigits

/-- Without a budget only the images are kept. -/
theorem truncateItemsLoop_zero :
    truncateItemsLoop policy 0 items = (images items, textCount items) := by
  induction items with
  | nil => rfl
  | cons item items ih =>
    cases item with
    | inputText text => rw [truncateItemsLoop, if_pos rfl, ih, images, textCount]
    | inputImage imageUrl => rw [truncateItemsLoop, ih, images, textCount]

theorem textCount_images : textCount (images items) = 0 := by
  induction items with
  | nil => rfl
  | cons item items ih =>
    cases item with
    | inputText text => exact ih
    | inputImage imageUrl => exact ih

theorem images_images : images (images items) = images items := by
  induction items with
  | nil => rfl
  | cons item items ih =>
    cases item with
    | inputText text => exact ih
    | inputImage imageUrl => exact congrArg (.inputImage imageUrl :: ·) ih

theorem images_append_text : images (items ++ [.inputText text]) = images items := by
  induction items with
  | nil => rfl
  | cons item items ih =>
    cases item with
    | inputText text' => exact ih
    | inputImage imageUrl => exact congrArg (.inputImage imageUrl :: ·) ih

theorem textCount_append_text : textCount (items ++ [.inputText text]) = textCount items + 1 := by
  induction items with
  | nil => rfl
  | cons item items ih =>
    cases item with
    | inputText text' => exact congrArg (· + 1) ih
    | inputImage imageUrl => exact ih

theorem withOmitted_cons (item : FunctionCallOutputContentItem) (omitted : Nat) :
    withOmitted (item :: items) omitted = item :: withOmitted items omitted := by
  unfold withOmitted
  split
  · rfl
  · rfl

theorem truncateItems_zero :
    truncateItems policy 0 items = withOmitted (images items) (textCount items) := by
  rw [truncateItems, truncateItemsLoop_zero]

theorem truncateItems_image (imageUrl : Str) :
    truncateItems policy remainingBudget (.inputImage imageUrl :: items) =
      .inputImage imageUrl :: truncateItems policy remainingBudget items :=
  withOmitted_cons _ _

theorem truncateItems_fits (hbudget : remainingBudget ≠ 0)
    (hcost : textCost policy text ≤ remainingBudget) :
    truncateItems policy remainingBudget (.inputText text :: items) =
      .inputText text :: truncateItems policy (remainingBudget - textCost policy text) items := by
  rw [truncateItems, truncateItemsLoop, if_neg hbudget]
  dsimp only
  rw [if_pos hcost]
  exact withOmitted_cons _ _

/-- The first text that does not fit uses the budget up. -/
theorem truncateItems_cut (hbudget : remainingBudget ≠ 0)
    (hcost : ¬ textCost policy text ≤ remainingBudget) :
    truncateItems policy remainingBudget (.inputText text :: items) =
      .inputText (truncateText text (snippetPolicy policy remainingBudget)) ::
        withOmitted (images items) (textCount items) := by
  have hlong := Nat.lt_of_not_le (mt textCost_le_iff.2 hcost)
  have hsnippet := lt_utf8Size_truncateText hlong
  have hne : ¬ (truncateText text (snippetPolicy policy remainingBudget)).isEmpty = true := by
    intro hnil
    rw [List.isEmpty_iff.1 hnil] at hsnippet
    exact absurd hsnippet (Nat.not_lt_zero _)
  rw [truncateItems, truncateItemsLoop, if_neg hbudget]
  dsimp only
  rw [if_neg hcost, if_neg hne, truncateItemsLoop_zero]
  exact withOmitted_cons _ _

theorem withOmitted_inj (h : withOmitted items k = withOmitted items k') : k = k' := by
  unfold withOmitted at h
  split at h
  next hpos =>
    split at h
    next hpos' =>
      have hlast := List.append_cancel_left h
      exact omittedText_inj
        (FunctionCallOutputContentItem.inputText.inj (List.head_eq_of_cons_eq hlast))
    next hzero =>
      have hlength := congrArg List.length h
      simp at hlength
  next hzero =>
    split at h
    next hpos' =>
      have hlength := congrArg List.length h
      simp at hlength
    next hzero' => omega

/-- Made of again, the text that counts is the only one left out. -/
theorem withOmitted_again (omitted : Nat) :
    withOmitted (images (withOmitted (images items) omitted))
        (textCount (withOmitted (images items) omitted)) =
      withOmitted (images items) (min omitted 1) := by
  have himages : images (withOmitted (images items) omitted) = images items := by
    unfold withOmitted
    split
    · rw [images_append_text, images_images]
    · exact images_images
  have hcount : textCount (withOmitted (images items) omitted) = min omitted 1 := by
    unfold withOmitted
    split
    · rw [textCount_append_text, textCount_images]
      omega
    · rw [textCount_images]
      omega
  rw [himages, hcount]

theorem truncateItems_idem_iff :
    truncateItems policy remainingBudget (truncateItems policy remainingBudget items) =
      truncateItems policy remainingBudget items ↔ ItemsStable policy remainingBudget items := by
  induction items generalizing remainingBudget with
  | nil => exact iff_of_true rfl trivial
  | cons item items ih =>
    cases item with
    | inputImage imageUrl =>
      rw [truncateItems_image, truncateItems_image, List.cons.injEq, and_iff_right rfl, ih,
        ItemsStable]
    | inputText text =>
      rw [ItemsStable]
      split
      next hbudget =>
        subst hbudget
        rw [truncateItems_zero, truncateItems_zero, withOmitted_again, textCount]
        constructor
        · intro h
          have hsame := withOmitted_inj h
          omega
        · intro h
          rw [h]
          rfl
      next hbudget =>
        split
        next hcost =>
          rw [truncateItems_fits hbudget hcost, truncateItems_fits hbudget hcost,
            List.cons.injEq, and_iff_right rfl, ih]
        next hcost =>
          have hlong := Nat.lt_of_not_le (mt textCost_le_iff.2 hcost)
          have hagain : ¬ textCost policy
              (truncateText text (snippetPolicy policy remainingBudget)) ≤ remainingBudget := by
            rw [textCost_le_iff]
            exact Nat.not_le_of_lt (lt_utf8Size_truncateText hlong)
          rw [truncateItems_cut hbudget hcost, truncateItems_cut hbudget hagain,
            withOmitted_again, List.cons.injEq,
            FunctionCallOutputContentItem.inputText.injEq, truncateText_idem_iff]
          refine and_congr_right fun _ => ?_
          constructor
          · intro h
            have hsame := withOmitted_inj h
            omega
          · intro h
            rw [Nat.min_eq_left h]

/-- What the texts cost together. -/
def totalCost (policy : TruncationPolicy) : List FunctionCallOutputContentItem → Nat
  | [] => 0
  | .inputText text :: items => textCost policy text + totalCost policy items
  | .inputImage _ :: items => totalCost policy items

theorem images_append (items items' : List FunctionCallOutputContentItem) :
    images (items ++ items') = images items ++ images items' := by
  induction items with
  | nil => rfl
  | cons item items ih =>
    cases item with
    | inputText text => exact ih
    | inputImage imageUrl => exact congrArg (.inputImage imageUrl :: ·) ih

theorem images_withOmitted (omitted : Nat) : images (withOmitted items omitted) = images items := by
  unfold withOmitted
  split
  · exact images_append_text
  · rfl

/-- The text that does not fit, cut to what is left of the budget. -/
def cutText (policy : TruncationPolicy) (remainingBudget : Nat) :
    List FunctionCallOutputContentItem → Option Str
  | .inputText text :: _ =>
    if remainingBudget = 0 then none
    else some (truncateText text (snippetPolicy policy remainingBudget))
  | _ => none

/-- Items kept as long as the texts fit, the rest of them, of which the next text is cut and then
only the images are kept, and the number of texts reported as left out. -/
structure Abridged (policy : TruncationPolicy) (budget : Nat)
    (items out kept rest : List FunctionCallOutputContentItem) (omitted : Nat) : Prop where
  items_eq : items = kept ++ rest
  cost_le : totalCost policy kept ≤ budget
  /-- Unless the budget is used up, a text of the rest did not fit. -/
  next_long : ∀ text rest', rest = .inputText text :: rest' → totalCost policy kept < budget →
    budget < totalCost policy kept + textCost policy text
  count_eq : textCount kept + (cutText policy (budget - totalCost policy kept) rest).toList.length +
    omitted = textCount items
  out_eq : out = withOmitted (kept ++
    (cutText policy (budget - totalCost policy kept) rest).toList.map .inputText ++ images rest)
    omitted

theorem exists_abridged (policy : TruncationPolicy) (budget : Nat)
    (items : List FunctionCallOutputContentItem) : ∃ kept rest omitted,
      Abridged policy budget items (truncateItems policy budget items) kept rest omitted := by
  induction items generalizing budget with
  | nil =>
    refine ⟨[], [], 0, rfl, Nat.zero_le _, ?_, rfl, rfl⟩
    intro text rest' hrest
    cases hrest
  | cons item items ih =>
    cases item with
    | inputImage imageUrl =>
      obtain ⟨kept, rest, omitted, h⟩ := ih budget
      refine ⟨.inputImage imageUrl :: kept, rest, omitted, ?_, h.cost_le, h.next_long,
        h.count_eq, ?_⟩
      · rw [h.items_eq, List.cons_append]
      · rw [truncateItems_image, h.out_eq, List.cons_append, List.cons_append, withOmitted_cons]
        rfl
    | inputText text =>
      by_cases hbudget : budget = 0
      · subst hbudget
        refine ⟨[], .inputText text :: items, textCount items + 1, rfl, Nat.zero_le _,
          fun _ _ _ h => absurd h (Nat.not_lt_zero _), ?_, truncateItems_zero⟩
        rw [cutText, if_pos (Nat.zero_sub _), Option.toList_none, List.length_nil, textCount,
          textCount, Nat.zero_add]
      by_cases hfits : textCost policy text ≤ budget
      · obtain ⟨kept, rest, omitted, h⟩ := ih (budget - textCost policy text)
        have hcost := h.cost_le
        have hleft : budget - totalCost policy (.inputText text :: kept) =
            budget - textCost policy text - totalCost policy kept := by
          rw [totalCost]
          omega
        refine ⟨.inputText text :: kept, rest, omitted, ?_, ?_, ?_, ?_, ?_⟩
        · rw [h.items_eq, List.cons_append]
        · rw [totalCost]
          omega
        · intro text' rest' hrest hroom
          have hlong := h.next_long text' rest' hrest
          rw [totalCost] at hroom ⊢
          omega
        · have hcount := h.count_eq
          rw [hleft, textCount, textCount, ← hcount]
          omega
        · rw [truncateItems_fits hbudget hfits, h.out_eq, hleft, List.cons_append,
            List.cons_append, withOmitted_cons]
      · refine ⟨[], .inputText text :: items, textCount items, rfl, Nat.zero_le _, ?_, ?_, ?_⟩
        · intro text' rest' hrest _
          obtain ⟨htext, -⟩ := List.cons.inj hrest
          obtain rfl := FunctionCallOutputContentItem.inputText.inj htext
          rw [totalCost]
          omega
        · rw [totalCost, Nat.sub_zero, cutText, if_neg hbudget, Option.toList_some,
            List.length_singleton, textCount, textCount, Nat.zero_add, Nat.add_comm]
        · rw [totalCost, Nat.sub_zero, cutText, if_neg hbudget, truncateItems_cut hbudget hfits,
            List.nil_append, Option.toList_some, List.map_singleton, List.singleton_append,
            withOmitted_cons, images]

theorem images_cutText (cut : Option Str) : images (cut.toList.map .inputText) = [] := by
  cases cut with
  | none => rfl
  | some snippet => rfl

/-- Every image is kept, in its place, with the texts up to one that does not fit, which is cut;
the texts that are kept and those reported as left out are all the texts there are. -/
theorem truncateFunctionOutputItems_spec (items : List FunctionCallOutputContentItem)
    (policy : TruncationPolicy) :
    images (truncateFunctionOutputItemsWithPolicy items policy) = images items ∧
      ∃ kept rest omitted, Abridged policy policy.budget items
        (truncateFunctionOutputItemsWithPolicy items policy) kept rest omitted := by
  obtain ⟨kept, rest, omitted, h⟩ := exists_abridged policy policy.budget items
  refine ⟨?_, kept, rest, omitted, h⟩
  calc
    images (truncateFunctionOutputItemsWithPolicy items policy)
      = images (kept ++ (cutText policy (policy.budget - totalCost policy kept) rest).toList.map
          .inputText ++ images rest) := by
        rw [truncateFunctionOutputItemsWithPolicy, h.out_eq, images_withOmitted]
    _ = images kept ++ images rest := by
        rw [images_append, images_append, images_cutText, List.append_nil, images_images]
    _ = images items := by rw [h.items_eq, images_append]

end Items

section Process

variable {policy : TruncationPolicy} {item : ResponseItem} {items : List ResponseItem}

theorem processBody_idem_iff {body : FunctionCallOutputBody} :
    processBody (processBody body policy) policy = processBody body policy ↔
      BodyStable policy body := by
  cases body with
  | text content =>
    simp only [processBody, BodyStable, FunctionCallOutputBody.text.injEq]
    exact truncateText_idem_iff
  | contentItems items =>
    simp only [processBody, BodyStable, FunctionCallOutputBody.contentItems.injEq]
    exact truncateItems_idem_iff

/-- Processing twice is processing once just for the stable items. -/
theorem processItem_idem_iff :
    processItem (processItem item policy) policy = processItem item policy ↔
      ItemStable policy item := by
  cases item with
  | functionCallOutput callId output =>
    simp only [processItem, ItemStable, ResponseItem.functionCallOutput.injEq,
      FunctionCallOutputPayload.mk.injEq, true_and, and_true]
    exact processBody_idem_iff
  | customToolCallOutput callId output =>
    simp only [processItem, ItemStable, ResponseItem.customToolCallOutput.injEq, true_and]
    exact truncateText_idem_iff
  | _ => exact iff_of_true rfl trivial

theorem isRecorded_processItem : isRecorded (processItem item policy) = isRecorded item := by
  cases item with
  | functionCallOutput callId output => rfl
  | customToolCallOutput callId output => rfl
  | _ => rfl

theorem recordItems_again_iff :
    recordItems [] (recordItems [] items policy) policy = recordItems [] items policy ↔
      ∀ item ∈ items, isRecorded item = true → ItemStable policy item := by
  simp only [recordItems, List.nil_append]
  have hfilter : ((items.filter isRecorded).map (processItem · policy)).filter isRecorded =
      (items.filter isRecorded).map (processItem · policy) := by
    apply List.filter_eq_self.2
    intro processed hprocessed
    obtain ⟨item, hitem, rfl⟩ := List.mem_map.1 hprocessed
    rw [isRecorded_processItem]
    exact (List.mem_filter.1 hitem).2
  rw [hfilter, List.map_map, List.map_inj_left]
  constructor
  · intro h item hitem hrecorded
    exact processItem_idem_iff.1 (h item (List.mem_filter.2 ⟨hitem, hrecorded⟩))
  · intro h item hitem
    obtain ⟨hitem, hrecorded⟩ := List.mem_filter.1 hitem
    exact processItem_idem_iff.2 (h item hitem hrecorded)

end Process

end SheriMl.ContextManager
