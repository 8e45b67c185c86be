import SheriMl.ContextManager.EventMapping
import SheriMl.ContextManager.History
import SheriMl.Lib.Marks

/-!
# Compaction and turns of a history

`core/src/compact.rs`: what a compaction keeps of a history. `drop_last_n_user_turns`
of `core/src/context_manager/history.rs`: a history without its last user turns.
-/

namespace SheriMl.ContextManager

open Protocol

/-- `SUMMARY_PREFIX`. -/
def summaryPrefix : Str :=
  ("Another language model started to solve this problem and produced a summary of its " : Str) ++
    ("thinking process. You also have access to the state of the tools that were used by that " :
      Str) ++
    ("language model. Use this to build on the work that has already been done and avoid " : Str) ++
    ("duplicating work. Here is the summary produced by the other language model, use the " : Str) ++
    ("information in this summary to assist with your own analysis:" : Str)

def compactUserMessageMaxTokens : Nat := 20000

def isSummaryMessage (message : Str) : Bool := Str.startsWith message (summaryPrefix ++ ['\n'])

/-- The texts of the user's own messages, without earlier summaries. -/
def collectUserMessages (items : List ResponseItem) : List Str :=
  items.filterMap fun item =>
    match parseTurnItem item with
    | some (.userMessage content) =>
      if isSummaryMessage (messageText content) then none else some (messageText content)
    | _ => none

def userMessageItem (text : Str) : ResponseItem := .message none "user" [.inputText text] none none

/-- The newest messages, newest first, that fit in the tokens; the last of them may be cut. -/
def selectMessages : Nat → List Str → List Str
  | _, [] => []
  | remaining, message :: older =>
    if remaining = 0 then []
    else
      let tokens := approxTokenCount message
      if tokens ≤ remaining then message :: selectMessages (remaining - tokens) older
      else [truncateText message (.tokens remaining)]

/-- `build_compacted_history_with_limit`. -/
def buildCompactedHistoryWithLimit (history : List ResponseItem) (userMessages : List Str)
    (summaryText : Str) (maxTokens : Nat) : List ResponseItem :=
  let selectedMessages :=
    if 0 < maxTokens then (selectMessages maxTokens userMessages.reverse).reverse else []
  let summaryText := if summaryText = [] then ("(no summary available)" : Str) else summaryText
  history ++ selectedMessages.map userMessageItem ++ [userMessageItem summaryText]

def buildCompactedHistory (initialContext : List ResponseItem) (userMessages : List Str)
    (summaryText : Str) : List ResponseItem :=
  let selectedMessages := (selectMessages compactUserMessageMaxTokens userMessages.reverse).reverse
  let summaryText := if summaryText = [] then ("(no summary available)" : Str) else summaryText
  initialContext ++ selectedMessages.map userMessageItem ++ [userMessageItem summaryText]

/-- `get_last_assistant_message_from_turn`. -/
def lastAssistantMessage (responses : List ResponseItem) : Option Str :=
  responses.reverse.findSome? fun
    | .message _ role content _ _ =>
      if role = "assistant" then
        content.reverse.findSome? fun
          | .outputText text => some text
          | _ => none
      else none
    | _ => none

def isModelSwitchDeveloperMessage : ResponseItem → Bool
  | .message _ role content _ _ =>
    role = "developer" && content.any fun
      | .inputText text => Str.startsWith text "<model_switch>"
      | _ => false
  | _ => false

/-- The model-switch message after the last user turn boundary that comes last. -/
def trailingModelSwitch (history : List ResponseItem) : Option ResponseItem :=
  (history.reverse.takeWhile fun item => !isUserTurnBoundary item).find?
    isModelSwitchDeveloperMessage

def userMessagePositions (items : List ResponseItem) : List Nat :=
  items.findIdxs isUserTurnBoundary

/-- `ContextManager::drop_last_n_user_turns`. -/
def dropLastNUserTurns (items : List ResponseItem) (numTurns : Nat) : List ResponseItem :=
  if numTurns = 0 then items
  else
    let userPositions := userMessagePositions items
    match userPositions.head? with
    | none => items
    | some firstUserIdx =>
      let cutIdx :=
        if userPositions.length ≤ numTurns then firstUserIdx
        else userPositions.getD (userPositions.length - numTurns) 0
      items.take cutIdx

/-! ## Selected messages -/

section Select

variable {limit : Nat} {userMessages : List Str}

def totalTokens (messages : List Str) : Nat := (messages.map approxTokenCount).sum

/-- The newest messages as they are, and of the message before them what its tokens leave: the
rest is left out. -/
structure Selected (limit : Nat) (userMessages selected older newer : List Str)
    (cut : Option Str) : Prop where
  messages_eq : userMessages = older ++ newer
  selected_eq : selected = cut.toList ++ newer
  tokens_le : totalTokens newer ≤ limit
  cut_eq : ∀ text, cut = some text → ∃ older' message, older = older' ++ [message] ∧
    limit < totalTokens newer + approxTokenCount message ∧
    text = truncateText message (.tokens (limit - totalTokens newer))
  /-- Nothing is left out while tokens are left. -/
  complete : cut = none → older = [] ∨ totalTokens newer = limit

theorem exists_selected (limit : Nat) (userMessages : List Str) : ∃ older newer cut,
    Selected limit userMessages (selectMessages limit userMessages.reverse).reverse older newer
      cut := by
  induction userMessages using List.reverseRecOn generalizing limit with
  | nil =>
    refine ⟨[], [], none, rfl, rfl, Nat.zero_le _, ?_, fun _ => .inl rfl⟩
    intro text htext
    cases htext
  | append_singleton older message ih =>
    rw [List.reverse_append, List.reverse_singleton, List.singleton_append, selectMessages]
    by_cases hlimit : limit = 0
    · rw [if_pos hlimit]
      refine ⟨older ++ [message], [], none, (List.append_nil _).symm, rfl, Nat.zero_le _, ?_,
        fun _ => .inr hlimit.symm⟩
      intro text htext
      cases htext
    rw [if_neg hlimit]
    dsimp only
    by_cases hfits : approxTokenCount message ≤ limit
    · rw [if_pos hfits]
      obtain ⟨before, newer, cut, h⟩ := ih (limit - approxTokenCount message)
      have htokens := h.tokens_le
      have htotal : totalTokens (newer ++ [message]) =
          totalTokens newer + approxTokenCount message := by
        simp [totalTokens]
      refine ⟨before, newer ++ [message], cut, ?_, ?_, by omega, fun text htext => ?_,
        fun hnone => ?_⟩
      · rw [h.messages_eq, List.append_assoc]
      · rw [List.reverse_cons, h.selected_eq, List.append_assoc]
      · obtain ⟨older', message', hbefore, hlong, rfl⟩ := h.cut_eq text htext
        refine ⟨older', message', hbefore, by omega, ?_⟩
        rw [htotal, Nat.add_comm, Nat.sub_add_eq]
      · rcases h.complete hnone with hnil | hfull
        · exact .inl hnil
        · right
          omega
    · rw [if_neg hfits]
      refine ⟨older ++ [message], [], some (truncateText message (.tokens limit)),
        (List.append_nil _).symm, rfl, Nat.zero_le _, fun text htext => ?_, fun hnone => ?_⟩
      · cases htext
        exact ⟨older, message, rfl, by simp only [totalTokens, List.map_nil, List.sum_nil]; omega,
          rfl⟩
      · cases hnone

/-- After the initial context come the newest messages, the oldest of those kept perhaps cut, and
the summary. -/
theorem buildCompactedHistoryWithLimit_spec (history : List ResponseItem)
    (userMessages : List Str) (summaryText : Str) (maxTokens : Nat) :
    ∃ selected older newer cut, Selected maxTokens userMessages selected older newer cut ∧
      buildCompactedHistoryWithLimit history userMessages summaryText maxTokens =
        history ++ selected.map userMessageItem ++ [userMessageItem
          (if summaryText = [] then ("(no summary available)" : Str) else summaryText)] := by
  obtain ⟨older, newer, cut, h⟩ := exists_selected maxTokens userMessages
  refine ⟨_, older, newer, cut, h, ?_⟩
  unfold buildCompactedHistoryWithLimit
  dsimp only
  split
  next => rfl
  next hzero =>
    have hnone : selectMessages maxTokens userMessages.reverse = [] := by
      obtain rfl : maxTokens = 0 := by omega
      cases userMessages.reverse with
      | nil => rfl
      | cons message messages => rfl
    rw [hnone]
    rfl

end Select

/-! ## User turns -/

def userTurns (items : List ResponseItem) : Nat := items.countP isUserTurnBoundary

/-- What comes before a user turn, by its number from the start. -/
def beforeUserTurn (n : Nat) (items : List ResponseItem) : List ResponseItem :=
  Marks.before isUserTurnBoundary n items

section Turns

variable {items : List ResponseItem} {item : ResponseItem} {policy : TruncationPolicy} {n i : Nat}

theorem beforeUserTurn_eq_take (h : (userMessagePositions items)[n]? = some i) :
    beforeUserTurn n items = items.take i := by
  have htake := (Marks.before_eq_take h).1
  rwa [Nat.sub_zero] at htake

/-- Dropping turns cuts before the first of them, and drops all of too few. -/
theorem dropLastNUserTurns_eq (items : List ResponseItem) (numTurns : Nat) :
    dropLastNUserTurns items numTurns = beforeUserTurn (userTurns items - numTurns) items := by
  have hlength : (userMessagePositions items).length = userTurns items := List.length_findIdxs
  unfold dropLastNUserTurns
  split
  next hzero =>
    rw [hzero, Nat.sub_zero]
    exact (Marks.before_of_countP_le (Nat.le_refl _)).symm
  next hpos =>
    dsimp only
    cases hpositions : userMessagePositions items with
    | nil =>
      rw [hpositions, List.length_nil] at hlength
      rw [← hlength, Nat.zero_sub]
      exact (Marks.before_of_countP_le (Nat.le_of_eq hlength.symm)).symm
    | cons first rest =>
      simp only [List.head?_cons]
      rw [hpositions] at hlength
      symm
      apply beforeUserTurn_eq_take
      rw [hpositions]
      split
      next hall =>
        rw [show userTurns items - numTurns = 0 by omega]
        rfl
      next hsome =>
        rw [← hlength, List.getD_eq_getElem?_getD]
        rw [List.length_cons] at hsome ⊢
        have hlt : rest.length + 1 - numTurns < (first :: rest).length := by
          rw [List.length_cons]
          omega
        rw [List.getElem?_eq_getElem hlt]
        rfl

/-- Processing changes outputs only, and those are no messages. -/
theorem parseTurnItem_processItem :
    parseTurnItem (processItem item policy) = parseTurnItem item := by
  cases item with
  | functionCallOutput callId output => rfl
  | customToolCallOutput callId output => rfl
  | _ => rfl

theorem isUserTurnBoundary_processItem :
    isUserTurnBoundary (processItem item policy) = isUserTurnBoundary item := by
  cases item with
  | functionCallOutput callId output => rfl
  | customToolCallOutput callId output => rfl
  | _ => rfl

theorem isRecorded_of_boundary (h : isUserTurnBoundary item = true) : isRecorded item = true := by
  cases item with
  | message id role content endTurn phase =>
    simp only [isUserTurnBoundary] at h
    split at h
    · cases h
    next hrole =>
      obtain rfl := not_ne_iff.1 hrole
      rfl
  | _ => cases h

end Turns

end SheriMl.ContextManager
