import SheriMl.Lib.Transition
import SheriMl.Rollout.Replay

/-!
# Compacting a session

`run_compact_task_inner` of `core/src/compact.rs` and `thread_rollback` of
`core/src/codex.rs`: a compaction replaces the history a session holds, and writes the
summary alone to its rollout. Replay rebuilds the compacted history from what it has
replayed so far. `replays_of_run`: a run keeps the two alike, but for the items of the
initial context, if no compaction carries over what the rollout does not tell.
-/

namespace SheriMl.Rollout

open Protocol ContextManager

/-- What happens while the model writes a summary: an item of its stream goes to the history
alone (`drain_to_completed`), other tasks record and write as they always do. -/
inductive During where
  | drained (item : ResponseItem)
  | recorded (context : TurnContext) (items : List ResponseItem)
  | wrote (item : RolloutItem) (passive : Passive item)

inductive SessionStep where
  | record (context : TurnContext) (items : List ResponseItem)
  | write (item : RolloutItem) (passive : Passive item)
  | compact (context : TurnContext) (during : List During) (succeeds : Bool)
  | rollback (numTurns : Nat)

def summaryText (history : List ResponseItem) : Str :=
  summaryPrefix ++ ("\n" : Str) ++ (lastAssistantMessage history).getD []

namespace Session

def goOn (context : TurnContext) (s : Session) : During → Session
  | .drained item => { s with history := recordItems s.history [item] context.truncationPolicy }
  | .recorded context items => s.recordConversationItems context items
  | .wrote item _ => s.persist item

/-- What follows the loop of `run_compact_task_inner`. -/
def finishCompaction (s : Session) (context : TurnContext)
    (strippedModelSwitchItem : Option ResponseItem) : Session :=
  let summary := summaryText s.history
  let newHistory := buildCompactedHistory (buildInitialContext context)
    (collectUserMessages s.history) summary
  let ghostSnapshots := s.history.filter isGhostSnapshot
  ⟨newHistory ++ strippedModelSwitchItem.toList ++ ghostSnapshots,
    s.rollout ++ [.compacted ⟨summary, none⟩]⟩

/-- `run_compact_task_inner`. The model-switch item is taken out of the prompt only, which is
a copy of the history. -/
def compact (s : Session) (context : TurnContext) (during : List During) (succeeds : Bool) :
    Session :=
  let strippedModelSwitchItem := trailingModelSwitch s.history
  let s := during.foldl (goOn context) (s.persist .turnContext)
  if succeeds then s.finishCompaction context strippedModelSwitchItem else s

/-- `thread_rollback`. -/
def threadRollback (s : Session) (numTurns : Nat) : Session :=
  if numTurns = 0 then s
  else { s with history := dropLastNUserTurns s.history numTurns }.persist
    (.eventMsg (.threadRolledBack numTurns))

def exec (s : Session) : SessionStep → Session
  | .record context items => s.recordConversationItems context items
  | .write item _ => s.persist item
  | .compact context during succeeds => s.compact context during succeeds
  | .rollback numTurns => s.threadRollback numTurns

end Session

/-- The same history, or the same but for the initial context of the last compaction, which
replay makes anew. -/
def EqualUpToContext (replay : TurnContext) (live replayed : List ResponseItem) : Prop :=
  live = replayed ∨ ∃ context tail, live = buildInitialContext context ++ tail ∧
    replayed = buildInitialContext replay ++ tail

/-- A replay of the rollout gives the history held. -/
def Replays (replay : TurnContext) (s : Session) : Prop :=
  EqualUpToContext replay s.history (reconstructHistoryFromRollout replay s.rollout)

/-- Items whose outputs are cut alike when they are recorded and when they are replayed. -/
def CutAlike (replay context : TurnContext) (items : List ResponseItem) : Prop :=
  ∀ item ∈ items, isRecorded item = true →
    processItem item context.truncationPolicy = processItem item replay.truncationPolicy

def drainedItems (during : List During) : List ResponseItem :=
  during.filterMap fun
    | .drained item => some item
    | _ => none

/-- The items that enter the history during a compaction. -/
def enteredItems (during : List During) : List ResponseItem :=
  during.flatMap fun
    | .drained item => [item]
    | .recorded _ items => items
    | .wrote _ _ => []

/-- The rollout tells all that a step carries over: a compaction that succeeds has no
model-switch item and no ghost snapshot to take along and no user message was drained, and
one that fails has drained nothing. -/
def Told (replay : TurnContext) (s : Session) : SessionStep → Prop
  | .record context items => CutAlike replay context items
  | .write _ _ => True
  | .compact _ during succeeds =>
    (∀ context items, .recorded context items ∈ during → CutAlike replay context items) ∧
      if succeeds then
        trailingModelSwitch s.history = none ∧
          (∀ item ∈ s.history ++ enteredItems during, isGhostSnapshot item = false) ∧
          collectUserMessages (drainedItems during) = []
      else ∀ item ∈ drainedItems during, isRecorded item = false
  | .rollback _ => True

/-- A step of which the rollout tells all. -/
structure ToldStep (replay : TurnContext) (s : Session) (step : SessionStep) (t : Session) :
    Prop where
  told : Told replay s step
  next : s.exec step = t

/-! ## The initial context -/

section Context

variable {context replay : TurnContext} {text rest : Str} {items tail : List ResponseItem}
  {item : ResponseItem} {live replayed : List ResponseItem}

theorem not_isUserTurnBoundary_developerMessage (text : Str) :
    isUserTurnBoundary (developerMessage text) = false := by
  rw [developerMessage, isUserTurnBoundary, if_pos (by decide)]

theorem not_isUserTurnBoundary_userInstructionsMessage (directory contents : Str) :
    isUserTurnBoundary (userInstructionsMessage directory contents) = false := by
  have hinstructions : Str.startsWith (("# AGENTS.md instructions for " : Str) ++ directory ++
      ("\n\n<INSTRUCTIONS>\n" : Str) ++ contents ++ ("\n</INSTRUCTIONS>" : Str))
      "# AGENTS.md instructions for " = true := by
    rw [Str.startsWith_iff, List.append_assoc, List.append_assoc, List.append_assoc]
    exact ⟨_, rfl⟩
  rw [userInstructionsMessage, userMessageItem, isUserTurnBoundary, if_neg (by decide),
    isUserInstructions, hinstructions]
  rfl

theorem not_isUserTurnBoundary_environmentMessage (lines : List Str) :
    isUserTurnBoundary (environmentMessage lines) = false := by
  obtain ⟨rest, hjoin⟩ : ∃ rest, Str.join "\n" ([("<environment_context>" : Str)] ++ lines ++
      [("</environment_context>" : Str)]) = ("<environment_context>" : Str) ++ rest := by
    cases lines with
    | nil => exact ⟨_, rfl⟩
    | cons line lines => exact ⟨_, rfl⟩
  have htrim : Str.trimStart (("<environment_context>" : Str) ++ rest) =
      ("<environment_context>" : Str) ++ rest := List.dropWhile_cons_of_neg (by decide)
  have hlower : Str.toAsciiLowercase ("<environment_context>" : Str) = "<environment_context>" := by
    decide
  have hsession : isSessionPrefix (("<environment_context>" : Str) ++ rest) = true := by
    have htag : startsWithTag (("<environment_context>" : Str) ++ rest) "<environment_context>" =
        true := by
      rw [startsWithTag, htrim, Str.startsWith_iff, Str.toAsciiLowercase, List.map_append]
      exact ⟨_, congrArg (· ++ _) hlower⟩
    rw [isSessionPrefix, htag, Bool.true_or]
  rw [environmentMessage, hjoin, userMessageItem, isUserTurnBoundary, if_neg (by decide)]
  split
  · rfl
  · rw [List.all_cons, isUserContent, hsession]
    rfl

theorem userTurns_buildInitialContext (context : TurnContext) :
    userTurns (buildInitialContext context) = 0 := by
  rw [userTurns, List.countP_eq_zero]
  intro item hitem
  have hfalse : isUserTurnBoundary item = false := by
    rcases List.mem_append.1 hitem with hitem | hitem
    · rcases List.mem_append.1 hitem with hitem | hitem
      · obtain ⟨text, -, rfl⟩ := List.mem_map.1 hitem
        exact not_isUserTurnBoundary_developerMessage text
      · obtain ⟨instructions, -, rfl⟩ := Option.map_eq_some_iff.1 (Option.mem_toList.1 hitem)
        exact not_isUserTurnBoundary_userInstructionsMessage _ _
    · obtain rfl := List.mem_singleton.1 hitem
      exact not_isUserTurnBoundary_environmentMessage _
  rw [hfalse]
  exact Bool.false_ne_true

theorem collectUserMessages_append (a b : List ResponseItem) :
    collectUserMessages (a ++ b) = collectUserMessages a ++ collectUserMessages b :=
  List.filterMap_append

theorem collectUserMessages_of_userTurns (h : userTurns items = 0) :
    collectUserMessages items = [] := by
  rw [collectUserMessages, List.filterMap_eq_nil_iff]
  intro item hitem
  have hboundary := List.countP_eq_zero.1 h item hitem
  split
  next content hparse => exact absurd (isUserTurnBoundary_iff.2 ⟨content, hparse⟩) hboundary
  · rfl

theorem buildCompactedHistory_eq (initialContext : List ResponseItem) (userMessages : List Str)
    (summary : Str) : buildCompactedHistory initialContext userMessages summary =
      initialContext ++ buildCompactedHistory [] userMessages summary := by
  simp only [buildCompactedHistory, List.nil_append, List.append_assoc]

theorem EqualUpToContext.append (h : EqualUpToContext replay live replayed)
    (items : List ResponseItem) :
    EqualUpToContext replay (live ++ items) (replayed ++ items) := by
  rcases h with rfl | ⟨context, tail, rfl, rfl⟩
  · exact .inl rfl
  · refine .inr ⟨context, tail ++ items, ?_, ?_⟩
    · rw [List.append_assoc]
    · rw [List.append_assoc]

theorem EqualUpToContext.collectUserMessages (h : EqualUpToContext replay live replayed) :
    collectUserMessages live = collectUserMessages replayed := by
  rcases h with rfl | ⟨context, tail, rfl, rfl⟩
  · rfl
  · rw [collectUserMessages_append, collectUserMessages_append,
      collectUserMessages_of_userTurns (userTurns_buildInitialContext context),
      collectUserMessages_of_userTurns (userTurns_buildInitialContext replay)]

theorem dropLastNUserTurns_buildInitialContext (numTurns : Nat) :
    dropLastNUserTurns (buildInitialContext context ++ tail) numTurns =
      buildInitialContext context ++ beforeUserTurn (userTurns tail - numTurns) tail := by
  have hnone := userTurns_buildInitialContext context
  rw [userTurns] at hnone
  rw [dropLastNUserTurns_eq, userTurns, List.countP_append, hnone, Nat.zero_add, beforeUserTurn,
    Marks.before_append_of_le (by rw [hnone]; exact Nat.zero_le _), hnone, Nat.sub_zero]
  rfl

theorem EqualUpToContext.dropLastNUserTurns (h : EqualUpToContext replay live replayed)
    (numTurns : Nat) :
    EqualUpToContext replay (dropLastNUserTurns live numTurns)
      (dropLastNUserTurns replayed numTurns) := by
  rcases h with rfl | ⟨context, tail, rfl, rfl⟩
  · exact .inl rfl
  · rw [dropLastNUserTurns_buildInitialContext, dropLastNUserTurns_buildInitialContext]
    exact .inr ⟨context, _, rfl, rfl⟩

end Context

/-! ## Steps and runs -/

section Steps

variable {context replay : TurnContext} {s t : Session} {items : List ResponseItem}
  {during : List During} {now : SessionStep}

theorem reconstruct_record (h : CutAlike replay context items) :
    (s.recordConversationItems context items).history =
        s.history ++ (items.filter isRecorded).map (processItem · replay.truncationPolicy) ∧
      reconstructHistoryFromRollout replay (s.recordConversationItems context items).rollout =
        reconstructHistoryFromRollout replay s.rollout ++
          (items.filter isRecorded).map (processItem · replay.truncationPolicy) := by
  constructor
  · have halike : (items.filter isRecorded).map (processItem · context.truncationPolicy) =
        (items.filter isRecorded).map (processItem · replay.truncationPolicy) := by
      apply List.map_congr_left
      intro item hitem
      obtain ⟨hmem, hrecorded⟩ := List.mem_filter.1 hitem
      exact h item hmem hrecorded
    rw [Session.recordConversationItems, recordItems, halike]
  · rw [Session.recordConversationItems, reconstruct_append, foldl_replay_persisted, recordItems]

theorem reconstruct_persist {item : RolloutItem} (h : Passive item) :
    reconstructHistoryFromRollout replay (s.persist item).rollout =
      reconstructHistoryFromRollout replay s.rollout := by
  rw [Session.persist, reconstruct_concat, replayItem_passive h]

theorem Replays.record (h : Replays replay s) (hcut : CutAlike replay context items) :
    Replays replay (s.recordConversationItems context items) := by
  obtain ⟨hhistory, hreplayed⟩ := reconstruct_record (s := s) hcut
  rw [Replays, hhistory, hreplayed]
  exact EqualUpToContext.append h _

theorem Replays.persist {item : RolloutItem} (h : Replays replay s) (hpassive : Passive item) :
    Replays replay (s.persist item) := by
  rw [Replays, reconstruct_persist hpassive]
  exact h

theorem Replays.threadRollback (h : Replays replay s) (numTurns : Nat) :
    Replays replay (s.threadRollback numTurns) := by
  rw [Session.threadRollback]
  split
  · exact h
  · have hreplayed : reconstructHistoryFromRollout replay
        (s.rollout ++ [.eventMsg (.threadRolledBack numTurns)]) =
        dropLastNUserTurns (reconstructHistoryFromRollout replay s.rollout) numTurns :=
      reconstruct_concat
    rw [Replays, Session.persist, hreplayed]
    exact EqualUpToContext.dropLastNUserTurns h numTurns

/-- Nothing drained: the loop of a compaction leaves what a replay gives. -/
theorem Replays.goOn (h : Replays replay s)
    (hcut : ∀ context items, .recorded context items ∈ during → CutAlike replay context items)
    (hdrained : ∀ item ∈ drainedItems during, isRecorded item = false) :
    Replays replay (during.foldl (Session.goOn context) s) := by
  induction during generalizing s with
  | nil => exact h
  | cons now during ih =>
    rw [List.foldl_cons]
    apply ih
    · cases now with
      | drained item =>
        have hnone : isRecorded item = false := hdrained item List.mem_cons_self
        rw [Session.goOn, recordItems, List.filter_cons_of_neg (by rw [hnone]; decide)]
        simpa [Replays] using h
      | recorded context items => exact h.record (hcut context items List.mem_cons_self)
      | wrote item passive => exact h.persist passive
    · intro context items hmem
      exact hcut context items (List.mem_cons_of_mem _ hmem)
    · intro item hmem
      apply hdrained
      obtain ⟨now', hmem', hnow⟩ := List.mem_filterMap.1 hmem
      exact List.mem_filterMap.2 ⟨now', List.mem_cons_of_mem _ hmem', hnow⟩

theorem collectUserMessages_recordItems (history items : List ResponseItem)
    (policy : TruncationPolicy) : collectUserMessages (recordItems history items policy) =
      collectUserMessages history ++ collectUserMessages items := by
  rw [recordItems, collectUserMessages_append, List.append_cancel_left_eq]
  induction items with
  | nil => rfl
  | cons item items ih =>
    have hprocessed :
        collectUserMessages [processItem item policy] = collectUserMessages [item] := by
      rw [collectUserMessages, collectUserMessages, List.filterMap_cons, List.filterMap_cons,
        parseTurnItem_processItem]
    have hcons : collectUserMessages (item :: items) =
      collectUserMessages [item] ++ collectUserMessages items := collectUserMessages_append [item] _
    by_cases hrecorded : isRecorded item = true
    · rw [List.filter_cons_of_pos hrecorded, List.map_cons, hcons, ← hprocessed, ← ih]
      exact collectUserMessages_append [processItem item policy] _
    · have hnone : userTurns [item] = 0 := by
        rw [userTurns, List.countP_singleton, if_neg]
        exact mt isRecorded_of_boundary hrecorded
      rw [List.filter_cons_of_neg hrecorded, ih, hcons, collectUserMessages_of_userTurns hnone,
        List.nil_append]

/-- What a compaction that runs has kept so far: the user messages of its replay, and no
ghost snapshot. -/
structure Compacting (replay : TurnContext) (s : Session) : Prop where
  messages : collectUserMessages s.history =
    collectUserMessages (reconstructHistoryFromRollout replay s.rollout)
  ghosts : ∀ item ∈ s.history, isGhostSnapshot item = false

theorem isGhostSnapshot_processItem (item : ResponseItem) (policy : TruncationPolicy) :
    isGhostSnapshot (processItem item policy) = isGhostSnapshot item := by
  cases item with
  | functionCallOutput callId output => rfl
  | customToolCallOutput callId output => rfl
  | _ => rfl

theorem ghosts_recordItems {history : List ResponseItem} (policy : TruncationPolicy)
    (hhistory : ∀ item ∈ history, isGhostSnapshot item = false)
    (hitems : ∀ item ∈ items, isGhostSnapshot item = false) :
    ∀ item ∈ recordItems history items policy, isGhostSnapshot item = false := by
  intro item hitem
  rcases List.mem_append.1 hitem with hitem | hitem
  · exact hhistory item hitem
  · obtain ⟨recorded, hrecorded, rfl⟩ := List.mem_map.1 hitem
    rw [isGhostSnapshot_processItem]
    exact hitems recorded (List.mem_filter.1 hrecorded).1

theorem Compacting.goOn (h : Compacting replay s)
    (hcut : ∀ context items, .recorded context items ∈ during → CutAlike replay context items)
    (hghosts : ∀ item ∈ enteredItems during, isGhostSnapshot item = false)
    (hdrained : collectUserMessages (drainedItems during) = []) :
    Compacting replay (during.foldl (Session.goOn context) s) := by
  induction during generalizing s with
  | nil => exact h
  | cons now during ih =>
    have hfirst : ∀ item ∈ enteredItems [now], isGhostSnapshot item = false := by
      intro item hitem
      apply hghosts
      rw [enteredItems, List.flatMap_singleton] at hitem
      exact List.mem_append_left _ hitem
    rw [List.foldl_cons]
    apply ih
    · cases now with
      | drained item =>
        have hmessages : collectUserMessages [item] = [] := by
          have happend : collectUserMessages (drainedItems (.drained item :: during)) =
            collectUserMessages [item] ++ collectUserMessages (drainedItems during) :=
            collectUserMessages_append [item] _
          rw [happend] at hdrained
          exact List.append_eq_nil_iff.1 hdrained |>.1
        refine ⟨?_, ghosts_recordItems _ h.ghosts hfirst⟩
        rw [Session.goOn, collectUserMessages_recordItems, hmessages, List.append_nil]
        exact h.messages
      | recorded context items =>
        have halike := hcut context items List.mem_cons_self
        refine ⟨?_, ghosts_recordItems _ h.ghosts ?_⟩
        · obtain ⟨hhistory, hreplayed⟩ := reconstruct_record (s := s) halike
          rw [Session.goOn, hhistory, hreplayed, collectUserMessages_append,
            collectUserMessages_append, h.messages]
        · simpa [enteredItems] using hfirst
      | wrote item passive =>
        refine ⟨?_, h.ghosts⟩
        rw [Session.goOn, reconstruct_persist passive]
        exact h.messages
    · intro context items hmem
      exact hcut context items (List.mem_cons_of_mem _ hmem)
    · intro item hmem
      exact hghosts item (List.mem_append_right _ hmem)
    · cases now with
      | drained item =>
        have happend : collectUserMessages (drainedItems (.drained item :: during)) =
          collectUserMessages [item] ++ collectUserMessages (drainedItems during) :=
          collectUserMessages_append [item] _
        rw [happend] at hdrained
        exact (List.append_eq_nil_iff.1 hdrained).2
      | recorded context items => exact hdrained
      | wrote item passive => exact hdrained

/-- Nothing to carry over: the history put in place is what replay makes of the summary. -/
theorem Compacting.finish (h : Compacting replay s) :
    Replays replay (s.finishCompaction context none) := by
  have hghosts : s.history.filter isGhostSnapshot = [] := by
    rw [List.filter_eq_nil_iff]
    intro item hitem
    rw [h.ghosts item hitem]
    exact Bool.false_ne_true
  refine .inr ⟨context, buildCompactedHistory [] (collectUserMessages s.history)
    (summaryText s.history), ?_, ?_⟩
  · rw [Session.finishCompaction, hghosts, buildCompactedHistory_eq]
    exact (List.append_nil _).trans (List.append_nil _)
  · rw [Session.finishCompaction, reconstruct_concat, h.messages, ← buildCompactedHistory_eq]
    rfl

theorem Replays.step (h : Replays replay s) (hstep : ToldStep replay s now t) :
    Replays replay t := by
  obtain ⟨htold, rfl⟩ := hstep
  cases now with
  | record context items => exact h.record htold
  | write item passive => exact h.persist passive
  | rollback numTurns => exact h.threadRollback numTurns
  | compact context during succeeds =>
    obtain ⟨hcut, hrest⟩ := htold
    have hstart : Replays replay (s.persist .turnContext) := h.persist trivial
    cases succeeds with
    | false =>
      rw [if_neg Bool.false_ne_true] at hrest
      exact hstart.goOn hcut hrest
    | true =>
      rw [if_pos rfl] at hrest
      obtain ⟨hstripped, hghosts, hdrained⟩ := hrest
      have hcompacting : Compacting replay (s.persist .turnContext) :=
        ⟨hstart.collectUserMessages, fun item hitem => hghosts item (List.mem_append_left _ hitem)⟩
      rw [Session.exec, Session.compact, hstripped]
      apply (hcompacting.goOn hcut _ hdrained).finish
      intro item hitem
      exact hghosts item (List.mem_append_right _ hitem)

/-- In every run whose steps are told by the rollout, replaying the rollout written so far
gives the history held, but for the items of the initial context. -/
theorem replays_of_run (replay : TurnContext) (s t : Session) (steps : List SessionStep)
    (hs : Replays replay s) (hrun : Transition.Run (ToldStep replay) s steps t) :
    Replays replay t :=
  hrun.invariant (fun h hstep => h.step hstep) hs

end Steps

/-- What a session without a past holds after some steps. -/
def sessionAfter (steps : List SessionStep) : Session := steps.foldl Session.exec ⟨[], []⟩

/-- A message, a compaction that drains its summary, a second message and its rollback. -/
def plainRun : List SessionStep :=
  [.record tenBytes [userMessageItem "first"],
    .compact tenBytes
      [.drained (.message none "assistant" [.outputText "so far"] none none),
        .wrote (.eventMsg .contextCompacted) trivial] true,
    .record tenBytes [userMessageItem "second"], .rollback 1]

theorem replays_plainRun : Replays tenBytes (sessionAfter plainRun) := by
  apply replays_of_run tenBytes ⟨[], []⟩ _ plainRun (.inl rfl)
  refine .cons ⟨?_, rfl⟩ (.cons ⟨?_, rfl⟩ (.cons ⟨?_, rfl⟩ (.cons ⟨trivial, rfl⟩ (.nil _))))
  · intro item _ _
    rfl
  · refine ⟨?_, by decide, by decide, by decide⟩
    intro context items hmem
    simp at hmem
  · intro item _ _
    rfl

theorem not_equalUpToContext_concat {replay : TurnContext} {tail : List ResponseItem}
    {last carried : ResponseItem} (hlast : tail.getLast? = some last) (hne : last ≠ carried) :
    ¬ EqualUpToContext replay (buildInitialContext replay ++ tail ++ [carried])
      (buildInitialContext replay ++ tail) := by
  rintro (heq | ⟨context, tail', hlive, hreplayed⟩)
  · have hlength := congrArg List.length heq
    rw [List.length_append, List.length_singleton] at hlength
    omega
  · obtain rfl := List.append_cancel_left hreplayed
    have hends := congrArg List.getLast? hlive
    rw [List.getLast?_concat, List.getLast?_append, hlast] at hends
    exact hne (Option.some.inj hends).symm

def ghost : ResponseItem := .ghostSnapshot ⟨"g1", none⟩

def modelSwitch : ResponseItem := developerMessage "<model_switch>"

/-- A message and one item more, and a compaction of the two. -/
def compactedWith (item : ResponseItem) : Session :=
  sessionAfter [.record tenBytes [userMessageItem "first", item], .compact tenBytes [] true]

/-- What a compaction keeps of the message, and its summary. -/
def keptMessages : List ResponseItem :=
  [userMessageItem "first", userMessageItem (summaryPrefix ++ ("\n" : Str))]

theorem buildCompactedHistory_first {history : List ResponseItem}
    (hmessages : collectUserMessages history = [("first" : Str)])
    (hassistant : lastAssistantMessage history = none) :
    buildCompactedHistory (buildInitialContext tenBytes) (collectUserMessages history)
        (summaryText history) = buildInitialContext tenBytes ++ keptMessages := by
  have hsummary : summaryText history = summaryPrefix ++ ("\n" : Str) := by
    rw [summaryText, hassistant]
    exact List.append_nil _
  have hselected : selectMessages compactUserMessageMaxTokens [("first" : Str)] = ["first"] := by
    decide
  have hne : summaryPrefix ++ ("\n" : Str) ≠ [] := List.append_ne_nil_of_right_ne_nil _ (by decide)
  rw [hmessages, hsummary, buildCompactedHistory, List.reverse_singleton, hselected, if_neg hne,
    List.append_assoc]
  rfl

theorem compactedWith_eq {item : ResponseItem}
    (hprocess : processItem item tenBytes.truncationPolicy = item)
    (hrecorded : isRecorded item = true)
    (hmessages : collectUserMessages [userMessageItem "first", item] = [("first" : Str)])
    (hassistant : lastAssistantMessage [userMessageItem "first", item] = none)
    (hcarried : (trailingModelSwitch [userMessageItem "first", item]).toList ++
      [userMessageItem "first", item].filter isGhostSnapshot = [item]) :
    (compactedWith item).history = buildInitialContext tenBytes ++ keptMessages ++ [item] ∧
      reconstructHistoryFromRollout tenBytes (compactedWith item).rollout =
        buildInitialContext tenBytes ++ keptMessages := by
  have hrecord (history : List ResponseItem) :
      recordItems history [userMessageItem "first", item] tenBytes.truncationPolicy =
        history ++ [userMessageItem "first", item] := by
    rw [recordItems, List.filter_cons_of_pos (by decide), List.filter_cons_of_pos hrecorded,
      List.filter_nil, List.map_cons, List.map_singleton, hprocess]
    rfl
  have hsession : compactedWith item = (((⟨[], []⟩ : Session).recordConversationItems tenBytes
      [userMessageItem "first", item]).persist .turnContext).finishCompaction tenBytes
        (trailingModelSwitch ((⟨[], []⟩ : Session).recordConversationItems tenBytes
          [userMessageItem "first", item]).history) := rfl
  have hreplayed : reconstructHistoryFromRollout tenBytes
      ((⟨[], []⟩ : Session).recordConversationItems tenBytes
        [userMessageItem "first", item]).rollout = [userMessageItem "first", item] :=
    foldl_replay_persisted.trans (hrecord [])
  have hpassive : Passive .turnContext := trivial
  constructor
  · rw [hsession, Session.finishCompaction, Session.persist, Session.recordConversationItems,
      hrecord, List.nil_append, buildCompactedHistory_first hmessages hassistant,
      List.append_assoc, hcarried]
  · rw [hsession, Session.finishCompaction, reconstruct_concat, reconstruct_persist hpassive,
      hreplayed, Session.persist, Session.recordConversationItems, hrecord, List.nil_append]
    exact buildCompactedHistory_first hmessages hassistant

/-- A ghost snapshot and a model-switch item are carried over by a compaction, and replay knows
of neither. -/
theorem not_replays_carriedOver :
    ((compactedWith ghost).history = buildInitialContext tenBytes ++ keptMessages ++ [ghost] ∧
      reconstructHistoryFromRollout tenBytes (compactedWith ghost).rollout =
        buildInitialContext tenBytes ++ keptMessages ∧
      ¬ Replays tenBytes (compactedWith ghost)) ∧
    ((compactedWith modelSwitch).history =
        buildInitialContext tenBytes ++ keptMessages ++ [modelSwitch] ∧
      reconstructHistoryFromRollout tenBytes (compactedWith modelSwitch).rollout =
        buildInitialContext tenBytes ++ keptMessages ∧
      ¬ Replays tenBytes (compactedWith modelSwitch)) ∧
    ¬ ∀ steps, Replays tenBytes (sessionAfter steps) := by
  have hghosts : (compactedWith ghost).history =
      buildInitialContext tenBytes ++ keptMessages ++ [ghost] ∧
      reconstructHistoryFromRollout tenBytes (compactedWith ghost).rollout =
        buildInitialContext tenBytes ++ keptMessages :=
    compactedWith_eq rfl (by decide) (by decide) (by decide) (by decide)
  have hswitches : (compactedWith modelSwitch).history =
      buildInitialContext tenBytes ++ keptMessages ++ [modelSwitch] ∧
      reconstructHistoryFromRollout tenBytes (compactedWith modelSwitch).rollout =
        buildInitialContext tenBytes ++ keptMessages :=
    compactedWith_eq rfl (by decide) (by decide) (by decide) (by decide)
  have hnot : ¬ Replays tenBytes (compactedWith ghost) := by
    rw [Replays, hghosts.1, hghosts.2]
    apply not_equalUpToContext_concat rfl
    intro heq
    cases heq
  refine ⟨⟨hghosts.1, hghosts.2, hnot⟩, ⟨hswitches.1, hswitches.2, ?_⟩, fun h => hnot (h _)⟩
  rw [Replays, hswitches.1, hswitches.2]
  apply not_equalUpToContext_concat rfl
  intro heq
  have hrole : ("user" : Str) = "developer" := (ResponseItem.message.inj heq).2.1
  exact absurd hrole (by decide)

end SheriMl.Rollout
