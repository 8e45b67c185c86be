import SheriMl.Lib.Undo
import SheriMl.Rollout.ThreadEdits
import SheriMl.Rollout.Truncation

/-!
# User messages of a thread and of its history

A rollback drops whole turns of the thread that a client is shown, and the history from
a user message on. `userMessages_eq_iff`: the two keep the same user messages just where
the turns dropped hold as many user messages as are dropped.
-/

namespace SheriMl.Rollout

open Protocol ContextManager

/-- What the user wrote in some turns, item by item. -/
def turnMessages (turns : List Turn) : List (List ThreadInput) :=
  turns.flatMap fun turn => turn.items.filterMap ThreadItem.userContent

def itemMessage (item : ResponseItem) : Option (List UserInput) :=
  match parseTurnItem item with
  | some (.userMessage content) => some content
  | _ => none

def historyMessages (history : List ResponseItem) : List (List UserInput) :=
  history.filterMap itemMessage

section Steps

universe u

variable {κ : Type u} (ofInputs : List UserInput → κ) (ofThread : List ThreadInput → κ)

/-- What an entry does to the user messages of the history, a message told by `ofInputs`. -/
def coreStep : RolloutItem → Option (Undo.Step κ)
  | .responseItem item => (itemMessage item).map fun content => .entry (ofInputs content)
  | .eventMsg (.threadRolledBack numTurns) => some (.rollback numTurns)
  | _ => none

/-- What an entry does to the user messages shown, a message told by `ofThread`. -/
def threadStep : RolloutItem → Option (Undo.Step κ)
  | .eventMsg (.userMessage payload) => some (.entry (ofThread (buildUserInputs payload)))
  | .eventMsg (.threadRolledBack numTurns) => some (.rollback numTurns)
  | _ => none

/-- Each user message is recorded both as an item and as an event, and told alike. -/
def RecordedBoth (items : List RolloutItem) : Prop :=
  items.filterMap (coreStep ofInputs) = items.filterMap (threadStep ofThread)

/-- The turns shown and the history have the same user messages. -/
def SameMessages (context : TurnContext) (items : List RolloutItem) : Prop :=
  (turnMessages (buildTurnsFromRolloutItems items)).map ofThread =
    (historyMessages (reconstructHistoryFromRollout context items)).map ofInputs

end Steps

/-- The last turns, as many as a rollback drops. -/
def lastTurns (numTurns : Nat) (turns : List Turn) : List Turn :=
  turns.drop (turns.length - numTurns)

/-- At every rollback the turns dropped hold as many user messages as turns are dropped,
or all there are. -/
def RollbacksAligned (items : List RolloutItem) : Prop :=
  ∀ pre numTurns post, items = pre ++ .eventMsg (.threadRolledBack numTurns) :: post →
    (turnMessages (lastTurns numTurns (buildTurnsFromRolloutItems pre))).length =
      min numTurns (turnMessages (buildTurnsFromRolloutItems pre)).length

section Shown

variable {b : ThreadHistoryBuilder} {turn : PendingTurn} {turns turns' : List Turn}
  {items : List ThreadItem} {item : ThreadItem} {turnId : Str} {change : Turn → Turn}

/-- What the user wrote in the turns so far, the current one among them. -/
def ThreadHistoryBuilder.messages (b : ThreadHistoryBuilder) : List (List ThreadInput) :=
  turnMessages b.turns ++
    ((b.currentTurn.map fun turn => turn.items.filterMap ThreadItem.userContent).getD [])

namespace ThreadHistoryBuilder

theorem messages_finishCurrentTurn : b.finishCurrentTurn.messages = b.messages := by
  unfold finishCurrentTurn
  split
  · rfl
  next turn hcurrent =>
    split
    next hdropped =>
      simp only [Bool.and_eq_true, List.isEmpty_iff] at hdropped
      simp only [messages, hcurrent, Option.map_some, Option.map_none, hdropped.1.1,
        List.filterMap_nil, Option.getD_some, Option.getD_none]
    next hkept =>
      simp only [messages, hcurrent, turnMessages, List.flatMap_append, List.flatMap_cons,
        List.flatMap_nil, List.append_nil, Option.map_some, Option.map_none, Option.getD_some,
        Option.getD_none]

theorem turnMessages_finish : turnMessages b.finish = b.messages := by
  rw [← messages_finishCurrentTurn, messages, currentTurn_finishCurrentTurn, finish]
  exact (List.append_nil _).symm

/-- The current turn is replaced by one with the same user messages. -/
theorem messages_setTurn
    (h : turn.items.filterMap ThreadItem.userContent =
      b.ensureTurn.items.filterMap ThreadItem.userContent) :
    (b.setTurn turn).messages = b.messages := by
  rw [ensureTurn] at h
  simp only [messages, setTurn, Option.map_some, Option.getD_some, h]
  cases b.currentTurn with
  | none => rfl
  | some current => rfl

theorem messages_pushItem :
    (b.pushItem item).messages = b.messages ++ item.userContent.toList := by
  have hone : [item].filterMap ThreadItem.userContent = item.userContent.toList := by
    cases hcontent : item.userContent with
    | none => exact List.filterMap_cons_none hcontent
    | some content => exact List.filterMap_cons_some hcontent
  simp only [messages, pushItem, setTurn, ensureTurn, PendingTurn.push, Option.map_some,
    Option.getD_some, List.filterMap_append, hone]
  cases b.currentTurn with
  | none | some current => exact (List.append_assoc _ _ _).symm

theorem messages_pushItem_of_none (h : item.userContent = none) :
    (b.pushItem item).messages = b.messages := by
  rw [messages_pushItem, h]
  exact List.append_nil _

theorem messages_handleUserMessage (payload : UserMessageEvent) :
    (b.handleUserMessage payload).messages = b.messages ++ [buildUserInputs payload] := by
  have hpush (b : ThreadHistoryBuilder) (id : Str) :
      (b.pushItem (.userMessage id (buildUserInputs payload))).messages =
        b.messages ++ [buildUserInputs payload] := messages_pushItem
  unfold handleUserMessage
  dsimp only
  split
  · split
    · exact (hpush b.finishCurrentTurn _).trans (by rw [messages_finishCurrentTurn])
    · exact hpush b _
  · exact hpush b _

theorem userContent_of_generatedId (h : item.generatedId = none) : item.userContent = none := by
  cases item with
  | userMessage id content => cases h
  | _ => rfl

theorem Edit.messages {b' : ThreadHistoryBuilder} (h : Edit b b') : b'.messages = b.messages := by
  cases h with
  | finish => exact messages_finishCurrentTurn
  | set turn hids huser => exact messages_setTurn huser
  | push item hid => exact messages_pushItem_of_none (userContent_of_generatedId hid)
  | number item hid huser => exact messages_pushItem_of_none (b := b) (huser b.nextItemId)
  | update pre post turn turn' added hturns hitems hids =>
    have hadded : added.filterMap ThreadItem.userContent = [] :=
      List.filterMap_eq_nil_iff.2 fun item hitem => userContent_of_generatedId (hids item hitem)
    have hsame : turnMessages (pre ++ turn' :: post) = turnMessages b.turns := by
      rw [hturns]
      simp only [turnMessages, List.flatMap_append, List.flatMap_cons, hitems,
        List.filterMap_append, hadded, List.append_nil]
    rw [ThreadHistoryBuilder.messages, ThreadHistoryBuilder.messages, hsame]

theorem Edits.messages {b' : ThreadHistoryBuilder} (h : Edits b b') : b'.messages = b.messages := by
  induction h with
  | refl => rfl
  | tail _ hedit ih => rw [hedit.messages, ih]

theorem messages_handleThreadRollback (numTurns : Nat) :
    (b.handleThreadRollback numTurns).messages =
      turnMessages (Undo.dropLast b.finish numTurns) := by
  rw [messages, currentTurn_handleThreadRollback, turns_handleThreadRollback]
  exact List.append_nil _

theorem messages_handleEvent {event : EventMsg}
    (huser : ∀ payload, event ≠ .userMessage payload)
    (hrollback : ∀ numTurns, event ≠ .threadRolledBack numTurns) :
    (b.handleEvent event).messages = b.messages :=
  (edits_handleEvent huser hrollback).messages

end ThreadHistoryBuilder

end Shown

section Agree

universe u

variable {κ : Type u} {ofInputs : List UserInput → κ} {ofThread : List ThreadInput → κ}
  {context : TurnContext} {items : List RolloutItem} {item : RolloutItem}
  {history : List ResponseItem} {x : ResponseItem}

theorem isSome_itemMessage (x : ResponseItem) : (itemMessage x).isSome = isUserTurnBoundary x := by
  rw [Bool.eq_iff_iff, isUserTurnBoundary_iff, Option.isSome_iff_exists]
  unfold itemMessage
  split
  next content hparse =>
    rw [hparse]
    exact ⟨fun _ => ⟨content, rfl⟩, fun _ => ⟨content, rfl⟩⟩
  next hother =>
    constructor
    · rintro ⟨content, hcontent⟩
      cases hcontent
    · rintro ⟨content, hparse⟩
      exact (hother content hparse).elim

theorem length_historyMessages : (historyMessages history).length = userTurns history := by
  rw [historyMessages, List.length_filterMap_eq_countP, userTurns]
  exact List.countP_congr fun x _ => by rw [isSome_itemMessage]

theorem historyMessages_recordItems (policy : TruncationPolicy) :
    historyMessages (recordItems history [x] policy) =
      historyMessages history ++ (itemMessage x).toList := by
  have hprocessed : itemMessage (processItem x policy) = itemMessage x := by
    rw [itemMessage, itemMessage, parseTurnItem_processItem]
  rw [recordItems, historyMessages, List.filterMap_append]
  congr 1
  cases hmessage : itemMessage x with
  | some content =>
    have hboundary : isUserTurnBoundary x = true := by
      rw [← isSome_itemMessage, hmessage]
      rfl
    rw [List.filter_cons_of_pos (isRecorded_of_boundary hboundary)]
    exact List.filterMap_cons_some (hprocessed.trans hmessage)
  | none =>
    by_cases hrecorded : isRecorded x = true
    · rw [List.filter_cons_of_pos hrecorded]
      exact List.filterMap_cons_none (hprocessed.trans hmessage)
    · rw [List.filter_cons_of_neg hrecorded]
      rfl

theorem historyMessages_rollback (numTurns : Nat) :
    historyMessages (dropLastNUserTurns history numTurns) =
      Undo.dropLast (historyMessages history) numTurns := by
  rw [dropLastNUserTurns_eq, historyMessages, beforeUserTurn,
    Marks.filterMap_before isSome_itemMessage, ← historyMessages, Undo.dropLast,
    length_historyMessages]

theorem historyMessages_reconstruct (h : Uncompacted items) :
    (historyMessages (reconstructHistoryFromRollout context items)).map ofInputs =
      Undo.run (items.filterMap (coreStep ofInputs)) := by
  induction items using List.reverseRecOn with
  | nil => rfl
  | append_singleton items item ih =>
    have hrun := ih fun compacted hmem => h compacted (List.mem_append_left _ hmem)
    rw [reconstruct_concat, List.filterMap_append]
    have hkeep (hpassive : Passive item) (hnone : coreStep ofInputs item = none) :
        (historyMessages (replayItem context (reconstructHistoryFromRollout context items)
          item)).map ofInputs = Undo.run (items.filterMap (coreStep ofInputs) ++
            [item].filterMap (coreStep ofInputs)) := by
      rw [replayItem_passive hpassive, List.filterMap_cons_none hnone, List.filterMap_nil,
        List.append_nil, hrun]
    cases item with
    | responseItem x =>
      rw [replayItem, historyMessages_recordItems, List.map_append, hrun]
      cases hmessage : itemMessage x with
      | none =>
        have hnone : coreStep ofInputs (.responseItem x) = none := by rw [coreStep, hmessage]; rfl
        rw [List.filterMap_cons_none hnone]
        simp
      | some content =>
        have hentry : coreStep ofInputs (.responseItem x) = some (.entry (ofInputs content)) := by
          rw [coreStep, hmessage]
          rfl
        rw [List.filterMap_cons_some hentry, List.filterMap_nil, Undo.run_concat]
        rfl
    | compacted compacted =>
      exact absurd (List.mem_append_right _ List.mem_cons_self) (h compacted)
    | eventMsg event =>
      cases event with
      | threadRolledBack numTurns =>
        have hentry : coreStep ofInputs (.eventMsg (.threadRolledBack numTurns)) =
          some (.rollback numTurns) := rfl
        rw [List.filterMap_cons_some hentry, List.filterMap_nil, Undo.run_concat, ← hrun,
          replayItem, historyMessages_rollback, Undo.apply, Undo.dropLast, Undo.dropLast,
          List.map_take, List.length_map]
      | _ => exact hkeep trivial rfl
    | sessionMeta => exact hkeep trivial rfl
    | turnContext => exact hkeep trivial rfl

/-- The user messages shown are those that the events and rollbacks say. -/
def ShowsRun (ofThread : List ThreadInput → κ) (items : List RolloutItem) : Prop :=
  (turnMessages (buildTurnsFromRolloutItems items)).map ofThread =
    Undo.run (items.filterMap (threadStep ofThread))

theorem turnMessages_concat : turnMessages (buildTurnsFromRolloutItems (items ++ [item])) =
    ((buildThreadHistory items).handleRolloutItem item).messages := by
  rw [buildTurnsFromRolloutItems, ThreadHistoryBuilder.turnMessages_finish, buildThreadHistory,
    List.foldl_append]
  rfl

/-- Every entry but a rollback keeps the agreement. -/
theorem ShowsRun.concat (h : ShowsRun ofThread items)
    (hrollback : ∀ numTurns, item ≠ .eventMsg (.threadRolledBack numTurns)) :
    ShowsRun ofThread (items ++ [item]) := by
  have hmessages : turnMessages (buildTurnsFromRolloutItems items) =
      (buildThreadHistory items).messages := ThreadHistoryBuilder.turnMessages_finish
  rw [ShowsRun, hmessages] at h
  rw [ShowsRun, turnMessages_concat, List.filterMap_append]
  have hkeep (hsame : ((buildThreadHistory items).handleRolloutItem item).messages =
      (buildThreadHistory items).messages) (hnone : threadStep ofThread item = none) :
      ((buildThreadHistory items).handleRolloutItem item).messages.map ofThread =
        Undo.run (items.filterMap (threadStep ofThread) ++
          [item].filterMap (threadStep ofThread)) := by
    rw [hsame, h, List.filterMap_cons_none hnone, List.filterMap_nil, List.append_nil]
  cases item with
  | eventMsg event =>
    cases event with
    | userMessage payload =>
      have hentry : threadStep ofThread (.eventMsg (.userMessage payload)) =
        some (.entry (ofThread (buildUserInputs payload))) := rfl
      rw [ThreadHistoryBuilder.handleRolloutItem, ThreadHistoryBuilder.handleEvent,
        ThreadHistoryBuilder.messages_handleUserMessage, List.map_append, h,
        List.filterMap_cons_some hentry, List.filterMap_nil, Undo.run_concat]
      rfl
    | threadRolledBack numTurns => exact absurd rfl (hrollback numTurns)
    | _ =>
      refine hkeep (ThreadHistoryBuilder.messages_handleEvent ?_ ?_) rfl
      · intro payload heq
        cases heq
      · intro numTurns heq
        cases heq
  | compacted compacted =>
    refine hkeep ?_ rfl
    exact ThreadHistoryBuilder.edits_handleCompacted.messages
  | _ => exact hkeep rfl rfl

/-- A rollback keeps the agreement just if the turns it drops hold so many user messages. -/
theorem ShowsRun.rollback_iff (h : ShowsRun ofThread items) (numTurns : Nat) :
    ShowsRun ofThread (items ++ [.eventMsg (.threadRolledBack numTurns)]) ↔
      (turnMessages (lastTurns numTurns (buildTurnsFromRolloutItems items))).length =
        min numTurns (turnMessages (buildTurnsFromRolloutItems items)).length := by
  have hentry : threadStep ofThread (.eventMsg (.threadRolledBack numTurns)) =
    some (.rollback numTurns) := rfl
  have hdropped : turnMessages (buildTurnsFromRolloutItems
      (items ++ [.eventMsg (.threadRolledBack numTurns)])) =
      turnMessages (Undo.dropLast (buildTurnsFromRolloutItems items) numTurns) :=
    turnMessages_concat.trans (ThreadHistoryBuilder.messages_handleThreadRollback numTurns)
  rw [ShowsRun] at h
  rw [ShowsRun, hdropped, List.filterMap_append, List.filterMap_cons_some hentry,
    List.filterMap_nil, Undo.run_concat, ← h, Undo.apply]
  have hgroups := Undo.rollback_flatMap_iff
    (fun turn : Turn => (turn.items.filterMap ThreadItem.userContent).map ofThread)
    (buildTurnsFromRolloutItems items) numTurns
  simp only [← List.map_flatMap, List.length_map] at hgroups
  exact hgroups

theorem showsRun_of_aligned (h : RollbacksAligned items) : ShowsRun ofThread items := by
  induction items using List.reverseRecOn with
  | nil => rfl
  | append_singleton items item ih =>
    have hshows : ShowsRun ofThread items := by
      apply ih
      intro pre numTurns post hsplit
      apply h pre numTurns (post ++ [item])
      rw [hsplit, List.append_assoc, List.cons_append]
    by_cases hrollback : ∃ numTurns, item = .eventMsg (.threadRolledBack numTurns)
    · obtain ⟨numTurns, rfl⟩ := hrollback
      exact (hshows.rollback_iff numTurns).2 (h items numTurns [] rfl)
    · apply hshows.concat
      intro numTurns heq
      exact hrollback ⟨numTurns, heq⟩

theorem countP_isRollback_steps :
    (items.filterMap (coreStep ofInputs)).countP Undo.Step.isRollback =
      (items.filterMap (threadStep ofThread)).countP Undo.Step.isRollback := by
  rw [List.countP_filterMap, List.countP_filterMap]
  apply List.countP_congr
  intro item _
  cases item with
  | responseItem x =>
    have hthread : threadStep ofThread (.responseItem x) = none := rfl
    rw [coreStep, hthread]
    cases itemMessage x with
    | none => rfl
    | some content => exact iff_of_false Bool.false_ne_true Bool.false_ne_true
  | eventMsg event =>
    cases event with
    | userMessage payload => exact iff_of_false Bool.false_ne_true Bool.false_ne_true
    | _ => exact Iff.rfl
  | _ => exact Iff.rfl

/-- What is recorded both ways is so up to each rollback. -/
theorem RecordedBoth.before {pre post : List RolloutItem} {numTurns : Nat}
    (h : RecordedBoth ofInputs ofThread (pre ++ .eventMsg (.threadRolledBack numTurns) :: post)) :
    RecordedBoth ofInputs ofThread pre := by
  have hcore : coreStep ofInputs (.eventMsg (.threadRolledBack numTurns)) =
    some (.rollback numTurns) := rfl
  have hthread : threadStep ofThread (.eventMsg (.threadRolledBack numTurns)) =
    some (.rollback numTurns) := rfl
  rw [RecordedBoth, List.filterMap_append, List.filterMap_append,
    List.filterMap_cons_some hcore, List.filterMap_cons_some hthread] at h
  exact Undo.split_unique h countP_isRollback_steps

theorem sameMessages_iff (h : Uncompacted items) (hboth : RecordedBoth ofInputs ofThread items) :
    SameMessages ofInputs ofThread context items ↔ ShowsRun ofThread items := by
  rw [SameMessages, historyMessages_reconstruct h, hboth, ShowsRun]

/-- The turns shown and the history have the same user messages, after every part of a rollout
that records each message both ways, just if the rollbacks drop turns that hold as many
user messages as are dropped. -/
theorem userMessages_eq_iff (ofInputs : List UserInput → κ) (ofThread : List ThreadInput → κ)
    (context : TurnContext) (items : List RolloutItem) (huncompacted : Uncompacted items)
    (hboth : RecordedBoth ofInputs ofThread items) :
    (∀ pre post, items = pre ++ post → RecordedBoth ofInputs ofThread pre →
      SameMessages ofInputs ofThread context pre) ↔ RollbacksAligned items := by
  have hpart {pre post : List RolloutItem} (hsplit : items = pre ++ post) : Uncompacted pre :=
    fun compacted hmem => huncompacted compacted (hsplit ▸ List.mem_append_left _ hmem)
  constructor
  · intro hsame pre numTurns post hsplit
    have hbefore : RecordedBoth ofInputs ofThread pre := RecordedBoth.before (hsplit ▸ hboth)
    have hsplit' : items = (pre ++ [.eventMsg (.threadRolledBack numTurns)]) ++ post := by
      rw [hsplit, List.append_assoc]
      rfl
    have hafter : RecordedBoth ofInputs ofThread
        (pre ++ [.eventMsg (.threadRolledBack numTurns)]) := by
      rw [RecordedBoth, List.filterMap_append, List.filterMap_append, hbefore]
      rfl
    have hshows : ShowsRun ofThread pre :=
      (sameMessages_iff (hpart hsplit) hbefore).1 (hsame pre _ hsplit hbefore)
    exact (hshows.rollback_iff numTurns).1
      ((sameMessages_iff (hpart hsplit') hafter).1 (hsame _ post hsplit' hafter))
  · intro haligned pre post hsplit hbefore
    rw [sameMessages_iff (hpart hsplit) hbefore]
    apply showsRun_of_aligned
    intro pre' numTurns post' hsplit'
    apply haligned pre' numTurns (post' ++ post)
    rw [hsplit, hsplit', List.append_assoc, List.cons_append]

end Agree

/-- The texts of a message, as a client is shown them. -/
def threadText (content : List ThreadInput) : Str :=
  (content.map fun
    | .text text => text
    | _ => []).flatten

/-- A user message, recorded both ways. -/
def bothWays (text : Str) : List RolloutItem :=
  [.responseItem (userMessageItem text), .eventMsg (.userMessage ⟨text, none, []⟩)]

/-- Two turns of one message, the last rolled back and another taken. -/
def retaken : List RolloutItem :=
  [.eventMsg (.turnStarted "t1")] ++ bothWays "first" ++ [.eventMsg (.turnComplete "t1"),
    .eventMsg (.turnStarted "t2")] ++ bothWays "second" ++ [.eventMsg (.turnAborted (some "t2")),
    .eventMsg (.threadRolledBack 1)] ++ bothWays "third"

theorem userMessages_eq_retaken :
    RollbacksAligned retaken ↔ ∀ pre post, retaken = pre ++ post →
      RecordedBoth messageText threadText pre →
        SameMessages messageText threadText tenBytes pre := by
  refine (userMessages_eq_iff messageText threadText tenBytes retaken ?_ ?_).symm
  · intro compacted hmem
    simp [retaken, bothWays] at hmem
  · rw [RecordedBoth]
    decide

/-- Two messages of one turn, the second sent while it ran, and a rollback of one turn. -/
def steered : List RolloutItem :=
  [.eventMsg (.turnStarted "t1")] ++ bothWays "first" ++ bothWays "second" ++
    [.eventMsg (.turnComplete "t1"), .eventMsg (.threadRolledBack 1)]

/-- A turn without a message, and a rollback of one turn. -/
def silentTurn : List RolloutItem :=
  bothWays "first" ++ [.eventMsg (.turnStarted "t2"), .eventMsg (.turnComplete "t2"),
    .eventMsg (.threadRolledBack 1)]

/-- No message is shown of the first thread and its history keeps one; of the second it is the
other way round. -/
theorem userMessages_ne_steered :
    (RecordedBoth messageText threadText steered ∧
      turnMessages (buildTurnsFromRolloutItems steered) = [] ∧
      historyMessages (reconstructHistoryFromRollout tenBytes steered) = [[.text "first"]]) ∧
    (RecordedBoth messageText threadText silentTurn ∧
      turnMessages (buildTurnsFromRolloutItems silentTurn) = [[.text "first"]] ∧
      historyMessages (reconstructHistoryFromRollout tenBytes silentTurn) = []) ∧
    ¬ ∀ items, Uncompacted items → RecordedBoth messageText threadText items →
      SameMessages messageText threadText tenBytes items := by
  have hboth : RecordedBoth messageText threadText steered := by
    rw [RecordedBoth]
    decide
  refine ⟨⟨hboth, by decide, by decide⟩, ⟨?_, by decide, by decide⟩, ?_⟩
  · rw [RecordedBoth]
    decide
  · intro h
    have hsame := h steered (by intro compacted hmem; simp [steered, bothWays] at hmem) hboth
    rw [SameMessages] at hsame
    exact absurd hsame (by decide)

end SheriMl.Rollout
