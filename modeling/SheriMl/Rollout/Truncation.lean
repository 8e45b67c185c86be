import SheriMl.Rollout.Replay

/-!
# Forking a rollout

`core/src/rollout/truncation.rs`: a rollout cut before a user message, counted in the
rollout with a stack of positions that rollbacks shorten. Replay counts user turns in
the history it rebuilds instead. `replay_truncate`: the cut rollout stands for what the
history holds before that turn.
-/

namespace SheriMl.Rollout

open Protocol ContextManager

/-- The positions after one more entry, at index `idx`. -/
def positionsStep (idx : Nat) (userPositions : List Nat) : RolloutItem → List Nat
  | .responseItem (.message id role content endTurn phase) =>
    match parseTurnItem (.message id role content endTurn phase) with
    | some (.userMessage _) => userPositions ++ [idx]
    | _ => userPositions
  | .eventMsg (.threadRolledBack numTurns) =>
    userPositions.take (userPositions.length - numTurns)
  | _ => userPositions

/-- The loop over the entries, from an index on. -/
def positionsFrom : Nat → List Nat → List RolloutItem → List Nat
  | _, userPositions, [] => userPositions
  | idx, userPositions, item :: items =>
    positionsFrom (idx + 1) (positionsStep idx userPositions item) items

def userMessagePositionsInRollout (items : List RolloutItem) : List Nat :=
  positionsFrom 0 [] items

def truncateRolloutBeforeNthUserMessageFromStart (items : List RolloutItem) (nFromStart : Nat) :
    List RolloutItem :=
  if nFromStart = usizeMax then items
  else
    let userPositions := userMessagePositionsInRollout items
    if userPositions.length ≤ nFromStart then []
    else items.take (userPositions.getD nFromStart 0)

def Uncompacted (items : List RolloutItem) : Prop := ∀ compacted, .compacted compacted ∉ items

section Truncation

variable {context : TurnContext} {items : List RolloutItem} {item : RolloutItem}
  {userPositions : List Nat} {idx n i : Nat}

theorem positionsFrom_concat : positionsFrom idx userPositions (items ++ [item]) =
    positionsStep (idx + items.length) (positionsFrom idx userPositions items) item := by
  induction items generalizing idx userPositions with
  | nil => rfl
  | cons x items ih =>
    rw [List.cons_append, positionsFrom, ih, positionsFrom, List.length_cons, Nat.add_assoc,
      Nat.add_comm 1]

theorem positions_concat (items : List RolloutItem) (item : RolloutItem) :
    userMessagePositionsInRollout (items ++ [item]) =
      positionsStep items.length (userMessagePositionsInRollout items) item := by
  rw [userMessagePositionsInRollout, positionsFrom_concat, Nat.zero_add]
  rfl

theorem length_positionsStep_le (idx : Nat) (userPositions : List Nat) (item : RolloutItem) :
    (positionsStep idx userPositions item).length ≤ userPositions.length + 1 := by
  cases item with
  | responseItem x =>
    cases x with
    | message id role content endTurn phase =>
      rw [positionsStep]
      split
      · rw [List.length_append, List.length_singleton]
      · omega
    | _ => exact Nat.le_succ _
  | eventMsg event =>
    cases event with
    | threadRolledBack numTurns =>
      rw [positionsStep, List.length_take]
      omega
    | _ => exact Nat.le_succ _
  | _ => exact Nat.le_succ _

theorem length_positionsFrom_le (idx : Nat) (userPositions : List Nat)
    (items : List RolloutItem) :
    (positionsFrom idx userPositions items).length ≤ userPositions.length + items.length := by
  induction items generalizing idx userPositions with
  | nil => exact Nat.le_refl _
  | cons item items ih =>
    have hstep := length_positionsStep_le idx userPositions item
    have hrest := ih (idx + 1) (positionsStep idx userPositions item)
    rw [positionsFrom, List.length_cons]
    omega

theorem positionsStep_responseItem (x : ResponseItem) :
    positionsStep idx userPositions (.responseItem x) =
      if isUserTurnBoundary x = true then userPositions ++ [idx] else userPositions := by
  cases x with
  | message id role content endTurn phase =>
    rw [positionsStep]
    by_cases hboundary : isUserTurnBoundary (.message id role content endTurn phase) = true
    · obtain ⟨input, hparse⟩ := isUserTurnBoundary_iff.1 hboundary
      rw [if_pos hboundary, hparse]
    · rw [if_neg hboundary]
      split
      next input hparse => exact absurd (isUserTurnBoundary_iff.2 ⟨input, hparse⟩) hboundary
      · rfl
  | _ => rfl

/-- The stack of positions in the rollout follows the user turns of the history: each
position cuts the rollout where the history has that turn. -/
structure Follows (context : TurnContext) (items : List RolloutItem) : Prop where
  length : (userMessagePositionsInRollout items).length =
    userTurns (reconstructHistoryFromRollout context items)
  lt : ∀ i ∈ userMessagePositionsInRollout items, i < items.length
  cut : ∀ n i, (userMessagePositionsInRollout items)[n]? = some i →
    reconstructHistoryFromRollout context (items.take i) =
      beforeUserTurn n (reconstructHistoryFromRollout context items)

/-- An entry that leaves the stack, and the history up to its last turn. -/
theorem Follows.keep (h : Follows context items)
    (hpositions : userMessagePositionsInRollout (items ++ [item]) =
      userMessagePositionsInRollout items)
    (hturns : userTurns (reconstructHistoryFromRollout context (items ++ [item])) =
      userTurns (reconstructHistoryFromRollout context items))
    (hbefore : ∀ n, n < userTurns (reconstructHistoryFromRollout context items) →
      beforeUserTurn n (reconstructHistoryFromRollout context (items ++ [item])) =
        beforeUserTurn n (reconstructHistoryFromRollout context items)) :
    Follows context (items ++ [item]) := by
  refine ⟨?_, ?_, ?_⟩
  · rw [hpositions, hturns, h.length]
  · intro i hi
    rw [hpositions] at hi
    have hlt := h.lt i hi
    rw [List.length_append]
    omega
  · intro n i hi
    rw [hpositions] at hi
    have hlt := h.lt i (List.mem_of_getElem? hi)
    have hn : n < (userMessagePositionsInRollout items).length :=
      (List.getElem?_eq_some_iff.1 hi).1
    rw [hbefore n (h.length ▸ hn), List.take_append_of_le_length (Nat.le_of_lt hlt)]
    exact h.cut n i hi

theorem Follows.responseItem (h : Follows context items) (x : ResponseItem) :
    Follows context (items ++ [.responseItem x]) := by
  have hreplay : reconstructHistoryFromRollout context (items ++ [.responseItem x]) =
      recordItems (reconstructHistoryFromRollout context items) [x] context.truncationPolicy :=
    reconstruct_concat
  have hpositions := positions_concat items (.responseItem x)
  rw [positionsStep_responseItem] at hpositions
  by_cases hboundary : isUserTurnBoundary x = true
  · -- a user turn begins at the end of the rollout and of the history
    rw [if_pos hboundary] at hpositions
    have hprocessed : isUserTurnBoundary (processItem x context.truncationPolicy) = true := by
      rw [isUserTurnBoundary_processItem, hboundary]
    have hrecord : recordItems (reconstructHistoryFromRollout context items) [x]
        context.truncationPolicy = reconstructHistoryFromRollout context items ++
          [processItem x context.truncationPolicy] := by
      rw [recordItems, List.filter_cons_of_pos (isRecorded_of_boundary hboundary)]
      rfl
    rw [hrecord] at hreplay
    refine ⟨?_, ?_, ?_⟩
    · rw [hpositions, hreplay, List.length_append, h.length, userTurns, userTurns,
        List.countP_append, List.countP_singleton, if_pos hprocessed]
      rfl
    · intro i hi
      rw [hpositions] at hi
      rw [List.length_append, List.length_singleton]
      rcases List.mem_append.1 hi with hi | hi
      · have hlt := h.lt i hi
        omega
      · obtain rfl := List.mem_singleton.1 hi
        omega
    · intro n i hi
      rw [hpositions] at hi
      by_cases hn : n < (userMessagePositionsInRollout items).length
      · rw [List.getElem?_append_left hn] at hi
        have hlt := h.lt i (List.mem_of_getElem? hi)
        rw [List.take_append_of_le_length (Nat.le_of_lt hlt), hreplay, h.cut n i hi]
        exact (Marks.before_append_of_lt (Nat.lt_of_lt_of_eq hn h.length)).symm
      · have hlast : n = (userMessagePositionsInRollout items).length ∧ i = items.length := by
          have hsome := (List.getElem?_eq_some_iff.1 hi).1
          rw [List.length_append, List.length_singleton] at hsome
          have hn' : n = (userMessagePositionsInRollout items).length := by omega
          rw [hn', List.getElem?_concat_length] at hi
          exact ⟨hn', (Option.some.inj hi).symm⟩
        obtain ⟨rfl, rfl⟩ := hlast
        rw [List.take_left, hreplay, h.length]
        exact (Marks.before_concat_of hprocessed).symm
  · rw [if_neg hboundary] at hpositions
    have hnone : (([x].filter isRecorded).map (processItem · context.truncationPolicy)).countP
        isUserTurnBoundary = 0 := by
      rw [List.countP_eq_zero]
      intro y hy
      obtain ⟨z, hz, rfl⟩ := List.mem_map.1 hy
      obtain rfl := List.mem_singleton.1 (List.mem_filter.1 hz).1
      rw [isUserTurnBoundary_processItem]
      exact hboundary
    apply h.keep hpositions
    · rw [hreplay, recordItems, userTurns, userTurns, List.countP_append, hnone, Nat.add_zero]
    · intro n hn
      rw [hreplay, recordItems]
      exact Marks.before_append_of_lt hn

theorem Follows.rollback (h : Follows context items) (numTurns : Nat) :
    Follows context (items ++ [.eventMsg (.threadRolledBack numTurns)]) := by
  have hreplay : reconstructHistoryFromRollout context
      (items ++ [.eventMsg (.threadRolledBack numTurns)]) =
      beforeUserTurn (userTurns (reconstructHistoryFromRollout context items) - numTurns)
        (reconstructHistoryFromRollout context items) :=
    reconstruct_concat.trans (dropLastNUserTurns_eq _ numTurns)
  have hpositions : userMessagePositionsInRollout
      (items ++ [.eventMsg (.threadRolledBack numTurns)]) =
      (userMessagePositionsInRollout items).take
        (userTurns (reconstructHistoryFromRollout context items) - numTurns) := by
    rw [positions_concat, positionsStep, h.length]
  refine ⟨?_, ?_, ?_⟩
  · rw [hpositions, hreplay, List.length_take, h.length, beforeUserTurn]
    exact (Marks.countP_before _ _ _).symm
  · intro i hi
    rw [hpositions] at hi
    have hlt := h.lt i (List.mem_of_mem_take hi)
    rw [List.length_append]
    omega
  · intro n i hi
    rw [hpositions] at hi
    rw [List.getElem?_take] at hi
    split at hi
    case isFalse => cases hi
    case isTrue hn =>
    have hlt := h.lt i (List.mem_of_getElem? hi)
    rw [List.take_append_of_le_length (Nat.le_of_lt hlt), hreplay, h.cut n i hi]
    have hmin := Marks.before_before isUserTurnBoundary n
      (userTurns (reconstructHistoryFromRollout context items) - numTurns)
      (reconstructHistoryFromRollout context items)
    rw [Nat.min_eq_left (Nat.le_of_lt hn)] at hmin
    exact hmin.symm

/-- An entry that neither replay nor the positions read. -/
theorem Follows.passive (h : Follows context items) (hpassive : Passive item) :
    Follows context (items ++ [item]) := by
  have hreplay : reconstructHistoryFromRollout context (items ++ [item]) =
      reconstructHistoryFromRollout context items :=
    reconstruct_concat.trans (replayItem_passive hpassive)
  apply h.keep
  · rw [positions_concat]
    cases item with
    | responseItem x => exact hpassive.elim
    | eventMsg event =>
      cases event with
      | threadRolledBack numTurns => exact hpassive.elim
      | _ => rfl
    | _ => rfl
  · rw [hreplay]
  · intro n hn
    rw [hreplay]

theorem follows_of_uncompacted (h : Uncompacted items) : Follows context items := by
  induction items using List.reverseRecOn with
  | nil =>
    refine ⟨rfl, ?_, ?_⟩
    · intro i hi
      cases hi
    · intro n i hi
      cases hi
  | append_singleton items item ih =>
    have hfollows := ih fun compacted hmem => h compacted (List.mem_append_left _ hmem)
    cases item with
    | responseItem x => exact hfollows.responseItem x
    | compacted compacted =>
      exact absurd (List.mem_append_right _ List.mem_cons_self) (h compacted)
    | eventMsg event =>
      cases event with
      | threadRolledBack numTurns => exact hfollows.rollback numTurns
      | _ => exact hfollows.passive trivial
    | sessionMeta | turnContext => exact hfollows.passive trivial

/-- The recognisers of user messages agree, and a rollout cut before its user message number `n`
replays as the history before its user turn number `n`. The number of entries is that of a
vector. -/
theorem replay_truncate :
    (∀ item : ResponseItem, isUserTurnBoundary item = true ↔
      ∃ content, parseTurnItem item = some (.userMessage content)) ∧
    ∀ (context : TurnContext) (items : List RolloutItem) (n : Nat), Uncompacted items →
      items.length ≤ usizeMax → n < (userMessagePositionsInRollout items).length →
      ∃ cut, (userMessagePositions (reconstructHistoryFromRollout context items))[n]? = some cut ∧
        reconstructHistoryFromRollout context
            (truncateRolloutBeforeNthUserMessageFromStart items n) =
          (reconstructHistoryFromRollout context items).take cut := by
  refine ⟨fun item => isUserTurnBoundary_iff, ?_⟩
  intro context items n huncompacted hlength hn
  have hfollows : Follows context items := follows_of_uncompacted huncompacted
  have hturn : n < (userMessagePositions (reconstructHistoryFromRollout context items)).length :=
    Nat.lt_of_lt_of_eq hn (hfollows.length.trans List.length_findIdxs.symm)
  refine ⟨_, List.getElem?_eq_getElem hturn, ?_⟩
  have hle := length_positionsFrom_le 0 [] items
  rw [truncateRolloutBeforeNthUserMessageFromStart, if_neg, if_neg (Nat.not_le_of_lt hn),
    List.getD_eq_getElem?_getD, List.getElem?_eq_getElem hn,
    ← beforeUserTurn_eq_take (List.getElem?_eq_getElem hturn)]
  · exact hfollows.cut n _ (List.getElem?_eq_getElem hn)
  · rintro rfl
    rw [userMessagePositionsInRollout] at hn
    simp only [List.length_nil] at hle
    omega

end Truncation

/-- An image alone, and its tags; an abort; and one rollback more than there are turns. -/
def forked : List RolloutItem :=
  [.responseItem (.message none "user" [.inputText "<image>", .inputImage "u",
      .inputText "</image>"] none none),
    .responseItem (userMessageItem "first"), .responseItem (userMessageItem "<turn_aborted>"),
    .eventMsg (.threadRolledBack 3), .responseItem (userMessageItem "second"),
    .responseItem (.message none "assistant" [.outputText "done"] none none),
    .responseItem (userMessageItem "third"), .eventMsg (.turnStarted "t")]

theorem replay_truncate_forked :
    userMessagePositionsInRollout forked = [4, 6] ∧
    ∃ cut, (userMessagePositions (reconstructHistoryFromRollout tenBytes forked))[1]? = some cut ∧
      reconstructHistoryFromRollout tenBytes
          (truncateRolloutBeforeNthUserMessageFromStart forked 1) =
        (reconstructHistoryFromRollout tenBytes forked).take cut := by
  have hpositions : userMessagePositionsInRollout forked = [4, 6] := by decide
  have huncompacted : Uncompacted forked := by
    intro compacted hmem
    simp [forked] at hmem
  exact ⟨hpositions, replay_truncate.2 tenBytes forked 1 huncompacted (by decide)
    (by rw [hpositions]; decide)⟩

end SheriMl.Rollout
