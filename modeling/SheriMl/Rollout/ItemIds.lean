import SheriMl.Lib.Numbering
import SheriMl.Rollout.ThreadEdits

/-!
# The ids of a thread's items

An item without an id of its own is named after a counter, which a rollback sets back to the
number of items left. `generatedIds_nodup`: no two items of a thread get the same name.
-/

namespace SheriMl.Rollout

open Protocol Numbering

/-- `next_item_id`, of a counter. -/
def itemId (n : Nat) : Str := ("item-" : Str) ++ Nat.toDigits 10 n

/-- The counter that an id was made from. -/
def itemNumber (id : Str) : Nat := Nat.ofDigitChars 10 (id.drop 5) 0

theorem itemNumber_itemId (n : Nat) : itemNumber (itemId n) = n :=
  Nat.ofDigitChars_ten_toDigits

/-- The ids made up for the items of some turns. -/
def generatedIds (turns : List Turn) : List Str :=
  turns.flatMap fun turn => turn.items.filterMap ThreadItem.generatedId

def ThreadItem.number (item : ThreadItem) : Option Nat := item.generatedId.map itemNumber

/-- The log that the turns are, each item told by the number of its id. -/
def turnLog (turns : List Turn) : Log := turns.map fun turn => turn.items.map ThreadItem.number

section

variable {turns pre post : List Turn} {turn turn' : Turn} {items : List ThreadItem}

theorem number_eq (item : ThreadItem) : item.number = item.generatedId.map itemNumber := rfl

theorem number_eq_none (hids : ∀ item ∈ items, item.generatedId = none) :
    ∀ entry ∈ items.map ThreadItem.number, entry = none := by
  intro entry hentry
  obtain ⟨item, hitem, rfl⟩ := List.mem_map.1 hentry
  rw [number_eq, hids item hitem]
  rfl

theorem map_number_congr {items items' : List ThreadItem}
    (hids : items.map ThreadItem.generatedId = items'.map ThreadItem.generatedId) :
    items.map ThreadItem.number = items'.map ThreadItem.number := by
  have hnumber : ThreadItem.number = Option.map itemNumber ∘ ThreadItem.generatedId := rfl
  rw [hnumber, ← List.map_map, ← List.map_map, hids]

theorem filterMap_generatedId_congr {items items' : List ThreadItem}
    (hids : items.map ThreadItem.generatedId = items'.map ThreadItem.generatedId) :
    items.filterMap ThreadItem.generatedId = items'.filterMap ThreadItem.generatedId := by
  have hfilter (items : List ThreadItem) : items.filterMap ThreadItem.generatedId =
      (items.map ThreadItem.generatedId).filterMap id := by
    rw [List.filterMap_map]
    rfl
  rw [hfilter, hfilter, hids]

theorem numbers_map_number (items : List ThreadItem) : numbers (items.map ThreadItem.number) =
    (items.filterMap ThreadItem.generatedId).map itemNumber := by
  rw [numbers, List.filterMap_map, List.map_filterMap]
  rfl

theorem numbers_turnLog (turns : List Turn) :
    numbers (turnLog turns).flatten = (generatedIds turns).map itemNumber := by
  induction turns with
  | nil => rfl
  | cons turn turns ih =>
    rw [turnLog, List.map_cons, List.flatten_cons, numbers_append, numbers_map_number, ← turnLog,
      ih, generatedIds, generatedIds, List.flatMap_cons, List.map_append]

theorem size_turnLog (turns : List Turn) :
    size (turnLog turns) = (turns.map fun turn => turn.items.length).sum := by
  induction turns with
  | nil => rfl
  | cons turn turns ih =>
    rw [turnLog, List.map_cons, size_cons, ← turnLog, ih, List.length_map, List.map_cons,
      List.sum_cons]

theorem turnLog_append (turns turns' : List Turn) :
    turnLog (turns ++ turns') = turnLog turns ++ turnLog turns' := List.map_append

theorem generatedIds_append (turns turns' : List Turn) :
    generatedIds (turns ++ turns') = generatedIds turns ++ generatedIds turns' :=
  List.flatMap_append

end

namespace ThreadHistoryBuilder

variable {b b' : ThreadHistoryBuilder} {item : ThreadItem}

/-- The log of all turns, the current one last. -/
def log (b : ThreadHistoryBuilder) : Log :=
  turnLog b.turns ++ [b.ensureTurn.items.map ThreadItem.number]

/-- The ids made up for the items of all turns. -/
def ids (b : ThreadHistoryBuilder) : List Str :=
  generatedIds b.turns ++ b.ensureTurn.items.filterMap ThreadItem.generatedId

/-- The ids made up are the counter's, and their numbers can not come again. -/
structure Named (b : ThreadHistoryBuilder) : Prop where
  made : ∀ id ∈ b.ids, ∃ n, id = itemId n
  numbered : Numbered b.log b.nextItemIndex

theorem Named.start : Named new where
  made id hid := by cases hid
  numbered := Numbered.start

theorem Named.finishCurrentTurn (h : Named b) : Named b.finishCurrentTurn := by
  unfold ThreadHistoryBuilder.finishCurrentTurn
  split
  · exact h
  next turn hcurrent =>
    have hensure := ensureTurn_of_some hcurrent
    split
    next hdropped =>
      simp only [Bool.and_eq_true, List.isEmpty_iff] at hdropped
      have hids : ids { b with currentTurn := none } = b.ids := by
        rw [ids, ids, hensure, hdropped.1.1]
        rfl
      have hlog : log { b with currentTurn := none } = b.log := by
        rw [log, log, hensure, hdropped.1.1]
        rfl
      exact ⟨hids ▸ h.made, hlog ▸ h.numbered⟩
    next hkept =>
      have hids : ids ⟨b.turns ++ [turn.toTurn], none, b.nextItemIndex⟩ = b.ids := by
        rw [ids, ids, hensure, generatedIds_append, List.append_assoc]
        congr 1
        exact (List.append_nil _).trans (List.append_nil _)
      have hlog : log ⟨b.turns ++ [turn.toTurn], none, b.nextItemIndex⟩ = b.log ++ [[]] := by
        rw [log, log, hensure, turnLog_append]
        rfl
      refine ⟨hids ▸ h.made, ?_⟩
      rw [hlog]
      exact h.numbered.openSegment

theorem Named.setTurn {turn : PendingTurn} (h : Named b)
    (hids : turn.items.map ThreadItem.generatedId = b.ensureTurn.items.map ThreadItem.generatedId) :
    Named (b.setTurn turn) := by
  have hsame : (b.setTurn turn).ids = b.ids := by
    rw [ids, ids, ← filterMap_generatedId_congr hids]
    rfl
  have hlog : (b.setTurn turn).log = b.log := by
    rw [log, log, ← map_number_congr hids]
    rfl
  exact ⟨hsame ▸ h.made, hlog ▸ h.numbered⟩

theorem ensureTurn_pushItem : (b.pushItem item).ensureTurn.items = b.ensureTurn.items ++ [item] :=
  rfl

theorem Named.pushItem (h : Named b) (hid : item.generatedId = none) : Named (b.pushItem item) := by
  have hsame : (b.pushItem item).ids = b.ids := by
    rw [ids, ids, ensureTurn_pushItem, List.filterMap_append, List.filterMap_cons_none hid]
    exact congrArg _ (List.append_nil _)
  refine ⟨hsame ▸ h.made, ?_⟩
  rw [log, ensureTurn_pushItem, List.map_append]
  apply h.numbered.note
  apply number_eq_none
  intro other hother
  rw [List.mem_singleton.1 hother]
  exact hid

theorem Named.pushNumbered {item : Str → ThreadItem} (h : Named b)
    (hid : ∀ id, (item id).generatedId = some id) : Named (b.pushNumbered item) where
  made := by
    have hadded : (b.pushNumbered item).ids = b.ids ++ [b.nextItemId] := by
      calc
        (b.pushNumbered item).ids = (b.pushItem (item b.nextItemId)).ids := rfl
        _ = b.ids ++ [b.nextItemId] := by
          rw [ids, ids, ensureTurn_pushItem, List.filterMap_append,
            List.filterMap_cons_some (hid _), ← List.append_assoc]
          rfl
    intro id hmem
    rw [hadded, List.mem_append] at hmem
    cases hmem with
    | inl hold => exact h.made id hold
    | inr hnew => exact ⟨b.nextItemIndex, List.mem_singleton.1 hnew⟩
  numbered := by
    have hnumber : (item b.nextItemId).number = some b.nextItemIndex := by
      rw [number_eq, hid]
      exact congrArg some (itemNumber_itemId _)
    have hlog : (b.pushNumbered item).log = turnLog b.turns ++
        [b.ensureTurn.items.map ThreadItem.number ++ [some b.nextItemIndex]] := by
      rw [← hnumber]
      calc
        (b.pushNumbered item).log = (b.pushItem (item b.nextItemId)).log := rfl
        _ = _ := by
          rw [log, ensureTurn_pushItem, List.map_append]
          rfl
    rw [hlog]
    exact h.numbered.number

/-- Items of no number are added to an earlier turn. -/
theorem Named.update {pre post : List Turn} {turn turn' : Turn} {items : List ThreadItem}
    (h : Named b) (hturns : b.turns = pre ++ turn :: post)
    (hitems : turn'.items = turn.items ++ items)
    (hids : ∀ item ∈ items, item.generatedId = none) :
    Named { b with turns := pre ++ turn' :: post } where
  made := by
    have hnone : items.filterMap ThreadItem.generatedId = [] := List.filterMap_eq_nil_iff.2 hids
    have hsame : generatedIds (pre ++ turn' :: post) = generatedIds b.turns := by
      rw [hturns]
      simp only [generatedIds, List.flatMap_append, List.flatMap_cons, hitems,
        List.filterMap_append, hnone, List.append_nil]
    intro id hid
    apply h.made id
    rw [ids, ← hsame]
    exact hid
  numbered := by
    have hold : b.log = turnLog pre ++ turn.items.map ThreadItem.number ::
        (turnLog post ++ [b.ensureTurn.items.map ThreadItem.number]) := by
      rw [log, hturns, turnLog_append, List.append_assoc]
      rfl
    have hnew : log { b with turns := pre ++ turn' :: post } = turnLog pre ++
        (turn.items.map ThreadItem.number ++ items.map ThreadItem.number) ::
          (turnLog post ++ [b.ensureTurn.items.map ThreadItem.number]) := by
      rw [log, turnLog_append, List.append_assoc, ← List.map_append, ← hitems]
      rfl
    have hnumbered := h.numbered
    rw [hold] at hnumbered
    rw [hnew]
    exact hnumbered.note (number_eq_none hids)

theorem Named.edit (h : Named b) (hedit : Edit b b') : Named b' := by
  cases hedit with
  | finish => exact h.finishCurrentTurn
  | set turn hids huser => exact h.setTurn hids
  | push item hid => exact h.pushItem hid
  | number item hid huser => exact h.pushNumbered hid
  | update pre post turn turn' items hturns hitems hids => exact h.update hturns hitems hids

theorem Named.edits (h : Named b) (hedits : Edits b b') : Named b' := by
  induction hedits with
  | refl => exact h
  | tail _ hedit ih => exact ih.edit hedit

theorem Named.handleUserMessage (h : Named b) (payload : UserMessageEvent) :
    Named (b.handleUserMessage payload) := by
  unfold ThreadHistoryBuilder.handleUserMessage
  dsimp only
  split
  · split
    · exact h.finishCurrentTurn.pushNumbered fun _ => rfl
    · exact h.pushNumbered fun _ => rfl
  · exact h.pushNumbered fun _ => rfl

theorem ids_of_none (hcurrent : b.currentTurn = none) : b.ids = generatedIds b.turns := by
  rw [ids, ensureTurn, hcurrent]
  exact List.append_nil _

theorem log_of_none (hcurrent : b.currentTurn = none) : b.log = turnLog b.turns ++ [[]] := by
  rw [log, ensureTurn, hcurrent]
  rfl

/-- The turns left have all their numbers below the new counter, for none is above the number
of items up to the end of its turn. -/
theorem Named.handleThreadRollback (h : Named b) (numTurns : Nat) :
    Named (b.handleThreadRollback numTurns) := by
  have hfinished := h.finishCurrentTurn
  have hcurrent := currentTurn_handleThreadRollback (b := b) numTurns
  have hturns := turns_handleThreadRollback (b := b) numTurns
  have hsplit : b.finish = (b.handleThreadRollback numTurns).turns ++
      b.finish.drop (b.finish.length - numTurns) := by
    rw [hturns]
    exact (List.take_append_drop _ _).symm
  constructor
  · intro id hid
    apply hfinished.made id
    rw [ids_of_none hcurrent] at hid
    rw [ids_of_none currentTurn_finishCurrentTurn, ← finish, hsplit, generatedIds_append]
    exact List.mem_append_left _ hid
  · have hnumbered := hfinished.numbered
    rw [log_of_none currentTurn_finishCurrentTurn, ← finish, hsplit, turnLog_append,
      List.append_assoc] at hnumbered
    have hcounter : (b.handleThreadRollback numTurns).nextItemIndex =
        size (turnLog (b.handleThreadRollback numTurns).turns) + 1 := by
      rw [size_turnLog]
      rfl
    rw [log_of_none hcurrent, hcounter]
    exact hnumbered.truncate.openSegment

theorem Named.handleRolloutItem (h : Named b) (item : RolloutItem) :
    Named (b.handleRolloutItem item) := by
  cases item with
  | sessionMeta => exact h
  | responseItem item => exact h
  | turnContext => exact h
  | compacted item => exact h.edits edits_handleCompacted
  | eventMsg event =>
    by_cases huser : ∃ payload, event = .userMessage payload
    · obtain ⟨payload, rfl⟩ := huser
      exact h.handleUserMessage payload
    by_cases hrollback : ∃ numTurns, event = .threadRolledBack numTurns
    · obtain ⟨numTurns, rfl⟩ := hrollback
      exact h.handleThreadRollback numTurns
    rw [not_exists] at huser hrollback
    exact h.edits (edits_handleEvent huser hrollback)

end ThreadHistoryBuilder

open ThreadHistoryBuilder

theorem named_buildThreadHistory (items : List RolloutItem) : Named (buildThreadHistory items) := by
  induction items using List.reverseRecOn with
  | nil => exact Named.start
  | append_singleton items item ih =>
    rw [buildThreadHistory, List.foldl_append]
    exact ih.handleRolloutItem item

/-- Items that are named after the counter have different names, in all turns of a thread. -/
theorem generatedIds_nodup (items : List RolloutItem) :
    (generatedIds (buildTurnsFromRolloutItems items)).Nodup ∧
      ∀ id ∈ generatedIds (buildTurnsFromRolloutItems items), ∃ n, id = itemId n := by
  have hnamed := (named_buildThreadHistory items).finishCurrentTurn
  have hids := ids_of_none (currentTurn_finishCurrentTurn (b := buildThreadHistory items))
  constructor
  · have hnodup := hnamed.numbered.nodup
    rw [log_of_none currentTurn_finishCurrentTurn, List.flatten_append, List.flatten_singleton,
      List.append_nil, numbers_turnLog] at hnodup
    exact List.Nodup.of_map itemNumber hnodup
  · intro id hid
    exact hnamed.made id (hids ▸ hid)

end SheriMl.Rollout
