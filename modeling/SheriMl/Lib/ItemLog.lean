import Mathlib.Data.List.Basic
import Mathlib.Logic.Function.Basic

/-!
# Logs of items

A log tells which items were started, updated and completed; barriers stand between. Items are told
apart by their names. Slots hold the items that are open: what is written of an item that a slot
holds, or of one with a new name, keeps the log lawful (`Sound.apply`). If no other items are open
(`Tight`), a log whose slots are empty has completed everything that it has started.
-/

namespace ItemLog

open List

universe u v w

variable {α : Type u} {ι : Type v} {κ : Type w}

inductive Entry (α : Type u) where
  | started (item : α)
  | updated (item : α)
  | completed (item : α)
  | barrier

def Entry.item? : Entry α → Option α
  | .started item | .updated item | .completed item => some item
  | .barrier => none

/-- What can be told of one item. -/
inductive IsHistory (item : α) : List (Entry α) → Prop
  | once : IsHistory item [.completed item]
  | running (updates : Nat) : IsHistory item (.started item :: List.replicate updates (.updated item))
  | finished (updates : Nat) :
    IsHistory item (.started item :: (List.replicate updates (.updated item) ++ [.completed item]))

section Names

variable [DecidableEq ι] (name : α → ι)

/-- The entries of the items with a name. -/
def history (i : ι) (log : List (Entry α)) : List (Entry α) :=
  log.filter fun entry => entry.item?.map name = some i

/-- No name is given to two items, and none is told of after its completion. -/
def Lawful (log : List (Entry α)) : Prop :=
  ∀ i, history name i log = [] ∨ ∃ item, IsHistory item (history name i log)

variable {name} {i : ι} {item : α} {log log' : List (Entry α)} {entry : Entry α}

theorem history_append : history name i (log ++ log') = history name i log ++ history name i log' :=
  filter_append ..

theorem history_append_self (h : entry.item? = some item) :
    history name (name item) (log ++ [entry]) = history name (name item) log ++ [entry] := by
  rw [history_append, history, history, filter_cons_of_pos (by simp [h]), filter_nil]

theorem history_append_other (h : entry.item? = some item) (hne : name item ≠ i) :
    history name i (log ++ [entry]) = history name i log := by
  rw [history_append, history, history, filter_cons_of_neg (by simp [h, hne]), filter_nil,
    append_nil]

theorem history_append_barrier : history name i (log ++ [.barrier]) = history name i log := by
  simp [history, Entry.item?]

theorem history_eq_nil (h : ∀ entry ∈ log, ∀ item, entry.item? = some item → name item ≠ i) :
    history name i log = [] := by
  rw [history, filter_eq_nil_iff]
  intro entry hentry hname
  obtain ⟨item, hitem, heq⟩ := Option.map_eq_some_iff.1 (of_decide_eq_true hname)
  exact h entry hentry item hitem heq

variable (name) in
theorem mem_history (h : entry.item? = some item) :
    entry ∈ history name (name item) log ↔ entry ∈ log := by
  simp [history, h]

end Names

/-! ## Barriers -/

/-- What a log has started or updated, it has completed. -/
def AllCompleted (log : List (Entry α)) : Prop :=
  ∀ item, .started item ∈ log ∨ .updated item ∈ log → .completed item ∈ log

/-- At every barrier all items are completed. -/
def Settled (log : List (Entry α)) : Prop :=
  ∀ before after, log = before ++ .barrier :: after → AllCompleted before

section Settled

variable {log log' : List (Entry α)} {entry : Entry α}

theorem settled_nil : Settled ([] : List (Entry α)) := by
  intro before after h
  simp at h

theorem settled_append_singleton :
    Settled (log ++ [entry]) ↔ Settled log ∧ (entry = .barrier → AllCompleted log) := by
  constructor
  · intro h
    refine ⟨fun before after heq => ?_, fun hbarrier => ?_⟩
    · exact h before (after ++ [entry]) (by rw [heq, append_assoc, cons_append])
    · exact h log [] (by rw [hbarrier])
  · rintro ⟨h, hlast⟩ before after heq
    rcases eq_nil_or_concat after with rfl | ⟨after, last, rfl⟩
    · obtain ⟨rfl, hentry⟩ := append_inj' heq rfl
      exact hlast (List.cons.inj hentry).1
    · rw [concat_eq_append, ← cons_append, ← append_assoc] at heq
      exact h before after (append_inj' heq rfl).1

theorem settled_append (h : ∀ entry ∈ log', entry ≠ .barrier) :
    Settled (log ++ log') ↔ Settled log := by
  induction log' generalizing log with
  | nil => rw [append_nil]
  | cons entry log' ih =>
    obtain ⟨hentry, hrest⟩ := forall_mem_cons.1 h
    rw [append_cons, ih hrest, settled_append_singleton]
    exact and_iff_left fun hbarrier => absurd hbarrier hentry

end Settled

/-! ## Slots -/

structure State (κ : Type w) (α : Type u) where
  slots : κ → Option α
  log : List (Entry α)

inductive Op (κ : Type w) (α : Type u) where
  | start (slot : κ) (item : α)
  | update (slot : κ) (item : α)
  | finish (slot : κ) (item : α)
  | once (item : α)
  | barrier

namespace Op

def entry : Op κ α → Entry α
  | .start _ item => .started item
  | .update _ item => .updated item
  | .finish _ item | .once item => .completed item
  | .barrier => .barrier

variable [DecidableEq κ]

def slots (slots : κ → Option α) : Op κ α → κ → Option α
  | .start slot item => Function.update slots slot (some item)
  | .finish slot _ => Function.update slots slot none
  | .update _ _ | .once _ | .barrier => slots

def apply (op : Op κ α) (s : State κ α) : State κ α := ⟨op.slots s.slots, s.log ++ [op.entry]⟩

def applyAll (ops : List (Op κ α)) (s : State κ α) : State κ α :=
  ops.foldl (fun s op => op.apply s) s

variable [DecidableEq ι] (name : α → ι)

/-- New items have new names; of others only what the slot holds is told. -/
def Allowed (s : State κ α) : Op κ α → Prop
  | .start _ item | .once item => history name (name item) s.log = []
  | .update slot item | .finish slot item => s.slots slot = some item
  | .barrier => True

/-- No item is put in the place of an open one. -/
def Vacant (s : State κ α) : Op κ α → Prop
  | .start slot _ => s.slots slot = none
  | _ => True

/-- Each is allowed where it is applied. -/
def AllowedAll : List (Op κ α) → State κ α → Prop
  | [], _ => True
  | op :: ops, s => op.Allowed name s ∧ AllowedAll ops (op.apply s)

def VacantAll : List (Op κ α) → State κ α → Prop
  | [], _ => True
  | op :: ops, s => op.Vacant s ∧ VacantAll ops (op.apply s)

end Op

section Sound

variable [DecidableEq ι] (name : α → ι)

structure Sound (s : State κ α) : Prop where
  lawful : Lawful name s.log
  open_history : ∀ {slot item}, s.slots slot = some item →
    ∃ updates, history name (name item) s.log =
      .started item :: List.replicate updates (.updated item)
  injective : ∀ {slot slot' item item'}, s.slots slot = some item → s.slots slot' = some item' →
    name item = name item' → slot = slot'

/-- Open items are in slots. -/
def Tight (s : State κ α) : Prop :=
  ∀ item updates, history name (name item) s.log =
    .started item :: List.replicate updates (.updated item) → ∃ slot, s.slots slot = some item

variable {name} {s : State κ α} {log : List (Entry α)} {entry : Entry α} {item : α}

theorem Lawful.append (h : Lawful name log) (hitem : entry.item? = some item)
    (hself : IsHistory item (history name (name item) log ++ [entry])) :
    Lawful name (log ++ [entry]) := by
  intro i
  by_cases hi : name item = i
  · subst hi
    rw [history_append_self hitem]
    exact .inr ⟨item, hself⟩
  · rw [history_append_other hitem hi]
    exact h i

/-- Items that slots hold keep what is told of them, as long as it is told of other items. -/
theorem Sound.open_append (h : Sound name s) {slot : κ} {held : α} (hslot : s.slots slot = some held)
    (hitem : entry.item? = some item) (hne : name item ≠ name held) :
    ∃ updates, history name (name held) (s.log ++ [entry]) =
      .started held :: List.replicate updates (.updated held) := by
  rw [history_append_other hitem hne]
  exact h.open_history hslot

theorem Sound.name_ne (h : Sound name s) {slot : κ} {held : α} (hslot : s.slots slot = some held)
    (hnew : history name (name item) s.log = []) : name item ≠ name held := by
  intro heq
  obtain ⟨updates, hhistory⟩ := h.open_history hslot
  rw [← heq, hnew] at hhistory
  cases hhistory

theorem Sound.not_allCompleted (h : Sound name s) {slot : κ} (hslot : s.slots slot = some item) :
    ¬ AllCompleted s.log := by
  intro hall
  obtain ⟨updates, hhistory⟩ := h.open_history hslot
  have hstarted : Entry.started item ∈ s.log := by
    rw [← mem_history name rfl, hhistory]
    exact mem_cons_self
  have hcompleted := hall item (.inl hstarted)
  rw [← mem_history name rfl, hhistory] at hcompleted
  simp at hcompleted

theorem Sound.allCompleted (h : Sound name s) (ht : Tight name s)
    (hempty : ∀ slot, s.slots slot = none) : AllCompleted s.log := by
  intro item hopened
  have hmem : Entry.started item ∈ history name (name item) s.log ∨
      .updated item ∈ history name (name item) s.log :=
    hopened.imp (mem_history name rfl).2 (mem_history name rfl).2
  rw [← mem_history name rfl]
  rcases h.lawful (name item) with hnil | ⟨item', hhistory⟩
  · simp [hnil] at hmem
  · generalize hl : history name (name item) s.log = l at hmem hhistory
    cases hhistory with
    | once => simp at hmem
    | running updates =>
      have hsame : item = item' ∨ ¬updates = 0 ∧ item = item' := by simpa using hmem
      obtain rfl : item = item' := hsame.elim id And.right
      obtain ⟨slot, hslot⟩ := ht item updates hl
      rw [hempty slot] at hslot
      cases hslot
    | finished updates =>
      have hsame : item = item' ∨ ¬updates = 0 ∧ item = item' := by simpa using hmem
      obtain rfl : item = item' := hsame.elim id And.right
      simp

variable [DecidableEq κ]

theorem Sound.apply {op : Op κ α} (h : Sound name s) (hop : op.Allowed name s) :
    Sound name (op.apply s) := by
  cases op with
  | barrier =>
    refine ⟨fun i => ?_, fun hslot => ?_, h.injective⟩
    · rw [Op.apply, Op.entry, history_append_barrier]
      exact h.lawful i
    · rw [Op.apply, Op.entry, history_append_barrier]
      exact h.open_history hslot
  | once item =>
    have hnew : history name (name item) s.log = [] := hop
    refine ⟨h.lawful.append rfl ?_, fun hslot => ?_, h.injective⟩
    · rw [hnew]
      exact .once
    · exact h.open_append hslot rfl (h.name_ne hslot hnew)
  | start slot item =>
    have hnew : history name (name item) s.log = [] := hop
    refine ⟨h.lawful.append rfl ?_, fun {slot' held} hslot => ?_,
      fun {slot₁ slot₂ held₁ held₂} h₁ h₂ heq => ?_⟩
    · rw [hnew]
      exact .running 0
    · simp only [Op.apply, Op.slots] at hslot
      by_cases hself : slot' = slot
      · obtain rfl : item = held := by simpa [hself] using hslot
        exact ⟨0, by rw [Op.apply, history_append_self rfl, hnew]; rfl⟩
      · rw [Function.update_of_ne hself] at hslot
        exact h.open_append hslot rfl (h.name_ne hslot hnew)
    · simp only [Op.apply, Op.slots] at h₁ h₂
      by_cases hself₁ : slot₁ = slot <;> by_cases hself₂ : slot₂ = slot
      · rw [hself₁, hself₂]
      · obtain rfl : item = held₁ := by simpa [hself₁] using h₁
        rw [Function.update_of_ne hself₂] at h₂
        exact absurd heq (h.name_ne h₂ hnew)
      · obtain rfl : item = held₂ := by simpa [hself₂] using h₂
        rw [Function.update_of_ne hself₁] at h₁
        exact absurd heq.symm (h.name_ne h₁ hnew)
      · rw [Function.update_of_ne hself₁] at h₁
        rw [Function.update_of_ne hself₂] at h₂
        exact h.injective h₁ h₂ heq
  | update slot item =>
    have hheld : s.slots slot = some item := hop
    obtain ⟨updates, hhistory⟩ := h.open_history hheld
    have hmore : history name (name item) s.log ++ [.updated item] =
        .started item :: List.replicate (updates + 1) (.updated item) := by
      rw [hhistory, cons_append, replicate_succ']
    refine ⟨h.lawful.append rfl ?_, fun {slot' held} hslot => ?_, h.injective⟩
    · rw [Op.entry, hmore]
      exact .running _
    · by_cases heq : name item = name held
      · obtain rfl : slot = slot' := h.injective hheld hslot heq
        obtain rfl : item = held := Option.some.inj (hheld.symm.trans hslot)
        exact ⟨updates + 1, by rw [Op.apply, Op.entry, history_append_self rfl, hmore]⟩
      · exact h.open_append hslot rfl heq
  | finish slot item =>
    have hheld : s.slots slot = some item := hop
    obtain ⟨updates, hhistory⟩ := h.open_history hheld
    have hothers {slot' : κ} {held : α}
        (hslot : Function.update s.slots slot none slot' = some held) :
        slot' ≠ slot ∧ s.slots slot' = some held := by
      by_cases hself : slot' = slot
      · simp [hself] at hslot
      · rw [Function.update_of_ne hself] at hslot
        exact ⟨hself, hslot⟩
    refine ⟨h.lawful.append rfl ?_, fun {slot' held} hslot => ?_,
      fun {slot₁ slot₂ held₁ held₂} h₁ h₂ heq => h.injective (hothers h₁).2 (hothers h₂).2 heq⟩
    · rw [hhistory]
      exact .finished updates
    · obtain ⟨hself, hslot⟩ := hothers hslot
      exact h.open_append hslot rfl fun heq => hself (h.injective hheld hslot heq).symm

theorem Tight.apply {op : Op κ α} (ht : Tight name s) (h : Sound name s) (hop : op.Allowed name s)
    (hvacant : op.Vacant s) : Tight name (op.apply s) := by
  intro held updates hhistory
  have hkept {item : α} (hitem : op.entry.item? = some item) (hne : name item ≠ name held) :
      ∃ slot, s.slots slot = some held := by
    rw [Op.apply, history_append_other hitem hne] at hhistory
    exact ht held updates hhistory
  have hself {item : α} (hitem : op.entry.item? = some item) (heq : name item = name held) :
      history name (name item) s.log ++ [op.entry] =
        .started held :: List.replicate updates (.updated held) := by
    rw [← history_append_self hitem, heq]
    exact hhistory
  cases op with
  | barrier =>
    rw [Op.apply, Op.entry, history_append_barrier] at hhistory
    exact ht held updates hhistory
  | once item =>
    by_cases heq : name item = name held
    · have hnew : history name (name item) s.log = [] := hop
      have := hself rfl heq
      rw [hnew] at this
      cases this
    · exact hkept rfl heq
  | start slot item =>
    by_cases heq : name item = name held
    · have hnew : history name (name item) s.log = [] := hop
      have := hself rfl heq
      rw [hnew] at this
      obtain rfl : item = held := Entry.started.inj (List.cons.inj this).1
      exact ⟨slot, Function.update_self ..⟩
    · obtain ⟨slot', hslot⟩ := hkept rfl heq
      have hvacant : s.slots slot = none := hvacant
      have hne : slot' ≠ slot := by
        rintro rfl
        rw [hvacant] at hslot
        cases hslot
      exact ⟨slot', (Function.update_of_ne hne ..).trans hslot⟩
  | update slot item =>
    by_cases heq : name item = name held
    · have hheld : s.slots slot = some item := hop
      obtain ⟨n, hold⟩ := h.open_history hheld
      have := hself rfl heq
      rw [hold] at this
      obtain rfl : item = held := Entry.started.inj (List.cons.inj this).1
      exact ⟨slot, hheld⟩
    · exact hkept rfl heq
  | finish slot item =>
    have hheld : s.slots slot = some item := hop
    by_cases heq : name item = name held
    · obtain ⟨n, hold⟩ := h.open_history hheld
      have hmem := hself rfl heq
      have hcompleted : Entry.completed item ∈ .started held :: List.replicate updates (.updated held) := by
        rw [← hmem]
        exact mem_append_right _ (mem_singleton.2 rfl)
      simp at hcompleted
    · obtain ⟨slot', hslot⟩ := hkept rfl heq
      have hne : slot' ≠ slot := by
        rintro rfl
        exact heq (congrArg name (Option.some.inj (hheld.symm.trans hslot)))
      exact ⟨slot', (Function.update_of_ne hne ..).trans hslot⟩

theorem Sound.applyAll {ops : List (Op κ α)} (h : Sound name s) (hops : Op.AllowedAll name ops s) :
    Sound name (Op.applyAll ops s) := by
  induction ops generalizing s with
  | nil => exact h
  | cons op ops ih => exact ih (h.apply hops.1) hops.2

theorem Tight.applyAll {ops : List (Op κ α)} (ht : Tight name s) (h : Sound name s)
    (hops : Op.AllowedAll name ops s) (hvacant : Op.VacantAll ops s) :
    Tight name (Op.applyAll ops s) := by
  induction ops generalizing s with
  | nil => exact ht
  | cons op ops ih => exact ih (ht.apply h hops.1 hvacant.1) (h.apply hops.1) hops.2 hvacant.2

/-! ## Several operations -/

theorem allowedAll_append {ops ops' : List (Op κ α)} :
    Op.AllowedAll name (ops ++ ops') s ↔
      Op.AllowedAll name ops s ∧ Op.AllowedAll name ops' (Op.applyAll ops s) := by
  induction ops generalizing s with
  | nil => simp [Op.AllowedAll, Op.applyAll]
  | cons op ops ih => rw [cons_append, Op.AllowedAll, Op.AllowedAll, ih, and_assoc]; rfl

theorem vacantAll_append {ops ops' : List (Op κ α)} :
    Op.VacantAll (ops ++ ops') s ↔ Op.VacantAll ops s ∧ Op.VacantAll ops' (Op.applyAll ops s) := by
  induction ops generalizing s with
  | nil => simp [Op.VacantAll, Op.applyAll]
  | cons op ops ih => rw [cons_append, Op.VacantAll, Op.VacantAll, ih, and_assoc]; rfl

theorem log_applyAll (ops : List (Op κ α)) (s : State κ α) :
    (Op.applyAll ops s).log = s.log ++ ops.map Op.entry := by
  induction ops generalizing s with
  | nil => exact (append_nil _).symm
  | cons op ops ih =>
    rw [Op.applyAll, foldl_cons, ← Op.applyAll, ih, Op.apply, append_assoc,
      singleton_append, map_cons]

/-- The items that several slots hold are completed. -/
def finishAll (held : List (κ × α)) : List (Op κ α) := held.map fun slot => .finish slot.1 slot.2

variable (name) in
theorem finishAll_spec {held : List (κ × α)} (hdistinct : (held.map Prod.fst).Nodup)
    (hheld : ∀ slot ∈ held, s.slots slot.1 = some slot.2) :
    Op.AllowedAll name (finishAll held) s ∧ Op.VacantAll (finishAll held) s ∧
      ∀ slot, (Op.applyAll (finishAll held) s).slots slot =
        if slot ∈ held.map Prod.fst then none else s.slots slot := by
  induction held generalizing s with
  | nil => exact ⟨trivial, trivial, fun slot => rfl⟩
  | cons first held ih =>
    obtain ⟨hfirst, hheld⟩ := forall_mem_cons.1 hheld
    obtain ⟨hnotMem, hdistinct⟩ := nodup_cons.1 hdistinct
    have hslots (slot : κ) : ((Op.finish first.1 first.2).apply s).slots slot =
        Function.update s.slots first.1 none slot := rfl
    obtain ⟨hallowed, hvacant, hrest⟩ := ih (s := (Op.finish first.1 first.2).apply s) hdistinct
      fun slot hslot => by
        have hne : slot.1 ≠ first.1 := fun heq => hnotMem (heq ▸ mem_map_of_mem hslot)
        rw [hslots, Function.update_of_ne hne]
        exact hheld slot hslot
    refine ⟨⟨hfirst, hallowed⟩, ⟨trivial, hvacant⟩, fun slot => (hrest slot).trans ?_⟩
    rw [hslots, map_cons]
    by_cases hself : slot = first.1
    · simp [hself]
    · rw [Function.update_of_ne hself]
      simp only [mem_cons, hself, false_or]

end Sound

end ItemLog
