import Mathlib.Data.List.Basic

/-!
# Bounded buffers and what becomes of their entries

A buffer that keeps the newest `cap` entries and is emptied by its readers. A log
of events accounts for it when every entry that arrived has left, in order, or is
still there, and entries were evicted only to bring the buffer down to its cap
(`Accounts`).
-/

namespace Fifo

open List

universe u

variable {α : Type u}

/-- Removes the oldest entries while there are more than `cap`: what goes and what is kept. -/
def trim (cap : Nat) : List α → List α × List α
  | [] => ([], [])
  | a :: buffer =>
    if cap < buffer.length + 1 then (a :: (trim cap buffer).1, (trim cap buffer).2)
    else ([], a :: buffer)

inductive Event (α : Type u) where
  | pushed (entry : α) (evicted kept : List α)
  | drained (entries : List α)
  | quiet

namespace Event

def arrivals : Event α → List α
  | pushed entry _ _ => [entry]
  | drained _ => []
  | quiet => []

def departures : Event α → List α
  | pushed _ evicted _ => evicted
  | drained entries => entries
  | quiet => []

def ofPush (cap : Nat) (buffer : List α) (entry : α) : Event α :=
  pushed entry (trim cap (buffer ++ [entry])).1 (trim cap (buffer ++ [entry])).2

end Event

/-- Every entry in the order of arrival. -/
def arrivals (events : List (Event α)) : List α := events.flatMap Event.arrivals

/-- Every entry that was drained or evicted, in that order. -/
def departures (events : List (Event α)) : List α := events.flatMap Event.departures

/-- The events account for what the buffer holds and for the count of arrivals. -/
structure Accounts (cap : Nat) (events : List (Event α)) (buffer : List α) (count : Nat) :
    Prop where
  fifo : arrivals events = departures events ++ buffer
  count : count = (arrivals events).length
  /-- Where entries were evicted, the buffer is left full. -/
  evicted : ∀ entry gone kept, .pushed entry gone kept ∈ events → gone = [] ∨ kept.length = cap

theorem trim_append (cap : Nat) (buffer : List α) :
    (trim cap buffer).1 ++ (trim cap buffer).2 = buffer := by
  induction buffer with
  | nil => rfl
  | cons a buffer ih =>
    unfold trim
    split
    · rw [cons_append, ih]
    · rfl

theorem length_trim (cap : Nat) (buffer : List α) :
    (trim cap buffer).2.length = min cap buffer.length := by
  induction buffer with
  | nil => simp [trim]
  | cons a buffer ih =>
    unfold trim
    split
    · rw [ih, length_cons]
      omega
    · rw [length_cons]
      omega

theorem trim_cases (cap : Nat) (buffer : List α) :
    (trim cap buffer).1 = [] ∨ (trim cap buffer).2.length = cap := by
  cases hgone : (trim cap buffer).1 with
  | nil => exact .inl rfl
  | cons a gone =>
    right
    have happend := congrArg List.length (trim_append cap buffer)
    have hlength := length_trim cap buffer
    rw [length_append, hgone, length_cons] at happend
    omega

namespace Accounts

variable {cap count count' : Nat} {events : List (Event α)} {buffer buffer' : List α}

theorem nil : Accounts cap ([] : List (Event α)) [] 0 := by
  refine ⟨rfl, rfl, ?_⟩
  intro entry gone kept h
  cases h

theorem evicted_snoc {e : Event α} (h : Accounts cap events buffer count)
    (he : ∀ entry gone kept, e = .pushed entry gone kept → gone = [] ∨ kept.length = cap) :
    ∀ entry gone kept, .pushed entry gone kept ∈ events ++ [e] →
      gone = [] ∨ kept.length = cap := by
  intro entry gone kept hmem
  rcases mem_append.1 hmem with hmem | hmem
  · exact h.evicted entry gone kept hmem
  · exact he entry gone kept (mem_singleton.1 hmem).symm

theorem push (h : Accounts cap events buffer count) (entry : α) :
    Accounts cap (events ++ [.ofPush cap buffer entry]) (trim cap (buffer ++ [entry])).2
      (count + 1) := by
  refine ⟨?_, ?_, ?_⟩
  · have hfifo := h.fifo
    simp only [arrivals, departures, flatMap_append, flatMap_singleton] at hfifo ⊢
    rw [hfifo, append_assoc, append_assoc]
    exact congrArg _ (trim_append cap (buffer ++ [entry])).symm
  · have hcount := h.count
    simp only [arrivals, flatMap_append, flatMap_singleton, length_append]
      at hcount ⊢
    rw [hcount]
    rfl
  · apply h.evicted_snoc
    rintro entry gone kept ⟨⟩
    exact trim_cases cap _

theorem drain (h : Accounts cap events buffer count) :
    Accounts cap (events ++ [.drained buffer]) [] count := by
  refine ⟨?_, ?_, ?_⟩
  · have hfifo := h.fifo
    simp only [arrivals, departures, flatMap_append, flatMap_singleton] at hfifo ⊢
    rw [hfifo, append_nil]
    exact append_nil _
  · have hcount := h.count
    simp only [arrivals, flatMap_append, flatMap_singleton] at hcount ⊢
    rw [hcount]
    exact congrArg _ (append_nil _).symm
  · apply h.evicted_snoc
    intro entry gone kept he
    cases he

/-- Nothing else may change the buffer or the count. -/
theorem quiet_iff (h : Accounts cap events buffer count) :
    Accounts cap (events ++ [.quiet]) buffer' count' ↔ buffer' = buffer ∧ count' = count := by
  have harrivals : arrivals (events ++ [.quiet]) = arrivals events := by
    simp only [arrivals, flatMap_append, flatMap_singleton]
    exact append_nil _
  have hdepartures : departures (events ++ [.quiet]) = departures events := by
    simp only [departures, flatMap_append, flatMap_singleton]
    exact append_nil _
  constructor
  · intro h'
    have hfifo := h'.fifo
    rw [harrivals, hdepartures, h.fifo] at hfifo
    refine ⟨(append_cancel_left hfifo).symm, ?_⟩
    rw [h'.count, h.count, harrivals]
  · rintro ⟨rfl, rfl⟩
    refine ⟨?_, ?_, ?_⟩
    · rw [harrivals, hdepartures, h.fifo]
    · rw [harrivals, h.count]
    · apply h.evicted_snoc
      intro entry gone kept he
      cases he

end Accounts

end Fifo
