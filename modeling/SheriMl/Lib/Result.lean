import Mathlib.Data.List.Basic

/-!
# Results

What a fallible computation that succeeds went through; and computations that may also panic,
whose indices and slices are checked and whose loops run on fuel (`Checked`): they may fail with an
error of their own, stop at an index out of range, or be stuck in a loop, and `Checked.Ends` says
that they do neither of the last two.
-/

namespace Result

variable {ε α β : Type} {e : Except ε α} {a : α} {b : β}

theorem exists_of_map_eq_ok {f : α → β} (h : e.map f = .ok b) : ∃ a, e = .ok a ∧ b = f a := by
  cases e with
  | error e => cases h
  | ok a =>
    cases h
    exact ⟨a, rfl, rfl⟩

theorem ok_bind (a : α) (f : α → Except ε β) : (Except.ok a >>= f) = f a := rfl

theorem exists_of_bind_eq_ok {f : α → Except ε β} (h : e >>= f = .ok b) :
    ∃ a, e = .ok a ∧ f a = .ok b := by
  cases e with
  | error e => cases h
  | ok a => exact ⟨a, rfl, h⟩

theorem bind_eq_ok_iff {f : α → Except ε β} :
    (e >>= f) = .ok b ↔ ∃ a, e = .ok a ∧ f a = .ok b := by
  constructor
  · exact exists_of_bind_eq_ok
  · rintro ⟨a, rfl, h⟩
    exact h

theorem map_eq_error_iff {f : α → β} {x : ε} : e.map f = .error x ↔ e = .error x := by
  cases e with
  | error x' =>
    rw [Except.map]
    exact ⟨fun h => by cases h; rfl, fun h => by cases h; rfl⟩
  | ok a => exact ⟨nofun, nofun⟩

theorem toOption_eq_some : e.toOption = some a ↔ e = .ok a := by
  cases e with
  | error e => simp [Except.toOption]
  | ok a' => simp [Except.toOption]

/-- A list maps without failure to what each of its elements maps to. -/
theorem mapM_eq_some_map_iff {f : α → Option β} {g : α → β} {l : List α} :
    l.mapM f = some (l.map g) ↔ ∀ a ∈ l, f a = some (g a) := by
  induction l with
  | nil => simp
  | cons a l ih =>
    rw [List.mapM_cons, List.map_cons, List.forall_mem_cons, ← ih]
    cases hf : f a with
    | none => simp
    | some b => cases hm : l.mapM f <;> simp

end Result

namespace Checked

universe u v w

/-- How a computation ends without a result. -/
inductive Stop (ε : Type u) where
  | outOfRange
  | stuck
  | fails (e : ε)
  deriving DecidableEq

/-- The code's own errors. -/
def lift {ε : Type u} {α : Type v} : Except ε α → Except (Stop ε) α
  | .ok a => .ok a
  | .error e => .error (.fails e)

section

variable {ε : Type u} {α β : Type v} {l : List α} {a b n : Nat}

/-- `l[n]` -/
def index (l : List α) (n : Nat) : Except (Stop ε) α :=
  match l[n]? with
  | some a => .ok a
  | none => .error .outOfRange

/-- `&l[a..b]` -/
def sliceRange (l : List α) (a b : Nat) : Except (Stop ε) (List α) :=
  if a ≤ b ∧ b ≤ l.length then .ok ((l.take b).drop a) else .error .outOfRange

/-- `&l[a..]` -/
def sliceFrom (l : List α) (a : Nat) : Except (Stop ε) (List α) :=
  if a ≤ l.length then .ok (l.drop a) else .error .outOfRange

/-- With a result, or with an error of the code's own. -/
def Ends (r : Except (Stop ε) α) : Prop := ∃ r', r = lift r'

@[simp] theorem lift_ok (x : α) : lift (.ok x : Except ε α) = .ok x := rfl

@[simp] theorem lift_error (e : ε) : lift (.error e : Except ε α) = .error (.fails e) := rfl

theorem ends_lift (r : Except ε α) : Ends (lift r) := ⟨r, rfl⟩

theorem lift_eq_ok {r : Except ε α} {x : α} : lift r = .ok x ↔ r = .ok x := by
  cases r with
  | ok y => simp
  | error e => simp

theorem lift_bind (r : Except ε α) (f : α → Except ε β) :
    lift (r >>= f) = lift r >>= fun x => lift (f x) := by
  cases r <;> rfl

/-- A computation ends if its first part does, and what follows a result of it. -/
theorem Ends.bind {r : Except (Stop ε) α} {f : α → Except (Stop ε) β} (h : Ends r)
    (hf : ∀ x, r = .ok x → Ends (f x)) : Ends (r >>= f) := by
  obtain ⟨r', rfl⟩ := h
  cases r' with
  | ok x => exact hf x rfl
  | error e => exact ⟨.error e, rfl⟩

theorem ends_ok (x : α) : Ends (.ok x : Except (Stop ε) α) := ⟨.ok x, rfl⟩

theorem ends_fails (e : ε) : Ends (.error (.fails e) : Except (Stop ε) α) := ⟨.error e, rfl⟩

theorem index_cons_zero (x : α) (l : List α) : (index (x :: l) 0 : Except (Stop ε) α) = .ok x := rfl

theorem sliceRange_eq (hab : a ≤ b) (hb : b ≤ l.length) :
    (sliceRange l a b : Except (Stop ε) (List α)) = .ok ((l.take b).drop a) := if_pos ⟨hab, hb⟩

theorem sliceFrom_eq (h : a ≤ l.length) :
    (sliceFrom l a : Except (Stop ε) (List α)) = .ok (l.drop a) := if_pos h

theorem sliceFrom_one_cons (x : α) (l : List α) :
    (sliceFrom (x :: l) 1 : Except (Stop ε) (List α)) = .ok l := sliceFrom_eq (Nat.le_add_left 1 _)

end

end Checked
