import Mathlib.Data.List.Basic

/-!
# Lists with rollbacks

A list grown by entries and shortened by rollbacks of its last `n` entries. Entries
may also come in groups, of which a rollback drops the last `n`: the two agree just
when these groups hold the last `n` entries (`rollback_flatMap_iff`).
-/

namespace Undo

universe u v

variable {κ : Type u} {α : Type v}

inductive Step (κ : Type u) where
  | entry (a : κ)
  | rollback (numEntries : Nat)
  deriving DecidableEq

def Step.isRollback : Step κ → Bool
  | entry _ => false
  | rollback _ => true

/-- Without the last `n` entries, or without any. -/
def dropLast (entries : List κ) (n : Nat) : List κ := entries.take (entries.length - n)

def apply (entries : List κ) : Step κ → List κ
  | .entry a => entries ++ [a]
  | .rollback n => dropLast entries n

def run (steps : List (Step κ)) : List κ := steps.foldl apply []

theorem run_concat (steps : List (Step κ)) (step : Step κ) :
    run (steps ++ [step]) = apply (run steps) step := by
  rw [run, List.foldl_append]
  rfl

/-- Two ways to split a list at rollbacks of the same number are one. -/
theorem split_unique {a b x y : List (Step κ)} {n m : Nat}
    (h : a ++ .rollback n :: x = b ++ .rollback m :: y)
    (hcount : a.countP Step.isRollback = b.countP Step.isRollback) : a = b := by
  induction a generalizing b with
  | nil =>
    cases b with
    | nil => rfl
    | cons s b =>
      obtain ⟨rfl, -⟩ := List.cons.inj h
      rw [List.countP_cons_of_pos rfl] at hcount
      cases hcount
  | cons s a ih =>
    cases b with
    | nil =>
      obtain ⟨rfl, -⟩ := List.cons.inj h
      rw [List.countP_cons_of_pos rfl] at hcount
      cases hcount
    | cons t b =>
      obtain ⟨rfl, hrest⟩ := List.cons.inj h
      rw [List.countP_cons, List.countP_cons] at hcount
      rw [ih hrest (Nat.add_right_cancel hcount)]

/-- Dropping groups drops as many entries just if the groups dropped hold that many, or all. -/
theorem rollback_flatMap_iff (f : α → List κ) (groups : List α) (n : Nat) :
    (dropLast groups n).flatMap f = dropLast (groups.flatMap f) n ↔
      ((groups.drop (groups.length - n)).flatMap f).length = min n (groups.flatMap f).length := by
  have hsplit : groups.flatMap f = (dropLast groups n).flatMap f ++
      (groups.drop (groups.length - n)).flatMap f := by
    rw [dropLast, ← List.flatMap_append, List.take_append_drop]
  generalize (dropLast groups n).flatMap f = kept at hsplit ⊢
  generalize (groups.drop (groups.length - n)).flatMap f = dropped at hsplit ⊢
  rw [hsplit, dropLast, List.length_append]
  constructor
  · intro h
    have hlength := congrArg List.length h
    rw [List.length_take, List.length_append] at hlength
    omega
  · intro h
    have hkept : kept.length + dropped.length - n = kept.length := by omega
    rw [hkept, List.take_left]

end Undo
