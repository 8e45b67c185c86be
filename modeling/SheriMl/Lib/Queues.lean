import Mathlib.Data.List.Induction
import Mathlib.Logic.Function.Basic

/-!
# Queues by key

A list of entries as one queue for each key, from which the entries of a key are taken in their
order.
-/

namespace Queues

universe u v

variable {κ : Type u} {α : Type v} [DecidableEq κ]

/-- Each entry at the end of the queue of its key. -/
def ofList (entries : List (κ × α)) : κ → List α :=
  entries.foldl (fun queues e => Function.update queues e.1 (queues e.1 ++ [e.2])) fun _ => []

theorem ofList_apply (entries : List (κ × α)) (key : κ) :
    ofList entries key = (entries.filter fun e => e.1 = key).map Prod.snd := by
  induction entries using List.reverseRecOn with
  | nil => rfl
  | append_singleton entries e ih =>
    rw [ofList, List.foldl_append, ← ofList, List.filter_append, List.map_append, ← ih]
    by_cases hkey : e.1 = key
    · subst hkey
      simp
    · simp [Function.update_of_ne (Ne.symm hkey), hkey]

/-- Where the keys are distinct a queue has at most the entry that is found. -/
theorem ofList_eq_lookup [BEq κ] [LawfulBEq κ] {entries : List (κ × α)}
    (h : (entries.map Prod.fst).Nodup) (key : κ) :
    ofList entries key = (entries.lookup key).toList := by
  rw [ofList_apply]
  induction entries with
  | nil => rfl
  | cons e entries ih =>
    obtain ⟨k, a⟩ := e
    obtain ⟨hnot, htail⟩ := List.nodup_cons.1 h
    by_cases hkey : k = key
    · subst hkey
      have hnone : entries.filter (fun e => e.1 = k) = [] := by
        rw [List.filter_eq_nil_iff]
        intro e he heq
        exact hnot (List.mem_map.2 ⟨e, he, of_decide_eq_true heq⟩)
      rw [List.filter_cons_of_pos (by simp), hnone, List.lookup_cons_self]
      rfl
    · rw [List.filter_cons_of_neg (by simpa using hkey), List.lookup_cons, ih htail]
      have hbeq : (key == k) = false := beq_false_of_ne (Ne.symm hkey)
      rw [hbeq]

end Queues
