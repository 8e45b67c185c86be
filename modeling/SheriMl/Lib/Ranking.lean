import Mathlib.Order.Lattice
import Mathlib.Order.OrderDual

/-!
# The greatest of a list, and the least of the others

A list is parted at a number of its greatest entries by some key, equal keys falling
on either side (`IsTop`). Sorting does it (`isTop_mergeSort`), and the first entry of
a sorted list that passes a test is a least one of those that do
(`find?_mergeSort_eq_some`).
-/

namespace SheriMl.Ranking

open List

variable {α κ : Type*} [LinearOrder κ] {key : α → κ} {n : Nat} {l top rest : List α} {a : α}

/-- `top` holds `n` entries, or all of fewer, and no other entry is greater than one of them. -/
structure IsTop (n : Nat) (key : α → κ) (l top rest : List α) : Prop where
  perm : (top ++ rest).Perm l
  length_eq : top.length = min n l.length
  le : ∀ a ∈ top, ∀ b ∈ rest, key b ≤ key a

theorem pairwise_ascending (key : α → κ) (l : List α) :
    (l.mergeSort fun a b => decide (key a ≤ key b)).Pairwise fun a b => key a ≤ key b := by
  refine (pairwise_mergeSort ?_ ?_ l).imp fun h => of_decide_eq_true h
  · intro a b c hab hbc
    exact decide_eq_true (le_trans (of_decide_eq_true hab) (of_decide_eq_true hbc))
  · intro a b
    rw [Bool.or_eq_true, decide_eq_true_eq, decide_eq_true_eq]
    exact le_total _ _

theorem pairwise_descending (key : α → κ) (l : List α) :
    (l.mergeSort fun a b => decide (key b ≤ key a)).Pairwise fun a b => key b ≤ key a :=
  pairwise_ascending (fun a => OrderDual.toDual (key a)) l

theorem isTop_mergeSort (n : Nat) (key : α → κ) (l : List α) : IsTop n key l
    ((l.mergeSort fun a b => decide (key b ≤ key a)).take n)
    ((l.mergeSort fun a b => decide (key b ≤ key a)).drop n) := by
  have hsorted := pairwise_descending key l
  rw [← take_append_drop n (l.mergeSort _), pairwise_append] at hsorted
  refine ⟨?_, ?_, hsorted.2.2⟩
  · rw [take_append_drop]
    exact mergeSort_perm l _
  · rw [length_take, length_mergeSort]

theorem IsTop.rest_eq_nil_iff (h : IsTop n key l top rest) : rest = [] ↔ l.length ≤ n := by
  have hperm := h.perm.length_eq
  rw [length_append, h.length_eq] at hperm
  rw [← length_eq_zero_iff]
  omega

/-- The first entry of the sorted list that passes a test is least among those that do. -/
theorem find?_mergeSort_eq_some {p : α → Bool}
    (h : (l.mergeSort fun a b => decide (key a ≤ key b)).find? p = some a) :
    a ∈ l ∧ p a = true ∧ ∀ b ∈ l, p b = true → key a ≤ key b := by
  have hsorted := pairwise_ascending key l
  obtain ⟨hp, before, after, hl, hbefore⟩ := List.find?_eq_some_iff_append.1 h
  rw [hl, pairwise_append, pairwise_cons] at hsorted
  refine ⟨mem_mergeSort.1 (mem_of_find?_eq_some h), hp, fun b hb hpb => ?_⟩
  have hmem : b ∈ l.mergeSort fun a b => decide (key a ≤ key b) := mem_mergeSort.2 hb
  rw [hl, mem_append, mem_cons] at hmem
  rcases hmem with hb | rfl | hb
  · have hno := hbefore b hb
    rw [hpb] at hno
    cases hno
  · exact le_refl _
  · exact hsorted.2.1.1 b hb

theorem find?_mergeSort_eq_none {p : α → Bool} :
    (l.mergeSort fun a b => decide (key a ≤ key b)).find? p = none ↔ ∀ b ∈ l, p b = false := by
  rw [List.find?_eq_none]
  simp only [mem_mergeSort, Bool.not_eq_true]

end SheriMl.Ranking
