import Mathlib.Order.MinMax

/-!
# The strictest of several verdicts

Several judges give verdicts of a linear order and the greatest one counts, with a
default where nobody judged. The outcome depends on which verdicts were given
(`max?_eq_of_mem_iff`), not on their order or number; and judging items together
is judging each and taking the greatest (`max?_flatMap`).
-/

namespace SheriMl.Strictest

open Std

variable {α β : Type*} [Max α] {d : α} {l l' : List α}

def strictest (default : α) (verdicts : List α) : α := verdicts.max?.getD default

theorem max?_of_ne_nil (d : α) (h : l ≠ []) : l.max? = some (strictest d l) := by
  cases hm : l.max? with
  | none => exact absurd (List.max?_eq_none_iff.1 hm) h
  | some a => rw [strictest, hm, Option.getD_some]

section order
variable [LE α] [IsLinearOrder α] [LawfulOrderMax α]

theorem strictest_mem (h : l ≠ []) : strictest d l ∈ l :=
  (List.max?_eq_some_iff.1 (max?_of_ne_nil d h)).1

theorem le_strictest {a : α} (h : a ∈ l) : a ≤ strictest d l :=
  (List.max?_eq_some_iff.1 (max?_of_ne_nil d (List.ne_nil_of_mem h))).2 a h

/-- The same verdicts, in whatever order and number, have the same greatest one. -/
theorem max?_eq_of_mem_iff (h : ∀ a, a ∈ l ↔ a ∈ l') : l.max? = l'.max? := by
  cases hm : l'.max? with
  | none =>
    rw [List.max?_eq_none_iff] at hm ⊢
    subst hm
    exact List.eq_nil_iff_forall_not_mem.2 fun a ha => List.not_mem_nil ((h a).1 ha)
  | some a =>
    rw [List.max?_eq_some_iff] at hm ⊢
    exact ⟨(h a).2 hm.1, fun b hb => hm.2 b ((h b).1 hb)⟩

theorem strictest_eq_of_mem_iff (h : ∀ a, a ∈ l ↔ a ∈ l') : strictest d l = strictest d l' := by
  rw [strictest, max?_eq_of_mem_iff h, strictest]

/-- When every item is judged, the greatest verdict on all is the greatest of the
items' greatest. -/
theorem max?_flatMap {items : List β} {f : β → List α} (default : β → α)
    (hf : ∀ b ∈ items, f b ≠ []) :
    (items.flatMap f).max? = (items.map fun b => strictest (default b) (f b)).max? := by
  cases hm : (items.map fun b => strictest (default b) (f b)).max? with
  | none =>
    rw [List.max?_eq_none_iff, List.map_eq_nil_iff] at hm
    rw [hm, List.flatMap_nil, List.max?_nil]
  | some a =>
    rw [List.max?_eq_some_iff] at hm ⊢
    obtain ⟨b, hb, rfl⟩ := List.mem_map.1 hm.1
    refine ⟨List.mem_flatMap.2 ⟨b, hb, strictest_mem (hf b hb)⟩, fun c hc => ?_⟩
    obtain ⟨b', hb', hcb⟩ := List.mem_flatMap.1 hc
    exact le_trans (le_strictest hcb) (hm.2 _ (List.mem_map.2 ⟨b', hb', rfl⟩))

end order

end SheriMl.Strictest
