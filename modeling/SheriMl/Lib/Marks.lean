import Mathlib.Data.List.Basic

/-!
# Lists with marks

Some items of a list are marked (`p`). `before p k l` is what comes before the mark
number `k`, counted from 0, or the whole list when it has no more than `k` marks.
-/

namespace Marks

open List

universe u v

variable {α : Type u} {β : Type v}

def before (p : α → Bool) : Nat → List α → List α
  | _, [] => []
  | 0, a :: l => if p a then [] else a :: before p 0 l
  | k + 1, a :: l => if p a then a :: before p k l else a :: before p (k + 1) l

variable {p : α → Bool} {k j : Nat} {a : α} {l m : List α}

theorem before_cons_of_not (h : p a = false) : before p k (a :: l) = a :: before p k l := by
  have hneg : ¬ p a = true := by
    rw [h]
    exact Bool.false_ne_true
  cases k with
  | zero => rw [before, if_neg hneg]
  | succ k => rw [before, if_neg hneg]

theorem before_zero_cons_of (h : p a = true) : before p 0 (a :: l) = [] := by
  rw [before, if_pos h]

theorem before_succ_cons_of (h : p a = true) :
    before p (k + 1) (a :: l) = a :: before p k l := by
  rw [before, if_pos h]

theorem before_of_countP_le (h : l.countP p ≤ k) : before p k l = l := by
  induction l generalizing k with
  | nil => rfl
  | cons a l ih =>
    cases hp : p a with
    | false =>
      rw [countP_cons_of_neg (by rw [hp]; exact Bool.false_ne_true)] at h
      rw [before_cons_of_not hp, ih h]
    | true =>
      rw [countP_cons_of_pos hp] at h
      cases k with
      | zero => omega
      | succ k => rw [before_succ_cons_of hp, ih (by omega)]

theorem countP_before (p : α → Bool) (k : Nat) (l : List α) :
    (before p k l).countP p = min k (l.countP p) := by
  induction l generalizing k with
  | nil => simp [before]
  | cons a l ih =>
    cases hp : p a with
    | false =>
      have hneg : ¬ p a = true := by rw [hp]; exact Bool.false_ne_true
      rw [before_cons_of_not hp, countP_cons_of_neg hneg, countP_cons_of_neg hneg, ih]
    | true =>
      rw [countP_cons_of_pos hp]
      cases k with
      | zero =>
        rw [before_zero_cons_of hp]
        simp
      | succ k =>
        rw [before_succ_cons_of hp, countP_cons_of_pos hp, ih]
        omega

/-- A cut before a mark of the first part does not see the second. -/
theorem before_append_of_lt (h : k < l.countP p) : before p k (l ++ m) = before p k l := by
  induction l generalizing k with
  | nil => exact absurd h (Nat.not_lt_zero k)
  | cons a l ih =>
    rw [cons_append]
    cases hp : p a with
    | false =>
      rw [countP_cons_of_neg (by rw [hp]; exact Bool.false_ne_true)] at h
      rw [before_cons_of_not hp, before_cons_of_not hp, ih h]
    | true =>
      rw [countP_cons_of_pos hp] at h
      cases k with
      | zero => rw [before_zero_cons_of hp, before_zero_cons_of hp]
      | succ k => rw [before_succ_cons_of hp, before_succ_cons_of hp, ih (by omega)]

/-- A cut behind the marks of the first part keeps it. -/
theorem before_append_of_le (h : l.countP p ≤ k) :
    before p k (l ++ m) = l ++ before p (k - l.countP p) m := by
  induction l generalizing k with
  | nil => rfl
  | cons a l ih =>
    rw [cons_append]
    cases hp : p a with
    | false =>
      have hneg : ¬ p a = true := by rw [hp]; exact Bool.false_ne_true
      rw [countP_cons_of_neg hneg] at h
      rw [before_cons_of_not hp, ih h, countP_cons_of_neg hneg, cons_append]
    | true =>
      rw [countP_cons_of_pos hp] at h
      cases k with
      | zero => omega
      | succ k =>
        rw [before_succ_cons_of hp, ih (by omega), countP_cons_of_pos hp,
          Nat.add_sub_add_right, cons_append]

/-- A list is cut at its last mark. -/
theorem before_concat_of (h : p a = true) : before p (l.countP p) (l ++ [a]) = l := by
  rw [before_append_of_le (Nat.le_refl _), Nat.sub_self, before_zero_cons_of h, append_nil]

theorem before_before (p : α → Bool) (k j : Nat) (l : List α) :
    before p k (before p j l) = before p (min k j) l := by
  induction l generalizing k j with
  | nil => simp [before]
  | cons a l ih =>
    cases hp : p a with
    | false => rw [before_cons_of_not hp, before_cons_of_not hp, before_cons_of_not hp, ih]
    | true =>
      cases j with
      | zero =>
        rw [before_zero_cons_of hp, Nat.min_zero, before_zero_cons_of hp]
        rfl
      | succ j =>
        rw [before_succ_cons_of hp]
        cases k with
        | zero => rw [Nat.zero_min, before_zero_cons_of hp, before_zero_cons_of hp]
        | succ k =>
          rw [before_succ_cons_of hp, Nat.add_min_add_right, before_succ_cons_of hp, ih]

/-- What is read off the marked items, before a mark. -/
theorem filterMap_before {f : α → Option β} (hf : ∀ a, (f a).isSome = p a) (k : Nat)
    (l : List α) : (before p k l).filterMap f = (l.filterMap f).take k := by
  induction l generalizing k with
  | nil => simp [before]
  | cons a l ih =>
    cases hp : p a with
    | false =>
      have hnone : f a = none := by
        rw [← Option.isNone_iff_eq_none, ← Option.not_isSome, hf, hp]
        rfl
      rw [before_cons_of_not hp, filterMap_cons_none hnone, filterMap_cons_none hnone, ih]
    | true =>
      obtain ⟨b, hb⟩ := Option.isSome_iff_exists.1 ((hf a).trans hp)
      rw [filterMap_cons_some hb]
      cases k with
      | zero =>
        rw [before_zero_cons_of hp]
        rfl
      | succ k => rw [before_succ_cons_of hp, filterMap_cons_some hb, ih, take_succ_cons]

/-- The cut is at the index of the mark. -/
theorem before_eq_take {i s : Nat} (h : (l.findIdxs p s)[k]? = some i) :
    before p k l = l.take (i - s) ∧ s ≤ i := by
  induction l generalizing k s with
  | nil => cases h
  | cons a l ih =>
    rw [findIdxs_cons] at h
    cases hp : p a with
    | false =>
      rw [if_neg (by rw [hp]; exact Bool.false_ne_true)] at h
      obtain ⟨htake, hle⟩ := ih h
      obtain ⟨d, rfl⟩ : ∃ d, i = d + (s + 1) := ⟨i - (s + 1), by omega⟩
      have hindex : d + (s + 1) - s = d + 1 := by omega
      rw [Nat.add_sub_cancel] at htake
      exact ⟨by rw [before_cons_of_not hp, htake, hindex, take_succ_cons], by omega⟩
    | true =>
      rw [if_pos hp] at h
      cases k with
      | zero =>
        obtain rfl := Option.some.inj h
        exact ⟨by rw [before_zero_cons_of hp, Nat.sub_self, take_zero], Nat.le_refl _⟩
      | succ k =>
        obtain ⟨htake, hle⟩ := ih h
        obtain ⟨d, rfl⟩ : ∃ d, i = d + (s + 1) := ⟨i - (s + 1), by omega⟩
        have hindex : d + (s + 1) - s = d + 1 := by omega
        rw [Nat.add_sub_cancel] at htake
        exact ⟨by rw [before_succ_cons_of hp, htake, hindex, take_succ_cons], by omega⟩

end Marks
