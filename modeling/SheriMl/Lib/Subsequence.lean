import Mathlib.Data.List.Destutter
import Mathlib.Data.List.Sort

/-!
# Subsequences found greedily

The first elements of a list with given keys, one behind the other: they are found just where the
keys are a subsequence (`exists_greedy_iff`). `ascending` sorts positions and drops repetitions;
`filter_zipIdx_eq` is what a list has there.
-/

namespace Subsequence

open List

universe u v

variable {α : Type u} {β : Type v} [DecidableEq α] {key : β → α} {as : List α} {l hits : List β}

/-- The first element with the first key, behind it the first with the second, and so on. -/
def greedy (key : β → α) : List β → List α → Option (List β)
  | _, [] => some []
  | [], _ :: _ => none
  | b :: l, a :: as =>
    if key b = a then (greedy key l as).map (b :: ·) else greedy key l (a :: as)

theorem greedy_nil (l : List β) : greedy key l [] = some [] := by
  cases l <;> rfl

theorem sublist_of_greedy (h : greedy key l as = some hits) :
    hits.Sublist l ∧ hits.map key = as := by
  induction l generalizing as hits with
  | nil =>
    cases as with
    | nil =>
      cases h
      exact ⟨List.Sublist.slnil, rfl⟩
    | cons a as => cases h
  | cons b l ih =>
    cases as with
    | nil =>
      cases h
      exact ⟨nil_sublist _, rfl⟩
    | cons a as =>
      rw [greedy] at h
      split at h
      next hkey =>
        obtain ⟨hits', hgreedy, rfl⟩ := Option.map_eq_some_iff.1 h
        obtain ⟨hsub, hmap⟩ := ih hgreedy
        exact ⟨hsub.cons_cons b, by rw [map_cons, hkey, hmap]⟩
      next =>
        obtain ⟨hsub, hmap⟩ := ih h
        exact ⟨hsub.cons b, hmap⟩

theorem exists_greedy_of_sublist (h : as.Sublist (l.map key)) :
    ∃ hits, greedy key l as = some hits := by
  induction l generalizing as with
  | nil =>
    rw [map_nil, sublist_nil] at h
    exact ⟨[], by rw [h, greedy_nil]⟩
  | cons b l ih =>
    cases as with
    | nil => exact ⟨[], rfl⟩
    | cons a as =>
      rw [greedy]
      split
      next hkey =>
        rw [map_cons, hkey, cons_sublist_cons] at h
        obtain ⟨hits, hgreedy⟩ := ih h
        exact ⟨b :: hits, by rw [hgreedy]; rfl⟩
      next hkey =>
        cases h with
        | cons _ h => exact ih h
        | cons_cons _ h => exact absurd rfl hkey

theorem exists_greedy_iff : (∃ hits, greedy key l as = some hits) ↔ as.Sublist (l.map key) := by
  constructor
  · rintro ⟨hits, h⟩
    obtain ⟨hsub, rfl⟩ := sublist_of_greedy h
    exact hsub.map key
  · exact exists_greedy_of_sublist

/-! ## Positions in ascending order -/

theorem mem_destutter'_ne {a b : α} : a ∈ as.destutter' (· ≠ ·) b ↔ a ∈ b :: as := by
  induction as generalizing b with
  | nil => rfl
  | cons c as ih =>
    by_cases hne : b ≠ c
    · rw [List.destutter'_cons_pos as hne, mem_cons, ih, ← mem_cons]
    · rw [List.destutter'_cons_neg as hne, ih]
      obtain rfl := Decidable.not_not.1 hne
      simp

theorem mem_destutter_ne {a : α} : a ∈ as.destutter (· ≠ ·) ↔ a ∈ as := by
  cases as with
  | nil => rfl
  | cons b as => exact mem_destutter'_ne

/-- Sorted, without repetitions. -/
def ascending (positions : List Nat) : List Nat :=
  (positions.insertionSort (· ≤ ·)).destutter (· ≠ ·)

variable {positions : List Nat}

theorem mem_ascending {i : Nat} : i ∈ ascending positions ↔ i ∈ positions := by
  rw [ascending, mem_destutter_ne, mem_insertionSort]

theorem pairwise_ascending (positions : List Nat) : (ascending positions).Pairwise (· < ·) := by
  have hle : (ascending positions).IsChain (· ≤ ·) :=
    ((pairwise_insertionSort (· ≤ ·) positions).sublist (destutter_sublist _ _)).isChain
  have hne : (ascending positions).IsChain (· ≠ ·) := isChain_destutter _ _
  refine isChain_iff_pairwise.1 (isChain_iff_getElem.2 fun i hi => ?_)
  exact Nat.lt_of_le_of_ne (hle.getElem i hi) (hne.getElem i hi)

theorem ascending_eq_self (h : positions.Pairwise (· < ·)) : ascending positions = positions := by
  rw [ascending, (h.imp Nat.le_of_lt).insertionSort_eq]
  exact destutter_of_isChain _ _ (h.imp Nat.ne_of_lt).isChain

/-- By their positions. -/
def Before (p q : β × Nat) : Prop := p.2 < q.2

instance : @Std.Irrefl (β × Nat) Before := ⟨fun p => Nat.lt_irrefl p.2⟩

instance : @Std.Antisymm (β × Nat) Before := ⟨fun _ _ hpq hqp => absurd hpq (Nat.lt_asymm hqp)⟩

/-- What a list has at ascending positions, with the positions. -/
theorem filter_zipIdx_eq (l : List β) (h : positions.Pairwise (· < ·)) :
    (l.zipIdx.filter fun p => p.2 ∈ positions) =
      positions.filterMap fun i => l[i]?.map fun b => (b, i) := by
  have hzip : l.zipIdx.Pairwise Before := by
    have hsnd : (l.zipIdx.map Prod.snd).Pairwise (· < ·) := by
      rw [zipIdx_map_snd]
      exact pairwise_lt_range'
    rw [pairwise_map] at hsnd
    exact hsnd
  have hpositions : (positions.filterMap fun i => l[i]?.map fun b => (b, i)).Pairwise Before := by
    refine h.filterMap _ fun i j hij p hp q hq => ?_
    obtain ⟨b, -, rfl⟩ := Option.map_eq_some_iff.1 hp
    obtain ⟨c, -, rfl⟩ := Option.map_eq_some_iff.1 hq
    exact hij
  refine (hzip.filter _).eq_of_mem_iff hpositions fun p => ?_
  rw [mem_filter, mem_zipIdx_iff_getElem?, decide_eq_true_eq, mem_filterMap]
  constructor
  · rintro ⟨hget, hmem⟩
    exact ⟨p.2, hmem, by rw [hget]; rfl⟩
  · rintro ⟨i, hmem, hp⟩
    obtain ⟨b, hget, rfl⟩ := Option.map_eq_some_iff.1 hp
    exact ⟨hget, hmem⟩

end Subsequence
