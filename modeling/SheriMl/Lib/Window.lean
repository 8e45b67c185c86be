import Mathlib.Data.List.DropRight

/-!
# Windows of a list

A contiguous part of a list, by the indices of its ends. It grows by the entry before it or the
one after it, and trimming it at both ends leaves a window in it (`exists_trim`).
-/

namespace Window

open List

universe u

variable {α : Type u} {l : List α} {lo hi k : Nat} {a : α}

/-- The entries from index `lo` on, up to `hi`. -/
def window (l : List α) (lo hi : Nat) : List α := (l.take hi).drop lo

theorem length_window (h : hi ≤ l.length) : (window l lo hi).length = hi - lo := by
  rw [window, length_drop, length_take, Nat.min_eq_left h]

theorem window_self (l : List α) (lo : Nat) : window l lo lo = [] := by
  rw [window, drop_eq_nil_iff, length_take]
  exact Nat.min_le_left lo l.length

theorem window_eq_cons (h : l[lo]? = some a) (hlt : lo < hi) :
    window l lo hi = a :: window l (lo + 1) hi := by
  obtain ⟨hlength, rfl⟩ := List.getElem?_eq_some_iff.1 h
  have htake : lo < (l.take hi).length := by
    rw [length_take]
    omega
  rw [window, drop_eq_getElem_cons htake, getElem_take, window]

theorem window_succ (h : l[hi]? = some a) (hle : lo ≤ hi) :
    window l lo (hi + 1) = window l lo hi ++ [a] := by
  obtain ⟨hlength, rfl⟩ := List.getElem?_eq_some_iff.1 h
  rw [window, take_succ_eq_append_getElem hlength, drop_append_of_le_length, window]
  rw [length_take]
  omega

/-- An entry of a list is a window. -/
theorem window_singleton (h : l[lo]? = some a) : window l lo (lo + 1) = [a] := by
  rw [window_succ h (Nat.le_refl lo), window_self, nil_append]

section Trim

variable {p : α → Bool}

/-- What passes the test is dropped from the front. -/
theorem exists_dropWhile (p : α → Bool) (hle : lo ≤ hi) (hhi : hi ≤ l.length) :
    ∃ lo', lo ≤ lo' ∧ lo' ≤ hi ∧ (window l lo hi).dropWhile p = window l lo' hi ∧
      ∀ k a, lo ≤ k → k < lo' → l[k]? = some a → p a = true := by
  obtain ⟨n, rfl⟩ := Nat.exists_eq_add_of_le hle
  induction n generalizing lo with
  | zero =>
    refine ⟨lo, Nat.le_refl lo, Nat.le_refl lo, ?_, fun k a hk hk' => absurd hk (by omega)⟩
    rw [Nat.add_zero, window_self, dropWhile_nil]
  | succ n ih =>
    have hlo : l[lo]? = some l[lo] := List.getElem?_eq_getElem (by omega)
    rw [window_eq_cons hlo (by omega), dropWhile_cons]
    split
    next hp =>
      obtain ⟨lo', hlo', hhi', hdrop, hall⟩ := ih (Nat.le_add_right (lo + 1) n) (by omega)
      rw [Nat.add_assoc, Nat.add_comm 1 n] at hdrop hhi'
      refine ⟨lo', by omega, hhi', hdrop, fun k a hk hk' ha => ?_⟩
      rcases Nat.eq_or_lt_of_le hk with rfl | hlt
      · rw [hlo] at ha
        cases ha
        exact hp
      · exact hall k a hlt hk' ha
    next =>
      refine ⟨lo, Nat.le_refl lo, hle, ?_, fun k a hk hk' => absurd hk (by omega)⟩
      rw [window_eq_cons hlo (by omega)]

/-- And from the back. -/
theorem exists_rdropWhile (p : α → Bool) (hle : lo ≤ hi) (hhi : hi ≤ l.length) :
    ∃ hi', lo ≤ hi' ∧ hi' ≤ hi ∧ (window l lo hi).rdropWhile p = window l lo hi' ∧
      ∀ k a, hi' ≤ k → k < hi → l[k]? = some a → p a = true := by
  obtain ⟨n, rfl⟩ := Nat.exists_eq_add_of_le hle
  induction n with
  | zero =>
    refine ⟨lo, Nat.le_refl lo, Nat.le_refl lo, ?_, fun k a hk hk' => absurd hk (by omega)⟩
    rw [Nat.add_zero, window_self, rdropWhile_nil]
  | succ n ih =>
    have hlast : l[lo + n]? = some l[lo + n] := List.getElem?_eq_getElem (by omega)
    have hsucc := window_succ hlast (Nat.le_add_right lo n)
    rw [← Nat.add_assoc, hsucc]
    by_cases hp : p l[lo + n] = true
    · obtain ⟨hi', hlo', hhi', hdrop, hall⟩ := ih (by omega) (by omega)
      refine ⟨hi', hlo', by omega, ?_, fun k a hk hk' ha => ?_⟩
      · rw [rdropWhile_concat_pos _ _ _ hp, hdrop]
      · rcases Nat.eq_or_lt_of_le (Nat.le_of_lt_succ hk') with rfl | hlt
        · rw [hlast] at ha
          cases ha
          exact hp
        · exact hall k a hk hlt ha
    · refine ⟨lo + n + 1, by omega, Nat.le_refl _, ?_, fun k a hk hk' => absurd hk (by omega)⟩
      rw [rdropWhile_concat_neg _ _ _ hp, hsucc]

/-- What trimming leaves is a window, and only what passes the test is outside of it. -/
theorem exists_trim (p : α → Bool) (hle : lo ≤ hi) (hhi : hi ≤ l.length) :
    ∃ lo' hi', lo ≤ lo' ∧ lo' ≤ hi' ∧ hi' ≤ hi ∧
      ((window l lo hi).dropWhile p).rdropWhile p = window l lo' hi' ∧
      ∀ k a, lo ≤ k → k < hi → l[k]? = some a → p a = false → lo' ≤ k ∧ k < hi' := by
  obtain ⟨lo', hlo, hlo', hfront, hbefore⟩ := exists_dropWhile p hle hhi
  obtain ⟨hi', hmid, hhi', hback, hafter⟩ := exists_rdropWhile p hlo' hhi
  refine ⟨lo', hi', hlo, hmid, hhi', by rw [hfront, hback], fun k a hk hk' ha hp => ?_⟩
  constructor
  · by_contra hlt
    rw [hbefore k a hk (by omega) ha] at hp
    cases hp
  · by_contra hlt
    rw [hafter k a (by omega) hk' ha] at hp
    cases hp

end Trim

end Window
