import Mathlib.Data.List.Nodup

/-!
# Numbering a log in segments

A log of entries in segments, some of them numbered from a counter, that is cut back
to its first segments now and then. The counter then starts again after the entries that are
left, so that it need not have passed the numbers given out: `Numbered` carries that a number
in a segment is at most the number of entries up to that segment's end.
-/

namespace Numbering

open List

/-- The segments of a log; an entry is told by its number, if it has one. -/
abbrev Log := List (List (Option Nat))

variable {log pre post : Log} {segment entries : List (Option Nat)} {seen seen' next : Nat}

def numbers (entries : List (Option Nat)) : List Nat := entries.filterMap id

/-- The number of entries in all segments. -/
def size (log : Log) : Nat := log.flatten.length

/-- A number is at most the number of entries up to its segment's end, `seen` of them before. -/
def Fits (seen : Nat) : Log → Prop
  | [] => True
  | segment :: log =>
    (∀ n ∈ numbers segment, n ≤ seen + segment.length) ∧ Fits (seen + segment.length) log

theorem fits_empty (seen : Nat) : Fits seen [[]] := by
  refine ⟨?_, trivial⟩
  intro n hn
  cases hn

theorem numbers_append (entries entries' : List (Option Nat)) :
    numbers (entries ++ entries') = numbers entries ++ numbers entries' := filterMap_append

theorem numbers_eq_nil (h : ∀ entry ∈ entries, entry = none) : numbers entries = [] :=
  filterMap_eq_nil_iff.2 h

theorem size_append (log log' : Log) : size (log ++ log') = size log + size log' := by
  rw [size, flatten_append, length_append]
  rfl

theorem size_singleton (segment : List (Option Nat)) : size [segment] = segment.length := by
  rw [size, flatten_singleton]

theorem size_cons (segment : List (Option Nat)) (log : Log) :
    size (segment :: log) = segment.length + size log := by
  rw [size, flatten_cons, length_append]
  rfl

theorem fits_append (seen : Nat) (log log' : Log) :
    Fits seen (log ++ log') ↔ Fits seen log ∧ Fits (seen + size log) log' := by
  induction log generalizing seen with
  | nil =>
    rw [Fits, true_and]
    rfl
  | cons segment log ih =>
    rw [cons_append, Fits, Fits, ih, size_cons, Nat.add_assoc, and_assoc]

theorem Fits.mono (h : Fits seen log) (hseen : seen ≤ seen') : Fits seen' log := by
  induction log generalizing seen seen' with
  | nil => trivial
  | cons segment log ih =>
    refine ⟨?_, ih h.2 (Nat.add_le_add_right hseen _)⟩
    intro n hn
    exact Nat.le_trans (h.1 n hn) (Nat.add_le_add_right hseen _)

theorem Fits.le_size (h : Fits seen log) : ∀ n ∈ numbers log.flatten, n ≤ seen + size log := by
  induction log generalizing seen with
  | nil =>
    intro n hn
    cases hn
  | cons segment log ih =>
    intro n hn
    rw [flatten_cons, numbers_append, mem_append] at hn
    rw [size_cons]
    cases hn with
    | inl hn =>
      have hle := h.1 n hn
      omega
    | inr hn =>
      have hle := ih h.2 n hn
      omega

/-- A log whose next number is `next`. -/
structure Numbered (log : Log) (next : Nat) : Prop where
  increasing : (numbers log.flatten).Pairwise (· < ·)
  fits : Fits 0 log
  below : ∀ n ∈ numbers log.flatten, n < next
  counter : next ≤ size log + 1

namespace Numbered

theorem nodup (h : Numbered log next) : (numbers log.flatten).Nodup :=
  h.increasing.imp Nat.ne_of_lt

theorem start : Numbered [[]] 1 where
  increasing := List.Pairwise.nil
  fits := fits_empty 0
  below n hn := by cases hn
  counter := Nat.le_refl 1

theorem openSegment (h : Numbered log next) : Numbered (log ++ [[]]) next := by
  have hflat : (log ++ [[]]).flatten = log.flatten := by
    rw [flatten_append, flatten_singleton, append_nil]
  constructor
  · rw [hflat]
    exact h.increasing
  · rw [fits_append]
    exact ⟨h.fits, fits_empty _⟩
  · rw [hflat]
    exact h.below
  · rw [size, hflat]
    exact h.counter

theorem note (h : Numbered (pre ++ segment :: post) next)
    (hentries : ∀ entry ∈ entries, entry = none) :
    Numbered (pre ++ (segment ++ entries) :: post) next := by
  have hnumbers : numbers (segment ++ entries) = numbers segment := by
    rw [numbers_append, numbers_eq_nil hentries, append_nil]
  have hflat : numbers (pre ++ (segment ++ entries) :: post).flatten =
      numbers (pre ++ segment :: post).flatten := by
    simp only [flatten_append, flatten_cons, numbers_append, numbers_eq_nil hentries,
      append_nil]
  constructor
  · rw [hflat]
    exact h.increasing
  · have hfits := (fits_append 0 pre _).1 h.fits
    refine (fits_append 0 pre _).2 ⟨hfits.1, ?_, ?_⟩
    · intro n hn
      rw [hnumbers] at hn
      have hle := hfits.2.1 n hn
      rw [length_append]
      omega
    · apply hfits.2.2.mono
      rw [length_append]
      omega
  · rw [hflat]
    exact h.below
  · have hcounter := h.counter
    rw [size_append, size_cons] at hcounter ⊢
    rw [length_append]
    omega

/-- The next number is given out, in the last segment. -/
theorem number (h : Numbered (pre ++ [segment]) next) :
    Numbered (pre ++ [segment ++ [some next]]) (next + 1) := by
  have hflat : numbers (pre ++ [segment ++ [some next]]).flatten =
      numbers (pre ++ [segment]).flatten ++ [next] := by
    simp only [flatten_append, flatten_singleton, numbers_append, append_assoc]
    rfl
  have hcounter := h.counter
  rw [size_append, size_singleton] at hcounter
  constructor
  · rw [hflat, pairwise_append]
    refine ⟨h.increasing, pairwise_singleton _ _, ?_⟩
    intro n hn m hm
    rw [mem_singleton.1 hm]
    exact h.below n hn
  · have hfits := (fits_append 0 pre _).1 h.fits
    refine (fits_append 0 pre _).2 ⟨hfits.1, ?_, trivial⟩
    intro n hn
    rw [numbers_append, mem_append] at hn
    rw [length_append, length_singleton]
    cases hn with
    | inl hn =>
      have hle := hfits.2.1 n hn
      omega
    | inr hn =>
      have heq : n = next := mem_singleton.1 hn
      omega
  · intro n hn
    rw [hflat, mem_append] at hn
    cases hn with
    | inl hn =>
      have hlt := h.below n hn
      omega
    | inr hn =>
      have heq : n = next := mem_singleton.1 hn
      omega
  · rw [size_append, size_singleton, length_append, length_singleton]
    omega

/-- The log is cut back to its first segments, and the counter to the entries left. -/
theorem truncate (h : Numbered (pre ++ post) next) : Numbered pre (size pre + 1) where
  increasing := by
    have hall := h.increasing
    rw [flatten_append, numbers_append, pairwise_append] at hall
    exact hall.1
  fits := ((fits_append 0 pre post).1 h.fits).1
  below n hn := by
    have hle := ((fits_append 0 pre post).1 h.fits).1.le_size n hn
    omega
  counter := Nat.le_refl _

end Numbered

end Numbering
