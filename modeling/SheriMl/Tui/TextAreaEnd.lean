import SheriMl.Tui.TextArea

/-!
# Typing at the end of a text area

With the cursor at the end, and a plain end of the text that no element reaches into
(`EndsPlain`), insertions append to the plain end, a deletion of its last characters takes away
just these, and a new element makes all of the text before the cursor the part that is not plain.
-/

namespace SheriMl.Tui

open List

open Str (IsBoundary)

namespace TextArea

/-- The cursor is at the end, and the elements are in the part of the text before the plain end. -/
structure EndsPlain (a : TextArea) (front plain : Str) : Prop where
  text : a.text = front ++ plain
  cursorPos : a.cursorPos = Str.utf8Size a.text
  elements : ∀ e ∈ a.elements, e.range.start < e.range.stop ∧
    e.range.stop ≤ Str.utf8Size front

variable {p : Platform} {a : TextArea} {front plain s : Str} {c : Char}

theorem new_endsPlain : new.EndsPlain [] [] :=
  ⟨rfl, rfl, fun _ he => absurd he not_mem_nil⟩

theorem clampPosToNearestBoundary_end {elements : List TextElement} (text : Str)
    (h : ∀ e ∈ elements, e.range.stop ≤ Str.utf8Size text) :
    clampPosToNearestBoundary text elements (Str.utf8Size text) = Str.utf8Size text := by
  have hout : findElementContaining elements (Str.utf8Size text) = none := by
    refine List.find?_eq_none.2 fun e he => ?_
    have hle := h e he
    simp only [Bool.and_eq_true, decide_eq_true_eq]
    omega
  simp only [clampPosToNearestBoundary, clampPosToCharBoundary_eq (Str.isBoundary_utf8Size text),
    hout]

theorem shiftElements_of_before {elements : List TextElement} {pos : Nat}
    (removed inserted : Nat)
    (h : ∀ e ∈ elements, e.range.start < e.range.stop ∧ e.range.stop ≤ pos) :
    shiftElements elements pos removed inserted = elements := by
  have hkept : elements.filter (fun e => !(e.range.start ≥ pos &&
      e.range.stop ≤ pos + removed)) = elements := by
    refine filter_eq_self.2 fun e he => ?_
    obtain ⟨hlt, hle⟩ := h e he
    simp only [Bool.not_eq_true', Bool.and_eq_false_iff, decide_eq_false_iff_not]
    omega
  rw [shiftElements, hkept]
  refine (map_congr_left fun e he => ?_).trans (map_id elements)
  exact TextElement.shift_of_before (h e he).2

theorem expandRangeToElementBoundaries_of_before {elements : List TextElement} (range : Range)
    (h : ∀ e ∈ elements, e.range.stop ≤ range.start) :
    expandRangeToElementBoundaries elements range = range := by
  have hpass : elements.foldl Range.widen range = range := by
    induction elements with
    | nil => rfl
    | cons e elements ih =>
      have hle := h e mem_cons_self
      rw [foldl_cons, Range.widen, if_neg (by omega)]
      exact ih fun f hf => h f (mem_cons_of_mem e hf)
  rw [expandRangeToElementBoundaries, expandLoop]
  simp only [hpass, if_true]

namespace EndsPlain

variable (h : a.EndsPlain front plain)

include h

theorem stop_le : ∀ e ∈ a.elements, e.range.start < e.range.stop ∧
    e.range.stop ≤ Str.utf8Size a.text := by
  intro e he
  obtain ⟨hlt, hle⟩ := h.elements e he
  rw [h.text, Str.utf8Size_append]
  exact ⟨hlt, by omega⟩

theorem front_append (t : Str) (hplain : plain = t ++ s) : a.EndsPlain (front ++ t) s := by
  subst hplain
  refine ⟨by rw [h.text, append_assoc], h.cursorPos, fun e he => ?_⟩
  obtain ⟨hlt, hle⟩ := h.elements e he
  rw [Str.utf8Size_append]
  exact ⟨hlt, by omega⟩

theorem clampPosForInsertion :
    Tui.clampPosForInsertion a.text a.elements a.cursorPos = Str.utf8Size a.text := by
  rw [h.cursorPos, Tui.clampPosForInsertion]
  exact clampPosToNearestBoundary_end _ fun e he => (h.stop_le e he).2

theorem insertStrAt (s : Str) :
    (a.insertStrAt (Str.utf8Size a.text) s).EndsPlain front (plain ++ s) ∧
      (a.insertStrAt (Str.utf8Size a.text) s).elements = a.elements := by
  have hclamp := h.clampPosForInsertion
  rw [h.cursorPos] at hclamp
  have helements := shiftElements_of_before 0 (Str.utf8Size s) h.stop_le
  have htext : Str.splice a.text (Str.utf8Size a.text) (Str.utf8Size a.text) s = a.text ++ s := by
    have hsplice := Str.splice_append (l := a.text) (m := []) (r := []) (t := s)
    simpa only [append_nil] using hsplice
  unfold TextArea.insertStrAt
  simp only [hclamp, helements, htext]
  refine ⟨⟨?_, ?_, h.elements⟩, trivial⟩
  · rw [h.text, append_assoc]
  · rw [if_pos h.cursorPos.ge, h.cursorPos, Str.utf8Size_append]

theorem insertStr (s : Str) :
    (a.insertStr s).EndsPlain front (plain ++ s) ∧ (a.insertStr s).elements = a.elements := by
  rw [TextArea.insertStr, h.cursorPos]
  exact h.insertStrAt s

/-- The last characters of the plain end are taken away. -/
theorem replaceRange (kept grabbed : Str) (hplain : plain = kept ++ grabbed)
    (hne : grabbed ≠ []) :
    (a.replaceRange ⟨Str.utf8Size (front ++ kept), Str.utf8Size a.text⟩ []).EndsPlain front
      kept := by
  subst hplain
  have hpos := Str.utf8Size_pos hne
  have htext : a.text = front ++ kept ++ grabbed := by rw [h.text, append_assoc]
  have hsize : Str.utf8Size a.text = Str.utf8Size (front ++ kept) + Str.utf8Size grabbed := by
    rw [htext, Str.utf8Size_append]
  have hbefore : ∀ e ∈ a.elements, e.range.start < e.range.stop ∧
      e.range.stop ≤ Str.utf8Size (front ++ kept) := by
    intro e he
    obtain ⟨hlt, hle⟩ := h.elements e he
    rw [Str.utf8Size_append]
    exact ⟨hlt, by omega⟩
  have hexpand := expandRangeToElementBoundaries_of_before
    ⟨Str.utf8Size (front ++ kept), Str.utf8Size a.text⟩ fun e he => (hbefore e he).2
  have hsplice : Str.splice a.text (Str.utf8Size (front ++ kept)) (Str.utf8Size a.text) [] =
      front ++ kept := by
    have happend := Str.splice_append (l := front ++ kept) (m := grabbed) (r := []) (t := [])
    rw [append_nil, append_nil, append_nil, ← htext] at happend
    exact happend
  have hshift := shiftElements_of_before
    (Str.utf8Size a.text - Str.utf8Size (front ++ kept)) 0 hbefore
  have hclamp := clampPosToNearestBoundary_end (front ++ kept) fun e he => (hbefore e he).2
  rw [TextArea.replaceRange, hexpand, replaceRangeRaw, updateElementsAfterReplace]
  have hmin : min (Str.utf8Size (front ++ kept)) (Str.utf8Size a.text) =
      Str.utf8Size (front ++ kept) := by omega
  have hcursor := h.cursorPos
  simp only [hmin, Nat.min_self, Str.utf8Size_nil, hsplice, hshift, Nat.add_zero]
  rw [if_neg (by omega), if_neg (by omega), if_pos hcursor.le, Nat.min_self, hclamp]
  exact ⟨rfl, rfl, h.elements⟩

theorem insertElement (hs : s ≠ []) :
    (a.insertElement s).1.EndsPlain (front ++ plain ++ s) [] := by
  obtain ⟨hinserted, helements⟩ := h.insertStrAt s
  have hpos := Str.utf8Size_pos hs
  have htext : (a.insertStrAt (Str.utf8Size a.text) s).text = front ++ plain ++ s := by
    rw [hinserted.text, append_assoc]
  have hstop : Str.utf8Size a.text + Str.utf8Size s = Str.utf8Size (front ++ plain ++ s) := by
    rw [h.text, Str.utf8Size_append (s := front ++ plain)]
  have hmem (id : Nat) : ∀ e ∈ sortByStart (a.elements ++
      [⟨id, ⟨Str.utf8Size a.text, Str.utf8Size a.text + Str.utf8Size s⟩⟩]),
      e.range.start < e.range.stop ∧ e.range.stop ≤ Str.utf8Size (front ++ plain ++ s) := by
    intro e he
    rw [sortByStart, mem_insertionSort] at he
    rcases mem_append.1 he with he | he
    · obtain ⟨hlt, hle⟩ := h.stop_le e he
      exact ⟨hlt, by omega⟩
    · obtain rfl := mem_singleton.1 he
      exact ⟨by dsimp only; omega, hstop.le⟩
  have hclamp (id : Nat) := clampPosToNearestBoundary_end _ fun e he => (hmem id e he).2
  simp only [TextArea.insertElement, addElement, TextArea.setCursor, h.clampPosForInsertion,
    helements, htext]
  refine ⟨?_, ?_, hmem _⟩
  · rw [append_nil]
  · rw [hstop, Nat.min_self]
    simp only [hstop] at hclamp
    exact hclamp _

end EndsPlain

end TextArea

end SheriMl.Tui
