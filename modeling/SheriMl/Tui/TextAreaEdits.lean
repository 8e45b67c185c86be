import SheriMl.Tui.TextArea

/-!
# What the operations of a text area keep

`TextArea.Wf`: the cursor is between characters and outside of the elements, and the elements are
well-formed. An operation that makes no element is one of the `Edits`: it keeps `Wf`, and the
elements it leaves keep their ids and texts. Every deletion goes through `replaceRangeRaw` on a
range that has been widened to whole elements (`Aligned.replaceRangeRaw`), and every motion ends in
a clamped position or in one that an atomic step leads to. Where the cursor has been caught in an
element (`Aligned` only), the same operations go on.
-/

namespace SheriMl.Tui

open List

open Str (IsBoundary)

namespace TextArea

/-- The cursor is between characters, and the elements are well-formed. -/
structure Aligned (a : TextArea) : Prop where
  cursor_boundary : IsBoundary a.text a.cursorPos
  elements_wf : ElementsWf a.text a.elements

/-- The cursor is not inside an element either. -/
structure Wf (a : TextArea) : Prop extends Aligned a where
  cursor_outside : Outside a.elements a.cursorPos

/-- From `a` to `b` no element is made, and those that are left are as they were. A cursor that
was outside of the elements is so again. -/
structure Edits (a b : TextArea) : Prop where
  aligned : b.Aligned
  cursor_outside : Outside a.elements a.cursorPos → Outside b.elements b.cursorPos
  snapshots : b.textElementSnapshots.Sublist a.textElementSnapshots
  nextElementId : b.nextElementId = a.nextElementId

variable {p : Platform} {a b c : TextArea} {range : Range} {text : Str} {pos n : Nat}

theorem new_wf : new.Wf :=
  ⟨⟨Str.isBoundary_zero _, .nil _⟩, outside_zero _⟩

theorem Edits.wf (h : a.Edits b) (ha : a.Wf) : b.Wf :=
  ⟨h.aligned, h.cursor_outside ha.cursor_outside⟩

theorem Edits.trans (h : a.Edits b) (h' : b.Edits c) : a.Edits c :=
  ⟨h'.aligned, h'.cursor_outside ∘ h.cursor_outside, h'.snapshots.trans h.snapshots,
    h'.nextElementId.trans h.nextElementId⟩

/-! ## Lines and words -/

theorem findNewline_spec {s : Str} {i : Nat} (h : findNewline s = some i) :
    ∃ l r, s = l ++ '\n' :: r ∧ Str.utf8Size l = i := by
  simp only [findNewline, Option.ite_none_right_eq_some, Option.some.injEq] at h
  obtain ⟨hmem, hi⟩ := h
  obtain ⟨l, r, rfl, hl⟩ := eq_append_cons_of_mem hmem
  have hline : ∀ ch ∈ l, decide (ch ≠ '\n') = true :=
    fun ch hch => decide_eq_true fun heq => hl (heq ▸ hch)
  have htake : (l ++ '\n' :: r).takeWhile (· ≠ '\n') = l := by
    rw [takeWhile_append_of_pos hline,
      takeWhile_cons_of_neg (by simp), append_nil]
  exact ⟨l, r, rfl, by rw [← hi, htake]⟩

theorem rfindNewline_spec {s : Str} {i : Nat} (h : rfindNewline s = some i) :
    ∃ l r, s = l ++ '\n' :: r ∧ Str.utf8Size l = i := by
  simp only [rfindNewline, Option.ite_none_right_eq_some, Option.some.injEq] at h
  obtain ⟨hmem, hi⟩ := h
  obtain ⟨r, l, hs, hr⟩ := eq_append_cons_of_mem (mem_reverse.2 hmem)
  have hline : ∀ ch ∈ r, decide (ch ≠ '\n') = true :=
    fun ch hch => decide_eq_true fun heq => hr (heq ▸ hch)
  have hdrop : s.reverse.dropWhile (· ≠ '\n') = '\n' :: l := by
    rw [hs, dropWhile_append_of_pos hline, dropWhile_cons_of_neg (by simp)]
  refine ⟨l.reverse, r.reverse, ?_, ?_⟩
  · rw [← reverse_reverse s, hs, reverse_append, reverse_cons, append_assoc,
      singleton_append]
  · rw [← hi, hdrop, tail_cons, Str.utf8Size_reverse]

theorem beginningOfLine_spec (h : IsBoundary text pos) :
    IsBoundary text (beginningOfLine text pos) ∧ beginningOfLine text pos ≤ pos ∧
      (0 < beginningOfLine text pos → IsBoundary text (beginningOfLine text pos - 1)) := by
  obtain ⟨pre, post, rfl, rfl⟩ := h
  rw [beginningOfLine, Str.takeBytes_boundary]
  cases hfind : rfindNewline pre with
  | none =>
    exact ⟨Str.isBoundary_zero _, Nat.zero_le _, fun h => absurd h (Nat.lt_irrefl 0)⟩
  | some i =>
    obtain ⟨l, r, rfl, rfl⟩ := rfindNewline_spec hfind
    have hsize : Str.utf8Size (l ++ ['\n']) = Str.utf8Size l + 1 := Str.utf8Size_append
    refine ⟨⟨l ++ ['\n'], r ++ post, by simp, hsize⟩, ?_, fun _ => ⟨l, '\n' :: r ++ post, ?_, ?_⟩⟩
    · have hnl : Char.utf8Size '\n' = 1 := rfl
      simp only [Option.map_some, Option.getD_some, Str.utf8Size_append, Str.utf8Size_cons, hnl]
      omega
    · simp
    · rfl

theorem endOfLine_spec (h : IsBoundary text pos) :
    IsBoundary text (endOfLine text pos) ∧ pos ≤ endOfLine text pos ∧
      (endOfLine text pos < Str.utf8Size text → IsBoundary text (endOfLine text pos + 1)) := by
  have hle := h.le
  obtain ⟨pre, post, rfl, rfl⟩ := h
  rw [endOfLine, Str.dropBytes_boundary]
  cases hfind : findNewline post with
  | none => exact ⟨Str.isBoundary_utf8Size _, hle, fun h => absurd h (Nat.lt_irrefl _)⟩
  | some i =>
    obtain ⟨l, r, rfl, rfl⟩ := findNewline_spec hfind
    simp only [Option.map_some, Option.getD_some]
    refine ⟨⟨pre ++ l, '\n' :: r, by simp, ?_⟩, Nat.le_add_left _ _,
      fun _ => ⟨pre ++ l ++ ['\n'], r, by simp, ?_⟩⟩
    · rw [Str.utf8Size_append, Nat.add_comm]
    · rw [Str.utf8Size_append, Str.utf8Size_append, Nat.add_comm (Str.utf8Size l)]
      rfl

theorem Aligned.beginningOfPreviousWord_spec (h : a.Aligned) :
    IsBoundary a.text a.beginningOfPreviousWord ∧ a.beginningOfPreviousWord ≤ a.cursorPos := by
  obtain ⟨pre, post, htext, hcursor⟩ := h.cursor_boundary
  have htake : Str.takeBytes a.cursorPos a.text = pre := by
    rw [htext, ← hcursor, Str.takeBytes_boundary]
  unfold beginningOfPreviousWord
  rw [htake]
  cases hrev : pre.reverse.dropWhile Str.isWhitespace with
  | nil => exact ⟨Str.isBoundary_zero _, Nat.zero_le _⟩
  | cons ch rest =>
    obtain ⟨skipped, hskipped⟩ := dropWhile_suffix (l := pre.reverse) Str.isWhitespace
    obtain ⟨word, hword⟩ := dropWhile_suffix (l := rest) (inWord ch)
    -- before the word, in the order of the text
    have hpre : pre = (rest.dropWhile (inWord ch)).reverse ++
        (word.reverse ++ [ch] ++ skipped.reverse) := by
      rw [← reverse_reverse pre, ← hskipped, hrev]
      conv_lhs => rw [← hword]
      simp
    have hstart : IsBoundary a.text (Str.utf8Size (rest.dropWhile (inWord ch))) := by
      refine ⟨(rest.dropWhile (inWord ch)).reverse, word.reverse ++ [ch] ++ skipped.reverse ++ post,
        ?_, Str.utf8Size_reverse⟩
      rw [htext, hpre, append_assoc]
    have hle : Str.utf8Size (rest.dropWhile (inWord ch)) ≤ a.cursorPos := by
      rw [← hcursor, hpre, Str.utf8Size_append, Str.utf8Size_reverse]
      exact Nat.le_add_right _ _
    obtain ⟨hb, hadjust⟩ := adjustPosOutOfElements_spec h.elements_wf hstart true
    exact ⟨hb, hadjust.trans hle⟩

/-- A word after the cursor ends between characters. -/
theorem Aligned.endOfNextWord_spec (h : a.Aligned) :
    IsBoundary a.text a.endOfNextWord ∧ a.cursorPos ≤ a.endOfNextWord := by
  obtain ⟨pre, post, htext, hcursor⟩ := h.cursor_boundary
  have hdrop : Str.dropBytes a.cursorPos a.text = post := by
    rw [htext, ← hcursor, Str.dropBytes_boundary]
  simp only [endOfNextWord, hdrop]
  have hsplit := takeWhile_append_dropWhile (p := Str.isWhitespace) (l := post)
  cases hrest : post.dropWhile Str.isWhitespace with
  | nil => exact ⟨Str.isBoundary_utf8Size _, h.cursor_boundary.le⟩
  | cons ch rest =>
    rw [hrest] at hsplit
    have hword := takeWhile_append_dropWhile (p := inWord ch) (l := rest)
    have hstop : IsBoundary a.text (a.cursorPos + Str.utf8Size (post.takeWhile Str.isWhitespace) +
        Str.utf8Size (ch :: rest.takeWhile (inWord ch))) := by
      refine ⟨pre ++ post.takeWhile Str.isWhitespace ++ ch :: rest.takeWhile (inWord ch),
        rest.dropWhile (inWord ch), ?_, ?_⟩
      · rw [htext, append_assoc, append_assoc, cons_append, hword, hsplit]
      · rw [Str.utf8Size_append, Str.utf8Size_append, hcursor]
    obtain ⟨hb, hadjust⟩ := adjustPosOutOfElements_spec h.elements_wf hstop false
    simp only [Bool.false_eq_true, if_false] at hadjust
    dsimp only
    exact ⟨hb, by omega⟩

/-! ## Motions -/

namespace Aligned

variable (h : a.Aligned)

include h

/-- The cursor is moved, and nothing else that the invariant is about. -/
theorem edits_of_cursor (htext : b.text = a.text) (helements : b.elements = a.elements)
    (hnext : b.nextElementId = a.nextElementId) (hb : IsBoundary a.text b.cursorPos)
    (ho : Outside a.elements a.cursorPos → Outside a.elements b.cursorPos) : a.Edits b := by
  refine ⟨⟨?_, ?_⟩, ?_, ?_, hnext⟩
  · rwa [htext]
  · rw [htext, helements]
    exact h.elements_wf
  · rwa [helements]
  · rw [textElementSnapshots, htext, helements]
    exact .refl _

theorem edits_refl : a.Edits a :=
  h.edits_of_cursor rfl rfl rfl h.cursor_boundary id

theorem setCursor (pos : Nat) : a.Edits (a.setCursor pos) := by
  obtain ⟨hb, ho⟩ := clampPosToNearestBoundary_spec h.elements_wf (min pos (Str.utf8Size a.text))
  exact h.edits_of_cursor rfl rfl rfl hb fun _ => ho

theorem wrappedLines (width : Nat) : a.Edits (a.wrappedLines p width) := by
  have hcache : ∀ cache, a.Edits { a with wrapCache := cache } := fun _ =>
    h.edits_of_cursor rfl rfl rfl h.cursor_boundary id
  unfold TextArea.wrappedLines
  split
  · split
    · exact hcache _
    · exact h.edits_refl
  · exact hcache _

theorem prevAtomicBoundary_spec (hp : p.Lawful) (hpos : IsBoundary a.text pos) :
    IsBoundary a.text (a.prevAtomicBoundary p pos) ∧ a.prevAtomicBoundary p pos ≤ pos ∧
      Outside a.elements (a.prevAtomicBoundary p pos) := by
  have hwf := h.elements_wf
  have hzero : IsBoundary a.text 0 ∧ 0 ≤ pos ∧ Outside a.elements 0 :=
    ⟨Str.isBoundary_zero _, Nat.zero_le _, outside_zero _⟩
  have hstart : ∀ {e}, e ∈ a.elements → e.range.start < pos → IsBoundary a.text e.range.start ∧
      e.range.start ≤ pos ∧ Outside a.elements e.range.start := fun he hlt =>
    ⟨hwf.start_boundary _ he, hlt.le, hwf.outside_start he⟩
  unfold TextArea.prevAtomicBoundary
  split
  · exact hzero
  split
  next e hfind =>
    have hin := List.find?_some hfind
    simp only [Bool.and_eq_true, decide_eq_true_eq] at hin
    exact hstart (mem_of_find?_eq_some hfind) hin.1
  next =>
    obtain ⟨found, hfound, hspec⟩ := hp.prev hpos
    rw [hfound]
    cases found with
    | none => exact hzero
    | some b =>
      obtain ⟨hb, hle⟩ := hspec b rfl
      dsimp only
      split
      next e hin =>
        obtain ⟨he, hlt, -⟩ := mem_of_findElementContaining hin
        exact hstart he (by omega)
      next hout => exact ⟨hb, hle, outside_of_findElementContaining hout⟩

theorem nextAtomicBoundary_spec (hp : p.Lawful) (hpos : IsBoundary a.text pos) :
    IsBoundary a.text (a.nextAtomicBoundary p pos) ∧ pos ≤ a.nextAtomicBoundary p pos ∧
      Outside a.elements (a.nextAtomicBoundary p pos) := by
  have hwf := h.elements_wf
  have hlen : IsBoundary a.text (Str.utf8Size a.text) ∧ pos ≤ Str.utf8Size a.text ∧
      Outside a.elements (Str.utf8Size a.text) :=
    ⟨Str.isBoundary_utf8Size _, hpos.le, hwf.outside_len⟩
  have hstop : ∀ {e}, e ∈ a.elements → pos < e.range.stop → IsBoundary a.text e.range.stop ∧
      pos ≤ e.range.stop ∧ Outside a.elements e.range.stop := fun he hlt =>
    ⟨hwf.stop_boundary _ he, hlt.le, hwf.outside_stop he⟩
  unfold TextArea.nextAtomicBoundary
  split
  · exact hlen
  split
  next e hfind =>
    have hin := List.find?_some hfind
    simp only [Bool.and_eq_true, decide_eq_true_eq] at hin
    exact hstop (mem_of_find?_eq_some hfind) hin.2
  next =>
    obtain ⟨found, hfound, hspec⟩ := hp.next hpos
    rw [hfound]
    cases found with
    | none => exact hlen
    | some b =>
      obtain ⟨hb, hle⟩ := hspec b rfl
      dsimp only
      split
      next e hin =>
        obtain ⟨he, -, hlt⟩ := mem_of_findElementContaining hin
        exact hstop he (by omega)
      next hout => exact ⟨hb, hle, outside_of_findElementContaining hout⟩

theorem moveCursorLeft (hp : p.Lawful) : a.Edits (a.moveCursorLeft p) := by
  obtain ⟨hb, -, ho⟩ := h.prevAtomicBoundary_spec hp h.cursor_boundary
  exact h.edits_of_cursor rfl rfl rfl hb fun _ => ho

theorem moveCursorRight (hp : p.Lawful) : a.Edits (a.moveCursorRight p) := by
  obtain ⟨hb, -, ho⟩ := h.nextAtomicBoundary_spec hp h.cursor_boundary
  exact h.edits_of_cursor rfl rfl rfl hb fun _ => ho

theorem edits_preferredCol (preferredCol : Option Nat) :
    a.Edits { a with preferredCol := preferredCol } :=
  h.edits_of_cursor rfl rfl rfl h.cursor_boundary id

theorem moveToDisplayColOnLine (lineStart lineEnd targetCol : Nat) :
    a.Edits (a.moveToDisplayColOnLine p lineStart lineEnd targetCol) := by
  obtain ⟨hb, ho⟩ := clampPosToNearestBoundary_spec h.elements_wf
    (((offsetBeyond p targetCol (p.graphemes (Str.slice a.text lineStart lineEnd)) 0 0).map
      (lineStart + ·)).getD lineEnd)
  exact h.edits_of_cursor rfl rfl rfl hb fun _ => ho

/-- A column is kept, and then the cursor goes to it on a line. -/
theorem moveToPreferredCol (preferredCol : Option Nat) (lineStart lineEnd targetCol : Nat) :
    a.Edits ({ a with preferredCol := preferredCol }.moveToDisplayColOnLine p
      lineStart lineEnd targetCol) :=
  have hcol := h.edits_preferredCol preferredCol
  hcol.trans (hcol.aligned.moveToDisplayColOnLine lineStart lineEnd targetCol)

theorem moveCursorUp : a.Edits (a.moveCursorUp p) := by
  have hstart : a.Edits { a with cursorPos := 0, preferredCol := none } :=
    h.edits_of_cursor rfl rfl rfl (Str.isBoundary_zero _) fun _ => outside_zero _
  unfold TextArea.moveCursorUp
  split
  · exact h.moveToPreferredCol _ _ _ _
  · exact hstart
  · split
    · exact h.moveToPreferredCol _ _ _ _
    · exact hstart

theorem moveCursorDown : a.Edits (a.moveCursorDown p) := by
  have hend : a.Edits { a with cursorPos := Str.utf8Size a.text, preferredCol := none } :=
    h.edits_of_cursor rfl rfl rfl (Str.isBoundary_utf8Size _) fun _ => h.elements_wf.outside_len
  unfold TextArea.moveCursorDown
  split
  · exact h.moveToPreferredCol _ _ _ _
  · exact hend
  · dsimp only
    split
    · exact h.moveToPreferredCol _ _ _ _
    · exact hend

theorem moveCursorToBeginningOfLine (moveUpAtBol : Bool) :
    a.Edits (a.moveCursorToBeginningOfLine moveUpAtBol) := by
  simp only [TextArea.moveCursorToBeginningOfLine]
  split <;> exact h.setCursor _

theorem moveCursorToEndOfLine (moveDownAtEol : Bool) :
    a.Edits (a.moveCursorToEndOfLine moveDownAtEol) := by
  simp only [TextArea.moveCursorToEndOfLine]
  split <;> exact h.setCursor _

/-! ## Edits of the text -/

/-- An insertion goes outside of the elements, and the cursor stays outside of them. -/
theorem insertStrAt (pos : Nat) (text : Str) : a.Edits (a.insertStrAt pos text) := by
  have hwf := h.elements_wf
  obtain ⟨hb, ho⟩ : IsBoundary a.text (clampPosForInsertion a.text a.elements pos) ∧
      Outside a.elements (clampPosForInsertion a.text a.elements pos) :=
    clampPosToNearestBoundary_spec hwf pos
  simp only [TextArea.insertStrAt]
  generalize clampPosForInsertion a.text a.elements pos = pos at hb ho
  have hr : Range.Aligned a.text ⟨pos, pos⟩ := ⟨hb, hb, Nat.le_refl pos⟩
  have hnew := ElementsWf.shiftElements hr hwf ho.closed text
  have hsnapshots := snapshots_shiftElements hr hwf ho.closed text
  simp only [Nat.sub_self] at hnew hsnapshots
  refine ⟨⟨?_, hnew⟩, fun hout => ?_, ?_, rfl⟩
  · dsimp only
    split
    next hle =>
      have hcursor := Str.isBoundary_splice_of_ge hb hb (Nat.le_refl pos) (t := text)
        h.cursor_boundary hle
      rwa [Nat.sub_self, Nat.sub_zero] at hcursor
    next hlt =>
      exact Str.isBoundary_splice_of_le hb hb (Nat.le_refl pos) h.cursor_boundary (by omega)
  · dsimp only
    split
    next hle =>
      have hcursor := Outside.shift_of_ge hr hwf ho.closed hout hle
        (Str.utf8Size text)
      simpa only [Nat.sub_self, Nat.sub_zero] using hcursor
    next hlt =>
      have hcursor := Outside.shift_of_le hr hwf ho.closed hout
        (by dsimp only; omega) (Str.utf8Size text)
      simpa only [Nat.sub_self] using hcursor
  · rw [textElementSnapshots, hsnapshots]
    exact filter_sublist.map _

theorem insertStr (text : Str) : a.Edits (a.insertStr text) := h.insertStrAt _ _

/-- The raw replacement, where the range cuts no element. -/
theorem replaceRangeRaw (hr : range.Aligned a.text) (hc : Closed a.elements range) (text : Str) :
    a.Edits (a.replaceRangeRaw range text) := by
  have hwf := h.elements_wf
  have hle := hr.le
  simp only [TextArea.replaceRangeRaw, Nat.min_eq_left hr.start.le, Nat.min_eq_left hr.stop.le,
    updateElementsAfterReplace]
  split
  · exact h.edits_refl
  · have hnew := ElementsWf.shiftElements hr hwf hc text
    have hsnapshots := snapshots_shiftElements hr hwf hc text
    refine ⟨⟨?_, hnew⟩, fun _ => ?_, ?_, rfl⟩
    · exact (clampPosToNearestBoundary_spec hnew _).1
    · exact (clampPosToNearestBoundary_spec hnew _).2
    · rw [textElementSnapshots, hsnapshots]
      exact filter_sublist.map _

theorem replaceRange (hr : range.Aligned a.text) (text : Str) :
    a.Edits (a.replaceRange range text) :=
  h.replaceRangeRaw (aligned_expandRangeToElementBoundaries h.elements_wf hr)
    (closed_expandRangeToElementBoundaries _ _) text

theorem killRange (hr : range.Aligned a.text) : a.Edits (a.killRange range) := by
  have haligned := aligned_expandRangeToElementBoundaries h.elements_wf hr
  have hkill : ∀ removed, a.Edits { a with killBuffer := removed } := fun _ =>
    h.edits_of_cursor rfl rfl rfl h.cursor_boundary id
  simp only [TextArea.killRange]
  split
  · exact h.edits_refl
  split
  · exact h.edits_refl
  · have hremoved := hkill (Str.slice a.text
      (expandRangeToElementBoundaries a.elements range).start
      (expandRangeToElementBoundaries a.elements range).stop)
    exact hremoved.trans (hremoved.aligned.replaceRangeRaw haligned
      (closed_expandRangeToElementBoundaries _ _) [])

theorem stepsBackward_spec (hp : p.Lawful) (n : Nat) (hpos : IsBoundary a.text pos) :
    IsBoundary a.text (a.stepsBackward p n pos) ∧ a.stepsBackward p n pos ≤ pos := by
  induction n generalizing pos with
  | zero => exact ⟨hpos, Nat.le_refl pos⟩
  | succ n ih =>
    obtain ⟨hb, hle, -⟩ := h.prevAtomicBoundary_spec hp hpos
    simp only [stepsBackward]
    split
    · exact ⟨hb, hle⟩
    · obtain ⟨hb', hle'⟩ := ih hb
      exact ⟨hb', hle'.trans hle⟩

theorem stepsForward_spec (hp : p.Lawful) (n : Nat) (hpos : IsBoundary a.text pos) :
    IsBoundary a.text (a.stepsForward p n pos) ∧ pos ≤ a.stepsForward p n pos := by
  induction n generalizing pos with
  | zero => exact ⟨hpos, Nat.le_refl pos⟩
  | succ n ih =>
    obtain ⟨hb, hle, -⟩ := h.nextAtomicBoundary_spec hp hpos
    simp only [stepsForward]
    split
    · exact ⟨hb, hle⟩
    · obtain ⟨hb', hle'⟩ := ih hb
      exact ⟨hb', hle.trans hle'⟩

theorem deleteBackward (hp : p.Lawful) (n : Nat) : a.Edits (a.deleteBackward p n) := by
  unfold TextArea.deleteBackward
  split
  · exact h.edits_refl
  · obtain ⟨hb, hle⟩ := h.stepsBackward_spec hp n h.cursor_boundary
    exact h.replaceRange ⟨hb, h.cursor_boundary, hle⟩ []

theorem deleteForward (hp : p.Lawful) (n : Nat) : a.Edits (a.deleteForward p n) := by
  unfold TextArea.deleteForward
  split
  · exact h.edits_refl
  · obtain ⟨hb, hle⟩ := h.stepsForward_spec hp n h.cursor_boundary
    exact h.replaceRange ⟨h.cursor_boundary, hb, hle⟩ []

theorem deleteBackwardWord : a.Edits a.deleteBackwardWord := by
  obtain ⟨hb, hle⟩ := h.beginningOfPreviousWord_spec
  exact h.killRange ⟨hb, h.cursor_boundary, hle⟩

theorem deleteForwardWord : a.Edits a.deleteForwardWord := by
  obtain ⟨hb, hle⟩ := h.endOfNextWord_spec
  unfold TextArea.deleteForwardWord
  split
  · exact h.killRange ⟨h.cursor_boundary, hb, hle⟩
  · exact h.edits_refl

theorem killToEndOfLine : a.Edits a.killToEndOfLine := by
  obtain ⟨hb, hle, hnext⟩ : IsBoundary a.text a.endOfCurrentLine ∧
      a.cursorPos ≤ a.endOfCurrentLine ∧ (a.endOfCurrentLine < Str.utf8Size a.text →
        IsBoundary a.text (a.endOfCurrentLine + 1)) := endOfLine_spec h.cursor_boundary
  simp only [TextArea.killToEndOfLine]
  split
  next hat =>
    split
    next hlt => exact h.killRange ⟨h.cursor_boundary, hnext hlt, by dsimp only; omega⟩
    next => exact h.edits_refl
  next => exact h.killRange ⟨h.cursor_boundary, hb, hle⟩

theorem killToBeginningOfLine : a.Edits a.killToBeginningOfLine := by
  obtain ⟨hb, hle, hprev⟩ : IsBoundary a.text a.beginningOfCurrentLine ∧
      a.beginningOfCurrentLine ≤ a.cursorPos ∧ (0 < a.beginningOfCurrentLine →
        IsBoundary a.text (a.beginningOfCurrentLine - 1)) :=
    beginningOfLine_spec h.cursor_boundary
  simp only [TextArea.killToBeginningOfLine]
  split
  · split
    next hlt => exact h.killRange ⟨hprev hlt, hb, Nat.sub_le _ _⟩
    next => exact h.edits_refl
  · exact h.killRange ⟨hb, h.cursor_boundary, hle⟩

theorem yank : a.Edits a.yank := by
  unfold TextArea.yank
  split
  · exact h.edits_refl
  · exact h.insertStr _

theorem removeElementRange (range : Range) : a.Edits (a.removeElementRange range).1 := by
  simp only [TextArea.removeElementRange]
  split
  · exact h.edits_refl
  · have hkept := filter_sublist (l := a.elements) (p := fun e =>
      decide (e.range.start ≠ clampPosToCharBoundary a.text (min range.start (Str.utf8Size a.text)) ∨
        e.range.stop ≠ clampPosToCharBoundary a.text (min range.stop (Str.utf8Size a.text))))
    exact ⟨⟨h.cursor_boundary, h.elements_wf.sublist hkept⟩,
      fun hout e he => hout e (hkept.subset he), hkept.map _, rfl⟩

end Aligned

end TextArea

end SheriMl.Tui
