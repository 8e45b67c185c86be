import Mathlib.Algebra.Order.BigOperators.Group.List
import SheriMl.Lib.Str

/-!
# Wrapping of streamed text

`RowBuilder` of `tui/src/live_wrap.rs`: text comes in fragments and is wrapped into rows as it
comes. The row in progress is held back until it is full or its line ends. Widths of characters are
from another crate (`charWidth`); the width of a text is the sum that `take_prefix_by_width` takes.
-/

namespace SheriMl.LiveWrap

-- `UnicodeWidthChar::width`, which has none for control characters
variable (charWidth : Char → Option Nat)

def width (c : Char) : Nat := (charWidth c).getD 0

/-- The visible width of a text, as `take_prefix_by_width` counts it. -/
def visibleWidth (text : Str) : Nat := (text.map (width charWidth)).sum

structure Row where
  text : Str
  explicitBreak : Bool

structure RowBuilder where
  targetWidth : Nat
  currentLine : Str
  rows : List Row

/-- The loop over the characters: the prefix and what is left, with the columns taken. -/
def takeChars (maxCols : Nat) : Nat → Str → Str × Str × Nat
  | cols, [] => ([], [], cols)
  | cols, ch :: rest =>
    let cols' := cols + width charWidth ch
    if maxCols < cols' then ([], ch :: rest, cols)
    else if cols' = maxCols then ([ch], rest, cols')
    else
      let (taken, suffix, total) := takeChars maxCols cols' rest
      (ch :: taken, suffix, total)

def takePrefixByWidth (text : Str) (maxCols : Nat) : Str × Str × Nat :=
  if maxCols = 0 ∨ text = [] then ([], text, 0) else takeChars charWidth maxCols 0 text

variable {charWidth}

theorem takeChars_append (maxCols cols : Nat) (text : Str) :
    (takeChars charWidth maxCols cols text).1 ++ (takeChars charWidth maxCols cols text).2.1 =
      text := by
  induction text generalizing cols with
  | nil => rfl
  | cons ch rest ih =>
    rw [takeChars]
    dsimp only
    split
    · rfl
    · split
      · rfl
      · exact congrArg (ch :: ·) (ih _)

theorem takeChars_total (maxCols cols : Nat) (text : Str) :
    (takeChars charWidth maxCols cols text).2.2 =
      cols + visibleWidth charWidth (takeChars charWidth maxCols cols text).1 := by
  induction text generalizing cols with
  | nil => rfl
  | cons ch rest ih =>
    rw [takeChars]
    dsimp only
    split
    · rfl
    · split
      · rfl
      · rw [ih, visibleWidth, visibleWidth, List.map_cons, List.sum_cons, Nat.add_assoc]

theorem takePrefixByWidth_append (charWidth : Char → Option Nat) (text : Str) (maxCols : Nat) :
    (takePrefixByWidth charWidth text maxCols).1 ++ (takePrefixByWidth charWidth text maxCols).2.1 =
      text := by
  rw [takePrefixByWidth]
  split
  · rfl
  · exact takeChars_append ..

theorem takePrefixByWidth_total (text : Str) (maxCols : Nat) :
    (takePrefixByWidth charWidth text maxCols).2.2 =
      visibleWidth charWidth (takePrefixByWidth charWidth text maxCols).1 := by
  rw [takePrefixByWidth]
  split
  · rfl
  · rw [takeChars_total, Nat.zero_add]

/-- Something is left of a text that a prefix with columns is taken from. -/
theorem length_suffix_lt {charWidth : Char → Option Nat} {text : Str} {maxCols : Nat}
    (h : (takePrefixByWidth charWidth text maxCols).2.2 ≠ 0) :
    (takePrefixByWidth charWidth text maxCols).2.1.length < text.length := by
  have happend := congrArg List.length
    (takePrefixByWidth_append charWidth text maxCols)
  rw [takePrefixByWidth_total] at h
  rw [List.length_append] at happend
  cases hpre : (takePrefixByWidth charWidth text maxCols).1 with
  | nil =>
    rw [hpre] at h
    exact absurd rfl h
  | cons ch taken =>
    rw [hpre, List.length_cons] at happend
    omega

variable (charWidth)

/-- The loop of `wrap_current_line`: the rows that are cut off, and the line that stays. -/
def wrap (targetWidth : Nat) : Str → List Row × Str
  | [] => ([], [])
  | ch :: rest =>
    match _ : takePrefixByWidth charWidth (ch :: rest) targetWidth with
    | (taken, suffix, total) =>
      if _ : total = 0 then
        -- a character that is too wide, or has no width, is a row
        let (rows, line) := wrap targetWidth rest
        (⟨[ch], false⟩ :: rows, line)
      else if suffix = [] then ([], ch :: rest)
      else
        let (rows, line) := wrap targetWidth suffix
        (⟨taken, false⟩ :: rows, line)
termination_by line => line.length
decreasing_by
  · exact Nat.lt_succ_self _
  · rename_i htake htotal _
    have hlt : (takePrefixByWidth charWidth (ch :: rest) targetWidth).2.1.length <
        (ch :: rest).length := length_suffix_lt (by rw [htake]; exact htotal)
    rwa [htake] at hlt

/-- The text of rows, with a newline after each explicit break. -/
def rowsText (rows : List Row) : Str :=
  rows.flatMap fun row => row.text ++ if row.explicitBreak then ['\n'] else []

namespace RowBuilder

def new (targetWidth : Nat) : RowBuilder := ⟨max targetWidth 1, [], []⟩

def wrapCurrentLine (b : RowBuilder) : RowBuilder :=
  let (rows, line) := wrap charWidth b.targetWidth b.currentLine
  { b with rows := b.rows ++ rows, currentLine := line }

def flushCurrentLine (explicitBreak : Bool) (b : RowBuilder) : RowBuilder :=
  let b := b.wrapCurrentLine charWidth
  if explicitBreak then
    if b.currentLine = [] then { b with rows := b.rows ++ [⟨[], true⟩], currentLine := [] }
    else { b with rows := b.rows ++ [⟨b.currentLine, true⟩], currentLine := [] }
  else { b with currentLine := [] }

/-- The loop of `push_fragment`, with the part of the fragment from `start` on that it has passed. -/
def pushChars : Str → Str → RowBuilder → RowBuilder
  | passed, [], b =>
    if passed = [] then b
    else ({ b with currentLine := b.currentLine ++ passed } : RowBuilder).wrapCurrentLine charWidth
  | passed, ch :: rest, b =>
    if ch = '\n' then
      let b := if passed = [] then b else { b with currentLine := b.currentLine ++ passed }
      pushChars [] rest (b.flushCurrentLine charWidth true)
    else pushChars (passed ++ [ch]) rest b

def pushFragment (fragment : Str) (b : RowBuilder) : RowBuilder :=
  if fragment = [] then b else b.pushChars charWidth [] fragment

def endLine (b : RowBuilder) : RowBuilder := b.flushCurrentLine charWidth true

/-- All of the text: of the rows, and of the line in progress. -/
def text (b : RowBuilder) : Str := rowsText b.rows ++ b.currentLine

def setWidth (width : Nat) (b : RowBuilder) : RowBuilder :=
  ({ b with targetWidth := max width 1, currentLine := [], rows := [] } : RowBuilder).pushFragment
    charWidth b.text

end RowBuilder

end SheriMl.LiveWrap
