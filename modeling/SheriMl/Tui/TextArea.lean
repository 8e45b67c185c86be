import SheriMl.Tui.TextElements

/-!
# The text area

The editable text of the composer: a text, a cursor, the elements in the text and a kill buffer.
Positions are byte positions. Graphemes, display widths and the wrapping of lines come from
libraries and are parameters (`Platform`); the lines drawn last are remembered, because the cursor
moves up and down between them.
-/

namespace SheriMl.Tui

/-- What the text area takes from libraries, and from the platform it is built for. -/
structure Platform where
  /-- `GraphemeCursor::new(pos, text.len(), false).prev_boundary(text, 0)` -/
  prevBoundary : Str → Nat → Except Unit (Option Nat)
  /-- `GraphemeCursor::new(pos, text.len(), false).next_boundary(text, 0)` -/
  nextBoundary : Str → Nat → Except Unit (Option Nat)
  /-- `graphemes(true)` -/
  graphemes : Str → List Str
  /-- `UnicodeWidthStr::width` -/
  width : Str → Nat
  /-- `textwrap::wrap` at a width, by the ranges that it borrows -/
  wrap : Str → Nat → List Range
  windows : Bool

/-- With the whole text at hand, a grapheme cursor at a boundary does not fail, and what it finds
is a boundary before or after. -/
structure Platform.Lawful (p : Platform) : Prop where
  prev : ∀ {text pos}, Str.IsBoundary text pos → ∃ found, p.prevBoundary text pos = .ok found ∧
    ∀ b, found = some b → Str.IsBoundary text b ∧ b ≤ pos
  next : ∀ {text pos}, Str.IsBoundary text pos → ∃ found, p.nextBoundary text pos = .ok found ∧
    ∀ b, found = some b → Str.IsBoundary text b ∧ pos ≤ b

structure WrapCache where
  width : Nat
  lines : List Range
  deriving DecidableEq

structure TextArea where
  text : Str
  cursorPos : Nat
  wrapCache : Option WrapCache
  preferredCol : Option Nat
  elements : List TextElement
  nextElementId : Nat
  killBuffer : Str
  deriving DecidableEq

def wordSeparators : Str := "\x60~!@#$%^&*()-=+[\x7b]\x7d\\|;:'\",.<>/?"

def isWordSeparator (ch : Char) : Bool := ch ∈ wordSeparators

/-- Of the same kind as the character a word starts with. -/
def inWord (first ch : Char) : Bool :=
  !Str.isWhitespace ch && isWordSeparator ch == isWordSeparator first

/-- `find('\n')` -/
def findNewline (s : Str) : Option Nat :=
  if '\n' ∈ s then some (Str.utf8Size (s.takeWhile (· ≠ '\n'))) else none

/-- `rfind('\n')` -/
def rfindNewline (s : Str) : Option Nat :=
  if '\n' ∈ s then some (Str.utf8Size (s.reverse.dropWhile (· ≠ '\n')).tail) else none

def beginningOfLine (text : Str) (pos : Nat) : Nat :=
  ((rfindNewline (Str.takeBytes pos text)).map (· + 1)).getD 0

def endOfLine (text : Str) (pos : Nat) : Nat :=
  ((findNewline (Str.dropBytes pos text)).map (· + pos)).getD (Str.utf8Size text)

/-- `wrap_ranges`: trailing spaces and one byte more belong to a line. -/
def wrapRanges (p : Platform) (text : Str) (width : Nat) : List Range :=
  (p.wrap text width).map fun line =>
    let trailingSpaces := ((Str.dropBytes line.stop text).takeWhile (· = ' ')).length
    ⟨line.start, line.stop + trailingSpaces + 1⟩

/-- `partition_point(|r| r.start <= pos)`, less one. -/
def wrappedLineIndexByStart (lines : List Range) (pos : Nat) : Option Nat :=
  match (lines.takeWhile fun r => r.start ≤ pos).length with
  | 0 => none
  | idx + 1 => some idx

/-- The offset of the grapheme that goes beyond a column. -/
def offsetBeyond (p : Platform) (targetCol : Nat) : List Str → Nat → Nat → Option Nat
  | [], _, _ => none
  | g :: gs, widthSoFar, i =>
    if widthSoFar + p.width g > targetCol then some i
    else offsetBeyond p targetCol gs (widthSoFar + p.width g) (i + Str.utf8Size g)

/-- `u64::MAX` -/
def maxElementId : Nat := 18446744073709551615

/-- `saturating_add(1)` -/
def succElementId (id : Nat) : Nat := min (id + 1) maxElementId

/-- One of the given elements: ranges are clamped, and empty ones are passed over. -/
def pushGiven (text : Str) (given : List TextElement × Nat) (range : Range) :
    List TextElement × Nat :=
  let start := clampPosToCharBoundary text (min range.start (Str.utf8Size text))
  let stop := clampPosToCharBoundary text (min range.stop (Str.utf8Size text))
  if start ≥ stop then given
  else (given.1 ++ [⟨given.2, ⟨start, stop⟩⟩], succElementId given.2)

namespace TextArea

def new : TextArea := ⟨[], 0, none, none, [], 1, []⟩

variable (p : Platform) (a : TextArea)

/-! ## Text -/

def setTextInner (text : Str) (elements : Option (List Range)) : TextArea :=
  let cursorPos := min a.cursorPos (Str.utf8Size text)
  let given := (elements.getD []).foldl (pushGiven text) ([], a.nextElementId)
  let elements := sortByStart given.1
  { text, elements
    nextElementId := given.2
    cursorPos := clampPosToNearestBoundary text elements cursorPos
    wrapCache := none
    preferredCol := none
    killBuffer := [] }

def setTextClearingElements (text : Str) : TextArea := a.setTextInner text none

def setTextWithElements (text : Str) (elements : List Range) : TextArea :=
  a.setTextInner text (some elements)

def insertStrAt (pos : Nat) (text : Str) : TextArea :=
  let pos := clampPosForInsertion a.text a.elements pos
  { a with
    text := Str.splice a.text pos pos text
    wrapCache := none
    cursorPos := if pos ≤ a.cursorPos then a.cursorPos + Str.utf8Size text else a.cursorPos
    elements := shiftElements a.elements pos 0 (Str.utf8Size text)
    preferredCol := none }

def insertStr (text : Str) : TextArea := a.insertStrAt a.cursorPos text

def updateElementsAfterReplace (start stop insertedLen : Nat) : List TextElement :=
  shiftElements a.elements start (stop - start) insertedLen

def replaceRangeRaw (range : Range) (text : Str) : TextArea :=
  let start := min range.start (Str.utf8Size a.text)
  let stop := min range.stop (Str.utf8Size a.text)
  let removedLen := stop - start
  let insertedLen := Str.utf8Size text
  if removedLen = 0 ∧ insertedLen = 0 then a
  else
    let newText := Str.splice a.text range.start range.stop text
    let elements := a.updateElementsAfterReplace start stop insertedLen
    let cursorPos :=
      if a.cursorPos < start then a.cursorPos
      else if a.cursorPos ≤ stop then start + insertedLen
      else a.cursorPos + insertedLen - removedLen
    { a with
      text := newText
      wrapCache := none
      preferredCol := none
      elements
      cursorPos := clampPosToNearestBoundary newText elements
        (min cursorPos (Str.utf8Size newText)) }

def replaceRange (range : Range) (text : Str) : TextArea :=
  a.replaceRangeRaw (expandRangeToElementBoundaries a.elements range) text

def setCursor (pos : Nat) : TextArea :=
  { a with
    cursorPos := clampPosToNearestBoundary a.text a.elements (min pos (Str.utf8Size a.text))
    preferredCol := none }

/-- `wrapped_lines`: the lines of another width are wrapped again, and remembered. -/
def wrappedLines (width : Nat) : TextArea :=
  match a.wrapCache with
  | some cache =>
    if cache.width ≠ width then
      { a with wrapCache := some ⟨width, wrapRanges p a.text width⟩ }
    else a
  | none => { a with wrapCache := some ⟨width, wrapRanges p a.text width⟩ }

/-! ## Boundaries -/

def prevAtomicBoundary (pos : Nat) : Nat :=
  if pos = 0 then 0
  else
    -- at the end of an element or inside it, to its start
    match a.elements.find? fun e => pos > e.range.start && pos ≤ e.range.stop with
    | some e => e.range.start
    | none =>
      match p.prevBoundary a.text pos with
      | .ok (some b) =>
        match findElementContaining a.elements b with
        | some e => e.range.start
        | none => b
      | .ok none => 0
      | .error _ => pos - 1

def nextAtomicBoundary (pos : Nat) : Nat :=
  if pos ≥ Str.utf8Size a.text then Str.utf8Size a.text
  else
    match a.elements.find? fun e => pos ≥ e.range.start && pos < e.range.stop with
    | some e => e.range.stop
    | none =>
      match p.nextBoundary a.text pos with
      | .ok (some b) =>
        match findElementContaining a.elements b with
        | some e => e.range.stop
        | none => b
      | .ok none => Str.utf8Size a.text
      | .error _ => pos + 1

def beginningOfPreviousWord : Nat :=
  match (Str.takeBytes a.cursorPos a.text).reverse.dropWhile Str.isWhitespace with
  | [] => 0
  | ch :: rest =>
    let start := Str.utf8Size (rest.dropWhile (inWord ch))
    adjustPosOutOfElements a.elements start true

def endOfNextWord : Nat :=
  let rest := Str.dropBytes a.cursorPos a.text
  let wordStart := a.cursorPos + Str.utf8Size (rest.takeWhile Str.isWhitespace)
  match rest.dropWhile Str.isWhitespace with
  | [] => Str.utf8Size a.text
  | firstCh :: rest =>
    let stop := wordStart + Str.utf8Size (firstCh :: rest.takeWhile (inWord firstCh))
    adjustPosOutOfElements a.elements stop false

def beginningOfCurrentLine : Nat := beginningOfLine a.text a.cursorPos

def endOfCurrentLine : Nat := endOfLine a.text a.cursorPos

def currentDisplayCol : Nat :=
  p.width (Str.slice a.text a.beginningOfCurrentLine a.cursorPos)

/-! ## Deleting, killing and yanking -/

/-- At most `n` steps back, and none from the beginning. -/
def stepsBackward : Nat → Nat → Nat
  | 0, target => target
  | n + 1, target =>
    let target := a.prevAtomicBoundary p target
    if target = 0 then target else stepsBackward n target

def stepsForward : Nat → Nat → Nat
  | 0, target => target
  | n + 1, target =>
    let target := a.nextAtomicBoundary p target
    if target ≥ Str.utf8Size a.text then target else stepsForward n target

def deleteBackward (n : Nat) : TextArea :=
  if n = 0 ∨ a.cursorPos = 0 then a
  else a.replaceRange ⟨a.stepsBackward p n a.cursorPos, a.cursorPos⟩ []

def deleteForward (n : Nat) : TextArea :=
  if n = 0 ∨ a.cursorPos ≥ Str.utf8Size a.text then a
  else a.replaceRange ⟨a.cursorPos, a.stepsForward p n a.cursorPos⟩ []

def killRange (range : Range) : TextArea :=
  let range := expandRangeToElementBoundaries a.elements range
  if range.start ≥ range.stop then a
  else
    let removed := Str.slice a.text range.start range.stop
    if removed.isEmpty then a
    else { a with killBuffer := removed }.replaceRangeRaw range []

def deleteBackwardWord : TextArea := a.killRange ⟨a.beginningOfPreviousWord, a.cursorPos⟩

def deleteForwardWord : TextArea :=
  if a.endOfNextWord > a.cursorPos then a.killRange ⟨a.cursorPos, a.endOfNextWord⟩ else a

def killToEndOfLine : TextArea :=
  let eol := a.endOfCurrentLine
  if a.cursorPos = eol then
    if eol < Str.utf8Size a.text then a.killRange ⟨a.cursorPos, eol + 1⟩ else a
  else a.killRange ⟨a.cursorPos, eol⟩

def killToBeginningOfLine : TextArea :=
  let bol := a.beginningOfCurrentLine
  if a.cursorPos = bol then
    if bol > 0 then a.killRange ⟨bol - 1, bol⟩ else a
  else a.killRange ⟨bol, a.cursorPos⟩

def yank : TextArea := if a.killBuffer.isEmpty then a else a.insertStr a.killBuffer

/-! ## Moving the cursor -/

def moveCursorLeft : TextArea :=
  { a with cursorPos := a.prevAtomicBoundary p a.cursorPos, preferredCol := none }

def moveCursorRight : TextArea :=
  { a with cursorPos := a.nextAtomicBoundary p a.cursorPos, preferredCol := none }

def moveToDisplayColOnLine (lineStart lineEnd targetCol : Nat) : TextArea :=
  let line := p.graphemes (Str.slice a.text lineStart lineEnd)
  let pos := ((offsetBeyond p targetCol line 0 0).map (lineStart + ·)).getD lineEnd
  { a with cursorPos := clampPosToNearestBoundary a.text a.elements pos }

/-- From the lines drawn last: the column to keep, and the neighbouring line if there is one. -/
def visualTarget (neighbour : List Range → Nat → Option Range) : Option (Nat × Option Range) := do
  let cache ← a.wrapCache
  let idx ← wrappedLineIndexByStart cache.lines a.cursorPos
  let cur ← cache.lines[idx]?
  let targetCol := a.preferredCol.getD (p.width (Str.slice a.text cur.start a.cursorPos))
  some (targetCol, (neighbour cache.lines idx).map fun line => ⟨line.start, line.stop - 1⟩)

def moveCursorUp : TextArea :=
  match a.visualTarget p fun lines idx => if idx > 0 then lines[idx - 1]? else none with
  | some (targetCol, some line) =>
    { a with preferredCol := a.preferredCol <|> some targetCol }.moveToDisplayColOnLine p
      line.start line.stop targetCol
  | some (_, none) => { a with cursorPos := 0, preferredCol := none }
  | none =>
    match rfindNewline (Str.takeBytes a.cursorPos a.text) with
    | some prevNl =>
      let targetCol := a.preferredCol.getD (a.currentDisplayCol p)
      { a with preferredCol := some targetCol }.moveToDisplayColOnLine p
        (beginningOfLine a.text prevNl) prevNl targetCol
    | none => { a with cursorPos := 0, preferredCol := none }

def moveCursorDown : TextArea :=
  match a.visualTarget p fun lines idx => lines[idx + 1]? with
  | some (targetCol, some line) =>
    { a with preferredCol := a.preferredCol <|> some targetCol }.moveToDisplayColOnLine p
      line.start line.stop targetCol
  | some (_, none) => { a with cursorPos := Str.utf8Size a.text, preferredCol := none }
  | none =>
    let targetCol := a.preferredCol.getD (a.currentDisplayCol p)
    match findNewline (Str.dropBytes a.cursorPos a.text) with
    | some i =>
      let nextLineStart := i + a.cursorPos + 1
      { a with preferredCol := some targetCol }.moveToDisplayColOnLine p
        nextLineStart (endOfLine a.text nextLineStart) targetCol
    | none => { a with cursorPos := Str.utf8Size a.text, preferredCol := none }

def moveCursorToBeginningOfLine (moveUpAtBol : Bool) : TextArea :=
  let bol := a.beginningOfCurrentLine
  if moveUpAtBol ∧ a.cursorPos = bol then
    a.setCursor (beginningOfLine a.text (a.cursorPos - 1))
  else a.setCursor bol

def moveCursorToEndOfLine (moveDownAtEol : Bool) : TextArea :=
  let eol := a.endOfCurrentLine
  if moveDownAtEol ∧ a.cursorPos = eol then
    a.setCursor (endOfLine a.text (min (a.cursorPos + 1) (Str.utf8Size a.text)))
  else a.setCursor eol

/-! ## Elements -/

/-- `text_element_snapshots`, by ids and texts. -/
def textElementSnapshots : List (Nat × Str) := snapshots a.text a.elements

/-- `self.text.get(e.range.clone()) == Some(payload)` -/
def hasPayload (payload : Str) (e : TextElement) : Bool :=
  Str.get? a.text e.range.start e.range.stop == some payload

def replaceElementPayload (old new : Str) : TextArea × Bool :=
  match a.elements.dropWhile fun e => !a.hasPayload old e with
  | [] => (a, false)
  | e :: after =>
    if e.range.start > e.range.stop ∨ e.range.stop > Str.utf8Size a.text then (a, false)
    else
      let before := a.elements.takeWhile fun e => !a.hasPayload old e
      let newText := Str.splice a.text e.range.start e.range.stop new
      let elements := renameElements before e after (Str.utf8Size new)
      let cursorPos :=
        if a.cursorPos < e.range.start then a.cursorPos
        else if a.cursorPos ≤ e.range.stop then e.range.start + Str.utf8Size new
        else a.cursorPos + Str.utf8Size new - (e.range.stop - e.range.start)
      ({ a with
        text := newText
        wrapCache := none
        preferredCol := none
        cursorPos := clampPosToNearestBoundary newText elements cursorPos
        elements := sortByStart elements }, true)

def addElement (range : Range) : TextArea × Nat :=
  ({ a with
    nextElementId := succElementId a.nextElementId
    elements := sortByStart (a.elements ++ [⟨a.nextElementId, range⟩]) }, a.nextElementId)

def insertElement (text : Str) : TextArea × Nat :=
  let start := clampPosForInsertion a.text a.elements a.cursorPos
  let stop := start + Str.utf8Size text
  let (added, id) := (a.insertStrAt start text).addElement ⟨start, stop⟩
  (added.setCursor stop, id)

def addElementRange (range : Range) : TextArea × Option Nat :=
  let start := clampPosToCharBoundary a.text (min range.start (Str.utf8Size a.text))
  let stop := clampPosToCharBoundary a.text (min range.stop (Str.utf8Size a.text))
  if start ≥ stop then (a, none)
  else if a.elements.any fun e => e.range.start == start && e.range.stop == stop then (a, none)
  else if a.elements.any fun e => start < e.range.stop && stop > e.range.start then (a, none)
  else
    ({ a with
      nextElementId := succElementId a.nextElementId
      elements := sortByStart (a.elements ++ [⟨a.nextElementId, ⟨start, stop⟩⟩]) },
      some a.nextElementId)

def removeElementRange (range : Range) : TextArea × Bool :=
  let start := clampPosToCharBoundary a.text (min range.start (Str.utf8Size a.text))
  let stop := clampPosToCharBoundary a.text (min range.stop (Str.utf8Size a.text))
  if start ≥ stop then (a, false)
  else
    let kept := a.elements.filter fun e => e.range.start ≠ start ∨ e.range.stop ≠ stop
    ({ a with elements := kept }, a.elements.length != kept.length)

end TextArea

/-! ## Operations and keys -/

/-- The operations of a text area, with their arguments. -/
inductive Op where
  | setTextClearingElements (text : Str)
  | setTextWithElements (text : Str) (elements : List Range)
  | insertStr (text : Str)
  | insertStrAt (pos : Nat) (text : Str)
  | replaceRange (range : Range) (text : Str)
  | setCursor (pos : Nat)
  | wrappedLines (width : Nat)
  | deleteBackward (n : Nat)
  | deleteForward (n : Nat)
  | deleteBackwardWord
  | deleteForwardWord
  | killToEndOfLine
  | killToBeginningOfLine
  | yank
  | moveCursorLeft
  | moveCursorRight
  | moveCursorUp
  | moveCursorDown
  | moveCursorToBeginningOfLine (moveUpAtBol : Bool)
  | moveCursorToEndOfLine (moveDownAtEol : Bool)
  | replaceElementPayload (old new : Str)
  | insertElement (text : Str)
  | addElementRange (range : Range)
  | removeElementRange (range : Range)

/-- The state an operation leads to. -/
def TextArea.apply (p : Platform) (a : TextArea) : Op → TextArea
  | .setTextClearingElements text => a.setTextClearingElements text
  | .setTextWithElements text elements => a.setTextWithElements text elements
  | .insertStr text => a.insertStr text
  | .insertStrAt pos text => a.insertStrAt pos text
  | .replaceRange range text => a.replaceRange range text
  | .setCursor pos => a.setCursor pos
  | .wrappedLines width => a.wrappedLines p width
  | .deleteBackward n => a.deleteBackward p n
  | .deleteForward n => a.deleteForward p n
  | .deleteBackwardWord => a.deleteBackwardWord
  | .deleteForwardWord => a.deleteForwardWord
  | .killToEndOfLine => a.killToEndOfLine
  | .killToBeginningOfLine => a.killToBeginningOfLine
  | .yank => a.yank
  | .moveCursorLeft => a.moveCursorLeft p
  | .moveCursorRight => a.moveCursorRight p
  | .moveCursorUp => a.moveCursorUp p
  | .moveCursorDown => a.moveCursorDown p
  | .moveCursorToBeginningOfLine moveUpAtBol => a.moveCursorToBeginningOfLine moveUpAtBol
  | .moveCursorToEndOfLine moveDownAtEol => a.moveCursorToEndOfLine moveDownAtEol
  | .replaceElementPayload old new => (a.replaceElementPayload old new).1
  | .insertElement text => (a.insertElement text).1
  | .addElementRange range => (a.addElementRange range).1
  | .removeElementRange range => (a.removeElementRange range).1

inductive KeyCode where
  | char (c : Char)
  | enter
  | backspace
  | delete
  | left
  | right
  | up
  | down
  | home
  | stop
  | other

structure KeyModifiers where
  shift : Bool := false
  control : Bool := false
  alt : Bool := false
  super : Bool := false
  hyper : Bool := false
  metaKey : Bool := false
  deriving DecidableEq

namespace KeyModifiers

def none : KeyModifiers := {}

def onlyShift : KeyModifiers := { shift := true }

def onlyControl : KeyModifiers := { control := true }

def onlyAlt : KeyModifiers := { alt := true }

/-- `is_altgr`: never but on Windows. -/
def isAltgr (windows : Bool) (mods : KeyModifiers) : Bool := windows && mods.alt && mods.control

end KeyModifiers

structure KeyEvent where
  code : KeyCode
  modifiers : KeyModifiers

namespace KeyEvent

def charOp (p : Platform) (a : TextArea) (c : Char) (mods : KeyModifiers) : Option Op :=
  -- some terminals send these chords as control characters without the modifier
  if c = '\x02' ∧ mods = .none then some .moveCursorLeft
  else if c = '\x06' ∧ mods = .none then some .moveCursorRight
  else if c = '\x10' ∧ mods = .none then some .moveCursorUp
  else if c = '\x0e' ∧ mods = .none then some .moveCursorDown
  else if mods = .none ∨ mods = .onlyShift then some (.insertStr [c])
  else if (c = 'j' ∨ c = 'm') ∧ mods = .onlyControl then some (.insertStr ['\n'])
  else if c = 'h' ∧ mods = { control := true, alt := true } then some .deleteBackwardWord
  else if mods.isAltgr p.windows then some (.insertStr [c])
  else if c = 'h' ∧ mods = .onlyControl then some (.deleteBackward 1)
  else if c = 'd' ∧ mods = .onlyControl then some (.deleteForward 1)
  else if c = 'w' ∧ mods = .onlyControl then some .deleteBackwardWord
  else if c = 'b' ∧ mods = .onlyAlt then some (.setCursor a.beginningOfPreviousWord)
  else if c = 'f' ∧ mods = .onlyAlt then some (.setCursor a.endOfNextWord)
  else if c = 'u' ∧ mods = .onlyControl then some .killToBeginningOfLine
  else if c = 'k' ∧ mods = .onlyControl then some .killToEndOfLine
  else if c = 'y' ∧ mods = .onlyControl then some .yank
  else if c = 'b' ∧ mods = .onlyControl then some .moveCursorLeft
  else if c = 'f' ∧ mods = .onlyControl then some .moveCursorRight
  else if c = 'p' ∧ mods = .onlyControl then some .moveCursorUp
  else if c = 'n' ∧ mods = .onlyControl then some .moveCursorDown
  else if c = 'a' ∧ mods = .onlyControl then some (.moveCursorToBeginningOfLine true)
  else if c = 'e' ∧ mods = .onlyControl then some (.moveCursorToEndOfLine true)
  else none

/-- The operation a key stands for. -/
def op (p : Platform) (a : TextArea) (event : KeyEvent) : Option Op :=
  match event.code with
  | .char c => charOp p a c event.modifiers
  | .enter => some (.insertStr ['\n'])
  | .backspace =>
    if event.modifiers = .onlyAlt then some .deleteBackwardWord else some (.deleteBackward 1)
  | .delete =>
    if event.modifiers = .onlyAlt then some .deleteForwardWord else some (.deleteForward 1)
  | .left =>
    if event.modifiers = .none then some .moveCursorLeft
    else if event.modifiers = .onlyAlt ∨ event.modifiers = .onlyControl then
      some (.setCursor a.beginningOfPreviousWord)
    else none
  | .right =>
    if event.modifiers = .none then some .moveCursorRight
    else if event.modifiers = .onlyAlt ∨ event.modifiers = .onlyControl then
      some (.setCursor a.endOfNextWord)
    else none
  | .up => some .moveCursorUp
  | .down => some .moveCursorDown
  | .home => some (.moveCursorToBeginningOfLine false)
  | .stop => some (.moveCursorToEndOfLine false)
  | .other => none

end KeyEvent

def TextArea.input (p : Platform) (a : TextArea) (event : KeyEvent) : TextArea :=
  match event.op p a with
  | some op => a.apply p op
  | none => a

end SheriMl.Tui
