import SheriMl.Lib.Numeral
import SheriMl.Tui.PasteBurst
import SheriMl.Tui.TextArea

/-!
# The chat composer

The part of the composer that edits its text area: pastes, attached images with their placeholders
in the text, remote images before them, and the keys that reach `handle_input_basic`. Popups,
history and submission are not modelled.
-/

namespace SheriMl.Tui

structure AttachedImage where
  placeholder : Str
  path : Str
  deriving DecidableEq

structure ChatComposer where
  textarea : TextArea
  pendingPastes : List (Str × Str)
  largePasteCounters : List (Nat × Nat)
  attachedImages : List AttachedImage
  remoteImageUrls : List Str
  selectedRemoteImageIndex : Option Nat
  pasteBurst : PasteBurst
  disablePasteBurst : Bool

/-- What the composer takes from its surroundings. -/
structure ComposerPlatform extends Platform where
  imagePasteEnabled : Bool
  /-- `normalize_pasted_path`, if `image_dimensions` can be read there -/
  pastedImage : Str → Option Str

def largePasteCharThreshold : Nat := 1000

def localImageLabelText (labelNumber : Nat) : Str :=
  "[Image #" ++ (toString labelNumber).toList ++ "]"

theorem localImageLabelText_ne_nil (n : Nat) : localImageLabelText n ≠ [] := by
  intro h
  have hlast := (List.append_eq_nil_iff.1 h).2
  exact absurd hlast (by decide)

/-- `replace("\r\n", "\n")` -/
def crlfToLf : Str → Str
  | '\r' :: '\n' :: s => '\n' :: crlfToLf s
  | c :: s => c :: crlfToLf s
  | [] => []

/-- The line ends of pasted text. -/
def normalizePasted (pasted : Str) : Str :=
  (crlfToLf pasted).map fun c => if c = '\r' then '\n' else c

def hasCtrlOrAlt (windows : Bool) (mods : KeyModifiers) : Bool :=
  (mods.control || mods.alt) && !mods.isAltgr windows

namespace TextArea

/-- `element_payloads` -/
def elementPayloads (a : TextArea) : List Str :=
  a.elements.filterMap fun e => Str.get? a.text e.range.start e.range.stop

end TextArea

namespace ChatComposer

def new (disablePasteBurst : Bool) : ChatComposer :=
  ⟨.new, [], [], [], [], none, .default, disablePasteBurst⟩

variable (p : ComposerPlatform) (c : ChatComposer)

/-! ## Images -/

/-- One turn of the loop: the placeholder at an index, and in the text the first one like it. -/
def relabelAttachedImage (idx : Nat) : ChatComposer :=
  match c.attachedImages[idx]? with
  | some img =>
    let expected := localImageLabelText (c.remoteImageUrls.length + idx + 1)
    if img.placeholder = expected then c
    else
      { c with
        attachedImages := c.attachedImages.set idx { img with placeholder := expected }
        textarea := (c.textarea.replaceElementPayload img.placeholder expected).1 }
  | none => c

def relabelAttachedImagesAndUpdatePlaceholders : ChatComposer :=
  (List.range c.attachedImages.length).foldl relabelAttachedImage c

def attachImage (path : Str) : ChatComposer :=
  let imageNumber := c.remoteImageUrls.length + c.attachedImages.length + 1
  let placeholder := localImageLabelText imageNumber
  { c with
    textarea := (c.textarea.insertElement placeholder).1
    attachedImages := c.attachedImages ++ [⟨placeholder, path⟩] }

def setRemoteImageUrls (urls : List Str) : ChatComposer :=
  { c with remoteImageUrls := urls, selectedRemoteImageIndex := none
    }.relabelAttachedImagesAndUpdatePlaceholders

def takeRemoteImageUrls : ChatComposer := c.setRemoteImageUrls []

def removeSelectedRemoteImage (selectedIndex : Nat) : ChatComposer :=
  if selectedIndex ≥ c.remoteImageUrls.length then { c with selectedRemoteImageIndex := none }
  else
    let urls := c.remoteImageUrls.eraseIdx selectedIndex
    { c with
      remoteImageUrls := urls
      selectedRemoteImageIndex :=
        if urls.isEmpty then none else some (min selectedIndex (urls.length - 1))
      }.relabelAttachedImagesAndUpdatePlaceholders

/-- A payload that is gone takes its pending paste and its first image with it. -/
def dropRemoved (state : ChatComposer × Bool) (removed : Str) : ChatComposer × Bool :=
  ({ state.1 with
    pendingPastes := state.1.pendingPastes.filter fun paste => paste.1 ≠ removed
    attachedImages := state.1.attachedImages.eraseP fun img => img.placeholder = removed },
    state.2 || state.1.attachedImages.any fun img => img.placeholder = removed)

def reconcileDeletedElements (elementsBefore : List Str) : ChatComposer :=
  let elementsAfter := c.textarea.elementPayloads
  let removed := elementsBefore.filter fun payload => payload ∉ elementsAfter
  let (dropped, removedAnyImage) := removed.foldl dropRemoved (c, false)
  if removedAnyImage then dropped.relabelAttachedImagesAndUpdatePlaceholders else dropped

/-- A key for the text area, and what it deletes there. -/
def inputAndReconcile (event : KeyEvent) : ChatComposer :=
  let after := { c with textarea := c.textarea.input p.toPlatform event }
  if c.pendingPastes.isEmpty && c.attachedImages.isEmpty && c.remoteImageUrls.isEmpty then after
  else after.reconcileDeletedElements c.textarea.elementPayloads

/-! ## Pastes -/

def nextLargePastePlaceholder (charCount : Nat) : Str × ChatComposer :=
  let base : Str := "[Pasted Content " ++ (toString charCount).toList ++ " chars]"
  let nextSuffix := (c.largePasteCounters.lookup charCount).getD 0 + 1
  let counters := (charCount, nextSuffix) ::
    c.largePasteCounters.filter fun counter => counter.1 ≠ charCount
  (if nextSuffix = 1 then base else base ++ " #" ++ (toString nextSuffix).toList,
    { c with largePasteCounters := counters })

def handlePasteImagePath (pasted : Str) : Bool × ChatComposer :=
  match p.pastedImage pasted with
  | some path => (true, c.attachImage path)
  | none => (false, c)

def insertLargePaste (pasted : Str) : ChatComposer :=
  let (placeholder, c) := c.nextLargePastePlaceholder pasted.length
  { c with
    textarea := (c.textarea.insertElement placeholder).1
    pendingPastes := c.pendingPastes ++ [(placeholder, pasted)] }

def insertStr (text : Str) : ChatComposer := { c with textarea := c.textarea.insertStr text }

def insertPaste (pasted : Str) : ChatComposer :=
  if pasted.length > largePasteCharThreshold then c.insertLargePaste pasted
  else if pasted.length > 1 && p.imagePasteEnabled && (c.handlePasteImagePath p pasted).1 then
    (c.handlePasteImagePath p pasted).2.insertStr " "
  else c.insertStr pasted

def handlePaste (pasted : Str) : ChatComposer :=
  let c := c.insertPaste p (normalizePasted pasted)
  { c with pasteBurst := .clearAfterExplicitPaste }

def handlePasteBurstFlush (now : Nat) : ChatComposer :=
  match c.pasteBurst.flushIfDue p.windows now with
  | (.paste pasted, b) => { c with pasteBurst := b }.handlePaste p pasted
  | (.typed ch, b) => { c with pasteBurst := b }.insertStr [ch]
  | (.none, b) => { c with pasteBurst := b }

/-- `flush_before_modified_input`, and the paste of what it returns. -/
def flushBeforeModifiedInput : ChatComposer :=
  match c.pasteBurst.flushBeforeModifiedInput with
  | (some pasted, b) => { c with pasteBurst := b }.handlePaste p pasted
  | (none, b) => { c with pasteBurst := b }

/-! ## Keys -/

def isEmpty : Bool :=
  c.textarea.text.isEmpty && c.attachedImages.isEmpty && c.remoteImageUrls.isEmpty

/-- `clamp_to_char_boundary` of the cursor, and the text before it. -/
def textBeforeCursor : Str := Str.takeBytes c.textarea.cursorPos c.textarea.text

/-- Characters are taken back before the cursor, if they look like a paste. -/
def beginBuffer (retroChars : Nat) (ch : Char) (now : Nat) : Option ChatComposer :=
  let before := c.textBeforeCursor
  match c.pasteBurst.decideBeginBuffer now before retroChars with
  | (some grab, b) =>
    let textarea :=
      if grab.grabbed.isEmpty then c.textarea
      else c.textarea.replaceRange ⟨grab.startByte, Str.utf8Size before⟩ []
    some { c with textarea, pasteBurst := b.appendCharToBuffer ch now }
  | (none, _) => none

/-- `retain(|(placeholder, _)| text_after.contains(placeholder))` -/
def retainPendingPastes : ChatComposer :=
  { c with pendingPastes := c.pendingPastes.filter fun paste =>
      Str.contains c.textarea.text paste.1 }

/-- A key that is not taken into a burst. -/
def insertNonAscii (event : KeyEvent) : ChatComposer :=
  let c := c.flushBeforeModifiedInput p
  { c with textarea := c.textarea.input p.toPlatform event }.retainPendingPastes

def handleNonAsciiChar (ch : Char) (event : KeyEvent) (now : Nat) : ChatComposer :=
  if c.disablePasteBurst then
    { c with textarea := c.textarea.input p.toPlatform event }.retainPendingPastes
  else
    match c.pasteBurst.tryAppendCharIfActive ch now with
    | (true, b) => { c with pasteBurst := b }
    | (false, _) =>
      let c := c.flushBeforeModifiedInput p
      match c.pasteBurst.onPlainCharNoHold p.windows now with
      | (some .bufferAppend, b) => { c with pasteBurst := b.appendCharToBuffer ch now }
      | (some (.beginBuffer retroChars), b) =>
        match { c with pasteBurst := b }.beginBuffer retroChars ch now with
        | some buffering => buffering
        | none => { c with pasteBurst := b }.insertNonAscii p event
      | (_, b) => { c with pasteBurst := b }.insertNonAscii p event

/-- The tail of `handle_input_basic_with_time`: the key goes to the text area. -/
def inputBasic (event : KeyEvent) : ChatComposer :=
  let c :=
    match event.code with
    | .char _ | .enter => c
    | _ => c.flushBeforeModifiedInput p
  let c := c.inputAndReconcile p event
  match event.code with
  | .char _ =>
    if hasCtrlOrAlt p.windows event.modifiers then
      { c with pasteBurst := c.pasteBurst.clearWindowAfterNonChar }
    else c
  | .enter => c
  | _ => { c with pasteBurst := c.pasteBurst.clearWindowAfterNonChar }

def handleAsciiChar (ch : Char) (event : KeyEvent) (now : Nat) : ChatComposer :=
  match c.pasteBurst.onPlainChar p.windows ch now with
  | (.bufferAppend, b) => { c with pasteBurst := b.appendCharToBuffer ch now }
  | (.beginBufferFromPending, b) => { c with pasteBurst := b.appendCharToBuffer ch now }
  | (.retainFirstChar, b) => { c with pasteBurst := b }
  | (.beginBuffer retroChars, b) =>
    match { c with pasteBurst := b }.beginBuffer retroChars ch now with
    | some buffering => buffering
    | none => ({ c with pasteBurst := b }.flushBeforeModifiedInput p).inputBasic p event

def handleInputBasicWithTime (event : KeyEvent) (now : Nat) : ChatComposer :=
  let c := c.handlePasteBurstFlush p now
  match event.code with
  | .char ch =>
    if !hasCtrlOrAlt p.windows event.modifiers && !c.disablePasteBurst then
      if ch.toNat < 128 then c.handleAsciiChar p ch event now
      else c.handleNonAsciiChar p ch event now
    else (c.flushBeforeModifiedInput p).inputBasic p event
  | .enter =>
    if !c.disablePasteBurst && c.pasteBurst.isActive then
      { c with pasteBurst := (c.pasteBurst.appendNewlineIfActive now).2 }
    else c.inputBasic p event
  | _ => c.inputBasic p event

/-- The Enter key of `handle_submission_with_time`, where it is part of a burst. Elsewhere, and in
a slash context, it submits. -/
def handleBurstEnter (now : Nat) : Option ChatComposer :=
  if !c.disablePasteBurst && c.pasteBurst.isActive then
    some { c with pasteBurst := (c.pasteBurst.appendNewlineIfActive now).2 }
  else if !c.disablePasteBurst && c.pasteBurst.newlineShouldInsertInsteadOfSubmit now then
    some { c.insertStr ['\n'] with pasteBurst := c.pasteBurst.extendWindow now }
  else none

end ChatComposer

end SheriMl.Tui
