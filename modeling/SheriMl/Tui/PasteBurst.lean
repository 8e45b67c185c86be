import SheriMl.Lib.ByteRange

/-!
# Paste-burst detection

Terminals without bracketed paste deliver a paste as a stream of keys. The detector holds a first
fast character back, takes a burst of characters into a buffer, and tells the composer what to do
with each character; the composer makes the edits. Times are in nanoseconds.
-/

namespace SheriMl.Tui

def pasteBurstMinChars : Nat := 3

def pasteEnterSuppressWindow : Nat := 120000000

/-- The longest delay between the characters of a burst. -/
def pasteBurstCharInterval (windows : Bool) : Nat := if windows then 30000000 else 8000000

/-- How long a buffered burst waits for another character. -/
def pasteBurstActiveIdleTimeout (windows : Bool) : Nat := if windows then 60000000 else 8000000

structure PasteBurst where
  lastPlainCharTime : Option Nat
  consecutivePlainCharBurst : Nat
  burstWindowUntil : Option Nat
  buffer : Str
  active : Bool
  /-- a first fast character, and when it came -/
  pendingFirstChar : Option (Char × Nat)

inductive CharDecision where
  /-- take characters back that have been inserted -/
  | beginBuffer (retroChars : Nat)
  | bufferAppend
  | retainFirstChar
  | beginBufferFromPending

structure RetroGrab where
  startByte : Nat
  grabbed : Str

inductive FlushResult where
  | paste (text : Str)
  | typed (ch : Char)
  | none

/-- `u16::saturating_add(1)` -/
def succBurst (n : Nat) : Nat := min (n + 1) 65535

/-- The byte position of the last `retroChars` characters. -/
def retroStartIndex (before : Str) (retroChars : Nat) : Nat :=
  Str.utf8Size (before.take (before.length - retroChars))

namespace PasteBurst

def default : PasteBurst := ⟨none, 0, none, [], false, none⟩

variable (windows : Bool) (b : PasteBurst)

/-- A buffer that is not empty counts as a burst. -/
def isActiveInternal : Bool := b.active || !b.buffer.isEmpty

def isActive : Bool := b.isActiveInternal || b.pendingFirstChar.isSome

def notePlainChar (now : Nat) : PasteBurst :=
  let burst :=
    match b.lastPlainCharTime with
    | some prev =>
      if now - prev ≤ pasteBurstCharInterval windows then succBurst b.consecutivePlainCharBurst
      else 1
    | none => 1
  { b with consecutivePlainCharBurst := burst, lastPlainCharTime := some now }

def extendWindow (now : Nat) : PasteBurst :=
  { b with burstWindowUntil := some (now + pasteEnterSuppressWindow) }

def freshPending (now : Nat) : Option Char :=
  match b.pendingFirstChar with
  | some (held, heldAt) =>
    if now - heldAt ≤ pasteBurstCharInterval windows then some held else none
  | none => none

def onPlainChar (ch : Char) (now : Nat) : CharDecision × PasteBurst :=
  let b := b.notePlainChar windows now
  if b.active then (.bufferAppend, b.extendWindow now)
  else
    match b.freshPending windows now with
    | some held =>
      (.beginBufferFromPending, { b with
        active := true
        pendingFirstChar := none
        buffer := b.buffer ++ [held] }.extendWindow now)
    | none =>
      if b.consecutivePlainCharBurst ≥ pasteBurstMinChars then
        (.beginBuffer (b.consecutivePlainCharBurst - 1), b)
      else (.retainFirstChar, { b with pendingFirstChar := some (ch, now) })

def onPlainCharNoHold (now : Nat) : Option CharDecision × PasteBurst :=
  let b := b.notePlainChar windows now
  if b.active then (some .bufferAppend, b.extendWindow now)
  else if b.consecutivePlainCharBurst ≥ pasteBurstMinChars then
    (some (.beginBuffer (b.consecutivePlainCharBurst - 1)), b)
  else (none, b)

def flushIfDue (now : Nat) : FlushResult × PasteBurst :=
  let timeout :=
    if b.isActiveInternal then pasteBurstActiveIdleTimeout windows
    else pasteBurstCharInterval windows
  let timedOut :=
    match b.lastPlainCharTime with
    | some t => decide (now - t > timeout)
    | none => false
  if timedOut && b.isActiveInternal then (.paste b.buffer, { b with active := false, buffer := [] })
  else if timedOut then
    match b.pendingFirstChar with
    | some (ch, _) => (.typed ch, { b with pendingFirstChar := none })
    | none => (.none, b)
  else (.none, b)

def appendNewlineIfActive (now : Nat) : Bool × PasteBurst :=
  if b.isActive then (true, { b with buffer := b.buffer ++ ['\n'] }.extendWindow now)
  else (false, b)

def newlineShouldInsertInsteadOfSubmit (now : Nat) : Bool :=
  let inBurstWindow :=
    match b.burstWindowUntil with
    | some until' => decide (now ≤ until')
    | none => false
  b.isActive || inBurstWindow

def beginWithRetroGrabbed (grabbed : Str) (now : Nat) : PasteBurst :=
  { b with buffer := b.buffer ++ grabbed, active := true }.extendWindow now

def appendCharToBuffer (ch : Char) (now : Nat) : PasteBurst :=
  { b with buffer := b.buffer ++ [ch] }.extendWindow now

def tryAppendCharIfActive (ch : Char) (now : Nat) : Bool × PasteBurst :=
  if b.isActiveInternal then (true, b.appendCharToBuffer ch now) else (false, b)

def decideBeginBuffer (now : Nat) (before : Str) (retroChars : Nat) :
    Option RetroGrab × PasteBurst :=
  let startByte := retroStartIndex before retroChars
  let grabbed := Str.dropBytes startByte before
  let looksPastey := grabbed.any Str.isWhitespace || grabbed.length ≥ 16
  if looksPastey then (some ⟨startByte, grabbed⟩, b.beginWithRetroGrabbed grabbed now)
  else (none, b)

def flushBeforeModifiedInput : Option Str × PasteBurst :=
  if !b.isActive then (none, b)
  else
    match b.pendingFirstChar with
    | some (ch, _) =>
      (some (b.buffer ++ [ch]), { b with active := false, buffer := [], pendingFirstChar := none })
    | none => (some b.buffer, { b with active := false, buffer := [] })

/-- The buffer is left as it is. -/
def clearWindowAfterNonChar : PasteBurst :=
  { b with
    consecutivePlainCharBurst := 0
    lastPlainCharTime := none
    burstWindowUntil := none
    active := false
    pendingFirstChar := none }

def clearAfterExplicitPaste : PasteBurst := default

end PasteBurst

end SheriMl.Tui
