import SheriMl.Lib.Float64
import SheriMl.Lib.Utf8Bytes

/-!
# The message history file

`core/src/message_history.rs`: a file of entries, one on each line, that is appended to by any
number of processes. What the file holds over `max_bytes` is trimmed from its front, down to
`trim_target_bytes`: the file is rewritten in place, and keeps its inode. Entries are written and
read as JSON by another crate (`EntryJson`).
-/

namespace SheriMl.MessageHistory

open Pieces

structure HistoryEntry where
  sessionId : Str
  ts : Nat
  text : Str
  deriving DecidableEq

/-- `serde_json` on entries. -/
structure EntryJson where
  toString : HistoryEntry → Str
  fromStr : Str → Option HistoryEntry

inductive HistoryPersistence where
  | saveAll
  | none

structure History where
  persistence : HistoryPersistence
  maxBytes : Option Nat

inductive IoError where
  | invalidData
  | wouldBlock

structure HistoryFile where
  ino : Nat
  content : List UInt8

/-! ## The cap -/

/-- `HISTORY_SOFT_CAP_RATIO` as a float, in units of 2⁻⁵². -/
def historySoftCapRatio : Nat := 3602879701896397

/-- `(max_bytes as f64 * HISTORY_SOFT_CAP_RATIO).floor().clamp(1.0, max_bytes as f64) as u64` -/
def softCapBytes (maxBytes : Nat) : Nat :=
  let max64 := Float64.round maxBytes
  let product := Float64.round (max64 * historySoftCapRatio) / 2 ^ 52
  min (max 1 (min product max64)) (2 ^ 64 - 1)

def trimTargetBytes (maxBytes newestEntryLen : Nat) : Nat :=
  max (softCapBytes maxBytes) newestEntryLen

/-- The loop that drops lines, of those before the newest one: what is left and what is dropped. -/
def dropOldest (trimTarget : Nat) : List Nat → Nat → Nat → Nat × Nat
  | [], currentLen, dropBytes => (currentLen, dropBytes)
  | len :: lens, currentLen, dropBytes =>
    if trimTarget < currentLen then dropOldest trimTarget lens (currentLen - len) (dropBytes + len)
    else (currentLen, dropBytes)

/-- `read_line` up to the end. -/
def lineLengths (content : List UInt8) : Except IoError (List Nat) :=
  if (pieces 10 content).all fun line => (Str.fromUtf8 line).isSome then
    .ok ((pieces 10 content).map List.length)
  else .error .invalidData

/-- What is in the file afterwards. -/
def enforceHistoryLimit (maxBytes : Option Nat) (content : List UInt8) :
    Except IoError (List UInt8) := do
  let some maxBytes := maxBytes | return content
  if maxBytes = 0 then return content
  if content.length ≤ maxBytes then return content
  let lens ← lineLengths content
  let some newest := lens.getLast? | return content
  let trimTarget := trimTargetBytes maxBytes newest
  let (_, dropBytes) := dropOldest trimTarget lens.dropLast content.length 0
  if dropBytes = 0 then return content
  return content.drop dropBytes

/-- What `append_entry` does under the lock; the line stays if the limit cannot be enforced. -/
def appendLocked (maxBytes : Option Nat) (line : List UInt8) (file : HistoryFile) :
    Except IoError Unit × HistoryFile :=
  let content := file.content ++ line
  match enforceHistoryLimit maxBytes content with
  | .ok trimmed => (.ok (), { file with content := trimmed })
  | .error e => (.error e, { file with content })

/-! ## Reading -/

def historyMetadata (file : Option HistoryFile) : Nat × Nat :=
  match file with
  | some file => (file.ino, file.content.count 10)
  | none => (0, 0)

/-- The loop over the lines, up to the one at `offset`. -/
def lookupLines (json : EntryJson) : Nat → List (List UInt8) → Option HistoryEntry
  | _, [] => none
  | offset, piece :: rest =>
    (Str.readLine piece).bind fun line =>
      match offset with
      | 0 => json.fromStr line
      | offset + 1 => lookupLines json offset rest

def lookup (json : EntryJson) (file : Option HistoryFile) (logId offset : Nat) :
    Option HistoryEntry :=
  file.bind fun file =>
    if logId ≠ 0 ∧ file.ino ≠ logId then none
    else lookupLines json offset (pieces 10 file.content)

end SheriMl.MessageHistory
