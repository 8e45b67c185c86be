import Mathlib.Data.Finset.Insert
import SheriMl.Lib.Utf8Bytes
import SheriMl.Rollout.ThreadList

/-!
# The session index

`core/src/rollout/session_index.rs`: a file of thread names that is only appended to, so that the last
entry of a thread or a name counts. One lookup reads the file backwards in chunks and stops at the
first match; the lookup of many threads reads it forwards. Entries are written and read as JSON by
another crate (`EntryJson`).
-/

namespace SheriMl.SessionIndex

open List

open Pieces
open ThreadList (Uuid)

structure SessionIndexEntry where
  id : Uuid
  threadName : Str
  updatedAt : Str
  deriving DecidableEq

/-- `serde_json` on entries. -/
structure EntryJson where
  toString : SessionIndexEntry → Str
  fromStr : Str → Option SessionIndexEntry

def readChunkSize : Nat := 8192

/-! ## Appending -/

/-- `append_session_index_entry`; a missing file is created. -/
def appendSessionIndexEntry (json : EntryJson) (entry : SessionIndexEntry)
    (file : Option (List UInt8)) : Option (List UInt8) :=
  some (file.getD [] ++ Str.asBytes (json.toString entry ++ ['\n']))

/-- `append_thread_name`; `now` is the time of the call, if it can be formatted. -/
def appendThreadName (json : EntryJson) (threadId : Uuid) (name : Str) (now : Option Str)
    (file : Option (List UInt8)) : Option (List UInt8) :=
  let updatedAt := now.getD "unknown"
  appendSessionIndexEntry json ⟨threadId, name, updatedAt⟩ file

/-- `normalize_thread_name` of `core/src/util.rs`. -/
def normalizeThreadName (name : Str) : Option Str :=
  let trimmed := Str.trim name
  if trimmed.isEmpty then none else some trimmed

/-- What `set_thread_name` of `core/src/codex.rs` writes. -/
def setThreadName (json : EntryJson) (persistenceEnabled : Bool) (threadId : Uuid) (name : Str)
    (now : Option Str) (file : Option (List UInt8)) : Option (List UInt8) :=
  match normalizeThreadName name with
  | none => file
  | some name => if persistenceEnabled then appendThreadName json threadId name now file else file

/-! ## Reading backwards -/

/-- The entry of a line, if it is one and satisfies the predicate. -/
def parseLine (json : EntryJson) (predicate : SessionIndexEntry → Bool) (line : List UInt8) :
    Option SessionIndexEntry :=
  (Str.fromUtf8 line).bind fun line =>
    let trimmed := Str.trim (Str.chomp line)
    if trimmed.isEmpty then none else (json.fromStr trimmed).filter predicate

/-- `parse_line_from_rev`, which leaves `line_rev` empty. -/
def parseLineFromRev (json : EntryJson) (predicate : SessionIndexEntry → Bool)
    (lineRev : List UInt8) : Option SessionIndexEntry :=
  if lineRev.isEmpty then none else parseLine json predicate lineRev.reverse

section Scan

variable (json : EntryJson) (predicate : SessionIndexEntry → Bool)

/-- The loop over the bytes of a chunk, from its last: an entry, or the bytes of the line begun. -/
def scanBytes : List UInt8 → List UInt8 → SessionIndexEntry ⊕ List UInt8
  | [], lineRev => .inr lineRev
  | byte :: bytes, lineRev =>
    if byte = 10 then
      match parseLineFromRev json predicate lineRev with
      | some entry => .inl entry
      | none => scanBytes bytes []
    else scanBytes bytes (lineRev ++ [byte])

/-- The loop over the chunks, with what remains of the file before them. -/
def scanChunks (content : List UInt8) (remaining : Nat) (lineRev : List UInt8) :
    Option SessionIndexEntry :=
  if remaining = 0 then parseLineFromRev json predicate lineRev
  else
    let readSize := min remaining readChunkSize
    let buf := (content.drop (remaining - readSize)).take readSize
    match scanBytes json predicate buf.reverse lineRev with
    | .inl entry => some entry
    | .inr lineRev => scanChunks content (remaining - readSize) lineRev
termination_by remaining
decreasing_by
  have hchunk : 0 < readChunkSize := by decide
  omega

def scanIndexFromEnd (content : List UInt8) : Option SessionIndexEntry :=
  scanChunks json predicate content content.length []

end Scan

def findThreadNameById (json : EntryJson) (threadId : Uuid) (file : Option (List UInt8)) :
    Option Str :=
  file.bind fun content =>
    (scanIndexFromEnd json (fun entry => entry.id = threadId) content).map
      SessionIndexEntry.threadName

def findThreadIdByName (json : EntryJson) (name : Str) (file : Option (List UInt8)) : Option Uuid :=
  if (Str.trim name).isEmpty then none
  else
    file.bind fun content =>
      (scanIndexFromEnd json (fun entry => entry.threadName = name) content).map
        SessionIndexEntry.id

/-! ## Reading forwards -/

inductive IoError where
  | invalidData

def insertName (json : EntryJson) (threadIds : Finset Uuid) (names : Uuid → Option Str)
    (line : Str) : Uuid → Option Str :=
  let trimmed := Str.trim line
  if trimmed.isEmpty then names
  else
    match json.fromStr trimmed with
    | none => names
    | some entry =>
      let name := Str.trim entry.threadName
      if name ≠ [] ∧ entry.id ∈ threadIds then Function.update names entry.id (some name)
      else names

def readNames (json : EntryJson) (threadIds : Finset Uuid) :
    (Uuid → Option Str) → List (List UInt8) → Except IoError (Uuid → Option Str)
  | names, [] => .ok names
  | names, piece :: rest =>
    match Str.readLine piece with
    | none => .error .invalidData
    | some line => readNames json threadIds (insertName json threadIds names line) rest

def findThreadNamesByIds (json : EntryJson) (threadIds : Finset Uuid)
    (file : Option (List UInt8)) : Except IoError (Uuid → Option Str) :=
  if threadIds = ∅ then .ok fun _ => none
  else
    match file with
    | none => .ok fun _ => none
    | some content => readNames json threadIds (fun _ => none) (pieces 10 content)

/-! ## The scan against a forward one -/

section Scan

variable {json : EntryJson} {predicate : SessionIndexEntry → Bool}

/-- The last line that is an entry and satisfies the predicate. -/
def scanIndex (json : EntryJson) (predicate : SessionIndexEntry → Bool) (content : List UInt8) :
    Option SessionIndexEntry :=
  ((content.splitOn 10).filterMap (parseLine json predicate)).getLast?

theorem parseLineFromRev_eq (lineRev : List UInt8) :
    parseLineFromRev json predicate lineRev = parseLine json predicate lineRev.reverse := by
  cases lineRev with
  | nil => rfl
  | cons byte lineRev => rfl

/-- What the bytes before a point come to, read backwards, when a line is begun. -/
def scanRest (json : EntryJson) (predicate : SessionIndexEntry → Bool) (bytes lineRev : List UInt8) :
    Option SessionIndexEntry :=
  match scanBytes json predicate bytes lineRev with
  | .inl entry => some entry
  | .inr lineRev => parseLineFromRev json predicate lineRev

theorem scanBytes_append (bytes rest lineRev : List UInt8) :
    scanBytes json predicate (bytes ++ rest) lineRev =
      match scanBytes json predicate bytes lineRev with
      | .inl entry => .inl entry
      | .inr lineRev => scanBytes json predicate rest lineRev := by
  induction bytes generalizing lineRev with
  | nil => rfl
  | cons byte bytes ih =>
    rw [cons_append, scanBytes, scanBytes]
    split
    · cases parseLineFromRev json predicate lineRev with
      | none => exact ih []
      | some entry => rfl
    · exact ih (lineRev ++ [byte])

/-- The chunks together are the bytes before the point. -/
theorem scanChunks_eq (content : List UInt8) (remaining : Nat) (lineRev : List UInt8) :
    scanChunks json predicate content remaining lineRev =
      scanRest json predicate (content.take remaining).reverse lineRev := by
  induction remaining using Nat.strong_induction_on generalizing lineRev with
  | _ remaining ih =>
    rw [scanChunks]
    by_cases hzero : remaining = 0
    · subst hzero
      rfl
    · have hchunk : 0 < readChunkSize := by decide
      have htake : content.take remaining =
          content.take (remaining - min remaining readChunkSize) ++
            (content.drop (remaining - min remaining readChunkSize)).take
              (min remaining readChunkSize) := by
        rw [← take_add]
        congr 1
        omega
      rw [if_neg hzero, scanRest, htake, reverse_append, scanBytes_append]
      dsimp only
      cases scanBytes json predicate ((content.drop (remaining - min remaining readChunkSize)).take
        (min remaining readChunkSize)).reverse lineRev with
      | inl entry => rfl
      | inr lineRev' => exact ih _ (by omega) lineRev'

/-- A line is complete at the newline before it. -/
theorem scanRest_eq (bytes lineRev : List UInt8) (hline : 10 ∉ lineRev) :
    scanRest json predicate bytes lineRev =
      scanIndex json predicate (bytes.reverse ++ lineRev.reverse) := by
  induction bytes generalizing lineRev with
  | nil =>
    have hsingle : (lineRev.reverse).splitOn 10 = [lineRev.reverse] :=
      splitOn_eq_singleton (by rwa [mem_reverse])
    change parseLineFromRev json predicate lineRev = _
    rw [reverse_nil, nil_append, scanIndex, hsingle, parseLineFromRev_eq,
      filterMap_cons]
    cases parseLine json predicate lineRev.reverse with
    | none | some => rfl
  | cons byte bytes ih =>
    rw [reverse_cons, append_assoc, singleton_append, scanRest, scanBytes]
    by_cases hbyte : byte = 10
    · have hsplit : (lineRev.reverse).splitOn 10 = [lineRev.reverse] :=
        splitOn_eq_singleton (by rwa [mem_reverse])
      subst hbyte
      rw [if_pos rfl, scanIndex, splitOn_append_cons_self, hsplit, filterMap_append,
        List.getLast?_append, parseLineFromRev_eq, filterMap_cons]
      cases parseLine json predicate lineRev.reverse with
      | none =>
        have hrest := ih [] not_mem_nil
        rw [reverse_nil, append_nil] at hrest
        exact hrest
      | some entry => rfl
    · rw [if_neg hbyte]
      have hrest := ih (lineRev ++ [byte]) (by simp [hline, Ne.symm hbyte])
      rw [reverse_append, reverse_singleton, singleton_append] at hrest
      exact hrest

/-- Reading backwards in chunks finds what reading forwards would. -/
theorem scanIndexFromEnd_eq (content : List UInt8) :
    scanIndexFromEnd json predicate content = scanIndex json predicate content := by
  rw [scanIndexFromEnd, scanChunks_eq, scanRest_eq _ _ not_mem_nil, take_length,
    reverse_reverse, reverse_nil, append_nil]

end Scan

end SheriMl.SessionIndex
