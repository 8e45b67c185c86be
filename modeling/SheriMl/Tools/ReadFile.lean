import SheriMl.Lib.Loop
import SheriMl.Lib.Machine
import SheriMl.Lib.Utf8
import SheriMl.Tools.Router

/-!
# The indentation mode of `read_file`

`indentation::read_block` of `core/src/tools/handlers/read_file.rs`: from an anchor line, two
cursors take lines above and below in turn, as far as they are indented enough, and blank lines
are trimmed from the result. The bytes of the file, their lossy decoding and the allocator are
open; a computation that overflows or runs out of memory crashes (`Machine.Stop`).
-/

namespace SheriMl.Tools

open Machine

def maxLineLength : Nat := 500

def tabWidth : Nat := 4

def commentPrefixes : List Str := ["#", "//", "--"]

structure IndentationArgs where
  anchorLine : Option Nat := none
  /-- `0` means unlimited. -/
  maxLevels : Nat := 0
  includeSiblings : Bool := false
  includeHeader : Bool := true
  maxLines : Option Nat := none

structure LineRecord where
  number : Nat
  raw : Str
  display : Str
  indent : Nat

namespace LineRecord

def trimmed (record : LineRecord) : Str := Str.trimStart record.raw

def isBlank (record : LineRecord) : Bool := record.trimmed.isEmpty

def isComment (record : LineRecord) : Bool :=
  commentPrefixes.any fun p => Str.startsWith (Str.trim record.raw) p

def render (record : LineRecord) : Str :=
  "L" ++ (toString record.number).toList ++ ": " ++ record.display

end LineRecord

/-- A file: its size is an `off_t`. -/
structure File where
  content : List UInt8
  length_le : (content.length : Int) ≤ IntTy.isize.max

/-- What `read_until` reads up to each newline, with it, and then up to the end. -/
def readUntilNewlines : List UInt8 → List (List UInt8)
  | [] => []
  | b :: rest =>
    if b = 10 then [b] :: readUntilNewlines rest
    else
      match readUntilNewlines rest with
      | [] => [[b]]
      | buffer :: buffers => (b :: buffer) :: buffers

/-- A line without the newline that ends it, nor a carriage return before that. -/
def stripNewline (buffer : List UInt8) : List UInt8 :=
  if buffer.getLast? = some 10 then
    let buffer := buffer.dropLast
    if buffer.getLast? = some 13 then buffer.dropLast else buffer
  else buffer

def measureIndent (line : Str) : Nat :=
  ((line.takeWhile fun c => c == ' ' || c == '\t').map fun c =>
    if c == '\t' then tabWidth else 1).sum

def formatLine (decoded : Str) : Str :=
  if maxLineLength < Str.utf8Size decoded then Str.takeBytes maxLineLength decoded else decoded

/-- `lossy` is `String::from_utf8_lossy`. -/
def collectFileLines (lossy : List UInt8 → Str) (content : List UInt8) : List LineRecord :=
  ((readUntilNewlines content).zipIdx 1).map fun (buffer, number) =>
    let raw := lossy (stripNewline buffer)
    { number, raw, display := formatLine raw, indent := measureIndent raw }

def effectiveIndentsFrom (previousIndent : Nat) : List LineRecord → List Nat
  | [] => []
  | record :: records =>
    if record.isBlank then previousIndent :: effectiveIndentsFrom previousIndent records
    else record.indent :: effectiveIndentsFrom record.indent records

def computeEffectiveIndents (records : List LineRecord) : List Nat :=
  effectiveIndentsFrom 0 records

def trimEmptyLines (out : List LineRecord) : List LineRecord :=
  (out.dropWhile fun line => (Str.trim line.raw).isEmpty).rdropWhile fun line =>
    (Str.trim line.raw).isEmpty

/-! ## The block -/

/-- The cursors, up (inclusive) and down (inclusive), and what they have taken. -/
structure Cursors where
  i : Int
  j : Nat
  iCounterMinIndent : Int
  jCounterMinIndent : Int
  out : List LineRecord

section Block

variable (m : Build) (options : IndentationArgs) (collected : List LineRecord)
  (effectiveIndents : List Nat) (minIndent finalLimit : Nat)

/-- A line above is indented enough: what the upper cursor makes of it, and how many it takes. We
do not include the siblings (not applied to comments). -/
def takeAbove (record : LineRecord) (indent : Nat) (s : Cursors) : Computes (Cursors × Nat) := do
  let i ← m.isize (s.i - 1)
  if indent = minIndent ∧ options.includeSiblings = false then
    let allowHeaderComment := options.includeHeader && record.isComment
    let canTakeLine := allowHeaderComment || s.iCounterMinIndent == 0
    if canTakeLine then do
      let iCounterMinIndent ← m.i32 (s.iCounterMinIndent + 1)
      pure ({ s with i, iCounterMinIndent, out := record :: s.out }, 1)
    -- The line is taken and given back.
    else pure ({ s with i := -1 }, 0)
  else pure ({ s with i, out := record :: s.out }, 1)

/-- What the upper cursor takes, how many lines, and whether that fills the block. -/
def up (s : Cursors) : Computes (Cursors × Nat × Bool) :=
  if 0 ≤ s.i then do
    let indent ← index effectiveIndents (asUsize s.i)
    if minIndent ≤ indent then do
      let record ← index collected (asUsize s.i)
      let (s, progressed) ← takeAbove m options minIndent record indent s
      pure (s, progressed, decide (finalLimit ≤ s.out.length))
    else pure ({ s with i := -1 }, 0, false)
  else pure (s, 0, false)

/-- A line below is indented enough. We do not include the siblings (applied to comments). -/
def takeBelow (record : LineRecord) (indent : Nat) (s : Cursors) : Computes (Cursors × Nat) := do
  let j ← m.usize (s.j + 1)
  if indent = minIndent ∧ options.includeSiblings = false then do
    let jCounterMinIndent ← m.i32 (s.jCounterMinIndent + 1)
    -- The line is taken and given back.
    if 0 < s.jCounterMinIndent then
      pure ({ s with j := collected.length, jCounterMinIndent }, 0)
    else pure ({ s with j, jCounterMinIndent, out := s.out ++ [record] }, 1)
  else pure ({ s with j, out := s.out ++ [record] }, 1)

def down (s : Cursors) : Computes (Cursors × Nat) :=
  if s.j < collected.length then do
    let indent ← index effectiveIndents s.j
    if minIndent ≤ indent then do
      let record ← index collected s.j
      takeBelow m options collected minIndent record indent s
    else pure ({ s with j := collected.length }, 0)
  else pure (s, 0)

/-- One iteration of the loop. -/
def advance (s : Cursors) : Computes (ForInStep Cursors) := do
  let (s, above, full) ← up m options collected effectiveIndents minIndent finalLimit s
  if full then pure (.done s)
  else do
    let (s, below) ← down m options collected effectiveIndents minIndent s
    pure (if above + below = 0 then .done s else .yield s)

/-- The loop, for a number of iterations. -/
def expand (fuel : Nat) (s : Cursors) : Computes Cursors :=
  Loop.iterate (fun s => decide (s.out.length < finalLimit))
    (advance m options collected effectiveIndents minIndent finalLimit) .running fuel s

end Block

def computeMinIndent (m : Build) (anchorIndent maxLevels : Nat) : Computes Nat :=
  if maxLevels = 0 then pure 0
  else do
    let width ← m.usize (maxLevels * tabWidth : Nat)
    pure (anchorIndent - width)

/-- The lines around the anchor; a pointer has eight bytes. -/
def collectBlock (m : Build) (fuel : Nat) (collected : List LineRecord)
    (anchorIndex limit guardLimit : Nat) (options : IndentationArgs) : Computes (List Str) := do
  let effectiveIndents := computeEffectiveIndents collected
  let anchorIndent ← index effectiveIndents anchorIndex
  let minIndent ← computeMinIndent m anchorIndent options.maxLevels
  let finalLimit := min (min limit guardLimit) collected.length
  let anchor ← index collected anchorIndex
  if finalLimit = 1 then pure [anchor.render]
  else do
    let i ← m.isize (asIsize anchorIndex - 1)
    let j ← m.usize (anchorIndex + 1)
    m.withCapacity limit 8
    let s ← expand m options collected effectiveIndents minIndent finalLimit fuel
      { i, j, iCounterMinIndent := 0, jCounterMinIndent := 0, out := [anchor] }
    pure ((trimEmptyLines s.out).map LineRecord.render)

/-- The handler refuses an `offset` or a `limit` of zero first. -/
def readBlock (m : Build) (fuel : Nat) (lossy : List UInt8 → Str) (file : Except Str File)
    (offset limit : Nat) (options : IndentationArgs) : Computes (List Str) :=
  let anchorLine := options.anchorLine.getD offset
  if anchorLine = 0 then respond "anchor_line must be a 1-indexed line number"
  else
    let guardLimit := options.maxLines.getD limit
    if guardLimit = 0 then respond "max_lines must be greater than zero"
    else
      match file with
      | .error err => respond ("failed to read file: " ++ err)
      | .ok file =>
        let collected := collectFileLines lossy file.content
        if collected.isEmpty || collected.length < anchorLine then
          respond "anchor_line exceeds file length"
        else do
          let anchorIndex ← m.usize (anchorLine - 1)
          collectBlock m fuel collected anchorIndex limit guardLimit options

end SheriMl.Tools
