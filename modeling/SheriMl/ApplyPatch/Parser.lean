import SheriMl.Lib.Path

/-!
# The patch format

`apply-patch/src/parser.rs`: the text of a patch into its hunks, with the
lenient reading that accepts a here-document wrapper around the patch.
-/

namespace SheriMl.ApplyPatch

def beginPatchMarker : Str := "*** Begin Patch"
def endPatchMarker : Str := "*** End Patch"
def addFileMarker : Str := "*** Add File: "
def deleteFileMarker : Str := "*** Delete File: "
def updateFileMarker : Str := "*** Update File: "
def moveToMarker : Str := "*** Move to: "
def eofMarker : Str := "*** End of File"
def changeContextMarker : Str := "@@ "
def emptyChangeContextMarker : Str := "@@"

inductive ParseError where
  | invalidPatchError (message : Str)
  | invalidHunkError (message : Str) (lineNumber : Nat)
  deriving DecidableEq

/-- `oldLines`, found after `changeContext`, become `newLines`. -/
structure UpdateFileChunk where
  changeContext : Option Str
  oldLines : List Str
  newLines : List Str
  isEndOfFile : Bool
  deriving DecidableEq

inductive Hunk where
  | addFile (path contents : Str)
  | deleteFile (path : Str)
  | updateFile (path : Str) (movePath : Option Str) (chunks : List UpdateFileChunk)
  deriving DecidableEq

namespace Hunk

def path : Hunk → Str
  | addFile p _ => p
  | deleteFile p => p
  | updateFile p _ _ => p

/-- `resolve_path`. -/
def resolvePath (h : Hunk) (cwd : Str) : Str := Path.join cwd h.path

end Hunk

structure ApplyPatchArgs where
  patch : Str
  hunks : List Hunk
  workdir : Option Str
  deriving DecidableEq

/-! ## Boundaries -/

def checkStartAndEndLinesStrict (firstLine lastLine : Option Str) : Except ParseError Unit :=
  match firstLine.map Str.trim, lastLine.map Str.trim with
  | some first, some last =>
    if first = beginPatchMarker ∧ last = endPatchMarker then .ok ()
    else if first ≠ beginPatchMarker then
      .error (.invalidPatchError "The first line of the patch must be '*** Begin Patch'")
    else .error (.invalidPatchError "The last line of the patch must be '*** End Patch'")
  | some first, none =>
    if first ≠ beginPatchMarker then
      .error (.invalidPatchError "The first line of the patch must be '*** Begin Patch'")
    else .error (.invalidPatchError "The last line of the patch must be '*** End Patch'")
  | none, _ => .error (.invalidPatchError "The last line of the patch must be '*** End Patch'")

def checkPatchBoundariesStrict (lines : List Str) : Except ParseError Unit :=
  checkStartAndEndLinesStrict lines.head? lines.getLast?

/-- The lines inside a here-document wrapper that a model put around the patch. -/
def checkPatchBoundariesLenient (originalLines : List Str) (originalParseError : ParseError) :
    Except ParseError (List Str) :=
  match originalLines.head?, originalLines.getLast? with
  | some first, some last =>
    if (first = "<<EOF" || first = "<<'EOF'" || first = "<<\"EOF\"") &&
        Str.endsWith last "EOF" && 4 ≤ originalLines.length then do
      let innerLines := originalLines.tail.dropLast
      checkPatchBoundariesStrict innerLines
      return innerLines
    else .error originalParseError
  | _, _ => .error originalParseError

/-! ## Chunks -/

def noLinesError (lineNumber : Nat) : ParseError :=
  .invalidHunkError "Update hunk does not contain any lines" lineNumber

/-- The lines of a chunk, up to the end-of-file marker or the first line of something else. -/
def parseChunkLines (lineNumber : Nat) :
    List Str → UpdateFileChunk → Nat → Except ParseError (UpdateFileChunk × Nat)
  | [], chunk, parsedLines => .ok (chunk, parsedLines)
  | line :: lines, chunk, parsedLines =>
    if line = eofMarker then
      if parsedLines = 0 then .error (noLinesError (lineNumber + 1))
      else .ok ({ chunk with isEndOfFile := true }, parsedLines + 1)
    else
      match line with
      | [] =>
        parseChunkLines lineNumber lines
          { chunk with oldLines := chunk.oldLines ++ [[]], newLines := chunk.newLines ++ [[]] }
          (parsedLines + 1)
      | ' ' :: s =>
        parseChunkLines lineNumber lines
          { chunk with oldLines := chunk.oldLines ++ [s], newLines := chunk.newLines ++ [s] }
          (parsedLines + 1)
      | '+' :: s =>
        parseChunkLines lineNumber lines { chunk with newLines := chunk.newLines ++ [s] }
          (parsedLines + 1)
      | '-' :: s =>
        parseChunkLines lineNumber lines { chunk with oldLines := chunk.oldLines ++ [s] }
          (parsedLines + 1)
      | _ =>
        if parsedLines = 0 then
          .error (.invalidHunkError (("Unexpected line found in update hunk: '" : Str) ++ line ++
            ("'. Every line should start with ' ' (context line), '+' (added line), or " ++
              "'-' (removed line)" : Str)) (lineNumber + 1))
        else .ok (chunk, parsedLines)

/-- The context a chunk starts with, and how many lines it takes. -/
def parseChangeContext (line : Str) (lineNumber : Nat) (allowMissingContext : Bool) :
    Except ParseError (Option Str × Nat) :=
  if line = emptyChangeContextMarker then .ok (none, 1)
  else
    match Str.stripPrefix line changeContextMarker with
    | some context => .ok (some context, 1)
    | none =>
      if !allowMissingContext then
        .error (.invalidHunkError
          (("Expected update hunk to start with a @@ context marker, got: '" : Str) ++ line ++
            ("'" : Str)) lineNumber)
      else .ok (none, 0)

def parseUpdateFileChunk (lines : List Str) (lineNumber : Nat) (allowMissingContext : Bool) :
    Except ParseError (UpdateFileChunk × Nat) :=
  match lines with
  | [] => .error (noLinesError lineNumber)
  | first :: _ => do
    let (changeContext, startIndex) ← parseChangeContext first lineNumber allowMissingContext
    if lines.length ≤ startIndex then .error (noLinesError (lineNumber + 1))
    else
      let (chunk, parsedLines) ←
        parseChunkLines lineNumber (lines.drop startIndex) ⟨changeContext, [], [], false⟩ 0
      return (chunk, parsedLines + startIndex)

/-! ## Hunks -/

/-- The chunks of an update hunk up to the next marker, with the number of lines so far. Each
round takes a line, so the number of lines is fuel enough. -/
def parseChunks (lineNumber : Nat) :
    Nat → List Str → List UpdateFileChunk → Nat → Except ParseError (List UpdateFileChunk × Nat)
  | 0, _, chunks, parsedLines => .ok (chunks, parsedLines)
  | _ + 1, [], chunks, parsedLines => .ok (chunks, parsedLines)
  | fuel + 1, line :: lines, chunks, parsedLines =>
    -- blank lines may separate chunks
    if (Str.trim line).isEmpty then parseChunks lineNumber fuel lines chunks (parsedLines + 1)
    else if Str.startsWith line "***" then .ok (chunks, parsedLines)
    else do
      let (chunk, chunkLines) ←
        parseUpdateFileChunk (line :: lines) (lineNumber + parsedLines) chunks.isEmpty
      parseChunks lineNumber fuel ((line :: lines).drop chunkLines) (chunks ++ [chunk])
        (parsedLines + chunkLines)

/-- The added lines, without their plus signs. -/
def addedLines : List Str → List Str
  | ('+' :: s) :: lines => s :: addedLines lines
  | _ => []

def parseOneHunk (lines : List Str) (lineNumber : Nat) : Except ParseError (Hunk × Nat) :=
  let firstLine := Str.trim (lines.headD [])
  match Str.stripPrefix firstLine addFileMarker with
  | some path =>
    let added := addedLines lines.tail
    .ok (.addFile path (added.flatMap (· ++ ['\n'])), added.length + 1)
  | none =>
  match Str.stripPrefix firstLine deleteFileMarker with
  | some path => .ok (.deleteFile path, 1)
  | none =>
  match Str.stripPrefix firstLine updateFileMarker with
  | some path => do
    let movePath := lines.tail.head?.bind fun line => Str.stripPrefix line moveToMarker
    let headerLines := if movePath.isSome then 2 else 1
    let (chunks, parsedLines) ←
      parseChunks lineNumber lines.length (lines.drop headerLines) [] headerLines
    if chunks.isEmpty then
      .error (.invalidHunkError
        (("Update file hunk for path '" : Str) ++ path ++ ("' is empty" : Str)) lineNumber)
    else return (.updateFile path movePath chunks, parsedLines)
  | none =>
    .error (.invalidHunkError (("'" : Str) ++ firstLine ++
      ("' is not a valid hunk header. Valid hunk headers: '*** Add File: \x7bpath\x7d', " ++
        "'*** Delete File: \x7bpath\x7d', '*** Update File: \x7bpath\x7d'" : Str)) lineNumber)

/-- All hunks; each takes a line, so the number of lines is fuel enough. -/
def parseHunks : Nat → List Str → Nat → Except ParseError (List Hunk)
  | 0, _, _ => .ok []
  | _ + 1, [], _ => .ok []
  | fuel + 1, line :: lines, lineNumber => do
    let (hunk, hunkLines) ← parseOneHunk (line :: lines) lineNumber
    let hunks ← parseHunks fuel ((line :: lines).drop hunkLines) (lineNumber + hunkLines)
    return hunk :: hunks

/-- `parse_patch_text` in lenient mode, which is the mode of `parse_patch`. -/
def parsePatch (patch : Str) : Except ParseError ApplyPatchArgs := do
  let lines := Str.lines (Str.trim patch)
  let lines ← match checkPatchBoundariesStrict lines with
    | .ok () => .ok lines
    | .error e => checkPatchBoundariesLenient lines e
  let hunks ← parseHunks lines.length lines.tail.dropLast 2
  return ⟨Str.join ['\n'] lines, hunks, none⟩

example : parsePatch
      "*** Begin Patch\n*** Update File: a\n*** Move to: b\n@@ f\n-x\n z\n*** End Patch" =
    .ok ⟨"*** Begin Patch\n*** Update File: a\n*** Move to: b\n@@ f\n-x\n z\n*** End Patch",
      [.updateFile "a" (some "b") [⟨some "f", [['x'], ['z']], [['z']], false⟩]], none⟩ := by
  decide

end SheriMl.ApplyPatch
