import SheriMl.ApplyPatch.Parser
import SheriMl.Lib.Result
import SheriMl.Lib.Splice

/-!
# Replacements in one file

`seek_sequence` of `apply-patch/src/seek_sequence.rs`, and `compute_replacements`,
`apply_replacements` and `derive_new_contents_from_chunks` of `lib.rs` on the
contents of a file. A replacement `(start_index, old_len, new_lines)` is an edit
of the list of lines.
-/

namespace SheriMl.ApplyPatch

open Splice (Edit)

abbrev Replacement := Edit Str

inductive ApplyPatchError where
  | parseError (e : ParseError)
  | ioError (context : Str)
  | computeReplacements (message : Str)
  | implicitInvocation
  /-- The panic of an insertion past the end (`exists_applyReplacements`: it does not happen). -/
  | insertPanic
  deriving DecidableEq

/-! ## Seeking -/

/-- Typographic dashes, quotes and spaces as ASCII ones. -/
def normaliseChar (c : Char) : Char :=
  let n := c.toNat
  if (0x2010 ≤ n && n ≤ 0x2015) || n = 0x2212 then '-'
  else if 0x2018 ≤ n && n ≤ 0x201B then '\''
  else if 0x201C ≤ n && n ≤ 0x201F then '"'
  else if n = 0xA0 || (0x2002 ≤ n && n ≤ 0x200A) || n = 0x202F || n = 0x205F || n = 0x3000 then ' '
  else c

def normalise (s : Str) : Str := (Str.trim s).map normaliseChar

/-- The first position among `positions` where the lines read like the pattern. -/
def seekWith (norm : Str → Str) (lines pattern : List Str) (positions : List Nat) : Option Nat :=
  positions.find? fun i => ((lines.drop i).take pattern.length).map norm = pattern.map norm

/-- Exact, then ignoring trailing blanks, then blanks on both sides, then punctuation. With
`eof` the only position tried is the end of the file. -/
def seekSequence (lines pattern : List Str) (start : Nat) (eof : Bool) : Option Nat :=
  if pattern.isEmpty then some start
  else if lines.length < pattern.length then none
  else
    let searchStart := if eof then lines.length - pattern.length else start
    let positions := List.range' searchStart (lines.length - pattern.length + 1 - searchStart)
    (seekWith id lines pattern positions).orElse fun _ =>
      (seekWith Str.trimEnd lines pattern positions).orElse fun _ =>
        (seekWith Str.trim lines pattern positions).orElse fun _ =>
          seekWith normalise lines pattern positions

/-! ## Computing replacements -/

def dropBlankLast (lines : List Str) : List Str :=
  if lines.getLast? = some [] then lines.dropLast else lines

/-- Where the old lines of a chunk are found, from `lineIndex` on. A last blank old line may
stand for the final newline, so it is given up if nothing is found. -/
def findOldLines (lines : List Str) (chunk : UpdateFileChunk) (lineIndex : Nat) :
    Option Replacement :=
  match seekSequence lines chunk.oldLines lineIndex chunk.isEndOfFile with
  | some startIdx => some ⟨startIdx, chunk.oldLines.length, chunk.newLines⟩
  | none =>
    if chunk.oldLines.getLast? = some [] then
      let pattern := chunk.oldLines.dropLast
      (seekSequence lines pattern lineIndex chunk.isEndOfFile).map fun startIdx =>
        ⟨startIdx, pattern.length, dropBlankLast chunk.newLines⟩
    else none

def skipContext (lines : List Str) (chunk : UpdateFileChunk) (lineIndex : Nat) : Option Nat :=
  match chunk.changeContext with
  | none => some lineIndex
  | some ctxLine => (seekSequence lines [ctxLine] lineIndex false).map (· + 1)

/-- Where pure additions go: before a final blank line, or at the end. -/
def insertionIdx (lines : List Str) : Nat :=
  if lines.getLast? = some [] then lines.length - 1 else lines.length

def contextError (path : Str) (chunk : UpdateFileChunk) : ApplyPatchError :=
  .computeReplacements (("Failed to find context '" : Str) ++ chunk.changeContext.getD [] ++
    ("' in " : Str) ++ path)

def oldLinesError (path : Str) (chunk : UpdateFileChunk) : ApplyPatchError :=
  .computeReplacements (("Failed to find expected lines in " : Str) ++ path ++ (":\n" : Str) ++
    Str.join ['\n'] chunk.oldLines)

/-- The replacements in the order of the chunks. -/
def computeFrom (lines : List Str) (path : Str) :
    Nat → List UpdateFileChunk → Except ApplyPatchError (List Replacement)
  | _, [] => .ok []
  | lineIndex, chunk :: chunks =>
    match skipContext lines chunk lineIndex with
    | none => .error (contextError path chunk)
    | some lineIndex =>
      if chunk.oldLines.isEmpty then
        (computeFrom lines path lineIndex chunks).map
          (⟨insertionIdx lines, 0, chunk.newLines⟩ :: ·)
      else
        match findOldLines lines chunk lineIndex with
        | none => .error (oldLinesError path chunk)
        | some r => (computeFrom lines path r.stop chunks).map (r :: ·)

/-- Sorted by start index, as a stable sort. -/
def computeReplacements (lines : List Str) (path : Str) (chunks : List UpdateFileChunk) :
    Except ApplyPatchError (List Replacement) :=
  (computeFrom lines path 0 chunks).map Splice.sortByStart

/-! ## Applying replacements -/

/-- `Vec::remove` at one index, as often as there are old lines, while the index is in range. -/
def removeLines : Nat → Nat → List Str → List Str
  | 0, _, lines => lines
  | n + 1, startIdx, lines =>
    removeLines n startIdx (if startIdx < lines.length then lines.eraseIdx startIdx else lines)

/-- `Vec::insert` one after the other; past the end it panics. -/
def insertLines : Nat → List Str → List Str → Option (List Str)
  | _, [], lines => some lines
  | idx, newLine :: newLines, lines =>
    if idx ≤ lines.length then insertLines (idx + 1) newLines (lines.insertIdx idx newLine) else none

def applyReplacement (lines : List Str) (r : Replacement) : Option (List Str) :=
  insertLines r.start r.new (removeLines r.len r.start lines)

/-- The last replacement first, so that the others' indices stay valid. -/
def applyReplacements (lines : List Str) (replacements : List Replacement) : Option (List Str) :=
  replacements.reverse.foldlM applyReplacement lines

/-- The lines of a file, without the empty one after a final newline. -/
def originalLines (contents : Str) : List Str := dropBlankLast (Str.split '\n' contents)

/-- `derive_new_contents_from_chunks` on the contents it read. -/
def deriveNewContents (path contents : Str) (chunks : List UpdateFileChunk) :
    Except ApplyPatchError Str := do
  let replacements ← computeReplacements (originalLines contents) path chunks
  match applyReplacements (originalLines contents) replacements with
  | none => .error .insertPanic
  | some newLines =>
    return Str.join ['\n'] (if newLines.getLast? = some [] then newLines else newLines ++ [[]])

/-- The path is only in the texts of the errors. -/
theorem computeFrom_path {lines : List Str} {path path' : Str} {lineIndex : Nat}
    {chunks : List UpdateFileChunk} {rs : List Replacement}
    (h : computeFrom lines path lineIndex chunks = .ok rs) :
    computeFrom lines path' lineIndex chunks = .ok rs := by
  induction chunks generalizing lineIndex rs with
  | nil => exact h
  | cons chunk chunks ih =>
    unfold computeFrom at h ⊢
    cases hctx : skipContext lines chunk lineIndex with
    | none =>
      rw [hctx] at h
      cases h
    | some cursor =>
      rw [hctx] at h
      dsimp only at h ⊢
      by_cases hold : chunk.oldLines.isEmpty
      · rw [if_pos hold] at h ⊢
        obtain ⟨rs', hrs', rfl⟩ := Result.exists_of_map_eq_ok h
        rw [ih hrs']
        rfl
      · rw [if_neg hold] at h ⊢
        cases hfound : findOldLines lines chunk cursor with
        | none =>
          rw [hfound] at h
          cases h
        | some r =>
          rw [hfound] at h
          obtain ⟨rs', hrs', rfl⟩ := Result.exists_of_map_eq_ok h
          dsimp only
          rw [ih hrs']
          rfl

theorem deriveNewContents_path {path path' contents new : Str} {chunks : List UpdateFileChunk}
    (h : deriveNewContents path contents chunks = .ok new) :
    deriveNewContents path' contents chunks = .ok new := by
  unfold deriveNewContents computeReplacements at h ⊢
  obtain ⟨replacements, hreplacements, h⟩ := Result.exists_of_bind_eq_ok h
  obtain ⟨rs, hrs, rfl⟩ := Result.exists_of_map_eq_ok hreplacements
  rw [computeFrom_path hrs]
  exact h

/-! ## What seeking finds -/

section Seek

variable {lines pattern : List Str} {start i : Nat} {eof : Bool}

theorem seekWith_mem {norm : Str → Str} {positions : List Nat}
    (h : seekWith norm lines pattern positions = some i) : i ∈ positions :=
  List.mem_of_find?_eq_some h

theorem seekSequence_nil : seekSequence lines [] start eof = some start := rfl

/-- A found sequence lies within the lines, from the start on; with `eof` it ends them. -/
theorem seekSequence_bounds (hp : pattern ≠ []) (h : seekSequence lines pattern start eof = some i) :
    i + pattern.length ≤ lines.length ∧
      (eof = false → start ≤ i) ∧ (eof = true → i + pattern.length = lines.length) := by
  unfold seekSequence at h
  rw [if_neg (by simpa using hp)] at h
  split at h
  · cases h
  next hlen =>
  dsimp only at h
  have hmem : i ∈ List.range' (if eof then lines.length - pattern.length else start)
      (lines.length - pattern.length + 1 - if eof then lines.length - pattern.length else start) := by
    simp only [Option.orElse_eq_some, ← Option.orElse_eq_orElse] at h
    rcases h with h | ⟨-, h | ⟨-, h | ⟨-, h⟩⟩⟩
    · exact seekWith_mem h
    · exact seekWith_mem h
    · exact seekWith_mem h
    · exact seekWith_mem h
  rw [List.mem_range'_1] at hmem
  cases eof with
  | true =>
    simp only [if_true] at hmem
    refine ⟨by omega, by simp, fun _ => by omega⟩
  | false =>
    simp only [Bool.false_eq_true, if_false] at hmem
    refine ⟨by omega, fun _ => by omega, by simp⟩

end Seek

end SheriMl.ApplyPatch
