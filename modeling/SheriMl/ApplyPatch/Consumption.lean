import SheriMl.ApplyPatch.Parser
import SheriMl.Lib.ByteRange
import SheriMl.Lib.Loop
import SheriMl.Lib.Result

/-!
# What the parser consumes

The parser of `apply-patch/src/parser.rs` once more, with its indices and slices checked and its
loops on fuel. It comes to what `Parser` has (`parseOneHunk_eq`, `parsePatchText_eq`), so no index
is out of range and no loop is stuck; and each hunk takes at least one of the lines between the
markers, all of which are taken (`consumed_of_parseHunks`).
-/

namespace SheriMl.ApplyPatch.Sliced

open Checked (Stop lift index sliceFrom sliceRange)

inductive ParseMode where
  | strict
  | lenient

/-- `line_contents[1..]` -/
def afterSign (line : Str) : Except (Stop ParseError) Str :=
  if Str.isCharBoundary line 1 then .ok (Str.dropBytes 1 line) else .error .outOfRange

def parseChunkLines (lineNumber : Nat) :
    List Str → UpdateFileChunk → Nat → Except (Stop ParseError) (UpdateFileChunk × Nat)
  | [], chunk, parsedLines => .ok (chunk, parsedLines)
  | line :: lines, chunk, parsedLines =>
    if line = eofMarker then
      if parsedLines = 0 then .error (.fails (noLinesError (lineNumber + 1)))
      else .ok ({ chunk with isEndOfFile := true }, parsedLines + 1)
    else
      match line.head? with
      | none =>
        parseChunkLines lineNumber lines
          { chunk with oldLines := chunk.oldLines ++ [[]], newLines := chunk.newLines ++ [[]] }
          (parsedLines + 1)
      | some ' ' => do
        let text ← afterSign line
        parseChunkLines lineNumber lines
          { chunk with oldLines := chunk.oldLines ++ [text], newLines := chunk.newLines ++ [text] }
          (parsedLines + 1)
      | some '+' => do
        let text ← afterSign line
        parseChunkLines lineNumber lines { chunk with newLines := chunk.newLines ++ [text] }
          (parsedLines + 1)
      | some '-' => do
        let text ← afterSign line
        parseChunkLines lineNumber lines { chunk with oldLines := chunk.oldLines ++ [text] }
          (parsedLines + 1)
      | _ =>
        if parsedLines = 0 then
          .error (.fails (.invalidHunkError (("Unexpected line found in update hunk: '" : Str) ++
            line ++ ("'. Every line should start with ' ' (context line), '+' (added line), or " ++
              "'-' (removed line)" : Str)) (lineNumber + 1)))
        else .ok (chunk, parsedLines)

def parseUpdateFileChunk (lines : List Str) (lineNumber : Nat) (allowMissingContext : Bool) :
    Except (Stop ParseError) (UpdateFileChunk × Nat) :=
  if lines.isEmpty then .error (.fails (noLinesError lineNumber))
  else do
    let first ← index lines 0
    let (changeContext, startIndex) ←
      lift (parseChangeContext first lineNumber allowMissingContext)
    if lines.length ≤ startIndex then .error (.fails (noLinesError (lineNumber + 1)))
    else do
      let body ← sliceFrom lines startIndex
      let (chunk, parsedLines) ← parseChunkLines lineNumber body ⟨changeContext, [], [], false⟩ 0
      return (chunk, parsedLines + startIndex)

/-- The variables of the loop over the chunks of a hunk. -/
structure ChunkLoop where
  remainingLines : List Str
  parsedLines : Nat
  chunks : List UpdateFileChunk

def chunkRound (lineNumber : Nat) (s : ChunkLoop) :
    Except (Stop ParseError) (ForInStep ChunkLoop) := do
  let line ← index s.remainingLines 0
  if (Str.trim line).isEmpty then do
    let remainingLines ← sliceFrom s.remainingLines 1
    return .yield ⟨remainingLines, s.parsedLines + 1, s.chunks⟩
  else if Str.startsWith line "***" then return .done s
  else do
    let (chunk, chunkLines) ←
      parseUpdateFileChunk s.remainingLines (lineNumber + s.parsedLines) s.chunks.isEmpty
    let remainingLines ← sliceFrom s.remainingLines chunkLines
    return .yield ⟨remainingLines, s.parsedLines + chunkLines, s.chunks ++ [chunk]⟩

def parseChunks (lineNumber fuel : Nat) : ChunkLoop → Except (Stop ParseError) ChunkLoop :=
  Loop.iterate (fun s => !s.remainingLines.isEmpty) (chunkRound lineNumber) .stuck fuel

def parseOneHunk (lines : List Str) (lineNumber : Nat) :
    Except (Stop ParseError) (Hunk × Nat) := do
  let first ← index lines 0
  let firstLine := Str.trim first
  match Str.stripPrefix firstLine addFileMarker with
  | some path => do
    let rest ← sliceFrom lines 1
    let added := addedLines rest
    return (.addFile path (added.flatMap (· ++ ['\n'])), added.length + 1)
  | none =>
  match Str.stripPrefix firstLine deleteFileMarker with
  | some path => return (.deleteFile path, 1)
  | none =>
  match Str.stripPrefix firstLine updateFileMarker with
  | some path => do
    let rest ← sliceFrom lines 1
    let movePath := rest.head?.bind fun line => Str.stripPrefix line moveToMarker
    let remainingLines ← (if movePath.isSome then sliceFrom rest 1 else .ok rest :
      Except (Stop ParseError) (List Str))
    let s ← parseChunks lineNumber lines.length
      ⟨remainingLines, if movePath.isSome then 2 else 1, []⟩
    if s.chunks.isEmpty then
      .error (.fails (.invalidHunkError
        (("Update file hunk for path '" : Str) ++ path ++ ("' is empty" : Str)) lineNumber))
    else return (.updateFile path movePath s.chunks, s.parsedLines)
  | none =>
    .error (.fails (.invalidHunkError (("'" : Str) ++ firstLine ++
      ("' is not a valid hunk header. Valid hunk headers: '*** Add File: \x7bpath\x7d', " ++
        "'*** Delete File: \x7bpath\x7d', '*** Update File: \x7bpath\x7d'" : Str)) lineNumber))

structure HunkLoop where
  remainingLines : List Str
  lineNumber : Nat
  hunks : List Hunk

def hunkRound (s : HunkLoop) : Except (Stop ParseError) (ForInStep HunkLoop) := do
  let (hunk, hunkLines) ← parseOneHunk s.remainingLines s.lineNumber
  let remainingLines ← sliceFrom s.remainingLines hunkLines
  return .yield ⟨remainingLines, s.lineNumber + hunkLines, s.hunks ++ [hunk]⟩

def parseHunks (fuel : Nat) : HunkLoop → Except (Stop ParseError) HunkLoop :=
  Loop.iterate (fun s => !s.remainingLines.isEmpty) hunkRound .stuck fuel

def checkPatchBoundariesLenient (originalLines : List Str) (originalParseError : ParseError) :
    Except (Stop ParseError) (List Str) :=
  match originalLines.head?, originalLines.getLast? with
  | some first, some last =>
    if (first = "<<EOF" || first = "<<'EOF'" || first = "<<\"EOF\"") &&
        Str.endsWith last "EOF" && 4 ≤ originalLines.length then do
      let innerLines ← sliceRange originalLines 1 (originalLines.length - 1)
      lift (checkPatchBoundariesStrict innerLines)
      return innerLines
    else .error (.fails originalParseError)
  | _, _ => .error (.fails originalParseError)

/-- The lines of the patch, without the here-document around it. -/
def patchLines (mode : ParseMode) (patch : Str) : Except (Stop ParseError) (List Str) :=
  let lines := Str.lines (Str.trim patch)
  match checkPatchBoundariesStrict lines with
  | .ok () => .ok lines
  | .error e =>
    match mode with
    | .strict => .error (.fails e)
    | .lenient => checkPatchBoundariesLenient lines e

def parsePatchText (patch : Str) (mode : ParseMode) : Except (Stop ParseError) ApplyPatchArgs := do
  let lines ← patchLines mode patch
  let remainingLines ← sliceRange lines 1 (lines.length - 1)
  let s ← parseHunks lines.length ⟨remainingLines, 2, []⟩
  return ⟨Str.join ['\n'] lines, s.hunks, none⟩

/-! ## What each step consumes -/

section

variable {lines : List Str} {lineNumber parsedLines k : Nat} {chunk chunk' : UpdateFileChunk}
  {chunks chunks' : List UpdateFileChunk} {allow : Bool} {hunk : Hunk}

theorem le_of_parseChunkLines
    (h : ApplyPatch.parseChunkLines lineNumber lines chunk parsedLines = .ok (chunk', k)) :
    parsedLines ≤ k ∧ k ≤ parsedLines + lines.length := by
  induction lines generalizing chunk parsedLines with
  | nil =>
    cases h
    exact ⟨Nat.le_refl _, Nat.le_add_right _ _⟩
  | cons line lines ih =>
    have hone {chunk : UpdateFileChunk}
        (h : ApplyPatch.parseChunkLines lineNumber lines chunk (parsedLines + 1) =
          .ok (chunk', k)) : parsedLines ≤ k ∧ k ≤ parsedLines + (line :: lines).length := by
      have hrest := ih h
      rw [List.length_cons]
      omega
    unfold ApplyPatch.parseChunkLines at h
    split at h
    · split at h
      · cases h
      · cases h
        rw [List.length_cons]
        omega
    · split at h
      · exact hone h
      · exact hone h
      · exact hone h
      · exact hone h
      · split at h
        · cases h
        · cases h
          exact ⟨Nat.le_refl _, Nat.le_add_right _ _⟩

theorem pos_of_parseChunkLines (hlines : lines ≠ [])
    (h : ApplyPatch.parseChunkLines lineNumber lines chunk 0 = .ok (chunk', k)) : 1 ≤ k := by
  cases lines with
  | nil => exact absurd rfl hlines
  | cons line lines =>
    unfold ApplyPatch.parseChunkLines at h
    split at h
    · cases h
    · split at h
      · exact (le_of_parseChunkLines h).1
      · exact (le_of_parseChunkLines h).1
      · exact (le_of_parseChunkLines h).1
      · exact (le_of_parseChunkLines h).1
      · cases h

theorem consumes_of_parseUpdateFileChunk
    (h : ApplyPatch.parseUpdateFileChunk lines lineNumber allow = .ok (chunk, k)) :
    1 ≤ k ∧ k ≤ lines.length := by
  unfold ApplyPatch.parseUpdateFileChunk at h
  split at h
  · cases h
  · obtain ⟨⟨changeContext, startIndex⟩, -, h⟩ := Result.exists_of_bind_eq_ok h
    dsimp only at h
    split at h
    · cases h
    next hstart =>
      obtain ⟨⟨chunk', parsedLines⟩, hchunk', h⟩ := Result.exists_of_bind_eq_ok h
      cases h
      have hne : (List.drop startIndex _) ≠ [] := List.ne_nil_of_length_pos (by
        rw [List.length_drop]
        exact Nat.sub_pos_of_lt (Nat.not_le.1 hstart))
      have hpos := pos_of_parseChunkLines hne hchunk'
      have hle := (le_of_parseChunkLines hchunk').2
      rw [List.length_drop] at hle
      omega

theorem le_of_parseChunks {fuel : Nat}
    (h : ApplyPatch.parseChunks lineNumber fuel lines chunks parsedLines = .ok (chunks', k)) :
    parsedLines ≤ k ∧ k ≤ parsedLines + lines.length := by
  induction fuel generalizing lines chunks parsedLines with
  | zero =>
    cases h
    exact ⟨Nat.le_refl _, Nat.le_add_right _ _⟩
  | succ fuel ih =>
    cases lines with
    | nil =>
      cases h
      exact ⟨Nat.le_refl _, Nat.le_add_right _ _⟩
    | cons line lines =>
      rw [ApplyPatch.parseChunks] at h
      split at h
      · have hrest := ih h
        rw [List.length_cons]
        omega
      · split at h
        · cases h
          exact ⟨Nat.le_refl _, Nat.le_add_right _ _⟩
        · obtain ⟨⟨chunk, chunkLines⟩, hchunk, h⟩ := Result.exists_of_bind_eq_ok h
          have hconsumes := consumes_of_parseUpdateFileChunk hchunk
          have hrest := ih h
          rw [List.length_drop] at hrest
          omega

theorem length_addedLines_le (lines : List Str) : (addedLines lines).length ≤ lines.length := by
  fun_induction addedLines lines with
  | case1 s lines ih => exact Nat.succ_le_succ ih
  | case2 => exact Nat.zero_le _

theorem consumes_of_parseOneHunk
    (h : ApplyPatch.parseOneHunk lines lineNumber = .ok (hunk, k)) :
    1 ≤ k ∧ k ≤ lines.length := by
  cases lines with
  | nil =>
    have hnil : ApplyPatch.parseOneHunk [] lineNumber = .error _ := rfl
    rw [hnil] at h
    cases h
  | cons line lines =>
    unfold ApplyPatch.parseOneHunk at h
    dsimp only at h
    rw [List.length_cons]
    split at h
    · cases h
      have hadded := length_addedLines_le lines
      exact ⟨Nat.le_add_left 1 _, Nat.succ_le_succ hadded⟩
    split at h
    · cases h
      exact ⟨Nat.le_refl 1, Nat.le_add_left 1 _⟩
    split at h
    · obtain ⟨⟨chunks, parsedLines⟩, hchunks, h⟩ := Result.exists_of_bind_eq_ok h
      dsimp only at h
      split at h
      · cases h
      next hsome =>
        cases h
        have hle := le_of_parseChunks hchunks
        rw [List.length_drop, List.length_cons] at hle
        split at hle
        next hmove =>
          -- the line that the hunk moves by is there
          have hrest : lines ≠ [] := by
            rintro rfl
            cases hmove
          have hpos := List.length_pos_of_ne_nil hrest
          omega
        next => omega
    · cases h

end

/-! ## No panic and no endless loop -/

section

variable {lines : List Str} {lineNumber : Nat} {allow : Bool}

theorem afterSign_cons {c : Char} {s : Str} (h : c.utf8Size = 1) :
    afterSign (c :: s) = .ok s := by
  have hsize : Str.utf8Size [c] = 1 := h
  have hboundary : Str.isCharBoundary (c :: s) 1 = true := by
    rw [Str.isCharBoundary_iff, ← hsize]
    exact Str.isBoundary_append [c] s
  have hdrop := Str.dropBytes_boundary [c] s
  rw [hsize, List.singleton_append] at hdrop
  rw [afterSign, if_pos hboundary, hdrop]

theorem parseChunkLines_eq (lines : List Str) (chunk : UpdateFileChunk) (parsedLines : Nat) :
    parseChunkLines lineNumber lines chunk parsedLines =
      lift (ApplyPatch.parseChunkLines lineNumber lines chunk parsedLines) := by
  induction lines generalizing chunk parsedLines with
  | nil => rfl
  | cons line lines ih =>
    unfold parseChunkLines ApplyPatch.parseChunkLines
    split
    · split <;> rfl
    · split
      next hhead =>
        rw [List.head?_eq_none_iff.1 hhead]
        exact ih _ _
      next hhead =>
        obtain ⟨s, rfl⟩ := List.head?_eq_some_iff.1 hhead
        rw [afterSign_cons (by decide)]
        exact ih _ _
      next hhead =>
        obtain ⟨s, rfl⟩ := List.head?_eq_some_iff.1 hhead
        rw [afterSign_cons (by decide)]
        exact ih _ _
      next hhead =>
        obtain ⟨s, rfl⟩ := List.head?_eq_some_iff.1 hhead
        rw [afterSign_cons (by decide)]
        exact ih _ _
      next hnone hkeep hadd hremove =>
        by_cases hparsed : parsedLines = 0
        · rw [if_pos hparsed, if_pos hparsed]
          split
          · exact absurd rfl hnone
          · exact absurd rfl hkeep
          · exact absurd rfl hadd
          · exact absurd rfl hremove
          · rfl
        · rw [if_neg hparsed, if_neg hparsed]
          split
          · exact absurd rfl hnone
          · exact absurd rfl hkeep
          · exact absurd rfl hadd
          · exact absurd rfl hremove
          · rfl

theorem parseUpdateFileChunk_eq (lines : List Str) (lineNumber : Nat) (allow : Bool) :
    parseUpdateFileChunk lines lineNumber allow =
      lift (ApplyPatch.parseUpdateFileChunk lines lineNumber allow) := by
  cases lines with
  | nil => rfl
  | cons line lines =>
    rw [parseUpdateFileChunk, ApplyPatch.parseUpdateFileChunk, if_neg (by simp),
      Checked.index_cons_zero, Result.ok_bind]
    cases parseChangeContext line lineNumber allow with
    | error e => rfl
    | ok context =>
      obtain ⟨changeContext, startIndex⟩ := context
      rw [Checked.lift_ok, Result.ok_bind, Result.ok_bind]
      dsimp only
      split
      next => rfl
      next hstart =>
        rw [Checked.sliceFrom_eq (Nat.le_of_not_le hstart), Result.ok_bind, parseChunkLines_eq,
          Checked.lift_bind]
        rfl

theorem chunkRound_blank {line : Str} (h : (Str.trim line).isEmpty = true) (parsedLines : Nat)
    (chunks : List UpdateFileChunk) : chunkRound lineNumber ⟨line :: lines, parsedLines, chunks⟩ =
      .ok (.yield ⟨lines, parsedLines + 1, chunks⟩) := by
  rw [chunkRound, Checked.index_cons_zero, Result.ok_bind, if_pos h, Checked.sliceFrom_one_cons]
  rfl

theorem chunkRound_marker {line : Str} (hblank : ¬(Str.trim line).isEmpty = true)
    (h : Str.startsWith line "***" = true) (parsedLines : Nat) (chunks : List UpdateFileChunk) :
    chunkRound lineNumber ⟨line :: lines, parsedLines, chunks⟩ =
      .ok (.done ⟨line :: lines, parsedLines, chunks⟩) := by
  rw [chunkRound, Checked.index_cons_zero, Result.ok_bind, if_neg hblank, if_pos h]
  rfl

theorem chunkRound_chunk (lineNumber : Nat) {line : Str} (lines : List Str)
    (hblank : ¬(Str.trim line).isEmpty = true) (h : ¬Str.startsWith line "***" = true)
    (parsedLines : Nat) (chunks : List UpdateFileChunk) :
    chunkRound lineNumber ⟨line :: lines, parsedLines, chunks⟩ =
      lift (ApplyPatch.parseUpdateFileChunk (line :: lines) (lineNumber + parsedLines)
        chunks.isEmpty) >>= fun parsed => .ok (.yield
          ⟨(line :: lines).drop parsed.2, parsedLines + parsed.2, chunks ++ [parsed.1]⟩) := by
  rw [chunkRound, Checked.index_cons_zero, Result.ok_bind, if_neg hblank, if_neg h,
    parseUpdateFileChunk_eq]
  cases hchunk : ApplyPatch.parseUpdateFileChunk (line :: lines) (lineNumber + parsedLines)
    chunks.isEmpty with
  | error e => rfl
  | ok parsed =>
    obtain ⟨chunk, chunkLines⟩ := parsed
    have hle := (consumes_of_parseUpdateFileChunk hchunk).2
    rw [Checked.lift_ok, Result.ok_bind, Result.ok_bind]
    dsimp only
    rw [Checked.sliceFrom_eq hle]
    rfl

/-- Each round ends the loop or takes a line at least. -/
theorem parseChunks_eq (lineNumber : Nat) {fuel : Nat} (hfuel : lines.length ≤ fuel)
    (parsedLines : Nat) (chunks : List UpdateFileChunk) :
    (parseChunks lineNumber fuel ⟨lines, parsedLines, chunks⟩).map
        (fun s => (s.chunks, s.parsedLines)) =
      lift (ApplyPatch.parseChunks lineNumber fuel lines chunks parsedLines) := by
  induction fuel generalizing lines parsedLines chunks with
  | zero =>
    obtain rfl := List.length_eq_zero_iff.1 (Nat.le_zero.1 hfuel)
    rfl
  | succ fuel ih =>
    cases lines with
    | nil => rfl
    | cons line lines =>
      rw [List.length_cons] at hfuel
      rw [parseChunks, ApplyPatch.parseChunks]
      split
      next hblank =>
        rw [Loop.iterate_yield rfl (chunkRound_blank hblank ..)]
        exact ih (Nat.le_of_succ_le_succ hfuel) _ _
      next hblank =>
        split
        next hmarker =>
          rw [Loop.iterate_done rfl (chunkRound_marker hblank hmarker ..)]
          rfl
        next hmarker =>
          have hround := chunkRound_chunk lineNumber lines hblank hmarker parsedLines chunks
          cases hchunk : ApplyPatch.parseUpdateFileChunk (line :: lines)
            (lineNumber + parsedLines) chunks.isEmpty with
          | error e =>
            rw [hchunk] at hround
            rw [Loop.iterate_error rfl hround]
            rfl
          | ok parsed =>
            rw [hchunk] at hround
            obtain ⟨hpos, hle⟩ := consumes_of_parseUpdateFileChunk hchunk
            rw [Loop.iterate_yield rfl hround, Result.ok_bind]
            refine ih ?_ _ _
            rw [List.length_drop, List.length_cons]
            omega

theorem sliceFrom_header (line : Str) (lines : List Str) (moves : Bool)
    (h : moves = true → lines ≠ []) :
    (if moves then sliceFrom lines 1 else .ok lines : Except (Stop ParseError) (List Str)) =
      .ok ((line :: lines).drop (if moves then 2 else 1)) := by
  cases moves with
  | false => rfl
  | true =>
    obtain ⟨next, lines, rfl⟩ := List.exists_cons_of_ne_nil (h rfl)
    exact Checked.sliceFrom_one_cons next lines

theorem parseOneHunk_eq (hlines : lines ≠ []) (lineNumber : Nat) :
    parseOneHunk lines lineNumber = lift (ApplyPatch.parseOneHunk lines lineNumber) := by
  obtain ⟨line, lines, rfl⟩ := List.exists_cons_of_ne_nil hlines
  unfold parseOneHunk ApplyPatch.parseOneHunk
  rw [Checked.index_cons_zero, Result.ok_bind]
  dsimp only [List.headD_cons, List.tail_cons]
  cases Str.stripPrefix (Str.trim line) addFileMarker with
  | some path =>
    dsimp only
    rw [Checked.sliceFrom_one_cons]
    rfl
  | none =>
  cases Str.stripPrefix (Str.trim line) deleteFileMarker with
  | some path => rfl
  | none =>
  cases Str.stripPrefix (Str.trim line) updateFileMarker with
  | none => rfl
  | some path =>
    dsimp only
    rw [Checked.sliceFrom_one_cons, Result.ok_bind]
    generalize hmove : (lines.head?.bind fun line => Str.stripPrefix line moveToMarker) = movePath
    have hheader := sliceFrom_header line lines movePath.isSome (by
      rintro hsome rfl
      rw [← hmove] at hsome
      cases hsome)
    have hfuel : ((line :: lines).drop (if movePath.isSome then 2 else 1)).length ≤
        (line :: lines).length := by
      rw [List.length_drop]
      exact Nat.sub_le ..
    have hchunks := parseChunks_eq lineNumber hfuel (if movePath.isSome then 2 else 1) []
    rw [hheader, Result.ok_bind, Checked.lift_bind, ← hchunks]
    cases parseChunks lineNumber (line :: lines).length _ with
    | error stop => rfl
    | ok s =>
      rw [Result.ok_bind]
      dsimp only [Except.map]
      rw [Result.ok_bind]
      dsimp only
      split <;> rfl

/-- Hunks read one after the other, each in a piece of its own. -/
inductive Consumed : Nat → List (List Str) → List Hunk → Prop
  | nil (lineNumber : Nat) : Consumed lineNumber [] []
  | cons {lineNumber : Nat} {piece : List Str} {pieces : List (List Str)} {hunk : Hunk}
      {hunks : List Hunk} : piece ≠ [] →
      parseOneHunk (piece ++ pieces.flatten) lineNumber = .ok (hunk, piece.length) →
      Consumed (lineNumber + piece.length) pieces hunks →
      Consumed lineNumber (piece :: pieces) (hunk :: hunks)

theorem hunkRound_eq (hlines : lines ≠ []) (lineNumber : Nat) (hunks : List Hunk) :
    hunkRound ⟨lines, lineNumber, hunks⟩ =
      lift (ApplyPatch.parseOneHunk lines lineNumber) >>= fun parsed => .ok (.yield
        ⟨lines.drop parsed.2, lineNumber + parsed.2, hunks ++ [parsed.1]⟩) := by
  rw [hunkRound, parseOneHunk_eq hlines]
  cases hhunk : ApplyPatch.parseOneHunk lines lineNumber with
  | error e => rfl
  | ok parsed =>
    obtain ⟨hunk, hunkLines⟩ := parsed
    have hle := (consumes_of_parseOneHunk hhunk).2
    rw [Checked.lift_ok, Result.ok_bind, Result.ok_bind]
    dsimp only
    rw [Checked.sliceFrom_eq hle]
    rfl

theorem parseHunks_eq {fuel : Nat} (hfuel : lines.length ≤ fuel) (lineNumber : Nat)
    (hunks : List Hunk) :
    (parseHunks fuel ⟨lines, lineNumber, hunks⟩).map HunkLoop.hunks =
      (lift (ApplyPatch.parseHunks fuel lines lineNumber)).map (hunks ++ ·) := by
  induction fuel generalizing lines lineNumber hunks with
  | zero =>
    obtain rfl := List.length_eq_zero_iff.1 (Nat.le_zero.1 hfuel)
    exact congrArg Except.ok (List.append_nil hunks).symm
  | succ fuel ih =>
    cases lines with
    | nil => exact congrArg Except.ok (List.append_nil hunks).symm
    | cons line lines =>
      rw [List.length_cons] at hfuel
      rw [parseHunks, ApplyPatch.parseHunks]
      have hround := hunkRound_eq (List.cons_ne_nil line lines) lineNumber hunks
      cases hhunk : ApplyPatch.parseOneHunk (line :: lines) lineNumber with
      | error e =>
        rw [hhunk] at hround
        rw [Loop.iterate_error rfl hround]
        rfl
      | ok parsed =>
        rw [hhunk] at hround
        obtain ⟨hunk, hunkLines⟩ := parsed
        obtain ⟨hpos, hle⟩ := consumes_of_parseOneHunk hhunk
        have hfuel' : ((line :: lines).drop hunkLines).length ≤ fuel := by
          rw [List.length_drop, List.length_cons]
          omega
        have hrest := ih hfuel' (lineNumber + hunkLines) (hunks ++ [hunk])
        rw [Loop.iterate_yield rfl hround, Result.ok_bind]
        dsimp only
        refine hrest.trans ?_
        cases ApplyPatch.parseHunks fuel ((line :: lines).drop hunkLines)
          (lineNumber + hunkLines) with
        | error e => rfl
        | ok hunks' => exact congrArg Except.ok (List.append_assoc ..)

/-- Every line is consumed by one hunk. -/
theorem consumed_of_parseHunks {fuel : Nat} {hunks : List Hunk} (hfuel : lines.length ≤ fuel)
    (h : ApplyPatch.parseHunks fuel lines lineNumber = .ok hunks) :
    ∃ pieces, pieces.flatten = lines ∧ Consumed lineNumber pieces hunks := by
  induction fuel generalizing lines lineNumber hunks with
  | zero =>
    obtain rfl := List.length_eq_zero_iff.1 (Nat.le_zero.1 hfuel)
    cases h
    exact ⟨[], rfl, .nil _⟩
  | succ fuel ih =>
    cases lines with
    | nil =>
      cases h
      exact ⟨[], rfl, .nil _⟩
    | cons line lines =>
      rw [ApplyPatch.parseHunks] at h
      obtain ⟨⟨hunk, hunkLines⟩, hhunk, h⟩ := Result.exists_of_bind_eq_ok h
      obtain ⟨hunks', hhunks', h⟩ := Result.exists_of_bind_eq_ok h
      cases h
      obtain ⟨hpos, hle⟩ := consumes_of_parseOneHunk hhunk
      rw [List.length_cons] at hfuel
      obtain ⟨pieces, hpieces, hconsumed⟩ := ih
        (by rw [List.length_drop, List.length_cons]; omega) hhunks'
      have hlength : ((line :: lines).take hunkLines).length = hunkLines :=
        List.length_take_of_le hle
      have hjoin : (line :: lines).take hunkLines ++ pieces.flatten = line :: lines := by
        rw [hpieces, List.take_append_drop]
      refine ⟨(line :: lines).take hunkLines :: pieces, hjoin, .cons ?_ ?_ ?_⟩
      · refine List.ne_nil_of_length_pos ?_
        rw [hlength]
        exact hpos
      · rw [hjoin, hlength, parseOneHunk_eq (List.cons_ne_nil _ _), hhunk]
        rfl
      · rwa [hlength]

/-! ## Patches -/

theorem exists_of_checkPatchBoundariesStrict (h : checkPatchBoundariesStrict lines = .ok ()) :
    ∃ first inner last, lines = first :: inner ++ [last] ∧ Str.trim first = beginPatchMarker ∧
      Str.trim last = endPatchMarker := by
  rcases List.eq_nil_or_concat lines with rfl | ⟨init, last, rfl⟩
  · cases h
  · rw [List.concat_eq_append] at h ⊢
    rw [checkPatchBoundariesStrict, List.getLast?_concat] at h
    have hne : beginPatchMarker ≠ endPatchMarker := by decide
    cases init with
    | nil =>
      simp only [List.nil_append, List.head?_cons, checkStartAndEndLinesStrict,
        Option.map_some] at h
      split at h
      next hboth => exact absurd (hboth.1.symm.trans hboth.2) hne
      next => split at h <;> cases h
    | cons first inner =>
      simp only [List.cons_append, List.head?_cons, checkStartAndEndLinesStrict,
        Option.map_some] at h
      split at h
      next hboth => exact ⟨first, inner, last, rfl, hboth.1, hboth.2⟩
      next => split at h <;> cases h

theorem take_drop_eq_tail_dropLast (lines : List Str) :
    (lines.take (lines.length - 1)).drop 1 = lines.tail.dropLast := by
  rw [List.drop_take, List.dropLast_eq_take, List.length_tail, List.drop_one]

theorem checkPatchBoundariesLenient_eq (lines : List Str) (e : ParseError) :
    checkPatchBoundariesLenient lines e =
      lift (ApplyPatch.checkPatchBoundariesLenient lines e) := by
  unfold checkPatchBoundariesLenient ApplyPatch.checkPatchBoundariesLenient
  cases lines.head? with
  | none => rfl
  | some first =>
    cases lines.getLast? with
    | none => rfl
    | some last =>
      dsimp only
      split
      next h =>
        have hlength : 4 ≤ lines.length := by
          simp only [Bool.and_eq_true, decide_eq_true_eq] at h
          exact h.2
        rw [Checked.sliceRange_eq (by omega) (Nat.sub_le ..), Result.ok_bind,
          take_drop_eq_tail_dropLast, Checked.lift_bind]
        rfl
      next => rfl

theorem strict_of_checkPatchBoundariesLenient {e : ParseError} {inner : List Str}
    (h : ApplyPatch.checkPatchBoundariesLenient lines e = .ok inner) :
    checkPatchBoundariesStrict inner = .ok () := by
  unfold ApplyPatch.checkPatchBoundariesLenient at h
  split at h
  · split at h
    · obtain ⟨_, hstrict, h⟩ := Result.exists_of_bind_eq_ok h
      cases h
      exact hstrict
    · cases h
  · cases h

theorem patchLines_spec (mode : ParseMode) (patch : Str) : ∃ r, patchLines mode patch = lift r ∧
    ∀ lines, r = .ok lines → checkPatchBoundariesStrict lines = .ok () := by
  unfold patchLines
  dsimp only
  cases hstrict : checkPatchBoundariesStrict (Str.lines (Str.trim patch)) with
  | ok =>
    refine ⟨.ok _, rfl, fun lines hlines => ?_⟩
    cases hlines
    exact hstrict
  | error e =>
    cases mode with
    | strict => exact ⟨.error e, rfl, nofun⟩
    | lenient => exact ⟨_, checkPatchBoundariesLenient_eq .., fun lines hlines =>
        strict_of_checkPatchBoundariesLenient hlines⟩

/-- What `parse_patch_text` makes of the lines. -/
def parseLines (lines : List Str) : Except ParseError ApplyPatchArgs := do
  let hunks ← ApplyPatch.parseHunks lines.length lines.tail.dropLast 2
  return ⟨Str.join ['\n'] lines, hunks, none⟩

theorem parsePatchText_of_patchLines {patch : Str} {mode : ParseMode}
    {r : Except ParseError (List Str)}
    (hr : patchLines mode patch = lift r)
    (hstrict : ∀ lines, r = .ok lines → checkPatchBoundariesStrict lines = .ok ()) :
    parsePatchText patch mode = lift (r >>= parseLines) := by
  rw [parsePatchText, hr, Checked.lift_bind]
  cases r with
  | error e => rfl
  | ok lines =>
    obtain ⟨first, inner, last, rfl, -⟩ := exists_of_checkPatchBoundariesStrict (hstrict lines rfl)
    have hlength : (first :: inner ++ [last]).length = inner.length + 2 := by simp
    rw [Checked.lift_ok, Result.ok_bind, Result.ok_bind, Checked.sliceRange_eq (by omega)
      (Nat.sub_le ..), Result.ok_bind, take_drop_eq_tail_dropLast]
    have hfuel : (first :: inner ++ [last]).tail.dropLast.length ≤
        (first :: inner ++ [last]).length := by
      simp
      omega
    have hhunks := parseHunks_eq hfuel 2 []
    rw [parseLines, Checked.lift_bind]
    cases hplain : ApplyPatch.parseHunks (first :: inner ++ [last]).length
      (first :: inner ++ [last]).tail.dropLast 2 with
    | error e =>
      rw [hplain] at hhunks
      cases hsliced : parseHunks (first :: inner ++ [last]).length
        ⟨(first :: inner ++ [last]).tail.dropLast, 2, []⟩ with
      | error stop =>
        rw [hsliced] at hhunks
        cases hhunks
        rfl
      | ok s =>
        rw [hsliced] at hhunks
        cases hhunks
    | ok hunks =>
      rw [hplain] at hhunks
      obtain ⟨s, hs, hsame⟩ := Result.exists_of_map_eq_ok hhunks
      rw [hs]
      cases hsame
      rfl

/-- A hunk and a chunk take at least one line and no more than there are, every loop and every slice
ends, and the lines between the markers are taken by the hunks, each by one. -/
theorem hunks_consume_lines :
    (∀ lines lineNumber allow chunk k,
      parseUpdateFileChunk lines lineNumber allow = .ok (chunk, k) → 1 ≤ k ∧ k ≤ lines.length) ∧
    (∀ lines lineNumber hunk k,
      parseOneHunk lines lineNumber = .ok (hunk, k) → 1 ≤ k ∧ k ≤ lines.length) ∧
    (∀ lines lineNumber allow, Checked.Ends (parseUpdateFileChunk lines lineNumber allow)) ∧
    (∀ lines lineNumber, lines ≠ [] → Checked.Ends (parseOneHunk lines lineNumber)) ∧
    ∀ patch mode, Checked.Ends (parsePatchText patch mode) ∧
      ∀ args, parsePatchText patch mode = .ok args → ∃ first inner last pieces,
        patchLines mode patch = .ok (first :: inner ++ [last]) ∧
        Str.trim first = beginPatchMarker ∧ Str.trim last = endPatchMarker ∧
        pieces.flatten = inner ∧ Consumed 2 pieces args.hunks := by
  refine ⟨fun lines lineNumber allow chunk k h => ?_, fun lines lineNumber hunk k h => ?_,
    fun lines lineNumber allow => ⟨_, parseUpdateFileChunk_eq lines lineNumber allow⟩,
    fun lines lineNumber hlines => ⟨_, parseOneHunk_eq hlines lineNumber⟩, fun patch mode => ?_⟩
  · rw [parseUpdateFileChunk_eq, Checked.lift_eq_ok] at h
    exact consumes_of_parseUpdateFileChunk h
  · have hlines : lines ≠ [] := by
      rintro rfl
      cases h
    rw [parseOneHunk_eq hlines, Checked.lift_eq_ok] at h
    exact consumes_of_parseOneHunk h
  · obtain ⟨r, hr, hstrict⟩ := patchLines_spec mode patch
    have hparse := parsePatchText_of_patchLines hr hstrict
    refine ⟨⟨_, hparse⟩, fun args hargs => ?_⟩
    rw [hparse, Checked.lift_eq_ok] at hargs
    obtain ⟨lines, rfl, hlines⟩ := Result.exists_of_bind_eq_ok hargs
    obtain ⟨first, inner, last, rfl, hfirst, hlast⟩ :=
      exists_of_checkPatchBoundariesStrict (hstrict lines rfl)
    rw [parseLines] at hlines
    obtain ⟨hunks, hhunks, hlines⟩ := Result.exists_of_bind_eq_ok hlines
    cases hlines
    have hinner : (first :: inner ++ [last]).tail.dropLast = inner := by simp
    rw [hinner] at hhunks
    have hfuel : inner.length ≤ (first :: inner ++ [last]).length := by
      simp only [List.cons_append, List.length_cons, List.length_append]
      omega
    obtain ⟨pieces, hpieces, hconsumed⟩ := consumed_of_parseHunks hfuel hhunks
    exact ⟨first, inner, last, pieces, hr, hfirst, hlast, hpieces, hconsumed⟩

end

end SheriMl.ApplyPatch.Sliced
