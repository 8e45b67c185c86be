import SheriMl.ApplyPatch.Parser
import SheriMl.Lib.Lines

/-!
# The lines of hunks

A hunk as the lines it is written in, and what `parse_one_hunk` and the loop of
`parse_patch_text` read in them. `parseHunks_toLines_iff`: some hunks written out are
read one by one, each as `HunkSyntax.read` says.
-/

namespace SheriMl.ApplyPatch

open List

/-- A line of a chunk, without its sign. -/
inductive ChangeLine where
  | add (text : Str)
  | remove (text : Str)
  | keep (text : Str)

namespace ChangeLine

def toLine : ChangeLine → Str
  | add text => '+' :: text
  | remove text => '-' :: text
  | keep text => ' ' :: text

def oldLine : ChangeLine → Option Str
  | add _ => none
  | remove text => some text
  | keep text => some text

def newLine : ChangeLine → Option Str
  | add text => some text
  | remove _ => none
  | keep text => some text

/-- A line that the parser takes for one between chunks. -/
def isBlank (line : ChangeLine) : Bool := (Str.trim line.toLine).isEmpty

end ChangeLine

/-- A chunk and the marker before it. -/
structure Segment where
  changeContext : Option Str
  lines : List ChangeLine
  isEndOfFile : Bool

def contextLine : Option Str → Str
  | none => emptyChangeContextMarker
  | some context => changeContextMarker ++ context

namespace Segment

/-- The lines behind the marker. -/
def bodyLines (segment : Segment) : List Str :=
  segment.lines.map ChangeLine.toLine ++ if segment.isEndOfFile then [eofMarker] else []

def toLines (segment : Segment) : List Str :=
  contextLine segment.changeContext :: segment.bodyLines

def chunk (segment : Segment) : UpdateFileChunk :=
  ⟨segment.changeContext, segment.lines.filterMap ChangeLine.oldLine,
    segment.lines.filterMap ChangeLine.newLine, segment.isEndOfFile⟩

/-- The lines before the first marker, from the first that is not blank on. -/
def withoutBlanks (segment : Segment) : Segment :=
  ⟨none, segment.lines.dropWhile ChangeLine.isBlank, segment.isEndOfFile⟩

/-- The chunk before the first marker. -/
def leadChunks (segment : Segment) : List UpdateFileChunk :=
  if segment.withoutBlanks.lines = [] then [] else [segment.withoutBlanks.chunk]

end Segment

/-- A hunk as it is written. The lead of an update is the chunk before the first marker, without
lines if there is none. -/
inductive HunkSyntax where
  | addFile (path : Str) (lines : List Str)
  | deleteFile (path : Str)
  | updateFile (path : Str) (movePath : Option Str) (lead : Segment) (segments : List Segment)

namespace HunkSyntax

def header : HunkSyntax → Str
  | addFile path _ => addFileMarker ++ path
  | deleteFile path => deleteFileMarker ++ path
  | updateFile path _ _ _ => updateFileMarker ++ path

/-- The lines behind the header. -/
def body : HunkSyntax → List Str
  | addFile _ lines => lines.map ('+' :: ·)
  | deleteFile _ => []
  | updateFile _ movePath lead segments =>
    (movePath.map (moveToMarker ++ ·)).toList ++ lead.bodyLines ++ segments.flatMap Segment.toLines

def toLines (h : HunkSyntax) : List Str := h.header :: h.body

/-- The path of a header, or nothing where the marker's own space is trimmed. -/
def readPath (path : Str) : Option Str :=
  if Str.trimEnd path = [] then none else some (Str.trimEnd path)

/-- What the parser makes of a hunk, if it accepts it. -/
def read : HunkSyntax → Option Hunk
  | addFile path lines =>
    (readPath path).map fun path => .addFile path (lines.flatMap (· ++ ['\n']))
  | deleteFile path => (readPath path).map .deleteFile
  | updateFile path movePath lead segments =>
    let chunks := lead.leadChunks ++ segments.map Segment.chunk
    if segments.any (·.lines.isEmpty) || chunks.isEmpty then none
    else (readPath path).map fun path => .updateFile path movePath chunks

/-- A lead that ends the file is all there is, and a lead has no marker. -/
def WellFormed : HunkSyntax → Prop
  | updateFile _ _ lead segments =>
    lead.changeContext = none ∧ (lead.isEndOfFile = true → segments = [])
  | _ => True

end HunkSyntax

/-- The parser accepts with a value and the number of lines it took, or it fails. -/
def Reads {α : Type} (result : Except ParseError (α × Nat)) (value : Option α) (numLines : Nat) :
    Prop :=
  match value with
  | some a => result = .ok (a, numLines)
  | none => ∃ e, result = .error e

/-- Nothing, or a line that begins another chunk or hunk. -/
def EndsChunk (rest : List Str) : Prop :=
  rest = [] ∨ ∃ c s tail, rest = (c :: s) :: tail ∧ (c = '@' ∨ c = '*') ∧ c :: s ≠ eofMarker

/-- Nothing, or the header of a hunk. -/
def EndsHunk (rest : List Str) : Prop :=
  rest = [] ∨ ∃ (h : HunkSyntax) (tail : List Str), rest = h.header :: tail

/-! ## Chunks -/

section Chunks

variable {n numLines fuel : Nat} {rest : List Str} {lines : List ChangeLine} {segment : Segment}
  {segments : List Segment} {chunk : UpdateFileChunk} {chunks : List UpdateFileChunk}

theorem toLine_ne_eofMarker (line : ChangeLine) : line.toLine ≠ eofMarker := by
  intro heq
  cases line with
  | add text | remove text | keep text => exact absurd (head_eq_of_cons_eq heq) (by decide)

theorem parseChunkLines_cons (line : ChangeLine) (rest : List Str) (chunk : UpdateFileChunk)
    (numLines : Nat) :
    parseChunkLines n (line.toLine :: rest) chunk numLines =
      parseChunkLines n rest
        { chunk with
          oldLines := chunk.oldLines ++ line.oldLine.toList
          newLines := chunk.newLines ++ line.newLine.toList }
        (numLines + 1) := by
  have hne := toLine_ne_eofMarker line
  cases line with
  | add text | remove text =>
    rw [ChangeLine.toLine] at hne ⊢
    rw [parseChunkLines.eq_def]
    simp only [if_neg hne, ChangeLine.oldLine, ChangeLine.newLine, Option.toList_none,
      Option.toList_some, append_nil]
  | keep text =>
    rw [ChangeLine.toLine] at hne ⊢
    rw [parseChunkLines.eq_def]
    simp only [if_neg hne, ChangeLine.oldLine, ChangeLine.newLine, Option.toList_some]

theorem parseChunkLines_append (lines : List ChangeLine) (rest : List Str)
    (chunk : UpdateFileChunk) (numLines : Nat) :
    parseChunkLines n (lines.map ChangeLine.toLine ++ rest) chunk numLines =
      parseChunkLines n rest
        { chunk with
          oldLines := chunk.oldLines ++ lines.filterMap ChangeLine.oldLine
          newLines := chunk.newLines ++ lines.filterMap ChangeLine.newLine }
        (numLines + lines.length) := by
  induction lines generalizing chunk numLines with
  | nil => simp
  | cons line lines ih =>
    have hcons {f : ChangeLine → Option Str} :
        (f line).toList ++ lines.filterMap f = (line :: lines).filterMap f := by
      cases hline : f line with
      | none => rw [filterMap_cons_none hline]; rfl
      | some text => rw [filterMap_cons_some hline]; rfl
    rw [map_cons, cons_append, parseChunkLines_cons, ih]
    simp only [append_assoc, hcons, length_cons]
    congr 1
    omega

/-- What begins another chunk or hunk ends a chunk that has lines. -/
theorem parseChunkLines_of_endsChunk (h : EndsChunk rest) (hnumLines : numLines ≠ 0) :
    parseChunkLines n rest chunk numLines = .ok (chunk, numLines) := by
  rcases h with rfl | ⟨c, s, tail, rfl, hc, hne⟩
  · rfl
  · rw [parseChunkLines.eq_def]
    rcases hc with rfl | rfl
    · exact (if_neg hne).trans (if_neg hnumLines)
    · exact (if_neg hne).trans (if_neg hnumLines)

theorem parseChunkLines_error (h : EndsChunk rest) (hne : rest ≠ []) :
    ∃ e, parseChunkLines n rest chunk 0 = .error e := by
  rcases h with rfl | ⟨c, s, tail, rfl, hc, hmarker⟩
  · exact absurd rfl hne
  · rw [parseChunkLines.eq_def]
    rcases hc with rfl | rfl
    · exact ⟨_, (if_neg hmarker).trans (if_pos rfl)⟩
    · exact ⟨_, (if_neg hmarker).trans (if_pos rfl)⟩

theorem parseChunkLines_body (hlines : segment.lines ≠ []) (hrest : EndsChunk rest) :
    parseChunkLines n (segment.bodyLines ++ rest) ⟨segment.changeContext, [], [], false⟩ 0 =
      .ok (segment.chunk, segment.bodyLines.length) := by
  have hlength : segment.lines.length ≠ 0 := mt length_eq_zero_iff.1 hlines
  rw [Segment.bodyLines, append_assoc, parseChunkLines_append, Nat.zero_add,
    length_append, length_map, Segment.chunk]
  cases segment.isEndOfFile with
  | false => exact parseChunkLines_of_endsChunk hrest hlength
  | true =>
    rw [if_pos rfl, singleton_append, parseChunkLines.eq_def]
    exact (if_pos rfl).trans (if_neg hlength)

theorem parseChangeContext_contextLine (changeContext : Option Str) (allow : Bool) :
    parseChangeContext (contextLine changeContext) n allow = .ok (changeContext, 1) := by
  cases changeContext with
  | none => exact if_pos rfl
  | some context =>
    have hstrip : Str.stripPrefix (contextLine (some context)) changeContextMarker = some context :=
      Str.stripPrefix_eq_some.2 rfl
    have hne : contextLine (some context) ≠ emptyChangeContextMarker := by
      intro heq
      have hlength := congrArg List.length heq
      rw [contextLine, length_append] at hlength
      exact absurd hlength (by rw [changeContextMarker, emptyChangeContextMarker]; simp; omega)
    rw [parseChangeContext, if_neg hne, hstrip]

theorem parseUpdateFileChunk_contextLine (changeContext : Option Str) (body : List Str)
    (allow : Bool) : parseUpdateFileChunk (contextLine changeContext :: body) n allow =
      if body.length + 1 ≤ 1 then .error (noLinesError (n + 1))
      else parseChunkLines n body ⟨changeContext, [], [], false⟩ 0 >>= fun read =>
        .ok (read.1, read.2 + 1) := by
  rw [parseUpdateFileChunk, parseChangeContext_contextLine]
  rfl

theorem parseUpdateFileChunk_toLines (segment : Segment) (hrest : EndsChunk rest) (allow : Bool) :
    Reads (parseUpdateFileChunk (segment.toLines ++ rest) n allow)
      (if segment.lines = [] then none else some segment.chunk) segment.toLines.length := by
  rw [Segment.toLines, cons_append, parseUpdateFileChunk_contextLine]
  by_cases hlines : segment.lines = []
  · rw [if_pos hlines]
    split
    · exact ⟨_, rfl⟩
    next hlength =>
      obtain ⟨e, he⟩ : ∃ e, parseChunkLines n (segment.bodyLines ++ rest)
          ⟨segment.changeContext, [], [], false⟩ 0 = .error e := by
        rw [Segment.bodyLines, hlines, map_nil, nil_append]
        cases heof : segment.isEndOfFile with
        | true =>
          rw [if_pos rfl, singleton_append, parseChunkLines.eq_def]
          exact ⟨_, (if_pos rfl).trans (if_pos rfl)⟩
        | false =>
          rw [if_neg Bool.false_ne_true, nil_append]
          apply parseChunkLines_error hrest
          rintro rfl
          rw [Segment.bodyLines, hlines, heof] at hlength
          exact hlength (Nat.le_refl _)
      rw [he]
      exact ⟨e, rfl⟩
  · have hbody : ¬ (segment.bodyLines ++ rest).length + 1 ≤ 1 := by
      have hlength : segment.lines.length ≠ 0 := mt length_eq_zero_iff.1 hlines
      rw [length_append, Segment.bodyLines, length_append, length_map]
      omega
    rw [if_neg hlines, if_neg hbody, parseChunkLines_body hlines hrest]
    rfl

/-- The first chunk is read without a marker. -/
theorem parseUpdateFileChunk_lead (segment : Segment) (hcontext : segment.changeContext = none)
    (hlines : segment.lines ≠ []) (hrest : EndsChunk rest) :
    parseUpdateFileChunk (segment.bodyLines ++ rest) n true =
      .ok (segment.chunk, segment.bodyLines.length) := by
  obtain ⟨line, lines, hcons⟩ := exists_cons_of_ne_nil hlines
  obtain ⟨body, hbody⟩ : ∃ body, segment.bodyLines ++ rest = line.toLine :: body := by
    rw [Segment.bodyLines, hcons]
    exact ⟨_, rfl⟩
  have hmissing : parseChangeContext line.toLine n true = .ok (none, 0) := by
    cases line with
    | add text => rfl
    | remove text => rfl
    | keep text => rfl
  have hread := parseChunkLines_body (n := n) hlines hrest
  rw [hcontext, hbody] at hread
  rw [hbody, parseUpdateFileChunk, hmissing]
  simp only [bind, Except.bind, drop_zero, hread, length_cons]
  rfl

theorem isEmpty_trim_of_mark {c : Char} (hc : Str.isWhitespace c = false) (s : Str) :
    (Str.trim (c :: s)).isEmpty = false := by
  rw [Bool.eq_false_iff]
  intro hempty
  exact Str.trim_cons_ne_nil hc s (List.isEmpty_iff.1 hempty)

theorem EndsHunk.cases (h : EndsHunk rest) : rest = [] ∨
    ∃ s tail, rest = ('*' :: s) :: tail ∧ Str.startsWith ('*' :: s) "***" = true ∧
      '*' :: s ≠ eofMarker := by
  rcases h with rfl | ⟨h, tail, rfl⟩
  · exact .inl rfl
  · right
    -- the markers differ in their fifth characters
    have hne {s : Str} {c : Char} (hc : s[4]? = some c) (hfifth : c ≠ 'E') : s ≠ eofMarker := by
      rintro rfl
      exact hfifth (Option.some.inj hc).symm
    cases h with
    | addFile path lines => exact ⟨_, tail, rfl, rfl, hne (c := 'A') rfl (by decide)⟩
    | deleteFile path => exact ⟨_, tail, rfl, rfl, hne (c := 'D') rfl (by decide)⟩
    | updateFile path movePath lead segments =>
      exact ⟨_, tail, rfl, rfl, hne (c := 'U') rfl (by decide)⟩

theorem EndsHunk.endsChunk (h : EndsHunk rest) : EndsChunk rest := by
  rcases h.cases with rfl | ⟨s, tail, rfl, -, hne⟩
  · exact .inl rfl
  · exact .inr ⟨'*', s, tail, rfl, .inr rfl, hne⟩

theorem contextLine_eq_cons (changeContext : Option Str) :
    ∃ s, contextLine changeContext = '@' :: s := by
  cases changeContext with
  | none => exact ⟨_, rfl⟩
  | some context => exact ⟨_, rfl⟩

theorem endsChunk_segments (segments : List Segment) (hrest : EndsHunk rest) :
    EndsChunk (segments.flatMap Segment.toLines ++ rest) := by
  cases segments with
  | nil => exact hrest.endsChunk
  | cons segment segments =>
    obtain ⟨s, hs⟩ := contextLine_eq_cons segment.changeContext
    refine .inr ⟨'@', s, segment.bodyLines ++ segments.flatMap Segment.toLines ++ rest, ?_,
      .inl rfl, ?_⟩
    · rw [flatMap_cons, Segment.toLines, hs]
      rfl
    · intro heq
      exact absurd (head_eq_of_cons_eq heq) (by decide)

theorem parseChunks_of_endsHunk (hrest : EndsHunk rest) (hfuel : rest.length ≤ fuel) :
    parseChunks n fuel rest chunks numLines = .ok (chunks, numLines) := by
  rcases hrest.cases with rfl | ⟨s, tail, rfl, hstars, -⟩
  · cases fuel with
    | zero => rfl
    | succ fuel => rfl
  · cases fuel with
    | zero => exact absurd hfuel (Nat.not_succ_le_zero _)
    | succ fuel =>
      rw [parseChunks, isEmpty_trim_of_mark rfl, if_neg Bool.false_ne_true,
        if_pos hstars]

theorem parseChunks_segments (segments : List Segment) (hrest : EndsHunk rest)
    (hfuel : (segments.flatMap Segment.toLines ++ rest).length ≤ fuel) :
    Reads (parseChunks n fuel (segments.flatMap Segment.toLines ++ rest) chunks numLines)
      (if segments.any (·.lines.isEmpty) then none else some (chunks ++ segments.map Segment.chunk))
      (numLines + (segments.flatMap Segment.toLines).length) := by
  induction segments generalizing fuel chunks numLines with
  | nil =>
    have hend : parseChunks n fuel rest chunks numLines = .ok (chunks, numLines) :=
      parseChunks_of_endsHunk hrest hfuel
    rw [any_nil, if_neg Bool.false_ne_true, map_nil, append_nil]
    exact hend
  | cons segment segments ih =>
    obtain ⟨c, hc⟩ := contextLine_eq_cons segment.changeContext
    have hlines : (segment :: segments).flatMap Segment.toLines ++ rest =
        segment.toLines ++ (segments.flatMap Segment.toLines ++ rest) := by
      rw [flatMap_cons, append_assoc]
    have hread := parseUpdateFileChunk_toLines (n := n + numLines) segment
      (endsChunk_segments segments hrest) chunks.isEmpty
    rw [hlines] at hfuel ⊢
    cases fuel with
    | zero =>
      rw [length_append, Segment.toLines, length_cons] at hfuel
      omega
    | succ fuel =>
      rw [length_append, Segment.toLines, length_cons] at hfuel
      have hstep : parseChunks n (fuel + 1)
          (segment.toLines ++ (segments.flatMap Segment.toLines ++ rest)) chunks numLines =
          parseUpdateFileChunk (segment.toLines ++ (segments.flatMap Segment.toLines ++ rest))
              (n + numLines) chunks.isEmpty >>= fun read =>
            parseChunks n fuel ((segment.toLines ++
              (segments.flatMap Segment.toLines ++ rest)).drop read.2) (chunks ++ [read.1])
              (numLines + read.2) := by
        rw [Segment.toLines, hc, cons_append, parseChunks, isEmpty_trim_of_mark rfl,
          if_neg Bool.false_ne_true, if_neg]
        exact Bool.false_ne_true
      rw [hstep]
      by_cases hempty : segment.lines = []
      · rw [if_pos hempty] at hread
        obtain ⟨e, he⟩ := hread
        rw [he, if_pos]
        · exact ⟨e, rfl⟩
        · rw [any_cons, hempty]
          rfl
      · rw [if_neg hempty] at hread
        rw [show parseUpdateFileChunk _ _ _ = _ from hread]
        have hany : (segment :: segments).any (·.lines.isEmpty) =
            segments.any (·.lines.isEmpty) := by
          rw [any_cons, Bool.eq_false_iff.2 (mt List.isEmpty_iff.1 hempty), Bool.false_or]
        rw [hany, map_cons, append_cons, flatMap_cons, length_append,
          ← Nat.add_assoc]
        dsimp only [bind, Except.bind]
        rw [drop_left]
        exact ih (by omega)

theorem bodyLines_cons (line : ChangeLine) (lines : List ChangeLine) (isEndOfFile : Bool) :
    (⟨none, line :: lines, isEndOfFile⟩ : Segment).bodyLines =
      line.toLine :: (⟨none, lines, isEndOfFile⟩ : Segment).bodyLines := rfl

theorem not_startsWith_toLine (line : ChangeLine) : ¬ Str.startsWith line.toLine "***" = true := by
  cases line with
  | add text => exact Bool.false_ne_true
  | remove text => exact Bool.false_ne_true
  | keep text => exact Bool.false_ne_true

/-- The lead of an update and its segments. The number of lines counts only where chunks are
found: the end-of-file marker is left alone behind blank lines. -/
theorem parseChunks_lead (numLines : Nat) (lines : List ChangeLine) (isEndOfFile : Bool)
    (hrest : EndsHunk rest) (hlast : isEndOfFile = true → segments = [])
    (hfuel : ((⟨none, lines, isEndOfFile⟩ : Segment).bodyLines ++
      (segments.flatMap Segment.toLines ++ rest)).length ≤ fuel) :
    ∃ taken,
      Reads (parseChunks n fuel ((⟨none, lines, isEndOfFile⟩ : Segment).bodyLines ++
          (segments.flatMap Segment.toLines ++ rest)) [] numLines)
        (if segments.any (·.lines.isEmpty) then none
          else some ((⟨none, lines, isEndOfFile⟩ : Segment).leadChunks ++
            segments.map Segment.chunk)) taken ∧
      ((⟨none, lines, isEndOfFile⟩ : Segment).leadChunks ++ segments.map Segment.chunk ≠ [] →
        taken = numLines + (⟨none, lines, isEndOfFile⟩ : Segment).bodyLines.length +
          (segments.flatMap Segment.toLines).length) := by
  induction lines generalizing fuel numLines with
  | nil =>
    cases isEndOfFile with
    | false =>
      refine ⟨numLines + (segments.flatMap Segment.toLines).length, ?_, fun _ => rfl⟩
      exact parseChunks_segments segments hrest hfuel
    | true =>
      obtain rfl := hlast rfl
      refine ⟨numLines, ?_, fun hne => absurd rfl hne⟩
      cases fuel with
      | zero => exact absurd hfuel (Nat.not_succ_le_zero _)
      | succ fuel =>
        have hmarker : (⟨none, [], true⟩ : Segment).bodyLines = [eofMarker] := rfl
        have hblank : (Str.trim eofMarker).isEmpty = false := by decide
        have hstars : Str.startsWith eofMarker "***" = true := by decide
        rw [hmarker, singleton_append, parseChunks, hblank, if_neg Bool.false_ne_true,
          if_pos hstars]
        rfl
  | cons line lines ih =>
    rw [bodyLines_cons] at hfuel ⊢
    rw [cons_append, length_cons] at hfuel
    cases fuel with
    | zero => exact absurd hfuel (Nat.not_succ_le_zero _)
    | succ fuel =>
      by_cases hblank : line.isBlank = true
      · -- a blank line is skipped, and the rest read as if it were not there
        obtain ⟨taken, hread, htaken⟩ := ih (numLines + 1) (Nat.le_of_succ_le_succ hfuel)
        have hlead : (⟨none, line :: lines, isEndOfFile⟩ : Segment).leadChunks =
            (⟨none, lines, isEndOfFile⟩ : Segment).leadChunks := by
          rw [Segment.leadChunks, Segment.leadChunks, Segment.withoutBlanks, Segment.withoutBlanks,
            dropWhile_cons_of_pos hblank]
        refine ⟨taken, ?_, ?_⟩
        · have htrim : (Str.trim line.toLine).isEmpty = true := hblank
          rw [cons_append, parseChunks, if_pos htrim, hlead]
          exact hread
        · intro hne
          rw [hlead] at hne
          rw [htaken hne, length_cons]
          omega
      · have hlead : (⟨none, line :: lines, isEndOfFile⟩ : Segment).leadChunks =
            [(⟨none, line :: lines, isEndOfFile⟩ : Segment).chunk] := by
          rw [Segment.leadChunks, Segment.withoutBlanks, dropWhile_cons_of_neg hblank,
            if_neg (cons_ne_nil _ _)]
        have hread := parseUpdateFileChunk_lead (n := n + numLines)
          ⟨none, line :: lines, isEndOfFile⟩ rfl (cons_ne_nil _ _)
          (endsChunk_segments segments hrest)
        rw [bodyLines_cons, cons_append] at hread
        have htrim : ¬ (Str.trim line.toLine).isEmpty = true := hblank
        refine ⟨_, ?_, fun _ => rfl⟩
        rw [hlead, cons_append, parseChunks, if_neg htrim, if_neg (not_startsWith_toLine line),
          isEmpty_nil, hread]
        dsimp only [bind, Except.bind]
        rw [← cons_append, drop_left, nil_append]
        apply parseChunks_segments segments hrest
        rw [length_append] at hfuel
        omega

end Chunks

/-! ## Hunks -/

section Hunks

variable {n fuel : Nat} {rest : List Str} {h : HunkSyntax} {hunks : List HunkSyntax}

theorem addedLines_append (lines : List Str) (hrest : EndsHunk rest) :
    addedLines (lines.map ('+' :: ·) ++ rest) = lines := by
  induction lines with
  | nil =>
    rcases hrest.cases with rfl | ⟨s, tail, rfl, -, -⟩
    · rfl
    · rfl
  | cons line lines ih =>
    rw [map_cons, cons_append, addedLines, ih]

theorem trim_header (s path : Str) :
    Str.trim ('*' :: s ++ path) =
      if Str.trimEnd path = [] then Str.trimEnd ('*' :: s) else '*' :: s ++ Str.trimEnd path := by
  rw [cons_append, Str.trim_cons rfl, ← cons_append, Str.trimEnd_append]

theorem stripPrefix_moveToMarker (lines : List ChangeLine) (isEndOfFile : Bool)
    (segments : List Segment) (hrest : EndsHunk rest) {line : Str}
    (hline : ((⟨none, lines, isEndOfFile⟩ : Segment).bodyLines ++
      (segments.flatMap Segment.toLines ++ rest)).head? = some line) :
    Str.stripPrefix line moveToMarker = none := by
  cases lines with
  | cons first lines =>
    obtain rfl := Option.some.inj hline
    cases first with
    | add text => rfl
    | remove text => rfl
    | keep text => rfl
  | nil =>
    cases isEndOfFile with
    | true =>
      obtain rfl := Option.some.inj hline
      rfl
    | false =>
      cases segments with
      | cons segment segments =>
        obtain ⟨s, hs⟩ := contextLine_eq_cons segment.changeContext
        obtain rfl := Option.some.inj hline
        rw [hs]
        rfl
      | nil =>
        rcases hrest with rfl | ⟨h, tail, rfl⟩
        · cases hline
        · obtain rfl := Option.some.inj hline
          cases h with
          | addFile path lines => rfl
          | deleteFile path => rfl
          | updateFile path movePath lead segments => rfl

theorem parseOneHunk_unknown {lines : List Str}
    (hadd : Str.stripPrefix (Str.trim (lines.headD [])) addFileMarker = none)
    (hdelete : Str.stripPrefix (Str.trim (lines.headD [])) deleteFileMarker = none)
    (hupdate : Str.stripPrefix (Str.trim (lines.headD [])) updateFileMarker = none) :
    ∃ e, parseOneHunk lines n = .error e := by
  rw [parseOneHunk]
  simp only [hadd, hdelete, hupdate]
  exact ⟨_, rfl⟩

theorem parseOneHunk_addFile (path : Str) (lines : List Str) (hrest : EndsHunk rest) :
    Reads (parseOneHunk ((HunkSyntax.addFile path lines).toLines ++ rest) n)
      (HunkSyntax.addFile path lines).read (HunkSyntax.addFile path lines).toLines.length := by
  have htrim : Str.trim (addFileMarker ++ path) = if Str.trimEnd path = [] then
      Str.trimEnd addFileMarker else addFileMarker ++ Str.trimEnd path := trim_header _ path
  rw [HunkSyntax.read, HunkSyntax.readPath]
  by_cases hpath : Str.trimEnd path = []
  · rw [if_pos hpath] at htrim ⊢
    apply parseOneHunk_unknown
    all_goals
      change Str.stripPrefix (Str.trim (addFileMarker ++ path)) _ = none
      rw [htrim]
      decide
  · rw [if_neg hpath] at htrim ⊢
    have hstrip : Str.stripPrefix (Str.trim (addFileMarker ++ path)) addFileMarker =
        some (Str.trimEnd path) := by
      rw [htrim]
      exact Str.stripPrefix_eq_some.2 rfl
    rw [HunkSyntax.toLines, HunkSyntax.header, HunkSyntax.body, cons_append, parseOneHunk]
    simp only [headD_cons, tail_cons, hstrip, addedLines_append lines hrest]
    rw [length_cons, length_map]
    rfl

theorem parseOneHunk_deleteFile (path : Str) :
    Reads (parseOneHunk ((HunkSyntax.deleteFile path).toLines ++ rest) n)
      (HunkSyntax.deleteFile path).read (HunkSyntax.deleteFile path).toLines.length := by
  have htrim : Str.trim (deleteFileMarker ++ path) = if Str.trimEnd path = [] then
      Str.trimEnd deleteFileMarker else deleteFileMarker ++ Str.trimEnd path := trim_header _ path
  rw [HunkSyntax.read, HunkSyntax.readPath]
  by_cases hpath : Str.trimEnd path = []
  · rw [if_pos hpath] at htrim ⊢
    apply parseOneHunk_unknown
    all_goals
      change Str.stripPrefix (Str.trim (deleteFileMarker ++ path)) _ = none
      rw [htrim]
      decide
  · rw [if_neg hpath] at htrim ⊢
    have hadd : Str.stripPrefix (Str.trim (deleteFileMarker ++ path)) addFileMarker = none := by
      rw [htrim]
      rfl
    have hstrip : Str.stripPrefix (Str.trim (deleteFileMarker ++ path)) deleteFileMarker =
        some (Str.trimEnd path) := by
      rw [htrim]
      exact Str.stripPrefix_eq_some.2 rfl
    rw [HunkSyntax.toLines, HunkSyntax.header, HunkSyntax.body, cons_append, parseOneHunk]
    simp only [headD_cons, hadd, hstrip]
    rfl

theorem parseOneHunk_update {path path' : Str} (hpath : Str.trim (updateFileMarker ++ path) =
    updateFileMarker ++ path') (movePath : Option Str) {chunkLines : List Str}
    (hmove : ∀ line, chunkLines.head? = some line → Str.stripPrefix line moveToMarker = none) :
    parseOneHunk ((updateFileMarker ++ path) ::
        ((movePath.map (moveToMarker ++ ·)).toList ++ chunkLines)) n =
      parseChunks n (chunkLines.length + (movePath.toList.length + 1)) chunkLines []
          (movePath.toList.length + 1) >>= fun read =>
        if read.1.isEmpty then
          .error (.invalidHunkError
            (("Update file hunk for path '" : Str) ++ path' ++ ("' is empty" : Str)) n)
        else .ok (.updateFile path' movePath read.1, read.2) := by
  have hadd : Str.stripPrefix (Str.trim (updateFileMarker ++ path)) addFileMarker = none := by
    rw [hpath]
    rfl
  have hdelete : Str.stripPrefix (Str.trim (updateFileMarker ++ path)) deleteFileMarker = none := by
    rw [hpath]
    rfl
  have hstrip : Str.stripPrefix (Str.trim (updateFileMarker ++ path)) updateFileMarker =
      some path' := by
    rw [hpath]
    exact Str.stripPrefix_eq_some.2 rfl
  rw [parseOneHunk]
  simp only [headD_cons, tail_cons, hadd, hdelete, hstrip]
  cases movePath with
  | none =>
    have hnone : (chunkLines.head?.bind fun line => Str.stripPrefix line moveToMarker) = none := by
      cases hhead : chunkLines.head? with
      | none => rfl
      | some line => exact hmove line hhead
    simp only [Option.map_none, Option.toList_none, nil_append, hnone]
    rfl
  | some move =>
    have hsome : Str.stripPrefix (moveToMarker ++ move) moveToMarker = some move :=
      Str.stripPrefix_eq_some.2 rfl
    simp only [Option.map_some, Option.toList_some, singleton_append, List.head?_cons,
      Option.bind_some, hsome]
    rfl

theorem parseOneHunk_updateFile (path : Str) (movePath : Option Str) (lead : Segment)
    (segments : List Segment) (hcontext : lead.changeContext = none)
    (hlast : lead.isEndOfFile = true → segments = []) (hrest : EndsHunk rest) :
    Reads (parseOneHunk ((HunkSyntax.updateFile path movePath lead segments).toLines ++ rest) n)
      (HunkSyntax.updateFile path movePath lead segments).read
      (HunkSyntax.updateFile path movePath lead segments).toLines.length := by
  obtain ⟨_, lines, isEndOfFile⟩ := lead
  obtain rfl := hcontext
  have htrim : Str.trim (updateFileMarker ++ path) = if Str.trimEnd path = [] then
      Str.trimEnd updateFileMarker else updateFileMarker ++ Str.trimEnd path := trim_header _ path
  have htoLines : (HunkSyntax.updateFile path movePath ⟨none, lines, isEndOfFile⟩
      segments).toLines ++ rest = (updateFileMarker ++ path) ::
        ((movePath.map (moveToMarker ++ ·)).toList ++
          ((⟨none, lines, isEndOfFile⟩ : Segment).bodyLines ++
            (segments.flatMap Segment.toLines ++ rest))) := by
    simp only [HunkSyntax.toLines, HunkSyntax.header, HunkSyntax.body, cons_append,
      append_assoc]
  rw [htoLines, HunkSyntax.read, HunkSyntax.readPath]
  by_cases hpath : Str.trimEnd path = []
  · rw [if_pos hpath] at htrim ⊢
    have hread (b : Bool) (f : Str → Hunk) :
        (if b = true then none else (none : Option Str).map f) = none := by
      cases b with
      | false => rfl
      | true => rfl
    rw [hread]
    apply parseOneHunk_unknown
    all_goals
      rw [headD_cons, htrim]
      decide
  · rw [if_neg hpath] at htrim ⊢
    rw [parseOneHunk_update htrim movePath fun line => stripPrefix_moveToMarker lines isEndOfFile
      segments hrest]
    obtain ⟨taken, hread, htaken⟩ := parseChunks_lead (n := n) (movePath.toList.length + 1)
      lines isEndOfFile hrest hlast (Nat.le_add_right _ (movePath.toList.length + 1))
    by_cases hany : segments.any (·.lines.isEmpty) = true
    · rw [if_pos hany] at hread
      obtain ⟨e, he⟩ := hread
      rw [he, hany, Bool.true_or, if_pos rfl]
      exact ⟨e, rfl⟩
    · rw [if_neg hany] at hread
      rw [show parseChunks _ _ _ _ _ = _ from hread, Bool.eq_false_iff.2 hany, Bool.false_or]
      dsimp only [bind, Except.bind]
      split
      · exact ⟨_, rfl⟩
      next hchunks =>
        have hlength := htaken (mt List.isEmpty_iff.2 hchunks)
        have htotal : (HunkSyntax.updateFile path movePath ⟨none, lines, isEndOfFile⟩
            segments).toLines.length = taken := by
          rw [hlength]
          simp only [HunkSyntax.toLines, HunkSyntax.body, length_cons, length_append]
          cases movePath with
          | none => simp; omega
          | some move => simp; omega
        rw [htotal]
        rfl

/-- The parser reads a hunk that another follows, or the end of the patch, as `read` says. -/
theorem parseOneHunk_toLines (hwf : h.WellFormed) (hrest : EndsHunk rest) :
    Reads (parseOneHunk (h.toLines ++ rest) n) h.read h.toLines.length := by
  cases h with
  | addFile path lines => exact parseOneHunk_addFile path lines hrest
  | deleteFile path => exact parseOneHunk_deleteFile path
  | updateFile path movePath lead segments =>
    exact parseOneHunk_updateFile path movePath lead segments hwf.1 hwf.2 hrest

theorem endsHunk_hunks (hunks : List HunkSyntax) :
    EndsHunk (hunks.flatMap HunkSyntax.toLines) := by
  cases hunks with
  | nil => exact .inl rfl
  | cons h hunks => exact .inr ⟨h, h.body ++ hunks.flatMap HunkSyntax.toLines, rfl⟩

/-- The parser gives some hunks just if it reads them one by one. -/
theorem parseHunks_toLines_iff (hwf : ∀ h ∈ hunks, h.WellFormed)
    (hfuel : (hunks.flatMap HunkSyntax.toLines).length ≤ fuel) (expected : List Hunk) :
    parseHunks fuel (hunks.flatMap HunkSyntax.toLines) n = .ok expected ↔
      hunks.map HunkSyntax.read = expected.map some := by
  induction hunks generalizing fuel n expected with
  | nil =>
    have hnil : parseHunks fuel [] n = .ok [] := by
      cases fuel with
      | zero => rfl
      | succ fuel => rfl
    rw [flatMap_nil, hnil, Except.ok.injEq]
    cases expected with
    | nil => exact iff_of_true rfl rfl
    | cons hunk expected => simp
  | cons h hunks ih =>
    have hread := parseOneHunk_toLines (n := n) (hwf h mem_cons_self) (endsHunk_hunks hunks)
    rw [flatMap_cons, length_append, HunkSyntax.toLines, length_cons] at hfuel
    cases fuel with
    | zero => omega
    | succ fuel =>
      have hstep : parseHunks (fuel + 1) (h.toLines ++ hunks.flatMap HunkSyntax.toLines) n =
          parseOneHunk (h.toLines ++ hunks.flatMap HunkSyntax.toLines) n >>= fun read =>
            parseHunks fuel ((h.toLines ++ hunks.flatMap HunkSyntax.toLines).drop read.2)
              (n + read.2) >>= fun hunks => .ok (read.1 :: hunks) := rfl
      rw [flatMap_cons, hstep, map_cons]
      cases hhunk : h.read with
      | none =>
        rw [hhunk] at hread
        obtain ⟨e, he⟩ := hread
        rw [he]
        constructor
        · intro heq
          cases heq
        · intro heq
          cases expected with
          | nil => cases heq
          | cons hunk expected => cases head_eq_of_cons_eq heq
      | some hunk =>
        rw [hhunk] at hread
        rw [show parseOneHunk _ _ = _ from hread]
        dsimp only [bind, Except.bind]
        rw [drop_left]
        have htail := @ih (n + h.toLines.length) fuel
          (fun h hmem => hwf h (mem_cons_of_mem _ hmem)) (by omega)
        cases expected with
        | nil =>
          cases parseHunks fuel (hunks.flatMap HunkSyntax.toLines) (n + h.toLines.length) with
          | error e => simp
          | ok hunks' => simp
        | cons hunk' expected =>
          rw [map_cons, List.cons.injEq, Option.some.injEq, ← htail expected]
          cases parseHunks fuel (hunks.flatMap HunkSyntax.toLines) (n + h.toLines.length) with
          | error e => simp
          | ok hunks' => simp

end Hunks

end SheriMl.ApplyPatch
