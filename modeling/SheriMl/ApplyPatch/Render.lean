import SheriMl.ApplyPatch.Syntax

/-!
# Patches written out

Hunks in their canonical text, with a marker before every chunk. `parsePatch_render`:
the parser gives back the hunks of a patch so written, and of one in a here-document.
-/

namespace SheriMl.ApplyPatch

open List

def patchText (lines : List Str) : Str :=
  Str.join "\n" (beginPatchMarker :: lines ++ [endPatchMarker])

/-- The openers of a here-document that the lenient reading takes off. -/
def heredocOpeners : List Str := ["<<EOF", "<<'EOF'", "<<\"EOF\""]

def heredocText (opener : Str) (patch : Str) : Str :=
  opener ++ ("\n" : Str) ++ patch ++ ("\nEOF" : Str)

section Text

variable {lines : List Str} {opener w : Str}

/-- What `parse_patch_text` does behind the boundaries. -/
def parseLines (lines : List Str) : Except ParseError ApplyPatchArgs :=
  (parseHunks (lines.length + 2) lines 2).map fun hunks => ⟨patchText lines, hunks, none⟩

theorem checkPatchBoundariesStrict_patch (lines : List Str) :
    checkPatchBoundariesStrict (beginPatchMarker :: lines ++ [endPatchMarker]) = .ok () := by
  have hbegin : Str.trim beginPatchMarker = beginPatchMarker := by decide
  have hend : Str.trim endPatchMarker = endPatchMarker := by decide
  rw [checkPatchBoundariesStrict, List.getLast?_concat, cons_append, List.head?_cons,
    checkStartAndEndLinesStrict]
  simp only [Option.map_some, hbegin, hend, and_self, if_true]

theorem exists_patchText (lines : List Str) : ∃ s, patchText lines = '*' :: (s ++ ['h']) := by
  rw [patchText, Str.join_concat]
  refine ⟨("** Begin Patch\n" : Str) ++ lines.flatMap (· ++ ['\n']) ++ ("*** End Patc" : Str), ?_⟩
  rw [flatMap_cons, append_assoc, append_assoc, append_assoc]
  rfl

theorem trim_patchText (lines : List Str) (hw : ∀ c ∈ w, Str.isWhitespace c = true) :
    Str.trim (patchText lines ++ w) = patchText lines := by
  obtain ⟨s, hs⟩ := exists_patchText lines
  rw [hs, cons_append, append_assoc, singleton_append]
  exact Str.trim_between rfl rfl s hw

theorem lines_patchText (hlines : ∀ l ∈ lines, '\n' ∉ l) :
    Str.lines (patchText lines) =
      beginPatchMarker :: lines.map Str.chomp ++ [endPatchMarker] := by
  rw [patchText, Str.lines_join ?_ (by decide) (by decide)]
  · rfl
  · intro l hl
    rcases mem_cons.1 hl with rfl | hl
    · decide
    · exact hlines l hl

/-- What follows the check of the boundaries. -/
theorem parseHunks_patch (lines : List Str) :
    (parseHunks (beginPatchMarker :: lines ++ [endPatchMarker]).length
        (beginPatchMarker :: lines ++ [endPatchMarker]).tail.dropLast 2 >>= fun hunks =>
      .ok ⟨Str.join "\n" (beginPatchMarker :: lines ++ [endPatchMarker]), hunks, none⟩) =
      parseLines lines := by
  have hlength : (beginPatchMarker :: lines ++ [endPatchMarker]).length = lines.length + 2 := by
    rw [length_append]
    rfl
  rw [hlength, cons_append, tail_cons, dropLast_concat, parseLines]
  cases parseHunks (lines.length + 2) lines 2 with
  | error e => rfl
  | ok hunks => rfl

theorem parsePatch_patchText (hlines : ∀ l ∈ lines, '\n' ∉ l)
    (hw : ∀ c ∈ w, Str.isWhitespace c = true) :
    parsePatch (patchText lines ++ w) = parseLines (lines.map Str.chomp) := by
  rw [parsePatch, trim_patchText lines hw, lines_patchText hlines,
    checkPatchBoundariesStrict_patch]
  exact parseHunks_patch _

theorem heredocText_eq (opener : Str) (lines : List Str) : heredocText opener (patchText lines) =
    Str.join "\n" (opener :: (beginPatchMarker :: lines ++ [endPatchMarker]) ++ [("EOF" : Str)]) := by
  rw [Str.join_concat, flatMap_cons, flatMap_append, heredocText, patchText,
    Str.join_concat]
  simp only [append_assoc]
  rfl

/-- An opener as the reader sees it: not trimmed, one line, and one of the openers it
knows. -/
structure IsOpener (opener : Str) : Prop where
  head : ∃ s, opener = '<' :: s
  oneLine : '\n' ∉ opener
  chomp : Str.chomp opener = opener
  notBegin : Str.trim opener ≠ beginPatchMarker
  known : (opener = "<<EOF" || opener = "<<'EOF'" || opener = "<<\"EOF\"") = true

theorem isOpener_of_mem (hopener : opener ∈ heredocOpeners) : IsOpener opener := by
  simp only [heredocOpeners, mem_cons, not_mem_nil, or_false] at hopener
  rcases hopener with rfl | rfl | rfl
  · exact ⟨⟨_, rfl⟩, by decide, rfl, by decide, rfl⟩
  · exact ⟨⟨_, rfl⟩, by decide, rfl, by decide, rfl⟩
  · exact ⟨⟨_, rfl⟩, by decide, rfl, by decide, rfl⟩

theorem trim_heredocText (hopener : IsOpener opener) (hw : ∀ c ∈ w, Str.isWhitespace c = true) :
    Str.trim (heredocText opener (patchText lines) ++ w) =
      heredocText opener (patchText lines) := by
  obtain ⟨s, hcons⟩ := hopener.head
  have hends : heredocText opener (patchText lines) =
      '<' :: ((s ++ ("\n" : Str) ++ patchText lines ++ ("\nEO" : Str)) ++ ['F']) := by
    rw [heredocText, hcons]
    simp only [append_assoc, cons_append]
    rfl
  rw [hends, cons_append, append_assoc, singleton_append]
  exact Str.trim_between rfl rfl _ hw

theorem lines_heredocText (hopener : IsOpener opener) (hlines : ∀ l ∈ lines, '\n' ∉ l) :
    Str.lines (heredocText opener (patchText lines)) =
      opener :: (beginPatchMarker :: lines.map Str.chomp ++ [endPatchMarker]) ++
        [("EOF" : Str)] := by
  rw [heredocText_eq, Str.lines_join ?_ (by decide) (by decide)]
  · rw [map_cons, hopener.chomp, map_append]
    rfl
  · intro l hl
    rcases mem_cons.1 hl with rfl | hl
    · exact hopener.oneLine
    · rcases mem_append.1 hl with hl | hl
      · rcases mem_cons.1 hl with rfl | hl
        · decide
        · exact hlines l hl
      · obtain rfl := mem_singleton.1 hl
        decide

theorem checkPatchBoundariesStrict_heredoc (hopener : IsOpener opener) (lines : List Str) :
    ∃ e, checkPatchBoundariesStrict (opener :: lines ++ [("EOF" : Str)]) = .error e := by
  rw [checkPatchBoundariesStrict, List.getLast?_concat, cons_append, List.head?_cons,
    checkStartAndEndLinesStrict]
  simp only [Option.map_some, hopener.notBegin, false_and, if_false]
  exact ⟨_, if_pos hopener.notBegin⟩

theorem checkPatchBoundariesLenient_heredoc (hopener : IsOpener opener) (lines : List Str)
    (e : ParseError) :
    checkPatchBoundariesLenient
        (opener :: (beginPatchMarker :: lines ++ [endPatchMarker]) ++ [("EOF" : Str)]) e =
      .ok (beginPatchMarker :: lines ++ [endPatchMarker]) := by
  have hends : Str.endsWith ("EOF" : Str) "EOF" = true := rfl
  have hlength : 4 ≤
      (opener :: (beginPatchMarker :: lines ++ [endPatchMarker]) ++ [("EOF" : Str)]).length := by
    simp only [length_append, length_cons, length_nil]
    omega
  rw [checkPatchBoundariesLenient, List.getLast?_concat, cons_append, List.head?_cons]
  simp only [hopener.known, hends, Bool.true_and]
  rw [← cons_append, decide_eq_true hlength, if_pos rfl, cons_append, tail_cons,
    dropLast_concat, checkPatchBoundariesStrict_patch]
  rfl

theorem parsePatch_heredocText (hopener : opener ∈ heredocOpeners) (hlines : ∀ l ∈ lines, '\n' ∉ l)
    (hw : ∀ c ∈ w, Str.isWhitespace c = true) :
    parsePatch (heredocText opener (patchText lines) ++ w) =
      parseLines (lines.map Str.chomp) := by
  have ho := isOpener_of_mem hopener
  obtain ⟨e, he⟩ := checkPatchBoundariesStrict_heredoc ho
    (beginPatchMarker :: lines.map Str.chomp ++ [endPatchMarker])
  rw [parsePatch, trim_heredocText ho hw, lines_heredocText ho hlines, he]
  dsimp only
  rw [checkPatchBoundariesLenient_heredoc ho]
  exact parseHunks_patch _

end Text

/-! ## Canonical text -/

/-- The lines of a file, each ended by a newline. -/
def contentLines (contents : Str) : List Str := (Str.split '\n' contents).dropLast

def renderChunk (chunk : UpdateFileChunk) : List Str :=
  contextLine chunk.changeContext ::
    (chunk.oldLines.map ('-' :: ·) ++ chunk.newLines.map ('+' :: ·) ++
      if chunk.isEndOfFile then [eofMarker] else [])

def renderHunk : Hunk → List Str
  | .addFile path contents => (addFileMarker ++ path) :: (contentLines contents).map ('+' :: ·)
  | .deleteFile path => [deleteFileMarker ++ path]
  | .updateFile path movePath chunks =>
    (updateFileMarker ++ path) ::
      ((movePath.map (moveToMarker ++ ·)).toList ++ chunks.flatMap renderChunk)

def renderPatch (hunks : List Hunk) : Str := patchText (hunks.flatMap renderHunk)

/-- Not empty, on one line and without white space around it. -/
structure IsPath (path : Str) : Prop where
  nonempty : path ≠ []
  trimmed : Str.trim path = path
  oneLine : '\n' ∉ path

/-- One line, and no carriage return at its end. -/
structure IsLine (line : Str) : Prop where
  oneLine : '\n' ∉ line
  noReturn : Str.endsWith line "\r" = false

structure IsChunk (chunk : UpdateFileChunk) : Prop where
  nonempty : chunk.oldLines ≠ [] ∨ chunk.newLines ≠ []
  context : ∀ context ∈ chunk.changeContext, IsLine context
  lines : ∀ line ∈ chunk.oldLines ++ chunk.newLines, IsLine line

instance (path : Str) : Decidable (IsPath path) :=
  decidable_of_iff (path ≠ [] ∧ Str.trim path = path ∧ '\n' ∉ path)
    ⟨fun h => ⟨h.1, h.2.1, h.2.2⟩, fun h => ⟨h.nonempty, h.trimmed, h.oneLine⟩⟩

instance (line : Str) : Decidable (IsLine line) :=
  decidable_of_iff ('\n' ∉ line ∧ Str.endsWith line "\r" = false)
    ⟨fun h => ⟨h.1, h.2⟩, fun h => ⟨h.oneLine, h.noReturn⟩⟩

instance (chunk : UpdateFileChunk) : Decidable (IsChunk chunk) :=
  decidable_of_iff ((chunk.oldLines ≠ [] ∨ chunk.newLines ≠ []) ∧
      (∀ context ∈ chunk.changeContext, IsLine context) ∧
      ∀ line ∈ chunk.oldLines ++ chunk.newLines, IsLine line)
    ⟨fun h => ⟨h.1, h.2.1, h.2.2⟩, fun h => ⟨h.nonempty, h.context, h.lines⟩⟩

/-- A hunk of paths, lines and chunks that can be written out. -/
def IsHunk : Hunk → Prop
  | .addFile path contents =>
    IsPath path ∧ ∃ lines : List Str, contents = lines.flatMap (· ++ ['\n']) ∧
      ∀ line ∈ lines, IsLine line
  | .deleteFile path => IsPath path
  | .updateFile path movePath chunks =>
    IsPath path ∧ (∀ move ∈ movePath, IsPath move) ∧ ∀ chunk ∈ chunks, IsChunk chunk

/-- An update changes something. -/
def HasChunks : Hunk → Prop
  | .updateFile _ _ chunks => chunks ≠ []
  | _ => True

def chunkSegment (chunk : UpdateFileChunk) : Segment :=
  ⟨chunk.changeContext, chunk.oldLines.map .remove ++ chunk.newLines.map .add, chunk.isEndOfFile⟩

def hunkSyntax : Hunk → HunkSyntax
  | .addFile path contents => .addFile path (contentLines contents)
  | .deleteFile path => .deleteFile path
  | .updateFile path movePath chunks =>
    .updateFile path movePath ⟨none, [], false⟩ (chunks.map chunkSegment)

section Render

variable {hunk : Hunk} {hunks : List Hunk} {chunk : UpdateFileChunk} {path line : Str}
  {lines : List Str}

theorem contentLines_flatMap (h : ∀ line ∈ lines, '\n' ∉ line) :
    contentLines (lines.flatMap (· ++ ['\n'])) = lines := by
  have hjoin : Str.join "\n" (lines ++ [[]]) = lines.flatMap (· ++ ['\n']) := by
    rw [Str.join_concat, append_nil]
  have hsplit : Str.split '\n' (Str.join "\n" (lines ++ [[]])) = lines ++ [[]] := by
    apply splitOn_intercalate '\n'
    · intro line hline
      rcases mem_append.1 hline with hline | hline
      · exact h line hline
      · obtain rfl := mem_singleton.1 hline
        exact not_mem_nil
    · exact append_ne_nil_of_right_ne_nil _ (cons_ne_nil _ _)
  rw [contentLines, ← hjoin, hsplit, dropLast_concat]

theorem toLines_chunkSegment (chunk : UpdateFileChunk) :
    (chunkSegment chunk).toLines = renderChunk chunk := by
  rw [Segment.toLines, Segment.bodyLines, chunkSegment, renderChunk, map_append,
    map_map, map_map]
  rfl

theorem toLines_hunkSyntax (hunk : Hunk) : (hunkSyntax hunk).toLines = renderHunk hunk := by
  cases hunk with
  | addFile path contents => rfl
  | deleteFile path => rfl
  | updateFile path movePath chunks =>
    have hnil : (⟨none, [], false⟩ : Segment).bodyLines = [] := rfl
    rw [HunkSyntax.toLines, hunkSyntax, HunkSyntax.body, HunkSyntax.header, renderHunk, hnil,
      append_nil, flatMap_map]
    simp only [toLines_chunkSegment]

/-- A chunk of its old lines and its new ones is read as it is. -/
theorem chunk_chunkSegment (chunk : UpdateFileChunk) : (chunkSegment chunk).chunk = chunk := by
  have hold : (chunk.oldLines.map ChangeLine.remove ++
      chunk.newLines.map ChangeLine.add).filterMap ChangeLine.oldLine = chunk.oldLines := by
    rw [filterMap_append, filterMap_map, filterMap_map]
    simp [Function.comp_def, ChangeLine.oldLine]
  have hnew : (chunk.oldLines.map ChangeLine.remove ++
      chunk.newLines.map ChangeLine.add).filterMap ChangeLine.newLine = chunk.newLines := by
    rw [filterMap_append, filterMap_map, filterMap_map]
    simp [Function.comp_def, ChangeLine.newLine]
  rw [chunkSegment, Segment.chunk, hold, hnew]

theorem IsPath.trimEnd (h : IsPath path) : Str.trimEnd path = path := by
  have hidem : Str.trimEnd (Str.trim path) = Str.trim path := rdropWhile_idempotent _ _
  rwa [h.trimmed] at hidem

theorem IsPath.readPath (h : IsPath path) : HunkSyntax.readPath path = some path := by
  rw [HunkSyntax.readPath, h.trimEnd, if_neg h.nonempty]

theorem read_hunkSyntax (h : IsHunk hunk) (hchunks : HasChunks hunk) :
    (hunkSyntax hunk).read = some hunk := by
  cases hunk with
  | addFile path contents =>
    obtain ⟨hpath, lines, rfl, hlines⟩ := h
    rw [hunkSyntax, HunkSyntax.read, hpath.readPath,
      contentLines_flatMap fun line hline => (hlines line hline).oneLine]
    rfl
  | deleteFile path =>
    rw [hunkSyntax, HunkSyntax.read, IsPath.readPath h]
    rfl
  | updateFile path movePath chunks =>
    obtain ⟨hpath, -, hchunk⟩ := h
    have hlead : (⟨none, [], false⟩ : Segment).leadChunks = [] := rfl
    have hread : (chunks.map chunkSegment).map Segment.chunk = chunks := by
      rw [map_map]
      simp [Function.comp_def, chunk_chunkSegment]
    have hany : (chunks.map chunkSegment).any (·.lines.isEmpty) = false := by
      rw [any_eq_false]
      intro segment hsegment hempty
      obtain ⟨chunk, hmem, rfl⟩ := mem_map.1 hsegment
      obtain ⟨hold, hnew⟩ := append_eq_nil_iff.1 (List.isEmpty_iff.1 hempty)
      rcases (hchunk chunk hmem).nonempty with hne | hne
      · exact hne (map_eq_nil_iff.1 hold)
      · exact hne (map_eq_nil_iff.1 hnew)
    have hempty : chunks.isEmpty = false := Bool.eq_false_iff.2 (mt List.isEmpty_iff.1 hchunks)
    rw [hunkSyntax, HunkSyntax.read, hlead, nil_append, hread, hany, hempty,
      hpath.readPath]
    rfl

theorem IsLine.append {line' : Str} (h : IsLine line) (h' : IsLine line') :
    IsLine (line ++ line') := by
  constructor
  · intro hmem
    exact (mem_append.1 hmem).elim h.oneLine h'.oneLine
  · rw [← Str.chomp_eq_self_iff, Str.chomp_append h.noReturn,
      Str.chomp_of_not_endsWith h'.noReturn]

theorem IsPath.isLine (h : IsPath path) : IsLine path := by
  refine ⟨h.oneLine, ?_⟩
  rcases Str.chomp_cases path with ⟨hends, -⟩ | ⟨-, hpath⟩
  · exact hends
  · have htrim : Str.trimEnd (Str.chomp path ++ ['\r']) = Str.trimEnd (Str.chomp path) :=
      Str.trimEnd_concat_of_isWhitespace rfl _
    have hle := (List.rdropWhile_prefix Str.isWhitespace (Str.chomp path)).length_le
    rw [← hpath, h.trimEnd] at htrim
    have hlength := congrArg List.length hpath
    rw [length_append, length_singleton] at hlength
    rw [Str.trimEnd] at htrim
    rw [← htrim] at hle
    omega

theorem isLine_contextLine {changeContext : Option Str}
    (h : ∀ context ∈ changeContext, IsLine context) : IsLine (contextLine changeContext) := by
  cases changeContext with
  | none => exact ⟨by decide, by decide⟩
  | some context => exact IsLine.append ⟨by decide, by decide⟩ (h context rfl)

theorem isLine_of_mem_renderChunk (h : IsChunk chunk) (hline : line ∈ renderChunk chunk) :
    IsLine line := by
  rcases mem_cons.1 hline with rfl | hline
  · exact isLine_contextLine h.context
  · rcases mem_append.1 hline with hline | hline
    · rcases mem_append.1 hline with hline | hline
      · obtain ⟨text, htext, rfl⟩ := mem_map.1 hline
        exact (show IsLine ['-'] by decide).append
          (h.lines text (mem_append_left _ htext))
      · obtain ⟨text, htext, rfl⟩ := mem_map.1 hline
        exact (show IsLine ['+'] by decide).append
          (h.lines text (mem_append_right _ htext))
    · split at hline
      · obtain rfl := mem_singleton.1 hline
        exact ⟨by decide, by decide⟩
      · cases hline

/-- The lines of a hunk have no newline, and no carriage return at their ends. -/
theorem isLine_of_mem_renderHunk (h : IsHunk hunk) (hline : line ∈ renderHunk hunk) :
    IsLine line := by
  have hheader {marker path : Str} (hmarker : IsLine marker) (hpath : IsPath path) :
      IsLine (marker ++ path) := hmarker.append hpath.isLine
  cases hunk with
  | addFile path contents =>
    obtain ⟨hpath, lines, rfl, hlines⟩ := h
    rcases mem_cons.1 hline with rfl | hline
    · exact hheader ⟨by decide, by decide⟩ hpath
    · rw [contentLines_flatMap fun line hline => (hlines line hline).oneLine] at hline
      obtain ⟨text, htext, rfl⟩ := mem_map.1 hline
      exact (show IsLine ['+'] by decide).append (hlines text htext)
  | deleteFile path =>
    obtain rfl := mem_singleton.1 hline
    exact hheader ⟨by decide, by decide⟩ h
  | updateFile path movePath chunks =>
    obtain ⟨hpath, hmove, hchunks⟩ := h
    rcases mem_cons.1 hline with rfl | hline
    · exact hheader ⟨by decide, by decide⟩ hpath
    · rcases mem_append.1 hline with hline | hline
      · obtain ⟨move, hmem, rfl⟩ := Option.map_eq_some_iff.1 (Option.mem_toList.1 hline)
        exact hheader ⟨by decide, by decide⟩ (hmove move hmem)
      · obtain ⟨chunk, hmem, hline⟩ := mem_flatMap.1 hline
        exact isLine_of_mem_renderChunk (hchunks chunk hmem) hline

theorem isLine_of_mem_render (h : ∀ hunk ∈ hunks, IsHunk hunk ∧ HasChunks hunk) :
    ∀ line ∈ hunks.flatMap renderHunk, IsLine line := by
  intro line hline
  obtain ⟨hunk, hhunk, hline⟩ := mem_flatMap.1 hline
  exact isLine_of_mem_renderHunk (h hunk hhunk).1 hline

theorem parseLines_render (h : ∀ hunk ∈ hunks, IsHunk hunk ∧ HasChunks hunk) :
    parseLines ((hunks.flatMap renderHunk).map Str.chomp) =
      .ok ⟨renderPatch hunks, hunks, none⟩ := by
  have hchomp : (hunks.flatMap renderHunk).map Str.chomp = hunks.flatMap renderHunk := by
    refine (map_congr_left ?_).trans (map_id _)
    intro line hline
    exact Str.chomp_of_not_endsWith (isLine_of_mem_render h line hline).noReturn
  have hlines : (hunks.map hunkSyntax).flatMap HunkSyntax.toLines = hunks.flatMap renderHunk := by
    rw [flatMap_map]
    simp only [toLines_hunkSyntax]
  have hread : parseHunks ((hunks.flatMap renderHunk).length + 2) (hunks.flatMap renderHunk) 2 =
      .ok hunks := by
    rw [← hlines]
    apply (parseHunks_toLines_iff _ (Nat.le_add_right _ 2) hunks).2
    · rw [map_map]
      apply map_congr_left
      intro hunk hhunk
      exact read_hunkSyntax (h hunk hhunk).1 (h hunk hhunk).2
    · intro syntactic hsyntactic
      obtain ⟨hunk, -, rfl⟩ := mem_map.1 hsyntactic
      cases hunk with
      | addFile path contents => trivial
      | deleteFile path => trivial
      | updateFile path movePath chunks => exact ⟨rfl, by simp⟩
  rw [hchomp, parseLines, hread]
  rfl

/-- Hunks written out are parsed as the hunks they are, on their own and in a here-document,
with a newline behind it or without. -/
theorem parsePatch_render (hunks : List Hunk) (h : ∀ hunk ∈ hunks, IsHunk hunk ∧ HasChunks hunk) :
    parsePatch (renderPatch hunks) = .ok ⟨renderPatch hunks, hunks, none⟩ ∧
    ∀ opener ∈ heredocOpeners, ∀ newline ∈ [[], ("\n" : Str)],
      parsePatch (heredocText opener (renderPatch hunks) ++ newline) =
        .ok ⟨renderPatch hunks, hunks, none⟩ := by
  have hlines : ∀ line ∈ hunks.flatMap renderHunk, '\n' ∉ line :=
    fun line hline => (isLine_of_mem_render h line hline).oneLine
  constructor
  · have hparse := parsePatch_patchText (w := []) hlines (by simp)
    rw [List.append_nil, parseLines_render h] at hparse
    exact hparse
  · intro opener hopener newline hnewline
    rw [← parseLines_render h]
    apply parsePatch_heredocText hopener hlines
    intro c hc
    simp only [List.mem_cons, List.not_mem_nil, or_false] at hnewline
    rcases hnewline with rfl | rfl
    · cases hc
    · obtain rfl := List.mem_singleton.1 hc
      decide

end Render

/-- A file, its removal, and an update that moves a file and has lines that look like markers. -/
def writtenHunks : List Hunk :=
  [.addFile "a b" "+\n*** End Patch\n\n", .deleteFile "c",
    .updateFile "d" (some "e") [⟨none, [], ["@@"], false⟩,
      ⟨some "", ["*** End of File", " "], ["--"], true⟩, ⟨some "f", [[]], [], false⟩]]

theorem parsePatch_render_written :
    parsePatch (renderPatch writtenHunks) = .ok ⟨renderPatch writtenHunks, writtenHunks, none⟩ := by
  refine (parsePatch_render writtenHunks ?_).1
  intro hunk hhunk
  simp only [writtenHunks, List.mem_cons, List.not_mem_nil, or_false] at hhunk
  rcases hhunk with rfl | rfl | rfl
  · exact ⟨⟨by decide, [("+" : Str), "*** End Patch", []], by decide, by decide⟩, trivial⟩
  · exact ⟨show IsPath _ by decide, trivial⟩
  · exact ⟨⟨by decide, by decide, by decide⟩, List.cons_ne_nil _ _⟩

/-- An update that changes nothing cannot be parsed from its text. -/
theorem parsePatch_render_empty :
    IsHunk (.updateFile "a" none []) ∧
    parsePatch (renderPatch [.updateFile "a" none []]) =
      .error (.invalidHunkError "Update file hunk for path 'a' is empty" 2) ∧
    ¬ ∀ hunks : List Hunk, hunks ≠ [] → (∀ hunk ∈ hunks, IsHunk hunk) →
      parsePatch (renderPatch hunks) = .ok ⟨renderPatch hunks, hunks, none⟩ := by
  have hhunk : IsHunk (.updateFile "a" none []) := ⟨by decide, by decide, by decide⟩
  have herror : parsePatch (renderPatch [.updateFile "a" none []]) =
      .error (.invalidHunkError "Update file hunk for path 'a' is empty" 2) := by decide
  refine ⟨hhunk, herror, ?_⟩
  intro h
  have hok := h [.updateFile "a" none []] (List.cons_ne_nil _ _) (by simpa using hhunk)
  rw [herror] at hok
  cases hok

end SheriMl.ApplyPatch
