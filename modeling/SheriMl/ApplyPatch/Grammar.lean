import SheriMl.ApplyPatch.Render

/-!
# The grammar given to the model

`core/src/tools/handlers/tool_apply_patch.lark`, rule by rule: the derivations of the
grammar, their texts and the hunks they stand for. `parsePatch_grammar_iff`: which texts
of the grammar the parser reads as the hunks they stand for.
-/

namespace SheriMl.ApplyPatch

open List

/-- `LF`. -/
def lf : Str := "\n"

/-- `/(.*)/`. -/
abbrev AnyText := {s : Str // '\n' ∉ s}

/-- `/(.+)/`, and `filename`. -/
abbrev SomeText := {s : Str // s ≠ [] ∧ '\n' ∉ s}

/-- `change_context` or `change_line`. -/
inductive ChangeItem where
  | context (context : Option SomeText)
  | line (line : ChangeLine) (oneLine : '\n' ∉ line.toLine)

/-- `change`. -/
structure Change where
  items : List ChangeItem
  nonempty : items ≠ []
  eofLine : Bool

/-- `hunk`. -/
inductive GrammarHunk where
  | addHunk (filename : SomeText) (addLines : List AnyText) (nonempty : addLines ≠ [])
  | deleteHunk (filename : SomeText)
  | updateHunk (filename : SomeText) (changeMove : Option SomeText) (change : Option Change)

/-- `start`. -/
structure Start where
  hunks : List GrammarHunk
  nonempty : hunks ≠ []
  lastLf : Bool

/-! ## Texts -/

def ChangeItem.text : ChangeItem → Str
  | .context none => emptyChangeContextMarker ++ lf
  | .context (some text) => changeContextMarker ++ text.1 ++ lf
  | .line change _ => change.toLine ++ lf

def Change.text (change : Change) : Str :=
  change.items.flatMap ChangeItem.text ++ if change.eofLine then eofMarker ++ lf else []

def GrammarHunk.text : GrammarHunk → Str
  | addHunk filename addLines _ =>
    addFileMarker ++ filename.1 ++ lf ++ addLines.flatMap fun line => '+' :: line.1 ++ lf
  | deleteHunk filename => deleteFileMarker ++ filename.1 ++ lf
  | updateHunk filename changeMove change =>
    updateFileMarker ++ filename.1 ++ lf ++
      (changeMove.toList.flatMap fun move => moveToMarker ++ move.1 ++ lf) ++
      change.toList.flatMap Change.text

def Start.text (start : Start) : Str :=
  beginPatchMarker ++ lf ++ start.hunks.flatMap GrammarHunk.text ++ endPatchMarker ++
    if start.lastLf then lf else []

/-! ## Hunks -/

/-- The lines before the first context, and each context with the lines behind it. -/
def splitItems : List ChangeItem → List ChangeLine × List (Option Str × List ChangeLine)
  | [] => ([], [])
  | .line line _ :: items => (line :: (splitItems items).1, (splitItems items).2)
  | .context context :: items =>
    ([], (context.map Subtype.val, (splitItems items).1) :: (splitItems items).2)

/-- The segments, of which the last may end the file. -/
def toSegments (eofLine : Bool) : List (Option Str × List ChangeLine) → List Segment
  | [] => []
  | (context, lines) :: parts =>
    ⟨context, lines, eofLine && parts.isEmpty⟩ :: toSegments eofLine parts

namespace Change

def lead (change : Change) : Segment :=
  ⟨none, (splitItems change.items).1, change.eofLine && (splitItems change.items).2.isEmpty⟩

def segments (change : Change) : List Segment :=
  toSegments change.eofLine (splitItems change.items).2

/-- The chunks that a change stands for: one before the first context, if lines are there, and
one for each context. -/
def chunks (change : Change) : List UpdateFileChunk :=
  (if change.lead.lines = [] then [] else [change.lead.chunk]) ++
    change.segments.map Segment.chunk

end Change

namespace GrammarHunk

/-- The hunk that a derivation stands for. -/
def hunk : GrammarHunk → Hunk
  | addHunk filename addLines _ => .addFile filename.1 (addLines.flatMap fun line => line.1 ++ lf)
  | deleteHunk filename => .deleteFile filename.1
  | updateHunk filename changeMove change =>
    .updateFile filename.1 (changeMove.map Subtype.val) (change.toList.flatMap Change.chunks)

end GrammarHunk

/-! ## What the parser reads -/

/-- Without a carriage return at the end, which the parser takes for part of the newline. -/
def NoReturn (s : Str) : Prop := Str.endsWith s "\r" = false

def ChangeItem.NoReturn : ChangeItem → Prop
  | .context none => True
  | .context (some text) => ApplyPatch.NoReturn text.1
  | .line change _ => ApplyPatch.NoReturn change.toLine

/-- Each context has a line directly behind it, and without a context before it the first line
is not blank. -/
structure Change.Readable (change : Change) : Prop where
  noReturn : ∀ item ∈ change.items, item.NoReturn
  context : ∀ before context rest, change.items = before ++ .context context :: rest →
    ∃ line oneLine rest', rest = .line line oneLine :: rest'
  first : ∀ line oneLine rest, change.items = .line line oneLine :: rest → line.isBlank = false

/-- Filenames end in no white space, and an update changes something. -/
def GrammarHunk.Readable : GrammarHunk → Prop
  | addHunk filename addLines _ =>
    Str.trimEnd filename.1 = filename.1 ∧ ∀ line ∈ addLines, NoReturn line.1
  | deleteHunk filename => Str.trimEnd filename.1 = filename.1
  | updateHunk filename changeMove change =>
    Str.trimEnd filename.1 = filename.1 ∧ (∀ move ∈ changeMove, NoReturn move.1) ∧
      ∃ c, change = some c ∧ c.Readable

/-! ## Syntax -/

def GrammarHunk.syntactic : GrammarHunk → HunkSyntax
  | addHunk filename addLines _ => .addFile filename.1 (addLines.map Subtype.val)
  | deleteHunk filename => .deleteFile filename.1
  | updateHunk filename changeMove change =>
    .updateFile filename.1 (changeMove.map Subtype.val)
      ((change.map Change.lead).getD ⟨none, [], false⟩) ((change.map Change.segments).getD [])

/-- The line as the parser sees it. -/
def ChangeLine.chomp : ChangeLine → ChangeLine
  | add text => add (Str.chomp text)
  | remove text => remove (Str.chomp text)
  | keep text => keep (Str.chomp text)

def Segment.chomp (segment : Segment) : Segment :=
  ⟨segment.changeContext.map Str.chomp, segment.lines.map ChangeLine.chomp, segment.isEndOfFile⟩

def HunkSyntax.chomp : HunkSyntax → HunkSyntax
  | addFile path lines => addFile (Str.chomp path) (lines.map Str.chomp)
  | deleteFile path => deleteFile (Str.chomp path)
  | updateFile path movePath lead segments =>
    updateFile (Str.chomp path) (movePath.map Str.chomp) lead.chomp (segments.map Segment.chomp)

section Chomp

variable {line : ChangeLine} {lines : List ChangeLine} {segment : Segment}
  {segments : List Segment} {s : Str}

theorem chomp_eq_self_iff : Str.chomp s = s ↔ NoReturn s := Str.chomp_eq_self_iff

theorem toLine_chomp (line : ChangeLine) : line.chomp.toLine = Str.chomp line.toLine := by
  cases line with
  | add text => exact (Str.chomp_append (p := ['+']) rfl text).symm
  | remove text => exact (Str.chomp_append (p := ['-']) rfl text).symm
  | keep text => exact (Str.chomp_append (p := [' ']) rfl text).symm

theorem toLine_injective : Function.Injective ChangeLine.toLine := by
  intro line line' h
  cases line with
  | add text =>
    cases line' with
    | add text' => exact congrArg _ (List.cons.inj h).2
    | remove text' | keep text' => simp [ChangeLine.toLine] at h
  | remove text =>
    cases line' with
    | remove text' => exact congrArg _ (List.cons.inj h).2
    | add text' | keep text' => simp [ChangeLine.toLine] at h
  | keep text =>
    cases line' with
    | keep text' => exact congrArg _ (List.cons.inj h).2
    | add text' | remove text' => simp [ChangeLine.toLine] at h

theorem ChangeLine.chomp_eq_self_iff : line.chomp = line ↔ NoReturn line.toLine := by
  rw [← toLine_injective.eq_iff, toLine_chomp, ApplyPatch.chomp_eq_self_iff]

theorem contextLine_chomp (context : Option Str) :
    contextLine (context.map Str.chomp) = Str.chomp (contextLine context) := by
  cases context with
  | none => rfl
  | some context => exact (Str.chomp_append rfl context).symm

theorem bodyLines_chomp (segment : Segment) :
    segment.chomp.bodyLines = segment.bodyLines.map Str.chomp := by
  have hlines : segment.lines.map (ChangeLine.toLine ∘ ChangeLine.chomp) =
      segment.lines.map (Str.chomp ∘ ChangeLine.toLine) :=
    map_congr_left fun line _ => toLine_chomp line
  rw [Segment.bodyLines, Segment.bodyLines, Segment.chomp, map_append, map_map,
    map_map, hlines]
  cases segment.isEndOfFile with
  | false => rfl
  | true => rfl

theorem toLines_chomp (segment : Segment) :
    segment.chomp.toLines = segment.toLines.map Str.chomp := by
  rw [Segment.toLines, Segment.toLines, map_cons, bodyLines_chomp, ← contextLine_chomp]
  rfl

theorem HunkSyntax.toLines_chomp (h : HunkSyntax) : h.chomp.toLines = h.toLines.map Str.chomp := by
  have hheader {marker path : Str} (hmarker : Str.endsWith marker "\r" = false) :
      marker ++ Str.chomp path = Str.chomp (marker ++ path) := (Str.chomp_append hmarker path).symm
  cases h with
  | addFile path lines =>
    have hplus (line : Str) : '+' :: Str.chomp line = Str.chomp ('+' :: line) :=
      (Str.chomp_append (p := ['+']) rfl line).symm
    rw [chomp, toLines, toLines, header, header, body, body, hheader (by decide), map_cons,
      map_map, map_map]
    simp only [Function.comp_def, hplus]
  | deleteFile path =>
    rw [chomp, toLines, toLines, header, header, hheader rfl]
    rfl
  | updateFile path movePath lead segments =>
    have hmove : ((movePath.map Str.chomp).map (moveToMarker ++ ·)).toList =
        ((movePath.map (moveToMarker ++ ·)).toList).map Str.chomp := by
      cases movePath with
      | none => rfl
      | some move =>
        have hsome : moveToMarker ++ Str.chomp move = Str.chomp (moveToMarker ++ move) :=
          hheader rfl
        simp only [Option.map_some, Option.toList_some, map_singleton, hsome]
    rw [chomp, toLines, toLines, header, header, body, body, hheader rfl, hmove,
      bodyLines_chomp, flatMap_map, map_cons, map_append, map_append,
      map_flatMap]
    simp only [ApplyPatch.toLines_chomp]

end Chomp

section Read

variable {line : ChangeLine} {lines : List ChangeLine} {segment : Segment}
  {segments : List Segment} {s : Str} {filename : SomeText}

theorem trimEnd_chomp (s : Str) : Str.trimEnd (Str.chomp s) = Str.trimEnd s := by
  rcases Str.chomp_cases s with ⟨-, hchomp⟩ | ⟨-, hs⟩
  · rw [hchomp]
  · conv_rhs => rw [hs]
    exact (Str.trimEnd_concat_of_isWhitespace rfl _).symm

theorem readPath_chomp_iff : HunkSyntax.readPath (Str.chomp filename.1) = some filename.1 ↔
    Str.trimEnd filename.1 = filename.1 := by
  rw [HunkSyntax.readPath, trimEnd_chomp]
  constructor
  · intro h
    split at h
    · cases h
    · exact Option.some.inj h
  · intro h
    rw [h, if_neg filename.2.1]

/-- Contents are those of the lines just if no line loses a carriage return. -/
theorem contents_chomp_iff (addLines : List AnyText) :
    ((addLines.map Subtype.val).map Str.chomp).flatMap (· ++ ['\n']) =
        (addLines.flatMap fun line => line.1 ++ lf) ↔ ∀ line ∈ addLines, NoReturn line.1 := by
  have hcontents : (addLines.flatMap fun line => line.1 ++ lf) =
      (addLines.map Subtype.val).flatMap (· ++ ['\n']) := by
    rw [flatMap_map]
    rfl
  have honeLine : ∀ line ∈ addLines.map Subtype.val, '\n' ∉ line := by
    intro line hline
    obtain ⟨text, -, rfl⟩ := mem_map.1 hline
    exact text.2
  have hchomp : ∀ line ∈ (addLines.map Subtype.val).map Str.chomp, '\n' ∉ line := by
    intro line hline
    obtain ⟨text, htext, rfl⟩ := mem_map.1 hline
    exact mt Str.mem_of_mem_chomp (honeLine text htext)
  rw [hcontents]
  constructor
  · intro heq line hline
    have hlines := congrArg contentLines heq
    rw [contentLines_flatMap hchomp, contentLines_flatMap honeLine, map_map] at hlines
    exact chomp_eq_self_iff.1 (map_inj_left.1 hlines line hline)
  · intro hall
    have hsame : (addLines.map Subtype.val).map Str.chomp = addLines.map Subtype.val := by
      rw [map_map]
      exact map_congr_left fun line hline => chomp_eq_self_iff.2 (hall line hline)
    rw [hsame]

theorem filterMap_oldLine_chomp (lines : List ChangeLine) :
    (lines.map ChangeLine.chomp).filterMap ChangeLine.oldLine =
      (lines.filterMap ChangeLine.oldLine).map Str.chomp := by
  rw [filterMap_map, map_filterMap]
  congr 1
  funext line
  cases line with
  | add text => rfl
  | remove text => rfl
  | keep text => rfl

theorem filterMap_newLine_chomp (lines : List ChangeLine) :
    (lines.map ChangeLine.chomp).filterMap ChangeLine.newLine =
      (lines.filterMap ChangeLine.newLine).map Str.chomp := by
  rw [filterMap_map, map_filterMap]
  congr 1
  funext line
  cases line with
  | add text => rfl
  | remove text => rfl
  | keep text => rfl

/-- Each line is old or new, so that a chunk tells whether its lines lost a return. -/
theorem chomp_eq_of_chunk {context context' : Option Str} {isEndOfFile isEndOfFile' : Bool}
    (h : (⟨context, lines.map ChangeLine.chomp, isEndOfFile⟩ : Segment).chunk =
      (⟨context', lines, isEndOfFile'⟩ : Segment).chunk) :
    ∀ line ∈ lines, NoReturn line.toLine := by
  have hold := (UpdateFileChunk.mk.inj h).2.1
  have hnew := (UpdateFileChunk.mk.inj h).2.2.1
  rw [filterMap_oldLine_chomp] at hold
  rw [filterMap_newLine_chomp] at hnew
  have hsame (texts : List Str) (htexts : texts.map Str.chomp = texts) :
      ∀ text ∈ texts, Str.chomp text = text :=
    map_inj_left.1 (htexts.trans (map_id texts).symm)
  intro line hline
  rw [← ChangeLine.chomp_eq_self_iff]
  cases line with
  | add text =>
    have hmem : text ∈ lines.filterMap ChangeLine.newLine := mem_filterMap.2 ⟨_, hline, rfl⟩
    rw [ChangeLine.chomp, hsame _ hnew text hmem]
  | remove text | keep text =>
    have hmem : text ∈ lines.filterMap ChangeLine.oldLine := mem_filterMap.2 ⟨_, hline, rfl⟩
    rw [ChangeLine.chomp, hsame _ hold text hmem]

theorem isBlank_keep (h : line.isBlank = true) : ∃ text, line = .keep text := by
  rw [ChangeLine.isBlank, List.isEmpty_iff] at h
  cases line with
  | add text | remove text => exact absurd h (Str.trim_cons_ne_nil rfl text)
  | keep text => exact ⟨text, rfl⟩

theorem map_chomp_of_noReturn (h : ∀ line ∈ lines, NoReturn line.toLine) :
    lines.map ChangeLine.chomp = lines :=
  (map_congr_left fun line hline => ChangeLine.chomp_eq_self_iff.2 (h line hline)).trans
    (map_id lines)

theorem dropWhile_isBlank_eq_self_iff : lines.dropWhile ChangeLine.isBlank = lines ↔
    ∀ line ∈ lines.head?, line.isBlank = false := by
  cases lines with
  | nil => simp
  | cons line lines =>
    rw [List.head?_cons]
    constructor
    · intro hall first hfirst
      obtain rfl := Option.some.inj hfirst
      cases hblank : line.isBlank with
      | false => rfl
      | true =>
        have hle := (dropWhile_suffix (l := lines) ChangeLine.isBlank).length_le
        rw [dropWhile_cons_of_pos hblank] at hall
        rw [hall, length_cons] at hle
        omega
    · intro hhead
      have hblank : ¬ line.isBlank = true := by
        rw [hhead line rfl]
        exact Bool.false_ne_true
      rw [dropWhile_cons_of_neg hblank]

/-- Blank lines are kept lines, so that there would be fewer old lines without them. -/
theorem dropWhile_isBlank_of_length
    (h : ((lines.dropWhile ChangeLine.isBlank).filterMap ChangeLine.oldLine).length =
      (lines.filterMap ChangeLine.oldLine).length) :
    lines.dropWhile ChangeLine.isBlank = lines := by
  rw [dropWhile_isBlank_eq_self_iff]
  cases lines with
  | nil => simp
  | cons line lines =>
    intro first hfirst
    obtain rfl := Option.some.inj hfirst
    cases hblank : line.isBlank with
    | false => rfl
    | true =>
      obtain ⟨text, rfl⟩ := isBlank_keep hblank
      have hle := ((dropWhile_suffix (l := lines) ChangeLine.isBlank).filterMap
        ChangeLine.oldLine).length_le
      rw [dropWhile_cons_of_pos hblank,
        filterMap_cons_some (f := ChangeLine.oldLine) (b := text) rfl, length_cons] at h
      omega

/-- The lead is read as it is just if no return is lost and its first line is not blank. -/
theorem leadChunks_chomp_iff (lines : List ChangeLine) (isEndOfFile : Bool) :
    (⟨none, lines.map ChangeLine.chomp, isEndOfFile⟩ : Segment).leadChunks =
        (if lines = [] then [] else [(⟨none, lines, isEndOfFile⟩ : Segment).chunk]) ↔
      (∀ line ∈ lines, NoReturn line.toLine) ∧
        ∀ line ∈ lines.head?, line.isBlank = false := by
  rw [Segment.leadChunks, Segment.withoutBlanks]
  dsimp only
  constructor
  · intro h
    by_cases hlines : lines = []
    · subst hlines
      simp
    rw [if_neg hlines] at h
    split at h
    · cases h
    next hne =>
      have hchunk := head_eq_of_cons_eq h
      have hold : (((lines.map ChangeLine.chomp).dropWhile ChangeLine.isBlank).filterMap
          ChangeLine.oldLine).length =
          ((lines.map ChangeLine.chomp).filterMap ChangeLine.oldLine).length := by
        rw [filterMap_oldLine_chomp, length_map]
        exact congrArg List.length (UpdateFileChunk.mk.inj hchunk).2.1
      have hall : (lines.map ChangeLine.chomp).dropWhile ChangeLine.isBlank =
          lines.map ChangeLine.chomp := dropWhile_isBlank_of_length hold
      rw [hall] at hchunk
      have hreturn := chomp_eq_of_chunk hchunk
      rw [map_chomp_of_noReturn hreturn] at hall
      exact ⟨hreturn, dropWhile_isBlank_eq_self_iff.1 hall⟩
  · rintro ⟨hreturn, hhead⟩
    rw [map_chomp_of_noReturn hreturn]
    rw [dropWhile_isBlank_eq_self_iff.2 hhead]

/-- No text of a segment loses a return. -/
def KeepsSegment (context : Option Str) (lines : List ChangeLine) : Prop :=
  (∀ text ∈ context, NoReturn text) ∧ ∀ line ∈ lines, NoReturn line.toLine

theorem chunk_chomp_iff (segment : Segment) : segment.chomp.chunk = segment.chunk ↔
    KeepsSegment segment.changeContext segment.lines := by
  constructor
  · intro h
    refine ⟨?_, chomp_eq_of_chunk h⟩
    intro text htext
    have hcontext : segment.changeContext.map Str.chomp = segment.changeContext :=
      (UpdateFileChunk.mk.inj h).1
    rw [htext] at hcontext
    exact chomp_eq_self_iff.1 (Option.some.inj hcontext)
  · rintro ⟨hcontext, hlines⟩
    have hmap : segment.changeContext.map Str.chomp = segment.changeContext := by
      cases hsegment : segment.changeContext with
      | none => rfl
      | some text => exact congrArg some (chomp_eq_self_iff.2 (hcontext text hsegment))
    rw [Segment.chomp, hmap, map_chomp_of_noReturn hlines]

theorem map_chunk_chomp_iff :
    (segments.map Segment.chomp).map Segment.chunk = segments.map Segment.chunk ↔
      ∀ segment ∈ segments, KeepsSegment segment.changeContext segment.lines := by
  rw [map_map, map_inj_left]
  exact forall₂_congr fun segment _ => chunk_chomp_iff segment

end Read

/-! ## Items and segments -/

section Items

variable {items : List ChangeItem} {change : Change}

theorem toSegments_view (eofLine : Bool) (parts : List (Option Str × List ChangeLine)) :
    (toSegments eofLine parts).map (fun segment => (segment.changeContext, segment.lines)) =
      parts := by
  induction parts with
  | nil => rfl
  | cons part parts ih => rw [toSegments, map_cons, ih]

theorem forall_segments_iff (P : Option Str → List ChangeLine → Prop) :
    (∀ segment ∈ change.segments, P segment.changeContext segment.lines) ↔
      ∀ part ∈ (splitItems change.items).2, P part.1 part.2 := by
  rw [← toSegments_view change.eofLine (splitItems change.items).2, forall_mem_map]
  rfl

theorem noReturn_items_iff : (∀ item ∈ items, item.NoReturn) ↔
    (∀ line ∈ (splitItems items).1, NoReturn line.toLine) ∧
      ∀ part ∈ (splitItems items).2, KeepsSegment part.1 part.2 := by
  induction items with
  | nil => simp [splitItems]
  | cons item items ih =>
    rw [forall_mem_cons, ih]
    cases item with
    | line line oneLine =>
      rw [splitItems, forall_mem_cons, ChangeItem.NoReturn, and_assoc]
    | context context =>
      have hcontext : (ChangeItem.context context).NoReturn ↔
          ∀ text ∈ context.map Subtype.val, NoReturn text := by
        cases context with
        | none => simp [ChangeItem.NoReturn]
        | some text => simp [ChangeItem.NoReturn]
      rw [splitItems, forall_mem_cons, hcontext, KeepsSegment]
      constructor
      · rintro ⟨htext, hlines, hparts⟩
        exact ⟨by simp, ⟨htext, hlines⟩, hparts⟩
      · rintro ⟨-, ⟨htext, hlines⟩, hparts⟩
        exact ⟨htext, hlines, hparts⟩

/-- Each context has a line behind it just if no part is without lines. -/
theorem context_items_iff : (∀ before context rest, items = before ++ .context context :: rest →
      ∃ line oneLine rest', rest = .line line oneLine :: rest') ↔
    ∀ part ∈ (splitItems items).2, part.2 ≠ [] := by
  induction items with
  | nil => simp [splitItems]
  | cons item items ih =>
    have hcons : (∀ before context rest, item :: items = before ++ .context context :: rest →
        ∃ line oneLine rest', rest = .line line oneLine :: rest') ↔
        (∀ context, item = .context context →
          ∃ line oneLine rest', items = .line line oneLine :: rest') ∧
        ∀ before context rest, items = before ++ .context context :: rest →
          ∃ line oneLine rest', rest = .line line oneLine :: rest' := by
      constructor
      · intro h
        refine ⟨?_, ?_⟩
        · rintro context rfl
          exact h [] context items rfl
        · rintro before context rest rfl
          exact h (item :: before) context rest rfl
      · rintro ⟨hhead, htail⟩ before context rest heq
        cases before with
        | nil =>
          obtain ⟨hitem, hitems⟩ := List.cons.inj heq
          rw [← hitems]
          exact hhead context hitem
        | cons first before => exact htail before context rest (List.cons.inj heq).2
    rw [hcons, ih]
    cases item with
    | line line oneLine =>
      rw [splitItems]
      simp
    | context context =>
      rw [splitItems, forall_mem_cons]
      refine and_congr_left' ?_
      cases items with
      | nil =>
        refine iff_of_false ?_ (fun h => h rfl)
        intro h
        obtain ⟨line, oneLine, rest, heq⟩ := h context rfl
        cases heq
      | cons next items =>
        cases next with
        | line line oneLine =>
          refine iff_of_true (fun _ _ => ⟨line, oneLine, items, rfl⟩) ?_
          rw [splitItems]
          exact cons_ne_nil _ _
        | context next =>
          refine iff_of_false ?_ (fun h => h rfl)
          intro h
          obtain ⟨line, oneLine, rest, heq⟩ := h context rfl
          cases head_eq_of_cons_eq heq

theorem first_items_iff : (∀ line oneLine rest, items = .line line oneLine :: rest →
      line.isBlank = false) ↔
    ∀ line ∈ (splitItems items).1.head?, line.isBlank = false := by
  cases items with
  | nil => simp [splitItems]
  | cons item items =>
    cases item with
    | context context => simp [splitItems]
    | line line oneLine =>
      rw [splitItems, List.head?_cons]
      constructor
      · intro h first hfirst
        obtain rfl := Option.some.inj hfirst
        exact h line oneLine items rfl
      · rintro h first _ rest heq
        cases heq
        exact h line rfl

theorem Change.chunks_ne_nil (change : Change) : change.chunks ≠ [] := by
  obtain ⟨items, hnonempty, eofLine⟩ := change
  cases items with
  | nil => exact absurd rfl hnonempty
  | cons item items =>
    cases item with
    | line line oneLine =>
      apply append_ne_nil_of_left_ne_nil
      rw [Change.lead, splitItems, if_neg (cons_ne_nil _ _)]
      exact cons_ne_nil _ _
    | context context =>
      apply append_ne_nil_of_right_ne_nil
      rw [Change.segments, splitItems, toSegments]
      exact cons_ne_nil _ _

theorem Change.read_iff (change : Change) :
    ((change.segments.map Segment.chomp).any (·.lines.isEmpty) = false ∧
      change.lead.chomp.leadChunks ++ (change.segments.map Segment.chomp).map Segment.chunk =
        change.chunks) ↔ change.Readable := by
  have hany : (change.segments.map Segment.chomp).any (·.lines.isEmpty) = false ↔
      ∀ part ∈ (splitItems change.items).2, part.2 ≠ [] := by
    rw [any_map, any_eq_false, ← forall_segments_iff fun _ lines => lines ≠ []]
    refine forall₂_congr fun segment _ => ?_
    rw [Function.comp_apply, Segment.chomp, List.isEmpty_iff, map_eq_nil_iff]
  have hchunks : change.lead.chomp.leadChunks ++
      (change.segments.map Segment.chomp).map Segment.chunk = change.chunks ↔
      ((∀ line ∈ (splitItems change.items).1, NoReturn line.toLine) ∧
        ∀ line ∈ (splitItems change.items).1.head?, line.isBlank = false) ∧
        ∀ part ∈ (splitItems change.items).2, KeepsSegment part.1 part.2 := by
    rw [← forall_segments_iff KeepsSegment, ← map_chunk_chomp_iff]
    have hlead := leadChunks_chomp_iff (splitItems change.items).1 change.lead.isEndOfFile
    rw [← hlead, Change.chunks]
    constructor
    · intro h
      exact append_inj' h (by simp only [length_map])
    · rintro ⟨hfirst, hsecond⟩
      rw [hsecond]
      exact congrArg (· ++ _) hfirst
  rw [hany, hchunks]
  constructor
  · rintro ⟨hcontext, ⟨hlead, hfirst⟩, hparts⟩
    exact ⟨noReturn_items_iff.2 ⟨hlead, hparts⟩, context_items_iff.2 hcontext,
      first_items_iff.2 hfirst⟩
  · rintro ⟨hreturn, hcontext, hfirst⟩
    obtain ⟨hlead, hparts⟩ := noReturn_items_iff.1 hreturn
    exact ⟨context_items_iff.1 hcontext, ⟨hlead, first_items_iff.1 hfirst⟩, hparts⟩

def Change.toLines (change : Change) : List Str :=
  change.lead.bodyLines ++ change.segments.flatMap Segment.toLines

theorem text_items (items : List ChangeItem) (eofLine : Bool) :
    (items.flatMap ChangeItem.text ++ if eofLine then eofMarker ++ lf else []) =
      ((⟨none, (splitItems items).1, eofLine && (splitItems items).2.isEmpty⟩ : Segment).bodyLines ++
        (toSegments eofLine (splitItems items).2).flatMap Segment.toLines).flatMap (· ++ ['\n']) := by
  induction items with
  | nil =>
    cases eofLine with
    | false => rfl
    | true => rfl
  | cons item items ih =>
    rw [flatMap_cons, append_assoc, ih]
    cases item with
    | line line oneLine => rfl
    | context context =>
      have hlead : (⟨none, [], eofLine && false⟩ : Segment).bodyLines = [] := by
        rw [Bool.and_false]
        rfl
      have htext : (ChangeItem.context context).text =
          contextLine (context.map Subtype.val) ++ ['\n'] := by
        cases context with
        | none => rfl
        | some text => rfl
      rw [splitItems, toSegments, isEmpty_cons, hlead, nil_append, flatMap_cons,
        Segment.toLines, cons_append, flatMap_cons, htext]
      rfl

theorem Change.text_eq (change : Change) : change.text = change.toLines.flatMap (· ++ ['\n']) :=
  text_items change.items change.eofLine

theorem oneLine_items (items : List ChangeItem) :
    (∀ line ∈ (splitItems items).1, '\n' ∉ line.toLine) ∧
      ∀ part ∈ (splitItems items).2,
        (∀ text ∈ part.1, '\n' ∉ text) ∧ ∀ line ∈ part.2, '\n' ∉ line.toLine := by
  induction items with
  | nil => simp [splitItems]
  | cons item items ih =>
    obtain ⟨hlead, hparts⟩ := ih
    cases item with
    | line line oneLine =>
      rw [splitItems]
      exact ⟨forall_mem_cons.2 ⟨oneLine, hlead⟩, hparts⟩
    | context context =>
      rw [splitItems]
      refine ⟨by simp, forall_mem_cons.2 ⟨⟨?_, hlead⟩, hparts⟩⟩
      intro text htext
      obtain ⟨text, -, rfl⟩ := Option.map_eq_some_iff.1 htext
      exact text.2.2

theorem oneLine_contextLine {context : Option Str} (h : ∀ text ∈ context, '\n' ∉ text) :
    '\n' ∉ contextLine context := by
  cases context with
  | none => decide
  | some text =>
    intro hmem
    rcases mem_append.1 hmem with hmem | hmem
    · exact absurd hmem (by decide)
    · exact h text rfl hmem

theorem oneLine_bodyLines {segment : Segment} (h : ∀ line ∈ segment.lines, '\n' ∉ line.toLine) :
    ∀ line ∈ segment.bodyLines, '\n' ∉ line := by
  intro line hline
  rcases mem_append.1 hline with hline | hline
  · obtain ⟨change, hchange, rfl⟩ := mem_map.1 hline
    exact h change hchange
  · split at hline
    · obtain rfl := mem_singleton.1 hline
      decide
    · cases hline

theorem Change.oneLine (change : Change) : ∀ line ∈ change.toLines, '\n' ∉ line := by
  obtain ⟨hlead, hparts⟩ := oneLine_items change.items
  have hleadLines : ∀ line ∈ change.lead.bodyLines, '\n' ∉ line := oneLine_bodyLines hlead
  have hsegments : ∀ segment ∈ change.segments,
      (∀ text ∈ segment.changeContext, '\n' ∉ text) ∧
        ∀ line ∈ segment.lines, '\n' ∉ line.toLine :=
    (forall_segments_iff fun context lines =>
      (∀ text ∈ context, '\n' ∉ text) ∧ ∀ line ∈ lines, '\n' ∉ line.toLine).2 hparts
  intro line hline
  rcases mem_append.1 hline with hline | hline
  · exact hleadLines line hline
  · obtain ⟨segment, hsegment, hline⟩ := mem_flatMap.1 hline
    obtain ⟨hcontext, hlines⟩ := hsegments segment hsegment
    rcases mem_cons.1 hline with rfl | hline
    · exact oneLine_contextLine hcontext
    · exact oneLine_bodyLines hlines line hline

end Items

/-! ## The parser and the grammar -/

section Grammar

variable {g : GrammarHunk} {line : Str}

theorem GrammarHunk.text_eq (g : GrammarHunk) :
    g.text = g.syntactic.toLines.flatMap (· ++ ['\n']) := by
  cases g with
  | addHunk filename addLines nonempty =>
    rw [text, syntactic, HunkSyntax.toLines, flatMap_cons, HunkSyntax.body, map_map,
      flatMap_map]
    rfl
  | deleteHunk filename => exact (append_nil _).symm
  | updateHunk filename changeMove change =>
    have hmove : (changeMove.toList.flatMap fun move => moveToMarker ++ move.1 ++ lf) =
        (((changeMove.map Subtype.val).map (moveToMarker ++ ·)).toList).flatMap (· ++ ['\n']) := by
      cases changeMove with
      | none => rfl
      | some move => rfl
    have hchange : change.toList.flatMap Change.text =
        (((change.map Change.lead).getD ⟨none, [], false⟩).bodyLines ++
          ((change.map Change.segments).getD []).flatMap Segment.toLines).flatMap (· ++ ['\n']) := by
      cases change with
      | none => rfl
      | some change =>
        rw [Option.toList_some, flatMap_singleton, Change.text_eq]
        rfl
    rw [text, hmove, hchange]
    simp only [syntactic, HunkSyntax.toLines, HunkSyntax.header, HunkSyntax.body,
      flatMap_cons, flatMap_append, append_assoc]
    rfl

theorem GrammarHunk.oneLine (hline : line ∈ g.syntactic.toLines) : '\n' ∉ line := by
  have hheader {marker path : Str} (hmarker : '\n' ∉ marker) (hpath : '\n' ∉ path) :
      '\n' ∉ marker ++ path := by
    intro hmem
    exact (mem_append.1 hmem).elim hmarker hpath
  cases g with
  | addHunk filename addLines nonempty =>
    rcases mem_cons.1 hline with rfl | hline
    · exact hheader (by decide) filename.2.2
    · obtain ⟨text, htext, rfl⟩ := mem_map.1 hline
      obtain ⟨text, -, rfl⟩ := mem_map.1 htext
      exact not_mem_cons_of_ne_of_not_mem (by decide) text.2
  | deleteHunk filename =>
    obtain rfl := mem_singleton.1 hline
    exact hheader (by decide) filename.2.2
  | updateHunk filename changeMove change =>
    rcases mem_cons.1 hline with rfl | hline
    · exact hheader (by decide) filename.2.2
    · rcases mem_append.1 hline with hline | hline
      · rcases mem_append.1 hline with hline | hline
        · obtain ⟨move, hmove, rfl⟩ := Option.map_eq_some_iff.1 (Option.mem_toList.1 hline)
          obtain ⟨move, -, rfl⟩ := Option.map_eq_some_iff.1 hmove
          exact hheader (by decide) move.2.2
        · cases change with
          | none => cases hline
          | some change => exact change.oneLine line (mem_append_left _ hline)
      · cases change with
        | none => cases hline
        | some change => exact change.oneLine line (mem_append_right _ hline)

/-- What the parser makes of a hunk of the grammar is what it stands for just if it is readable. -/
theorem GrammarHunk.read_iff (g : GrammarHunk) :
    g.syntactic.chomp.read = some g.hunk ↔ g.Readable := by
  cases g with
  | addHunk filename addLines nonempty =>
    rw [Readable, ← readPath_chomp_iff, ← contents_chomp_iff, syntactic, HunkSyntax.chomp,
      HunkSyntax.read, Option.map_eq_some_iff]
    constructor
    · rintro ⟨path, hpath, hhunk⟩
      obtain ⟨rfl, hcontents⟩ := Hunk.addFile.inj hhunk
      exact ⟨hpath, hcontents⟩
    · rintro ⟨hpath, hcontents⟩
      exact ⟨filename.1, hpath, by rw [hcontents]; rfl⟩
  | deleteHunk filename =>
    rw [Readable, ← readPath_chomp_iff, syntactic, HunkSyntax.chomp, HunkSyntax.read,
      Option.map_eq_some_iff]
    constructor
    · rintro ⟨path, hpath, hhunk⟩
      obtain rfl := Hunk.deleteFile.inj hhunk
      exact hpath
    · intro hpath
      exact ⟨filename.1, hpath, rfl⟩
  | updateHunk filename changeMove change =>
    have hmove : (changeMove.map Subtype.val).map Str.chomp = changeMove.map Subtype.val ↔
        ∀ move ∈ changeMove, NoReturn move.1 := by
      cases changeMove with
      | none => simp
      | some move =>
        rw [Option.map_some, Option.map_some, Option.some.injEq, chomp_eq_self_iff]
        simp
    cases change with
    | none =>
      constructor
      · intro hread
        cases hread
      · rintro ⟨-, -, c, hc, -⟩
        cases hc
    | some change =>
      rw [Readable, ← readPath_chomp_iff, ← hmove, syntactic, HunkSyntax.chomp, HunkSyntax.read]
      simp only [Option.map_some, Option.getD_some]
      constructor
      · intro h
        split at h
        · cases h
        next hfails =>
          obtain ⟨hany, -⟩ := Bool.or_eq_false_iff.1 (Bool.eq_false_iff.2 hfails)
          obtain ⟨path, hpath, hhunk⟩ := Option.map_eq_some_iff.1 h
          obtain ⟨rfl, hmoves, hchunks⟩ := Hunk.updateFile.inj hhunk
          rw [Option.toList_some, flatMap_singleton] at hchunks
          exact ⟨hpath, hmoves, change, rfl, change.read_iff.1 ⟨hany, hchunks⟩⟩
      · rintro ⟨hpath, hmoves, c, hc, hreadable⟩
        obtain rfl := Option.some.inj hc
        obtain ⟨hany, hchunks⟩ := change.read_iff.2 hreadable
        have hne : change.chunks.isEmpty = false :=
          Bool.eq_false_iff.2 (mt List.isEmpty_iff.1 change.chunks_ne_nil)
        rw [hchunks, hany, hne, hpath, hmoves, hunk, Option.toList_some, flatMap_singleton]
        rfl

theorem Start.text_eq (start : Start) : start.text =
    patchText (start.hunks.flatMap fun g => g.syntactic.toLines) ++
      if start.lastLf then lf else [] := by
  have hhunks : start.hunks.flatMap GrammarHunk.text =
      (start.hunks.flatMap fun g => g.syntactic.toLines).flatMap (· ++ ['\n']) := by
    rw [flatMap_assoc]
    exact congrArg (start.hunks.flatMap ·) (funext GrammarHunk.text_eq)
  rw [Start.text, hhunks, patchText, Str.join_concat, flatMap_cons]
  rfl

theorem wellFormed_chomp (g : GrammarHunk) : g.syntactic.chomp.WellFormed := by
  cases g with
  | addHunk filename addLines nonempty => trivial
  | deleteHunk filename => trivial
  | updateHunk filename changeMove change =>
    cases change with
    | none => exact ⟨rfl, by simp⟩
    | some change =>
      refine ⟨rfl, ?_⟩
      intro hlast
      have hparts : (splitItems change.items).2 = [] :=
        List.isEmpty_iff.1 (Bool.and_eq_true_iff.1 hlast).2
      have hsegments : change.segments = [] := by
        rw [Change.segments, hparts]
        rfl
      exact congrArg (List.map Segment.chomp) hsegments

/-- The parser reads a text of the grammar as the hunks it stands for just if its lines end in
no carriage return, its filenames in no white space, every update has a change, every context a
line directly behind it, and no change begins with a blank line. -/
theorem parsePatch_grammar_iff (start : Start) :
    (∃ args, parsePatch start.text = .ok args ∧ args.hunks = start.hunks.map GrammarHunk.hunk) ↔
      ∀ g ∈ start.hunks, g.Readable := by
  have honeLine : ∀ line ∈ start.hunks.flatMap fun g => g.syntactic.toLines, '\n' ∉ line := by
    intro line hline
    obtain ⟨g, -, hline⟩ := List.mem_flatMap.1 hline
    exact GrammarHunk.oneLine hline
  have hblank : ∀ c ∈ (if start.lastLf then lf else []), Str.isWhitespace c = true := by
    intro c hc
    split at hc
    · obtain rfl := List.mem_singleton.1 hc
      rfl
    · cases hc
  have hchomp : (start.hunks.flatMap fun g => g.syntactic.toLines).map Str.chomp =
      (start.hunks.map fun g => g.syntactic.chomp).flatMap HunkSyntax.toLines := by
    rw [List.map_flatMap, List.flatMap_map]
    exact congrArg (start.hunks.flatMap ·) (funext fun g => (g.syntactic.toLines_chomp).symm)
  have hwf : ∀ h ∈ start.hunks.map fun g => g.syntactic.chomp, h.WellFormed := by
    intro h hh
    obtain ⟨g, -, rfl⟩ := List.mem_map.1 hh
    exact wellFormed_chomp g
  have hread := parseHunks_toLines_iff (n := 2) hwf (Nat.le_add_right _ 2)
    (start.hunks.map GrammarHunk.hunk)
  rw [List.map_map, List.map_map, List.map_inj_left] at hread
  rw [start.text_eq, parsePatch_patchText honeLine hblank, hchomp, parseLines]
  refine Iff.trans ?_ (hread.trans (forall₂_congr fun g _ => g.read_iff))
  cases parseHunks (((start.hunks.map fun g => g.syntactic.chomp).flatMap
      HunkSyntax.toLines).length + 2) ((start.hunks.map fun g => g.syntactic.chomp).flatMap
      HunkSyntax.toLines) 2 with
  | error e =>
    constructor
    · rintro ⟨args, hargs, -⟩
      cases hargs
    · intro hhunks
      cases hhunks
  | ok hunks =>
    constructor
    · rintro ⟨args, hargs, hhunks⟩
      cases hargs
      exact congrArg Except.ok hhunks
    · intro hhunks
      exact ⟨_, rfl, Except.ok.inj hhunks⟩

end Grammar

/-- Two contexts to find a place, and a line to remove there. -/
def nestedContexts : Start where
  hunks := [.updateHunk ⟨"a", by decide⟩ none (some {
    items := [.context (some ⟨"class A", by decide⟩), .context (some ⟨"def f", by decide⟩),
      .line (.remove "x") (by decide)]
    nonempty := cons_ne_nil _ _
    eofLine := false })]
  nonempty := cons_ne_nil _ _
  lastLf := true

/-- An update that changes nothing. -/
def changeless : Start where
  hunks := [.updateHunk ⟨"a", by decide⟩ none none]
  nonempty := cons_ne_nil _ _
  lastLf := false

/-- The parser rejects a context behind another and an update without a change. -/
theorem parsePatch_grammar_rejects :
    (nestedContexts.text =
        "*** Begin Patch\n*** Update File: a\n@@ class A\n@@ def f\n-x\n*** End Patch\n" ∧
      parsePatch nestedContexts.text = .error (.invalidHunkError
        (("Unexpected line found in update hunk: '" : Str) ++ ("@@ def f" : Str) ++
          ("'. Every line should start with ' ' (context line), '+' (added line), or " ++
            "'-' (removed line)" : Str)) 4)) ∧
    (changeless.text = "*** Begin Patch\n*** Update File: a\n*** End Patch" ∧
      parsePatch changeless.text =
        .error (.invalidHunkError "Update file hunk for path 'a' is empty" 2)) ∧
    ¬ ∀ start : Start, ∃ args, parsePatch start.text = .ok args ∧
      args.hunks = start.hunks.map GrammarHunk.hunk := by
  have htext : nestedContexts.text =
    "*** Begin Patch\n*** Update File: a\n@@ class A\n@@ def f\n-x\n*** End Patch\n" := by decide
  have hchangeless : changeless.text = "*** Begin Patch\n*** Update File: a\n*** End Patch" := by
    decide
  have herror : parsePatch changeless.text =
      .error (.invalidHunkError "Update file hunk for path 'a' is empty" 2) := by
    rw [hchangeless]
    decide
  refine ⟨⟨htext, ?_⟩, ⟨hchangeless, herror⟩, ?_⟩
  · rw [htext]
    rfl
  · intro h
    obtain ⟨args, hargs, -⟩ := h changeless
    rw [herror] at hargs
    cases hargs

end SheriMl.ApplyPatch
