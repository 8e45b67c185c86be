import SheriMl.Lib.Lines

/-!
# Tagged blocks in streamed text

`TaggedLineParser` splits streamed text into normal text and tag blocks, whose tags stand
alone on a line. It holds a line back until it can tell that the line is no tag. The state
after a part of a line depends on that part alone (`lineState`), so what is emitted for a
text does not depend on how the text was cut into deltas: it is what a reader gets that
sees the whole text and goes line by line (`reference`).
-/

namespace SheriMl.Streaming

open List

structure TagSpec (T : Type) where
  openTag : Str
  closeTag : Str
  tag : T

inductive TaggedLineSegment (T : Type)
  | normal (text : Str)
  | tagStart (tag : T)
  | tagDelta (tag : T) (text : Str)
  | tagEnd (tag : T)

open TaggedLineSegment

variable {T : Type} [DecidableEq T]

/-- `push_segment`: text that continues the last segment is merged into it. -/
def pushSegment (segments : List (TaggedLineSegment T)) :
    TaggedLineSegment T → List (TaggedLineSegment T)
  | .normal delta =>
    if delta = [] then segments
    else match segments.getLast? with
      | some (.normal existing) => segments.dropLast ++ [.normal (existing ++ delta)]
      | _ => segments ++ [.normal delta]
  | .tagDelta tag delta =>
    if delta = [] then segments
    else match segments.getLast? with
      | some (.tagDelta existingTag existing) =>
        if existingTag = tag then segments.dropLast ++ [.tagDelta tag (existing ++ delta)]
        else segments ++ [.tagDelta tag delta]
      | _ => segments ++ [.tagDelta tag delta]
  | .tagStart tag => segments ++ [.tagStart tag]
  | .tagEnd tag => segments ++ [.tagEnd tag]

structure TaggedLineParser (T : Type) where
  specs : List (TagSpec T)
  activeTag : Option T
  detectTag : Bool
  lineBuffer : Str

/-- Text in the block of `active`, or outside of any. -/
def textSegment (active : Option T) (text : Str) : TaggedLineSegment T :=
  match active with
  | some tag => .tagDelta tag text
  | none => .normal text

def isTagPrefix (specs : List (TagSpec T)) (slug : Str) : Bool :=
  let slug := Str.trimEnd slug
  specs.any fun spec => Str.startsWith spec.openTag slug || Str.startsWith spec.closeTag slug

def matchOpen (specs : List (TagSpec T)) (slug : Str) : Option T :=
  (specs.find? fun spec => spec.openTag == slug).map (·.tag)

def matchClose (specs : List (TagSpec T)) (slug : Str) : Option T :=
  (specs.find? fun spec => spec.closeTag == slug).map (·.tag)

/-- The content of a line that is compared with the tags. -/
def slugOf (line : Str) : Str :=
  Str.trimEnd (Str.trimStart ((Str.stripSuffix line "\n").getD line))

namespace TaggedLineParser

def new (specs : List (TagSpec T)) : TaggedLineParser T := ⟨specs, none, true, []⟩

def pushText (p : TaggedLineParser T) (text : Str) (segments : List (TaggedLineSegment T)) :
    List (TaggedLineSegment T) :=
  pushSegment segments (textSegment p.activeTag text)

def finishLine (p : TaggedLineParser T) (segments : List (TaggedLineSegment T)) :
    TaggedLineParser T × List (TaggedLineSegment T) :=
  let line := p.lineBuffer
  let p := { p with lineBuffer := [], detectTag := true }
  match matchOpen p.specs (slugOf line), p.activeTag with
  | some tag, none => ({ p with activeTag := some tag }, pushSegment segments (.tagStart tag))
  | _, activeTag =>
    match matchClose p.specs (slugOf line) with
    | some tag =>
      if activeTag = some tag then
        ({ p with activeTag := none }, pushSegment segments (.tagEnd tag))
      else (p, p.pushText line segments)
    | none => (p, p.pushText line segments)

/-- One character of the loop in `parse`; the state is the parser, `run` and `segments`. -/
def parseChar : TaggedLineParser T × Str × List (TaggedLineSegment T) → Char →
    TaggedLineParser T × Str × List (TaggedLineSegment T)
  | (p, run, segments), ch =>
    if p.detectTag then
      let segments := if run = [] then segments else p.pushText run segments
      let p := { p with lineBuffer := p.lineBuffer ++ [ch] }
      if ch = '\n' then
        let (p, segments) := p.finishLine segments
        (p, [], segments)
      else
        let slug := Str.trimStart p.lineBuffer
        if slug = [] || isTagPrefix p.specs slug then (p, [], segments)
        else
          ({ p with lineBuffer := [], detectTag := false }, [],
            p.pushText p.lineBuffer segments)
    else
      let run := run ++ [ch]
      if ch = '\n' then ({ p with detectTag := true }, [], p.pushText run segments)
      else (p, run, segments)

def parse (p : TaggedLineParser T) (delta : Str) :
    TaggedLineParser T × List (TaggedLineSegment T) :=
  let (p, run, segments) := delta.foldl parseChar (p, [], [])
  (p, if run = [] then segments else p.pushText run segments)

def finish (p : TaggedLineParser T) : TaggedLineParser T × List (TaggedLineSegment T) :=
  let (p, segments) :=
    if p.lineBuffer = [] then (p, [])
    else
      let buffered := p.lineBuffer
      let p := { p with lineBuffer := [] }
      match matchOpen p.specs (slugOf buffered), p.activeTag with
      | some tag, none => ({ p with activeTag := some tag }, pushSegment [] (.tagStart tag))
      | _, activeTag =>
        match matchClose p.specs (slugOf buffered) with
        | some tag =>
          if activeTag = some tag then
            ({ p with activeTag := none }, pushSegment [] (.tagEnd tag))
          else (p, p.pushText buffered [])
        | none => (p, p.pushText buffered [])
  match p.activeTag with
  | some tag =>
    ({ p with activeTag := none, detectTag := true }, pushSegment segments (.tagEnd tag))
  | none => ({ p with detectTag := true }, segments)

/-- `parse` over the deltas in order: the parser and all it has emitted. -/
def parseAll (p : TaggedLineParser T) (deltas : List Str) :
    TaggedLineParser T × List (TaggedLineSegment T) :=
  deltas.foldl (fun (p, emitted) delta => ((p.parse delta).1, emitted ++ (p.parse delta).2))
    (p, [])

end TaggedLineParser

/-- What a stream of deltas emits, `finish` included. -/
def stream (specs : List (TagSpec T)) (deltas : List Str) : List (TaggedLineSegment T) :=
  let (p, emitted) := (TaggedLineParser.new specs).parseAll deltas
  emitted ++ p.finish.2

/-- Adjacent text of the same kind as one segment. -/
def merge (segments : List (TaggedLineSegment T)) : List (TaggedLineSegment T) :=
  segments.foldl pushSegment []

/-! ## Line by line -/

/-- The lines of a text with their newlines, the first one begun by `line`. -/
def linesFrom (line : Str) : Str → List Str
  | [] => if line = [] then [] else [line]
  | ch :: text =>
    if ch = '\n' then (line ++ [ch]) :: linesFrom [] text else linesFrom (line ++ [ch]) text

/-- The tag that a line is: an open tag outside of a block, or the close tag of its block. -/
def lineTag (specs : List (TagSpec T)) (active : Option T) (line : Str) : Option T :=
  match active with
  | none => matchOpen specs (slugOf line)
  | some tag => if matchClose specs (slugOf line) = some tag then some tag else none

/-- A line, seen whole: its segment, and the block that is open after it. -/
def referenceLine (specs : List (TagSpec T)) (active : Option T) (line : Str) :
    TaggedLineSegment T × Option T :=
  match active, lineTag specs active line with
  | none, some tag => (.tagStart tag, some tag)
  | some _, some tag => (.tagEnd tag, none)
  | active, none => (textSegment active line, active)

/-- The segments of the lines, and the block that is open after them. -/
def referenceLines (specs : List (TagSpec T)) :
    Option T → List Str → List (TaggedLineSegment T) × Option T
  | active, [] => ([], active)
  | active, line :: lines =>
    let (segment, active) := referenceLine specs active line
    let (segments, active) := referenceLines specs active lines
    (segment :: segments, active)

/-- The whole text, line by line; a block that is open at the end is closed. -/
def reference (specs : List (TagSpec T)) (text : Str) : List (TaggedLineSegment T) :=
  let (segments, active) := referenceLines specs none (linesFrom [] text)
  segments ++ (active.map TaggedLineSegment.tagEnd).toList

def plainLines (specs : List (TagSpec T)) : Option T → List Str → List Str
  | _, [] => []
  | active, line :: lines =>
    let rest := plainLines specs (referenceLine specs active line).2 lines
    if (lineTag specs active line).isSome then rest else line :: rest

/-! ## Segments as sequences of marks and characters -/

/-- One character of text, under the tag of its block, or one mark. -/
inductive Token (T : Type)
  | text (active : Option T) (ch : Char)
  | start (tag : T)
  | stop (tag : T)

def TaggedLineSegment.tokens : TaggedLineSegment T → List (Token T)
  | .normal text => text.map (.text none)
  | .tagDelta tag text => text.map (.text (some tag))
  | .tagStart tag => [.start tag]
  | .tagEnd tag => [.stop tag]

def tokensOf (segments : List (TaggedLineSegment T)) : List (Token T) :=
  segments.flatMap TaggedLineSegment.tokens

def Token.segment : Token T → TaggedLineSegment T
  | .text active ch => textSegment active [ch]
  | .start tag => .tagStart tag
  | .stop tag => .tagEnd tag

section Tokens

variable (segments segments' : List (TaggedLineSegment T)) (segment : TaggedLineSegment T)
  (active : Option T)

omit [DecidableEq T] in
theorem tokens_textSegment (text : Str) :
    (textSegment active text).tokens = text.map (.text active) := by
  cases active <;> rfl

omit [DecidableEq T] in
theorem tokensOf_append :
    tokensOf (segments ++ segments') = tokensOf segments ++ tokensOf segments' :=
  flatMap_append

omit [DecidableEq T] in
theorem tokensOf_singleton : tokensOf [segment] = segment.tokens := by
  simp [tokensOf]

/-- Text goes onto the end of a segment of its own kind. -/
theorem pushSegment_text (text : Str) (htext : text ≠ []) :
    (∃ before existing, segments = before ++ [textSegment active existing] ∧
        pushSegment segments (textSegment active text) =
          before ++ [textSegment active (existing ++ text)]) ∨
      pushSegment segments (textSegment active text) = segments ++ [textSegment active text] := by
  rcases eq_nil_or_concat segments with rfl | ⟨before, last, rfl⟩
  · right
    cases active <;> simp [textSegment, pushSegment, htext]
  · rw [concat_eq_append]
    cases active with
    | none =>
      cases last with
      | normal existing =>
        exact .inl ⟨before, existing, rfl, by simp [textSegment, pushSegment, htext]⟩
      | _ => exact .inr (by simp [textSegment, pushSegment, htext])
    | some tag =>
      cases last with
      | tagDelta existingTag existing =>
        by_cases htag : existingTag = tag
        · subst htag
          exact .inl ⟨before, existing, rfl, by simp [textSegment, pushSegment, htext]⟩
        · exact .inr (by simp [textSegment, pushSegment, htext, htag])
      | _ => exact .inr (by simp [textSegment, pushSegment, htext])

theorem pushSegment_text_nil : pushSegment segments (textSegment active []) = segments := by
  cases active <;> simp [textSegment, pushSegment]

theorem pushSegment_text_last (before : List (TaggedLineSegment T)) (existing : Str)
    {text : Str} (htext : text ≠ []) :
    pushSegment (before ++ [textSegment active existing]) (textSegment active text) =
      before ++ [textSegment active (existing ++ text)] := by
  cases active <;> simp [textSegment, pushSegment, htext]

theorem pushSegment_text_append (a b : Str) :
    pushSegment segments (textSegment active (a ++ b)) =
      pushSegment (pushSegment segments (textSegment active a)) (textSegment active b) := by
  by_cases hb : b = []
  · subst hb
    rw [append_nil, pushSegment_text_nil]
  by_cases ha : a = []
  · subst ha
    rw [nil_append, pushSegment_text_nil]
  have hab : a ++ b ≠ [] := append_ne_nil_of_left_ne_nil ha b
  rcases pushSegment_text segments active a ha with ⟨before, existing, rfl, hpush⟩ | hpush
  · rw [hpush, pushSegment_text_last _ _ _ hab, pushSegment_text_last _ _ _ hb, append_assoc]
  · rw [hpush, pushSegment_text_last _ _ _ hb]
    rcases pushSegment_text segments active (a ++ b) hab with ⟨before, existing, rfl, -⟩ | hpush'
    · rw [pushSegment_text_last _ _ _ ha] at hpush
      exact absurd (congrArg List.length hpush) (by simp)
    · exact hpush'

theorem tokensOf_pushSegment :
    tokensOf (pushSegment segments segment) = tokensOf segments ++ segment.tokens := by
  have htext : ∀ active text, tokensOf (pushSegment segments (textSegment active text)) =
      tokensOf segments ++ (textSegment active text).tokens := by
    intro active text
    by_cases hnil : text = []
    · subst hnil
      rw [pushSegment_text_nil, tokens_textSegment, map_nil, append_nil]
    · rcases pushSegment_text segments active text hnil with ⟨before, existing, rfl, hpush⟩ | hpush
      · rw [hpush]
        simp only [tokensOf_append, tokensOf_singleton, tokens_textSegment, map_append,
          append_assoc]
      · rw [hpush, tokensOf_append, tokensOf_singleton]
  cases segment with
  | normal text => exact htext none text
  | tagDelta tag text => exact htext (some tag) text
  | tagStart | tagEnd => rw [pushSegment, tokensOf_append, tokensOf_singleton]

theorem pushSegment_eq_foldl :
    pushSegment segments segment =
      segment.tokens.foldl (fun segments token => pushSegment segments token.segment) segments := by
  have htext : ∀ active text, pushSegment segments (textSegment active text) =
      (textSegment active text).tokens.foldl
        (fun segments token => pushSegment segments token.segment) segments := by
    intro active text
    induction text using List.reverseRecOn with
    | nil => rw [pushSegment_text_nil, tokens_textSegment, map_nil, foldl_nil]
    | append_singleton text ch ih =>
      rw [pushSegment_text_append, ih, tokens_textSegment, tokens_textSegment, map_append,
        foldl_append]
      rfl
  cases segment with
  | normal text => exact htext none text
  | tagDelta tag text => exact htext (some tag) text
  | tagStart => rfl
  | tagEnd => rfl

theorem merge_congr (h : tokensOf segments = tokensOf segments') :
    merge segments = merge segments' := by
  have hmerge : ∀ segments : List (TaggedLineSegment T), merge segments =
      (tokensOf segments).foldl (fun segments token => pushSegment segments token.segment) [] := by
    intro segments
    induction segments using List.reverseRecOn with
    | nil => rfl
    | append_singleton segments segment ih =>
      rw [merge, foldl_concat, ← merge, ih, tokensOf_append, tokensOf_singleton,
        foldl_append, pushSegment_eq_foldl]
  rw [hmerge, hmerge, h]

end Tokens

/-! ## The parser inside a line -/

/-- A line that may still become a tag after the part `line`. -/
def undecided (specs : List (TagSpec T)) (line : Str) : Bool :=
  Str.trimStart line = [] || isTagPrefix specs (Str.trimStart line)

def lineState (specs : List (TagSpec T)) (active : Option T) (line : Str) : TaggedLineParser T :=
  if undecided specs line then ⟨specs, active, true, line⟩ else ⟨specs, active, false, []⟩

/-- What the parser has emitted of a part of a line. -/
def lineOut (specs : List (TagSpec T)) (active : Option T) (line : Str) : List (Token T) :=
  if undecided specs line then [] else line.map (.text active)

section Lines

variable {specs : List (TagSpec T)} {active : Option T} {line : Str}

theorem trimEnd_prefix_append (a b : Str) : Str.trimEnd a <+: Str.trimEnd (a ++ b) := by
  rw [Str.trimEnd_append]
  split
  · exact prefix_rfl
  · exact (List.rdropWhile_prefix _ _).trans (prefix_append _ _)

theorem trimStart_append {a : Str} (h : Str.trimStart a ≠ []) (b : Str) :
    Str.trimStart (a ++ b) = Str.trimStart a ++ b := by
  unfold Str.trimStart at h ⊢
  rw [dropWhile_append, if_neg (by rwa [List.isEmpty_iff])]

omit [DecidableEq T] in
theorem isTagPrefix_of_append {a b : Str} (h : isTagPrefix specs (a ++ b) = true) :
    isTagPrefix specs a = true := by
  unfold isTagPrefix at h ⊢
  rw [any_eq_true] at h ⊢
  obtain ⟨spec, hspec, hstarts⟩ := h
  refine ⟨spec, hspec, ?_⟩
  rw [Bool.or_eq_true, Str.startsWith, Str.startsWith, isPrefixOf_iff_prefix,
    isPrefixOf_iff_prefix] at hstarts ⊢
  exact hstarts.imp (trimEnd_prefix_append a b).trans (trimEnd_prefix_append a b).trans

omit [DecidableEq T] in
/-- A line that is decided stays decided. -/
theorem undecided_of_append {rest : Str} (h : undecided specs (line ++ rest) = true) :
    undecided specs line = true := by
  unfold undecided at h ⊢
  by_cases hnil : Str.trimStart line = []
  · simp [hnil]
  · rw [trimStart_append hnil] at h
    have hne : Str.trimStart line ++ rest ≠ [] := append_ne_nil_of_left_ne_nil hnil rest
    simp only [hne, decide_false, Bool.false_or] at h
    simp [isTagPrefix_of_append h]

theorem slugOf_newline (line : Str) :
    slugOf (line ++ ['\n']) = Str.trimEnd (Str.trimStart line) := by
  have hstrip : Str.stripSuffix (line ++ ['\n']) "\n" = some line := Str.stripSuffix_append line _
  rw [slugOf, hstrip]
  rfl

theorem slugOf_open (h : '\n' ∉ line) : slugOf line = Str.trimEnd (Str.trimStart line) := by
  have hstrip : Str.stripSuffix line "\n" = none := by
    unfold Str.stripSuffix
    rw [if_neg]
    intro hsuffix
    exact h ((isSuffixOf_iff_suffix.1 hsuffix).subset (mem_singleton_self _))
  rw [slugOf, hstrip]
  rfl

omit [DecidableEq T] in
theorem undecided_of_match {slug : Str} (hslug : slug = Str.trimEnd (Str.trimStart line))
    (h : (matchOpen specs slug).isSome ∨ (matchClose specs slug).isSome) :
    undecided specs line = true := by
  have htagged : isTagPrefix specs (Str.trimStart line) = true := by
    unfold isTagPrefix
    rw [any_eq_true]
    rcases h with h | h
    · rw [matchOpen, Option.isSome_map, List.find?_isSome] at h
      obtain ⟨spec, hspec, hopen⟩ := h
      refine ⟨spec, hspec, ?_⟩
      rw [eq_of_beq hopen, hslug]
      simp [Str.startsWith]
    · rw [matchClose, Option.isSome_map, List.find?_isSome] at h
      obtain ⟨spec, hspec, hclose⟩ := h
      refine ⟨spec, hspec, ?_⟩
      rw [eq_of_beq hclose, hslug]
      simp [Str.startsWith]
  unfold undecided
  rw [htagged, Bool.or_true]

theorem referenceLine_of_decided (active : Option T) {whole : Str} (hslug : slugOf whole =
    Str.trimEnd (Str.trimStart line)) (h : undecided specs line = false) :
    referenceLine specs active whole = (textSegment active whole, active) := by
  have hopen : matchOpen specs (slugOf whole) = none := by
    rw [← Option.not_isSome_iff_eq_none]
    intro hsome
    rw [undecided_of_match hslug (.inl hsome)] at h
    cases h
  have hclose : matchClose specs (slugOf whole) = none := by
    rw [← Option.not_isSome_iff_eq_none]
    intro hsome
    rw [undecided_of_match hslug (.inr hsome)] at h
    cases h
  cases active with
  | none => simp [referenceLine, lineTag, hopen]
  | some tag => simp [referenceLine, lineTag, hclose]

theorem finishLine_eq (detectTag : Bool) (segments : List (TaggedLineSegment T)) :
    (⟨specs, active, detectTag, line⟩ : TaggedLineParser T).finishLine segments =
      (⟨specs, (referenceLine specs active line).2, true, []⟩,
        pushSegment segments (referenceLine specs active line).1) := by
  cases active with
  | none =>
    cases hopen : matchOpen specs (slugOf line) with
    | some tag => simp [TaggedLineParser.finishLine, referenceLine, lineTag, hopen]
    | none =>
      cases hclose : matchClose specs (slugOf line) <;>
        simp [TaggedLineParser.finishLine, referenceLine, lineTag, hopen, hclose,
          TaggedLineParser.pushText]
  | some active =>
    cases hclose : matchClose specs (slugOf line) with
    | none =>
      simp [TaggedLineParser.finishLine, referenceLine, lineTag, hclose,
        TaggedLineParser.pushText]
    | some tag =>
      by_cases htag : active = tag
      · subst htag
        simp [TaggedLineParser.finishLine, referenceLine, lineTag, hclose]
      · simp [TaggedLineParser.finishLine, referenceLine, lineTag, hclose, htag, Ne.symm htag,
          TaggedLineParser.pushText]

/-- What `finish` emits for the line that is held back, and to close the block. -/
theorem finish_eq (detectTag : Bool) :
    (⟨specs, active, detectTag, line⟩ : TaggedLineParser T).finish.2 =
      if line = [] then (active.map TaggedLineSegment.tagEnd).toList
      else pushSegment [] (referenceLine specs active line).1 ++
        ((referenceLine specs active line).2.map TaggedLineSegment.tagEnd).toList := by
  by_cases hline : line = []
  · cases active <;> simp [TaggedLineParser.finish, hline, pushSegment]
  rw [if_neg hline]
  cases active with
  | none =>
    cases hopen : matchOpen specs (slugOf line) with
    | some tag =>
      simp [TaggedLineParser.finish, referenceLine, lineTag, hopen, hline, pushSegment]
    | none =>
      cases hclose : matchClose specs (slugOf line) <;>
        simp [TaggedLineParser.finish, referenceLine, lineTag, hopen, hclose, hline,
          TaggedLineParser.pushText]
  | some active =>
    cases hclose : matchClose specs (slugOf line) with
    | none =>
      simp [TaggedLineParser.finish, referenceLine, lineTag, hclose, hline,
        TaggedLineParser.pushText, pushSegment]
    | some tag =>
      by_cases htag : active = tag
      · subst htag
        simp [TaggedLineParser.finish, referenceLine, lineTag, hclose, hline, pushSegment]
      · simp [TaggedLineParser.finish, referenceLine, lineTag, hclose, hline, htag, Ne.symm htag,
          TaggedLineParser.pushText, pushSegment]

/-! ## The parser along a text -/

/-- The parser stands after the part `line` of a line, and all it has emitted is `past`, for
the lines before, and what it emits of `line`. `before` was emitted for earlier deltas. -/
structure At (specs : List (TagSpec T)) (past : List (Token T)) (active : Option T) (line : Str)
    (before : List (Token T))
    (state : TaggedLineParser T × Str × List (TaggedLineSegment T)) : Prop where
  parser : state.1 = lineState specs active line
  emitted : before ++ (tokensOf state.2.2 ++ state.2.1.map (.text active)) =
    past ++ lineOut specs active line

variable {past before : List (Token T)}
  {state : TaggedLineParser T × Str × List (TaggedLineSegment T)}

theorem tokensOf_pushText (p : TaggedLineParser T) (text : Str)
    (segments : List (TaggedLineSegment T)) :
    tokensOf (p.pushText text segments) = tokensOf segments ++ text.map (.text p.activeTag) := by
  rw [TaggedLineParser.pushText, tokensOf_pushSegment, tokens_textSegment]

theorem tokensOf_flush (p : TaggedLineParser T) (run : Str)
    (segments : List (TaggedLineSegment T)) :
    tokensOf (if run = [] then segments else p.pushText run segments) =
      tokensOf segments ++ run.map (.text p.activeTag) := by
  split
  · next hrun => rw [hrun, map_nil, append_nil]
  · rw [tokensOf_pushText]

theorem At.char {ch : Char} (h : At specs past active line before state) (hch : ch ≠ '\n') :
    At specs past active (line ++ [ch]) before (TaggedLineParser.parseChar state ch) := by
  obtain ⟨p, run, segments⟩ := state
  obtain ⟨hparser, hemitted⟩ := h
  simp only at hparser hemitted
  subst hparser
  by_cases hline : undecided specs line = true
  · have hstate : lineState specs active line = ⟨specs, active, true, line⟩ := if_pos hline
    have hout : lineOut specs active line = [] := if_pos hline
    have hflush := tokensOf_flush ⟨specs, active, true, line⟩ run segments
    rw [hout, append_nil] at hemitted
    rw [hstate]
    by_cases hnext : undecided specs (line ++ [ch]) = true
    · have hcond := hnext
      unfold undecided at hcond
      constructor
      · simp only [TaggedLineParser.parseChar, if_true, hch, if_false, hcond]
        exact (if_pos hnext).symm
      · simp only [TaggedLineParser.parseChar, if_true, hch, if_false, hcond]
        rw [hflush, lineOut, if_pos hnext, map_nil, append_nil, append_nil]
        exact hemitted
    · have hcond := Bool.eq_false_iff.2 hnext
      unfold undecided at hcond
      constructor
      · simp only [TaggedLineParser.parseChar, if_true, hch, if_false, hcond, Bool.false_eq_true]
        exact (if_neg hnext).symm
      · -- the line cannot be a tag: all of it is emitted
        simp only [TaggedLineParser.parseChar, if_true, hch, if_false, hcond, Bool.false_eq_true]
        rw [tokensOf_pushText, hflush, lineOut, if_neg hnext, map_nil, append_nil,
          ← append_assoc, hemitted]
  · have hstate : lineState specs active line = ⟨specs, active, false, []⟩ := if_neg hline
    have hout : lineOut specs active line = line.map (.text active) := if_neg hline
    have hnext : ¬ undecided specs (line ++ [ch]) = true :=
      fun hnext => hline (undecided_of_append hnext)
    rw [hout] at hemitted
    rw [hstate]
    constructor
    · simp only [TaggedLineParser.parseChar, Bool.false_eq_true, if_false, hch]
      exact (if_neg hnext).symm
    · simp only [TaggedLineParser.parseChar, Bool.false_eq_true, if_false, hch]
      rw [lineOut, if_neg hnext, map_append, map_append, ← append_assoc,
        ← append_assoc, ← append_assoc, append_assoc before, hemitted]

omit [DecidableEq T] in
theorem lineState_nil : lineState specs active [] = ⟨specs, active, true, []⟩ := if_pos rfl

omit [DecidableEq T] in
theorem lineOut_nil : lineOut specs active [] = [] := if_pos rfl

/-- At the end of a line all of it has been emitted, as text or as a tag. -/
theorem At.newline (h : At specs past active line before state) :
    At specs (past ++ (referenceLine specs active (line ++ ['\n'])).1.tokens)
      (referenceLine specs active (line ++ ['\n'])).2 [] before
      (TaggedLineParser.parseChar state '\n') := by
  obtain ⟨p, run, segments⟩ := state
  obtain ⟨hparser, hemitted⟩ := h
  simp only at hparser hemitted
  subst hparser
  rw [lineOut] at hemitted
  by_cases hline : undecided specs line = true
  · have hstate : lineState specs active line = ⟨specs, active, true, line⟩ := if_pos hline
    have hflush := tokensOf_flush ⟨specs, active, true, line⟩ run segments
    rw [if_pos hline, append_nil] at hemitted
    rw [hstate]
    constructor
    · simp only [TaggedLineParser.parseChar, if_true, finishLine_eq]
      exact lineState_nil.symm
    · simp only [TaggedLineParser.parseChar, if_true, finishLine_eq]
      rw [tokensOf_pushSegment, hflush, lineOut_nil, map_nil, append_nil,
        append_nil, ← append_assoc, hemitted]
  · have hstate : lineState specs active line = ⟨specs, active, false, []⟩ := if_neg hline
    have htext := referenceLine_of_decided active (slugOf_newline line)
      (Bool.eq_false_iff.2 hline)
    rw [if_neg hline] at hemitted
    rw [hstate, htext]
    constructor
    · simp only [TaggedLineParser.parseChar, Bool.false_eq_true, if_false, if_true]
      exact lineState_nil.symm
    · simp only [TaggedLineParser.parseChar, Bool.false_eq_true, if_false, if_true]
      rw [tokensOf_pushText, lineOut_nil, map_nil, append_nil, append_nil,
        tokens_textSegment, map_append, map_append, ← append_assoc,
        ← append_assoc, append_assoc before, hemitted, append_assoc]

/-- How far a text has been read: the tokens of its complete lines, the block that is open,
and the part of the line that is not complete. -/
structure Position (T : Type) where
  past : List (Token T)
  active : Option T
  line : Str

def Position.next (specs : List (TagSpec T)) (pos : Position T) (ch : Char) : Position T :=
  if ch = '\n' then
    ⟨pos.past ++ (referenceLine specs pos.active (pos.line ++ [ch])).1.tokens,
      (referenceLine specs pos.active (pos.line ++ [ch])).2, []⟩
  else { pos with line := pos.line ++ [ch] }

def Position.read (specs : List (TagSpec T)) (pos : Position T) (text : Str) : Position T :=
  text.foldl (Position.next specs) pos

theorem At.next {pos : Position T} (h : At specs pos.past pos.active pos.line before state)
    (ch : Char) :
    At specs (pos.next specs ch).past (pos.next specs ch).active (pos.next specs ch).line before
      (TaggedLineParser.parseChar state ch) := by
  unfold Position.next
  split
  · next hch =>
    subst hch
    exact h.newline
  · next hch => exact h.char hch

theorem At.read {pos : Position T} (h : At specs pos.past pos.active pos.line before state)
    (text : Str) :
    At specs (pos.read specs text).past (pos.read specs text).active (pos.read specs text).line
      before (text.foldl TaggedLineParser.parseChar state) := by
  induction text generalizing pos state with
  | nil => exact h
  | cons ch text ih => exact ih (h.next ch)

theorem parse_at {pos : Position T} (before : List (Token T))
    (h : before = pos.past ++ lineOut specs pos.active pos.line) (delta : Str) :
    ((lineState specs pos.active pos.line).parse delta).1 =
        lineState specs (pos.read specs delta).active (pos.read specs delta).line ∧
      before ++ tokensOf ((lineState specs pos.active pos.line).parse delta).2 =
        (pos.read specs delta).past ++
          lineOut specs (pos.read specs delta).active (pos.read specs delta).line := by
  have hstart : At specs pos.past pos.active pos.line before
      (lineState specs pos.active pos.line, [], []) := by
    refine ⟨rfl, ?_⟩
    rw [h]
    exact append_nil _
  obtain ⟨hparser, hemitted⟩ := hstart.read delta
  refine ⟨hparser, ?_⟩
  simp only [TaggedLineParser.parse]
  rw [tokensOf_flush, hparser]
  have hactive : (lineState specs (pos.read specs delta).active
      (pos.read specs delta).line).activeTag = (pos.read specs delta).active := by
    unfold lineState
    split <;> rfl
  rw [hactive]
  exact hemitted

/-- The deltas one after the other: the position in the whole text is all that counts. -/
theorem parseAll_at (specs : List (TagSpec T)) (deltas : List Str) :
    let pos := Position.read specs ⟨[], none, []⟩ deltas.flatten
    ((TaggedLineParser.new specs).parseAll deltas).1 = lineState specs pos.active pos.line ∧
      tokensOf ((TaggedLineParser.new specs).parseAll deltas).2 =
        pos.past ++ lineOut specs pos.active pos.line := by
  induction deltas using List.reverseRecOn with
  | nil => exact ⟨lineState_nil.symm, rfl⟩
  | append_singleton deltas delta ih =>
    obtain ⟨hparser, hemitted⟩ := ih
    have hread : Position.read specs ⟨[], none, []⟩ (deltas ++ [delta]).flatten =
        (Position.read specs ⟨[], none, []⟩ deltas.flatten).read specs delta := by
      rw [flatten_append, flatten_singleton, Position.read, foldl_append]
      rfl
    have hstep := parse_at _ hemitted delta
    simp only [TaggedLineParser.parseAll, foldl_append, foldl_cons, foldl_nil]
    rw [← TaggedLineParser.parseAll, hparser, hread, tokensOf_append]
    exact hstep

/-- The lines of a text, read from a position on: the complete ones, then the last. -/
theorem referenceLines_linesFrom (specs : List (TagSpec T)) (text : Str) (pos : Position T) :
    let result := referenceLines specs pos.active (linesFrom pos.line text)
    let last := pos.read specs text
    let lastLine := referenceLines specs last.active (linesFrom last.line [])
    pos.past ++ tokensOf result.1 = last.past ++ tokensOf lastLine.1 ∧ result.2 = lastLine.2 := by
  induction text generalizing pos with
  | nil => exact ⟨rfl, rfl⟩
  | cons ch text ih =>
    obtain ⟨htokens, hactive⟩ := ih (pos.next specs ch)
    have hread : pos.read specs (ch :: text) = (pos.next specs ch).read specs text := rfl
    dsimp only
    rw [hread, ← htokens, ← hactive, linesFrom]
    unfold Position.next
    split
    · refine ⟨?_, rfl⟩
      rw [append_assoc]
      rfl
    · exact ⟨rfl, rfl⟩

theorem notMem_read_line (specs : List (TagSpec T)) (text : Str) (pos : Position T)
    (h : '\n' ∉ pos.line) :
    '\n' ∉ (pos.read specs text).line := by
  induction text generalizing pos with
  | nil => exact h
  | cons ch text ih =>
    refine ih _ ?_
    unfold Position.next
    split
    · exact not_mem_nil
    · next hch => simp [h, Ne.symm hch]

theorem finish_at (hline : '\n' ∉ line) :
    lineOut specs active line ++ tokensOf (lineState specs active line).finish.2 =
      tokensOf ((referenceLines specs active (linesFrom line [])).1 ++
        ((referenceLines specs active (linesFrom line [])).2.map
          TaggedLineSegment.tagEnd).toList) := by
  rw [tokensOf_append]
  by_cases hundecided : undecided specs line = true
  · rw [lineOut, if_pos hundecided, lineState, if_pos hundecided, finish_eq]
    by_cases hnil : line = []
    · simp [hnil, linesFrom, referenceLines, tokensOf]
    · rw [if_neg hnil, tokensOf_append, tokensOf_pushSegment]
      simp [hnil, linesFrom, referenceLines, tokensOf]
  · have hnil : line ≠ [] := by
      rintro rfl
      exact hundecided rfl
    have htext := referenceLine_of_decided active (slugOf_open hline)
      (Bool.eq_false_iff.2 hundecided)
    rw [lineOut, if_neg hundecided, lineState, if_neg hundecided, finish_eq, if_pos rfl]
    simp [hnil, linesFrom, referenceLines, htext, tokensOf, tokens_textSegment]

/-- A stream emits the same characters and marks as the line-by-line reader. -/
theorem tokensOf_stream (specs : List (TagSpec T)) (deltas : List Str) :
    tokensOf (stream specs deltas) = tokensOf (reference specs deltas.flatten) := by
  obtain ⟨hparser, hemitted⟩ := parseAll_at specs deltas
  obtain ⟨htokens, hactive⟩ := referenceLines_linesFrom specs deltas.flatten ⟨[], none, []⟩
  have hline := notMem_read_line specs deltas.flatten ⟨[], none, []⟩ not_mem_nil
  simp only [stream, reference]
  rw [hparser, tokensOf_append, hemitted, append_assoc, finish_at hline, tokensOf_append,
    tokensOf_append, ← append_assoc, ← htokens, ← hactive]
  rfl

end Lines

/-! ## What a stream is made of -/

/-- Marks alternate and are balanced, and text stands under the tag of the open block. -/
def nested : Option T → List (Token T) → Bool
  | none, [] => true
  | some _, [] => false
  | active, .text tag _ :: rest => decide (tag = active) && nested active rest
  | none, .start tag :: rest => nested (some tag) rest
  | some active, .stop tag :: rest => decide (tag = active) && nested none rest
  | some _, .start _ :: _ => false
  | none, .stop _ :: _ => false

def Token.char? : Token T → Option Char
  | .text _ ch => some ch
  | _ => none

/-- The text that segments carry, inside of blocks and outside. -/
def textOf (segments : List (TaggedLineSegment T)) : Str :=
  (tokensOf segments).filterMap Token.char?

section Contents

variable {specs : List (TagSpec T)}

theorem nested_text (active : Option T) (line : Str) (rest : List (Token T)) :
    nested active (line.map (.text active) ++ rest) = nested active rest := by
  induction line with
  | nil => rfl
  | cons ch line ih =>
    rw [map_cons, cons_append, nested, ih]
    simp

omit [DecidableEq T] in
theorem filterMap_char_text (active : Option T) (line : Str) :
    (line.map (.text active)).filterMap Token.char? = line := by
  induction line with
  | nil => rfl
  | cons ch line ih => rw [map_cons, filterMap_cons, Token.char?, ih]

theorem referenceLine_cases (specs : List (TagSpec T)) (active : Option T) (line : Str) :
    (lineTag specs active line = none ∧
        referenceLine specs active line = (textSegment active line, active)) ∨
      (∃ tag, active = none ∧ lineTag specs active line = some tag ∧
        referenceLine specs active line = (.tagStart tag, some tag)) ∨
      ∃ tag, active = some tag ∧ lineTag specs active line = some tag ∧
        referenceLine specs active line = (.tagEnd tag, none) := by
  cases active with
  | none =>
    cases htag : lineTag specs none line with
    | none => exact .inl ⟨rfl, by simp [referenceLine, htag]⟩
    | some tag => exact .inr (.inl ⟨tag, rfl, rfl, by simp [referenceLine, htag]⟩)
  | some active =>
    cases htag : lineTag specs (some active) line with
    | none => exact .inl ⟨rfl, by simp [referenceLine, htag]⟩
    | some tag =>
      have hsame : tag = active := by
        unfold lineTag at htag
        dsimp only at htag
        split at htag
        · exact (Option.some.inj htag).symm
        · cases htag
      subst hsame
      exact .inr (.inr ⟨tag, rfl, rfl, by simp [referenceLine, htag]⟩)

theorem nested_referenceLines (active : Option T) (lines : List Str) :
    nested active (tokensOf ((referenceLines specs active lines).1 ++
      ((referenceLines specs active lines).2.map TaggedLineSegment.tagEnd).toList)) = true := by
  induction lines generalizing active with
  | nil => cases active <;> simp [referenceLines, tokensOf, TaggedLineSegment.tokens, nested]
  | cons line lines ih =>
    have hrest := ih (referenceLine specs active line).2
    simp only [referenceLines, cons_append]
    rw [← singleton_append, tokensOf_append, tokensOf_singleton]
    rcases referenceLine_cases specs active line with ⟨-, href⟩ | ⟨tag, rfl, -, href⟩ |
        ⟨tag, rfl, -, href⟩
    · rw [href] at hrest ⊢
      rw [tokens_textSegment, nested_text]
      exact hrest
    · rw [href] at hrest ⊢
      exact hrest
    · rw [href] at hrest ⊢
      simp only [TaggedLineSegment.tokens, singleton_append, nested, decide_true,
        Bool.true_and]
      exact hrest

theorem textOf_referenceLines (active : Option T) (lines : List Str) :
    textOf (referenceLines specs active lines).1 = (plainLines specs active lines).flatten := by
  induction lines generalizing active with
  | nil => rfl
  | cons line lines ih =>
    have hrest := ih (referenceLine specs active line).2
    simp only [referenceLines, plainLines]
    rw [← singleton_append, textOf, tokensOf_append, tokensOf_singleton,
      filterMap_append, ← textOf, hrest]
    rcases referenceLine_cases specs active line with ⟨htag, href⟩ | ⟨tag, rfl, htag, href⟩ |
        ⟨tag, rfl, htag, href⟩
    · rw [htag, href, tokens_textSegment, filterMap_char_text]
      rfl
    · rw [htag, href]
      rfl
    · rw [htag, href]
      rfl

omit [DecidableEq T] in
theorem textOf_append_tagEnd (segments : List (TaggedLineSegment T)) (active : Option T) :
    textOf (segments ++ (active.map TaggedLineSegment.tagEnd).toList) = textOf segments := by
  rw [textOf, tokensOf_append, filterMap_append]
  cases active <;> simp [textOf, tokensOf, TaggedLineSegment.tokens, Token.char?]

end Contents

/-- However a text is cut into deltas: the merged segments are those of the line-by-line
reader, start and end marks alternate and are balanced, and the text they carry is the lines
that are not tags, in order. -/
theorem stream_eq_reference (specs : List (TagSpec T)) (deltas : List Str) :
    merge (stream specs deltas) = merge (reference specs deltas.flatten) ∧
      nested none (tokensOf (stream specs deltas)) = true ∧
      textOf (stream specs deltas) =
        (plainLines specs none (linesFrom [] deltas.flatten)).flatten := by
  have htokens := tokensOf_stream specs deltas
  refine ⟨merge_congr _ _ htokens, ?_, ?_⟩
  · rw [htokens]
    exact nested_referenceLines none (linesFrom [] deltas.flatten)
  · rw [textOf, htokens, ← textOf]
    exact (textOf_append_tagEnd _ _).trans (textOf_referenceLines none _)

/-! ## No segment is empty -/

/-- No segment is an empty text. -/
def Filled (segments : List (TaggedLineSegment T)) : Prop :=
  ∀ segment ∈ segments, segment.tokens ≠ []

section Filled

variable {segments segments' : List (TaggedLineSegment T)}

omit [DecidableEq T] in
theorem Filled.append (h : Filled segments) (h' : Filled segments') :
    Filled (segments ++ segments') := by
  intro segment hmem
  rcases mem_append.1 hmem with hmem | hmem
  · exact h segment hmem
  · exact h' segment hmem

omit [DecidableEq T] in
theorem filled_nil : Filled ([] : List (TaggedLineSegment T)) := fun _ hmem => by cases hmem

omit [DecidableEq T] in
theorem filled_singleton {segment : TaggedLineSegment T} (h : segment.tokens ≠ []) :
    Filled [segment] := by
  intro other hmem
  rw [mem_singleton.1 hmem]
  exact h

omit [DecidableEq T] in
theorem tokens_textSegment_ne_nil (active : Option T) {text : Str} (h : text ≠ []) :
    (textSegment active text).tokens ≠ [] := by
  rw [tokens_textSegment]
  simpa using h

theorem Filled.pushText (h : Filled segments) (active : Option T) (text : Str) :
    Filled (pushSegment segments (textSegment active text)) := by
  by_cases htext : text = []
  · rw [htext, pushSegment_text_nil]
    exact h
  · rcases pushSegment_text segments active text htext with ⟨before, existing, rfl, hpush⟩ | hpush
    · rw [hpush]
      refine Filled.append (fun segment hmem => h segment (mem_append_left _ hmem)) ?_
      exact filled_singleton (tokens_textSegment_ne_nil active
        (append_ne_nil_of_right_ne_nil existing htext))
    · rw [hpush]
      exact h.append (filled_singleton (tokens_textSegment_ne_nil active htext))

theorem Filled.pushLine (h : Filled segments) (specs : List (TagSpec T)) (active : Option T)
    (line : Str) : Filled (pushSegment segments (referenceLine specs active line).1) := by
  rcases referenceLine_cases specs active line with ⟨-, href⟩ | ⟨tag, -, -, href⟩ |
      ⟨tag, -, -, href⟩
  · rw [href]
    exact h.pushText active line
  · rw [href]
    exact h.append (filled_singleton (cons_ne_nil _ _))
  · rw [href]
    exact h.append (filled_singleton (cons_ne_nil _ _))

theorem filled_parseChar {state : TaggedLineParser T × Str × List (TaggedLineSegment T)}
    (h : Filled state.2.2) (ch : Char) : Filled (TaggedLineParser.parseChar state ch).2.2 := by
  obtain ⟨⟨specs, active, detectTag, line⟩, run, segments⟩ := state
  have hflush : Filled (if run = [] then segments else
      (⟨specs, active, detectTag, line⟩ : TaggedLineParser T).pushText run segments) := by
    split
    · exact h
    · exact Filled.pushText h active run
  cases detectTag with
  | true =>
    by_cases hch : ch = '\n'
    · simp only [TaggedLineParser.parseChar, if_true, hch, finishLine_eq]
      exact hflush.pushLine specs active _
    · simp only [TaggedLineParser.parseChar, if_true, hch, if_false]
      split
      · exact hflush
      · exact hflush.pushText active _
  | false =>
    by_cases hch : ch = '\n'
    · simp only [TaggedLineParser.parseChar, Bool.false_eq_true, if_false, hch, if_true]
      exact Filled.pushText h active _
    · simp only [TaggedLineParser.parseChar, Bool.false_eq_true, if_false, hch]
      exact h

theorem filled_parse (p : TaggedLineParser T) (delta : Str) : Filled (p.parse delta).2 := by
  have hfold : ∀ state : TaggedLineParser T × Str × List (TaggedLineSegment T),
      Filled state.2.2 → Filled (delta.foldl TaggedLineParser.parseChar state).2.2 := by
    induction delta with
    | nil => exact fun _ hstate => hstate
    | cons ch delta ih => exact fun state hstate => ih _ (filled_parseChar hstate ch)
  have hsegments := hfold (p, [], []) filled_nil
  simp only [TaggedLineParser.parse]
  split
  · exact hsegments
  · exact hsegments.pushText _ _

theorem filled_finish (p : TaggedLineParser T) : Filled p.finish.2 := by
  obtain ⟨specs, active, detectTag, line⟩ := p
  have hclose : ∀ active : Option T, Filled (active.map TaggedLineSegment.tagEnd).toList := by
    intro active
    cases active with
    | none => exact filled_nil
    | some tag => exact filled_singleton (cons_ne_nil _ _)
  rw [finish_eq]
  split
  · exact hclose active
  · exact (filled_nil.pushLine specs active line).append (hclose _)

theorem filled_stream (specs : List (TagSpec T)) (deltas : List Str) :
    Filled (stream specs deltas) := by
  have hall : Filled ((TaggedLineParser.new specs).parseAll deltas).2 := by
    induction deltas using List.reverseRecOn with
    | nil => exact filled_nil
    | append_singleton deltas delta ih =>
      rw [TaggedLineParser.parseAll, foldl_concat]
      exact ih.append (filled_parse _ delta)
  exact hall.append (filled_finish _)

end Filled
/-! ## Proposed plans -/

inductive PlanTag
  | proposedPlan
  deriving DecidableEq

inductive ProposedPlanSegment
  | normal (text : Str)
  | proposedPlanStart
  | proposedPlanDelta (text : Str)
  | proposedPlanEnd

/-- `OPEN_TAG` and `CLOSE_TAG`. -/
def planSpecs : List (TagSpec PlanTag) :=
  [⟨("<proposed_plan>" : String), ("</proposed_plan>" : String), .proposedPlan⟩]

def mapPlanSegment : TaggedLineSegment PlanTag → ProposedPlanSegment
  | .normal text => .normal text
  | .tagStart .proposedPlan => .proposedPlanStart
  | .tagDelta .proposedPlan text => .proposedPlanDelta text
  | .tagEnd .proposedPlan => .proposedPlanEnd

/-- What a `ProposedPlanParser` emits for the deltas, `finish` included. -/
def planStream (deltas : List Str) : List ProposedPlanSegment :=
  (stream planSpecs deltas).map mapPlanSegment

def stripProposedPlanBlocks (text : Str) : Str :=
  (planStream [text]).flatMap fun
    | .normal delta => delta
    | _ => []

example : stripProposedPlanBlocks
    ("before\n<proposed_plan>\n- step\n</proposed_plan>\nafter" : String) =
      ("before\nafter" : String).toList := by
  decide

/-- A close tag outside of a block is a tag line for whom a tag is told by its content alone;
the parser emits it as text. -/
theorem stray_close_tag_is_text :
    ¬ ∀ deltas : List Str, textOf (stream planSpecs deltas) =
      ((linesFrom [] deltas.flatten).filter fun line =>
        (matchOpen planSpecs (slugOf line)).isNone &&
          (matchClose planSpecs (slugOf line)).isNone).flatten := by
  intro hall
  have h := hall [("</proposed_plan>\n" : String)]
  revert h
  decide

end SheriMl.Streaming
