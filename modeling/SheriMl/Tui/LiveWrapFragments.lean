import SheriMl.Tui.LiveWrapLines

/-!
# Text in fragments

What a builder holds after some fragments is laid out as the whole text would be, unless one of them
ends within characters without a width that the rest of their line would be joined to
(`wrapped_iff`). The text is kept in any case, and no row is too wide.
-/

namespace SheriMl.LiveWrap

open List

variable {charWidth : Char → Option Nat} {targetWidth : Nat} {line : Str} {ch : Char} {rest : Str}

/-! ## The layout of a text -/

section Layout

variable (charWidth) (targetWidth)

/-- The rows of a line that a newline ends. -/
def closeLine (line : Str) : List Row :=
  (wrap charWidth targetWidth line).1 ++ [⟨(wrap charWidth targetWidth line).2, true⟩]

/-- The rows of a text, which goes on from a line, and the line that stays. -/
def layout : Str → Str → List Row × Str
  | line, [] => wrap charWidth targetWidth line
  | line, ch :: rest =>
    if ch = '\n' then (closeLine charWidth targetWidth line ++ (layout [] rest).1, (layout [] rest).2)
    else layout (line ++ [ch]) rest

/-- The rows of the lines that the text ends. -/
def closedRows : Str → Str → List Row
  | _, [] => []
  | line, ch :: rest =>
    if ch = '\n' then closeLine charWidth targetWidth line ++ closedRows [] rest
    else closedRows (line ++ [ch]) rest

end Layout

/-- The last line of a text, which goes on from a line. -/
def openLine : Str → Str → Str
  | line, [] => line
  | line, ch :: rest => if ch = '\n' then openLine [] rest else openLine (line ++ [ch]) rest

theorem layout_newline (line rest : Str) :
    layout charWidth targetWidth line ('\n' :: rest) =
      (closeLine charWidth targetWidth line ++ (layout charWidth targetWidth [] rest).1,
        (layout charWidth targetWidth [] rest).2) := by
  rw [layout, if_pos rfl]

theorem layout_cons (h : ch ≠ '\n') (line rest : Str) :
    layout charWidth targetWidth line (ch :: rest) =
      layout charWidth targetWidth (line ++ [ch]) rest := by
  rw [layout, if_neg h]

/-- The lines that a text ends are laid out whatever comes after it. -/
theorem layout_append (line text extra : Str) :
    layout charWidth targetWidth line (text ++ extra) =
      (closedRows charWidth targetWidth line text ++
          (layout charWidth targetWidth (openLine line text) extra).1,
        (layout charWidth targetWidth (openLine line text) extra).2) := by
  induction text generalizing line with
  | nil => rfl
  | cons ch rest ih =>
    rw [cons_append, closedRows, openLine]
    by_cases hch : ch = '\n'
    · subst hch
      rw [layout_newline, ih, if_pos rfl, if_pos rfl, append_assoc]
    · rw [layout_cons hch, ih, if_neg hch, if_neg hch]

theorem layout_eq (line text : Str) :
    layout charWidth targetWidth line text =
      (closedRows charWidth targetWidth line text ++
          (wrap charWidth targetWidth (openLine line text)).1,
        (wrap charWidth targetWidth (openLine line text)).2) := by
  rw [← append_nil text, layout_append, append_nil]
  rfl

/-- The rows that are cut off a line are laid out first. -/
theorem layout_cut (charWidth : Char → Option Nat) (targetWidth : Nat) (line more text : Str) :
    layout charWidth targetWidth (line ++ more) text =
      ((cut charWidth targetWidth line).1 ++
          (layout charWidth targetWidth ((cut charWidth targetWidth line).2 ++ more) text).1,
        (layout charWidth targetWidth ((cut charWidth targetWidth line).2 ++ more) text).2) := by
  induction text generalizing more with
  | nil => exact wrap_append line more
  | cons ch rest ih =>
    by_cases hch : ch = '\n'
    · subst hch
      rw [layout_newline, layout_newline, closeLine, closeLine, wrap_append]
      simp only [append_assoc]
    · rw [layout_cons hch, layout_cons hch, append_assoc, append_assoc, ih]

/-- The part of a text that is on its first line. -/
def firstLine (text : Str) : Str := text.takeWhile (· ≠ '\n')

@[simp] theorem firstLine_newline (rest : Str) : firstLine ('\n' :: rest) = [] := by
  simp [firstLine]

@[simp] theorem firstLine_cons (h : ch ≠ '\n') : firstLine (ch :: rest) = ch :: firstLine rest := by
  simp [firstLine, h]

theorem firstLine_append (text extra : Str) :
    ∃ more, firstLine (text ++ extra) = firstLine text ++ more := by
  induction text with
  | nil => exact ⟨firstLine extra, rfl⟩
  | cons ch rest ih =>
    by_cases hch : ch = '\n'
    · subst hch
      exact ⟨[], by simp⟩
    · obtain ⟨more, hmore⟩ := ih
      refine ⟨more, ?_⟩
      rw [cons_append, firstLine_cons hch, firstLine_cons hch, hmore, cons_append]

/-- Characters without a width that nothing on their line is joined to are rows. -/
theorem layout_zeros {zeros : Str} (hzeros : visibleWidth charWidth zeros = 0) {line text : Str}
    (h : ¬Absorbs charWidth targetWidth (line ++ firstLine text)) :
    layout charWidth targetWidth (zeros ++ line) text =
      (zeros.map single ++ (layout charWidth targetWidth line text).1,
        (layout charWidth targetWidth line text).2) := by
  induction text generalizing line with
  | nil =>
    refine wrap_zeros_append hzeros ?_
    rwa [firstLine, takeWhile_nil, append_nil] at h
  | cons ch rest ih =>
    by_cases hch : ch = '\n'
    · subst hch
      rw [firstLine_newline, append_nil] at h
      rw [layout_newline, layout_newline, closeLine, closeLine, wrap_zeros_append hzeros h]
      simp only [append_assoc]
    · rw [firstLine_cons hch, append_cons] at h
      rw [layout_cons hch, layout_cons hch, append_assoc, ih h]

/-- Otherwise they are in one row with what is joined to them. -/
theorem layout_head {text : Str} {zeros : Str} (hne : zeros ≠ [])
    (hzeros : visibleWidth charWidth zeros = 0) (hpos : 0 < width charWidth ch)
    (hle : width charWidth ch ≤ targetWidth)
    (hline : line ++ firstLine text = zeros ++ ch :: rest) :
    ∀ row ∈ (layout charWidth targetWidth line text).1.head?, 2 ≤ row.text.length := by
  induction text generalizing line with
  | nil =>
    rw [firstLine, takeWhile_nil, append_nil] at hline
    subst hline
    intro row hrow
    rw [layout] at hrow
    obtain hwrap | ⟨first, rows, hrows, hlength⟩ :=
      wrap_head_of_zeros hne hzeros hpos hle rest
    · rw [hwrap] at hrow
      cases hrow
    · rw [hrows] at hrow
      obtain rfl := Option.some.inj hrow
      exact hlength
  | cons ch' rest' ih =>
    by_cases hch : ch' = '\n'
    · subst hch
      rw [firstLine_newline, append_nil] at hline
      subst hline
      intro row hrow
      rw [layout_newline, closeLine] at hrow
      obtain hwrap | ⟨first, rows, hrows, hlength⟩ :=
        wrap_head_of_zeros hne hzeros hpos hle rest
      · rw [hwrap] at hrow
        obtain rfl := Option.some.inj hrow
        have hzerosLength := length_pos_iff.2 hne
        simp only [length_append, length_cons]
        omega
      · rw [hrows] at hrow
        obtain rfl := Option.some.inj hrow
        exact hlength
    · rw [layout_cons hch]
      rw [firstLine_cons hch, append_cons] at hline
      exact ih hline

namespace RowBuilder

variable {b : RowBuilder}

/-! ## Fragments -/

theorem flushCurrentLine_eq (b : RowBuilder) :
    b.flushCurrentLine charWidth true =
      { b with rows := b.rows ++ closeLine charWidth b.targetWidth b.currentLine, currentLine := [] } := by
  rw [flushCurrentLine, if_pos rfl, closeLine, ← append_assoc]
  by_cases hempty : (b.wrapCurrentLine charWidth).currentLine = []
  · have hline : (wrap charWidth b.targetWidth b.currentLine).2 = [] := hempty
    rw [if_pos hempty, hline]
    rfl
  · rw [if_neg hempty]
    rfl

theorem pushChars_eq (charWidth : Char → Option Nat) {text : Str} (passed : Str)
    (h : passed ≠ [] ∨ text ≠ [] ∨ b.currentLine = []) :
    b.pushChars charWidth passed text =
      { b with
        rows := b.rows ++ (layout charWidth b.targetWidth (b.currentLine ++ passed) text).1
        currentLine := (layout charWidth b.targetWidth (b.currentLine ++ passed) text).2 } := by
  induction text generalizing b passed with
  | nil =>
    rw [pushChars]
    split
    next hpassed =>
      have hline : b.currentLine = [] := by
        rcases h with h | h | h
        · exact absurd hpassed h
        · exact absurd rfl h
        · exact h
      rw [hline, hpassed, layout, nil_append, wrap_nil, append_nil, ← hline]
    · rfl
  | cons ch rest ih =>
    rw [pushChars]
    by_cases hch : ch = '\n'
    · have hpassed : (if passed = [] then b else { b with currentLine := b.currentLine ++ passed }) =
          { b with currentLine := b.currentLine ++ passed } := by
        split
        next hnil => rw [hnil, append_nil]
        · rfl
      subst hch
      rw [if_pos rfl, hpassed]
      dsimp only
      rw [flushCurrentLine_eq, ih [] (.inr (.inr rfl)), layout_newline, ← append_assoc]
      rfl
    · rw [if_neg hch, ih _ (.inl (append_ne_nil_of_right_ne_nil _ (cons_ne_nil ch []))),
        layout_cons hch, append_assoc]

theorem pushFragment_eq {fragment : Str} (h : fragment ≠ [] ∨ b.currentLine = []) :
    b.pushFragment charWidth fragment =
      { b with
        rows := b.rows ++ (layout charWidth b.targetWidth b.currentLine fragment).1
        currentLine := (layout charWidth b.targetWidth b.currentLine fragment).2 } := by
  have hpush := pushChars_eq charWidth [] (.inr h)
  rw [append_nil] at hpush
  rw [pushFragment]
  split
  next hnil => rw [← hpush, hnil, pushChars, if_pos rfl]
  · exact hpush

theorem rows_prefix_pushFragment (fragment : Str) (b : RowBuilder) :
    b.rows <+: (b.pushFragment charWidth fragment).rows := by
  by_cases h : fragment = []
  · have hsame : b.pushFragment charWidth fragment = b := if_pos h
    exact hsame.symm ▸ prefix_rfl
  · rw [pushFragment_eq (.inl h)]
    exact prefix_append ..

def pushFragments (charWidth : Char → Option Nat) (fragments : List Str) (b : RowBuilder) :
    RowBuilder :=
  fragments.foldl (fun b fragment => b.pushFragment charWidth fragment) b

theorem rows_prefix_pushFragments (fragments : List Str) (b : RowBuilder) :
    b.rows <+: (b.pushFragments charWidth fragments).rows := by
  induction fragments generalizing b with
  | nil => exact prefix_rfl
  | cons fragment fragments ih =>
    exact (rows_prefix_pushFragment fragment b).trans (ih (b.pushFragment charWidth fragment))

/-- The builder that a text is pushed to as a whole. -/
def whole (charWidth : Char → Option Nat) (targetWidth : Nat) (text : Str) : RowBuilder :=
  (new targetWidth).pushFragment charWidth text

theorem whole_eq (text : Str) :
    whole charWidth targetWidth text =
      ⟨max targetWidth 1, (layout charWidth (max targetWidth 1) [] text).2,
        (layout charWidth (max targetWidth 1) [] text).1⟩ :=
  pushFragment_eq (.inr rfl)

/-- A text ends within characters without a width that what comes after it would be joined to. -/
def SplitsZeroWidth (charWidth : Char → Option Nat) (targetWidth : Nat) (before after : Str) :
    Prop :=
  let pending := (cut charWidth targetWidth (openLine [] before)).2
  pending ≠ [] ∧ visibleWidth charWidth pending = 0 ∧
    Absorbs charWidth targetWidth (firstLine after)

theorem layout_split (before after : Str) :
    layout charWidth targetWidth [] (before ++ after) =
      (closedRows charWidth targetWidth [] before ++
          ((cut charWidth targetWidth (openLine [] before)).1 ++
            (layout charWidth targetWidth (cut charWidth targetWidth (openLine [] before)).2
              after).1),
        (layout charWidth targetWidth (cut charWidth targetWidth (openLine [] before)).2
          after).2) := by
  have hcut := layout_cut charWidth targetWidth (openLine [] before) [] after
  rw [append_nil, append_nil] at hcut
  rw [layout_append, hcut]

theorem layout_before (before : Str) :
    layout charWidth targetWidth [] before =
      (closedRows charWidth targetWidth [] before ++
          ((cut charWidth targetWidth (openLine [] before)).1 ++
            (settle charWidth (cut charWidth targetWidth (openLine [] before)).2).1),
        (settle charWidth (cut charWidth targetWidth (openLine [] before)).2).2) := by
  rw [layout_eq, wrap_eq]

/-- At any other point a fragment can end. -/
theorem pushFragment_whole {before fragment : Str}
    (h : ¬SplitsZeroWidth charWidth (max targetWidth 1) before fragment) :
    (whole charWidth targetWidth before).pushFragment charWidth fragment =
      whole charWidth targetWidth (before ++ fragment) := by
  by_cases hempty : fragment = []
  · rw [hempty, append_nil, pushFragment, if_pos rfl]
  · rw [pushFragment_eq (.inl hempty), whole_eq, whole_eq, layout_split, layout_before]
    generalize max targetWidth 1 = w at h ⊢
    rw [SplitsZeroWidth] at h
    generalize cut charWidth w (openLine [] before) = pending at h ⊢
    obtain ⟨rows, pending⟩ := pending
    dsimp only at h ⊢
    rw [settle]
    by_cases hwidth : visibleWidth charWidth pending = 0
    · rw [if_pos hwidth]
      by_cases hpending : pending = []
      · subst hpending
        simp only [map_nil, append_nil, append_assoc]
      · have hnot : ¬Absorbs charWidth w ([] ++ firstLine fragment) :=
          fun habsorbs => h ⟨hpending, hwidth, habsorbs⟩
        have hzeros := layout_zeros hwidth hnot
        rw [append_nil] at hzeros
        rw [hzeros]
        simp only [append_assoc]
    · rw [if_neg hwidth]
      simp only [append_nil, append_assoc]

/-- At such a point the rows differ for good. -/
theorem pushFragments_ne_whole {before : Str} {fragments : List Str}
    (h : SplitsZeroWidth charWidth (max targetWidth 1) before fragments.flatten) :
    (whole charWidth targetWidth before).pushFragments charWidth fragments ≠
      whole charWidth targetWidth (before ++ fragments.flatten) := by
  intro heq
  have hpre : (whole charWidth targetWidth before).rows <+:
      ((whole charWidth targetWidth before).pushFragments charWidth fragments).rows :=
    rows_prefix_pushFragments fragments _
  rw [heq, whole_eq, whole_eq, layout_split, layout_before] at hpre
  obtain ⟨hpending, hwidth, zeros, ch, rest, hfirst, hzeros, hpos, hle⟩ := h
  rw [prefix_append_right_inj, prefix_append_right_inj, settle, if_pos hwidth] at hpre
  obtain ⟨rows, hrows⟩ := hpre
  have hline : (cut charWidth (max targetWidth 1) (openLine [] before)).2 ++
      firstLine fragments.flatten =
      ((cut charWidth (max targetWidth 1) (openLine [] before)).2 ++ zeros) ++ ch :: rest := by
    rw [hfirst, append_assoc]
  have hhead := layout_head (append_ne_nil_of_left_ne_nil hpending zeros)
    (by rw [visibleWidth_append]; omega) hpos hle hline
  rw [← hrows] at hhead
  obtain ⟨first, pending, hcons⟩ := exists_cons_of_ne_nil hpending
  rw [hcons] at hhead
  have hone : 2 ≤ 1 := hhead (single first) rfl
  omega

/-- Fragments are laid out as the whole text is if none of them ends at such a point. -/
theorem pushFragments_eq_whole_iff (charWidth : Char → Option Nat) (targetWidth : Nat)
    (before : Str) (fragments : List Str) :
    (whole charWidth targetWidth before).pushFragments charWidth fragments =
        whole charWidth targetWidth (before ++ fragments.flatten) ↔
      ∀ earlier later, fragments = earlier ++ later →
        ¬SplitsZeroWidth charWidth (max targetWidth 1) (before ++ earlier.flatten) later.flatten := by
  induction fragments generalizing before with
  | nil =>
    refine iff_of_true (by rw [flatten_nil, append_nil]; rfl) ?_
    intro earlier later happend
    obtain ⟨rfl, rfl⟩ := append_eq_nil_iff.1 happend.symm
    rintro ⟨-, -, zeros, ch, rest, hfirst, -⟩
    exact append_ne_nil_of_right_ne_nil _ (cons_ne_nil _ _) hfirst.symm
  | cons fragment fragments ih =>
    by_cases hsplit : SplitsZeroWidth charWidth (max targetWidth 1) before
        (fragment :: fragments).flatten
    · refine iff_of_false (pushFragments_ne_whole hsplit) ?_
      intro hall
      refine hall [] (fragment :: fragments) rfl ?_
      rwa [flatten_nil, append_nil]
    · have hfragment : ¬SplitsZeroWidth charWidth (max targetWidth 1) before fragment := by
        rintro ⟨hpending, hwidth, habsorbs⟩
        obtain ⟨more, hmore⟩ := firstLine_append fragment fragments.flatten
        refine hsplit ⟨hpending, hwidth, ?_⟩
        rw [flatten_cons, hmore]
        exact habsorbs.append more
      have hpush := pushFragment_whole hfragment
      have hrest := ih (before ++ fragment)
      rw [← hpush, append_assoc, ← flatten_cons] at hrest
      refine hrest.trans ⟨?_, ?_⟩
      · intro hall earlier later happend
        cases earlier with
        | nil =>
          obtain rfl : fragment :: fragments = later := happend
          rwa [flatten_nil, append_nil]
        | cons first earlier =>
          obtain ⟨rfl, htail⟩ := List.cons.inj happend
          have hnot := hall earlier later htail
          rwa [append_assoc, ← flatten_cons] at hnot
      · intro hall earlier later happend
        have hnot := hall (fragment :: earlier) later (congrArg (fragment :: ·) happend)
        rwa [flatten_cons, ← append_assoc] at hnot

/-! ## Any use of a builder -/

inductive Op where
  | pushFragment (fragment : Str)
  | endLine
  | setWidth (width : Nat)

def apply (charWidth : Char → Option Nat) (b : RowBuilder) : Op → RowBuilder
  | .pushFragment fragment => b.pushFragment charWidth fragment
  | .endLine => b.endLine charWidth
  | .setWidth width => b.setWidth charWidth width

/-- The text that an operation adds. -/
def Op.text : Op → Str
  | .pushFragment fragment => fragment
  | .endLine => ['\n']
  | .setWidth _ => []

def applyAll (charWidth : Char → Option Nat) (ops : List Op) (b : RowBuilder) : RowBuilder :=
  ops.foldl (apply charWidth) b

/-- No row is too wide, nor is the line in progress. -/
structure Bounded (charWidth : Char → Option Nat) (b : RowBuilder) : Prop where
  rows : ∀ row ∈ b.rows, Fits charWidth b.targetWidth row.text
  currentLine : visibleWidth charWidth b.currentLine ≤ b.targetWidth

theorem rowsText_closeLine (line : Str) :
    rowsText (closeLine charWidth targetWidth line) = line ++ ['\n'] := by
  rw [closeLine, rowsText_append, rowsText_cons, rowsText_nil, append_nil, if_pos rfl,
    ← append_assoc, rowsText_wrap]

theorem rowsText_layout (line text : Str) :
    rowsText (layout charWidth targetWidth line text).1 ++
      (layout charWidth targetWidth line text).2 = line ++ text := by
  induction text generalizing line with
  | nil => rw [layout, rowsText_wrap, append_nil]
  | cons ch rest ih =>
    by_cases hch : ch = '\n'
    · subst hch
      rw [layout_newline, rowsText_append, rowsText_closeLine, append_assoc, ih, nil_append,
        append_assoc, singleton_append]
    · rw [layout_cons hch, ih, append_assoc, singleton_append]

theorem fits_closeLine (line : Str) :
    ∀ row ∈ closeLine charWidth targetWidth line, Fits charWidth targetWidth row.text := by
  obtain ⟨hrows, hline⟩ := fits_wrap charWidth targetWidth line
  intro row hrow
  obtain hrow | hrow := mem_append.1 hrow
  · exact hrows row hrow
  · obtain rfl := mem_singleton.1 hrow
    exact .inl hline

theorem fits_layout (charWidth : Char → Option Nat) (targetWidth : Nat) (line text : Str) :
    (∀ row ∈ (layout charWidth targetWidth line text).1, Fits charWidth targetWidth row.text) ∧
      visibleWidth charWidth (layout charWidth targetWidth line text).2 ≤ targetWidth := by
  induction text generalizing line with
  | nil => exact fits_wrap charWidth targetWidth line
  | cons ch rest ih =>
    by_cases hch : ch = '\n'
    · subst hch
      rw [layout_newline]
      refine ⟨fun row hrow => ?_, (ih []).2⟩
      obtain hrow | hrow := mem_append.1 hrow
      · exact fits_closeLine line row hrow
      · exact (ih []).1 row hrow
    · rw [layout_cons hch]
      exact ih (line ++ [ch])

theorem text_pushFragment (fragment : Str) (b : RowBuilder) :
    (b.pushFragment charWidth fragment).text = b.text ++ fragment := by
  by_cases h : fragment = []
  · rw [pushFragment, if_pos h, h, append_nil]
  · rw [pushFragment_eq (.inl h), text, text, rowsText_append, append_assoc, rowsText_layout,
      append_assoc]

theorem Bounded.pushFragment (h : Bounded charWidth b) (fragment : Str) :
    Bounded charWidth (b.pushFragment charWidth fragment) := by
  by_cases hempty : fragment = []
  · rwa [RowBuilder.pushFragment, if_pos hempty]
  · rw [pushFragment_eq (.inl hempty)]
    obtain ⟨hrows, hline⟩ := fits_layout charWidth b.targetWidth b.currentLine fragment
    refine ⟨fun row hrow => ?_, hline⟩
    obtain hrow | hrow := mem_append.1 hrow
    · exact h.rows row hrow
    · exact hrows row hrow

theorem bounded_new (targetWidth : Nat) : Bounded charWidth (new targetWidth) :=
  ⟨fun _ hrow => absurd hrow not_mem_nil, Nat.zero_le _⟩

theorem endLine_eq (b : RowBuilder) : b.endLine charWidth = b.pushFragment charWidth ['\n'] := by
  have hne : ['\n'] ≠ [] := cons_ne_nil _ _
  rw [pushFragment_eq (.inl hne), layout_newline, layout, wrap_nil, endLine, flushCurrentLine_eq,
    append_nil]

theorem setWidth_eq (width : Nat) (b : RowBuilder) :
    b.setWidth charWidth width = (new width).pushFragment charWidth b.text := rfl

theorem text_apply (b : RowBuilder) (op : Op) : (b.apply charWidth op).text = b.text ++ op.text := by
  cases op with
  | pushFragment fragment => exact text_pushFragment fragment b
  | endLine => rw [apply, endLine_eq, text_pushFragment, Op.text]
  | setWidth width =>
    rw [apply, setWidth_eq, text_pushFragment, Op.text, append_nil]
    rfl

theorem Bounded.apply (h : Bounded charWidth b) (op : Op) : Bounded charWidth (b.apply charWidth op) := by
  cases op with
  | pushFragment fragment => exact h.pushFragment fragment
  | endLine =>
    rw [RowBuilder.apply, endLine_eq]
    exact h.pushFragment ['\n']
  | setWidth width =>
    rw [RowBuilder.apply, setWidth_eq]
    exact (bounded_new width).pushFragment b.text

theorem text_applyAll (ops : List Op) (b : RowBuilder) :
    (b.applyAll charWidth ops).text = b.text ++ ops.flatMap Op.text := by
  induction ops generalizing b with
  | nil => exact (append_nil b.text).symm
  | cons op ops ih =>
    rw [applyAll, foldl_cons, ← applyAll, ih, text_apply, flatMap_cons, append_assoc]

theorem Bounded.applyAll (h : Bounded charWidth b) (ops : List Op) :
    Bounded charWidth (b.applyAll charWidth ops) := by
  induction ops generalizing b with
  | nil => exact h
  | cons op ops ih => exact ih (h.apply op)

/-- What holds of a builder after any operations: its rows have the text, in no more than the width,
and a new width lays the text out anew. -/
structure Lawful (charWidth : Char → Option Nat) (fed : Str) (b : RowBuilder) : Prop where
  text : b.text = fed
  setWidth : ∀ width, b.setWidth charWidth width = (new width).pushFragment charWidth fed
  rows : ∀ row ∈ b.rows, Fits charWidth b.targetWidth row.text

theorem lawful_applyAll (targetWidth : Nat) (ops : List Op) :
    Lawful charWidth (ops.flatMap Op.text) ((new targetWidth).applyAll charWidth ops) := by
  have htext : ((new targetWidth).applyAll charWidth ops).text = ops.flatMap Op.text :=
    text_applyAll ops (new targetWidth)
  refine ⟨htext, ?_, ((bounded_new targetWidth).applyAll ops).rows⟩
  intro width
  rw [setWidth_eq, htext]

/-- Pushing fragments gives what pushing their text gives exactly if no fragment ends within
characters without a width that the rest of their line would be joined to; the other laws hold of
every builder. -/
theorem wrapped_iff (charWidth : Char → Option Nat) (targetWidth : Nat) (fragments : List Str) :
    ((new targetWidth).pushFragments charWidth fragments =
          (new targetWidth).pushFragment charWidth fragments.flatten ∧
        ∀ targetWidth ops, Lawful charWidth (ops.flatMap Op.text)
          ((new targetWidth).applyAll charWidth ops)) ↔
      ∀ earlier later, fragments = earlier ++ later →
        ¬SplitsZeroWidth charWidth (max targetWidth 1) earlier.flatten later.flatten := by
  have hiff := pushFragments_eq_whole_iff charWidth targetWidth [] fragments
  simp only [List.nil_append] at hiff
  rw [← hiff, and_iff_left lawful_applyAll]
  rfl

/-! ### An accent at the end of a fragment -/

/-- Widths of a letter and of the combining accent. -/
def accentWidth (c : Char) : Option Nat := if c = '\u0301' then some 0 else some 1

theorem splitsZeroWidth_accent :
    SplitsZeroWidth accentWidth (max 10 1) [['\u0301']].flatten [['a']].flatten := by
  have hcut : cut accentWidth 10 ['\u0301'] = ([], ['\u0301']) := cut_of_fits (by decide)
  have hpending : (cut accentWidth (max 10 1) (openLine [] [['\u0301']].flatten)).2 = ['\u0301'] :=
    congrArg Prod.snd hcut
  rw [SplitsZeroWidth, hpending]
  exact ⟨by decide, by decide, [], 'a', [], by decide, rfl, by decide, by decide⟩

/-- An accent at the end of a fragment is a row, but is in one line with the letter that follows if
the text is pushed as a whole. -/
theorem pushFragments_ne_accent :
    ¬∀ (charWidth : Char → Option Nat) (targetWidth : Nat) (fragments : List Str),
      (new targetWidth).pushFragments charWidth fragments =
        (new targetWidth).pushFragment charWidth fragments.flatten := by
  intro hall
  have heq := hall accentWidth 10 [['\u0301'], ['a']]
  exact (pushFragments_eq_whole_iff accentWidth 10 [] [['\u0301'], ['a']]).1 heq
    [['\u0301']] [['a']] rfl splitsZeroWidth_accent

/-! ## Rows that are handed on -/

/-- `drain_rows` -/
def drainRows (b : RowBuilder) : List Row × RowBuilder := (b.rows, { b with rows := [] })

/-- `display_rows` -/
def displayRows (b : RowBuilder) : List Row :=
  b.rows ++ if b.currentLine = [] then [] else [⟨b.currentLine, false⟩]

def drainCommitReady (maxKeep : Nat) (b : RowBuilder) : List Row × RowBuilder :=
  let displayCount := b.rows.length + if b.currentLine = [] then 0 else 1
  if displayCount ≤ maxKeep then ([], b)
  else
    let commitCount := min (displayCount - maxKeep) b.rows.length
    (b.rows.take commitCount, { b with rows := b.rows.drop commitCount })

inductive Use where
  | feed (op : Op)
  | drainRows
  | drainCommitReady (maxKeep : Nat)

/-- The rows drained so far, and the builder after one more use. -/
def use (charWidth : Char → Option Nat) (s : List Row × RowBuilder) : Use → List Row × RowBuilder
  | .feed op => (s.1, s.2.apply charWidth op)
  | .drainRows => (s.1 ++ s.2.drainRows.1, s.2.drainRows.2)
  | .drainCommitReady maxKeep =>
    (s.1 ++ (s.2.drainCommitReady maxKeep).1, (s.2.drainCommitReady maxKeep).2)

def Use.text : Use → Str
  | .feed op => op.text
  | .drainRows | .drainCommitReady _ => []

/-- What is drained are the first rows, and of the rest no more are displayed than are kept. -/
theorem drainCommitReady_spec (maxKeep : Nat) (b : RowBuilder) :
    (b.drainCommitReady maxKeep).1 ++ (b.drainCommitReady maxKeep).2.rows = b.rows ∧
      (b.drainCommitReady maxKeep).2.currentLine = b.currentLine ∧
      (b.drainCommitReady maxKeep).2.displayRows.length ≤ max maxKeep 1 := by
  have hlength (rows : List Row) : ({ b with rows } : RowBuilder).displayRows.length =
      rows.length + if b.currentLine = [] then 0 else 1 := by
    rw [displayRows, length_append]
    split <;> rfl
  rw [drainCommitReady]
  dsimp only
  by_cases hfits : (b.rows.length + if b.currentLine = [] then 0 else 1) ≤ maxKeep
  · rw [if_pos hfits]
    exact ⟨rfl, rfl, (hlength b.rows).trans_le (hfits.trans (Nat.le_max_left _ _))⟩
  · rw [if_neg hfits]
    refine ⟨take_append_drop _ _, rfl, ?_⟩
    have hline : (if b.currentLine = [] then 0 else 1) ≤ 1 := by split <;> decide
    rw [hlength, length_drop]
    omega

theorem text_use (s : List Row × RowBuilder) (u : Use) :
    rowsText (use charWidth s u).1 ++ (use charWidth s u).2.text =
      rowsText s.1 ++ s.2.text ++ u.text := by
  cases u with
  | feed op => rw [use, text_apply, append_assoc, Use.text]
  | drainRows => simp [use, drainRows, RowBuilder.text, Use.text]
  | drainCommitReady maxKeep =>
    obtain ⟨hrows, hline, -⟩ := drainCommitReady_spec maxKeep s.2
    have htext := congrArg rowsText hrows
    rw [rowsText_append] at htext
    simp only [use, RowBuilder.text, Use.text, rowsText_append, append_nil, append_assoc]
    rw [hline, ← htext, append_assoc]

/-- Whatever is drained in between, the rows handed on and what the builder still holds are the text
that was fed, each character once and in order; and after a commit no more is displayed than was to
be kept, but for the line in progress. -/
theorem text_uses (targetWidth : Nat) (uses : List Use) :
    rowsText (uses.foldl (use charWidth) ([], new targetWidth)).1 ++
        (uses.foldl (use charWidth) ([], new targetWidth)).2.text = uses.flatMap Use.text ∧
      ∀ maxKeep, ((uses.foldl (use charWidth) ([], new targetWidth)).2.drainCommitReady
        maxKeep).2.displayRows.length ≤ max maxKeep 1 := by
  refine ⟨?_, fun maxKeep => (drainCommitReady_spec maxKeep _).2.2⟩
  have hfold : ∀ s : List Row × RowBuilder,
      rowsText (uses.foldl (use charWidth) s).1 ++ (uses.foldl (use charWidth) s).2.text =
        rowsText s.1 ++ s.2.text ++ uses.flatMap Use.text := by
    induction uses with
    | nil => exact fun s => (append_nil _).symm
    | cons u uses ih =>
      intro s
      rw [foldl_cons, ih, text_use, flatMap_cons, append_assoc]
  exact hfold _

end RowBuilder

end SheriMl.LiveWrap
