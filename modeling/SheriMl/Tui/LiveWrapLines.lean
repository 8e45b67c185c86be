import SheriMl.Tui.LiveWrap

/-!
# Wrapping a line and going on with it

Rows that can be cut off a line are also cut off a longer one (`cut_append`). Wrapping does the same
but for a last line without a width, whose characters become rows of their own (`wrap_eq`): what
comes after them joins them if the line is whole.
-/

namespace SheriMl.LiveWrap

open List

variable {charWidth : Char → Option Nat} {targetWidth : Nat} {line : Str} {ch : Char} {rest : Str}

/-! ## Prefixes by width -/

@[simp] theorem visibleWidth_nil : visibleWidth charWidth [] = 0 := rfl

@[simp] theorem visibleWidth_cons (ch : Char) (text : Str) :
    visibleWidth charWidth (ch :: text) = width charWidth ch + visibleWidth charWidth text := by
  rw [visibleWidth, map_cons, sum_cons, visibleWidth]

@[simp] theorem visibleWidth_append (a b : Str) :
    visibleWidth charWidth (a ++ b) = visibleWidth charWidth a + visibleWidth charWidth b := by
  rw [visibleWidth, map_append, sum_append, visibleWidth, visibleWidth]

theorem takeChars_le {maxCols cols : Nat} (h : cols ≤ maxCols) (text : Str) :
    (takeChars charWidth maxCols cols text).2.2 ≤ maxCols := by
  induction text generalizing cols with
  | nil => exact h
  | cons ch rest ih =>
    rw [takeChars]
    dsimp only
    split
    · exact h
    · split
      next heq => exact Nat.le_of_eq heq
      · exact ih (by omega)

/-- What follows a text that something is left of does not matter. -/
theorem takeChars_append_of_ne_nil {maxCols cols : Nat} {text : Str}
    (h : (takeChars charWidth maxCols cols text).2.1 ≠ []) (extra : Str) :
    takeChars charWidth maxCols cols (text ++ extra) =
      ((takeChars charWidth maxCols cols text).1,
        (takeChars charWidth maxCols cols text).2.1 ++ extra,
        (takeChars charWidth maxCols cols text).2.2) := by
  induction text generalizing cols with
  | nil => exact absurd rfl h
  | cons ch rest ih =>
    rw [takeChars] at h
    rw [cons_append, takeChars, takeChars]
    dsimp only at h ⊢
    split
    · rfl
    next hfits =>
      rw [if_neg hfits] at h
      split
      · rfl
      next hmore =>
        rw [if_neg hmore] at h
        rw [ih h]

theorem take_append {text : Str} (h : (takePrefixByWidth charWidth text targetWidth).2.1 ≠ [])
    (extra : Str) :
    takePrefixByWidth charWidth (text ++ extra) targetWidth =
      ((takePrefixByWidth charWidth text targetWidth).1,
        (takePrefixByWidth charWidth text targetWidth).2.1 ++ extra,
        (takePrefixByWidth charWidth text targetWidth).2.2) := by
  have htext : text ≠ [] := by
    rintro rfl
    rw [takePrefixByWidth, if_pos (.inr rfl)] at h
    exact h rfl
  rw [takePrefixByWidth] at h ⊢
  rw [takePrefixByWidth]
  by_cases hzero : targetWidth = 0
  · rw [if_pos (.inl hzero), if_pos (.inl hzero)]
  · have hne : ¬(targetWidth = 0 ∨ text = []) := not_or.2 ⟨hzero, htext⟩
    have hne' : ¬(targetWidth = 0 ∨ text ++ extra = []) :=
      not_or.2 ⟨hzero, append_ne_nil_of_left_ne_nil htext _⟩
    rw [if_neg hne] at h
    rw [if_neg hne', if_neg hne]
    exact takeChars_append_of_ne_nil h extra

theorem visibleWidth_taken_le (text : Str) :
    visibleWidth charWidth (takePrefixByWidth charWidth text targetWidth).1 ≤ targetWidth := by
  rw [← takePrefixByWidth_total, takePrefixByWidth]
  split
  · exact Nat.zero_le _
  · exact takeChars_le (Nat.zero_le _) text

/-- If nothing is left, all of the text is taken. -/
theorem taken_eq (h : (takePrefixByWidth charWidth line targetWidth).2.1 = []) :
    (takePrefixByWidth charWidth line targetWidth).1 = line := by
  have happend := takePrefixByWidth_append charWidth line targetWidth
  rwa [h, append_nil] at happend

/-! ## Rows -/

def single (ch : Char) : Row := ⟨[ch], false⟩

theorem wrap_nil : wrap charWidth targetWidth [] = ([], []) := by
  rw [wrap]

theorem wrap_of_zero
    (h : (takePrefixByWidth charWidth (ch :: rest) targetWidth).2.2 = 0) :
    wrap charWidth targetWidth (ch :: rest) =
      (single ch :: (wrap charWidth targetWidth rest).1, (wrap charWidth targetWidth rest).2) := by
  rw [wrap]
  split
  next taken suffix total htake =>
    rw [htake] at h
    rw [dif_pos h]
    rfl

theorem wrap_of_fits (h : (takePrefixByWidth charWidth line targetWidth).2.2 ≠ 0)
    (hsuffix : (takePrefixByWidth charWidth line targetWidth).2.1 = []) :
    wrap charWidth targetWidth line = ([], line) := by
  cases line with
  | nil => exact wrap_nil
  | cons ch rest =>
    rw [wrap]
    split
    next taken suffix total htake =>
      rw [htake] at h hsuffix
      rw [dif_neg h, if_pos hsuffix]

theorem wrap_of_row (h : (takePrefixByWidth charWidth line targetWidth).2.2 ≠ 0)
    (hsuffix : (takePrefixByWidth charWidth line targetWidth).2.1 ≠ []) :
    wrap charWidth targetWidth line =
      (⟨(takePrefixByWidth charWidth line targetWidth).1, false⟩ ::
          (wrap charWidth targetWidth (takePrefixByWidth charWidth line targetWidth).2.1).1,
        (wrap charWidth targetWidth (takePrefixByWidth charWidth line targetWidth).2.1).2) := by
  cases line with
  | nil =>
    rw [takePrefixByWidth, if_pos (.inr rfl)] at h
    exact absurd rfl h
  | cons ch rest =>
    rw [wrap]
    split
    next taken suffix total htake =>
      rw [htake] at h hsuffix
      rw [dif_neg h, if_neg hsuffix, htake]

variable (charWidth)

/-- The rows that can be cut off a line whatever comes after it, and the rest of the line. -/
def cut (targetWidth : Nat) : Str → List Row × Str
  | [] => ([], [])
  | ch :: rest =>
    match _ : takePrefixByWidth charWidth (ch :: rest) targetWidth with
    | (taken, suffix, total) =>
      if suffix = [] then ([], ch :: rest)
      else if _ : total = 0 then
        (single ch :: (cut targetWidth rest).1, (cut targetWidth rest).2)
      else (⟨taken, false⟩ :: (cut targetWidth suffix).1, (cut targetWidth suffix).2)
termination_by line => line.length
decreasing_by
  · exact Nat.lt_succ_self _
  · rename_i htake _ htotal
    have hlt : (takePrefixByWidth charWidth (ch :: rest) targetWidth).2.1.length <
        (ch :: rest).length := length_suffix_lt (by rw [htake]; exact htotal)
    rwa [htake] at hlt

variable {charWidth}

theorem cut_of_fits (hsuffix : (takePrefixByWidth charWidth line targetWidth).2.1 = []) :
    cut charWidth targetWidth line = ([], line) := by
  cases line with
  | nil => rw [cut]
  | cons ch rest =>
    rw [cut]
    split
    next taken suffix total htake =>
      rw [htake] at hsuffix
      rw [if_pos hsuffix]

theorem cut_of_zero (hsuffix : (takePrefixByWidth charWidth (ch :: rest) targetWidth).2.1 ≠ [])
    (h : (takePrefixByWidth charWidth (ch :: rest) targetWidth).2.2 = 0) :
    cut charWidth targetWidth (ch :: rest) =
      (single ch :: (cut charWidth targetWidth rest).1, (cut charWidth targetWidth rest).2) := by
  rw [cut]
  split
  next taken suffix total htake =>
    rw [htake] at h hsuffix
    rw [if_neg hsuffix, dif_pos h]

theorem cut_of_row (hsuffix : (takePrefixByWidth charWidth line targetWidth).2.1 ≠ [])
    (h : (takePrefixByWidth charWidth line targetWidth).2.2 ≠ 0) :
    cut charWidth targetWidth line =
      (⟨(takePrefixByWidth charWidth line targetWidth).1, false⟩ ::
          (cut charWidth targetWidth (takePrefixByWidth charWidth line targetWidth).2.1).1,
        (cut charWidth targetWidth (takePrefixByWidth charWidth line targetWidth).2.1).2) := by
  cases line with
  | nil =>
    rw [takePrefixByWidth, if_pos (.inr rfl)] at h
    exact absurd rfl h
  | cons ch rest =>
    rw [cut]
    split
    next taken suffix total htake =>
      rw [htake] at h hsuffix
      rw [if_neg hsuffix, dif_neg h, htake]

/-- Cutting rows off a line: it fits, or its first character is one, or a prefix. -/
theorem cut_induction (charWidth : Char → Option Nat) (targetWidth : Nat) {P : Str → Prop}
    (hfits : ∀ line, (takePrefixByWidth charWidth line targetWidth).2.1 = [] → P line)
    (hzero : ∀ ch rest, (takePrefixByWidth charWidth (ch :: rest) targetWidth).2.1 ≠ [] →
      (takePrefixByWidth charWidth (ch :: rest) targetWidth).2.2 = 0 → P rest → P (ch :: rest))
    (hrow : ∀ line, (takePrefixByWidth charWidth line targetWidth).2.1 ≠ [] →
      (takePrefixByWidth charWidth line targetWidth).2.2 ≠ 0 →
      P (takePrefixByWidth charWidth line targetWidth).2.1 → P line)
    (line : Str) : P line := by
  induction hn : line.length using Nat.strong_induction_on generalizing line with
  | _ n ih =>
    subst hn
    by_cases hsuffix : (takePrefixByWidth charWidth line targetWidth).2.1 = []
    · exact hfits line hsuffix
    · by_cases htotal : (takePrefixByWidth charWidth line targetWidth).2.2 = 0
      · cases line with
        | nil =>
          rw [takePrefixByWidth, if_pos (.inr rfl)] at hsuffix
          exact absurd rfl hsuffix
        | cons ch rest =>
          exact hzero ch rest hsuffix htotal (ih rest.length (Nat.lt_succ_self _) rest rfl)
      · exact hrow line hsuffix htotal (ih _ (length_suffix_lt htotal) _ rfl)

/-- A line that goes on is cut where it was, and then on. -/
theorem cut_append (line extra : Str) :
    cut charWidth targetWidth (line ++ extra) =
      ((cut charWidth targetWidth line).1 ++
          (cut charWidth targetWidth ((cut charWidth targetWidth line).2 ++ extra)).1,
        (cut charWidth targetWidth ((cut charWidth targetWidth line).2 ++ extra)).2) := by
  induction line using cut_induction charWidth targetWidth with
  | hfits line hsuffix => rw [cut_of_fits hsuffix, nil_append]
  | hzero ch rest hsuffix htotal ih =>
    have htake := take_append hsuffix extra
    have hsuffix' : (takePrefixByWidth charWidth (ch :: rest ++ extra) targetWidth).2.1 ≠ [] := by
      rw [htake]
      exact append_ne_nil_of_left_ne_nil hsuffix _
    rw [cons_append] at htake hsuffix' ⊢
    rw [cut_of_zero hsuffix htotal, cut_of_zero hsuffix' (by rw [htake]; exact htotal), ih]
    rfl
  | hrow line hsuffix htotal ih =>
    have htake := take_append hsuffix extra
    have hsuffix' : (takePrefixByWidth charWidth (line ++ extra) targetWidth).2.1 ≠ [] := by
      rw [htake]
      exact append_ne_nil_of_left_ne_nil hsuffix _
    rw [cut_of_row hsuffix htotal, cut_of_row hsuffix' (by rw [htake]; exact htotal), htake]
    dsimp only
    rw [ih]
    rfl

/-! ## Wrapping -/

theorem wrap_of_visibleWidth_eq_zero (h : visibleWidth charWidth line = 0) :
    wrap charWidth targetWidth line = (line.map single, []) := by
  induction line with
  | nil => exact wrap_nil
  | cons ch rest ih =>
    have hrest : visibleWidth charWidth rest = 0 := by
      rw [visibleWidth_cons] at h
      omega
    have htotal : (takePrefixByWidth charWidth (ch :: rest) targetWidth).2.2 = 0 := by
      have hsum := congrArg (visibleWidth charWidth)
        (takePrefixByWidth_append charWidth (ch :: rest) targetWidth)
      rw [visibleWidth_append, h] at hsum
      rw [takePrefixByWidth_total]
      omega
    rw [wrap_of_zero htotal, ih hrest]
    rfl

/-- What wrapping makes of the line that is left when no row can be cut off any more. -/
def settle (charWidth : Char → Option Nat) (line : Str) : List Row × Str :=
  if visibleWidth charWidth line = 0 then (line.map single, []) else ([], line)

theorem wrap_eq (line : Str) :
    wrap charWidth targetWidth line =
      ((cut charWidth targetWidth line).1 ++ (settle charWidth (cut charWidth targetWidth line).2).1,
        (settle charWidth (cut charWidth targetWidth line).2).2) := by
  induction line using cut_induction charWidth targetWidth with
  | hfits line hsuffix =>
    rw [cut_of_fits hsuffix, settle]
    by_cases hwidth : visibleWidth charWidth line = 0
    · rw [if_pos hwidth, wrap_of_visibleWidth_eq_zero hwidth]
      rfl
    · rw [if_neg hwidth]
      refine wrap_of_fits ?_ hsuffix
      rwa [takePrefixByWidth_total, taken_eq hsuffix]
  | hzero ch rest hsuffix htotal ih =>
    rw [cut_of_zero hsuffix htotal, wrap_of_zero htotal, ih]
    rfl
  | hrow line hsuffix htotal ih =>
    rw [cut_of_row hsuffix htotal, wrap_of_row htotal hsuffix, ih]
    rfl

theorem wrap_append (line extra : Str) :
    wrap charWidth targetWidth (line ++ extra) =
      ((cut charWidth targetWidth line).1 ++
          (wrap charWidth targetWidth ((cut charWidth targetWidth line).2 ++ extra)).1,
        (wrap charWidth targetWidth ((cut charWidth targetWidth line).2 ++ extra)).2) := by
  rw [wrap_eq, cut_append, wrap_eq (_ ++ extra), append_assoc]

/-! ## Lines that begin without a width -/

variable (charWidth)

/-- A line's first character with a width fits, so that those before it are joined to it. -/
def Absorbs (targetWidth : Nat) (line : Str) : Prop :=
  ∃ zeros ch rest, line = zeros ++ ch :: rest ∧ visibleWidth charWidth zeros = 0 ∧
    0 < width charWidth ch ∧ width charWidth ch ≤ targetWidth

variable {charWidth}

theorem Absorbs.append (h : Absorbs charWidth targetWidth line) (extra : Str) :
    Absorbs charWidth targetWidth (line ++ extra) := by
  obtain ⟨zeros, ch, rest, rfl, hzeros, hpos, hle⟩ := h
  exact ⟨zeros, ch, rest ++ extra, append_assoc .., hzeros, hpos, hle⟩

theorem absorbs_cons_iff (h : width charWidth ch = 0) :
    Absorbs charWidth targetWidth (ch :: rest) ↔ Absorbs charWidth targetWidth rest := by
  constructor
  · rintro ⟨zeros, ch', rest', hline, hzeros, hpos, hle⟩
    cases zeros with
    | nil =>
      obtain ⟨rfl, rfl⟩ := List.cons.inj hline
      omega
    | cons zero zeros =>
      obtain ⟨rfl, rfl⟩ := List.cons.inj hline
      rw [visibleWidth_cons] at hzeros
      exact ⟨zeros, ch', rest', rfl, by omega, hpos, hle⟩
  · rintro ⟨zeros, ch', rest', rfl, hzeros, hpos, hle⟩
    exact ⟨ch :: zeros, ch', rest', rfl, by rw [visibleWidth_cons]; omega, hpos, hle⟩

theorem absorbs_zeros_append_iff {zeros : Str} (h : visibleWidth charWidth zeros = 0) :
    Absorbs charWidth targetWidth (zeros ++ line) ↔ Absorbs charWidth targetWidth line := by
  induction zeros with
  | nil => rfl
  | cons ch zeros ih =>
    rw [visibleWidth_cons] at h
    rw [cons_append, absorbs_cons_iff (by omega), ih (by omega)]

theorem absorbs_of_takeChars {maxCols : Nat} (hmax : 0 < maxCols)
    (h : (takeChars charWidth maxCols 0 line).2.2 ≠ 0) : Absorbs charWidth maxCols line := by
  induction line with
  | nil => exact absurd rfl h
  | cons ch rest ih =>
    rw [takeChars] at h
    dsimp only at h
    rw [Nat.zero_add] at h
    split at h
    · exact absurd rfl h
    next hfits =>
      by_cases hzero : width charWidth ch = 0
      · rw [hzero, if_neg (Nat.ne_of_lt hmax)] at h
        exact (absorbs_cons_iff hzero).2 (ih h)
      · exact ⟨[], ch, rest, rfl, rfl, by omega, by omega⟩

theorem absorbs_of_take (h : (takePrefixByWidth charWidth line targetWidth).2.2 ≠ 0) :
    Absorbs charWidth targetWidth line := by
  rw [takePrefixByWidth] at h
  split at h
  · exact absurd rfl h
  next hne => exact absorbs_of_takeChars (Nat.pos_of_ne_zero fun hzero => hne (.inl hzero)) h

/-- Characters without a width that nothing is joined to become rows. -/
theorem wrap_zeros_append {zeros : Str} (hzeros : visibleWidth charWidth zeros = 0)
    (h : ¬Absorbs charWidth targetWidth line) :
    wrap charWidth targetWidth (zeros ++ line) =
      (zeros.map single ++ (wrap charWidth targetWidth line).1,
        (wrap charWidth targetWidth line).2) := by
  induction zeros with
  | nil => rfl
  | cons ch zeros ih =>
    rw [visibleWidth_cons] at hzeros
    have hch : width charWidth ch = 0 := by omega
    have hrest : visibleWidth charWidth zeros = 0 := by omega
    have hnot : ¬Absorbs charWidth targetWidth (ch :: (zeros ++ line)) := by
      rwa [absorbs_cons_iff hch, absorbs_zeros_append_iff hrest]
    have htotal : (takePrefixByWidth charWidth (ch :: (zeros ++ line)) targetWidth).2.2 = 0 := by
      by_contra hne
      exact hnot (absorbs_of_take hne)
    rw [cons_append, wrap_of_zero htotal, ih hrest]
    rfl

/-- The prefix that is taken of a line that a character with a width is the first to fit. -/
theorem takeChars_zeros_append {maxCols : Nat} {zeros : Str}
    (hzeros : visibleWidth charWidth zeros = 0) (hpos : 0 < width charWidth ch)
    (hle : width charWidth ch ≤ maxCols) (rest : Str) :
    ∃ more, (takeChars charWidth maxCols 0 (zeros ++ ch :: rest)).1 = zeros ++ ch :: more := by
  induction zeros with
  | nil =>
    rw [nil_append, takeChars]
    dsimp only
    rw [Nat.zero_add, if_neg (Nat.not_lt.2 hle)]
    split
    · exact ⟨[], rfl⟩
    · exact ⟨_, rfl⟩
  | cons zero zeros ih =>
    rw [visibleWidth_cons] at hzeros
    obtain ⟨more, hmore⟩ := ih (by omega)
    have hzero : width charWidth zero = 0 := by omega
    refine ⟨more, ?_⟩
    rw [cons_append, takeChars]
    dsimp only
    rw [hzero, Nat.zero_add, if_neg (Nat.not_lt_zero _), if_neg (by omega), hmore]
    rfl

/-- Characters without a width are in one row with what they are joined to. -/
theorem wrap_head_of_zeros {zeros : Str} (hne : zeros ≠ [])
    (hzeros : visibleWidth charWidth zeros = 0) (hpos : 0 < width charWidth ch)
    (hle : width charWidth ch ≤ targetWidth) (rest : Str) :
    wrap charWidth targetWidth (zeros ++ ch :: rest) = ([], zeros ++ ch :: rest) ∨
      ∃ row rows, (wrap charWidth targetWidth (zeros ++ ch :: rest)).1 = row :: rows ∧
        2 ≤ row.text.length := by
  have hline : ¬(targetWidth = 0 ∨ zeros ++ ch :: rest = []) := by
    rintro (hzero | hnil)
    · omega
    · exact append_ne_nil_of_left_ne_nil hne _ hnil
  obtain ⟨more, hmore⟩ := takeChars_zeros_append hzeros hpos hle rest
  have htaken : (takePrefixByWidth charWidth (zeros ++ ch :: rest) targetWidth).1 =
      zeros ++ ch :: more := by
    rw [takePrefixByWidth, if_neg hline, hmore]
  have htotal : (takePrefixByWidth charWidth (zeros ++ ch :: rest) targetWidth).2.2 ≠ 0 := by
    rw [takePrefixByWidth_total, htaken, visibleWidth_append, visibleWidth_cons]
    omega
  by_cases hsuffix : (takePrefixByWidth charWidth (zeros ++ ch :: rest) targetWidth).2.1 = []
  · exact .inl (wrap_of_fits htotal hsuffix)
  · refine .inr ⟨_, _, congrArg Prod.fst (wrap_of_row htotal hsuffix), ?_⟩
    have hlength := length_pos_iff.2 hne
    rw [htaken, length_append, length_cons]
    omega

/-! ## Widths of rows -/

/-- A row is within the width, or a character that is wider. -/
def Fits (charWidth : Char → Option Nat) (targetWidth : Nat) (text : Str) : Prop :=
  visibleWidth charWidth text ≤ targetWidth ∨
    ∃ ch, text = [ch] ∧ targetWidth < width charWidth ch

theorem fits_single (ch : Char) : Fits charWidth targetWidth [ch] := by
  by_cases h : width charWidth ch ≤ targetWidth
  · refine .inl ?_
    rwa [visibleWidth_cons, visibleWidth_nil, Nat.add_zero]
  · exact .inr ⟨ch, rfl, Nat.not_le.1 h⟩

theorem fits_wrap (charWidth : Char → Option Nat) (targetWidth : Nat) (line : Str) :
    (∀ row ∈ (wrap charWidth targetWidth line).1, Fits charWidth targetWidth row.text) ∧
      visibleWidth charWidth (wrap charWidth targetWidth line).2 ≤ targetWidth := by
  induction line using cut_induction charWidth targetWidth with
  | hfits line hsuffix =>
    have hle : visibleWidth charWidth line ≤ targetWidth := by
      have htaken : visibleWidth charWidth (takePrefixByWidth charWidth line targetWidth).1 ≤
          targetWidth := visibleWidth_taken_le line
      rwa [taken_eq hsuffix] at htaken
    rw [wrap_eq, cut_of_fits hsuffix, settle, nil_append]
    split
    · refine ⟨?_, Nat.zero_le _⟩
      intro row hrow
      obtain ⟨ch, -, rfl⟩ := mem_map.1 hrow
      exact fits_single ch
    · exact ⟨fun _ hrow => absurd hrow not_mem_nil, hle⟩
  | hzero ch rest hsuffix htotal ih =>
    rw [wrap_of_zero htotal]
    exact ⟨forall_mem_cons.2 ⟨fits_single ch, ih.1⟩, ih.2⟩
  | hrow line hsuffix htotal ih =>
    rw [wrap_of_row htotal hsuffix]
    exact ⟨forall_mem_cons.2 ⟨.inl (visibleWidth_taken_le line), ih.1⟩, ih.2⟩

/-! ## Texts of rows -/

@[simp] theorem rowsText_nil : rowsText [] = [] := rfl

@[simp] theorem rowsText_cons (row : Row) (rows : List Row) :
    rowsText (row :: rows) =
      row.text ++ (if row.explicitBreak then ['\n'] else []) ++ rowsText rows :=
  flatMap_cons

@[simp] theorem rowsText_append (rows rows' : List Row) :
    rowsText (rows ++ rows') = rowsText rows ++ rowsText rows' :=
  flatMap_append

theorem rowsText_singles (line : Str) : rowsText (line.map single) = line := by
  induction line with
  | nil => rfl
  | cons ch rest ih => rw [map_cons, rowsText_cons, ih]; rfl

theorem rowsText_wrap (line : Str) :
    rowsText (wrap charWidth targetWidth line).1 ++ (wrap charWidth targetWidth line).2 = line := by
  induction line using cut_induction charWidth targetWidth with
  | hfits line hsuffix =>
    rw [wrap_eq, cut_of_fits hsuffix, settle, nil_append]
    split
    · rw [rowsText_singles, append_nil]
    · rfl
  | hzero ch rest hsuffix htotal ih =>
    rw [wrap_of_zero htotal]
    exact congrArg (ch :: ·) ih
  | hrow line hsuffix htotal ih =>
    rw [wrap_of_row htotal hsuffix, rowsText_cons, append_assoc, ih]
    simp only [Bool.false_eq_true, if_false, append_nil]
    exact takePrefixByWidth_append charWidth line targetWidth

end SheriMl.LiveWrap
