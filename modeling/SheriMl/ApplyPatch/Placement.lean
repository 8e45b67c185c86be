import SheriMl.ApplyPatch.Replace

/-!
# Where chunks are placed

The replacements of `compute_replacements` lie within the file, and applying them
one by one never panics. Applied to windows that are apart, the last first, they
make all replacements at once (`Lib/Splice`).

The windows are apart exactly when the chunks are placed apart
(`replacesAll_iff`). A chunk marked end-of-file is sought at the end only, also
where an earlier chunk was placed already; and a pure addition goes before a
final blank line, also when another chunk replaces that line.
-/

namespace SheriMl.ApplyPatch

open Splice

variable {lines : List Str} {path : Str} {chunk : UpdateFileChunk}
  {chunks : List UpdateFileChunk} {r : Replacement} {rs : List Replacement} {lineIndex : Nat}

/-! ## Applying one by one -/

theorem removeLines_eq (n startIdx : Nat) (lines : List Str) :
    removeLines n startIdx lines = lines.take startIdx ++ lines.drop (startIdx + n) := by
  induction n generalizing lines with
  | zero => simp [removeLines]
  | succ n ih =>
    rw [removeLines]
    by_cases hlt : startIdx < lines.length
    · rw [if_pos hlt, ih, List.eraseIdx_eq_take_drop_succ,
        List.take_append_of_le_length (by simp; omega), List.take_take, Nat.min_self,
        List.drop_append, List.drop_eq_nil_of_le (by simp), List.nil_append,
        List.drop_drop, List.length_take, Nat.min_eq_left (by omega)]
      congr 2
      omega
    · rw [if_neg hlt, ih, List.drop_eq_nil_of_le (by omega), List.drop_eq_nil_of_le (by omega)]

theorem insertIdx_append (pre post : List Str) (x : Str) :
    (pre ++ post).insertIdx pre.length x = pre ++ x :: post := by
  induction pre with
  | nil => rfl
  | cons y pre ih => simp [ih]

theorem insertLines_append (newLines pre post : List Str) :
    insertLines pre.length newLines (pre ++ post) = some (pre ++ newLines ++ post) := by
  induction newLines generalizing pre with
  | nil => simp [insertLines]
  | cons newLine newLines ih =>
    have htail := ih (pre ++ [newLine])
    rw [List.length_append, List.length_singleton, List.append_assoc,
      List.singleton_append] at htail
    rw [insertLines, if_pos (by simp), insertIdx_append, htail]
    simp

theorem applyReplacement_eq (h : r.start ≤ lines.length) :
    applyReplacement lines r = some (replace lines r) := by
  have hlen : (lines.take r.start).length = r.start := by
    rw [List.length_take]
    omega
  have hins := insertLines_append r.new (lines.take r.start) (lines.drop r.stop)
  rw [hlen] at hins
  rw [applyReplacement, removeLines_eq]
  exact hins

theorem le_length_applyDesc {k : Nat} (hk : k ≤ lines.length) (hrs : ∀ r ∈ rs, k ≤ r.start) :
    k ≤ (applyDesc rs lines).length := by
  induction rs with
  | nil => exact hk
  | cons r rs ih =>
    have hr := hrs r List.mem_cons_self
    have hle := ih fun r' hr' => hrs r' (List.mem_cons_of_mem _ hr')
    show k ≤ (replace (applyDesc rs lines) r).length
    rw [replace, List.append_assoc, List.length_append, List.length_take]
    omega

/-- Sorted by start, replacements that start within the lines are applied without a panic. -/
theorem applyReplacements_eq (hsorted : rs.Pairwise fun a b => a.start ≤ b.start)
    (hstart : ∀ r ∈ rs, r.start ≤ lines.length) :
    applyReplacements lines rs = some (applyDesc rs lines) := by
  unfold applyReplacements
  rw [List.foldlM_reverse]
  induction hsorted with
  | nil => rfl
  | @cons r rs hr _ ih =>
    have hlines := hstart r List.mem_cons_self
    rw [List.foldrM_cons, ih fun r' hr' => hstart r' (List.mem_cons_of_mem _ hr')]
    exact applyReplacement_eq (le_length_applyDesc hlines hr)

/-! ## Where the chunks are sought -/

/-- A chunk and the line from which its old lines are sought. -/
structure Sought where
  chunk : UpdateFileChunk
  cursor : Nat

namespace Sought

def found (lines : List Str) (s : Sought) : Option Replacement :=
  findOldLines lines s.chunk s.cursor

def placement (lines : List Str) (s : Sought) : Option Replacement :=
  if s.chunk.oldLines.isEmpty then some ⟨insertionIdx lines, 0, s.chunk.newLines⟩
  else s.found lines

def nextCursor (lines : List Str) (s : Sought) : Nat :=
  if s.chunk.oldLines.isEmpty then s.cursor else ((s.found lines).map (·.stop)).getD s.cursor

end Sought

def sought (lines : List Str) : Nat → List UpdateFileChunk → List Sought
  | _, [] => []
  | lineIndex, chunk :: chunks =>
    match skipContext lines chunk lineIndex with
    | none => []
    | some lineIndex =>
      ⟨chunk, lineIndex⟩ :: sought lines (Sought.nextCursor lines ⟨chunk, lineIndex⟩) chunks

/-- A chunk marked end-of-file is not found on lines where an earlier chunk was found, or
before the place where an earlier one was found empty. -/
def EofClear (lines : List Str) (a b : Sought) : Prop :=
  a.chunk.oldLines ≠ [] → b.chunk.oldLines ≠ [] → b.chunk.isEndOfFile = true →
    ∀ r ∈ a.found lines, ∀ e ∈ b.found lines,
      e.len = 0 ∨ r.start = lines.length ∨ r.stop ≤ e.start

/-- A pure addition before a final blank line does not fall into old lines that reach it. -/
def AdditionClear (lines : List Str) (a b : Sought) : Prop :=
  lines.getLast? = some [] → a.chunk.oldLines ≠ [] → b.chunk.oldLines = [] →
    ∀ r ∈ a.found lines, r.stop = lines.length → lines.length ≤ r.start + 1

/-- An earlier chunk does not replace just the final blank line before which a pure addition
goes, unless only blank lines are added. -/
def BlankClear (lines : List Str) (a b : Sought) : Prop :=
  lines.getLast? = some [] → a.chunk.oldLines ≠ [] → b.chunk.oldLines = [] →
    ∀ r ∈ a.found lines, r.start + 1 = lines.length → r.len = 1 → ∀ y ∈ b.chunk.newLines, y = []

instance (lines : List Str) (a b : Sought) : Decidable (EofClear lines a b) :=
  inferInstanceAs (Decidable (_ → _))

instance (lines : List Str) (a b : Sought) : Decidable (AdditionClear lines a b) :=
  inferInstanceAs (Decidable (_ → _))

instance (lines : List Str) (a b : Sought) : Decidable (BlankClear lines a b) :=
  inferInstanceAs (Decidable (_ → _))

structure PlacedApart (lines : List Str) (chunks : List UpdateFileChunk) : Prop where
  eof : (sought lines 0 chunks).Pairwise (EofClear lines)
  addition : (sought lines 0 chunks).Pairwise fun a b =>
    AdditionClear lines a b ∧ AdditionClear lines b a
  blank : (sought lines 0 chunks).Pairwise (BlankClear lines)

/-! ## What is found -/

structure Found (lines : List Str) (s : Sought) (r : Replacement) : Prop where
  stop_le : r.stop ≤ lines.length
  cursor_le_stop : s.cursor ≤ r.stop
  start : s.cursor ≤ r.start ∨ s.chunk.isEndOfFile = true ∧ r.len ≠ 0
  eof : s.chunk.isEndOfFile = true → r.len ≠ 0 → r.stop = lines.length

theorem found_of_seekSequence {s : Sought} {pattern new : List Str} {i : Nat}
    (hs : s.cursor ≤ lines.length)
    (h : seekSequence lines pattern s.cursor s.chunk.isEndOfFile = some i) :
    Found lines s ⟨i, pattern.length, new⟩ := by
  by_cases hp : pattern = []
  · subst hp
    rw [seekSequence_nil] at h
    cases h
    exact ⟨hs, Nat.le_refl _, .inl (Nat.le_refl _), fun _ hlen => absurd rfl hlen⟩
  · obtain ⟨hstop, hstart, heof⟩ := seekSequence_bounds hp h
    have hlen : pattern.length ≠ 0 := fun h0 => hp (List.length_eq_zero_iff.1 h0)
    cases hflag : s.chunk.isEndOfFile with
    | true =>
      have hn := heof hflag
      refine ⟨hstop, ?_, .inr ⟨hflag, hlen⟩, fun _ _ => hn⟩
      show s.cursor ≤ i + pattern.length
      omega
    | false =>
      have hi := hstart hflag
      refine ⟨hstop, ?_, .inl hi, fun h' => by cases hflag.symm.trans h'⟩
      show s.cursor ≤ i + pattern.length
      omega

theorem found_spec {s : Sought} (hs : s.cursor ≤ lines.length) (h : s.found lines = some r) :
    Found lines s r := by
  unfold Sought.found findOldLines at h
  split at h
  next i hi =>
    cases h
    exact found_of_seekSequence hs hi
  · split at h
    · obtain ⟨i, hi, rfl⟩ := Option.map_eq_some_iff.1 h
      exact found_of_seekSequence hs hi
    · cases h

theorem skipContext_bounds {i j : Nat} (hi : i ≤ lines.length)
    (h : skipContext lines chunk i = some j) : i ≤ j ∧ j ≤ lines.length := by
  unfold skipContext at h
  split at h
  · cases h
    exact ⟨Nat.le_refl _, hi⟩
  · obtain ⟨k, hk, rfl⟩ := Option.map_eq_some_iff.1 h
    obtain ⟨hstop, hstart, -⟩ := seekSequence_bounds (List.cons_ne_nil _ _) hk
    have := hstart rfl
    simp only [List.length_singleton] at hstop
    omega

theorem insertionIdx_cases (lines : List Str) :
    lines.getLast? = some [] ∧ insertionIdx lines + 1 = lines.length ∨
      lines.getLast? ≠ some [] ∧ insertionIdx lines = lines.length := by
  unfold insertionIdx
  by_cases hlast : lines.getLast? = some []
  · have hpos : 0 < lines.length := by
      cases lines with
      | nil => cases hlast
      | cons => simp
    refine .inl ⟨hlast, ?_⟩
    rw [if_pos hlast]
    omega
  · exact .inr ⟨hlast, if_neg hlast⟩

theorem insertionIdx_of_blank (h : lines.getLast? = some []) :
    insertionIdx lines + 1 = lines.length := by
  rcases insertionIdx_cases lines with ⟨-, hins⟩ | ⟨hlast, -⟩
  · exact hins
  · exact absurd h hlast

/-! ## The placements of a run -/

abbrev Placement := Sought × Replacement

structure Placed (lines : List Str) (p : Placement) : Prop where
  placement : p.1.placement lines = some p.2
  cursor_le : p.1.cursor ≤ lines.length

/-- Of two placements in the order of the chunks: the cursor is past what was found. -/
def Follows (p q : Placement) : Prop := p.1.chunk.oldLines ≠ [] → p.2.stop ≤ q.1.cursor

theorem Placed.cases {p : Placement} (hp : Placed lines p) :
    p.1.chunk.oldLines = [] ∧ p.2 = ⟨insertionIdx lines, 0, p.1.chunk.newLines⟩ ∨
      p.1.chunk.oldLines ≠ [] ∧ p.1.found lines = some p.2 ∧ Found lines p.1 p.2 := by
  have hplacement := hp.placement
  unfold Sought.placement at hplacement
  by_cases hold : p.1.chunk.oldLines = []
  · rw [if_pos (List.isEmpty_iff.2 hold)] at hplacement
    exact .inl ⟨hold, (Option.some.inj hplacement).symm⟩
  · rw [if_neg fun h => hold (List.isEmpty_iff.1 h)] at hplacement
    exact .inr ⟨hold, hplacement, found_spec hp.cursor_le hplacement⟩

theorem Placed.stop_le {p : Placement} (hp : Placed lines p) : p.2.stop ≤ lines.length := by
  rcases hp.cases with ⟨-, hr⟩ | ⟨-, -, hfound⟩
  · have := insertionIdx_cases lines
    rw [hr]
    show insertionIdx lines + 0 ≤ lines.length
    omega
  · exact hfound.stop_le

/-- What a run does with its first chunk. -/
theorem computeFrom_cons (h : computeFrom lines path lineIndex (chunk :: chunks) = .ok rs) :
    ∃ cursor r rs', skipContext lines chunk lineIndex = some cursor ∧
      Sought.placement lines ⟨chunk, cursor⟩ = some r ∧
      computeFrom lines path (Sought.nextCursor lines ⟨chunk, cursor⟩) chunks = .ok rs' ∧
      rs = r :: rs' := by
  unfold computeFrom at h
  cases hctx : skipContext lines chunk lineIndex with
  | none =>
    rw [hctx] at h
    cases h
  | some cursor =>
    rw [hctx] at h
    simp only [Sought.placement, Sought.nextCursor, Sought.found] at h ⊢
    by_cases hold : chunk.oldLines.isEmpty
    · rw [if_pos hold] at h
      obtain ⟨rs', hrs', rfl⟩ := Result.exists_of_map_eq_ok h
      refine ⟨cursor, _, rs', rfl, if_pos hold, ?_, rfl⟩
      rw [if_pos hold]
      exact hrs'
    · rw [if_neg hold] at h
      cases hfound : findOldLines lines chunk cursor with
      | none =>
        rw [hfound] at h
        cases h
      | some r =>
        rw [hfound] at h
        obtain ⟨rs', hrs', rfl⟩ := Result.exists_of_map_eq_ok h
        refine ⟨cursor, r, rs', rfl, (if_neg hold).trans hfound, ?_, rfl⟩
        rw [if_neg hold, hfound]
        exact hrs'

theorem Placed.nextCursor {p : Placement} (hp : Placed lines p) :
    p.1.cursor ≤ p.1.nextCursor lines ∧ p.1.nextCursor lines ≤ lines.length ∧
      (p.1.chunk.oldLines ≠ [] → p.2.stop = p.1.nextCursor lines) := by
  have hcursor := hp.cursor_le
  unfold Sought.nextCursor
  rcases hp.cases with ⟨hold, -⟩ | ⟨hold, hr, hfound⟩
  · rw [if_pos (List.isEmpty_iff.2 hold)]
    exact ⟨Nat.le_refl _, hcursor, fun h => absurd hold h⟩
  · rw [if_neg fun h => hold (List.isEmpty_iff.1 h), hr]
    exact ⟨hfound.cursor_le_stop, hfound.stop_le, fun _ => rfl⟩

/-- The replacements of a run are placements of the chunks it sought, in their order. -/
theorem exists_placements (hi : lineIndex ≤ lines.length)
    (h : computeFrom lines path lineIndex chunks = .ok rs) :
    ∃ ps : List Placement, ps.map Prod.fst = sought lines lineIndex chunks ∧
      ps.map Prod.snd = rs ∧ (∀ p ∈ ps, Placed lines p) ∧
      (∀ p ∈ ps, lineIndex ≤ p.1.cursor) ∧ ps.Pairwise Follows := by
  induction chunks generalizing lineIndex rs with
  | nil =>
    cases h
    exact ⟨[], rfl, rfl, by simp, by simp, List.Pairwise.nil⟩
  | cons chunk chunks ih =>
    obtain ⟨cursor, r, rs', hctx, hr, hrs', rfl⟩ := computeFrom_cons h
    obtain ⟨hle, hcursor⟩ := skipContext_bounds hi hctx
    have hp : Placed lines (⟨chunk, cursor⟩, r) := ⟨hr, hcursor⟩
    obtain ⟨hnext, hnextle, hstop⟩ := hp.nextCursor
    obtain ⟨ps, hfst, hsnd, hplaced, hge, hfollows⟩ := ih hnextle hrs'
    refine ⟨(⟨chunk, cursor⟩, r) :: ps, ?_, ?_, ?_, ?_, List.pairwise_cons.2 ⟨?_, hfollows⟩⟩
    · rw [List.map_cons, hfst, sought, hctx]
    · rw [List.map_cons, hsnd]
    · exact List.forall_mem_cons.2 ⟨hp, hplaced⟩
    · refine List.forall_mem_cons.2 ⟨hle, fun q hq => ?_⟩
      exact Nat.le_trans hle (Nat.le_trans hnext (hge q hq))
    · intro q hq hold
      rw [hstop hold]
      exact hge q hq

/-! ## Two placements -/

section Pair

variable {p q : Placement}

/-- A window of just the final blank line. -/
structure OnLastBlank (lines : List Str) (p : Placement) : Prop where
  blank : lines.getLast? = some []
  found : p.1.chunk.oldLines ≠ []
  start : p.2.start + 1 = lines.length
  len : p.2.len = 1

/-- A window of just the final blank line, then a pure addition. -/
def BlankPair (lines : List Str) (p q : Placement) : Prop :=
  OnLastBlank lines p ∧ q.1.chunk.oldLines = []

theorem additionClear_of_disjoint (hp : Placed lines p) (hq : Placed lines q)
    (h : p.2.Disjoint q.2) : AdditionClear lines p.1 q.1 := by
  intro hblank hpold hqold r hr hstop
  obtain ⟨hold, -⟩ | ⟨-, hfound, -⟩ := hp.cases
  · exact absurd hold hpold
  obtain ⟨-, hq2⟩ | ⟨hold, -⟩ := hq.cases
  · rw [hfound] at hr
    cases hr
    have hout := h.start_outside
    have hins := insertionIdx_of_blank hblank
    have hq1 : q.2.start = insertionIdx lines := by rw [hq2]
    omega
  · exact absurd hqold hold

theorem eofClear_of_disjoint (hp : Placed lines p) (hq : Placed lines q)
    (h : p.2.Disjoint q.2) : EofClear lines p.1 q.1 := by
  intro hpold hqold heof r hr e he
  obtain ⟨hold, -⟩ | ⟨-, hpfound, -⟩ := hp.cases
  · exact absurd hold hpold
  obtain ⟨hold, -⟩ | ⟨-, hqfound, hqspec⟩ := hq.cases
  · exact absurd hold hqold
  rw [hpfound] at hr
  rw [hqfound] at he
  cases hr
  cases he
  have hstop := hp.stop_le
  have hend := hqspec.eof heof
  obtain ⟨h1, h2, h3⟩ := h
  simp only [Splice.Edit.stop] at *
  omega

/-- Placed clear of each other, windows are apart, but for a window of the final blank line
and a later addition before that line. -/
theorem compatible_or_blankPair (hp : Placed lines p) (hq : Placed lines q) (hpq : Follows p q)
    (heof : EofClear lines p.1 q.1) (hadd : AdditionClear lines p.1 q.1)
    (hadd' : AdditionClear lines q.1 p.1) :
    p.2.Compatible q.2 ∨ BlankPair lines p q := by
  have hpstop := hp.stop_le
  have hqstop := hq.stop_le
  have hps := p.2.start_le_stop
  have hqs := q.2.start_le_stop
  have hins := insertionIdx_cases lines
  unfold Splice.Edit.Compatible
  obtain ⟨hpold, hpr⟩ | ⟨hpold, hpfound, hpspec⟩ := hp.cases
  · have hp1 : p.2.start = insertionIdx lines := by rw [hpr]
    have hp2 : p.2.stop = insertionIdx lines := by rw [hpr]; rfl
    obtain ⟨hqold, hqr⟩ | ⟨hqold, hqfound, hqspec⟩ := hq.cases
    · have hq1 : q.2.start = insertionIdx lines := by rw [hqr]
      left
      omega
    · have hclear := fun hblank => hadd' hblank hqold hpold _ hqfound
      left
      rcases hins with ⟨hblank, hins⟩ | ⟨-, hins⟩
      · have := hclear hblank
        omega
      · omega
  · obtain ⟨hqold, hqr⟩ | ⟨hqold, hqfound, hqspec⟩ := hq.cases
    · have hq1 : q.2.start = insertionIdx lines := by rw [hqr]
      have hq2 : q.2.stop = insertionIdx lines := by rw [hqr]; rfl
      rcases hins with ⟨hblank, hins⟩ | ⟨-, hins⟩
      · have := hadd hblank hpold hqold _ hpfound
        by_cases hpair : p.2.start + 1 = lines.length ∧ p.2.stop = lines.length
        · right
          refine ⟨⟨hblank, hpold, hpair.1, ?_⟩, hqold⟩
          simp only [Splice.Edit.stop] at hpair
          omega
        · left
          omega
      · left
        omega
    · left
      have hcursor := hpq hpold
      rcases hqspec.start with hstart | ⟨hflag, hlen⟩
      · omega
      · have := heof hpold hqold hflag _ hpfound _ hqfound
        have := hqspec.eof hflag hlen
        simp only [Splice.Edit.stop] at *
        omega

theorem BlankPair.disjoint (hp : Placed lines p) (hq : Placed lines q)
    (h : BlankPair lines p q) : p.2.Disjoint q.2 := by
  obtain ⟨-, hqr⟩ | ⟨hqold, -⟩ := hq.cases
  · have hins := insertionIdx_of_blank h.1.blank
    have hstop := hp.stop_le
    have hstart := h.1.start
    have hlen := h.1.len
    have hq1 : q.2.start = insertionIdx lines := by rw [hqr]
    have hq2 : q.2.len = 0 := by rw [hqr]
    refine ⟨?_, ?_, .inr (.inl hq2)⟩
    · omega
    · simp only [Splice.Edit.stop]
      omega
  · exact absurd h.2 hqold

theorem disjoint_iff (hp : Placed lines p) (hq : Placed lines q) (hpq : Follows p q) :
    p.2.Disjoint q.2 ↔
      EofClear lines p.1 q.1 ∧ AdditionClear lines p.1 q.1 ∧ AdditionClear lines q.1 p.1 := by
  constructor
  · intro h
    exact ⟨eofClear_of_disjoint hp hq h, additionClear_of_disjoint hp hq h,
      additionClear_of_disjoint hq hp h.symm⟩
  · rintro ⟨heof, hadd, hadd'⟩
    rcases compatible_or_blankPair hp hq hpq heof hadd hadd' with h | h
    · exact h.disjoint
    · exact h.disjoint hp hq

end Pair

/-! ## All at once -/

/-- Sorted replacements that are in bounds, pairwise disjoint, and made all at once. -/
structure ReplacesAll (lines : List Str) (rs : List Replacement) : Prop where
  sorted : rs.Pairwise fun a b => a.start ≤ b.start
  inBounds : ∀ r ∈ rs, r.stop ≤ lines.length
  disjoint : rs.Pairwise Splice.Edit.Disjoint
  splices : applyReplacements lines rs = some (splice rs lines)

section Run

variable {ps A B : List Placement} {p : Placement}

/-- A run of placements whose windows are disjoint. -/
structure Apart (lines : List Str) (ps : List Placement) : Prop where
  placed : ∀ p ∈ ps, Placed lines p
  follows : ps.Pairwise Follows
  disjoint : ps.Pairwise fun p q => p.2.Disjoint q.2

theorem Apart.compatible_or_blankPair (h : Apart lines ps) :
    ps.Pairwise fun p q => p.2.Compatible q.2 ∨ BlankPair lines p q := by
  refine ((h.follows.and h.disjoint).imp_of_mem ?_)
  rintro p q hp hq ⟨hfollows, hdisjoint⟩
  obtain ⟨heof, hadd, hadd'⟩ :=
    (disjoint_iff (h.placed p hp) (h.placed q hq) hfollows).1 hdisjoint
  exact ApplyPatch.compatible_or_blankPair (h.placed p hp) (h.placed q hq) hfollows heof hadd hadd'

theorem newAt_eq_blank_iff {edits : List Replacement} {k : Nat} :
    (∀ y ∈ newAt edits k, y = ([] : Str)) ↔
      ∀ r ∈ edits, r.start = k → ∀ y ∈ r.new, y = [] := by
  simp only [newAt, List.mem_flatMap, List.mem_filter, decide_eq_true_eq]
  constructor
  · intro h r hr hk y hy
    exact h y ⟨r, ⟨hr, hk⟩, hy⟩
  · rintro h y ⟨r, ⟨hr, hk⟩, hy⟩
    exact h r hr hk y hy

/-- Next to a window of the final blank line, others lie before it or are empty at the end. -/
theorem OnLastBlank.outside {q : Placement} (hp : OnLastBlank lines p) (hq : Placed lines q)
    (h : q.2.Disjoint p.2) : q.2.stop < lines.length ∨ q.2.len = 0 ∧ q.2.start = lines.length := by
  have hstart := hp.start
  have hlen := hp.len
  have hstop := hq.stop_le
  obtain ⟨h1, h2, h3⟩ := h
  simp only [Splice.Edit.stop] at *
  omega

theorem Apart.outside {q : Placement} (h : Apart lines (A ++ p :: B)) (hp : OnLastBlank lines p)
    (hq : q ∈ A ++ B) : q.2.stop < lines.length ∨ q.2.len = 0 ∧ q.2.start = lines.length := by
  obtain ⟨-, hB, hA⟩ := List.pairwise_append.1 h.disjoint
  obtain ⟨hB, -⟩ := List.pairwise_cons.1 hB
  rcases List.mem_append.1 hq with hq | hq
  · exact hp.outside (h.placed q (List.mem_append_left _ hq)) (hA q hq p List.mem_cons_self)
  · have hmem : q ∈ A ++ p :: B := List.mem_append_right _ (List.mem_cons_of_mem _ hq)
    exact hp.outside (h.placed q hmem) (hB q hq).symm

theorem Apart.compatible_of_onLastBlank (h : Apart lines (A ++ p :: B))
    (hp : OnLastBlank lines p) :
    (A.map Prod.snd ++ B.map Prod.snd).Pairwise Splice.Edit.Compatible := by
  rw [← List.map_append, List.pairwise_map]
  have hsub : (A ++ B).Sublist (A ++ p :: B) :=
    List.Sublist.append_left (List.sublist_cons_self p B) A
  refine (h.compatible_or_blankPair.sublist hsub).imp_of_mem fun {q q'} hq _ hqq' => ?_
  rcases hqq' with hqq' | ⟨hq', -⟩
  · exact hqq'
  -- the pair of a window on the blank line is not outside it
  · have hstart := hq'.start
    have hlen := hq'.len
    have hout := h.outside hp hq
    simp only [Splice.Edit.stop] at hout
    omega

/-- What goes before the final blank line are the later pure additions. -/
theorem Apart.blank_iff_of_onLastBlank {k : Nat} (h : Apart lines (A ++ p :: B))
    (hp : OnLastBlank lines p) (hk : k + 1 = lines.length) :
    (∀ r ∈ sortByStart ((A.map Prod.snd).filter (p.2.start < ·.start) ++
        (B.map Prod.snd).filter (p.2.start ≤ ·.start)), r.start = k → ∀ y ∈ r.new, y = []) ↔
      ∀ q ∈ B, q.1.chunk.oldLines = [] → ∀ y ∈ q.1.chunk.newLines, y = [] := by
  have hstart := hp.start
  have hins := insertionIdx_of_blank hp.blank
  have hfollows : ∀ q ∈ B, Follows p q :=
    (List.pairwise_cons.1 (List.pairwise_append.1 h.follows).2.1).1
  simp only [mem_sortByStart, List.mem_append, List.mem_filter, List.mem_map, decide_eq_true_eq]
  constructor
  · intro hall q hq hold y hy
    obtain ⟨-, hq2⟩ | ⟨hold', -⟩ := (h.placed q (by simp [hq])).cases
    · have hq1 : q.2.start = insertionIdx lines := by rw [hq2]
      refine hall q.2 (.inr ⟨⟨q, hq, rfl⟩, by omega⟩) (by omega) y ?_
      rw [hq2]
      exact hy
    · exact absurd hold hold'
  · intro hall r hr hrk y hy
    rcases hr with ⟨-, hlt⟩ | ⟨⟨q, hq, rfl⟩, -⟩
    · omega
    obtain ⟨hold, hq2⟩ | ⟨-, -, hfound⟩ := (h.placed q (by simp [hq])).cases
    · rw [hq2] at hy
      exact hall q hq hold y hy
    -- found past the window, or at the end
    · have hcursor := hfollows q hq hp.found
      have hlen := hp.len
      have hout := h.outside hp (List.mem_append_right A hq)
      have heof := hfound.eof
      have hbegin := hfound.start
      simp only [Splice.Edit.stop] at *
      omega

theorem splices_iff_of_onLastBlank (h : Apart lines (A ++ p :: B)) (hp : OnLastBlank lines p) :
    applyDesc (sortByStart ((A ++ p :: B).map Prod.snd)) lines =
        splice (sortByStart ((A ++ p :: B).map Prod.snd)) lines ↔
      ∀ q ∈ B, q.1.chunk.oldLines = [] → ∀ y ∈ q.1.chunk.newLines, y = [] := by
  have hcompat := h.compatible_of_onLastBlank hp
  have hout : ∀ q ∈ A ++ B, q.2.stop < lines.length ∨ q.2.len = 0 ∧ q.2.start = lines.length :=
    fun q hq => h.outside hp hq
  obtain ⟨pre, rfl⟩ := List.getLast?_eq_some_iff.1 hp.blank
  have hstart := hp.start
  have hlast : (pre ++ [([] : Str)]).length = pre.length + 1 := by simp
  rw [List.map_append, List.map_cons, sortByStart_append_cons,
    applyDesc_eq_splice_iff_of_last (chain_sortByStart (hcompat.sublist ?_)) ?_ (by omega) hp.len
      (chain_sortByStart (hcompat.sublist ?_)) ?_,
    newAt_eq_blank_iff]
  · exact h.blank_iff_of_onLastBlank hp hlast.symm
  · exact List.Sublist.append List.filter_sublist List.filter_sublist
  · intro f hf
    simp only [mem_sortByStart, List.mem_append, List.mem_filter, List.mem_map,
      decide_eq_true_eq] at hf
    have hfs := f.start_le_stop
    rcases hf with ⟨⟨q, hq, rfl⟩, hle⟩ | ⟨⟨q, hq, rfl⟩, hlt⟩
    · have hbefore := hout q (List.mem_append_left _ hq)
      omega
    · have hbefore := hout q (List.mem_append_right _ hq)
      omega
  · exact List.Sublist.append List.filter_sublist List.filter_sublist
  · intro r hr
    simp only [mem_sortByStart, List.mem_append, List.mem_filter, List.mem_map,
      decide_eq_true_eq] at hr
    simp only [Splice.Edit.stop] at hout
    rcases hr with ⟨⟨q, hq, rfl⟩, hle⟩ | ⟨⟨q, hq, rfl⟩, hlt⟩
    · have hafter := hout q (List.mem_append_left _ hq)
      omega
    · have hafter := hout q (List.mem_append_right _ hq)
      omega

theorem OnLastBlank.not_disjoint {q : Placement} (hp : OnLastBlank lines p)
    (hq : OnLastBlank lines q) : ¬ p.2.Disjoint q.2 := by
  rintro ⟨-, -, hshared⟩
  have hpstart := hp.start
  have hqstart := hq.start
  have hplen := hp.len
  have hqlen := hq.len
  simp only [Splice.Edit.stop] at hshared
  omega

theorem blankClear_of_not {q : Sought} (hp : Placed lines p) (h : ¬ OnLastBlank lines p) :
    BlankClear lines p.1 q := by
  intro hblank hold _ r hr hstart hlen
  obtain ⟨hold', -⟩ | ⟨-, hfound, -⟩ := hp.cases
  · exact absurd hold' hold
  · rw [hfound] at hr
    cases hr
    exact absurd ⟨hblank, hold, hstart, hlen⟩ h

theorem Apart.blankClear_iff_of_onLastBlank (h : Apart lines (A ++ p :: B))
    (hp : OnLastBlank lines p) :
    (A ++ p :: B).Pairwise (fun p q => BlankClear lines p.1 q.1) ↔
      ∀ q ∈ B, q.1.chunk.oldLines = [] → ∀ y ∈ q.1.chunk.newLines, y = [] := by
  have hplaced := h.placed
  obtain ⟨-, hB, hA⟩ := List.pairwise_append.1 h.disjoint
  obtain ⟨hB, -⟩ := List.pairwise_cons.1 hB
  constructor
  · intro hall q hq hold
    have hclear := (List.pairwise_cons.1 (List.pairwise_append.1 hall).2.1).1 q hq
    obtain ⟨hold', -⟩ | ⟨-, hfound, -⟩ := (hplaced p (by simp)).cases
    · exact absurd hold' hp.found
    · exact hclear hp.blank hp.found hold p.2 hfound hp.start hp.len
  -- the window of the final blank line is the only one
  · intro hall
    have hclearA : ∀ q ∈ A, ∀ q', BlankClear lines q.1 q' := fun q hq _ =>
      blankClear_of_not (hplaced q (by simp [hq])) fun hq' =>
        hq'.not_disjoint hp (hA q hq p List.mem_cons_self)
    have hclearB : ∀ q ∈ B, ∀ q', BlankClear lines q.1 q' := fun q hq _ =>
      blankClear_of_not (hplaced q (by simp [hq])) fun hq' => hp.not_disjoint hq' (hB q hq)
    refine List.pairwise_append.2 ⟨?_, List.pairwise_cons.2 ⟨?_, ?_⟩, ?_⟩
    · exact List.pairwise_of_forall_mem_list fun q hq q' _ => hclearA q hq q'.1
    · intro q hq _ _ hold _ _ _ _
      exact hall q hq hold
    · exact List.pairwise_of_forall_mem_list fun q hq q' _ => hclearB q hq q'.1
    · exact fun q hq q' _ => hclearA q hq q'.1

/-- One by one, the last first, is all at once exactly if no addition is lost to a window of
the final blank line. -/
theorem Apart.splices_iff (h : Apart lines ps) :
    applyDesc (sortByStart (ps.map Prod.snd)) lines = splice (sortByStart (ps.map Prod.snd)) lines ↔
      ps.Pairwise fun p q => BlankClear lines p.1 q.1 := by
  by_cases hex : ∃ p ∈ ps, OnLastBlank lines p
  · obtain ⟨p, hmem, hp⟩ := hex
    obtain ⟨A, B, rfl⟩ := List.append_of_mem hmem
    rw [splices_iff_of_onLastBlank h hp, h.blankClear_iff_of_onLastBlank hp]
  · have hnot : ∀ p ∈ ps, ¬ OnLastBlank lines p := fun p hp hp' => hex ⟨p, hp, hp'⟩
    have hcompat : (ps.map Prod.snd).Pairwise Splice.Edit.Compatible := by
      rw [List.pairwise_map]
      refine h.compatible_or_blankPair.imp_of_mem fun {p q} hp _ hpq => ?_
      rcases hpq with hpq | ⟨hp', -⟩
      · exact hpq
      · exact absurd hp' (hnot p hp)
    refine iff_of_true (applyDesc_eq_splice (chain_sortByStart hcompat) fun r hr => ?_) ?_
    · obtain ⟨p, hp, rfl⟩ := List.mem_map.1 (mem_sortByStart.1 hr)
      exact (h.placed p hp).stop_le
    · exact List.pairwise_of_forall_mem_list fun p hp q _ =>
        blankClear_of_not (h.placed p hp) (hnot p hp)

theorem disjoint_run_iff (hplaced : ∀ p ∈ ps, Placed lines p) (hfollows : ps.Pairwise Follows) :
    (ps.Pairwise fun p q => p.2.Disjoint q.2) ↔
      (ps.Pairwise fun p q => EofClear lines p.1 q.1) ∧
        ps.Pairwise fun p q => AdditionClear lines p.1 q.1 ∧ AdditionClear lines q.1 p.1 := by
  rw [← List.pairwise_and_iff]
  constructor
  · intro h
    refine (hfollows.and h).imp_of_mem ?_
    rintro p q hp hq ⟨hpq, hdisj⟩
    exact (disjoint_iff (hplaced p hp) (hplaced q hq) hpq).1 hdisj
  · intro h
    refine (hfollows.and h).imp_of_mem ?_
    rintro p q hp hq ⟨hpq, hclear⟩
    exact (disjoint_iff (hplaced p hp) (hplaced q hq) hpq).2 hclear

end Run

/-! ## The replacements of a file -/

theorem computeReplacements_spec (h : computeReplacements lines path chunks = .ok rs) :
    ∃ ps : List Placement, ps.map Prod.fst = sought lines 0 chunks ∧
      rs = sortByStart (ps.map Prod.snd) ∧ (∀ p ∈ ps, Placed lines p) ∧ ps.Pairwise Follows := by
  obtain ⟨rs, hrs, rfl⟩ := Result.exists_of_map_eq_ok h
  obtain ⟨ps, hfst, rfl, hplaced, -, hfollows⟩ := exists_placements (Nat.zero_le _) hrs
  exact ⟨ps, hfst, rfl, hplaced, hfollows⟩

theorem computeReplacements_sorted (h : computeReplacements lines path chunks = .ok rs) :
    rs.Pairwise fun a b => a.start ≤ b.start := by
  obtain ⟨ps, -, rfl, -, -⟩ := computeReplacements_spec h
  exact pairwise_sortByStart _

theorem computeReplacements_inBounds (h : computeReplacements lines path chunks = .ok rs) :
    ∀ r ∈ rs, r.stop ≤ lines.length := by
  obtain ⟨ps, -, rfl, hplaced, -⟩ := computeReplacements_spec h
  intro r hr
  obtain ⟨p, hp, rfl⟩ := List.mem_map.1 (mem_sortByStart.1 hr)
  exact (hplaced p hp).stop_le

/-- Applied to the replacements of a run, an insertion never panics. -/
theorem exists_applyReplacements (h : computeReplacements lines path chunks = .ok rs) :
    ∃ newLines, applyReplacements lines rs = some newLines := by
  refine ⟨_, applyReplacements_eq (computeReplacements_sorted h) fun r hr => ?_⟩
  exact Nat.le_trans r.start_le_stop (computeReplacements_inBounds h r hr)

/-- Replacing the last line. -/
theorem exists_applyReplacements_lastLine :
    ∃ newLines, applyReplacements (["a", "b"] : List Str) [⟨1, 1, ["y"]⟩] = some newLines :=
  exists_applyReplacements (show computeReplacements (["a", "b"] : List Str) ("f" : Str)
    [⟨none, ["b"], ["y"], false⟩] = .ok [⟨1, 1, ["y"]⟩] from rfl)

/-- The replacements are disjoint and made all at once exactly if the chunks are placed apart. -/
theorem replacesAll_iff (h : computeReplacements lines path chunks = .ok rs) :
    ReplacesAll lines rs ↔ PlacedApart lines chunks := by
  have hsorted := computeReplacements_sorted h
  have hbounds := computeReplacements_inBounds h
  have happly := applyReplacements_eq hsorted fun r hr =>
    Nat.le_trans r.start_le_stop (hbounds r hr)
  obtain ⟨ps, hfst, rfl, hplaced, hfollows⟩ := computeReplacements_spec h
  have hdisjoint : (sortByStart (ps.map Prod.snd)).Pairwise Splice.Edit.Disjoint ↔
      ps.Pairwise fun p q => p.2.Disjoint q.2 := by
    rw [(perm_sortByStart _).pairwise_iff fun h => h.symm, List.pairwise_map]
  constructor
  · rintro ⟨-, -, hdisj, hsplice⟩
    have hdisj := hdisjoint.1 hdisj
    have hblank := (Apart.splices_iff ⟨hplaced, hfollows, hdisj⟩).1
      (Option.some.inj (happly.symm.trans hsplice))
    obtain ⟨heof, hadd⟩ := (disjoint_run_iff hplaced hfollows).1 hdisj
    refine ⟨?_, ?_, ?_⟩
    · rw [← hfst, List.pairwise_map]
      exact heof
    · rw [← hfst, List.pairwise_map]
      exact hadd
    · rw [← hfst, List.pairwise_map]
      exact hblank
  · rintro ⟨heof, hadd, hblank⟩
    rw [← hfst, List.pairwise_map] at heof hadd hblank
    have hdisj := (disjoint_run_iff hplaced hfollows).2 ⟨heof, hadd⟩
    refine ⟨hsorted, hbounds, hdisjoint.2 hdisj, ?_⟩
    rw [happly, (Apart.splices_iff ⟨hplaced, hfollows, hdisj⟩).2 hblank]

/-- A pure addition, then a chunk of the lines before. -/
theorem replacesAll_additionThenRemoval :
    ReplacesAll (["line1", "line2", "line3"] : List Str)
      [⟨0, 3, ["line1", "line2-replacement"]⟩, ⟨3, 0, ["after-context", "second-line"]⟩] := by
  have hrun : computeReplacements (["line1", "line2", "line3"] : List Str) ("panic.txt" : Str)
      [⟨none, [], ["after-context", "second-line"], false⟩,
        ⟨none, ["line1", "line2", "line3"], ["line1", "line2-replacement"], false⟩] =
      .ok [⟨0, 3, ["line1", "line2-replacement"]⟩, ⟨3, 0, ["after-context", "second-line"]⟩] := rfl
  exact (replacesAll_iff hrun).2 ⟨by decide, by decide, by decide⟩

/-- Sought at the end of the file, a chunk is found on the line an earlier chunk replaces, and
its own new line is lost. -/
theorem not_replacesAll_endOfFile :
    let lines : List Str := ["a", "b"]
    let chunks : List UpdateFileChunk :=
      [⟨none, ["b"], ["x"], false⟩, ⟨none, ["b"], ["y"], true⟩]
    let rs : List Replacement := [⟨1, 1, ["x"]⟩, ⟨1, 1, ["y"]⟩]
    computeReplacements lines ("f" : Str) chunks = .ok rs ∧
      applyReplacements lines rs = some (["a", "x"] : List Str) ∧ ¬ ReplacesAll lines rs := by
  refine ⟨rfl, rfl, fun h => ?_⟩
  have hdisj := (List.pairwise_cons.1 h.disjoint).1 _ List.mem_cons_self
  exact absurd hdisj.none_shared (by decide)

end SheriMl.ApplyPatch
