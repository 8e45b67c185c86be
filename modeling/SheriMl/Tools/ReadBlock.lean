import SheriMl.Lib.Window
import SheriMl.Tools.ReadFile

/-!
# What the indentation mode reads

The cursors take a window of the lines (`Spans`), whatever stops them, and each iteration of
their loop takes a line, so that it ends. The block is a window without blank lines at its ends
(`IsBlock`). Before the loop there are two computations that the arguments alone decide: how much
narrower the indentation may be, and the buffer for as many lines as were asked for.
-/

namespace SheriMl.Tools

open Machine Window

variable {m : Build} {options : IndentationArgs} {records : List LineRecord}
  {anchor minIndent finalLimit fuel lo hi k : Nat} {s : Cursors}

/-! ## Indentation -/

/-- The indentation of the last line up to the `k`-th that is not blank. -/
def effectiveIndent (records : List LineRecord) (k : Nat) : Nat :=
  ((((records.take (k + 1)).filter fun r => !r.isBlank).getLast?).map LineRecord.indent).getD 0

theorem getElem?_effectiveIndentsFrom {previous : Nat} (hk : k < records.length) :
    (effectiveIndentsFrom previous records)[k]? =
      some (((((records.take (k + 1)).filter fun r => !r.isBlank).getLast?).map
        LineRecord.indent).getD previous) := by
  induction records generalizing previous k with
  | nil => exact absurd hk (Nat.not_lt_zero k)
  | cons r records ih =>
    rw [effectiveIndentsFrom, List.take_succ_cons, List.filter_cons]
    cases k with
    | zero => cases r.isBlank <;> rfl
    | succ k =>
      have hk' : k < records.length := Nat.lt_of_succ_lt_succ hk
      cases r.isBlank with
      | true => exact ih hk'
      | false =>
        rw [if_neg Bool.false_ne_true, List.getElem?_cons_succ, ih hk', Bool.not_false,
          if_pos rfl, List.getLast?_cons]
        cases ((records.take (k + 1)).filter fun r => !r.isBlank).getLast? <;> rfl

theorem index_computeEffectiveIndents (hk : k < records.length) :
    (index (computeEffectiveIndents records) k : Computes Nat) =
      .ok (effectiveIndent records k) :=
  index_eq_ok (getElem?_effectiveIndentsFrom hk)

theorem length_readUntilNewlines_le (content : List UInt8) :
    (readUntilNewlines content).length ≤ content.length := by
  induction content with
  | nil => exact Nat.le_refl 0
  | cons b rest ih =>
    unfold readUntilNewlines
    split
    · exact Nat.succ_le_succ ih
    · split
      next => exact Nat.succ_le_succ (Nat.zero_le _)
      next buffer buffers heq =>
        rw [heq] at ih
        exact Nat.le_succ_of_le ih

theorem length_collectFileLines_le (lossy : List UInt8 → Str) (content : List UInt8) :
    (collectFileLines lossy content).length ≤ content.length := by
  rw [collectFileLines, List.length_map, List.length_zipIdx]
  exact length_readUntilNewlines_le content

/-! ## The cursors -/

/-- Around the anchor, the cursors have taken the lines from `lo` on, up to `hi`. Each is at the
next line or has stopped, and counts no more lines than it has taken. -/
structure Spans (m : Build) (records : List LineRecord) (anchor minIndent : Nat) (s : Cursors)
    (lo hi : Nat) : Prop where
  lo_le : lo ≤ anchor
  lt_hi : anchor < hi
  hi_le : hi ≤ records.length
  out_eq : s.out = window records lo hi
  indented : ∀ k, lo ≤ k → k < hi → k ≠ anchor → minIndent ≤ effectiveIndent records k
  above : s.i = -1 ∨ s.i = (lo : Int) - 1
  below : s.j = records.length ∨ s.j = hi
  iCounter : m.overflowChecks = true → 0 ≤ s.i →
    0 ≤ s.iCounterMinIndent ∧ s.iCounterMinIndent ≤ anchor - lo
  jCounter : m.overflowChecks = true → s.j < records.length →
    0 ≤ s.jCounterMinIndent ∧ s.jCounterMinIndent ≤ hi - anchor

theorem Spans.length_out (h : Spans m records anchor minIndent s lo hi) :
    s.out.length = hi - lo := by
  rw [h.out_eq, length_window h.hi_le]

/-- They have taken a window, no longer than the limit. -/
def HasWindow (m : Build) (records : List LineRecord) (anchor minIndent finalLimit : Nat)
    (s : Cursors) : Prop :=
  ∃ lo hi, Spans m records anchor minIndent s lo hi ∧ s.out.length ≤ max 1 finalLimit

/-- An overflow of a counter of lines: there are more than an `i32` counts. -/
def CounterOverflows (m : Build) (records : List LineRecord) (e : Stop FunctionCallError) : Prop :=
  e = .crash (.overflow .i32) ∧ m.overflowChecks = true ∧ IntTy.i32.max < records.length

/-- To count one more of the lines overflows only with too many of them. -/
theorem count_cases (records : List LineRecord) {counter : Int} {taken : Nat}
    (htaken : taken < records.length)
    (hcounter : m.overflowChecks = true → 0 ≤ counter ∧ counter ≤ taken) :
    (∃ e, (m.i32 (counter + 1) : Computes Int) = .error e ∧ CounterOverflows m records e) ∨
      ∃ c, (m.i32 (counter + 1) : Computes Int) = .ok c ∧
        (m.overflowChecks = true → 0 ≤ c ∧ c ≤ taken + 1) := by
  rcases m.i32_cases FunctionCallError (counter + 1) with
    ⟨c, hok, hc⟩ | ⟨herror, hchecks, hout⟩
  · refine .inr ⟨c, hok, fun hchecks => ?_⟩
    have hexact := hc hchecks
    have hbound := hcounter hchecks
    omega
  · refine .inl ⟨_, herror, rfl, hchecks, ?_⟩
    have hbound := hcounter hchecks
    have hmin : IntTy.i32.min = -2 ^ 31 := rfl
    omega

theorem Spans.cons {i iCounterMinIndent : Int} {record : LineRecord}
    (h : Spans m records anchor minIndent s (lo + 1) hi) (hrecord : records[lo]? = some record)
    (hindent : minIndent ≤ effectiveIndent records lo) (hi' : i = (lo : Int) - 1)
    (hcounter : m.overflowChecks = true →
      0 ≤ iCounterMinIndent ∧ iCounterMinIndent ≤ anchor - lo) :
    Spans m records anchor minIndent { s with i, iCounterMinIndent, out := record :: s.out }
      lo hi := by
  have hlo := h.lo_le
  have hanchor := h.lt_hi
  refine ⟨by omega, hanchor, h.hi_le, ?_, fun k hk hk' hne => ?_, .inr hi', h.below,
    fun hchecks _ => hcounter hchecks, h.jCounter⟩
  · rw [window_eq_cons hrecord (by omega), h.out_eq]
  · rcases Nat.eq_or_lt_of_le hk with rfl | hlt
    · exact hindent
    · exact h.indented k hlt hk' hne

/-- And with the one below. -/
theorem Spans.concat {j : Nat} {jCounterMinIndent : Int} {record : LineRecord}
    (h : Spans m records anchor minIndent s lo hi) (hrecord : records[hi]? = some record)
    (hindent : minIndent ≤ effectiveIndent records hi) (hj : j = hi + 1)
    (hcounter : m.overflowChecks = true →
      0 ≤ jCounterMinIndent ∧ jCounterMinIndent ≤ (hi + 1 : Nat) - anchor) :
    Spans m records anchor minIndent { s with j, jCounterMinIndent, out := s.out ++ [record] }
      lo (hi + 1) := by
  have hlo := h.lo_le
  have hanchor := h.lt_hi
  obtain ⟨hlength, -⟩ := List.getElem?_eq_some_iff.1 hrecord
  refine ⟨hlo, by omega, hlength, ?_, fun k hk hk' hne => ?_, h.above, .inr hj, h.iCounter,
    fun hchecks _ => hcounter hchecks⟩
  · rw [window_succ hrecord (by omega), h.out_eq]
  · rcases Nat.eq_or_lt_of_le (Nat.le_of_lt_succ hk') with rfl | hlt
    · exact hindent
    · exact h.indented k hk hlt hne

/-- The upper cursor stops. -/
theorem Spans.stopAbove (h : Spans m records anchor minIndent s lo hi) :
    Spans m records anchor minIndent { s with i := -1 } lo hi :=
  { h with
    above := .inl rfl
    iCounter := fun _ (hstopped : (0 : Int) ≤ -1) => absurd hstopped (by decide) }

/-- The lower cursor stops. -/
theorem Spans.stopBelow (jCounterMinIndent : Int)
    (h : Spans m records anchor minIndent s lo hi) :
    Spans m records anchor minIndent { s with j := records.length, jCounterMinIndent } lo hi :=
  { h with
    below := .inl rfl
    jCounter := fun _ hj => absurd hj (Nat.lt_irrefl _) }

section Steps

variable {record : LineRecord} (hsize : (records.length : Int) ≤ IntTy.isize.max)
include hsize

theorem takeAbove_cases (options : IndentationArgs)
    (h : Spans m records anchor minIndent s (lo + 1) hi)
    (hnext : s.i = (lo : Int)) (hrecord : records[lo]? = some record)
    (hindent : minIndent ≤ effectiveIndent records lo) :
    (∃ e, takeAbove m options minIndent record (effectiveIndent records lo) s = .error e ∧
        CounterOverflows m records e) ∨
      ∃ s' n lo', takeAbove m options minIndent record (effectiveIndent records lo) s =
          .ok (s', n) ∧
        Spans m records anchor minIndent s' lo' hi ∧ s'.out.length = s.out.length + n ∧
        n ≤ 1 := by
  have hlo := h.lo_le
  have hanchor := h.lt_hi
  have hhi := h.hi_le
  have hmax : IntTy.isize.max = 2 ^ 63 - 1 := rfl
  have hmin : IntTy.isize.min = -2 ^ 63 := rfl
  have hcounter : m.overflowChecks = true →
      0 ≤ s.iCounterMinIndent ∧ s.iCounterMinIndent ≤ (anchor - (lo + 1) : Nat) := by
    intro hchecks
    have hcounted := h.iCounter hchecks (by omega)
    omega
  unfold takeAbove
  rw [Build.isize_eq_ok (by omega) (by omega), ok_bind]
  split
  next hat =>
    dsimp only
    split
    next htake =>
      rcases count_cases records (by omega) hcounter with
        ⟨e, herror, hoverflow⟩ | ⟨c, hok, hc⟩
      · rw [herror]
        exact .inl ⟨e, rfl, hoverflow⟩
      · rw [hok]
        refine .inr ⟨_, 1, lo, rfl, h.cons hrecord hindent (by omega) fun hchecks => ?_, rfl,
          Nat.le_refl 1⟩
        have hcounted := hc hchecks
        omega
    next => exact .inr ⟨_, 0, lo + 1, rfl, h.stopAbove, rfl, Nat.zero_le 1⟩
  next =>
    refine .inr ⟨_, 1, lo, rfl, h.cons hrecord hindent (by omega) fun hchecks => ?_, rfl,
      Nat.le_refl 1⟩
    have hcounted := hcounter hchecks
    omega

/-- The upper cursor takes the line above, or none. -/
theorem up_cases (options : IndentationArgs) (h : Spans m records anchor minIndent s lo hi)
    (hroom : s.out.length < finalLimit) :
    (∃ e, up m options records (computeEffectiveIndents records) minIndent finalLimit s =
        .error e ∧ CounterOverflows m records e) ∨
      ∃ s' n lo', up m options records (computeEffectiveIndents records) minIndent finalLimit s =
          .ok (s', n, decide (finalLimit ≤ s'.out.length)) ∧
        Spans m records anchor minIndent s' lo' hi ∧ s'.out.length = s.out.length + n ∧
        n ≤ 1 := by
  have hlo := h.lo_le
  have hanchor := h.lt_hi
  have hhi := h.hi_le
  have hopen : decide (finalLimit ≤ s.out.length) = false := decide_eq_false (by omega)
  unfold up
  by_cases hi : 0 ≤ s.i
  · rw [if_pos hi]
    obtain ⟨lo, rfl, hnext⟩ : ∃ l, lo = l + 1 ∧ s.i = (l : Int) := by
      rcases h.above with hstopped | hnext
      · omega
      · exact ⟨lo - 1, by omega, by omega⟩
    have hcast : asUsize s.i = lo := by
      have husize : IntTy.usize.max = 2 ^ 64 - 1 := rfl
      have hisize : IntTy.isize.max = 2 ^ 63 - 1 := rfl
      rw [hnext]
      exact asUsize_natCast (by omega)
    have hrecord : records[lo]? = some records[lo] := List.getElem?_eq_getElem (by omega)
    rw [hcast, index_computeEffectiveIndents (by omega), ok_bind, index_eq_ok hrecord, ok_bind]
    split
    next hindent =>
      rcases takeAbove_cases hsize options h hnext hrecord hindent with
        ⟨e, herror, hoverflow⟩ | ⟨s', n, lo', hok, hs', hlength, hn⟩
      · rw [herror]
        exact .inl ⟨e, rfl, hoverflow⟩
      · rw [hok]
        exact .inr ⟨s', n, lo', rfl, hs', hlength, hn⟩
    next => exact .inr ⟨_, 0, lo + 1, by rw [hopen]; rfl, h.stopAbove, rfl, Nat.zero_le 1⟩
  · rw [if_neg hi]
    exact .inr ⟨s, 0, lo, by rw [hopen]; rfl, h, rfl, Nat.zero_le 1⟩

theorem takeBelow_cases (options : IndentationArgs)
    (h : Spans m records anchor minIndent s lo hi) (hnext : s.j = hi)
    (hrecord : records[hi]? = some record) (hindent : minIndent ≤ effectiveIndent records hi) :
    (∃ e, takeBelow m options records minIndent record (effectiveIndent records hi) s = .error e ∧
        CounterOverflows m records e) ∨
      ∃ s' n hi', takeBelow m options records minIndent record (effectiveIndent records hi) s =
          .ok (s', n) ∧
        Spans m records anchor minIndent s' lo hi' ∧ s'.out.length = s.out.length + n ∧
        n ≤ 1 := by
  have hanchor := h.lt_hi
  have hmax : IntTy.isize.max = 2 ^ 63 - 1 := rfl
  have husize : IntTy.usize.max = 2 ^ 64 - 1 := rfl
  obtain ⟨hlength, -⟩ := List.getElem?_eq_some_iff.1 hrecord
  have hcounter : m.overflowChecks = true →
      0 ≤ s.jCounterMinIndent ∧ s.jCounterMinIndent ≤ (hi - anchor : Nat) := by
    intro hchecks
    have hcounted := h.jCounter hchecks (by omega)
    omega
  have hconcat : (s.out ++ [record]).length = s.out.length + 1 := List.length_append
  unfold takeBelow
  rw [Build.usize_eq_ok (n := hi + 1) (by omega) (by omega), ok_bind]
  split
  next hat =>
    rcases count_cases records (by omega) hcounter with
      ⟨e, herror, hoverflow⟩ | ⟨c, hok, hc⟩
    · rw [herror]
      exact .inl ⟨e, rfl, hoverflow⟩
    · rw [hok, ok_bind]
      split
      next => exact .inr ⟨_, 0, hi, rfl, h.stopBelow c, rfl, Nat.zero_le 1⟩
      next =>
        refine .inr ⟨_, 1, hi + 1, rfl, h.concat hrecord hindent rfl fun hchecks => ?_, hconcat,
          Nat.le_refl 1⟩
        have hcounted := hc hchecks
        omega
  next =>
    refine .inr ⟨_, 1, hi + 1, rfl, h.concat hrecord hindent rfl fun hchecks => ?_, hconcat,
      Nat.le_refl 1⟩
    have hcounted := hcounter hchecks
    omega

/-- The lower cursor takes the line below, or none. -/
theorem down_cases (options : IndentationArgs) (h : Spans m records anchor minIndent s lo hi) :
    (∃ e, down m options records (computeEffectiveIndents records) minIndent s = .error e ∧
        CounterOverflows m records e) ∨
      ∃ s' n hi', down m options records (computeEffectiveIndents records) minIndent s =
          .ok (s', n) ∧
        Spans m records anchor minIndent s' lo hi' ∧ s'.out.length = s.out.length + n ∧
        n ≤ 1 := by
  unfold down
  by_cases hj : s.j < records.length
  · rw [if_pos hj]
    obtain rfl : s.j = hi := h.below.resolve_left (Nat.ne_of_lt hj)
    have hrecord : records[s.j]? = some records[s.j] := List.getElem?_eq_getElem hj
    rw [index_computeEffectiveIndents hj, ok_bind, index_eq_ok hrecord, ok_bind]
    split
    next hindent => exact takeBelow_cases hsize options h rfl hrecord hindent
    next => exact .inr ⟨_, 0, s.j, rfl, h.stopBelow s.jCounterMinIndent, rfl, Nat.zero_le 1⟩
  · rw [if_neg hj]
    exact .inr ⟨s, 0, hi, rfl, h, rfl, Nat.zero_le 1⟩

/-- An iteration keeps a window of the lines, and takes one unless it ends the loop. -/
theorem iterates_advance (options : IndentationArgs)
    (h : HasWindow m records anchor minIndent finalLimit s) (hroom : s.out.length < finalLimit) :
    Loop.Iterates
      (advance m options records (computeEffectiveIndents records) minIndent finalLimit)
      (HasWindow m records anchor minIndent finalLimit)
      (HasWindow m records anchor minIndent finalLimit) (CounterOverflows m records)
      (fun s => finalLimit - s.out.length) s := by
  obtain ⟨lo, hi, hs, -⟩ := h
  unfold Loop.Iterates advance
  rcases up_cases hsize options hs hroom with
    ⟨e, herror, hoverflow⟩ | ⟨s', n, lo', hup, hs', hlength, hn⟩
  · rw [herror]
    exact .inl ⟨e, rfl, hoverflow⟩
  rw [hup, ok_bind]
  dsimp only
  split
  next hfull =>
    exact .inr (.inl ⟨s', rfl, lo', hi, hs', by omega⟩)
  next hfull =>
    have hroom' : s'.out.length < finalLimit := by
      rw [decide_eq_true_eq] at hfull
      omega
    rcases down_cases hsize options hs' with
      ⟨e, herror, hoverflow⟩ | ⟨s'', n', hi', hdown, hs'', hlength', hn'⟩
    · rw [herror]
      exact .inl ⟨e, rfl, hoverflow⟩
    rw [hdown, ok_bind]
    dsimp only
    split
    next => exact .inr (.inl ⟨s'', rfl, lo', hi', hs'', by omega⟩)
    next => exact .inr (.inr ⟨s'', rfl, ⟨lo', hi', hs'', by omega⟩, by omega⟩)

/-- The loop ends with a window of the lines; without fuel, only if that was less than the lines
it was to take. -/
theorem expand_cases (options : IndentationArgs)
    (h : Spans m records anchor minIndent s lo hi)
    (hlength : s.out.length ≤ max 1 finalLimit) (fuel : Nat) :
    (expand m options records (computeEffectiveIndents records) minIndent finalLimit fuel s =
        .error .running ∧ fuel < finalLimit - s.out.length) ∨
      (∃ e, expand m options records (computeEffectiveIndents records) minIndent finalLimit fuel s =
        .error e ∧ CounterOverflows m records e) ∨
      ∃ s', expand m options records (computeEffectiveIndents records) minIndent finalLimit fuel s =
          .ok s' ∧ HasWindow m records anchor minIndent finalLimit s' := by
  refine Loop.iterate_spec (fun s : Cursors => finalLimit - s.out.length)
    (fun s hagain => ?_) (fun s hs _ => hs) (fun s hs hagain => ?_) fuel ⟨lo, hi, h, hlength⟩
  · have hroom := of_decide_eq_true hagain
    omega
  · exact iterates_advance hsize options hs (of_decide_eq_true hagain)

end Steps

/-! ## The block -/

/-- The lines from `lo` on, up to `hi`, around an anchor. -/
structure IsBlock (records : List LineRecord) (anchor minIndent cap lo hi : Nat) : Prop where
  lo_le_hi : lo ≤ hi
  hi_le : hi ≤ records.length
  length_le : hi - lo ≤ cap
  indented : ∀ k, lo ≤ k → k < hi → k ≠ anchor → minIndent ≤ effectiveIndent records k
  anchored : (lo ≤ anchor ∧ anchor < hi) ∨
    ∃ record, records[anchor]? = some record ∧ Str.trim record.raw = []

theorem trimEmptyLines_window (h : Spans m records anchor minIndent s lo hi) :
    ∃ lo' hi', trimEmptyLines s.out = window records lo' hi' ∧
      IsBlock records anchor minIndent (hi - lo) lo' hi' := by
  have hlo := h.lo_le
  have hanchor := h.lt_hi
  have hspan : lo ≤ hi := by omega
  obtain ⟨lo', hi', hlo', hle, hhi', htrim, hkept⟩ :=
    exists_trim (fun line : LineRecord => (Str.trim line.raw).isEmpty) hspan h.hi_le
  have hhi := h.hi_le
  refine ⟨lo', hi', by rw [trimEmptyLines, h.out_eq, htrim], hle, by omega, by omega,
    fun k hk hk' hne => h.indented k (by omega) (by omega) hne, ?_⟩
  have hrecord : records[anchor]? = some records[anchor] :=
    List.getElem?_eq_getElem (by omega)
  cases hblank : (Str.trim records[anchor].raw).isEmpty with
  | true => exact .inr ⟨_, hrecord, List.isEmpty_iff.1 hblank⟩
  | false => exact .inl (hkept anchor _ hlo hanchor hrecord hblank)

/-- Nothing overflows in the width of the levels. -/
def LevelsFit (m : Build) (maxLevels : Nat) : Prop :=
  m.overflowChecks = true → ((maxLevels * tabWidth : Nat) : Int) ≤ IntTy.usize.max

/-- Just the anchor is to be read, or a buffer for `limit` lines is granted. -/
def BufferFits (m : Build) (limit guardLimit length : Nat) : Prop :=
  min (min limit guardLimit) length = 1 ∨ m.Grants limit 8

theorem computeMinIndent_cases (m : Build) (anchorIndent maxLevels : Nat) :
    (∃ minIndent, computeMinIndent m anchorIndent maxLevels = .ok minIndent ∧
        LevelsFit m maxLevels) ∨
      (computeMinIndent m anchorIndent maxLevels = .error (.crash (.overflow .usize)) ∧
        ¬LevelsFit m maxLevels) := by
  unfold computeMinIndent
  split
  next hzero =>
    refine .inl ⟨0, rfl, fun _ => ?_⟩
    rw [hzero, Nat.zero_mul]
    decide
  next =>
    rcases m.usize_cases FunctionCallError (maxLevels * tabWidth) with
      ⟨width, hok, hfits⟩ | ⟨herror, hchecks, hover⟩
    · rw [hok]
      exact .inl ⟨_, rfl, hfits⟩
    · rw [herror]
      exact .inr ⟨rfl, fun hfits => Int.not_le.2 hover (hfits hchecks)⟩

/-- Where both computations before the loop succeed the lines are a block, and otherwise they
crash. -/
theorem collectBlock_cases (hsize : (records.length : Int) ≤ IntTy.isize.max)
    (hanchor : anchor < records.length) (fuel limit guardLimit : Nat)
    (options : IndentationArgs) :
    (∃ minIndent,
        computeMinIndent m (effectiveIndent records anchor) options.maxLevels = .ok minIndent ∧
        LevelsFit m options.maxLevels ∧ BufferFits m limit guardLimit records.length ∧
        ((collectBlock m fuel records anchor limit guardLimit options = .error .running ∧
            fuel < min (min limit guardLimit) records.length) ∨
          (∃ e, collectBlock m fuel records anchor limit guardLimit options = .error e ∧
            CounterOverflows m records e) ∨
          ∃ lo hi, collectBlock m fuel records anchor limit guardLimit options =
              .ok ((window records lo hi).map LineRecord.render) ∧
            IsBlock records anchor minIndent
              (max 1 (min (min limit guardLimit) records.length)) lo hi)) ∨
      ∃ c, collectBlock m fuel records anchor limit guardLimit options = .error (.crash c) ∧
        c ≠ .overflow .i32 ∧
        ¬(LevelsFit m options.maxLevels ∧ BufferFits m limit guardLimit records.length) := by
  have hrecord : records[anchor]? = some records[anchor] := List.getElem?_eq_getElem hanchor
  unfold collectBlock
  dsimp only
  rw [index_computeEffectiveIndents hanchor, ok_bind]
  rcases computeMinIndent_cases m (effectiveIndent records anchor) options.maxLevels with
    ⟨minIndent, hmin, hlevels⟩ | ⟨hmin, hlevels⟩
  · rw [hmin, ok_bind, index_eq_ok hrecord, ok_bind]
    split
    next hone =>
      refine .inl ⟨minIndent, rfl, hlevels, .inl hone, .inr (.inr ⟨anchor, anchor + 1, ?_, ?_⟩)⟩
      · rw [window_singleton hrecord]
        rfl
      · exact ⟨Nat.le_succ anchor, hanchor, by omega, fun k hk hk' hne => absurd hk' (by omega),
          .inl ⟨Nat.le_refl anchor, Nat.lt_succ_self anchor⟩⟩
    next hone =>
      have hmax : IntTy.isize.max = 2 ^ 63 - 1 := rfl
      have hminimum : IntTy.isize.min = -2 ^ 63 := rfl
      have husize : IntTy.usize.max = 2 ^ 64 - 1 := rfl
      rw [asIsize_eq (by omega), Build.isize_eq_ok (by omega) (by omega), ok_bind,
        Build.usize_eq_ok (n := anchor + 1) (by omega) (by omega), ok_bind]
      by_cases hgrants : m.Grants limit 8
      · rw [Build.withCapacity_of_grants hgrants, ok_bind]
        refine .inl ⟨minIndent, rfl, hlevels, .inr hgrants, ?_⟩
        have hstart : Spans m records anchor minIndent
            { i := (anchor : Int) - 1, j := anchor + 1, iCounterMinIndent := 0,
              jCounterMinIndent := 0, out := [records[anchor]] } anchor (anchor + 1) :=
          ⟨Nat.le_refl anchor, Nat.lt_succ_self anchor, hanchor, (window_singleton hrecord).symm,
            fun k hk hk' hne => absurd hk' (by omega), .inr rfl, .inr rfl,
            fun _ _ => ⟨Int.le_refl 0, by dsimp only; omega⟩,
            fun _ _ => ⟨Int.le_refl 0, by dsimp only; omega⟩⟩
        have hfirst : [records[anchor]].length ≤
            max 1 (min (min limit guardLimit) records.length) := Nat.le_max_left 1 _
        rcases expand_cases hsize options hstart hfirst fuel with
          ⟨hrunning, hfuel⟩ | ⟨e, herror, hoverflow⟩ | ⟨s', hok, lo, hi, hs', hlength⟩
        · rw [hrunning]
          exact .inl ⟨rfl, by omega⟩
        · rw [herror]
          exact .inr (.inl ⟨e, rfl, hoverflow⟩)
        · obtain ⟨lo', hi', htrim, hblock⟩ := trimEmptyLines_window hs'
          rw [hok, ok_bind, htrim]
          have hspan := hs'.length_out
          exact .inr (.inr ⟨lo', hi', rfl,
            { hblock with length_le := Nat.le_trans hblock.length_le (by omega) }⟩)
      · have hbuffer : ¬(LevelsFit m options.maxLevels ∧
            BufferFits m limit guardLimit records.length) :=
          fun h => h.2.elim hone hgrants
        rcases Build.withCapacity_of_not_grants FunctionCallError hgrants with
          hcrash | hcrash
        · rw [hcrash]
          exact .inr ⟨_, rfl, (by decide), hbuffer⟩
        · rw [hcrash]
          exact .inr ⟨_, rfl, (by decide), hbuffer⟩
  · rw [hmin]
    exact .inr ⟨_, rfl, (by decide), fun h => hlevels h.1⟩

/-! ## Reading -/

section Read

variable {lossy : List UInt8 → Str} {file : File} {offset limit : Nat}

theorem length_collectFileLines_le_max (lossy : List UInt8 → Str) (file : File) :
    ((collectFileLines lossy file.content).length : Int) ≤ IntTy.isize.max := by
  have hlines := length_collectFileLines_le lossy file.content
  have hsize := file.length_le
  omega

theorem readBlock_eq_collectBlock (m : Build) (fuel : Nat)
    (hanchor : options.anchorLine.getD offset ≠ 0)
    (hwithin : options.anchorLine.getD offset ≤ (collectFileLines lossy file.content).length)
    (hguard : options.maxLines.getD limit ≠ 0) :
    readBlock m fuel lossy (.ok file) offset limit options =
      collectBlock m fuel (collectFileLines lossy file.content)
        (options.anchorLine.getD offset - 1) limit (options.maxLines.getD limit) options := by
  have hlines := length_collectFileLines_le_max lossy file
  have hmax : IntTy.isize.max = 2 ^ 63 - 1 := rfl
  have husize : IntTy.usize.max = 2 ^ 64 - 1 := rfl
  have hsome : ((collectFileLines lossy file.content).isEmpty ||
      decide ((collectFileLines lossy file.content).length < options.anchorLine.getD offset)) =
        false := by
    rw [Bool.or_eq_false_iff, List.isEmpty_eq_false_iff, decide_eq_false_iff_not]
    refine ⟨fun hnil => ?_, by omega⟩
    rw [hnil, List.length_nil] at hwithin
    omega
  unfold readBlock
  dsimp only
  rw [if_neg hanchor, if_neg hguard, hsome, if_neg Bool.false_ne_true,
    Build.usize_eq_ok (n := options.anchorLine.getD offset - 1) (by omega) (by omega), ok_bind]

/-- Anything else is answered with a message. -/
theorem readBlock_responds {read : Except Str File} (m : Build) (fuel : Nat)
    (h : ¬∃ file, read = .ok file ∧ options.anchorLine.getD offset ≠ 0 ∧
      options.anchorLine.getD offset ≤ (collectFileLines lossy file.content).length ∧
      options.maxLines.getD limit ≠ 0) :
    ∃ message, readBlock m fuel lossy read offset limit options = respond message := by
  unfold readBlock
  dsimp only
  split
  next => exact ⟨_, rfl⟩
  next hanchor =>
    split
    next => exact ⟨_, rfl⟩
    next hguard =>
      cases read with
      | error err => exact ⟨_, rfl⟩
      | ok file =>
        have hbeyond : (collectFileLines lossy file.content).length <
            options.anchorLine.getD offset := by
          by_contra hwithin
          exact h ⟨file, rfl, hanchor, Nat.not_lt.1 hwithin, hguard⟩
        dsimp only
        rw [decide_eq_true hbeyond, Bool.or_true, if_pos rfl]
        exact ⟨_, rfl⟩

/-- The lines around an anchor line are a block of the file, of no more lines than were asked
for, unless the buffer for these or the width of the levels is too large. An iteration for each
line is enough. -/
theorem readBlock_eq_block_iff (hanchor : options.anchorLine.getD offset ≠ 0)
    (hwithin : options.anchorLine.getD offset ≤ (collectFileLines lossy file.content).length)
    (hlimit : limit ≠ 0) (hmaxLines : options.maxLines ≠ some 0)
    (hfuel : min (min limit (options.maxLines.getD limit))
      (collectFileLines lossy file.content).length ≤ fuel)
    (hcounters : m.overflowChecks = true →
      ((collectFileLines lossy file.content).length : Int) ≤ IntTy.i32.max) :
    (∃ minIndent lo hi,
      computeMinIndent m (effectiveIndent (collectFileLines lossy file.content)
        (options.anchorLine.getD offset - 1)) options.maxLevels = .ok minIndent ∧
      readBlock m fuel lossy (.ok file) offset limit options =
        .ok ((window (collectFileLines lossy file.content) lo hi).map LineRecord.render) ∧
      IsBlock (collectFileLines lossy file.content) (options.anchorLine.getD offset - 1) minIndent
        (min limit (options.maxLines.getD limit)) lo hi) ↔
      LevelsFit m options.maxLevels ∧
        BufferFits m limit (options.maxLines.getD limit)
          (collectFileLines lossy file.content).length := by
  have hguard : options.maxLines.getD limit ≠ 0 := by
    cases hlines : options.maxLines with
    | none => exact hlimit
    | some n =>
      rintro rfl
      exact hmaxLines hlines
  rw [readBlock_eq_collectBlock m fuel hanchor hwithin hguard]
  have hindex : options.anchorLine.getD offset - 1 <
      (collectFileLines lossy file.content).length := by omega
  rcases collectBlock_cases (m := m) (length_collectFileLines_le_max lossy file) hindex fuel limit
      (options.maxLines.getD limit) options with
    ⟨minIndent, hmin, hlevels, hbuffer, hread⟩ | ⟨c, hcrash, -, hnot⟩
  · refine iff_of_true ?_ ⟨hlevels, hbuffer⟩
    rcases hread with ⟨-, hless⟩ | ⟨e, -, -, hchecks, hover⟩ | ⟨lo, hi, hok, hblock⟩
    · omega
    · exact absurd (hcounters hchecks) (Int.not_le.2 hover)
    · exact ⟨minIndent, lo, hi, hmin, hok,
        { hblock with length_le := Nat.le_trans hblock.length_le (by omega) }⟩
  · refine iff_of_false ?_ hnot
    rintro ⟨minIndent, lo, hi, -, hok, -⟩
    rw [hcrash] at hok
    cases hok

def twoLines : File := ⟨[97, 10, 98, 10], by decide⟩

def ascii (bytes : List UInt8) : Str := bytes.map fun b => Char.ofNat b.toNat

theorem readBlock_eq_block_twoLines : ∃ minIndent lo hi,
    computeMinIndent ⟨true, fun _ => true⟩
      (effectiveIndent (collectFileLines ascii twoLines.content) 0) 0 = .ok minIndent ∧
    readBlock ⟨true, fun _ => true⟩ 2 ascii (.ok twoLines) 1 2000 {} =
      .ok ((window (collectFileLines ascii twoLines.content) lo hi).map LineRecord.render) ∧
    IsBlock (collectFileLines ascii twoLines.content) 0 minIndent 2000 lo hi :=
  (@readBlock_eq_block_iff ⟨true, fun _ => true⟩ {} 2 ascii twoLines 1 2000 (by decide)
    (by decide) (by decide) (by decide) (by decide) fun _ => by decide).2
    ⟨fun _ => by decide, .inr ⟨by decide, .inr rfl⟩⟩

/-- No buffer has room for `usize::MAX` lines, though the file has two. -/
theorem not_readBlock_usizeMax : ¬∃ fuel lines,
    readBlock ⟨false, fun _ => true⟩ fuel ascii (.ok twoLines) 1 (2 ^ 64 - 1) {} = .ok lines := by
  rintro ⟨fuel, lines, hlines⟩
  have hcrash : readBlock ⟨false, fun _ => true⟩ fuel ascii (.ok twoLines) 1 (2 ^ 64 - 1) {} =
      .error (.crash .capacityOverflow) := rfl
  rw [hcrash] at hlines
  cases hlines

/-- In a build that checks for overflow, nothing crashes but counters of more than `i32::MAX`
lines, unless the buffer or the width of the levels is too large. -/
theorem readBlock_ne_crash_iff (allocates : Nat → Bool) (fuel : Nat) (lossy : List UInt8 → Str)
    (read : Except Str File) (offset limit : Nat) (options : IndentationArgs) :
    (∀ c, c ≠ .overflow .i32 →
        readBlock ⟨true, allocates⟩ fuel lossy read offset limit options ≠ .error (.crash c)) ↔
      ∀ file, read = .ok file → options.anchorLine.getD offset ≠ 0 →
        options.anchorLine.getD offset ≤ (collectFileLines lossy file.content).length →
        options.maxLines.getD limit ≠ 0 →
        ((options.maxLevels * tabWidth : Nat) : Int) ≤ IntTy.usize.max ∧
          BufferFits ⟨true, allocates⟩ limit (options.maxLines.getD limit)
            (collectFileLines lossy file.content).length := by
  by_cases hreads : ∃ file, read = .ok file ∧ options.anchorLine.getD offset ≠ 0 ∧
      options.anchorLine.getD offset ≤ (collectFileLines lossy file.content).length ∧
      options.maxLines.getD limit ≠ 0
  · obtain ⟨file, rfl, hanchor, hwithin, hguard⟩ := hreads
    rw [readBlock_eq_collectBlock _ fuel hanchor hwithin hguard]
    have hindex : options.anchorLine.getD offset - 1 <
        (collectFileLines lossy file.content).length := by omega
    rcases collectBlock_cases (m := ⟨true, allocates⟩) (length_collectFileLines_le_max lossy file)
        hindex fuel limit (options.maxLines.getD limit) options with
      ⟨minIndent, -, hlevels, hbuffer, hread⟩ | ⟨c, hcrash, hc, hnot⟩
    · refine iff_of_true (fun c hc hcrash => ?_) fun file' hfile _ _ _ => ?_
      · rcases hread with ⟨hrunning, -⟩ | ⟨e, herror, rfl, -, -⟩ | ⟨lo, hi, hok, -⟩
        · rw [hrunning] at hcrash
          cases hcrash
        · rw [herror] at hcrash
          cases hcrash
          exact hc rfl
        · rw [hok] at hcrash
          cases hcrash
      · cases hfile
        exact ⟨hlevels rfl, hbuffer⟩
    · refine iff_of_false (fun h => h c hc hcrash) fun h => ?_
      obtain ⟨hlevels, hbuffer⟩ := h file rfl hanchor hwithin hguard
      exact hnot ⟨fun _ => hlevels, hbuffer⟩
  · obtain ⟨message, hresponds⟩ := readBlock_responds ⟨true, allocates⟩ fuel hreads
    refine iff_of_true (fun c _ hcrash => ?_) fun file hfile hanchor hwithin hguard =>
      absurd ⟨file, hfile, hanchor, hwithin, hguard⟩ hreads
    rw [hresponds] at hcrash
    cases hcrash

/-- The width of that many levels is more than `usize::MAX`, and so is the buffer. -/
theorem readBlock_crashes_manyLevels :
    readBlock ⟨true, fun _ => true⟩ 2 ascii (.ok twoLines) 1 2000 { maxLevels := 2 ^ 62 } =
        .error (.crash (.overflow .usize)) ∧
      readBlock ⟨true, fun _ => true⟩ 2 ascii (.ok twoLines) 1 (2 ^ 64 - 1) {} =
        .error (.crash .capacityOverflow) := ⟨rfl, rfl⟩

end Read

end SheriMl.Tools
