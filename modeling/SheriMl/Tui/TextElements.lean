import Mathlib.Data.List.Pairwise
import Mathlib.Data.List.Sort
import Mathlib.Order.MinMax
import SheriMl.Lib.ByteRange

/-!
# The elements of a text area

An element is a byte range of the text that is edited as one: a placeholder, a command, a
mention. Positions are clamped out of elements, ranges are widened until they cut none
(`closed_expandRangeToElementBoundaries`), and an edit of such a range shifts the elements after
it. `ElementsWf.shiftElements`: the elements that an edit leaves keep their order, their ids and
their texts (`snapshots_shiftElements`).
-/

namespace SheriMl.Tui

open List

open Str (IsBoundary)

/-- `std::ops::Range<usize>`, of byte positions. -/
structure Range where
  start : Nat
  stop : Nat
  deriving DecidableEq

structure TextElement where
  id : Nat
  range : Range
  deriving DecidableEq

def TextElement.snapshot (text : Str) (e : TextElement) : Nat × Str :=
  (e.id, Str.slice text e.range.start e.range.stop)

/-- The order that elements are sorted by. -/
abbrev TextElement.StartLE (e f : TextElement) : Prop := e.range.start ≤ f.range.start

/-- `sort_by_key(|e| e.range.start)` -/
def sortByStart (elements : List TextElement) : List TextElement :=
  elements.insertionSort TextElement.StartLE

/-! ## Clamping -/

def findElementContaining (elements : List TextElement) (pos : Nat) : Option TextElement :=
  elements.find? fun e => pos > e.range.start && pos < e.range.stop

/-- The loop down to a boundary. -/
def prevCharBoundary (text : Str) : Nat → Nat
  | 0 => 0
  | prev + 1 =>
    if Str.isCharBoundary text (prev + 1) then prev + 1 else prevCharBoundary text prev

/-- The loop up to a boundary, over the bytes that are left. -/
def nextCharBoundary (text : Str) : Nat → Nat → Nat
  | 0, next => next
  | left + 1, next =>
    if Str.isCharBoundary text next then next else nextCharBoundary text left (next + 1)

def clampPosToCharBoundary (text : Str) (pos : Nat) : Nat :=
  let pos := min pos (Str.utf8Size text)
  if Str.isCharBoundary text pos then pos
  else
    let prev := prevCharBoundary text pos
    let next := nextCharBoundary text (Str.utf8Size text - pos) pos
    if pos - prev ≤ next - pos then prev else next

def clampPosToNearestBoundary (text : Str) (elements : List TextElement) (pos : Nat) : Nat :=
  let pos := clampPosToCharBoundary text pos
  match findElementContaining elements pos with
  | some e =>
    if pos - e.range.start ≤ e.range.stop - pos then clampPosToCharBoundary text e.range.start
    else clampPosToCharBoundary text e.range.stop
  | none => pos

/-- The source has the function twice. -/
def clampPosForInsertion (text : Str) (elements : List TextElement) (pos : Nat) : Nat :=
  clampPosToNearestBoundary text elements pos

def adjustPosOutOfElements (elements : List TextElement) (pos : Nat) (preferStart : Bool) : Nat :=
  match findElementContaining elements pos with
  | some e => if preferStart then e.range.start else e.range.stop
  | none => pos

/-! ## Widening -/

/-- A range widened to an element that it cuts into. -/
def Range.widen (range : Range) (e : TextElement) : Range :=
  if e.range.start < range.stop ∧ e.range.stop > range.start then
    ⟨min range.start e.range.start, max range.stop e.range.stop⟩
  else range

/-- Passes over the elements until one does not change the range. -/
def expandLoop (elements : List TextElement) : Nat → Range → Range
  | 0, range => range
  | fuel + 1, range =>
    let wider := elements.foldl Range.widen range
    if wider = range then range else expandLoop elements fuel wider

/-- Every pass but the last takes in one more element. -/
def expandRangeToElementBoundaries (elements : List TextElement) (range : Range) : Range :=
  expandLoop elements (elements.length + 1) range

/-! ## Shifting -/

/-- An element after `removed` bytes at `pos` have become `inserted` ones. -/
def TextElement.shift (pos removed inserted : Nat) (e : TextElement) : TextElement :=
  if e.range.stop ≤ pos then e
  else if e.range.start ≥ pos + removed then
    { e with range := ⟨e.range.start + inserted - removed, e.range.stop + inserted - removed⟩ }
  else
    { e with range := ⟨min pos e.range.start,
        pos + max inserted (e.range.stop - (pos + removed))⟩ }

def shiftElements (elements : List TextElement) (pos removed inserted : Nat) :
    List TextElement :=
  (elements.filter fun e => !(e.range.start ≥ pos && e.range.stop ≤ pos + removed)).map
    (TextElement.shift pos removed inserted)

/-- The shift around a renamed element. Where lengths agree nothing moves. -/
def TextElement.shiftAround (start removed inserted : Nat) (e : TextElement) : TextElement :=
  if inserted = removed then e
  else if e.range.stop ≤ start then e
  else if e.range.start ≥ start + removed then
    { e with range := ⟨e.range.start + inserted - removed, e.range.stop + inserted - removed⟩ }
  else
    { e with range := ⟨min start e.range.start,
        max (start + inserted) (e.range.stop + inserted - removed)⟩ }

/-! ## Well-formed elements -/

/-- No byte in both. -/
def TextElement.Apart (e f : TextElement) : Prop :=
  e.range.stop ≤ f.range.start ∨ f.range.stop ≤ e.range.start

/-- In the order of the text, apart from each other, none empty, each between characters. -/
structure ElementsWf (text : Str) (elements : List TextElement) : Prop where
  nonempty : ∀ e ∈ elements, e.range.start < e.range.stop
  start_boundary : ∀ e ∈ elements, IsBoundary text e.range.start
  stop_boundary : ∀ e ∈ elements, IsBoundary text e.range.stop
  sorted : elements.Pairwise fun e f => e.range.stop ≤ f.range.start
  ids_nodup : (elements.map TextElement.id).Nodup

/-- The elements by their ids and texts, in the order of the text. -/
def snapshots (text : Str) (elements : List TextElement) : List (Nat × Str) :=
  elements.map (TextElement.snapshot text)

/-- Not strictly inside an element. -/
def Outside (elements : List TextElement) (pos : Nat) : Prop :=
  ∀ e ∈ elements, ¬ (e.range.start < pos ∧ pos < e.range.stop)

def Range.Within (range wider : Range) : Prop :=
  wider.start ≤ range.start ∧ range.stop ≤ wider.stop

instance (range wider : Range) : Decidable (range.Within wider) :=
  inferInstanceAs (Decidable (_ ∧ _))

/-- No element is cut: one that meets the range lies in it. -/
def Closed (elements : List TextElement) (range : Range) : Prop :=
  ∀ e ∈ elements, e.range.start < range.stop → e.range.stop > range.start →
    e.range.Within range

structure Range.Aligned (text : Str) (range : Range) : Prop where
  start : IsBoundary text range.start
  stop : IsBoundary text range.stop
  le : range.start ≤ range.stop

variable {text t : Str} {elements : List TextElement} {e f : TextElement} {range r : Range}
variable {pos removed inserted : Nat}

instance : Std.Symm TextElement.Apart := ⟨fun _ _ => Or.symm⟩

instance : Std.Total TextElement.StartLE := ⟨fun e f => Nat.le_total e.range.start f.range.start⟩

instance : IsTrans TextElement TextElement.StartLE := ⟨fun _ _ _ => Nat.le_trans⟩

namespace ElementsWf

theorem nil (text : Str) : ElementsWf text [] := by
  constructor <;> simp

theorem aligned (h : ElementsWf text elements) (he : e ∈ elements) : e.range.Aligned text :=
  ⟨h.start_boundary e he, h.stop_boundary e he, (h.nonempty e he).le⟩

/-- Two elements are the same or apart. -/
theorem apart (h : ElementsWf text elements) (he : e ∈ elements) (hf : f ∈ elements) :
    e = f ∨ e.Apart f := by
  by_cases heq : e = f
  · exact .inl heq
  · have hpair : elements.Pairwise TextElement.Apart := h.sorted.imp fun hle => .inl hle
    exact .inr (hpair.forall he hf heq)

theorem outside_start (h : ElementsWf text elements) (he : e ∈ elements) :
    Outside elements e.range.start := by
  rintro f hf ⟨hlt, hgt⟩
  have hne := h.nonempty e he
  obtain rfl | hle | hle := h.apart he hf <;> omega

theorem outside_stop (h : ElementsWf text elements) (he : e ∈ elements) :
    Outside elements e.range.stop := by
  rintro f hf ⟨hlt, hgt⟩
  have hne := h.nonempty e he
  obtain rfl | hle | hle := h.apart he hf <;> omega

end ElementsWf

theorem outside_zero (elements : List TextElement) : Outside elements 0 :=
  fun _ _ h => Nat.not_lt_zero _ h.1

theorem ElementsWf.outside_len (h : ElementsWf text elements) :
    Outside elements (Str.utf8Size text) := by
  intro e he hin
  have hle := (h.stop_boundary e he).le
  omega

/-- An insertion outside of the elements cuts none. -/
theorem Outside.closed (h : Outside elements pos) : Closed elements ⟨pos, pos⟩ :=
  fun e he hlt hgt => absurd ⟨hlt, hgt⟩ (h e he)

/-! ## Clamped positions -/

theorem isBoundary_prevCharBoundary (text : Str) (pos : Nat) :
    IsBoundary text (prevCharBoundary text pos) := by
  induction pos with
  | zero => exact Str.isBoundary_zero text
  | succ pos ih =>
    unfold prevCharBoundary
    split
    next hb => exact Str.isCharBoundary_iff.1 hb
    next => exact ih

theorem isBoundary_nextCharBoundary {left : Nat} (h : pos + left = Str.utf8Size text) :
    IsBoundary text (nextCharBoundary text left pos) := by
  induction left generalizing pos with
  | zero =>
    obtain rfl : pos = Str.utf8Size text := h
    exact Str.isBoundary_utf8Size text
  | succ left ih =>
    unfold nextCharBoundary
    split
    next hb => exact Str.isCharBoundary_iff.1 hb
    next => exact ih (by omega)

theorem isBoundary_clampPosToCharBoundary (text : Str) (pos : Nat) :
    IsBoundary text (clampPosToCharBoundary text pos) := by
  simp only [clampPosToCharBoundary]
  split
  next hb => exact Str.isCharBoundary_iff.1 hb
  next =>
    split
    · exact isBoundary_prevCharBoundary text _
    · exact isBoundary_nextCharBoundary (by omega)

theorem clampPosToCharBoundary_eq (h : IsBoundary text pos) :
    clampPosToCharBoundary text pos = pos := by
  simp only [clampPosToCharBoundary, Nat.min_eq_left h.le, Str.isCharBoundary_iff.2 h, if_true]

theorem outside_of_findElementContaining (h : findElementContaining elements pos = none) :
    Outside elements pos := by
  intro e he hin
  have hnone := List.find?_eq_none.1 h e he
  simp only [Bool.and_eq_true, decide_eq_true_eq] at hnone
  exact hnone hin

theorem mem_of_findElementContaining (h : findElementContaining elements pos = some e) :
    e ∈ elements ∧ e.range.start < pos ∧ pos < e.range.stop := by
  have hin := List.find?_some h
  simp only [Bool.and_eq_true, decide_eq_true_eq] at hin
  exact ⟨mem_of_find?_eq_some h, hin⟩

theorem findElementContaining_eq_none (h : Outside elements pos) :
    findElementContaining elements pos = none := by
  apply List.find?_eq_none.2
  intro e he
  simp only [Bool.and_eq_true, decide_eq_true_eq]
  exact h e he

theorem clampPosToNearestBoundary_spec (h : ElementsWf text elements) (pos : Nat) :
    IsBoundary text (clampPosToNearestBoundary text elements pos) ∧
      Outside elements (clampPosToNearestBoundary text elements pos) := by
  simp only [clampPosToNearestBoundary]
  cases hfind : findElementContaining elements (clampPosToCharBoundary text pos) with
  | none =>
    exact ⟨isBoundary_clampPosToCharBoundary text pos, outside_of_findElementContaining hfind⟩
  | some e =>
    obtain ⟨he, -, -⟩ := mem_of_findElementContaining hfind
    have hstart := h.start_boundary e he
    have hstop := h.stop_boundary e he
    dsimp only
    rw [clampPosToCharBoundary_eq hstart, clampPosToCharBoundary_eq hstop]
    split
    · exact ⟨hstart, h.outside_start he⟩
    · exact ⟨hstop, h.outside_stop he⟩

theorem clampPosToNearestBoundary_eq (hb : IsBoundary text pos) (ho : Outside elements pos) :
    clampPosToNearestBoundary text elements pos = pos := by
  simp only [clampPosToNearestBoundary, clampPosToCharBoundary_eq hb,
    findElementContaining_eq_none ho]

/-- A position is moved out of elements in the direction that is asked for. -/
theorem adjustPosOutOfElements_spec (h : ElementsWf text elements) (hb : IsBoundary text pos)
    (preferStart : Bool) :
    IsBoundary text (adjustPosOutOfElements elements pos preferStart) ∧
      if preferStart then adjustPosOutOfElements elements pos preferStart ≤ pos
      else pos ≤ adjustPosOutOfElements elements pos preferStart := by
  unfold adjustPosOutOfElements
  cases hfind : findElementContaining elements pos with
  | none => cases preferStart <;> exact ⟨hb, Nat.le_refl pos⟩
  | some e =>
    obtain ⟨he, hlt, hgt⟩ := mem_of_findElementContaining hfind
    cases preferStart with
    | true => exact ⟨h.start_boundary e he, hlt.le⟩
    | false => exact ⟨h.stop_boundary e he, hgt.le⟩

/-! ## Widened ranges -/

namespace Range

variable {r₁ r₂ r₃ : Range}

theorem Within.refl (r : Range) : r.Within r := ⟨Nat.le_refl _, Nat.le_refl _⟩

theorem Within.trans (h : r₁.Within r₂) (h' : r₂.Within r₃) : r₁.Within r₃ :=
  ⟨h'.1.trans h.1, h.2.trans h'.2⟩

theorem Within.antisymm (h : r₁.Within r₂) (h' : r₂.Within r₁) : r₁ = r₂ := by
  cases r₁
  cases r₂
  simp only [Within] at h h'
  simp only [mk.injEq]
  omega

theorem within_widen (r : Range) (e : TextElement) : r.Within (r.widen e) := by
  unfold widen
  split
  · exact ⟨Nat.min_le_left _ _, Nat.le_max_left _ _⟩
  · exact .refl r

theorem widen_of_within (h : e.range.Within r) : r.widen e = r := by
  unfold widen
  split
  · rw [Nat.min_eq_left h.1, Nat.max_eq_left h.2]
  · rfl

theorem element_within_widen (h : e.range.start < r.stop) (h' : e.range.stop > r.start) :
    e.range.Within (r.widen e) := by
  rw [widen, if_pos ⟨h, h'⟩]
  exact ⟨Nat.min_le_right _ _, Nat.le_max_right _ _⟩

/-- An element that changes the range is in the new one. -/
theorem within_of_widen_ne (h : r.widen e ≠ r) : e.range.Within (r.widen e) := by
  by_cases hmeets : e.range.start < r.stop ∧ e.range.stop > r.start
  · exact element_within_widen hmeets.1 hmeets.2
  · exact absurd (if_neg hmeets) h

theorem Aligned.widen (h : r.Aligned text) (he : e.range.Aligned text) :
    (r.widen e).Aligned text := by
  unfold Range.widen
  split
  · refine ⟨?_, ?_, (Nat.min_le_left _ _).trans (h.le.trans (Nat.le_max_left _ _))⟩
    · obtain hmin | hmin := min_choice r.start e.range.start <;> rw [hmin]
      · exact h.start
      · exact he.start
    · obtain hmax | hmax := max_choice r.stop e.range.stop <;> rw [hmax]
      · exact h.stop
      · exact he.stop
  · exact h

end Range

theorem within_foldl_widen (elements : List TextElement) (r : Range) :
    r.Within (elements.foldl Range.widen r) := by
  induction elements generalizing r with
  | nil => exact .refl r
  | cons e elements ih => exact (Range.within_widen r e).trans (ih (r.widen e))

/-- A pass that changes nothing has met no element that is not within. -/
theorem closed_of_foldl_widen (h : elements.foldl Range.widen r = r) : Closed elements r := by
  induction elements with
  | nil => exact fun e he => absurd he not_mem_nil
  | cons e elements ih =>
    have hwidest := within_foldl_widen elements (r.widen e)
    rw [foldl_cons] at h
    rw [h] at hwidest
    have hsame : r.widen e = r := hwidest.antisymm (r.within_widen e)
    rw [hsame] at h
    intro f hf hlt hgt
    rcases mem_cons.1 hf with rfl | hf
    · rw [← hsame]
      exact Range.element_within_widen hlt hgt
    · exact ih h f hf hlt hgt

/-- A pass that changes the range takes in another element. -/
theorem exists_within_of_foldl_widen (h : elements.foldl Range.widen r ≠ r) :
    ∃ e ∈ elements, ¬ e.range.Within r ∧ e.range.Within (elements.foldl Range.widen r) := by
  induction elements with
  | nil => exact absurd rfl h
  | cons e elements ih =>
    by_cases hsame : r.widen e = r
    · rw [foldl_cons, hsame] at h ⊢
      obtain ⟨f, hf, hout, hin⟩ := ih h
      exact ⟨f, mem_cons_of_mem e hf, hout, hin⟩
    · refine ⟨e, mem_cons_self, fun hin => hsame (Range.widen_of_within hin), ?_⟩
      exact (Range.within_of_widen_ne hsame).trans (within_foldl_widen elements (r.widen e))

def countNotWithin (elements : List TextElement) (r : Range) : Nat :=
  elements.countP fun e => !decide (e.range.Within r)

theorem countNotWithin_foldl_widen (h : elements.foldl Range.widen r ≠ r) :
    countNotWithin elements (elements.foldl Range.widen r) < countNotWithin elements r := by
  have hwider := within_foldl_widen elements r
  obtain ⟨e, he, hout, hin⟩ := exists_within_of_foldl_widen h
  generalize elements.foldl Range.widen r = wider at hwider hin
  have hmono : ∀ l : List TextElement, countNotWithin l wider ≤ countNotWithin l r := by
    refine fun l => countP_mono_left fun f _ hf => ?_
    simp only [Bool.not_eq_true', decide_eq_false_iff_not] at hf ⊢
    exact fun hr => hf (hr.trans hwider)
  obtain ⟨before, after, rfl⟩ := append_of_mem he
  have hbefore := hmono before
  have hafter := hmono after
  simp only [countNotWithin, countP_append, countP_cons, hout, hin] at hbefore hafter ⊢
  simp only [decide_true, decide_false, Bool.not_true, Bool.not_false, if_true,
    Bool.false_eq_true, if_false]
  omega

/-- The loop ends because every pass but the last takes in another element. -/
theorem closed_expandLoop {fuel : Nat} (h : countNotWithin elements r < fuel) :
    Closed elements (expandLoop elements fuel r) := by
  induction fuel generalizing r with
  | zero => exact absurd h (Nat.not_lt_zero _)
  | succ fuel ih =>
    simp only [expandLoop]
    split
    next hsame => exact closed_of_foldl_widen hsame
    next hchanged => exact ih (by have hless := countNotWithin_foldl_widen hchanged; omega)

theorem expandLoop_preserves {P : Range → Prop} (hwiden : ∀ e ∈ elements, ∀ r, P r → P (r.widen e))
    {fuel : Nat} (h : P r) : P (expandLoop elements fuel r) := by
  induction fuel generalizing r with
  | zero => exact h
  | succ fuel ih =>
    have hpass : P (elements.foldl Range.widen r) :=
      List.foldlRecOn elements Range.widen h fun r hr e he => hwiden e he r hr
    simp only [expandLoop]
    split
    · exact h
    · exact ih hpass

/-- The range is widened until it cuts no element. -/
theorem closed_expandRangeToElementBoundaries (elements : List TextElement) (r : Range) :
    Closed elements (expandRangeToElementBoundaries elements r) :=
  closed_expandLoop (Nat.lt_succ_of_le countP_le_length)

theorem aligned_expandRangeToElementBoundaries (h : ElementsWf text elements)
    (hr : r.Aligned text) : (expandRangeToElementBoundaries elements r).Aligned text :=
  expandLoop_preserves (fun _ he _ hr => hr.widen (h.aligned he)) hr

/-! ## Sorted elements -/

theorem elementsWf_sortByStart (hne : ∀ e ∈ elements, e.range.start < e.range.stop)
    (haligned : ∀ e ∈ elements, e.range.Aligned text)
    (hapart : elements.Pairwise TextElement.Apart)
    (hids : (elements.map TextElement.id).Nodup) :
    ElementsWf text (sortByStart elements) := by
  have hperm : (sortByStart elements).Perm elements := perm_insertionSort _ _
  have hmem : ∀ {e}, e ∈ sortByStart elements → e ∈ elements := hperm.mem_iff.1
  refine ⟨fun e he => hne e (hmem he), fun e he => (haligned e (hmem he)).start,
    fun e he => (haligned e (hmem he)).stop, ?_, (hperm.map _).nodup_iff.2 hids⟩
  have hsorted := pairwise_insertionSort TextElement.StartLE elements
  have hapart' := (hperm.pairwise_iff fun h => Std.Symm.symm _ _ h).2 hapart
  refine (hsorted.and hapart').imp_of_mem fun he hf hboth => ?_
  obtain ⟨hle, h | h⟩ := hboth
  · exact h
  · have hf := hne _ (hmem hf)
    simp only [TextElement.StartLE] at hle
    omega

namespace ElementsWf

theorem sortByStart_eq (h : ElementsWf text elements) : sortByStart elements = elements := by
  refine List.Pairwise.insertionSort_eq (h.sorted.imp_of_mem fun he _ hle => ?_)
  exact (h.nonempty _ he).le.trans hle

theorem sublist (h : ElementsWf text elements) {kept : List TextElement}
    (hk : kept.Sublist elements) : ElementsWf text kept :=
  ⟨fun e he => h.nonempty e (hk.subset he), fun e he => h.start_boundary e (hk.subset he),
    fun e he => h.stop_boundary e (hk.subset he), h.sorted.sublist hk,
    h.ids_nodup.sublist (hk.map _)⟩

/-- A new element goes in where the others leave room. -/
theorem insert {before after : List TextElement} (h : ElementsWf text (before ++ after))
    (hne : e.range.start < e.range.stop) (he : e.range.Aligned text)
    (hbefore : ∀ f ∈ before, f.range.stop ≤ e.range.start)
    (hafter : ∀ f ∈ after, e.range.stop ≤ f.range.start)
    (hid : e.id ∉ (before ++ after).map TextElement.id) :
    ElementsWf text (before ++ e :: after) := by
  have hmem : ∀ f ∈ before ++ e :: after, f = e ∨ f ∈ before ++ after := by
    intro f hf
    simp only [mem_append, mem_cons] at hf ⊢
    tauto
  refine ⟨fun f hf => ?_, fun f hf => ?_, fun f hf => ?_, ?_, ?_⟩
  · obtain rfl | hf := hmem f hf
    · exact hne
    · exact h.nonempty f hf
  · obtain rfl | hf := hmem f hf
    · exact he.start
    · exact h.start_boundary f hf
  · obtain rfl | hf := hmem f hf
    · exact he.stop
    · exact h.stop_boundary f hf
  · obtain ⟨hb, ha, hab⟩ := pairwise_append.1 h.sorted
    refine pairwise_append.2 ⟨hb, pairwise_cons.2 ⟨hafter, ha⟩, ?_⟩
    intro f hf g hg
    rcases mem_cons.1 hg with rfl | hg
    · exact hbefore f hf
    · exact hab f hf g hg
  · have hperm : (before ++ e :: after).Perm (e :: (before ++ after)) := perm_middle
    rw [(hperm.map TextElement.id).nodup_iff, map_cons]
    exact nodup_cons.2 ⟨hid, h.ids_nodup⟩

theorem push (h : ElementsWf text elements) (hne : e.range.start < e.range.stop)
    (he : e.range.Aligned text) (hapart : ∀ f ∈ elements, f.Apart e)
    (hid : e.id ∉ elements.map TextElement.id) :
    ElementsWf text (sortByStart (elements ++ [e])) := by
  have hmem : ∀ f ∈ elements ++ [e], f ∈ elements ∨ f = e := by
    intro f hf
    simpa only [mem_append, mem_singleton] using hf
  apply elementsWf_sortByStart
  · intro f hf
    obtain hf | rfl := hmem f hf
    · exact h.nonempty f hf
    · exact hne
  · intro f hf
    obtain hf | rfl := hmem f hf
    · exact h.aligned hf
    · exact he
  · refine pairwise_append.2
      ⟨h.sorted.imp fun hle => .inl hle, pairwise_singleton _ _, ?_⟩
    intro f hf g hg
    obtain rfl := mem_singleton.1 hg
    exact hapart f hf
  · rw [map_append, map_singleton]
    exact nodup_append.2 ⟨h.ids_nodup, nodup_singleton _, by simpa using hid⟩

end ElementsWf

/-- A new element is sorted in among the ones there are, which keep their order. -/
theorem snapshots_push (h : ElementsWf text elements) (e : TextElement) :
    (snapshots text (sortByStart (elements ++ [e]))).Perm
        (e.snapshot text :: snapshots text elements) ∧
      (snapshots text elements).Sublist (snapshots text (sortByStart (elements ++ [e]))) := by
  have hperm : (sortByStart (elements ++ [e])).Perm (e :: elements) :=
    (perm_insertionSort _ _).trans (perm_append_singleton e elements)
  have hsub : elements.Sublist (sortByStart (elements ++ [e])) := by
    apply sublist_insertionSort
    · exact h.sorted.imp_of_mem fun he _ hle => (h.nonempty _ he).le.trans hle
    · exact sublist_append_left _ _
  exact ⟨hperm.map _, hsub.map _⟩

/-! ## Shifted elements -/

theorem before_or_after (hc : Closed elements r) (he : e ∈ elements)
    (hout : ¬ e.range.Within r) : e.range.stop ≤ r.start ∨ r.stop ≤ e.range.start := by
  by_contra hcon
  exact hout (hc e he (by omega) (by omega))

@[simp] theorem TextElement.shift_id : (e.shift pos removed inserted).id = e.id := by
  unfold shift
  split
  · rfl
  · split <;> rfl

theorem TextElement.shift_of_before (hle : e.range.stop ≤ pos) :
    e.shift pos removed inserted = e := if_pos hle

theorem TextElement.shift_of_after (hne : e.range.start < e.range.stop)
    (hle : pos + removed ≤ e.range.start) :
    e.shift pos removed inserted =
      ⟨e.id, e.range.start + inserted - removed, e.range.stop + inserted - removed⟩ := by
  rw [shift, if_neg (by omega), if_pos hle]

section Edit

variable (hr : r.Aligned text)

include hr

/-- An element that is not in the edited range stays between characters and keeps its text. -/
theorem TextElement.shift_spec (hne : e.range.start < e.range.stop) (he : e.range.Aligned text)
    (hside : e.range.stop ≤ r.start ∨ r.stop ≤ e.range.start) :
    (e.shift r.start (r.stop - r.start) (Str.utf8Size t)).range.start <
        (e.shift r.start (r.stop - r.start) (Str.utf8Size t)).range.stop ∧
      (e.shift r.start (r.stop - r.start) (Str.utf8Size t)).range.Aligned
        (Str.splice text r.start r.stop t) ∧
      (e.shift r.start (r.stop - r.start) (Str.utf8Size t)).snapshot
        (Str.splice text r.start r.stop t) = e.snapshot text := by
  have hle := hr.le
  obtain hbefore | hafter := hside
  · rw [shift_of_before hbefore]
    refine ⟨hne, ⟨?_, ?_, hne.le⟩, ?_⟩
    · exact Str.isBoundary_splice_of_le hr.start hr.stop hle he.start (by omega)
    · exact Str.isBoundary_splice_of_le hr.start hr.stop hle he.stop hbefore
    · rw [snapshot, snapshot,
        Str.slice_splice_of_le hr.start hr.stop hle he.start he.stop he.le hbefore]
  · rw [shift_of_after hne (by omega)]
    refine ⟨?_, ⟨?_, ?_, ?_⟩, ?_⟩
    · dsimp only
      omega
    · exact Str.isBoundary_splice_of_ge hr.start hr.stop hle he.start hafter
    · exact Str.isBoundary_splice_of_ge hr.start hr.stop hle he.stop (by omega)
    · dsimp only
      omega
    · rw [snapshot, snapshot,
        Str.slice_splice_of_ge hr.start hr.stop hle he.start he.stop he.le hafter]

/-- Elements that the edit leaves stay in order. -/
theorem TextElement.shift_le_shift (hne : e.range.start < e.range.stop)
    (hnf : f.range.start < f.range.stop) (hef : e.range.stop ≤ f.range.start)
    (he : e.range.stop ≤ r.start ∨ r.stop ≤ e.range.start)
    (hf : f.range.stop ≤ r.start ∨ r.stop ≤ f.range.start) :
    (e.shift r.start (r.stop - r.start) inserted).range.stop ≤
      (f.shift r.start (r.stop - r.start) inserted).range.start := by
  have hle := hr.le
  obtain he | he := he <;> obtain hf | hf := hf
  · rwa [shift_of_before he, shift_of_before hf]
  · rw [shift_of_before he, shift_of_after hnf (by omega)]
    dsimp only
    omega
  · omega
  · rw [shift_of_after hne (by omega), shift_of_after hnf (by omega)]
    dsimp only
    omega

theorem shiftElements_eq (elements : List TextElement) (inserted : Nat) :
    shiftElements elements r.start (r.stop - r.start) inserted =
      (elements.filter fun e => !decide (e.range.Within r)).map
        (TextElement.shift r.start (r.stop - r.start) inserted) := by
  have hstop : r.start + (r.stop - r.start) = r.stop := Nat.add_sub_cancel' hr.le
  rw [shiftElements, hstop]
  congr 1
  refine filter_congr fun e _ => ?_
  have hwithin : (e.range.start ≥ r.start && e.range.stop ≤ r.stop) =
      decide (e.range.Within r) := by
    rw [Bool.eq_iff_iff, Bool.and_eq_true, decide_eq_true_iff, decide_eq_true_iff,
      decide_eq_true_iff]
    exact Iff.rfl
  rw [hwithin]

variable (h : ElementsWf text elements) (hc : Closed elements r)

include h hc

/-- The elements that an edit leaves are well-formed in the new text. -/
theorem ElementsWf.shiftElements (t : Str) :
    ElementsWf (Str.splice text r.start r.stop t)
      (shiftElements elements r.start (r.stop - r.start) (Str.utf8Size t)) := by
  rw [shiftElements_eq hr]
  have hspec : ∀ e ∈ elements.filter fun e => !decide (e.range.Within r),
      e.range.start < e.range.stop ∧ e.range.Aligned text ∧
        (e.range.stop ≤ r.start ∨ r.stop ≤ e.range.start) := by
    intro e he
    obtain ⟨he, hout⟩ := mem_filter.1 he
    simp only [Bool.not_eq_true', decide_eq_false_iff_not] at hout
    exact ⟨h.nonempty e he, h.aligned he, before_or_after hc he hout⟩
  have hkept := h.sublist (filter_sublist (p := fun e => !decide (e.range.Within r)))
  refine ⟨?_, ?_, ?_, ?_, ?_⟩
  · simp only [forall_mem_map]
    intro e he
    obtain ⟨hne, he, hside⟩ := hspec e he
    exact (TextElement.shift_spec hr hne he hside).1
  · simp only [forall_mem_map]
    intro e he
    obtain ⟨hne, he, hside⟩ := hspec e he
    exact (TextElement.shift_spec hr hne he hside).2.1.start
  · simp only [forall_mem_map]
    intro e he
    obtain ⟨hne, he, hside⟩ := hspec e he
    exact (TextElement.shift_spec hr hne he hside).2.1.stop
  · refine pairwise_map.2 (hkept.sorted.imp_of_mem fun he hf hle => ?_)
    obtain ⟨hne, -, he⟩ := hspec _ he
    obtain ⟨hnf, -, hf⟩ := hspec _ hf
    exact TextElement.shift_le_shift hr hne hnf hle he hf
  · have hids : (TextElement.id ∘ TextElement.shift r.start (r.stop - r.start) (Str.utf8Size t)) =
        TextElement.id := funext fun e => TextElement.shift_id
    rw [map_map, hids]
    exact hkept.ids_nodup

/-- They are the ones outside of the range, by ids and texts. -/
theorem snapshots_shiftElements (t : Str) :
    snapshots (Str.splice text r.start r.stop t)
        (shiftElements elements r.start (r.stop - r.start) (Str.utf8Size t)) =
      snapshots text (elements.filter fun e => !decide (e.range.Within r)) := by
  rw [shiftElements_eq hr, snapshots, snapshots, map_map]
  refine map_congr_left fun e he => ?_
  obtain ⟨he, hout⟩ := mem_filter.1 he
  simp only [Bool.not_eq_true', decide_eq_false_iff_not] at hout
  exact (TextElement.shift_spec hr (h.nonempty e he) (h.aligned he)
    (before_or_after hc he hout)).2.2

/-- An element that an edit leaves was before the range, or moves with what is after it. -/
theorem exists_of_mem_shiftElements {inserted : Nat} {f : TextElement}
    (hf : f ∈ shiftElements elements r.start (r.stop - r.start) inserted) : ∃ e ∈ elements,
      e.range.stop ≤ r.start ∧ f.range = e.range ∨
      r.stop ≤ e.range.start ∧ e.range.start < e.range.stop ∧
        f.range.start = e.range.start + inserted - (r.stop - r.start) ∧
        f.range.stop = e.range.stop + inserted - (r.stop - r.start) := by
  have hre := hr.le
  rw [shiftElements_eq hr] at hf
  obtain ⟨e, he, rfl⟩ := mem_map.1 hf
  obtain ⟨he, hout⟩ := mem_filter.1 he
  simp only [Bool.not_eq_true', decide_eq_false_iff_not] at hout
  have hne := h.nonempty e he
  obtain hbefore | hafter := before_or_after hc he hout
  · rw [TextElement.shift_of_before hbefore]
    exact ⟨e, he, .inl ⟨hbefore, rfl⟩⟩
  · rw [TextElement.shift_of_after hne (by omega)]
    exact ⟨e, he, .inr ⟨hafter, hne, rfl, rfl⟩⟩

/-- A position before the edit stays outside of elements. -/
theorem Outside.shift_of_le (ho : Outside elements pos) (hle : pos ≤ r.start) (inserted : Nat) :
    Outside (shiftElements elements r.start (r.stop - r.start) inserted) pos := by
  have hre := hr.le
  intro f hf
  obtain ⟨e, he, ⟨-, hrange⟩ | hafter⟩ := exists_of_mem_shiftElements hr h hc hf
  · rw [hrange]
    exact ho e he
  · omega

/-- A position after the edit moves with the elements there. -/
theorem Outside.shift_of_ge (ho : Outside elements pos) (hle : r.stop ≤ pos) (inserted : Nat) :
    Outside (shiftElements elements r.start (r.stop - r.start) inserted)
      (pos + inserted - (r.stop - r.start)) := by
  have hre := hr.le
  intro f hf
  obtain ⟨e, he, ⟨hbefore, hrange⟩ | hafter⟩ := exists_of_mem_shiftElements hr h hc hf
  · rw [hrange]
    omega
  · have hold := ho e he
    omega

end Edit

/-! ## Renamed elements -/

theorem TextElement.shiftAround_eq_shift (hne : e.range.start < e.range.stop)
    (hside : e.range.stop ≤ pos ∨ pos + removed ≤ e.range.start) :
    e.shiftAround pos removed inserted = e.shift pos removed inserted := by
  obtain hbefore | hafter := hside
  · rw [shift_of_before hbefore, shiftAround, if_pos hbefore, ite_self]
  · rw [shift_of_after hne hafter, shiftAround]
    by_cases hsame : inserted = removed
    · rw [if_pos hsame, hsame, Nat.add_sub_cancel, Nat.add_sub_cancel]
    · have hstop : ¬ e.range.stop ≤ pos := by omega
      rw [if_neg hsame, if_neg hstop, if_pos hafter]

section Rename

variable {before after : List TextElement} {new : Str}

/-- The elements after one of them has got another text. -/
def renameElements (before : List TextElement) (e : TextElement) (after : List TextElement)
    (inserted : Nat) : List TextElement :=
  before.map (TextElement.shiftAround e.range.start (e.range.stop - e.range.start) inserted) ++
    { e with range := ⟨e.range.start, e.range.start + inserted⟩ } ::
      after.map (TextElement.shiftAround e.range.start (e.range.stop - e.range.start) inserted)

variable (h : ElementsWf text (before ++ e :: after))

include h

theorem ElementsWf.stop_le_start (hf : f ∈ before) : f.range.stop ≤ e.range.start :=
  (pairwise_append.1 h.sorted).2.2 f hf e mem_cons_self

theorem ElementsWf.start_ge_stop (hf : f ∈ after) : e.range.stop ≤ f.range.start :=
  rel_of_pairwise_cons (pairwise_append.1 h.sorted).2.1 hf

theorem ElementsWf.closed_range : Closed (before ++ e :: after) e.range := by
  intro f hf hlt hgt
  have he : e ∈ before ++ e :: after := mem_append_right _ mem_cons_self
  obtain rfl | hle | hle := h.apart hf he
  · exact .refl _
  · omega
  · omega

/-- Each of the others is on one side of the element. -/
theorem ElementsWf.beside (hf : f ∈ before ++ after) : f ∈ before ++ e :: after ∧
    (f.range.stop ≤ e.range.start ∨ e.range.stop ≤ f.range.start) := by
  refine ⟨?_, (mem_append.1 hf).imp h.stop_le_start h.start_ge_stop⟩
  simp only [mem_append, mem_cons] at hf ⊢
  tauto

theorem ElementsWf.shiftAround_eq_shift (hf : f ∈ before ++ after) (inserted : Nat) :
    f.shiftAround e.range.start (e.range.stop - e.range.start) inserted =
      f.shift e.range.start (e.range.stop - e.range.start) inserted := by
  obtain ⟨hmem, hside⟩ := h.beside hf
  have hle := h.aligned (mem_append_right before (mem_cons_self (a := e) (l := after)))
  have hle := hle.le
  exact TextElement.shiftAround_eq_shift (h.nonempty f hmem) (by omega)

theorem ElementsWf.map_shiftAround (inserted : Nat) :
    (before ++ after).map
        (TextElement.shiftAround e.range.start (e.range.stop - e.range.start) inserted) =
      Tui.shiftElements (before ++ e :: after) e.range.start (e.range.stop - e.range.start)
        inserted := by
  have he : e ∈ before ++ e :: after := mem_append_right _ mem_cons_self
  have hne := h.nonempty e he
  have hbefore : ∀ f ∈ before, ¬ f.range.Within e.range := by
    rintro f hf ⟨hlt, -⟩
    have hnf := h.nonempty f (mem_append_left _ hf)
    have hle := h.stop_le_start hf
    omega
  have hafter : ∀ f ∈ after, ¬ f.range.Within e.range := by
    rintro f hf ⟨-, hlt⟩
    have hnf := h.nonempty f (mem_append_right _ (mem_cons_of_mem e hf))
    have hle := h.start_ge_stop hf
    omega
  have hout : (before ++ e :: after).filter (fun f => !decide (f.range.Within e.range)) =
      before ++ after := by
    rw [filter_append, filter_cons_of_neg (by simp [Range.Within.refl]),
      filter_eq_self.2 (by simpa using hbefore),
      filter_eq_self.2 (by simpa using hafter)]
  rw [shiftElements_eq (h.aligned he), hout]
  exact map_congr_left fun f hf => h.shiftAround_eq_shift hf inserted

/-- Renaming keeps the elements well-formed, if the new text is not empty. -/
theorem ElementsWf.renameElements (hnew : new ≠ []) :
    ElementsWf (Str.splice text e.range.start e.range.stop new)
      (renameElements before e after (Str.utf8Size new)) := by
  have he : e ∈ before ++ e :: after := mem_append_right _ mem_cons_self
  have hr := h.aligned he
  have hwf := ElementsWf.shiftElements hr h h.closed_range new
  have hpos := Str.utf8Size_pos hnew
  rw [← h.map_shiftAround, map_append] at hwf
  refine hwf.insert ?_ ⟨?_, ?_, ?_⟩ ?_ ?_ ?_
  · dsimp only
    omega
  · exact Str.isBoundary_splice_of_le hr.start hr.stop hr.le hr.start (Nat.le_refl _)
  · exact Str.isBoundary_splice_end hr.start hr.stop hr.le
  · dsimp only
    omega
  · simp only [forall_mem_map]
    intro f hf
    have hle := h.stop_le_start hf
    rwa [h.shiftAround_eq_shift (mem_append_left _ hf), TextElement.shift_of_before hle]
  · simp only [forall_mem_map]
    intro f hf
    have hle := h.start_ge_stop hf
    have hnf := h.nonempty f (mem_append_right _ (mem_cons_of_mem e hf))
    have hre := hr.le
    rw [h.shiftAround_eq_shift (mem_append_right _ hf),
      TextElement.shift_of_after hnf (by omega)]
    dsimp only
    omega
  · have hids := h.ids_nodup
    rw [map_append, map_cons] at hids
    have hnot := (nodup_cons.1 (perm_middle.nodup_iff.1 hids)).1
    have hid : ∀ f ∈ before ++ after, (TextElement.id ∘ TextElement.shiftAround e.range.start
        (e.range.stop - e.range.start) (Str.utf8Size new)) f = f.id := by
      intro f hf
      rw [Function.comp_apply, h.shiftAround_eq_shift hf, TextElement.shift_id]
    rw [← map_append, map_map, map_congr_left hid, map_append]
    exact hnot

theorem snapshots_renameElements (new : Str) :
    snapshots (Str.splice text e.range.start e.range.stop new)
        (renameElements before e after (Str.utf8Size new)) =
      snapshots text before ++ (e.id, new) :: snapshots text after := by
  have hr := h.aligned (mem_append_right before mem_cons_self)
  have hkept : ∀ f ∈ before ++ after,
      (f.shiftAround e.range.start (e.range.stop - e.range.start) (Str.utf8Size new)).snapshot
          (Str.splice text e.range.start e.range.stop new) = f.snapshot text := by
    intro f hf
    obtain ⟨hmem, hside⟩ := h.beside hf
    rw [h.shiftAround_eq_shift hf]
    exact (TextElement.shift_spec hr (h.nonempty f hmem) (h.aligned hmem) hside).2.2
  rw [snapshots, renameElements, map_append, map_cons, map_map, map_map]
  congr 1
  · exact map_congr_left fun f hf => hkept f (mem_append_left _ hf)
  · congr 1
    · rw [TextElement.snapshot, Str.slice_splice hr.start hr.stop hr.le]
    · exact map_congr_left fun f hf => hkept f (mem_append_right _ hf)

end Rename

end SheriMl.Tui
