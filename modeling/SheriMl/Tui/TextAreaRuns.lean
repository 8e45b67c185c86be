import SheriMl.Lib.Transition
import SheriMl.Tui.TextAreaEdits

/-!
# Runs of a text area

The operations that make or rename elements, and with them the whole interface: what it keeps in
every run. Beside the state a run keeps a log of what was written as an element (`Op.written`):
the text that an insertion, a marking or a renaming gave to an element under its id. In the runs
whose steps fit (`Op.Fits`) the state stays well-formed and every element has the text of its log
entry (`sound_of_run`). A range that is marked around the cursor leaves the cursor in the middle of
an element (`not_sound_of_marked_cursor`).
-/

namespace SheriMl.Tui

open List

open Str (IsBoundary)
open Transition (Run)

namespace TextArea

variable {a : TextArea} {range : Range} {text old new : Str}

/-! ## Given elements -/

def numbered (ranges : List Range) (id : Nat) : List TextElement :=
  (ranges.zipIdx id).map fun r => ⟨r.2, r.1⟩

theorem numbered_cons (ranges : List Range) (id : Nat) :
    numbered (range :: ranges) id = ⟨id, range⟩ :: numbered ranges (id + 1) := by
  rw [numbered, zipIdx_cons, map_cons]
  rfl

theorem map_range_numbered (ranges : List Range) (id : Nat) :
    (numbered ranges id).map TextElement.range = ranges := by
  rw [numbered, map_map]
  exact zipIdx_map_fst id ranges

theorem map_id_numbered (ranges : List Range) (id : Nat) :
    (numbered ranges id).map TextElement.id = List.range' id ranges.length := by
  rw [numbered, map_map]
  exact zipIdx_map_snd id ranges

/-- The ranges that elements are made of. -/
def nonempty (ranges : List Range) : List Range := ranges.filter fun r => r.start < r.stop

theorem foldl_pushGiven {ranges : List Range} (elements : List TextElement) {id : Nat}
    (haligned : ∀ r ∈ ranges, IsBoundary text r.start ∧ IsBoundary text r.stop)
    (hids : id + (nonempty ranges).length ≤ maxElementId + 1) :
    (ranges.foldl (pushGiven text) (elements, id)).1 =
      elements ++ numbered (nonempty ranges) id := by
  induction ranges generalizing elements id with
  | nil => simp [nonempty, numbered]
  | cons r ranges ih =>
    obtain ⟨hstart, hstop⟩ := haligned r mem_cons_self
    have hrest := fun r' hr' => haligned r' (mem_cons_of_mem r hr')
    have hpush : pushGiven text (elements, id) r = if r.start ≥ r.stop then (elements, id)
        else (elements ++ [⟨id, r⟩], succElementId id) := by
      simp only [pushGiven, Nat.min_eq_left hstart.le, Nat.min_eq_left hstop.le,
        clampPosToCharBoundary_eq hstart, clampPosToCharBoundary_eq hstop]
    rw [foldl_cons, hpush]
    by_cases hlt : r.start < r.stop
    · have hcons : nonempty (r :: ranges) = r :: nonempty ranges :=
        filter_cons_of_pos (decide_eq_true hlt)
      rw [hcons, length_cons] at hids
      rw [if_neg (by omega), hcons, numbered_cons, ih _ hrest (by rw [succElementId]; omega),
        append_assoc, singleton_append]
      -- the last id is not followed by another element
      by_cases hmax : id + 1 ≤ maxElementId
      · rw [succElementId, Nat.min_eq_left hmax]
      · have hnil : nonempty ranges = [] := length_eq_zero_iff.1 (by omega)
        rw [hnil]
        rfl
    · have hskip : nonempty (r :: ranges) = nonempty ranges :=
        filter_cons_of_neg (by simpa using hlt)
      rw [hskip] at hids ⊢
      rw [if_pos (by omega)]
      exact ih _ hrest hids

/-- Disjoint ranges between characters, and ids for them, make well-formed elements. -/
theorem setTextWithElements_wf {ranges : List Range}
    (haligned : ∀ r ∈ ranges, IsBoundary text r.start ∧ IsBoundary text r.stop)
    (hapart : (nonempty ranges).Pairwise fun r r' => r.stop ≤ r'.start ∨ r'.stop ≤ r.start)
    (hids : a.nextElementId + (nonempty ranges).length ≤ maxElementId + 1) :
    (a.setTextWithElements text ranges).Wf := by
  have hgiven := foldl_pushGiven [] haligned hids
  rw [nil_append] at hgiven
  have hmem : ∀ e ∈ numbered (nonempty ranges) a.nextElementId, e.range ∈ nonempty ranges := by
    intro e he
    have hrange := mem_map_of_mem (f := TextElement.range) he
    rwa [map_range_numbered] at hrange
  have hwf : ElementsWf text (sortByStart (numbered (nonempty ranges) a.nextElementId)) := by
    apply elementsWf_sortByStart
    · intro e he
      exact of_decide_eq_true (mem_filter.1 (hmem e he)).2
    · intro e he
      obtain ⟨hr, hlt⟩ := mem_filter.1 (hmem e he)
      obtain ⟨hstart, hstop⟩ := haligned _ hr
      exact ⟨hstart, hstop, (of_decide_eq_true hlt).le⟩
    · rw [← map_range_numbered (nonempty ranges) a.nextElementId] at hapart
      have hpair := pairwise_map.1 hapart
      exact hpair
    · rw [map_id_numbered]
      exact nodup_range'
  simp only [setTextWithElements, setTextInner, Option.getD_some, hgiven]
  obtain ⟨hb, ho⟩ := clampPosToNearestBoundary_spec hwf (min a.cursorPos (Str.utf8Size text))
  exact ⟨⟨hb, hwf⟩, ho⟩

theorem setTextClearingElements_edits (a : TextArea) (text : Str) :
    a.Edits (a.setTextClearingElements text) := by
  have hwf : ElementsWf text (sortByStart []) := .nil text
  obtain ⟨hb, ho⟩ := clampPosToNearestBoundary_spec hwf (min a.cursorPos (Str.utf8Size text))
  exact ⟨⟨hb, hwf⟩, fun _ => ho, nil_sublist _, rfl⟩

/-! ## Made elements -/

/-- No element has the id that the next one gets. -/
def HasFreshId (a : TextArea) : Prop := a.nextElementId ∉ a.elements.map TextElement.id

instance (a : TextArea) : Decidable a.HasFreshId := inferInstanceAs (Decidable (¬ _))

theorem map_fst_snapshots (a : TextArea) :
    a.textElementSnapshots.map Prod.fst = a.elements.map TextElement.id := by
  rw [textElementSnapshots, snapshots, map_map]
  rfl

/-- Nothing is lost by an insertion. -/
theorem Aligned.snapshots_insertStrAt (h : a.Aligned) (pos : Nat) (text : Str) :
    (a.insertStrAt pos text).textElementSnapshots = a.textElementSnapshots := by
  have hwf := h.elements_wf
  obtain ⟨hb, ho⟩ : IsBoundary a.text (clampPosForInsertion a.text a.elements pos) ∧
      Outside a.elements (clampPosForInsertion a.text a.elements pos) :=
    clampPosToNearestBoundary_spec hwf pos
  simp only [TextArea.insertStrAt, textElementSnapshots]
  generalize clampPosForInsertion a.text a.elements pos = pos at hb ho
  have hr : Range.Aligned a.text ⟨pos, pos⟩ := ⟨hb, hb, Nat.le_refl pos⟩
  have hsnapshots := snapshots_shiftElements hr hwf ho.closed text
  simp only [Nat.sub_self] at hsnapshots
  rw [hsnapshots, filter_eq_self.2]
  intro e he
  have hne := hwf.nonempty e he
  have hout : ¬ e.range.Within ⟨pos, pos⟩ := by
    rintro ⟨hle, hge⟩
    dsimp only at hle hge
    omega
  rw [decide_eq_false hout, Bool.not_false]

/-- An element is added where the text has been inserted: the others keep their order. -/
structure Inserts (a b : TextArea) (text : Str) : Prop where
  wf : b.Wf
  perm : b.textElementSnapshots.Perm ((a.nextElementId, text) :: a.textElementSnapshots)
  sublist : a.textElementSnapshots.Sublist b.textElementSnapshots
  nextElementId : b.nextElementId = succElementId a.nextElementId

theorem inserts_push (h : ElementsWf a.text a.elements) (hlt : range.start < range.stop)
    (hr : range.Aligned a.text)
    (hapart : ∀ e ∈ a.elements, e.range.stop ≤ range.start ∨ range.stop ≤ e.range.start)
    (hfresh : a.HasFreshId) (pos : Nat) :
    a.Inserts ((a.addElement range).1.setCursor pos)
      (Str.slice a.text range.start range.stop) := by
  have hwf : ElementsWf a.text (sortByStart (a.elements ++ [⟨a.nextElementId, range⟩])) :=
    h.push hlt hr hapart hfresh
  obtain ⟨hperm, hsub⟩ := snapshots_push h ⟨a.nextElementId, range⟩
  obtain ⟨hb, ho⟩ := clampPosToNearestBoundary_spec hwf (min pos (Str.utf8Size a.text))
  exact ⟨⟨⟨hb, hwf⟩, ho⟩, hperm, hsub, rfl⟩

theorem Aligned.insertStrAt_apart (h : a.Aligned) (pos : Nat) (text : Str) :
    ∀ e ∈ (a.insertStrAt pos text).elements,
      e.range.stop ≤ clampPosForInsertion a.text a.elements pos ∨
        clampPosForInsertion a.text a.elements pos + Str.utf8Size text ≤ e.range.start := by
  have hwf := h.elements_wf
  obtain ⟨hb, ho⟩ : IsBoundary a.text (clampPosForInsertion a.text a.elements pos) ∧
      Outside a.elements (clampPosForInsertion a.text a.elements pos) :=
    clampPosToNearestBoundary_spec hwf pos
  simp only [TextArea.insertStrAt]
  generalize clampPosForInsertion a.text a.elements pos = pos at hb ho
  have hr : Range.Aligned a.text ⟨pos, pos⟩ := ⟨hb, hb, Nat.le_refl _⟩
  have helements := shiftElements_eq hr a.elements (Str.utf8Size text)
  simp only [Nat.sub_self] at helements
  simp only [helements, forall_mem_map, mem_filter, Bool.not_eq_true',
    decide_eq_false_iff_not, and_imp]
  intro e he hout
  have hne := hwf.nonempty e he
  obtain hle | hle := before_or_after ho.closed he hout
  · rw [TextElement.shift_of_before hle]
    exact .inl hle
  · rw [TextElement.shift_of_after hne (by dsimp only at hle; omega)]
    dsimp only at hle ⊢
    omega

theorem Aligned.insertElement (h : a.Aligned) (hne : text ≠ []) (hfresh : a.HasFreshId) :
    a.Inserts (a.insertElement text).1 text := by
  obtain ⟨hb, ho⟩ : IsBoundary a.text (clampPosForInsertion a.text a.elements a.cursorPos) ∧
      Outside a.elements (clampPosForInsertion a.text a.elements a.cursorPos) :=
    clampPosToNearestBoundary_spec h.elements_wf a.cursorPos
  simp only [TextArea.insertElement]
  generalize clampPosForInsertion a.text a.elements a.cursorPos = start at hb ho
  have hclamp : clampPosForInsertion a.text a.elements start = start :=
    clampPosToNearestBoundary_eq hb ho
  have hedits := h.insertStrAt start text
  have hapart := h.insertStrAt_apart start text
  have hsnapshots := h.snapshots_insertStrAt start text
  have htext : (a.insertStrAt start text).text = Str.splice a.text start start text := by
    simp only [TextArea.insertStrAt, hclamp]
  have hpos := Str.utf8Size_pos hne
  rw [hclamp] at hapart
  generalize a.insertStrAt start text = b at hedits hapart hsnapshots htext
  have hr : Range.Aligned b.text ⟨start, start + Str.utf8Size text⟩ := by
    rw [htext]
    exact ⟨Str.isBoundary_splice_of_le hb hb (Nat.le_refl _) hb (Nat.le_refl _),
      Str.isBoundary_splice_end hb hb (Nat.le_refl _), Nat.le_add_right _ _⟩
  have hfresh' : b.HasFreshId := by
    unfold HasFreshId at hfresh ⊢
    rwa [hedits.nextElementId, ← map_fst_snapshots, hsnapshots, map_fst_snapshots]
  have hslice : Str.slice b.text start (start + Str.utf8Size text) = text := by
    rw [htext, Str.slice_splice hb hb (Nat.le_refl _)]
  have hinserts := inserts_push hedits.aligned.elements_wf (by dsimp only; omega) hr hapart hfresh'
    (start + Str.utf8Size text)
  dsimp only at hinserts
  rw [hslice] at hinserts
  refine ⟨hinserts.wf, ?_, ?_, ?_⟩
  · rw [← hedits.nextElementId, ← hsnapshots]
    exact hinserts.perm
  · rw [← hsnapshots]
    exact hinserts.sublist
  · rw [← hedits.nextElementId]
    exact hinserts.nextElementId

theorem Wf.addElementRange (h : a.Wf) (hr : range.Aligned a.text)
    (hfits : range.start < range.stop →
      (∀ e ∈ a.elements, e.range.stop ≤ range.start ∨ range.stop ≤ e.range.start) →
      ¬ (range.start < a.cursorPos ∧ a.cursorPos < range.stop) ∧ a.HasFreshId) :
    (a.addElementRange range = (a, none)) ∨
      a.Inserts (a.addElementRange range).1 (Str.slice a.text range.start range.stop) ∧
        (a.addElementRange range).2 = some a.nextElementId ∧ a.HasFreshId := by
  simp only [TextArea.addElementRange, Nat.min_eq_left hr.start.le, Nat.min_eq_left hr.stop.le,
    clampPosToCharBoundary_eq hr.start, clampPosToCharBoundary_eq hr.stop]
  split
  · exact .inl rfl
  split
  · exact .inl rfl
  split
  · exact .inl rfl
  next hlt _ hany =>
    have hlt : range.start < range.stop := by omega
    have hapart : ∀ e ∈ a.elements, e.range.stop ≤ range.start ∨ range.stop ≤ e.range.start := by
      intro e he
      by_contra hcon
      refine hany (any_eq_true.2 ⟨e, he, ?_⟩)
      simp only [Bool.and_eq_true, decide_eq_true_eq]
      omega
    obtain ⟨hcursor, hfresh⟩ := hfits hlt hapart
    have hwf : ElementsWf a.text (sortByStart (a.elements ++ [⟨a.nextElementId, range⟩])) :=
      h.elements_wf.push hlt hr hapart hfresh
    obtain ⟨hperm, hsub⟩ := snapshots_push h.elements_wf ⟨a.nextElementId, range⟩
    refine .inr ⟨⟨⟨⟨h.cursor_boundary, hwf⟩, ?_⟩, hperm, hsub, rfl⟩, rfl, hfresh⟩
    intro e he
    rcases mem_append.1 ((mem_insertionSort _).1 he) with he | he
    · exact h.cursor_outside e he
    · obtain rfl := mem_singleton.1 he
      exact hcursor

/-! ## Renamed elements -/

theorem Aligned.hasPayload_iff (h : a.Aligned) {e : TextElement} (he : e ∈ a.elements) :
    a.hasPayload old e = true ↔ (e.snapshot a.text).2 = old := by
  have hr := h.elements_wf.aligned he
  rw [hasPayload, Str.get?_eq_slice hr.start hr.stop hr.le, beq_iff_eq, Option.some.injEq]
  exact Iff.rfl

theorem Aligned.replaceElementPayload_of_not_mem (h : a.Aligned)
    (hnone : ∀ x ∈ a.textElementSnapshots, x.2 ≠ old) :
    a.replaceElementPayload old new = (a, false) := by
  have hdrop : a.elements.dropWhile (fun e => !a.hasPayload old e) = [] := by
    refine dropWhile_eq_nil_iff.2 fun e he => ?_
    have hne := hnone _ (mem_map_of_mem he)
    rw [Ne, ← h.hasPayload_iff he, Bool.not_eq_true] at hne
    rw [hne, Bool.not_false]
  rw [TextArea.replaceElementPayload, hdrop]

theorem Aligned.replaceElementPayload (h : a.Aligned) (hnew : new ≠ [])
    (hany : ∃ x ∈ a.textElementSnapshots, x.2 = old) :
    ∃ l id r, a.textElementSnapshots = l ++ (id, old) :: r ∧ (∀ x ∈ l, x.2 ≠ old) ∧
      (a.replaceElementPayload old new).1.Wf ∧
      (a.replaceElementPayload old new).1.textElementSnapshots = l ++ (id, new) :: r ∧
      (a.replaceElementPayload old new).1.nextElementId = a.nextElementId := by
  have hsplit := takeWhile_append_dropWhile (p := fun e => !a.hasPayload old e)
    (l := a.elements)
  have hbefore : ∀ e ∈ a.elements.takeWhile fun e => !a.hasPayload old e,
      (e.snapshot a.text).2 ≠ old := by
    intro e he
    have hmem := (List.takeWhile_prefix _).subset he
    have hnot := mem_takeWhile_imp he
    simp only [Bool.not_eq_true'] at hnot
    rw [Ne, ← h.hasPayload_iff hmem, hnot]
    exact Bool.false_ne_true
  have hfirst := List.head?_dropWhile_not (fun e => !a.hasPayload old e) a.elements
  unfold TextArea.replaceElementPayload
  generalize a.elements.takeWhile (fun e => !a.hasPayload old e) = before at hsplit hbefore
  cases hdrop : a.elements.dropWhile fun e => !a.hasPayload old e with
  | nil =>
    rw [hdrop, append_nil] at hsplit
    subst hsplit
    obtain ⟨x, hx, heq⟩ := hany
    obtain ⟨e, he, rfl⟩ := mem_map.1 hx
    exact absurd heq (hbefore e he)
  | cons e after =>
    rw [hdrop] at hsplit hfirst
    have he : e ∈ a.elements := hsplit ▸ mem_append_right _ mem_cons_self
    have hold : (e.snapshot a.text).2 = old := by
      rw [← h.hasPayload_iff he]
      simpa using hfirst
    have hr := h.elements_wf.aligned he
    have hwf := h.elements_wf
    rw [← hsplit] at hwf
    have hnewwf := hwf.renameElements hnew
    have hsnapshots := snapshots_renameElements hwf new
    have hle := hr.le
    have hlen := hr.stop.le
    simp only [if_neg (show ¬ (e.range.start > e.range.stop ∨
      e.range.stop > Str.utf8Size a.text) by omega), hnewwf.sortByStart_eq]
    refine ⟨snapshots a.text before, e.id, snapshots a.text after, ?_, ?_, ⟨⟨?_, hnewwf⟩, ?_⟩,
      hsnapshots, trivial⟩
    · rw [textElementSnapshots, ← hsplit, snapshots, map_append, map_cons, ← hold]
      rfl
    · rw [snapshots]
      simpa only [forall_mem_map] using hbefore
    · exact (clampPosToNearestBoundary_spec hnewwf _).1
    · exact (clampPosToNearestBoundary_spec hnewwf _).2

end TextArea

/-! ## Steps -/

namespace Op

variable (a : TextArea)

/-- Positions and ranges are between characters of the text, and given elements apart. -/
def Valid : Op → Prop
  | .setTextWithElements text ranges =>
    (∀ r ∈ ranges, IsBoundary text r.start ∧ IsBoundary text r.stop) ∧
      (TextArea.nonempty ranges).Pairwise fun r r' => r.stop ≤ r'.start ∨ r'.stop ≤ r.start
  | .insertStrAt pos _ | .setCursor pos => IsBoundary a.text pos
  | .replaceRange range _ | .addElementRange range | .removeElementRange range =>
    range.Aligned a.text
  | _ => True

/-- No element is made without a text, or around the cursor, or under an id that is in use. -/
def Fits : Op → Prop
  | .setTextWithElements _ ranges =>
    a.nextElementId + (TextArea.nonempty ranges).length ≤ maxElementId + 1
  | .insertElement text => text ≠ [] ∧ a.HasFreshId
  | .addElementRange range => range.start < range.stop →
    (∀ e ∈ a.elements, e.range.stop ≤ range.start ∨ range.stop ≤ e.range.start) →
      ¬ (range.start < a.cursorPos ∧ a.cursorPos < range.stop) ∧ a.HasFreshId
  | .replaceElementPayload old new => (∃ x ∈ a.textElementSnapshots, x.2 = old) → new ≠ []
  | _ => True

/-- What an operation writes as elements, by their ids: the texts that it makes elements of or
renames an element to. -/
def written : Op → List (Nat × Str)
  | .setTextWithElements text ranges => (a.setTextWithElements text ranges).textElementSnapshots
  | .insertElement text => [(a.nextElementId, text)]
  | .addElementRange range =>
    match (a.addElementRange range).2 with
    | some id => [(id, Str.slice a.text range.start range.stop)]
    | none => []
  | .replaceElementPayload old new =>
    match a.textElementSnapshots.find? fun x => x.2 = old with
    | some x => [(x.1, new)]
    | none => []
  | _ => []

end Op

namespace Op

variable {p : Platform} {a : TextArea} {op : Op}

/-- An operation that neither makes nor renames elements, and takes no range. -/
def Plain : Op → Prop
  | .setTextWithElements _ _ | .replaceRange _ _ | .replaceElementPayload _ _
  | .insertElement _ | .addElementRange _ => False
  | _ => True

/-- One case of a table of keys. -/
theorem plain_of_ite {c : Prop} [Decidable c] {op' : Op} {rest : Option Op} (hop : op'.Plain)
    (hrest : rest = some op → op.Plain) (h : (if c then some op' else rest) = some op) :
    op.Plain := by
  split at h
  · exact Option.some.inj h ▸ hop
  · exact hrest h

theorem plain_of_none (h : none = some op) : op.Plain := absurd h (Option.some_ne_none op).symm

theorem plain_of_some {op' : Op} (hop : op'.Plain) (h : some op' = some op) : op.Plain :=
  Option.some.inj h ▸ hop

theorem plain_of_charKey {c : Char} {mods : KeyModifiers} :
    KeyEvent.charOp p a c mods = some op → op.Plain := by
  unfold KeyEvent.charOp
  repeat refine plain_of_ite trivial ?_
  exact plain_of_none

/-- Keys stand for such operations. -/
theorem plain_of_key {event : KeyEvent} : event.op p a = some op → op.Plain := by
  unfold KeyEvent.op
  cases event.code with
  | char c => exact plain_of_charKey
  | enter => exact plain_of_some trivial
  | backspace | delete => exact plain_of_ite trivial (plain_of_some trivial)
  | left | right => exact plain_of_ite trivial (plain_of_ite trivial plain_of_none)
  | up => exact plain_of_some trivial
  | down => exact plain_of_some trivial
  | home => exact plain_of_some trivial
  | stop => exact plain_of_some trivial
  | other => exact plain_of_none

theorem Plain.edits (hop : op.Plain) (hp : p.Lawful) (h : a.Aligned) : a.Edits (a.apply p op) := by
  cases op with
  | setTextWithElements => exact hop.elim
  | replaceRange => exact hop.elim
  | replaceElementPayload => exact hop.elim
  | insertElement => exact hop.elim
  | addElementRange => exact hop.elim
  | setTextClearingElements text => exact TextArea.setTextClearingElements_edits a text
  | insertStr text => exact h.insertStr text
  | insertStrAt pos text => exact h.insertStrAt pos text
  | setCursor pos => exact h.setCursor pos
  | wrappedLines width => exact h.wrappedLines width
  | deleteBackward n => exact h.deleteBackward hp n
  | deleteForward n => exact h.deleteForward hp n
  | deleteBackwardWord => exact h.deleteBackwardWord
  | deleteForwardWord => exact h.deleteForwardWord
  | killToEndOfLine => exact h.killToEndOfLine
  | killToBeginningOfLine => exact h.killToBeginningOfLine
  | yank => exact h.yank
  | moveCursorLeft => exact h.moveCursorLeft hp
  | moveCursorRight => exact h.moveCursorRight hp
  | moveCursorUp => exact h.moveCursorUp
  | moveCursorDown => exact h.moveCursorDown
  | moveCursorToBeginningOfLine moveUpAtBol => exact h.moveCursorToBeginningOfLine moveUpAtBol
  | moveCursorToEndOfLine moveDownAtEol => exact h.moveCursorToEndOfLine moveDownAtEol
  | removeElementRange range => exact h.removeElementRange range

theorem edits_input (hp : p.Lawful) (h : a.Aligned) (event : KeyEvent) :
    a.Edits (a.input p event) := by
  unfold TextArea.input
  split
  next op hop => exact (plain_of_key hop).edits hp h
  next => exact h.edits_refl

theorem Plain.written (hop : op.Plain) : op.written a = [] := by
  cases op <;> first | rfl | exact hop.elim

end Op

/-- A text area with the log of its elements, the latest entries first. -/
structure Logged where
  area : TextArea
  log : List (Nat × Str)

namespace Logged

def new : Logged := ⟨.new, []⟩

def apply (p : Platform) (s : Logged) (op : Op) : Logged :=
  ⟨s.area.apply p op, op.written s.area ++ s.log⟩

/-- A call of an operation, or a key. -/
inductive Event where
  | op (op : Op)
  | key (event : KeyEvent)

def next (p : Platform) (s : Logged) : Event → Logged
  | .op op => s.apply p op
  | .key event => ⟨s.area.input p event, s.log⟩

def Event.Valid (s : Logged) : Event → Prop
  | .op o => o.Valid s.area
  | .key _ => True

def Event.Fits (s : Logged) : Event → Prop
  | .op o => o.Fits s.area
  | .key _ => True

/-- The state is well-formed, and every element has the text that was written last under its id. -/
structure Sound (s : Logged) : Prop where
  wf : s.area.Wf
  written : ∀ x ∈ s.area.textElementSnapshots, s.log.lookup x.1 = some x.2

variable {p : Platform} {s : Logged} {a : TextArea} {op : Op} {text : Str}

theorem new_sound : Sound new := ⟨TextArea.new_wf, fun _ hx => absurd hx not_mem_nil⟩

theorem Sound.edits (h : s.Sound) (hedits : s.area.Edits a) : Sound ⟨a, s.log⟩ :=
  ⟨hedits.wf h.wf, fun x hx => h.written x (hedits.snapshots.subset hx)⟩

/-- A new element is logged under an id that no other element has. -/
theorem Sound.inserts (h : s.Sound) (hinserts : s.area.Inserts a text)
    (hfresh : s.area.HasFreshId) : Sound ⟨a, (s.area.nextElementId, text) :: s.log⟩ := by
  refine ⟨hinserts.wf, fun x hx => ?_⟩
  rcases mem_cons.1 (hinserts.perm.mem_iff.1 hx) with rfl | hx
  · exact lookup_cons_self
  · have hne : x.1 ≠ s.area.nextElementId := by
      intro heq
      refine hfresh ?_
      rw [← heq, ← TextArea.map_fst_snapshots]
      exact mem_map_of_mem hx
    have hold := h.written x hx
    rwa [lookup_cons, beq_false_of_ne hne]

theorem Sound.renames {l r : List (Nat × Str)} {id : Nat} {old : Str} (h : s.Sound)
    (hold : s.area.textElementSnapshots = l ++ (id, old) :: r) (hwf : a.Wf)
    (hnew : a.textElementSnapshots = l ++ (id, text) :: r) : Sound ⟨a, (id, text) :: s.log⟩ := by
  have hids := h.wf.elements_wf.ids_nodup
  rw [← TextArea.map_fst_snapshots, hold, map_append, map_cons,
    perm_middle.nodup_iff, nodup_cons, ← map_append] at hids
  refine ⟨hwf, fun x hx => ?_⟩
  rw [hnew, perm_middle.mem_iff] at hx
  rcases mem_cons.1 hx with rfl | hx
  · exact lookup_cons_self
  · have hmem := mem_map_of_mem (f := Prod.fst) hx
    have hne : x.1 ≠ id := fun heq => hids.1 (heq ▸ hmem)
    have hlookup := h.written x (by
      rw [hold, perm_middle.mem_iff]
      exact mem_cons_of_mem _ hx)
    rwa [lookup_cons, beq_false_of_ne hne]

/-- All elements are new, and logged. -/
theorem Sound.of_given (hwf : a.Wf) (log : List (Nat × Str)) :
    Sound ⟨a, a.textElementSnapshots ++ log⟩ := by
  refine ⟨hwf, fun x hx => lookup_eq_some_iff.2 ?_⟩
  have hids := hwf.elements_wf.ids_nodup
  obtain ⟨l, r, hsplit⟩ := append_of_mem hx
  dsimp only at hsplit
  rw [← TextArea.map_fst_snapshots, hsplit, map_append, map_cons,
    perm_middle.nodup_iff, nodup_cons, ← map_append] at hids
  refine ⟨l, r ++ log, ?_, fun y hy => ?_⟩
  · rw [hsplit, append_assoc, cons_append]
  · have hmem := mem_map_of_mem (f := Prod.fst) (mem_append_left r hy)
    rw [bne_iff_ne]
    exact fun heq => hids.1 (heq ▸ hmem)

theorem find?_eq_of_append {l r : List (Nat × Str)} {id : Nat} {old : Str}
    (hl : ∀ x ∈ l, x.2 ≠ old) :
    (l ++ (id, old) :: r).find? (fun x => x.2 = old) = some (id, old) := by
  have hnone : l.find? (fun x => decide (x.2 = old)) = none :=
    List.find?_eq_none.2 fun x hx => by simpa using hl x hx
  rw [List.find?_append, hnone, List.find?_cons_of_pos (by simp), Option.none_or]

/-- A valid operation that fits keeps a logged state sound. -/
theorem Sound.apply (hp : p.Lawful) (h : s.Sound) (hvalid : op.Valid s.area)
    (hfits : op.Fits s.area) : (s.apply p op).Sound := by
  have hwf := h.wf
  by_cases hplain : op.Plain
  · rw [Logged.apply, hplain.written]
    exact h.edits (hplain.edits hp hwf.toAligned)
  cases op with
  | setTextWithElements text ranges =>
    exact .of_given (TextArea.setTextWithElements_wf hvalid.1 hvalid.2 hfits) s.log
  | replaceRange range text => exact h.edits (hwf.replaceRange hvalid text)
  | insertElement text => exact h.inserts (hwf.insertElement hfits.1 hfits.2) hfits.2
  | addElementRange range =>
    obtain hnone | ⟨hinserts, hid, hfresh⟩ := hwf.addElementRange hvalid hfits
    · simp only [Logged.apply, TextArea.apply, Op.written, hnone, nil_append]
      exact h
    · simp only [Logged.apply, TextArea.apply, Op.written, hid, singleton_append]
      exact h.inserts hinserts hfresh
  | replaceElementPayload old new =>
    by_cases hany : ∃ x ∈ s.area.textElementSnapshots, x.2 = old
    · obtain ⟨l, id, r, hold, hl, hnewwf, hnew, -⟩ :=
        hwf.replaceElementPayload (hfits hany) hany
      simp only [Logged.apply, TextArea.apply, Op.written, hold, find?_eq_of_append hl,
        singleton_append]
      exact h.renames hold hnewwf hnew
    · have hnone : ∀ x ∈ s.area.textElementSnapshots, x.2 ≠ old := fun x hx heq =>
        hany ⟨x, hx, heq⟩
      have hfind : s.area.textElementSnapshots.find? (fun x => x.2 = old) = none :=
        List.find?_eq_none.2 fun x hx => by simpa using hnone x hx
      simp only [Logged.apply, TextArea.apply, Op.written, hfind, nil_append,
        hwf.replaceElementPayload_of_not_mem hnone]
      exact h
  | _ => exact absurd trivial hplain

theorem Sound.key (hp : p.Lawful) (h : s.Sound) (event : KeyEvent) :
    Sound ⟨s.area.input p event, s.log⟩ :=
  h.edits (Op.edits_input hp h.wf.toAligned event)

/-! ## Runs -/

structure Step (p : Platform) (s : Logged) (event : Event) (t : Logged) : Prop where
  valid : event.Valid s
  next : t = s.next p event

/-- A step that makes no element out of place. -/
structure FitStep (p : Platform) (s : Logged) (event : Event) (t : Logged) : Prop
    extends Step p s event t where
  fits : event.Fits s

/-- In every run of a text area whose steps fit, the cursor and the elements stay where editing
may go on, and the elements keep the texts that they were given. -/
theorem sound_of_run (hp : p.Lawful) {events : List Event}
    (h : Run (FitStep p) Logged.new events s) : s.Sound := by
  refine h.invariant (fun {s event t} hs hstep => ?_) new_sound
  obtain ⟨⟨hvalid, rfl⟩, hfits⟩ := hstep
  cases event with
  | op op => exact hs.apply hp hvalid hfits
  | key event => exact hs.key hp event

end Logged

/-- Every character is a grapheme of one column. -/
def charPlatform : Platform where
  prevBoundary text pos :=
    .ok (if pos = 0 then none else some (Str.utf8Size (Str.takeBytes pos text).dropLast))
  nextBoundary text pos := .ok ((Str.dropBytes pos text).head?.map fun c => pos + c.utf8Size)
  graphemes text := text.map fun c => [c]
  width text := text.length
  wrap _ _ := []
  windows := false

theorem charPlatform_lawful : charPlatform.Lawful := by
  refine ⟨fun h => ⟨_, rfl, ?_⟩, fun h => ⟨_, rfl, ?_⟩⟩
  · obtain ⟨l, r, rfl, rfl⟩ := h
    intro b hb
    rw [Str.takeBytes_boundary] at hb
    rcases eq_nil_or_concat l with rfl | ⟨l, c, rfl⟩
    · exact absurd hb (by simp)
    · simp only [concat_eq_append, dropLast_concat, Option.ite_none_left_eq_some,
        Option.some.injEq] at hb ⊢
      obtain ⟨-, rfl⟩ := hb
      refine ⟨⟨l, c :: r, by simp, rfl⟩, ?_⟩
      rw [Str.utf8Size_append]
      exact Nat.le_add_right _ _
  · obtain ⟨l, r, rfl, rfl⟩ := h
    intro b hb
    rw [Str.dropBytes_boundary] at hb
    cases r with
    | nil => exact absurd hb (by simp)
    | cons c r =>
      simp only [List.head?_cons, Option.map_some, Option.some.injEq] at hb
      obtain rfl := hb
      exact ⟨⟨l ++ [c], r, by simp, Str.utf8Size_append⟩, Nat.le_add_right _ _⟩

namespace Logged

/-- A placeholder among typed characters, with the cursor moved over it. -/
theorem sound_of_inserted_placeholder : ∃ s, Run (FitStep charPlatform) new
    [.op (.insertStr "see "), .op (.insertElement "[Image #1]"), .key ⟨.left, .none⟩,
      .key ⟨.char 'x', .none⟩] s ∧ s.Sound := by
  have hrun : Run (FitStep charPlatform) new
      [.op (.insertStr "see "), .op (.insertElement "[Image #1]"), .key ⟨.left, .none⟩,
        .key ⟨.char 'x', .none⟩] _ :=
    .cons ⟨⟨trivial, rfl⟩, trivial⟩ (.cons
      ⟨⟨trivial, rfl⟩, by decide, by decide +kernel⟩
      (.cons ⟨⟨trivial, rfl⟩, trivial⟩ (.cons ⟨⟨trivial, rfl⟩, trivial⟩ (.nil _))))
  exact ⟨_, hrun, sound_of_run charPlatform_lawful hrun⟩

/-- `/plan` is marked while the cursor is in it. -/
theorem not_sound_of_marked_cursor :
    charPlatform.Lawful ∧ ∃ s, Run (Step charPlatform) new
      [.op (.insertStr "/plan"), .op (.setCursor 2), .op (.addElementRange ⟨0, 5⟩)] s ∧
      ¬ s.Sound := by
  have hboundary : ∀ pos, Str.isCharBoundary "/plan" pos = true → IsBoundary "/plan" pos :=
    fun _ => Str.isCharBoundary_iff.1
  have htwo := hboundary 2 (by decide +kernel)
  have hrange : Range.Aligned "/plan" ⟨0, 5⟩ :=
    ⟨Str.isBoundary_zero _, hboundary 5 (by decide +kernel), by decide⟩
  refine ⟨charPlatform_lawful, _, .cons ⟨trivial, rfl⟩ (.cons ⟨htwo, rfl⟩
    (.cons ⟨hrange, rfl⟩ (.nil _))), fun h => ?_⟩
  have hout := h.wf.cursor_outside
  revert hout
  unfold Outside
  decide +kernel

end Logged

end SheriMl.Tui
