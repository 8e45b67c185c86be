import SheriMl.Lib.ShellWords
import SheriMl.Tui.PromptArgs

/-!
# Texts with elements as units

The abstract reading of a text with elements: a list of characters and of elements that are not
taken apart. Shown, it is a text and the ranges of its elements (`render`), which are in bounds, at
boundaries, sorted and disjoint, and each over its element's own text (`render_elements`). What is
shown can be read in one way only (`sameUnits_of_render`).
-/

namespace SheriMl.Tui

open List

open Str (IsBoundary)

/-- A character, or an element that is not taken apart. -/
inductive TextUnit (ι : Type) where
  | char (c : Char)
  | element (i : ι)
  deriving DecidableEq

/-- What an element shows: its text and its placeholder. -/
structure Shown where
  text : Str
  placeholder : Option Str

namespace TextUnit

variable {ι : Type}

/-- The shell takes an element for an ordinary letter. -/
def kind : TextUnit ι → ShellWords.Kind
  | .char c => ShellWords.charKind c
  | .element _ => .ordinary

/-- A text for each element. -/
def write (text : ι → Str) : TextUnit ι → Str
  | .char c => [c]
  | .element i => text i

end TextUnit

section Render

variable {ι : Type} (content : ι → Shown)

def textOf (units : List (TextUnit ι)) : Str :=
  units.flatMap (TextUnit.write fun i => (content i).text)

def elementsOf : Nat → List (TextUnit ι) → List UserTextElement
  | _, [] => []
  | start, .char c :: units => elementsOf (start + c.utf8Size) units
  | start, .element i :: units =>
    let stop := start + Str.utf8Size (content i).text
    ⟨⟨start, stop⟩, (content i).placeholder⟩ :: elementsOf stop units

def render (units : List (TextUnit ι)) : PromptArg :=
  ⟨textOf content units, elementsOf content 0 units⟩

variable {content} {units units' : List (TextUnit ι)} {start : Nat}

@[simp] theorem textOf_nil : textOf content [] = [] := rfl

@[simp] theorem textOf_char (c : Char) (units : List (TextUnit ι)) :
    textOf content (.char c :: units) = c :: textOf content units := rfl

@[simp] theorem textOf_element (i : ι) (units : List (TextUnit ι)) :
    textOf content (.element i :: units) = (content i).text ++ textOf content units := rfl

@[simp] theorem textOf_append (units units' : List (TextUnit ι)) :
    textOf content (units ++ units') = textOf content units ++ textOf content units' :=
  flatMap_append

@[simp] theorem textOf_chars (s : Str) : textOf content (s.map .char) = s := by
  induction s with
  | nil => rfl
  | cons c s ih => exact congrArg (c :: ·) ih

@[simp] theorem elementsOf_chars (start : Nat) (s : Str) :
    elementsOf content start (s.map .char) = [] := by
  induction s generalizing start with
  | nil => rfl
  | cons c s ih => exact ih _

theorem elementsOf_append (start : Nat) (units units' : List (TextUnit ι)) :
    elementsOf content start (units ++ units') = elementsOf content start units ++
      elementsOf content (start + Str.utf8Size (textOf content units)) units' := by
  induction units generalizing start with
  | nil => rfl
  | cons unit units ih =>
    cases unit with
    | char c =>
      rw [cons_append, elementsOf, elementsOf, ih, textOf_char, Str.utf8Size_cons,
        Nat.add_assoc]
    | element i =>
      rw [cons_append, elementsOf, elementsOf, ih, textOf_element, Str.utf8Size_append,
        Nat.add_assoc]
      rfl

theorem elementsOf_add (offset start : Nat) (units : List (TextUnit ι)) :
    elementsOf content (offset + start) units = (elementsOf content start units).map fun elem =>
      { elem with
        byteRange := ⟨offset + elem.byteRange.start, offset + elem.byteRange.stop⟩ } := by
  induction units generalizing start with
  | nil => rfl
  | cons unit units ih =>
    cases unit with
    | char c => rw [elementsOf, elementsOf, Nat.add_assoc, ih]
    | element i =>
      rw [elementsOf, elementsOf, Nat.add_assoc, ih]
      rfl

theorem PromptArg.append_render (units units' : List (TextUnit ι)) :
    (render content units).append (render content units') = render content (units ++ units') := by
  rw [render, render, render, PromptArg.append, textOf_append, elementsOf_append, Nat.zero_add]
  exact congrArg (PromptArg.mk _ <| elementsOf content 0 units ++ ·)
    (elementsOf_add (Str.utf8Size (textOf content units)) 0 units').symm

theorem PromptArg.push_render (units : List (TextUnit ι)) (s : Str) :
    (render content units).push s = render content (units ++ s.map .char) := by
  rw [render, render, PromptArg.push, textOf_append, elementsOf_append, textOf_chars,
    elementsOf_chars, append_nil]

theorem render_congr {content' : ι → Shown}
    (h : ∀ i, .element i ∈ units → content i = content' i) :
    render content units = render content' units := by
  have htext : textOf content units = textOf content' units := by
    refine flatMap_congr fun unit hunit => ?_
    cases unit with
    | char c => rfl
    | element i => exact congrArg Shown.text (h i hunit)
  have helements (start : Nat) :
      elementsOf content start units = elementsOf content' start units := by
    clear htext
    induction units generalizing start with
    | nil => rfl
    | cons unit units ih =>
      have htail := ih fun i hi => h i (mem_cons_of_mem _ hi)
      cases unit with
      | char c => exact htail _
      | element i =>
        rw [elementsOf, elementsOf, h i mem_cons_self, htail]
  rw [render, render, htext, helements]

/-- The elements of a text are in bounds, at boundaries, sorted and disjoint, and each is over the
text of an element of the units. -/
structure ElementsShown (content : ι → Shown) (units : List (TextUnit ι)) (text : Str)
    (elements : List UserTextElement) : Prop where
  aligned : ∀ x ∈ elements, x.byteRange.Aligned text
  sorted : elements.Pairwise fun x y => x.byteRange.stop ≤ y.byteRange.start
  shown : ∀ x ∈ elements, ∃ i, TextUnit.element i ∈ units ∧
    Str.slice text x.byteRange.start x.byteRange.stop = (content i).text ∧
      x.placeholder = (content i).placeholder

theorem le_start_of_mem_elementsOf {x : UserTextElement} (h : x ∈ elementsOf content start units) :
    start ≤ x.byteRange.start := by
  induction units generalizing start with
  | nil => cases h
  | cons unit units ih =>
    cases unit with
    | char c => exact (Nat.le_add_right _ _).trans (ih h)
    | element i =>
      rcases mem_cons.1 h with rfl | h
      · exact Nat.le_refl _
      · exact (Nat.le_add_right _ _).trans (ih h)

theorem elementsShown_from (before : Str) (units : List (TextUnit ι)) :
    ElementsShown content units (before ++ textOf content units)
      (elementsOf content (Str.utf8Size before) units) := by
  induction units generalizing before with
  | nil => exact ⟨fun _ h => absurd h not_mem_nil, List.Pairwise.nil,
      fun _ h => absurd h not_mem_nil⟩
  | cons unit units ih =>
    cases unit with
    | char c =>
      have hrest := ih (before ++ [c])
      rw [append_assoc, singleton_append, Str.utf8Size_append, Str.utf8Size_cons,
        Str.utf8Size_nil, Nat.add_zero] at hrest
      refine ⟨hrest.aligned, hrest.sorted, fun x hx => ?_⟩
      obtain ⟨i, hi, hshown⟩ := hrest.shown x hx
      exact ⟨i, mem_cons_of_mem _ hi, hshown⟩
    | element i =>
      have hrest := ih (before ++ (content i).text)
      rw [append_assoc, Str.utf8Size_append] at hrest
      rw [elementsOf, textOf_element]
      refine ⟨?_, pairwise_cons.2 ⟨fun x hx => le_start_of_mem_elementsOf hx, hrest.sorted⟩,
        ?_⟩
      · intro x hx
        rcases mem_cons.1 hx with rfl | hx
        · refine ⟨Str.isBoundary_append _ _, ?_, Nat.le_add_right _ _⟩
          have hstop := Str.isBoundary_append (before ++ (content i).text) (textOf content units)
          rwa [append_assoc, Str.utf8Size_append] at hstop
        · exact hrest.aligned x hx
      · intro x hx
        rcases mem_cons.1 hx with rfl | hx
        · refine ⟨i, mem_cons_self, ?_, rfl⟩
          dsimp only
          rw [← append_assoc, ← Str.utf8Size_append, Str.slice_append]
        · obtain ⟨j, hj, hshown⟩ := hrest.shown x hx
          exact ⟨j, mem_cons_of_mem _ hj, hshown⟩

theorem render_elements (content : ι → Shown) (units : List (TextUnit ι)) :
    ElementsShown content units (render content units).text
      (render content units).textElements :=
  elementsShown_from [] units

/-- Characters that are the same, or elements that show the same. -/
def SameUnit (content content' : ι → Shown) : TextUnit ι → TextUnit ι → Prop
  | .char c, .char d => c = d
  | .element i, .element j => content i = content' j
  | _, _ => False

/-- Where elements show something, a shown text is read in one way only. -/
theorem sameUnits_of_eq {content' : ι → Shown}
    (htext : textOf content units = textOf content' units')
    (helements : elementsOf content start units = elementsOf content' start units') :
    List.Forall₂ (SameUnit content content') units units' := by
  induction units generalizing start units' with
  | nil =>
    cases units' with
    | nil => exact .nil
    | cons unit units' =>
      cases unit with
      | char d => cases htext
      | element j => cases helements
  | cons unit units ih =>
    cases units' with
    | nil =>
      cases unit with
      | char c => cases htext
      | element i => cases helements
    | cons unit' units' =>
      cases unit with
      | char c =>
        have hpos := c.utf8Size_pos
        cases unit' with
        | char d =>
          obtain ⟨hc, htail⟩ := List.cons.inj htext
          subst hc
          exact .cons rfl (ih htail helements)
        | element j =>
          rw [elementsOf, elementsOf] at helements
          have hmem := le_start_of_mem_elementsOf (helements ▸ mem_cons_self)
          dsimp only at hmem
          omega
      | element i =>
        cases unit' with
        | char d =>
          have hpos := d.utf8Size_pos
          rw [elementsOf, elementsOf] at helements
          have hmem := le_start_of_mem_elementsOf (helements ▸ mem_cons_self)
          dsimp only at hmem
          omega
        | element j =>
          rw [elementsOf, elementsOf] at helements
          obtain ⟨hhead, htail⟩ := List.cons.inj helements
          obtain ⟨hrange, hplaceholder⟩ := UserTextElement.mk.inj hhead
          have hstop := (Range.mk.inj hrange).2
          have hsize := Nat.add_left_cancel hstop
          rw [textOf_element, textOf_element] at htext
          have hsame : (content i).text = (content' j).text := by
            rw [← Str.takeBytes_boundary (content i).text (textOf content units), htext, hsize,
              Str.takeBytes_boundary]
          rw [hsame] at htext
          rw [hstop] at htail
          refine .cons ?_ (ih (append_cancel_left htext) htail)
          show content i = content' j
          cases hi : content i
          cases hj : content' j
          rw [hi, hj] at hsame hplaceholder
          dsimp only at hsame hplaceholder
          rw [hsame, hplaceholder]

theorem sameUnits_of_render {content' : ι → Shown}
    (h : render content units = render content' units') :
    List.Forall₂ (SameUnit content content') units units' :=
  sameUnits_of_eq (congrArg PromptArg.text h) (congrArg PromptArg.textElements h)

end Render

end SheriMl.Tui
