import SheriMl.Lib.Lines
import SheriMl.Tui.PromptUnits

/-!
# Inputs as units

A word `key=value` is split at the first `=` of its text (`splitAssign`). Where this does not cut an
element, `parse_prompt_inputs` gives the units after it as they are shown (`insertInput_render`).
-/

namespace SheriMl.Tui

open List

section Inputs

variable {ι : Type} (content : ι → Shown)

/-- The key of a word, and the units after the first `=`, unless an element goes on there. -/
def splitAssign : List (TextUnit ι) → Option (Str × Option (List (TextUnit ι)))
  | [] => none
  | .char c :: units =>
    if c = '=' then some ([], some units)
    else (splitAssign units).map fun split => (c :: split.1, split.2)
  | .element i :: units =>
    match Str.splitOnce '=' (content i).text with
    | some (key, value) => some (key, if value = [] then some units else none)
    | none => (splitAssign units).map fun split => ((content i).text ++ split.1, split.2)

/-- The inputs that words give, the latest first. -/
def meantInputs (words : List (List (TextUnit ι))) : List (Str × Option (List (TextUnit ι))) :=
  words.foldl (fun inputs word => ((splitAssign content word).toList ++ inputs)) []

variable {content} {units : List (TextUnit ι)} {start : Nat}

theorem filterMap_elementsOf (hne : ∀ i, (content i).text ≠ []) (offset start : Nat)
    (units : List (TextUnit ι)) :
    (elementsOf content (offset + start) units).filterMap (shiftTextElementLeft · offset) =
      elementsOf content start units := by
  induction units generalizing start with
  | nil => rfl
  | cons unit units ih =>
    cases unit with
    | char c =>
      rw [elementsOf, elementsOf, Nat.add_assoc, ih]
    | element i =>
      have hpos := Str.utf8Size_pos (hne i)
      have hshift : shiftTextElementLeft ⟨⟨offset + start, offset + start +
          Str.utf8Size (content i).text⟩, (content i).placeholder⟩ offset =
          some ⟨⟨start, start + Str.utf8Size (content i).text⟩, (content i).placeholder⟩ := by
        have hstart : offset + start - offset = start := by omega
        have hstop : offset + start + Str.utf8Size (content i).text - offset =
            start + Str.utf8Size (content i).text := by omega
        rw [shiftTextElementLeft]
        simp only [hstart, hstop]
        rw [if_neg (by omega), if_pos (by omega)]
      rw [elementsOf, elementsOf, filterMap_cons, hshift]
      dsimp only
      rw [Nat.add_assoc, ih]

theorem splitOnce_eq_none {c : Char} {s : Str} : Str.splitOnce c s = none ↔ c ∉ s := by
  rw [Str.splitOnce]
  split
  · next hmem => simp [hmem]
  · next hmem => simp [hmem]

theorem splitAssign_eq_none : splitAssign content units = none ↔ '=' ∉ textOf content units := by
  induction units with
  | nil => simp [splitAssign]
  | cons unit units ih =>
    cases unit with
    | char c =>
      rw [splitAssign, textOf_char, mem_cons]
      by_cases hc : c = '='
      · simp [hc]
      · rw [if_neg hc, Option.map_eq_none_iff, ih]
        simp [Ne.symm hc]
    | element i =>
      rw [splitAssign, textOf_element, mem_append]
      cases hsplit : Str.splitOnce '=' (content i).text with
      | some split =>
        have hmem := mt splitOnce_eq_none.2 (by rw [hsplit]; exact Option.some_ne_none split)
        simp [not_not.1 hmem]
      | none =>
        dsimp only
        rw [Option.map_eq_none_iff, ih]
        simp [splitOnce_eq_none.1 hsplit]

theorem filterMap_cons_of_le {start stop offset : Nat} {placeholder : Option Str}
    (h : stop ≤ offset) (elements : List UserTextElement) :
    (⟨⟨start, stop⟩, placeholder⟩ :: elements).filterMap (shiftTextElementLeft · offset) =
      elements.filterMap (shiftTextElementLeft · offset) := by
  have hnone : shiftTextElementLeft ⟨⟨start, stop⟩, placeholder⟩ offset = none := if_pos h
  rw [filterMap_cons, hnone]

theorem splitAssign_eq_some (hne : ∀ i, (content i).text ≠ []) {key : Str}
    {value : Option (List (TextUnit ι))} (h : splitAssign content units = some (key, value))
    (start : Nat) : '=' ∉ key ∧ ∃ text, textOf content units = key ++ '=' :: text ∧
      ∀ rest, value = some rest → text = textOf content rest ∧
        (elementsOf content start units).filterMap
          (shiftTextElementLeft · (start + (Str.utf8Size key + 1))) = elementsOf content 0 rest := by
  induction units generalizing key start with
  | nil => cases h
  | cons unit units ih =>
    cases unit with
    | char c =>
      rw [splitAssign] at h
      split at h
      · next hc =>
        obtain ⟨rfl, rfl⟩ := Prod.mk.inj (Option.some.inj h)
        refine ⟨not_mem_nil, textOf content units, congrArg (· :: _) hc, ?_⟩
        rintro rest heq
        obtain rfl := Option.some.inj heq
        refine ⟨rfl, ?_⟩
        have hsize : c.utf8Size = 1 := by rw [hc]; rfl
        rw [elementsOf, hsize]
        exact filterMap_elementsOf hne (start + 1) 0 units
      · next hc =>
        obtain ⟨⟨key', value'⟩, hsplit, heq⟩ := Option.map_eq_some_iff.1 h
        obtain ⟨rfl, rfl⟩ := Prod.mk.inj heq
        obtain ⟨hkey, text, htext, hvalue⟩ := ih hsplit (start + c.utf8Size)
        refine ⟨?_, text, congrArg (c :: ·) htext, fun rest hrest => ?_⟩
        · rw [mem_cons, not_or]
          exact ⟨Ne.symm hc, hkey⟩
        · obtain ⟨hshown, helements⟩ := hvalue rest hrest
          refine ⟨hshown, ?_⟩
          have hoffset : start + (Str.utf8Size (c :: key') + 1) =
              start + c.utf8Size + (Str.utf8Size key' + 1) := by
            rw [Str.utf8Size_cons]
            omega
          rw [hoffset, elementsOf]
          exact helements
    | element i =>
      rw [splitAssign] at h
      split at h
      · next key' after hsplit =>
        obtain ⟨rfl, rfl⟩ := Prod.mk.inj (Option.some.inj h)
        obtain ⟨htext, hkey⟩ := Str.splitOnce_eq_some.1 hsplit
        refine ⟨hkey, after ++ textOf content units, ?_, fun rest hrest => ?_⟩
        · rw [textOf_element, htext, append_assoc, cons_append]
        · split at hrest
          · next hnil =>
            obtain rfl := Option.some.inj hrest
            refine ⟨by rw [hnil, nil_append], ?_⟩
            have hsize : Str.utf8Size (content i).text = Str.utf8Size key' + 1 := by
              rw [htext, hnil, Str.utf8Size_append]
              rfl
            rw [elementsOf, hsize, filterMap_cons_of_le (Nat.le_refl _)]
            exact filterMap_elementsOf hne (start + (Str.utf8Size key' + 1)) 0 units
          · cases hrest
      · next hsplit =>
        obtain ⟨⟨key', value'⟩, hassign, heq⟩ := Option.map_eq_some_iff.1 h
        obtain ⟨rfl, rfl⟩ := Prod.mk.inj heq
        obtain ⟨hkey, text, htext, hvalue⟩ := ih hassign (start + Str.utf8Size (content i).text)
        refine ⟨?_, text, ?_, fun rest hrest => ?_⟩
        · rw [mem_append, not_or]
          exact ⟨splitOnce_eq_none.1 hsplit, hkey⟩
        · rw [textOf_element, htext, append_assoc]
        · obtain ⟨hshown, helements⟩ := hvalue rest hrest
          refine ⟨hshown, ?_⟩
          have hoffset : start + (Str.utf8Size ((content i).text ++ key') + 1) =
              start + Str.utf8Size (content i).text + (Str.utf8Size key' + 1) := by
            rw [Str.utf8Size_append]
            omega
          rw [hoffset, elementsOf, filterMap_cons_of_le (Nat.le_add_right _ _)]
          exact helements

/-! ## Inputs of a command -/

variable {words : List (List (TextUnit ι))} {word : List (TextUnit ι)}

def HasKey (content : ι → Shown) (word : List (TextUnit ι)) : Prop :=
  ∃ key value, splitAssign content word = some (key, value) ∧ key ≠ []

/-- An input as it is meant: its units shown, unless it cuts an element. -/
def IsInput (content : ι → Shown) (input : Str × PromptArg)
    (meant : Str × Option (List (TextUnit ι))) : Prop :=
  input.1 = meant.1 ∧ ∀ rest, meant.2 = some rest → input.2 = render content rest

/-- A word is an input if it has a key. -/
theorem insertInput_render (hne : ∀ i, (content i).text ≠ []) (inputs : List (Str × PromptArg)) :
    (∃ input meant, HasKey content word ∧ splitAssign content word = some meant ∧
        IsInput content input meant ∧
        insertInput inputs (render content word) = .ok (input :: inputs)) ∨
      ¬ HasKey content word ∧ ∃ error, insertInput inputs (render content word) = .error error := by
  rw [insertInput, render]
  dsimp only
  cases hassign : splitAssign content word with
  | none =>
    have hnone := splitOnce_eq_none.2 (splitAssign_eq_none.1 hassign)
    refine .inr ⟨?_, _, by rw [hnone]⟩
    rintro ⟨key, value, hsome, -⟩
    rw [hassign] at hsome
    cases hsome
  | some meant =>
    obtain ⟨key, value⟩ := meant
    obtain ⟨hkey, text, htext, hvalue⟩ := splitAssign_eq_some hne hassign 0
    rw [Str.splitOnce_eq_some.2 ⟨htext, hkey⟩]
    dsimp only
    by_cases hnil : key = []
    · refine .inr ⟨?_, _, if_pos hnil⟩
      rintro ⟨key', value', hsome, hne'⟩
      rw [hassign] at hsome
      cases hsome
      exact hne' hnil
    · refine .inl ⟨_, (key, value), ⟨key, value, hassign, hnil⟩, rfl, ⟨rfl, ?_⟩, if_neg hnil⟩
      intro rest hrest
      obtain ⟨hshown, helements⟩ := hvalue rest hrest
      rw [Nat.zero_add] at helements
      rw [render, hshown, helements]

theorem foldlM_insertInput (hne : ∀ i, (content i).text ≠ []) {inputs : List (Str × PromptArg)}
    {meant : List (Str × Option (List (TextUnit ι)))}
    (h : List.Forall₂ (IsInput content) inputs meant) :
    ((∀ word ∈ words, HasKey content word) ∧ ∃ result,
        (words.map (render content)).foldlM insertInput inputs = .ok result ∧
          List.Forall₂ (IsInput content) result
            (words.foldl (fun inputs word => (splitAssign content word).toList ++ inputs) meant)) ∨
      ¬ (∀ word ∈ words, HasKey content word) ∧ ∃ error,
        (words.map (render content)).foldlM insertInput inputs = .error error := by
  induction words generalizing inputs meant with
  | nil => exact .inl ⟨fun _ h => absurd h not_mem_nil, inputs, rfl, h⟩
  | cons word words ih =>
    rw [map_cons, foldlM_cons]
    rcases insertInput_render hne inputs with
      ⟨input, entry, hkey, hassign, hinput, hok⟩ | ⟨hkey, error, herror⟩
    · have hentries : List.Forall₂ (IsInput content) (input :: inputs)
          ((splitAssign content word).toList ++ meant) := by
        rw [hassign]
        exact .cons hinput h
      rw [hok]
      rcases ih hentries with ⟨hall, result, hresult, hforall⟩ | ⟨hall, error, herror⟩
      · exact .inl ⟨forall_mem_cons.2 ⟨hkey, hall⟩, result, hresult, hforall⟩
      · exact .inr ⟨fun hwords => hall (forall_mem_cons.1 hwords).2, error, herror⟩
    · rw [herror]
      exact .inr ⟨fun hwords => hkey (forall_mem_cons.1 hwords).1, error, rfl⟩

theorem lookup_inputs {inputs : List (Str × PromptArg)}
    {meant : List (Str × Option (List (TextUnit ι)))}
    (h : List.Forall₂ (IsInput content) inputs meant) (key : Str) :
    inputs.lookup key = none ∧ meant.lookup key = none ∨
      ∃ arg value, inputs.lookup key = some arg ∧ meant.lookup key = some value ∧
        ∀ rest, value = some rest → arg = render content rest := by
  induction h with
  | nil => exact .inl ⟨rfl, rfl⟩
  | @cons input entry inputs meant hentry _ ih =>
    obtain ⟨inputKey, arg⟩ := input
    obtain ⟨meantKey, value⟩ := entry
    obtain ⟨rfl, hvalue⟩ := hentry
    by_cases hkey : key = inputKey
    · subst hkey
      exact .inr ⟨arg, value, lookup_cons_self, lookup_cons_self, hvalue⟩
    · have hbeq : (key == inputKey) = false := beq_false_of_ne hkey
      rw [lookup_cons, lookup_cons, hbeq]
      exact ih

end Inputs

end SheriMl.Tui
