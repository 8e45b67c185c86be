import SheriMl.Lib.Lines
import SheriMl.Tui.PromptUnits

/-!
# What a prompt asks for

The content of a prompt is text and places for arguments (`numericPieces`, `namedPieces`). An
expansion fills these in (`expandNumericPlaceholders_eq`, `expandNamedPlaceholders_eq`), and filled
in with arguments that show units it shows units (`fill_render`).
-/

namespace SheriMl.Tui

open List

/-- A part of a prompt's content: text, or the place of an argument. -/
inductive BodyPiece (κ : Type) where
  | text (s : Str)
  | arg (key : κ)

section Fill

variable {κ ι : Type} {content : ι → Shown}

/-- The pieces of a content, filled in and appended. -/
def fill (args : κ → PromptArg) (out : PromptArg) (pieces : List (BodyPiece κ)) : PromptArg :=
  pieces.foldl (fun out piece =>
    match piece with
    | .text s => out.push s
    | .arg key => out.append (args key)) out

def pieceUnits (values : κ → List (TextUnit ι)) (pieces : List (BodyPiece κ)) :
    List (TextUnit ι) :=
  pieces.flatMap fun
    | .text s => s.map .char
    | .arg key => values key

variable {args : κ → PromptArg} {values : κ → List (TextUnit ι)} {pieces : List (BodyPiece κ)}

@[simp] theorem fill_nil (out : PromptArg) : fill args out [] = out := rfl

@[simp] theorem fill_text (out : PromptArg) (s : Str) (pieces : List (BodyPiece κ)) :
    fill args out (.text s :: pieces) = fill args (out.push s) pieces := rfl

@[simp] theorem fill_arg (out : PromptArg) (key : κ) (pieces : List (BodyPiece κ)) :
    fill args out (.arg key :: pieces) = fill args (out.append (args key)) pieces := rfl

theorem fill_append (out : PromptArg) (pieces pieces' : List (BodyPiece κ)) :
    fill args out (pieces ++ pieces') = fill args (fill args out pieces) pieces' :=
  foldl_append

@[simp] theorem pieceUnits_nil : pieceUnits values [] = [] := rfl

@[simp] theorem pieceUnits_text (s : Str) (pieces : List (BodyPiece κ)) :
    pieceUnits values (.text s :: pieces) = s.map .char ++ pieceUnits values pieces := rfl

@[simp] theorem pieceUnits_arg (key : κ) (pieces : List (BodyPiece κ)) :
    pieceUnits values (.arg key :: pieces) = values key ++ pieceUnits values pieces := rfl

@[simp] theorem pieceUnits_append (pieces pieces' : List (BodyPiece κ)) :
    pieceUnits values (pieces ++ pieces') = pieceUnits values pieces ++ pieceUnits values pieces' :=
  flatMap_append

/-- Arguments that show units make a text that shows them in their places. -/
theorem fill_render (h : ∀ key, .arg key ∈ pieces → args key = render content (values key))
    (units : List (TextUnit ι)) :
    fill args (render content units) pieces =
      render content (units ++ pieceUnits values pieces) := by
  induction pieces generalizing units with
  | nil => rw [fill_nil, pieceUnits_nil, append_nil]
  | cons piece pieces ih =>
    have htail := ih fun key hkey => h key (mem_cons_of_mem _ hkey)
    cases piece with
    | text s =>
      rw [fill_text, PromptArg.push_render, htail, pieceUnits_text, append_assoc]
    | arg key =>
      rw [fill_arg, h key mem_cons_self, PromptArg.append_render, htail, pieceUnits_arg,
        append_assoc]

end Fill

/-! ## Positional arguments -/

/-- Arguments from an index on, joined by blanks. -/
def joinedPieces : Nat → Nat → List (BodyPiece Nat)
  | _, 0 => []
  | idx, count + 1 =>
    (if idx > 0 then [.text [' ']] else []) ++ .arg idx :: joinedPieces (idx + 1) count

/-- The pieces of a content for a number of positional arguments, with what is still to be
skipped. -/
def numericPieces (count : Nat) : Nat → Str → List (BodyPiece Nat)
  | _, [] => []
  | skip + 1, _ :: content => numericPieces count skip content
  | 0, c :: content =>
    if c = '$' then
      if content.head? = some '$' then .text ['$', '$'] :: numericPieces count 1 content
      else
        match positionalIndex content with
        | some idx =>
          (if idx < count then [.arg idx] else []) ++ numericPieces count 1 content
        | none =>
          if Str.startsWith content argumentsName then
            joinedPieces 0 count ++ numericPieces count argumentsName.length content
          else .text ['$'] :: numericPieces count 0 content
    else .text [c] :: numericPieces count 0 content

variable {args : List PromptArg}

theorem appendJoined_eq (before args : List PromptArg) (out : PromptArg) :
    PromptArg.appendJoined before.length out args =
      fill (fun idx => (before ++ args).getD idx .empty) out
        (joinedPieces before.length args.length) := by
  induction args generalizing before out with
  | nil => rfl
  | cons arg args ih =>
    have hhere : (before ++ arg :: args).getD before.length .empty = arg := by simp
    have htail := ih (before ++ [arg])
    rw [length_append, length_singleton, append_assoc,
      singleton_append] at htail
    rw [PromptArg.appendJoined, length_cons, joinedPieces, fill_append, fill_arg, hhere,
      htail]
    split <;> rfl

theorem expandNumericFrom_eq (skip : Nat) (out : PromptArg) (content : Str) :
    expandNumericFrom args skip out content =
      fill (fun idx => args.getD idx .empty) out (numericPieces args.length skip content) := by
  induction content generalizing skip out with
  | nil => cases skip <;> rfl
  | cons c content ih =>
    cases skip with
    | succ skip => exact ih skip out
    | zero =>
      rw [expandNumericFrom, numericPieces]
      split
      · split
        · exact ih 1 _
        · cases hidx : positionalIndex content with
          | some idx =>
            cases harg : args[idx]? with
            | none =>
              have hge := List.getElem?_eq_none_iff.1 harg
              dsimp only
              rw [if_neg hge.not_gt, nil_append, harg]
              exact ih 1 out
            | some arg =>
              obtain ⟨hlt, rfl⟩ := List.getElem?_eq_some_iff.1 harg
              have hget : args.getD idx .empty = args[idx] := by simp [hlt]
              dsimp only
              rw [if_pos hlt, singleton_append, fill_arg, hget, harg]
              exact ih 1 _
          | none =>
            dsimp only
            split
            · have hjoined := appendJoined_eq [] args out
              rw [nil_append, length_nil] at hjoined
              rw [fill_append, hjoined]
              exact ih _ _
            · exact ih 0 _
      · exact ih 0 _

theorem expandNumericPlaceholders_eq (content : Str) (args : List PromptArg) :
    expandNumericPlaceholders content args =
      fill (fun idx => args.getD idx .empty) .empty (numericPieces args.length 0 content) :=
  expandNumericFrom_eq 0 .empty content

theorem lt_of_mem_joinedPieces {idx count key : Nat} (h : .arg key ∈ joinedPieces idx count) :
    key < idx + count := by
  induction count generalizing idx with
  | zero => cases h
  | succ count ih =>
    rcases mem_append.1 h with h | h
    · split at h
      · cases mem_singleton.1 h
      · cases h
    · rcases mem_cons.1 h with h | h
      · cases h
        omega
      · have hlt := ih h
        omega

/-- An argument that is asked for is there. -/
theorem lt_of_mem_numericPieces {count skip key : Nat} {content : Str}
    (h : .arg key ∈ numericPieces count skip content) : key < count := by
  induction content generalizing skip with
  | nil => cases skip <;> cases h
  | cons c content ih =>
    cases skip with
    | succ skip => exact ih h
    | zero =>
      rw [numericPieces] at h
      split at h
      · split at h
        · exact ih ((mem_cons.1 h).resolve_left nofun)
        · split at h
          · rcases mem_append.1 h with h | h
            · split at h
              · next hlt =>
                cases mem_singleton.1 h
                exact hlt
              · cases h
            · exact ih h
          · split at h
            · rcases mem_append.1 h with h | h
              · have hlt := lt_of_mem_joinedPieces h
                omega
              · exact ih h
            · exact ih ((mem_cons.1 h).resolve_left nofun)
      · exact ih ((mem_cons.1 h).resolve_left nofun)

/-! ## Named arguments -/

def matchPieces (has : Str → Bool) (m : PromptArgMatch) : List (BodyPiece Str) :=
  if m.escaped then [.text (m.before ++ '$' :: m.name)]
  else [.text m.before, if has m.name then .arg m.name else .text ('$' :: m.name)]

/-- The pieces of a content, where some names have values. -/
def namedPieces (has : Str → Bool) (content : Str) : List (BodyPiece Str) :=
  let (found, after) := findIter 0 [] content
  found.flatMap (matchPieces has) ++ [.text after]

variable {inputs : List (Str × PromptArg)} {content name rest before : Str} {has : Str → Bool}
  {key : Str}

theorem expandMatch_eq (out : PromptArg) (m : PromptArgMatch) : expandMatch inputs out m =
    fill (fun key => (inputs.lookup key).getD .empty) out
      (matchPieces (fun key => (inputs.lookup key).isSome) m) := by
  rw [expandMatch, matchPieces]
  split
  · rfl
  · cases hlookup : inputs.lookup m.name with
    | none =>
      rw [Option.isSome_none, if_neg Bool.false_ne_true]
      rfl
    | some arg =>
      rw [Option.isSome_some, if_pos rfl, fill_text, fill_arg, hlookup]
      rfl

theorem expandNamedPlaceholders_eq (content : Str) (inputs : List (Str × PromptArg)) :
    expandNamedPlaceholders content inputs =
      fill (fun key => (inputs.lookup key).getD .empty) .empty
        (namedPieces (fun key => (inputs.lookup key).isSome) content) := by
  have hmatches (found : List PromptArgMatch) (out : PromptArg) :
      found.foldl (expandMatch inputs) out =
        fill (fun key => (inputs.lookup key).getD .empty) out
          (found.flatMap (matchPieces fun key => (inputs.lookup key).isSome)) := by
    induction found generalizing out with
    | nil => rfl
    | cons m found ih =>
      rw [foldl_cons, flatMap_cons, fill_append, ih, expandMatch_eq]
  rw [expandNamedPlaceholders, namedPieces]
  dsimp only
  rw [hmatches, fill_append]
  rfl

/-- An upper-case letter, and then upper-case letters, digits and underscores. -/
structure IsArgName (name : Str) : Prop where
  start : name.head?.any isNameStart = true
  chars : ∀ c ∈ name, isNameChar c = true

theorem isArgName_of_mem_findIter {skip : Nat} {m : PromptArgMatch}
    (h : m ∈ (findIter skip before content).1) : IsArgName m.name := by
  induction content generalizing skip before with
  | nil => cases skip <;> cases h
  | cons c content ih =>
    cases skip with
    | succ skip => exact ih h
    | zero =>
      rw [findIter] at h
      split at h
      · next hmatch =>
        rcases mem_cons.1 h with rfl | h
        · refine ⟨?_, fun d hd => mem_takeWhile_imp hd⟩
          cases content with
          | nil => cases hmatch.2
          | cons d content =>
            have hstart : isNameStart d = true := hmatch.2
            have hchar : isNameChar d = true := by
              rw [isNameChar, hstart]
              rfl
            rw [takeWhile_cons_of_pos hchar]
            exact hstart
        · exact ih h
      · exact ih h

/-- A name that is asked for is found. -/
theorem findIter_name (h : IsArgName name) (hrest : rest.head?.all (! isNameChar ·)) :
    findIter 0 before ('$' :: (name ++ rest)) =
      (⟨before, name⟩ :: (findIter 0 [] rest).1, (findIter 0 [] rest).2) := by
  have hskip (passed : Str) : findIter passed.length [] (passed ++ rest) = findIter 0 [] rest := by
    induction passed with
    | nil => rfl
    | cons c passed ih => exact ih
  have htake : (name ++ rest).takeWhile isNameChar = name := by
    rw [takeWhile_append_of_pos h.chars]
    cases rest with
    | nil => exact append_nil name
    | cons c rest =>
      have hc : isNameChar c = false := by simpa using hrest
      rw [takeWhile_cons_of_neg (by rw [hc]; exact Bool.false_ne_true), append_nil]
  have hhead : (name ++ rest).head?.any isNameStart = true := by
    cases hname : name with
    | nil =>
      have hstart := h.start
      rw [hname] at hstart
      cases hstart
    | cons c name =>
      have hstart := h.start
      rw [hname] at hstart
      exact hstart
  rw [findIter, if_pos ⟨rfl, hhead⟩, htake]
  dsimp only
  rw [hskip]

theorem mem_promptArgumentNames : key ∈ promptArgumentNames content ↔
    ∃ m ∈ (findIter 0 [] content).1, m.escaped = false ∧ m.name = key ∧ key ≠ argumentsName := by
  rw [promptArgumentNames]
  induction (findIter 0 [] content).1 using List.reverseRecOn with
  | nil => simp
  | append_singleton found m ih =>
    rw [foldl_concat]
    simp only [mem_append, mem_singleton, or_and_right, exists_or, exists_eq_left]
    rw [← ih]
    split
    · next hskip =>
      refine ⟨.inl, ?_⟩
      rintro (hmem | ⟨hescaped, rfl, hne⟩)
      · exact hmem
      rcases hskip with hskip | hskip | hskip
      · rw [hescaped] at hskip
        cases hskip
      · exact absurd hskip hne
      · exact hskip
    · next hskip =>
      obtain ⟨hescaped, hne, -⟩ : ¬ m.escaped = true ∧ ¬ m.name = argumentsName ∧ _ := by
        rwa [not_or, not_or] at hskip
      rw [mem_append, mem_singleton]
      refine or_congr_right ⟨?_, fun h => h.2.1.symm⟩
      rintro rfl
      exact ⟨Bool.eq_false_iff.2 hescaped, rfl, hne⟩

theorem arg_mem_namedPieces : .arg key ∈ namedPieces has content ↔
    ∃ m ∈ (findIter 0 [] content).1, m.escaped = false ∧ m.name = key ∧ has key = true := by
  have hmatch (m : PromptArgMatch) : .arg key ∈ matchPieces has m ↔
      m.escaped = false ∧ m.name = key ∧ has key = true := by
    rw [matchPieces]
    cases m.escaped with
    | true => simp
    | false =>
      by_cases hhas : has m.name = true
      · simp only [hhas, if_true, Bool.false_eq_true, if_false, mem_cons, reduceCtorEq,
          BodyPiece.arg.injEq, not_mem_nil, or_false, false_or, true_and]
        refine ⟨?_, fun h => h.1.symm⟩
        rintro rfl
        exact ⟨rfl, hhas⟩
      · simp only [hhas, Bool.false_eq_true, if_false, mem_cons, reduceCtorEq,
          not_mem_nil, or_false, true_and, false_iff, not_and]
        rintro rfl
        exact hhas
  rw [namedPieces]
  simp [hmatch]

end SheriMl.Tui
