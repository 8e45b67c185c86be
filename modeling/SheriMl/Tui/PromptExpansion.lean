import SheriMl.Tui.PromptBodies
import SheriMl.Tui.PromptElements
import SheriMl.Tui.PromptInputs

/-!
# Elements of expanded prompts

What an expansion is meant to be: the shell's words of the command, in which no element is taken
apart, in the places of the prompt's content (`MeantExpansion`). Then the elements of the text are
in bounds, at boundaries, sorted and disjoint, and each is over the whole text of the element of the
command that it was (`ElementsKept`). This is so for every prompt if and only if no sentinel begins
at a character of a word, no element is cut where the rest of the command begins, and none by the
`=` of an input that a prompt can take (`elementsKept_iff`). Text before an element can make a
sentinel with it (`elements_not_kept`).
-/

namespace SheriMl.Tui

open Str (IsBoundary)

section Meant

variable (text : Str) (offset : Nat) (kept : List UserTextElement)

/-- The inputs of a command, by the whole elements. -/
def commandInputs : List (Str × Option (List (TextUnit (Fin kept.length)))) :=
  meantInputs (wholeElement text kept) (commandWords text offset kept)

/-- The expansion of a prompt with the words of the command in the places of the arguments, where
none of them is a cut input. -/
def MeantExpansion (content : Str) (out : PromptArg) : Prop :=
  if promptArgumentNames content ≠ [] then
    let inputs := commandInputs text offset kept
    let pieces := namedPieces (fun key => (inputs.lookup key).isSome) content
    (∀ key, .arg key ∈ pieces → inputs.lookup key ≠ some none) ∧
      out = render (wholeElement text kept)
        (pieceUnits (fun key => (inputs.lookup key).join.getD []) pieces)
  else
    let words := commandWords text offset kept
    out = render (wholeElement text kept)
      (pieceUnits (fun idx => words.getD idx []) (numericPieces words.length 0 content))

end Meant

/-- The elements of an expansion: well formed, each over the text of the element that it was, and no
others than the command's. -/
structure ElementsKept (text : Str) (elements : List UserTextElement)
    (customPrompts : List CustomPrompt) (out : PromptArg) : Prop where
  aligned : ∀ x ∈ out.textElements, x.byteRange.Aligned out.text
  sorted : out.textElements.Pairwise fun x y => x.byteRange.stop ≤ y.byteRange.start
  covers : ∀ x ∈ out.textElements, ∃ e ∈ elements,
    Str.slice out.text x.byteRange.start x.byteRange.stop =
      Str.slice text e.byteRange.start e.byteRange.stop ∧ x.placeholder = e.placeholderIn text
  meant : ∃ promptName rest offset prompt,
    parseSlashName text = some (promptsCmdPrefix ++ promptName, rest, offset) ∧
      customPrompts.find? (·.name = promptName) = some prompt ∧
        MeantExpansion text offset (keptElements offset elements) prompt.content out

/-- A name that a prompt can take the value of: one that it can require, or one beside that. -/
def Askable {α : Type} (inputs : List (Str × α)) (key : Str) : Prop :=
  IsArgName key ∧ (key ≠ argumentsName ∨
    ∃ other, IsArgName other ∧ other ≠ argumentsName ∧ (inputs.lookup other).isSome)

/-- A command whose elements can be put back into its words. -/
structure WordsRestorable (text rest : Str) (offset : Nat) (kept : List UserTextElement) :
    Prop where
  /-- no sentinel begins at a character of a word -/
  noStray : ∀ word ∈ commandWords text offset kept,
    NoStray (sentinelOf rest) (List.finRange kept.length) word
  /-- no element begins before the rest -/
  whole : ∀ word ∈ commandWords text offset kept, ∀ i, .element i ∈ word →
    offset ≤ (kept.get i).byteRange.start

/-- A command whose elements can be put back, and are in the inputs as a whole. -/
structure Restorable (text rest : Str) (offset : Nat) (kept : List UserTextElement) : Prop
    extends WordsRestorable text rest offset kept where
  /-- no element goes on after the `=` of an input -/
  inputs : (∀ word ∈ commandWords text offset kept, HasKey (wholeElement text kept) word) →
    ∀ key, Askable (commandInputs text offset kept) key →
      (commandInputs text offset kept).lookup key ≠ some none

/-! ## The command -/

variable {text before rest : Str} {offset : Nat} {elements kept : List UserTextElement}
  {shlex : Str → List Str} {customPrompts : List CustomPrompt} {out : PromptArg}

theorem parseSlashName_spec {name : Str} (h : parseSlashName text = some (name, rest, offset)) :
    ∃ before, text = before ++ rest ∧ Str.utf8Size before = offset ∧
      (Str.trim rest = [] → rest = []) := by
  rw [parseSlashName] at h
  split at h
  · cases h
  · next stripped hstripped =>
    dsimp only at h
    split at h
    · cases h
    · simp only [Option.some.injEq, Prod.mk.injEq] at h
      obtain ⟨rfl, rfl, rfl⟩ := h
      have htext := Str.stripPrefix_eq_some.1 hstripped
      have hname := List.takeWhile_append_dropWhile (p := fun c => !Str.isWhitespace c)
        (l := stripped)
      generalize stripped.takeWhile (fun c => !Str.isWhitespace c) = name at hname ⊢
      generalize stripped.dropWhile (fun c => !Str.isWhitespace c) = untrimmed at hname ⊢
      have hrest := List.takeWhile_append_dropWhile (p := Str.isWhitespace) (l := untrimmed)
      have hsize := congrArg Str.utf8Size hrest
      rw [Str.utf8Size_append] at hsize
      refine ⟨"/" ++ name ++ untrimmed.takeWhile Str.isWhitespace, ?_, ?_, ?_⟩
      · rw [htext, ← hname, List.append_assoc, List.append_assoc]
        exact congrArg (fun s => "/".toList ++ (name ++ s)) hrest.symm
      · have hslash : Str.utf8Size ("/" : Str) = 1 := by decide
        rw [Str.utf8Size_append, Str.utf8Size_append, hslash, Str.trimStart]
        omega
      · intro htrim
        cases hstart : Str.trimStart untrimmed with
        | nil => rfl
        | cons c s =>
          have hc : Str.isWhitespace c = false := by
            have hhead := List.head?_dropWhile_not Str.isWhitespace untrimmed
            rw [Str.trimStart] at hstart
            rw [hstart] at hhead
            exact hhead
          rw [hstart] at htrim
          exact absurd htrim (Str.trim_cons_ne_nil hc s)

theorem wholeElement_ne_nil (hkept : ∀ e ∈ kept, e.byteRange.Aligned text ∧ e.Reaches offset)
    (i : Fin kept.length) : (wholeElement text kept i).text ≠ [] := by
  obtain ⟨haligned, hreaches⟩ := hkept _ (List.get_mem kept i)
  have hsize := utf8Size_slice haligned.start haligned.stop haligned.le
  have hlt := hreaches.1
  intro hnil
  rw [wholeElement] at hnil
  dsimp only at hnil
  rw [hnil, Str.utf8Size_nil] at hsize
  omega

theorem WordsRestorable.parseTokens_eq
    (hshlex : ∀ s, shlex s = ShellWords.split ShellWords.charKind s)
    (helements : ElementsDisjoint (before ++ rest) elements)
    (hkept : kept = keptElements (Str.utf8Size before) elements)
    (h : WordsRestorable (before ++ rest) rest (Str.utf8Size before) kept) :
    parseTokensWithElements shlex rest
        (elements.filterMap (localElement (Str.utf8Size rest) (Str.utf8Size before))) =
      (commandWords (before ++ rest) (Str.utf8Size before) kept).map
        (render (wholeElement (before ++ rest) kept)) := by
  have hspec := keptElements_spec helements
  rw [← hkept] at hspec
  rw [SheriMl.Tui.parseTokens_eq hshlex helements hkept]
  refine List.map_congr_left fun word hword => ?_
  rw [parseUnits_withSentinels (sentinelsApart rest kept.length) (h.noStray word hword)]
  exact render_congr fun i hi => (localElementShown_eq_iff hspec i).2 (h.whole word hword i hi)

/-! ## Elements that can be put back -/

def ExpandsTo (shlex : Str → List Str) (rest : Str) (localElements : List UserTextElement)
    (content : Str) (out : PromptArg) : Prop :=
  if promptArgumentNames content ≠ [] then
    ∃ inputs, parsePromptInputs shlex rest localElements = .ok inputs ∧
      (∀ key ∈ promptArgumentNames content, (inputs.lookup key).isSome) ∧
        out = expandNamedPlaceholders content inputs
  else
    out = expandNumericPlaceholders content (parseTokensWithElements shlex rest localElements)

theorem expandCustomPrompt_eq_some_iff :
    expandCustomPrompt shlex text elements customPrompts = .ok (some out) ↔
      ∃ promptName rest offset prompt,
        parseSlashName text = some (promptsCmdPrefix ++ promptName, rest, offset) ∧
          customPrompts.find? (·.name = promptName) = some prompt ∧
            ExpandsTo shlex rest
              (elements.filterMap (localElement (Str.utf8Size rest) offset)) prompt.content
              out := by
  rw [expandCustomPrompt]
  constructor
  · intro h
    split at h
    · cases h
    · next name rest offset hparse =>
      split at h
      · cases h
      · next promptName hname =>
        split at h
        · cases h
        · next prompt hprompt =>
          obtain rfl := Str.stripPrefix_eq_some.1 hname
          refine ⟨promptName, rest, offset, prompt, hparse, hprompt, ?_⟩
          rw [ExpandsTo]
          dsimp only at h
          split at h
          · next hrequired =>
            rw [if_pos hrequired]
            split at h
            · cases h
            · next inputs hinputs =>
              split at h
              · cases h
              · next hmissing =>
                cases h
                refine ⟨inputs, hinputs, fun key hkey => ?_, rfl⟩
                rw [not_not, List.filter_eq_nil_iff] at hmissing
                simpa [Option.isSome_iff_ne_none] using hmissing key hkey
          · next hrequired =>
            rw [if_neg hrequired]
            cases h
            rfl
  · rintro ⟨promptName, rest, offset, prompt, hparse, hprompt, hexpands⟩
    have hname := Str.stripPrefix_eq_some.2 (rfl : promptsCmdPrefix ++ promptName = _)
    rw [hparse]
    dsimp only
    rw [hname]
    dsimp only
    rw [hprompt]
    dsimp only
    rw [ExpandsTo] at hexpands
    split
    · next hrequired =>
      rw [if_pos hrequired] at hexpands
      obtain ⟨inputs, hinputs, hkeys, rfl⟩ := hexpands
      rw [hinputs]
      dsimp only
      rw [if_neg]
      rw [not_not, List.filter_eq_nil_iff]
      intro key hkey
      simpa [Option.isSome_iff_ne_none] using hkeys key hkey
    · next hrequired =>
      rw [if_neg hrequired] at hexpands
      rw [hexpands]

/-- A name that is asked for is one that can be. -/
theorem askable_of_mem {α : Type} {inputs : List (Str × α)} {content key : Str}
    (hkeys : ∀ key ∈ promptArgumentNames content, (inputs.lookup key).isSome)
    (hrequired : promptArgumentNames content ≠ [])
    (hkey : .arg key ∈ namedPieces (fun key => (inputs.lookup key).isSome) content) :
    Askable inputs key := by
  obtain ⟨m, hm, -, rfl, -⟩ := arg_mem_namedPieces.1 hkey
  refine ⟨isArgName_of_mem_findIter hm, or_iff_not_imp_left.2 fun _ => ?_⟩
  obtain ⟨other, hother⟩ := List.exists_mem_of_ne_nil _ hrequired
  obtain ⟨m', hm', -, rfl, hne⟩ := mem_promptArgumentNames.1 hother
  exact ⟨m'.name, isArgName_of_mem_findIter hm', hne, hkeys _ hother⟩

theorem Askable.exists_content {α : Type} {inputs : List (Str × α)} {key : Str}
    (h : Askable inputs key) (hkey : (inputs.lookup key).isSome) :
    ∃ content, promptArgumentNames content ≠ [] ∧
      (∀ key ∈ promptArgumentNames content, (inputs.lookup key).isSome) ∧
        .arg key ∈ namedPieces (fun key => (inputs.lookup key).isSome) content := by
  have hend : findIter 0 [] ('$' :: (key ++ [])) = _ := findIter_name h.1 rfl
  rw [List.append_nil] at hend
  by_cases hne : key = argumentsName
  · obtain ⟨other, hother, hother', hsome⟩ := h.2.resolve_left (not_not.2 hne)
    have hboth : findIter 0 [] ('$' :: (other ++ '$' :: key)) = _ := findIter_name hother rfl
    rw [hend] at hboth
    refine ⟨'$' :: (other ++ '$' :: key), ?_, ?_, ?_⟩
    · refine List.ne_nil_of_mem (a := other) (mem_promptArgumentNames.2 ?_)
      rw [hboth]
      exact ⟨_, List.mem_cons_self, rfl, rfl, hother'⟩
    · intro name hname
      obtain ⟨m, hm, -, rfl, hname'⟩ := mem_promptArgumentNames.1 hname
      rw [hboth] at hm
      rcases List.mem_cons.1 hm with rfl | hm
      · exact hsome
      · rcases List.mem_cons.1 hm with rfl | hm
        · exact absurd hne hname'
        · cases hm
    · rw [arg_mem_namedPieces, hboth]
      exact ⟨_, List.mem_cons_of_mem _ List.mem_cons_self, rfl, rfl, hkey⟩
  · refine ⟨'$' :: key, ?_, ?_, ?_⟩
    · refine List.ne_nil_of_mem (a := key) (mem_promptArgumentNames.2 ?_)
      rw [hend]
      exact ⟨_, List.mem_cons_self, rfl, rfl, hne⟩
    · intro name hname
      obtain ⟨m, hm, -, rfl, -⟩ := mem_promptArgumentNames.1 hname
      rw [hend] at hm
      rcases List.mem_cons.1 hm with rfl | hm
      · exact hkey
      · cases hm
    · rw [arg_mem_namedPieces, hend]
      exact ⟨_, List.mem_cons_self, rfl, rfl, hkey⟩

section Command

variable (hshlex : ∀ s, shlex s = ShellWords.split ShellWords.charKind s)
  (helements : ElementsDisjoint (before ++ rest) elements)
  (hkept : kept = keptElements (Str.utf8Size before) elements)

include hshlex helements hkept

/-- The inputs of a command whose elements can be put back, if all its words have keys. -/
theorem WordsRestorable.parsePromptInputs
    (h : WordsRestorable (before ++ rest) rest (Str.utf8Size before) kept)
    (hrest : Str.trim rest ≠ []) :
    ((∀ word ∈ commandWords (before ++ rest) (Str.utf8Size before) kept,
        HasKey (wholeElement (before ++ rest) kept) word) ∧ ∃ inputs,
      SheriMl.Tui.parsePromptInputs shlex rest
          (elements.filterMap (localElement (Str.utf8Size rest) (Str.utf8Size before))) =
        .ok inputs ∧ List.Forall₂ (IsInput (wholeElement (before ++ rest) kept)) inputs
          (commandInputs (before ++ rest) (Str.utf8Size before) kept)) ∨
      ¬ (∀ word ∈ commandWords (before ++ rest) (Str.utf8Size before) kept,
        HasKey (wholeElement (before ++ rest) kept) word) ∧ ∃ error,
      SheriMl.Tui.parsePromptInputs shlex rest
          (elements.filterMap (localElement (Str.utf8Size rest) (Str.utf8Size before))) =
        .error error := by
  have hspec := keptElements_spec helements
  rw [← hkept] at hspec
  rw [SheriMl.Tui.parsePromptInputs, if_neg hrest, h.parseTokens_eq hshlex helements hkept]
  exact foldlM_insertInput (wholeElement_ne_nil hspec) .nil

/-- An expansion by words that are put back is the one that is meant. -/
theorem Restorable.meantExpansion (h : Restorable (before ++ rest) rest (Str.utf8Size before) kept)
    {content : Str} (hout : ExpandsTo shlex rest
      (elements.filterMap (localElement (Str.utf8Size rest) (Str.utf8Size before))) content out) :
    MeantExpansion (before ++ rest) (Str.utf8Size before) kept content out := by
  rw [ExpandsTo] at hout
  rw [MeantExpansion]
  split
  · next hrequired =>
    rw [if_pos hrequired] at hout
    obtain ⟨inputs, hinputs, hkeys, rfl⟩ := hout
    have hrest : Str.trim rest ≠ [] := by
      intro htrim
      rw [SheriMl.Tui.parsePromptInputs, if_pos htrim] at hinputs
      cases hinputs
      obtain ⟨key, hkey⟩ := List.exists_mem_of_ne_nil _ hrequired
      exact absurd (hkeys key hkey) Bool.false_ne_true
    rcases h.parsePromptInputs hshlex helements hkept hrest with
      ⟨hall, result, hresult, hforall⟩ | ⟨-, error, herror⟩
    · rw [hinputs] at hresult
      cases hresult
      have hlookup := lookup_inputs hforall
      have hsome (key : Str) : (inputs.lookup key).isSome =
          ((commandInputs (before ++ rest) (Str.utf8Size before) kept).lookup key).isSome := by
        rcases hlookup key with ⟨hnone, hnone'⟩ | ⟨arg, value, harg, hvalue, -⟩
        · rw [hnone, hnone']
          rfl
        · rw [harg, hvalue]
          rfl
      have hwhole (key : Str) (hkey : .arg key ∈ namedPieces
          (fun key => ((commandInputs (before ++ rest) (Str.utf8Size before) kept).lookup
            key).isSome) content) :
          (commandInputs (before ++ rest) (Str.utf8Size before) kept).lookup key ≠ some none := by
        refine h.inputs hall key (askable_of_mem ?_ hrequired hkey)
        intro key hkey
        rw [← hsome]
        exact hkeys key hkey
      refine ⟨hwhole, ?_⟩
      rw [expandNamedPlaceholders_eq]
      simp only [hsome]
      refine fill_render (fun key hkey => ?_) []
      rcases hlookup key with ⟨-, hnone⟩ | ⟨arg, value, harg, hvalue, hshown⟩
      · obtain ⟨-, -, -, -, hhas⟩ := arg_mem_namedPieces.1 hkey
        rw [hnone] at hhas
        cases hhas
      · cases value with
        | none => exact absurd hvalue (hwhole key hkey)
        | some units =>
          rw [harg, hvalue]
          exact hshown units rfl
    · rw [hinputs] at herror
      cases herror
  · next hrequired =>
    rw [if_neg hrequired] at hout
    rw [hout, h.parseTokens_eq hshlex helements hkept, expandNumericPlaceholders_eq,
      List.length_map]
    refine fill_render (fun idx hidx => ?_) []
    have hlt := lt_of_mem_numericPieces hidx
    simp [hlt]

end Command

/-! ## Words that have been kept -/

def joinWords {ι : Type} : Nat → List (List (TextUnit ι)) → List (TextUnit ι)
  | _, [] => []
  | idx, word :: words =>
    (if idx > 0 then [.char ' '] else []) ++ (word ++ joinWords (idx + 1) words)

theorem pieceUnits_joined {ι : Type} (front words : List (List (TextUnit ι))) :
    pieceUnits (fun idx => (front ++ words).getD idx []) (joinedPieces front.length words.length) =
      joinWords front.length words := by
  induction words generalizing front with
  | nil => rfl
  | cons word words ih =>
    have hhere : (front ++ word :: words).getD front.length [] = word := by simp
    have htail := ih (front ++ [word])
    rw [List.length_append, List.length_singleton, List.append_assoc,
      List.singleton_append] at htail
    rw [List.length_cons, joinedPieces, pieceUnits_append, pieceUnits_arg, hhere, htail, joinWords]
    split <;> rfl

/-- Where joined words are shown alike, each of them has been put back. -/
theorem noStray_of_joinWords {ι : Type} {sentinelOf : ι → Str} {all : List ι}
    {content content' : ι → Shown} (h : SentinelsApart sentinelOf all)
    {words : List (List (TextUnit ι))} {idx : Nat}
    (hsame : List.Forall₂ (SameUnit content content')
      (joinWords idx (words.map fun word =>
        parseUnits sentinelOf all 0 (withSentinels sentinelOf word))) (joinWords idx words)) :
    ∀ word ∈ words, NoStray sentinelOf all word ∧
      ∀ i, .element i ∈ word → content i = content' i := by
  induction words generalizing idx with
  | nil => exact fun word hword => absurd hword List.not_mem_nil
  | cons word words ih =>
    rw [List.map_cons, joinWords, joinWords] at hsame
    have htail : List.Forall₂ (SameUnit content content')
        (parseUnits sentinelOf all 0 (withSentinels sentinelOf word) ++ joinWords (idx + 1)
          (words.map fun word => parseUnits sentinelOf all 0 (withSentinels sentinelOf word)))
        (word ++ joinWords (idx + 1) words) := by
      split at hsame
      · cases hsame with
        | cons _ htail => exact htail
      · exact hsame
    obtain ⟨hstray, hshown, hrest⟩ := noStray_of_sameUnits h htail
    exact List.forall_mem_cons.2 ⟨⟨hstray, hshown⟩, ih hrest⟩

/-- `$ARGUMENTS` -/
def argumentsBody : Str := '$' :: argumentsName

theorem numericPieces_argumentsBody (count : Nat) :
    numericPieces count 0 argumentsBody = joinedPieces 0 count := by
  have hnone : positionalIndex argumentsName = none := by decide +kernel
  have hstarts : Str.startsWith argumentsName argumentsName = true := by decide +kernel
  have hhead : argumentsName.head? ≠ some '$' := by decide +kernel
  have hskip (s : Str) : numericPieces count s.length s = [] := by
    induction s with
    | nil => rfl
    | cons c s ih => exact ih
  rw [argumentsBody, numericPieces, if_pos rfl, if_neg hhead, hnone]
  dsimp only
  rw [if_pos hstarts, hskip, List.append_nil]

theorem commandWords_of_nil (helements : ElementsDisjoint (before ++ rest) elements)
    (hkept : kept = keptElements (Str.utf8Size before) elements) (hrest : rest = []) :
    commandWords (before ++ rest) (Str.utf8Size before) kept = [] := by
  have hnil : kept = [] := by
    refine List.eq_nil_iff_forall_not_mem.2 fun e he => ?_
    rw [hkept] at he
    obtain ⟨haligned, hreaches⟩ := keptElements_spec helements e he
    have hle := haligned.stop.le
    have hlt := hreaches.2
    rw [hrest, List.append_nil] at hle
    omega
  subst hnil
  have hslice := slice_self (Str.isBoundary_utf8Size before)
  rw [hrest, List.append_nil, commandWords, commandUnits]
  show ShellWords.split _
    ((Str.slice before (Str.utf8Size before) (Str.utf8Size before)).map _) = []
  rw [hslice]
  rfl

section Necessary

variable (hshlex : ∀ s, shlex s = ShellWords.split ShellWords.charKind s)
  (helements : ElementsDisjoint (before ++ rest) elements)
  (hkept : kept = keptElements (Str.utf8Size before) elements)
  (hmeant : ∀ content out, ExpandsTo shlex rest
      (elements.filterMap (localElement (Str.utf8Size rest) (Str.utf8Size before))) content out →
    MeantExpansion (before ++ rest) (Str.utf8Size before) kept content out)

include hshlex helements hkept hmeant

theorem wordsRestorable_of_meant :
    WordsRestorable (before ++ rest) rest (Str.utf8Size before) kept := by
  have hspec := keptElements_spec helements
  rw [← hkept] at hspec
  have hnames : ¬ promptArgumentNames argumentsBody ≠ [] := by decide +kernel
  have hout := hmeant argumentsBody _ (by rw [ExpandsTo, if_neg hnames])
  rw [MeantExpansion, if_neg hnames, SheriMl.Tui.parseTokens_eq hshlex helements hkept,
    expandNumericPlaceholders_eq, List.length_map] at hout
  dsimp only at hout
  generalize hwords : commandWords (before ++ rest) (Str.utf8Size before) kept = words at hout
  rw [numericPieces_argumentsBody] at hout
  have hfill : fill (fun idx => (words.map fun word =>
        render (localElementShown rest (Str.utf8Size before) kept)
          (parseUnits (sentinelOf rest) (List.finRange kept.length) 0
            (withSentinels (sentinelOf rest) word))).getD idx .empty) .empty
        (joinedPieces 0 words.length) =
      render (localElementShown rest (Str.utf8Size before) kept)
        (pieceUnits (fun idx => (words.map fun word =>
          parseUnits (sentinelOf rest) (List.finRange kept.length) 0
            (withSentinels (sentinelOf rest) word)).getD idx [])
              (joinedPieces 0 words.length)) := by
    refine fill_render (fun idx _ => ?_) []
    simp only [List.getD_eq_getElem?_getD, List.getElem?_map]
    cases words[idx]? <;> rfl
  have hjoined := pieceUnits_joined [] words
  have hparsed := pieceUnits_joined [] (words.map fun word =>
    parseUnits (sentinelOf rest) (List.finRange kept.length) 0
      (withSentinels (sentinelOf rest) word))
  rw [List.length_map] at hparsed
  rw [hfill] at hout
  rw [List.length_nil, List.nil_append] at hjoined hparsed
  rw [hjoined, hparsed] at hout
  have hkeptWords := noStray_of_joinWords (sentinelsApart rest kept.length)
    (sameUnits_of_render hout)
  refine ⟨?_, ?_⟩
  · rw [hwords]
    exact fun word hword => (hkeptWords word hword).1
  · rw [hwords]
    intro word hword i hi
    exact (localElementShown_eq_iff hspec i).1 ((hkeptWords word hword).2 i hi)

theorem restorable_of_meant (hrest : Str.trim rest = [] → rest = []) :
    Restorable (before ++ rest) rest (Str.utf8Size before) kept := by
  have hwords := wordsRestorable_of_meant hshlex helements hkept hmeant
  refine ⟨hwords, fun hall key hkey hcut => ?_⟩
  have htrim : Str.trim rest ≠ [] := by
    intro htrim
    have hnil := commandWords_of_nil helements hkept (hrest htrim)
    rw [commandInputs, hnil] at hcut
    cases hcut
  obtain ⟨content, hrequired, hkeys, hpiece⟩ := hkey.exists_content (by rw [hcut]; rfl)
  rcases hwords.parsePromptInputs hshlex helements hkept htrim with
    ⟨-, inputs, hinputs, hforall⟩ | ⟨hnot, -⟩
  · have hlookup := lookup_inputs hforall
    have hexpands : ExpandsTo shlex rest
        (elements.filterMap (localElement (Str.utf8Size rest) (Str.utf8Size before))) content
        (expandNamedPlaceholders content inputs) := by
      rw [ExpandsTo, if_pos hrequired]
      refine ⟨inputs, hinputs, fun name hname => ?_, rfl⟩
      have hsome := hkeys name hname
      rcases hlookup name with ⟨-, hnone⟩ | ⟨arg, value, harg, -, -⟩
      · rw [hnone] at hsome
        cases hsome
      · rw [harg]
        rfl
    have hout := hmeant content _ hexpands
    rw [MeantExpansion, if_pos hrequired] at hout
    exact hout.1 key hpiece hcut
  · exact hnot hall

end Necessary

/-! ## Every prompt -/

/-- Whatever prompt a command is expanded by, its elements are kept, if and only if they can be put
back. -/
theorem elementsKept_iff (hshlex : ∀ s, shlex s = ShellWords.split ShellWords.charKind s)
    (helements : ElementsDisjoint text elements) :
    (∀ customPrompts out, expandCustomPrompt shlex text elements customPrompts = .ok (some out) →
        ElementsKept text elements customPrompts out) ↔
      ∀ promptName rest offset,
        parseSlashName text = some (promptsCmdPrefix ++ promptName, rest, offset) →
          Restorable text rest offset (keptElements offset elements) := by
  constructor
  · intro hall promptName rest offset hparse
    obtain ⟨before, rfl, rfl, hrest⟩ := parseSlashName_spec hparse
    refine restorable_of_meant hshlex helements rfl (fun content out hexpands => ?_) hrest
    have hfind : [CustomPrompt.mk promptName content].find? (·.name = promptName) =
        some ⟨promptName, content⟩ := by simp
    have hkept := hall [⟨promptName, content⟩] out
      (expandCustomPrompt_eq_some_iff.2 ⟨promptName, rest, _, _, hparse, hfind, hexpands⟩)
    obtain ⟨name, rest', offset', prompt, hparse', hfind', hmeant⟩ := hkept.meant
    rw [hparse] at hparse'
    simp only [Option.some.injEq, Prod.mk.injEq, List.append_cancel_left_eq] at hparse'
    obtain ⟨rfl, rfl, rfl⟩ := hparse'
    rw [hfind] at hfind'
    cases hfind'
    exact hmeant
  · intro hall customPrompts out hout
    obtain ⟨promptName, rest, offset, prompt, hparse, hfind, hexpands⟩ :=
      expandCustomPrompt_eq_some_iff.1 hout
    have hrestorable := hall promptName rest offset hparse
    obtain ⟨before, rfl, rfl, -⟩ := parseSlashName_spec hparse
    have hmeant := hrestorable.meantExpansion hshlex helements rfl hexpands
    have hshown : ∃ units, out =
        render (wholeElement (before ++ rest) (keptElements (Str.utf8Size before) elements))
          units := by
      rw [MeantExpansion] at hmeant
      split at hmeant
      · exact ⟨_, hmeant.2⟩
      · exact ⟨_, hmeant⟩
    obtain ⟨units, rfl⟩ := hshown
    have hrender := render_elements
      (wholeElement (before ++ rest) (keptElements (Str.utf8Size before) elements)) units
    refine ⟨hrender.aligned, hrender.sorted, fun x hx => ?_, promptName, rest, _, prompt, hparse,
      hfind, hmeant⟩
    obtain ⟨i, -, htext, hplaceholder⟩ := hrender.shown x hx
    exact ⟨_, (mem_keptElements.1 (List.get_mem _ i)).1, htext, hplaceholder⟩

/-- A command with an element, and its words. -/
def imageCommand : Str := "/prompts:p see [Image #1]"

def imageElements : List UserTextElement := [⟨⟨15, 25⟩, some "[Image #1]"⟩]

def argumentsPrompts : List CustomPrompt := [⟨"p", argumentsBody⟩]

theorem elementsKept_imageCommand :
    expandCustomPrompt (ShellWords.split ShellWords.charKind) imageCommand imageElements
        argumentsPrompts =
      .ok (some ⟨"see [Image #1]", [⟨⟨4, 14⟩, some "[Image #1]"⟩]⟩) ∧
    ElementsKept imageCommand imageElements argumentsPrompts
      ⟨"see [Image #1]", [⟨⟨4, 14⟩, some "[Image #1]"⟩]⟩ := by
  have hexpands : expandCustomPrompt (ShellWords.split ShellWords.charKind) imageCommand
      imageElements argumentsPrompts =
        .ok (some ⟨"see [Image #1]", [⟨⟨4, 14⟩, some "[Image #1]"⟩]⟩) := by
    decide +kernel
  have hdisjoint : ElementsDisjoint imageCommand imageElements := by
    refine ⟨fun e he => ?_, List.pairwise_singleton _ _⟩
    obtain rfl := List.mem_singleton.1 he
    refine ⟨Str.isCharBoundary_iff.1 ?_, Str.isCharBoundary_iff.1 ?_, ?_⟩ <;> decide +kernel
  refine ⟨hexpands, (elementsKept_iff (fun _ => rfl) hdisjoint).2
    (fun promptName rest offset hparse => ?_) _ _ hexpands⟩
  have hcommand : parseSlashName imageCommand = some (promptsCmdPrefix ++ ['p'],
      ("see [Image #1]" : Str), 11) := by decide +kernel
  rw [hcommand] at hparse
  simp only [Option.some.injEq, Prod.mk.injEq, List.append_cancel_left_eq] at hparse
  obtain ⟨rfl, rfl, rfl⟩ := hparse
  have hinputs : commandInputs imageCommand 11 (keptElements 11 imageElements) = [] := by
    decide +kernel
  refine ⟨⟨by decide +kernel, by decide +kernel⟩, fun _ key _ => ?_⟩
  rw [hinputs]
  exact nofun

/-- Text that makes a sentinel with the element after it. -/
def strayCommand : Str := "/prompts:p __CODEX_ELEM_0_[Image #1]"

def strayElements : List UserTextElement := [⟨⟨26, 36⟩, some "[Image #1]"⟩]

/-- The element is put back for text that has been typed before it. -/
theorem elements_not_kept : ElementsDisjoint strayCommand strayElements ∧
    expandCustomPrompt (ShellWords.split ShellWords.charKind) strayCommand strayElements
        argumentsPrompts =
      .ok (some ⟨"[Image #1]_CODEX_ELEM_0__", [⟨⟨0, 10⟩, some "[Image #1]"⟩]⟩) ∧
    ¬ ElementsKept strayCommand strayElements argumentsPrompts
      ⟨"[Image #1]_CODEX_ELEM_0__", [⟨⟨0, 10⟩, some "[Image #1]"⟩]⟩ := by
  refine ⟨⟨?_, ?_⟩, ?_, fun hkept => ?_⟩
  · intro e he
    obtain rfl := List.mem_singleton.1 he
    refine ⟨Str.isCharBoundary_iff.1 ?_, Str.isCharBoundary_iff.1 ?_, ?_⟩ <;> decide +kernel
  · exact List.pairwise_singleton _ _
  · decide +kernel
  · obtain ⟨name, rest, offset, prompt, hparse, hfind, hmeant⟩ := hkept.meant
    have hcommand : parseSlashName strayCommand = some (promptsCmdPrefix ++ ['p'],
        ("__CODEX_ELEM_0_[Image #1]" : Str), 11) := by decide +kernel
    rw [hcommand] at hparse
    simp only [Option.some.injEq, Prod.mk.injEq, List.append_cancel_left_eq] at hparse
    obtain ⟨rfl, rfl, rfl⟩ := hparse
    have hprompt : argumentsPrompts.find? (·.name = ['p']) = some ⟨['p'], argumentsBody⟩ := by
      decide +kernel
    rw [hprompt] at hfind
    cases hfind
    have hnames : ¬ promptArgumentNames argumentsBody ≠ [] := by decide +kernel
    dsimp only at hmeant
    rw [MeantExpansion, if_neg hnames] at hmeant
    revert hmeant
    decide +kernel

end SheriMl.Tui
