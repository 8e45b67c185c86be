import SheriMl.Lib.Replace
import SheriMl.Tui.PendingPastes

/-!
# Arguments of custom prompts

A command `/prompts:name rest` is expanded by a saved prompt. Text elements of the rest are replaced
by sentinels before the shell splits it into words, and put back into each word; the words are then
the prompt's positional or named arguments. The shell lexer (`shlex`) is a parameter.
-/

namespace SheriMl.Tui

/-- What an expansion reads of `CustomPrompt`. -/
structure CustomPrompt where
  name : Str
  content : Str
  deriving DecidableEq

inductive PromptArgsError where
  | missingAssignment (token : Str)
  | missingKey (token : Str)
  deriving DecidableEq

inductive PromptExpansionError where
  | args (command : Str) (error : PromptArgsError)
  | missingArgs (command : Str) (missing : List Str)
  deriving DecidableEq

def PromptArgsError.describe (command : Str) : PromptArgsError → Str
  | .missingAssignment token => "Could not parse " ++ command ++
    (": expected key=value but found '" : Str) ++ token ++
    ("'. Wrap values in double quotes if they contain spaces." : Str)
  | .missingKey token =>
    "Could not parse " ++ command ++ (": expected a name before '=' in '" : Str) ++ token ++
      ("'." : Str)

def PromptExpansionError.userMessage : PromptExpansionError → Str
  | .args command error => error.describe command
  | .missingArgs command missing => "Missing required args for " ++ command ++ (": " : Str) ++
    Str.join ", " missing ++ (". Provide as key=value (quote values with spaces)." : Str)

/-- `PromptArg` and `PromptExpansion`: a text and its elements. -/
structure PromptArg where
  text : Str
  textElements : List UserTextElement
  deriving DecidableEq

/-- The name, the rest and where it starts. -/
def parseSlashName (line : Str) : Option (Str × Str × Nat) :=
  match Str.stripPrefix line "/" with
  | none => none
  | some stripped =>
    let name := stripped.takeWhile fun c => !Str.isWhitespace c
    if name = [] then none
    else
      let restUntrimmed := stripped.dropWhile fun c => !Str.isWhitespace c
      let rest := Str.trimStart restUntrimmed
      let restStartInStripped :=
        Str.utf8Size name + (Str.utf8Size restUntrimmed - Str.utf8Size rest)
      some (name, rest, restStartInStripped + 1)

/-! ## Names in a prompt -/

def isNameStart (c : Char) : Bool := 'A' ≤ c && c ≤ 'Z'

def isNameChar (c : Char) : Bool := isNameStart c || Str.isAsciiDigit c || c == '_'

/-- A match of `\$[A-Z][A-Z0-9_]*`: the text from the match before, and the name. -/
structure PromptArgMatch where
  before : Str
  name : Str

/-- The match follows a `$`: one before it never ends so. -/
def PromptArgMatch.escaped (m : PromptArgMatch) : Bool := m.before.getLast? == some '$'

/-- `PROMPT_ARG_REGEX.find_iter`, with the text after the last match. What is still to be skipped
is the name of a match. -/
def findIter : Nat → Str → Str → List PromptArgMatch × Str
  | _, before, [] => ([], before)
  | skip + 1, before, _ :: content => findIter skip before content
  | 0, before, c :: content =>
    if c = '$' ∧ content.head?.any isNameStart then
      let name := content.takeWhile isNameChar
      let (found, after) := findIter name.length [] content
      (⟨before, name⟩ :: found, after)
    else findIter 0 (before ++ [c]) content

def argumentsName : Str := "ARGUMENTS"

def promptArgumentNames (content : Str) : List Str :=
  (findIter 0 [] content).1.foldl (fun names m =>
    if m.escaped ∨ m.name = argumentsName ∨ m.name ∈ names then names else names ++ [m.name]) []

/-! ## Words with elements -/

structure ElementReplacement where
  sentinel : Str
  text : Str
  placeholder : Option Str

def shiftTextElementLeft (elem : UserTextElement) (offset : Nat) : Option UserTextElement :=
  if elem.byteRange.stop ≤ offset then none
  else
    let start := elem.byteRange.start - offset
    let stop := elem.byteRange.stop - offset
    if start < stop then some { elem with byteRange := ⟨start, stop⟩ } else none

/-- `sentinel.push('_')` while it is in the text, which it is not once it is longer. -/
def extendSentinel (rest : Str) : Nat → Str → Str
  | 0, sentinel => sentinel
  | fuel + 1, sentinel =>
    if Str.contains rest sentinel then extendSentinel rest fuel (sentinel ++ ['_']) else sentinel

/-- `format!("__CODEX_ELEM_{idx}__")`, with as many more `_` as it takes. -/
def sentinel (rest : Str) (idx : Nat) : Str :=
  extendSentinel rest (rest.length + 1) ("__CODEX_ELEM_" ++ (toString idx).toList ++ "__")

/-- `replace_text_elements_with_sentinels`, from a cursor and an index on. -/
def replaceTextElements (rest : Str) : Nat → Nat → List UserTextElement →
    Str × List ElementReplacement
  | cursor, _, [] => (Str.slice rest cursor (Str.utf8Size rest), [])
  | cursor, idx, elem :: elements =>
    let start := elem.byteRange.start
    let stop := elem.byteRange.stop
    let (out, replacements) := replaceTextElements rest stop (idx + 1) elements
    (Str.slice rest cursor start ++ sentinel rest idx ++ out,
      ⟨sentinel rest idx, Str.slice rest start stop, elem.placeholderIn rest⟩ :: replacements)

/-- One turn of the loop of `next_replacement`. -/
def nearer (slice : Str) (best : Option (Nat × ElementReplacement))
    (replacement : ElementReplacement) : Option (Nat × ElementReplacement) :=
  match Str.findStr replacement.sentinel slice with
  | some pos =>
    match best with
    | some (bestPos, _) => if bestPos ≤ pos then best else some (pos, replacement)
    | none => some (pos, replacement)
  | none => best

def nextReplacement (slice : Str) (replacements : List ElementReplacement) :
    Option (Nat × ElementReplacement) :=
  replacements.foldl (nearer slice) none

/-- The loop of `apply_replacements_to_token`, from the cursor on. Every turn passes a sentinel. -/
def applyReplacements (replacements : List ElementReplacement) :
    Nat → Str → PromptArg → PromptArg
  | 0, _, out => out
  | fuel + 1, token, out =>
    if token = [] then out
    else
      match nextReplacement token replacements with
      | none => { out with text := out.text ++ token }
      | some (offset, replacement) =>
        let before := out.text ++ Str.takeBytes offset token
        let start := Str.utf8Size before
        let stop := Str.utf8Size (before ++ replacement.text)
        applyReplacements replacements fuel
          (Str.dropBytes (offset + Str.utf8Size replacement.sentinel) token)
          { text := before ++ replacement.text
            textElements :=
              if start < stop then
                out.textElements ++ [⟨⟨start, stop⟩, replacement.placeholder⟩]
              else out.textElements }

def applyReplacementsToToken (token : Str) (replacements : List ElementReplacement) : PromptArg :=
  if replacements = [] then ⟨token, []⟩
  else applyReplacements replacements token.length token ⟨[], []⟩

def parseTokensWithElements (shlex : Str → List Str) (rest : Str)
    (textElements : List UserTextElement) : List PromptArg :=
  let elements := textElements.insertionSort fun e f => e.byteRange.start ≤ f.byteRange.start
  let (restForShlex, replacements) := replaceTextElements rest 0 0 elements
  (shlex restForShlex).map fun token => applyReplacementsToToken token replacements

/-- One token of `parse_prompt_inputs`. The map is a list of entries, the latest first. -/
def insertInput (map : List (Str × PromptArg)) (token : PromptArg) :
    Except PromptArgsError (List (Str × PromptArg)) :=
  match Str.splitOnce '=' token.text with
  | none => .error (.missingAssignment token.text)
  | some (key, value) =>
    if key = [] then .error (.missingKey token.text)
    else
      let valueStart := Str.utf8Size key + 1
      .ok ((key, ⟨value, token.textElements.filterMap (shiftTextElementLeft · valueStart)⟩) :: map)

def parsePromptInputs (shlex : Str → List Str) (rest : Str) (textElements : List UserTextElement) :
    Except PromptArgsError (List (Str × PromptArg)) :=
  if Str.trim rest = [] then .ok []
  else (parseTokensWithElements shlex rest textElements).foldlM insertInput []

/-! ## Expansion -/

namespace PromptArg

def empty : PromptArg := ⟨[], []⟩

/-- `out.push_str` -/
def push (out : PromptArg) (text : Str) : PromptArg := { out with text := out.text ++ text }

/-- `append_arg_with_elements` -/
def append (out arg : PromptArg) : PromptArg :=
  let start := Str.utf8Size out.text
  { text := out.text ++ arg.text
    textElements := out.textElements ++ arg.textElements.map fun elem =>
      { elem with byteRange := ⟨start + elem.byteRange.start, start + elem.byteRange.stop⟩ } }

/-- `append_joined_args_with_elements`, from an index on -/
def appendJoined : Nat → PromptArg → List PromptArg → PromptArg
  | _, out, [] => out
  | idx, out, arg :: args =>
    appendJoined (idx + 1) ((if idx > 0 then out.push [' '] else out).append arg) args

end PromptArg

/-- `$1` to `$9`, after the `$` -/
def positionalIndex : Str → Option Nat
  | [] => none
  | d :: _ => if '1' ≤ d ∧ d ≤ '9' then some (d.toNat - '1'.toNat) else none

/-- The loop of `expand_numeric_placeholders`, with what is still to be skipped. -/
def expandNumericFrom (args : List PromptArg) : Nat → PromptArg → Str → PromptArg
  | _, out, [] => out
  | skip + 1, out, _ :: content => expandNumericFrom args skip out content
  | 0, out, c :: content =>
    if c = '$' then
      if content.head? = some '$' then expandNumericFrom args 1 (out.push ['$', '$']) content
      else
        match positionalIndex content with
        | some idx =>
          match args[idx]? with
          | some arg => expandNumericFrom args 1 (out.append arg) content
          | none => expandNumericFrom args 1 out content
        | none =>
          if Str.startsWith content argumentsName then
            expandNumericFrom args argumentsName.length (.appendJoined 0 out args) content
          else expandNumericFrom args 0 (out.push ['$']) content
    else expandNumericFrom args 0 (out.push [c]) content

def expandNumericPlaceholders (content : Str) (args : List PromptArg) : PromptArg :=
  expandNumericFrom args 0 .empty content

/-- One match of `expand_named_placeholders_with_elements`. -/
def expandMatch (args : List (Str × PromptArg)) (out : PromptArg) (m : PromptArgMatch) :
    PromptArg :=
  if m.escaped then out.push (m.before ++ '$' :: m.name)
  else
    match args.lookup m.name with
    | some arg => (out.push m.before).append arg
    | none => (out.push m.before).push ('$' :: m.name)

def expandNamedPlaceholders (content : Str) (args : List (Str × PromptArg)) : PromptArg :=
  let (found, after) := findIter 0 [] content
  (found.foldl (expandMatch args) .empty).push after

/-- `PROMPTS_CMD_PREFIX`, with the colon -/
def promptsCmdPrefix : Str := "prompts:"

def localElement (restSize restOffset : Nat) (elem : UserTextElement) : Option UserTextElement :=
  match shiftTextElementLeft elem restOffset with
  | none => none
  | some shifted =>
    if shifted.byteRange.start ≥ restSize then none
    else
      let stop := min shifted.byteRange.stop restSize
      if shifted.byteRange.start < stop then
        some { shifted with byteRange := ⟨shifted.byteRange.start, stop⟩ }
      else none

def expandCustomPrompt (shlex : Str → List Str) (text : Str) (textElements : List UserTextElement)
    (customPrompts : List CustomPrompt) : Except PromptExpansionError (Option PromptArg) :=
  match parseSlashName text with
  | none => .ok none
  | some (name, rest, restOffset) =>
    match Str.stripPrefix name promptsCmdPrefix with
    | none => .ok none
    | some promptName =>
      match customPrompts.find? (·.name = promptName) with
      | none => .ok none
      | some prompt =>
        let required := promptArgumentNames prompt.content
        let localElements := textElements.filterMap (localElement (Str.utf8Size rest) restOffset)
        if required ≠ [] then
          match parsePromptInputs shlex rest localElements with
          | .error error => .error (.args ('/' :: name) error)
          | .ok inputs =>
            let missing := required.filter fun key => (inputs.lookup key).isNone
            if missing ≠ [] then .error (.missingArgs ('/' :: name) missing)
            else .ok (some (expandNamedPlaceholders prompt.content inputs))
        else
          .ok (some (expandNumericPlaceholders prompt.content
            (parseTokensWithElements shlex rest localElements)))

end SheriMl.Tui
