import Mathlib.Data.List.Sort
import SheriMl.Lib.Path

/-!
# Reading commands out of shell scripts

`shell-command/src/bash.rs` over the syntax trees of tree-sitter-bash. The
parser itself is a parameter (`TreeSitter`): a script either has no tree or has
the tree it returns. `parseShellLcPlainCommands` reads a `bash -lc` script made
of word-only commands, `parseShellLcSingleCommandPrefix` the single command of a
here-document script.
-/

namespace SheriMl.Shell

/-- A tree-sitter node: its kind, whether it is named, where it starts, the source
text it covers, whether an error lies in it, and all its children in order. -/
inductive Node where
  | mk (kind : String) (named : Bool) (startByte : Nat) (text : Str) (hasError : Bool)
      (children : List Node)

/-- `try_parse_shell`: the tree tree-sitter-bash gives for a script. -/
abbrev TreeSitter := Str → Option Node

namespace Node

def kind : Node → String | mk k .. => k

def isNamed : Node → Bool | mk _ n .. => n

def startByte : Node → Nat | mk _ _ b .. => b

/-- `utf8_text`; a node of a tree over a `str` never cuts a character. -/
def text : Node → Str | mk _ _ _ t .. => t

def hasError : Node → Bool | mk _ _ _ _ e _ => e

def children : Node → List Node | mk _ _ _ _ _ cs => cs

def namedChildren (n : Node) : List Node := n.children.filter isNamed

mutual

/-- The nodes in the order in which a stack of pending nodes gives them: a node
before its descendants, its last child first. -/
def walk : Node → List Node
  | mk k n b t e cs => mk k n b t e cs :: walkAll cs

def walkAll : List Node → List Node
  | [] => []
  | c :: cs => walkAll cs ++ walk c

end

mutual

/-- The same walk through named children only. -/
def walkNamed : Node → List Node
  | mk k n b t e cs => mk k n b t e cs :: walkNamedAll cs

def walkNamedAll : List Node → List Node
  | [] => []
  | c :: cs => walkNamedAll cs ++ if c.isNamed then walkNamed c else []

end

end Node

/-! ## Word-only command sequences -/

def allowedKinds : List String :=
  ["program", "list", "pipeline", "command", "command_name", "word", "string",
    "string_content", "raw_string", "number", "concatenation"]

def allowedPunctTokens : List String := ["&&", "||", ";", "|", "\"", "'"]

/-- Whether the walk goes on past a node: named nodes are of an allowed kind, other
tokens are allowed operators, quotes or blank. -/
def allowedNode (n : Node) : Bool :=
  if n.isNamed then allowedKinds.contains n.kind
  else
    !(n.kind.toList.any (fun c => c = '&' || c = ';' || c = '|') &&
        !allowedPunctTokens.contains n.kind) &&
      (allowedPunctTokens.contains n.kind || (Str.trim n.kind).isEmpty)

def parseDoubleQuotedString (node : Node) : Option Str := do
  guard (node.kind = "string")
  guard (node.namedChildren.all (·.kind = "string_content"))
  let text ← Str.stripPrefix node.text ['"']
  Str.stripSuffix text ['"']

def parseRawString (node : Node) : Option Str := do
  guard (node.kind = "raw_string")
  let s ← Str.stripPrefix node.text ['\'']
  Str.stripSuffix s ['\'']

/-- One part of a concatenation such as `-g"*.py"`. -/
def parseConcatenationPart (part : Node) : Option Str :=
  if part.kind = "word" || part.kind = "number" then some part.text
  else if part.kind = "string" then parseDoubleQuotedString part
  else if part.kind = "raw_string" then parseRawString part
  else none

/-- The word a named child of a `command` node contributes. -/
def parsePlainWord (child : Node) : Option Str :=
  if child.kind = "command_name" then do
    let wordNode ← child.namedChildren.head?
    guard (wordNode.kind = "word")
    return wordNode.text
  else if child.kind = "word" || child.kind = "number" then some child.text
  else if child.kind = "string" then parseDoubleQuotedString child
  else if child.kind = "raw_string" then parseRawString child
  else if child.kind = "concatenation" then do
    let concatenated := (← child.namedChildren.mapM parseConcatenationPart).flatten
    guard !concatenated.isEmpty
    return concatenated
  else none

def parsePlainCommandFromNode (cmd : Node) : Option (List Str) := do
  guard (cmd.kind = "command")
  cmd.namedChildren.mapM parsePlainWord

def tryParseWordOnlyCommandsSequence (root : Node) : Option (List (List Str)) := do
  guard !root.hasError
  guard (root.walk.all allowedNode)
  -- the walk meets commands last child first, so they are sorted back into source order
  let commandNodes := (root.walk.filter fun n => n.isNamed && n.kind = "command").insertionSort
    fun a b => a.startByte ≤ b.startByte
  commandNodes.mapM parsePlainCommandFromNode

/-! ## Shell invocations -/

inductive ShellType where
  | zsh
  | bash
  | powerShell
  | sh
  | cmd

/-- The names `detect_shell_type` knows. -/
def shellTypeOfName (name : Str) : Option ShellType :=
  if name = "zsh" then some .zsh
  else if name = "sh" then some .sh
  else if name = "cmd" then some .cmd
  else if name = "bash" then some .bash
  else if name = "pwsh" then some .powerShell
  else if name = "powershell" then some .powerShell
  else none

/-- `detect_shell_type` with a bound on its recursion, which shortens the path. -/
def detectShellTypeAux : Nat → Str → Option ShellType
  | 0, path => shellTypeOfName path
  | n + 1, path =>
    (shellTypeOfName path).orElse fun _ =>
      match Path.fileStem path with
      | some stem =>
        if Path.components stem ≠ Path.components path then detectShellTypeAux n stem else none
      | none => none

def detectShellType (path : Str) : Option ShellType := detectShellTypeAux path.length path

/-- The script of a `bash -lc script` invocation (also `-c`, `zsh`, `sh`). -/
def extractBashCommand : List Str → Option (Str × Str)
  | [shell, flag, script] =>
    if (flag = "-lc" || flag = "-c") &&
        (match detectShellType shell with
          | some .zsh | some .bash | some .sh => true
          | _ => false) then
      some (shell, script)
    else none
  | _ => none

def parseShellLcPlainCommands (ts : TreeSitter) (command : List Str) : Option (List (List Str)) := do
  let (_, script) ← extractBashCommand command
  let tree ← ts script
  tryParseWordOnlyCommandsSequence tree

/-! ## Here-document scripts -/

def isLiteralWordOrNumber (node : Node) : Bool :=
  (node.kind = "word" || node.kind = "number") && node.namedChildren.isEmpty

def isAllowedHeredocAttachmentKind (kind : String) : Bool :=
  ["heredoc_body", "simple_heredoc_body", "heredoc_redirect", "herestring_redirect",
    "file_redirect", "redirected_statement"].contains kind

/-- What a named child of the command contributes: `none` to give up, `some none`
for constructs that leave the argument vector alone. -/
def parseHeredocWord (child : Node) : Option (Option Str) :=
  if child.kind = "command_name" then do
    let wordNode ← child.namedChildren.head?
    guard (isLiteralWordOrNumber wordNode)
    return some wordNode.text
  else if child.kind = "word" || child.kind = "number" then do
    guard (isLiteralWordOrNumber child)
    return some child.text
  else if child.kind = "variable_assignment" || child.kind = "comment" then some none
  else if isAllowedHeredocAttachmentKind child.kind then some none
  else none

def parseHeredocCommandWords (cmd : Node) : Option (List Str) := do
  guard (cmd.kind = "command")
  let words := (← cmd.namedChildren.mapM parseHeredocWord).reduceOption
  guard !words.isEmpty
  return words

def hasNamedDescendantKind (node : Node) (kind : String) : Bool :=
  node.walkNamed.any (·.kind = kind)

def findSingleCommandNode (root : Node) : Option Node :=
  match root.walkNamed.filter (·.kind = "command") with
  | [node] => some node
  | _ => none

def parseShellLcSingleCommandPrefix (ts : TreeSitter) (command : List Str) : Option (List Str) := do
  let (_, script) ← extractBashCommand command
  let root ← ts script
  guard !root.hasError
  guard (hasNamedDescendantKind root "heredoc_redirect")
  let commandNode ← findSingleCommandNode root
  parseHeredocCommandWords commandNode

end SheriMl.Shell
