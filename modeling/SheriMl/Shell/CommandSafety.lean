import SheriMl.Shell.Bash

/-!
# Known-safe and dangerous commands

`shell-command/src/command_safety`: the conservative list of commands that only
read (`isKnownSafeCommand`) and the few that are flagged as dangerous
(`commandMightBeDangerous`). What the build target and PowerShell's own parser
decide is a parameter (`Platform`).
-/

namespace SheriMl.Shell

/-- What the code takes from its build and its machine: the target system, the
bash parser, and the Windows classifiers, which run PowerShell to parse a script. -/
structure Platform where
  linux : Bool
  windows : Bool
  treeSitter : TreeSitter
  isSafeCommandWindows : List Str → Bool
  isDangerousCommandWindows : List Str → Bool

/-! ## Git -/

def isGitGlobalOptionWithValue (arg : Str) : Bool :=
  ["-C", "-c", "--config-env", "--exec-path", "--git-dir", "--namespace", "--super-prefix",
    "--work-tree"].any fun opt => arg = String.toList opt

def isGitGlobalOptionWithInlineValue (arg : Str) : Bool :=
  ["--config-env=", "--exec-path=", "--git-dir=", "--namespace=", "--super-prefix=",
    "--work-tree="].any (fun opt => Str.startsWith arg (String.toList opt)) ||
    ((Str.startsWith arg "-C" || Str.startsWith arg "-c") && 2 < Str.utf8Size arg)

/-- The scan of `find_git_subcommand` from index `idx` on. -/
def findGitSubcommandFrom (subcommands : List Str) :
    Nat → Bool → List Str → Option (Nat × Str)
  | _, _, [] => none
  | idx, true, _ :: args => findGitSubcommandFrom subcommands (idx + 1) false args
  | idx, false, arg :: args =>
    if isGitGlobalOptionWithInlineValue arg then
      findGitSubcommandFrom subcommands (idx + 1) false args
    else if isGitGlobalOptionWithValue arg then
      findGitSubcommandFrom subcommands (idx + 1) true args
    else if arg = "--" || Str.startsWith arg "-" then
      findGitSubcommandFrom subcommands (idx + 1) false args
    else if subcommands.contains arg then some (idx, arg)
    -- the first non-option token is git's subcommand, whatever it is
    else none

def findGitSubcommand (command : List Str) (subcommands : List Str) : Option (Nat × Str) :=
  match command with
  | [] => none
  | cmd0 :: args =>
    if Str.endsWith cmd0 "git" then findGitSubcommandFrom subcommands 1 false args else none

def gitHasConfigOverrideGlobalOption (command : List Str) : Bool :=
  command.any fun arg =>
    (arg = "-c" || arg = "--config-env") || (Str.startsWith arg "-c" && 2 < Str.utf8Size arg) ||
      Str.startsWith arg "--config-env="

def gitSubcommandArgsAreReadOnly (args : List Str) : Bool :=
  !args.any fun arg =>
    ["--output", "--ext-diff", "--textconv", "--exec", "--paginate"].any
        (fun flag => arg = String.toList flag) ||
      Str.startsWith arg "--output=" || Str.startsWith arg "--exec="

def gitBranchReadOnlyFlag (arg : Str) : Bool :=
  ["--list", "-l", "--show-current", "-a", "--all", "-r", "--remotes", "-v", "-vv",
      "--verbose"].any (fun flag => arg = String.toList flag) ||
    Str.startsWith arg "--format="

def gitBranchIsReadOnly (branchArgs : List Str) : Bool :=
  branchArgs.all gitBranchReadOnlyFlag

/-! ## Known-safe commands -/

/-- `/^(\d+,)?\d+p$/`. -/
def isValidSedNArg (arg : Option Str) : Bool :=
  match arg.bind fun s => Str.stripSuffix s "p" with
  | none => false
  | some core =>
    let numeric := fun part : Str => !part.isEmpty && part.all Str.isAsciiDigit
    match Str.split ',' core with
    | [num] => numeric num
    | [a, b] => numeric a && numeric b
    | _ => false

def safeNames : List String :=
  ["cat", "cd", "cut", "echo", "expr", "false", "grep", "head", "id", "ls", "nl", "paste", "pwd",
    "rev", "seq", "stat", "tail", "tr", "true", "uname", "uniq", "wc", "which", "whoami"]

def unsafeFindOptions : List String :=
  ["-exec", "-execdir", "-ok", "-okdir", "-delete", "-fls", "-fprint", "-fprint0", "-fprintf"]

def isSafeBase64 (command : List Str) : Bool :=
  !(command.drop 1).any fun arg =>
    (arg = "-o" || arg = "--output") || Str.startsWith arg "--output=" ||
      (Str.startsWith arg "-o" && arg ≠ "-o")

def isSafeFind (command : List Str) : Bool :=
  !command.any fun arg => unsafeFindOptions.any fun opt => arg = String.toList opt

def isSafeRipgrep (command : List Str) : Bool :=
  !command.any fun arg =>
    (arg = "--search-zip" || arg = "-z") ||
      ["--pre", "--hostname-bin"].any fun opt =>
        arg = String.toList opt || Str.startsWith arg (String.toList opt ++ ['='])

def isSafeGit (command : List Str) : Bool :=
  !gitHasConfigOverrideGlobalOption command &&
    match findGitSubcommand command ["status", "log", "diff", "show", "branch"] with
    | none => false
    | some (idx, subcommand) =>
      let args := command.drop (idx + 1)
      if subcommand = "branch" then gitSubcommandArgsAreReadOnly args && gitBranchIsReadOnly args
      else gitSubcommandArgsAreReadOnly args

def isSafeToCallWithExec (pf : Platform) (command : List Str) : Bool :=
  match command with
  | [] => false
  | cmd0 :: _ =>
    match Path.fileName cmd0 with
    | none => false
    | some cmd =>
      if pf.linux && (cmd = "numfmt" || cmd = "tac") then true
      else if safeNames.any (fun name => cmd = String.toList name) then true
      else if cmd = "base64" then isSafeBase64 command
      else if cmd = "find" then isSafeFind command
      else if cmd = "rg" then isSafeRipgrep command
      else if cmd = "git" then isSafeGit command
      else cmd = "sed" && command.length ≤ 4 && command[1]? = some ("-n" : Str) &&
        isValidSedNArg command[2]?

/-- `zsh` is read as `bash`. -/
def zshAsBash (command : List Str) : List Str :=
  command.map fun s : Str => if s = "zsh" then ("bash" : Str) else s

def isKnownSafeCommand (pf : Platform) (command : List Str) : Bool :=
  let command := zshAsBash command
  pf.isSafeCommandWindows command || isSafeToCallWithExec pf command ||
    match parseShellLcPlainCommands pf.treeSitter command with
    | some allCommands => !allCommands.isEmpty && allCommands.all (isSafeToCallWithExec pf)
    | none => false

/-! ## Dangerous commands -/

def isDangerousToCallWithExec : List Str → Bool
  | [] => false
  | cmd0 :: args =>
    if cmd0 = "rm" then
      match args with
      | arg :: _ => arg = "-f" || arg = "-rf"
      | [] => false
    -- for `sudo cmd`, the check of `cmd`
    else if cmd0 = "sudo" then isDangerousToCallWithExec args
    else false

def commandMightBeDangerous (pf : Platform) (command : List Str) : Bool :=
  (pf.windows && pf.isDangerousCommandWindows command) || isDangerousToCallWithExec command ||
    match parseShellLcPlainCommands pf.treeSitter command with
    | some allCommands => allCommands.any isDangerousToCallWithExec
    | none => false

end SheriMl.Shell
