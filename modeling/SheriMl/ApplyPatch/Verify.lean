import Mathlib.Data.List.AList
import SheriMl.ApplyPatch.Apply
import SheriMl.Protocol.SandboxPolicy

/-!
# Verifying an invocation

`maybe_parse_apply_patch_verified` of `apply-patch/src/invocation.rs` and the check
of `core/src/safety.rs` that its changes lie within the writable roots.

The Tree-sitter query that takes the here-document out of a script and the text
of a unified diff are parameters. A path is a key of the changes through its
components.
-/

namespace SheriMl.ApplyPatch

open Protocol (SandboxPolicy WritableRoot)

inductive ApplyPatchShell where
  | unix
  | powerShell
  | cmd

inductive ExtractHeredocError where
  | commandDidNotStartWithApplyPatch
  | failedToLoadBashGrammar
  | heredocNotUtf8
  | failedToParsePatchIntoAst
  | failedToFindHeredocBody
  deriving DecidableEq

inductive MaybeApplyPatch where
  | body (args : ApplyPatchArgs)
  | shellParseError (e : ExtractHeredocError)
  | patchParseError (e : ParseError)
  | notApplyPatch
  deriving DecidableEq

def applyPatchCommands : List Str := ["apply_patch", "applypatch"]

def eqIgnoreAsciiCase (a b : Str) : Bool := Str.toAsciiLowercase a = Str.toAsciiLowercase b

def classifyShellName (shell : Str) : Option Str := (Path.fileStem shell).map Str.toAsciiLowercase

def classifyShell (shell flag : Str) : Option ApplyPatchShell :=
  (classifyShellName shell).bind fun name =>
    if (name = "bash" ∨ name = "zsh" ∨ name = "sh") ∧ (flag = "-lc" ∨ flag = "-c") then some .unix
    else if (name = "pwsh" ∨ name = "powershell") ∧ eqIgnoreAsciiCase flag "-command" then
      some .powerShell
    else if name = "cmd" ∧ eqIgnoreAsciiCase flag "/c" then some .cmd
    else none

def canSkipFlag (shell flag : Str) : Bool :=
  (classifyShellName shell).any fun name : Str =>
    (name = "pwsh" ∨ name = "powershell") ∧ eqIgnoreAsciiCase flag "-noprofile"

def parseShellScript : List Str → Option (ApplyPatchShell × Str)
  | [shell, flag, script] => (classifyShell shell flag).map fun kind => (kind, script)
  | [shell, skipFlag, flag, script] =>
    if canSkipFlag shell skipFlag then (classifyShell shell flag).map fun kind => (kind, script)
    else none
  | _ => none

/-- `extract_apply_patch_from_bash`: the here-document of a script and the directory it
changes to. -/
abbrev ExtractHeredoc := Str → Except ExtractHeredocError (Str × Option Str)

/-- `extract_apply_patch_from_shell`: every shell's script is read as one of bash. -/
def extractApplyPatchFromShell (extract : ExtractHeredoc) (_ : ApplyPatchShell) (script : Str) :
    Except ExtractHeredocError (Str × Option Str) := extract script

def maybeParseShell (extract : ExtractHeredoc) (argv : List Str) : MaybeApplyPatch :=
  match parseShellScript argv with
  | none => .notApplyPatch
  | some (shell, script) =>
    match extractApplyPatchFromShell extract shell script with
    | .ok (body, workdir) =>
      match parsePatch body with
      | .ok source => .body { source with workdir := workdir }
      | .error e => .patchParseError e
    | .error .commandDidNotStartWithApplyPatch => .notApplyPatch
    | .error e => .shellParseError e

def maybeParseApplyPatch (extract : ExtractHeredoc) (argv : List Str) : MaybeApplyPatch :=
  match argv with
  | [cmd, body] =>
    if cmd ∈ applyPatchCommands then
      match parsePatch body with
      | .ok source => .body source
      | .error e => .patchParseError e
    else maybeParseShell extract argv
  | _ => maybeParseShell extract argv

/-! ## Changes -/

inductive ApplyPatchFileChange where
  | add (content : Str)
  | delete (content : Str)
  | update (unifiedDiff : Str) (movePath : Option Str) (newContent : Str)
  deriving DecidableEq

abbrev PathKey := List Path.Component

abbrev Changes := AList fun _ : PathKey => ApplyPatchFileChange

structure ApplyPatchAction where
  changes : Changes
  patch : Str
  cwd : Str

inductive MaybeApplyPatchVerified where
  | body (action : ApplyPatchAction)
  | shellParseError (e : ExtractHeredocError)
  | correctnessError (e : ApplyPatchError)
  | notApplyPatch

/-- The key of a path given relative to a directory. -/
def pathKey (cwd path : Str) : PathKey := Path.components (Path.join cwd path)

def Hunk.key (cwd : Str) (hunk : Hunk) : PathKey := Path.components (hunk.resolvePath cwd)

section Verify

variable (extract : ExtractHeredoc) (unifiedDiff : Str → Str → Str)

/-- `unified_diff_from_chunks`: the diff and the new contents. -/
def unifiedDiffFromChunks (path : Str) (read : Option Str) (chunks : List UpdateFileChunk) :
    Except ApplyPatchError (Str × Str) :=
  (deriveNewContentsFromChunks path read chunks).map fun (original, new) =>
    (unifiedDiff original new, new)

/-- The change of one hunk, computed on the files as they are. -/
def changeOf (cwd : Str) (t : FileTree) (hunk : Hunk) :
    Except ApplyPatchError ApplyPatchFileChange :=
  let path := hunk.resolvePath cwd
  match hunk with
  | .addFile _ contents => .ok (.add contents)
  | .deleteFile _ =>
    match t.readToString path with
    | some content => .ok (.delete content)
    | none => .error (.ioError (("Failed to read " : Str) ++ path))
  | .updateFile _ movePath chunks =>
    (unifiedDiffFromChunks unifiedDiff path (t.readToString path) chunks).map fun (diff, contents) =>
      .update diff (movePath.map (Path.join cwd)) contents

/-- Each hunk's change is stored under its path, over that of an earlier hunk. -/
def collectChanges (cwd : Str) (t : FileTree) (hunks : List Hunk) : Except ApplyPatchError Changes :=
  hunks.foldlM (fun changes hunk => do
    let change ← changeOf unifiedDiff cwd t hunk
    return changes.insert (hunk.key cwd) change) ∅

def effectiveCwd (cwd : Str) (workdir : Option Str) : Str :=
  match workdir with
  | some dir => if Path.isAbsolute dir then dir else Path.join cwd dir
  | none => cwd

/-- A raw patch as the command or as the body of a script. -/
def isImplicitInvocation (argv : List Str) : Bool :=
  (match argv with
    | [body] => (parsePatch body).isOk
    | _ => false) ||
  (match parseShellScript argv with
    | some (_, script) => (parsePatch script).isOk
    | none => false)

def maybeParseApplyPatchVerified (t : FileTree) (argv : List Str) (cwd : Str) :
    MaybeApplyPatchVerified :=
  if isImplicitInvocation argv then .correctnessError .implicitInvocation
  else
    match maybeParseApplyPatch extract argv with
    | .body args =>
      let cwd := effectiveCwd cwd args.workdir
      match collectChanges unifiedDiff cwd t args.hunks with
      | .ok changes => .body ⟨changes, args.patch, cwd⟩
      | .error e => .correctnessError e
    | .shellParseError e => .shellParseError e
    | .patchParseError e => .correctnessError (.parseError e)
    | .notApplyPatch => .notApplyPatch

end Verify

/-! ## The writable roots -/

/-- `normalize`: `..` goes up lexically. -/
def normalize (comps : PathKey) : PathKey :=
  comps.foldl (fun out comp =>
    match comp with
    | .parentDir => if out.getLast? = some .rootDir then out else out.dropLast
    | .curDir => out
    | .rootDir => [.rootDir]
    | .normal name => out ++ [.normal name]) []

def isPathWritable (writableRoots : List WritableRoot) (cwd : Str) (path : PathKey) : Bool :=
  let abs := normalize (if path.head? = some .rootDir then path else Path.components cwd ++ path)
  writableRoots.any fun root =>
    (Path.components root.root).isPrefixOf abs &&
      !root.readOnlySubpaths.any fun subpath => (Path.components subpath).isPrefixOf abs

/-- `is_write_patch_constrained_to_writable_paths`, given the value of
`get_writable_roots_with_cwd`. -/
def isWritePatchConstrainedToWritablePaths (action : ApplyPatchAction)
    (sandboxPolicy : SandboxPolicy) (writableRoots : List WritableRoot) (cwd : Str) : Bool :=
  match sandboxPolicy with
  | .readOnly _ => false
  | .dangerFullAccess | .externalSandbox _ => true
  | .workspaceWrite .. =>
    action.changes.entries.all fun entry =>
      isPathWritable writableRoots cwd entry.1 &&
        match entry.2 with
        | .add _ | .delete _ => true
        | .update _ movePath _ =>
          movePath.all fun dest => isPathWritable writableRoots cwd (Path.components dest)

/-! ## The changes of the hunks -/

section Changes

variable {unifiedDiff : Str → Str → Str} {cwd : Str} {t : FileTree} {hunks : List Hunk}
  {changes : Changes} {hunk : Hunk} {k : PathKey}

def lastOn (cwd : Str) (hunks : List Hunk) (k : PathKey) : Option Hunk :=
  hunks.reverse.find? fun hunk => hunk.key cwd = k

theorem collectChanges_append (h : collectChanges unifiedDiff cwd t (hunks ++ [hunk]) = .ok changes) :
    ∃ before change, collectChanges unifiedDiff cwd t hunks = .ok before ∧
      changeOf unifiedDiff cwd t hunk = .ok change ∧
      changes = before.insert (hunk.key cwd) change := by
  unfold collectChanges at h
  rw [List.foldlM_append] at h
  obtain ⟨before, hbefore, h⟩ := Result.exists_of_bind_eq_ok h
  rw [List.foldlM_cons] at h
  obtain ⟨after, hafter, h⟩ := Result.exists_of_bind_eq_ok h
  obtain ⟨change, hchange, hinsert⟩ := Result.exists_of_bind_eq_ok hafter
  cases h
  cases hinsert
  exact ⟨before, change, hbefore, hchange, rfl⟩

theorem changeOf_of_mem (h : collectChanges unifiedDiff cwd t hunks = .ok changes) :
    ∀ hunk ∈ hunks, ∃ change, changeOf unifiedDiff cwd t hunk = .ok change := by
  induction hunks using List.reverseRecOn generalizing changes with
  | nil => simp
  | append_singleton hunks last ih =>
    obtain ⟨before, change, hbefore, hchange, -⟩ := collectChanges_append h
    intro hunk hmem
    rcases List.mem_append.1 hmem with hmem | hmem
    · exact ih hbefore hunk hmem
    · rw [List.mem_singleton.1 hmem]
      exact ⟨change, hchange⟩

/-- Under each path the changes hold that of the last hunk on it. -/
theorem lookup_changes (h : collectChanges unifiedDiff cwd t hunks = .ok changes) (k : PathKey) :
    changes.lookup k = (lastOn cwd hunks k).bind fun hunk =>
      (changeOf unifiedDiff cwd t hunk).toOption := by
  induction hunks using List.reverseRecOn generalizing changes with
  | nil =>
    cases h
    rfl
  | append_singleton hunks last ih =>
    obtain ⟨before, change, hbefore, hchange, rfl⟩ := collectChanges_append h
    unfold lastOn
    rw [List.reverse_append, List.reverse_singleton, List.singleton_append]
    by_cases hk : last.key cwd = k
    · subst hk
      rw [AList.lookup_insert, List.find?_cons_of_pos (by simp), Option.bind_some, hchange]
      rfl
    · rw [AList.lookup_insert_ne (Ne.symm hk), List.find?_cons_of_neg (by simpa using hk), ih hbefore]
      rfl

end Changes

end SheriMl.ApplyPatch
