import SheriMl.ApplyPatch.Replace
import SheriMl.Lib.FileTree

/-!
# Applying hunks to files

`apply_hunks_to_files` of `apply-patch/src/lib.rs`, run in a working directory. At
any operation the system may refuse, and a write may stop after part of the
contents, a directory creation after some of the directories; what was done stays.

A run records the paths it touches, as the hunks spell them: those it writes or
removes, and those for which it makes parent directories.
-/

namespace SheriMl.ApplyPatch

open FileTree (Contents CreateDirs)

inductive WriteFault where
  | none
  | refused
  | torn (contents : Contents)

/-- What the system does to the operations of one hunk. -/
structure Faults where
  read : Bool
  createDirs : Option Nat
  write : WriteFault
  remove : Bool

def Faults.none : Faults := ⟨false, Option.none, .none, false⟩

structure Effect where
  tree : FileTree
  touched : List Str
  error : Option ApplyPatchError

def Effect.andThen (e : Effect) (next : FileTree → Effect) : Effect :=
  match e.error with
  | some _ => e
  | none => ⟨(next e.tree).tree, e.touched ++ (next e.tree).touched, (next e.tree).error⟩

structure AffectedPaths where
  added : List Str
  modified : List Str
  deleted : List Str
  deriving DecidableEq

def AffectedPaths.push (affected : AffectedPaths) : Hunk → AffectedPaths
  | .addFile path _ => { affected with added := affected.added ++ [path] }
  | .deleteFile path => { affected with deleted := affected.deleted ++ [path] }
  | .updateFile path movePath _ =>
    { affected with modified := affected.modified ++ [movePath.getD path] }

/-- `derive_new_contents_from_chunks`, given what reading the file gave: the original and the
new contents. -/
def deriveNewContentsFromChunks (path : Str) (read : Option Str) (chunks : List UpdateFileChunk) :
    Except ApplyPatchError (Str × Str) :=
  match read with
  | none => .error (.ioError (("Failed to read file to update " : Str) ++ path))
  | some contents => (deriveNewContents path contents chunks).map fun new => (contents, new)

variable (faults : Faults) (cwd : Str) (t : FileTree)

/-- The directories on the way to a path, from the working directory. -/
def createParents (path : Str) : CreateDirs :=
  if Path.hasParent path then
    match t.walk [] (Str.split '/' cwd) with
    | none => ⟨t, [], false⟩
    | some loc => t.createDirAll faults.createDirs loc (Path.components path).dropLast
  else ⟨t, [], true⟩

def createParentDirs (path : Str) : Effect :=
  let created := createParents faults cwd t path
  ⟨created.tree, if created.made = [] then [] else [path],
    if created.ok then none
    else some (.ioError (("Failed to create parent directories for " : Str) ++ path))⟩

def writeFile (path contents : Str) : Effect :=
  let error := ApplyPatchError.ioError (("Failed to write file " : Str) ++ path)
  match faults.write with
  | .none =>
    match t.write (Path.join cwd path) (.text contents) with
    | some t' => ⟨t', [path], none⟩
    | none => ⟨t, [], some error⟩
  | .refused => ⟨t, [], some error⟩
  | .torn written =>
    match t.write (Path.join cwd path) written with
    | some t' => ⟨t', [path], some error⟩
    | none => ⟨t, [], some error⟩

def writeNewFile (path contents : Str) : Effect :=
  (createParentDirs faults cwd t path).andThen fun t => writeFile faults cwd t path contents

def removeFile (context path : Str) : Effect :=
  match if faults.remove then none else t.removeFile (Path.join cwd path) with
  | some t' => ⟨t', [path], none⟩
  | none => ⟨t, [], some (.ioError (context ++ path))⟩

def readFile (path : Str) : Option Str :=
  if faults.read then none else t.readToString (Path.join cwd path)

def applyHunk : Hunk → Effect
  | .addFile path contents => writeNewFile faults cwd t path contents
  | .deleteFile path => removeFile faults cwd t ("Failed to delete file " : Str) path
  | .updateFile path movePath chunks =>
    match deriveNewContentsFromChunks path (readFile faults cwd t path) chunks with
    | .error e => ⟨t, [], some e⟩
    | .ok (_, newContents) =>
      match movePath with
      | some dest =>
        (writeNewFile faults cwd t dest newContents).andThen fun t =>
          removeFile faults cwd t ("Failed to remove original " : Str) path
      | none => writeFile faults cwd t path newContents

/-- The hunks in order up to the first error; `faults` tells them apart by their number. -/
def applyHunksFrom (faults : Nat → Faults) (cwd : Str) : Nat → FileTree → List Hunk → Effect
  | _, t, [] => ⟨t, [], none⟩
  | i, t, hunk :: hunks =>
    (applyHunk (faults i) cwd t hunk).andThen fun t => applyHunksFrom faults cwd (i + 1) t hunks

structure Applied where
  effect : Effect
  affected : Except ApplyPatchError AffectedPaths

def applyHunksToFiles (faults : Nat → Faults) (cwd : Str) (t : FileTree) (hunks : List Hunk) :
    Applied :=
  if hunks.isEmpty then
    let error := ApplyPatchError.ioError "No files were modified."
    ⟨⟨t, [], some error⟩, .error error⟩
  else
    let effect := applyHunksFrom faults cwd 0 t hunks
    ⟨effect, match effect.error with
      | some e => .error e
      | none => .ok (hunks.foldl AffectedPaths.push ⟨[], [], []⟩)⟩

end SheriMl.ApplyPatch
