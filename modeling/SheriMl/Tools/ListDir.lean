import Mathlib.Data.Char
import Mathlib.Data.List.Lex
import SheriMl.Lib.Loop
import SheriMl.Lib.Utf8
import SheriMl.Tools.Router

/-!
# Listing a directory

`list_dir_slice` and `collect_entries` of `core/src/tools/handlers/list_dir.rs`: the entries of a
directory tree are collected breadth first, down to a depth, and sorted by their paths; a slice
of them is shown, each indented by its depth. The file names are open, with their lossy decoding,
and so is the unstable sort.
-/

namespace SheriMl.Tools

variable {ν : Type}

def maxEntryLength : Nat := 500

def indentationSpaces : Nat := 2

inductive DirEntryKind where
  | directory
  | file
  | symlink
  | other
  deriving DecidableEq

structure DirEntry where
  name : Str
  displayName : Str
  depth : Nat
  kind : DirEntryKind
  deriving DecidableEq

/-- Why a directory is not read. -/
inductive ReadDirError where
  | read (err : Str)
  | inspect (err : Str)

def ReadDirError.message : ReadDirError → Str
  | read err => "failed to read directory: " ++ err
  | inspect err => "failed to inspect entry: " ++ err

/-- What is in a directory and in those below it, by the path from it, in the order it is read.
The names in a directory are distinct. -/
structure DirTree (ν : Type) where
  read : List ν → Except ReadDirError (List (ν × DirEntryKind))
  nodup : ∀ path entries, read path = .ok entries → (entries.map Prod.fst).Nodup

/-- An entry with its path, which the source drops when it is collected. It is kept to tell which
of two entries of the same name the sort puts first. -/
structure Found (ν : Type) where
  relativePath : List ν
  fileName : ν
  entry : DirEntry
  deriving DecidableEq

def truncateEntry (s : Str) : Str :=
  if maxEntryLength < Str.utf8Size s then Str.takeBytes maxEntryLength s else s

/-- `lossy` is `to_string_lossy`, which leaves the separators of a path as they are. -/
def formatEntryName (lossy : ν → Str) (path : List ν) : Str :=
  truncateEntry ((Str.join "/" (path.map lossy)).map fun c => if c = '\\' then '/' else c)

def formatEntryComponent (lossy : ν → Str) (name : ν) : Str := truncateEntry (lossy name)

def formatEntryLine (entry : DirEntry) : Str :=
  let indent : Str := List.replicate (entry.depth * indentationSpaces) ' '
  let suffix : Str :=
    match entry.kind with
    | .directory => "/"
    | .symlink => "@"
    | .other => "?"
    | .file => ""
  indent ++ entry.displayName ++ suffix

def inspectEntry (lossy : ν → Str) (current : List ν) (read : ν × DirEntryKind) : Found ν :=
  let relativePath := current ++ [read.1]
  { relativePath
    fileName := read.1
    entry :=
      { name := formatEntryName lossy relativePath
        displayName := formatEntryComponent lossy read.1
        depth := current.length
        kind := read.2 } }

/-- The directories to be read, with the depth that remains, and the entries so far. -/
structure Collector (ν : Type) where
  queue : List (List ν × Nat)
  entries : List (Found ν)

section Listing

variable (lossy : ν → Str) (sort : List (Found ν) → List (Found ν)) (tree : DirTree ν)

/-- Reads the first directory of the queue. -/
def readNext (s : Collector ν) : Computes (ForInStep (Collector ν)) :=
  match s.queue with
  | [] => .ok (.done s)
  | (current, remainingDepth) :: queue =>
    match tree.read current with
    | .error err => respond err.message
    | .ok read =>
      let dirEntries := sort (read.map (inspectEntry lossy current))
      let subdirs := dirEntries.filter fun found =>
        found.entry.kind = .directory && decide (1 < remainingDepth)
      .ok (.yield
        { queue := queue ++ subdirs.map fun found => (found.relativePath, remainingDepth - 1)
          entries := s.entries ++ dirEntries })

/-- The loop, for a number of directories. -/
def collectEntries (fuel depth : Nat) : Computes (List (Found ν)) := do
  let s ← Loop.iterate (fun s : Collector ν => !s.queue.isEmpty) (readNext lossy sort tree)
    .running fuel { queue := [([], depth)], entries := [] }
  pure s.entries

def moreFound (cappedLimit : Nat) : Str :=
  "More than " ++ (toString cappedLimit).toList ++ " entries found"

/-- The handler refuses an `offset`, a `limit` or a `depth` of zero first. -/
def listDirSlice (fuel offset limit depth : Nat) : Computes (List Str) := do
  let entries ← collectEntries lossy sort tree fuel depth
  if entries.isEmpty then pure []
  else
    let entries := sort entries
    let startIndex := offset - 1
    if entries.length ≤ startIndex then respond "offset exceeds directory entry count"
    else
      let cappedLimit := min limit (entries.length - startIndex)
      let endIndex := startIndex + cappedLimit
      let selectedEntries := (entries.take endIndex).drop startIndex
      let formatted := selectedEntries.map fun found => formatEntryLine found.entry
      pure (if endIndex < entries.length then formatted ++ [moreFound cappedLimit] else formatted)

end Listing

end SheriMl.Tools
