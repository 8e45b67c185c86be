import SheriMl.Protocol.SandboxPolicy

/-!
# Writable roots

`get_writable_roots_with_cwd` of `protocol/src/protocol.rs` on Unix: the roots of a policy, the
working directory and the temporary directories, each with the paths below it that stay
read-only. What the code asks of the machine is a `Host`.
-/

namespace SheriMl.Protocol

/-- What is read of the file system and of the environment. -/
structure Host where
  /-- `AbsolutePathBuf::from_absolute_path`. -/
  fromAbsolutePath : Str → Option Str
  /-- `AbsolutePathBuf::resolve_path_against_base`, of a path and its base. -/
  resolvePathAgainstBase : Str → Str → Option Str
  tmpdirVar : Option Str
  existsAt : Str → Bool
  isFile : Str → Bool
  isDir : Str → Bool
  /-- Whether `symlink_metadata` tells of a symlink, if it tells of anything. -/
  symlinkMetadata : Str → Option Bool
  readToString : Str → Option Str
  canonicalize : Str → Option Str

def pathOf : List Path.Component → Str
  | .rootDir :: comps => '/' :: Str.join ("/" : Str) (names comps)
  | comps => Str.join ("/" : Str) (names comps)
where
  names (comps : List Path.Component) : List Str :=
    comps.map fun comp =>
      match comp with
      | .rootDir => []
      | .curDir => ("." : Str)
      | .parentDir => (".." : Str)
      | .normal name => name

/-- `Path::parent`. -/
def parentOf (path : Str) : Option Str :=
  match (Path.components path).getLast? with
  | none => none
  | some .rootDir => none
  | some _ => some (pathOf (Path.components path).dropLast)

def SandboxPolicy.hasFullDiskReadAccess : SandboxPolicy → Bool
  | .dangerFullAccess => true
  | .externalSandbox _ => true
  | .readOnly access => access = .fullAccess
  | .workspaceWrite _ readOnlyAccess _ _ _ => readOnlyAccess = .fullAccess

def SandboxPolicy.hasFullDiskWriteAccess : SandboxPolicy → Bool
  | .dangerFullAccess => true
  | .externalSandbox _ => true
  | .readOnly _ => false
  | .workspaceWrite .. => false

def isGitPointerFile (host : Host) (path : Str) : Bool :=
  host.isFile path && Path.fileName path == some (".git" : Str)

def resolveGitdirFromFile (host : Host) (dotGit : Str) : Option Str := do
  let contents ← host.readToString dotGit
  let (_, gitdirRaw) ← Str.splitOnce ':' (Str.trim contents)
  let gitdirRaw := Str.trim gitdirRaw
  if gitdirRaw.isEmpty then none
  else
    let base ← parentOf dotGit
    let gitdirPath ← host.resolvePathAgainstBase gitdirRaw base
    if host.existsAt gitdirPath then some gitdirPath else none

/-- `root.join(name)`, of a name. -/
def joinName (host : Host) (root name : Str) : Option Str := host.resolvePathAgainstBase name root

/-- The paths below a root that stay read-only. -/
def readOnlySubpathsOf (host : Host) (root : Str) : List Str :=
  let git :=
    match joinName host root ".git" with
    | none => []
    | some topLevelGit =>
      if host.isDir topLevelGit || host.isFile topLevelGit then
        (if isGitPointerFile host topLevelGit then
          (resolveGitdirFromFile host topLevelGit).toList else []) ++ [topLevelGit]
      else []
  let codex := ([".agents", ".codex"].filterMap fun subdir =>
    joinName host root subdir.toList).filter host.isDir
  git ++ codex

namespace SandboxPolicy

def getWritableRootsWithCwd (host : Host) (cwd : Str) : SandboxPolicy → List WritableRoot
  | .workspaceWrite writableRoots _ _ excludeTmpdirEnvVar excludeSlashTmp =>
    let slashTmp :=
      if excludeSlashTmp then [] else (host.fromAbsolutePath "/tmp").toList.filter host.isDir
    let tmpdir :=
      if excludeTmpdirEnvVar then []
      else
        (host.tmpdirVar.toList.filter fun tmpdir => !tmpdir.isEmpty).filterMap
          host.fromAbsolutePath
    let roots := writableRoots ++ (host.fromAbsolutePath cwd).toList ++ slashTmp ++ tmpdir
    roots.map fun root => ⟨root, readOnlySubpathsOf host root⟩
  | _ => []

end SandboxPolicy

end SheriMl.Protocol
