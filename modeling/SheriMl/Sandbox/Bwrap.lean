import SheriMl.Protocol.WritableRoots

/-!
# The mounts of the Linux sandbox

`create_filesystem_args` of `linux-sandbox/src/bwrap.rs`: bind mounts that make everything
read-only, then the writable roots writable, then what is protected below them read-only again.
Of the mounts whose target covers a path the last decides (`writableUnder`).
`writableUnder_iff`: without symlinks a path is writable just if it lies in `/dev/null`, or in a
root and in no protected path of any root.
-/

namespace SheriMl.Sandbox

open List

open Protocol

inductive CodexErr where
  | unsupportedOperation (message : Str)

/-- A mount, as the flag and the two paths of its arguments. -/
inductive MountArg where
  | roBind (source dest : Str)
  | bind (source dest : Str)
  | devBind (source dest : Str)

namespace MountArg

def dest : MountArg → Str
  | roBind _ dest => dest
  | bind _ dest => dest
  | devBind _ dest => dest

def isWritable : MountArg → Bool
  | roBind _ _ => false
  | bind _ _ => true
  | devBind _ _ => true

/-- The arguments as they are pushed. -/
def args : MountArg → List Str
  | roBind source dest => [("--ro-bind" : Str), source, dest]
  | bind source dest => [("--bind" : Str), source, dest]
  | devBind source dest => [("--dev-bind" : Str), source, dest]

end MountArg

def devNull : Str := "/dev/null"

/-! ## Read-only subpaths -/

def isWithinAllowedWritePaths (path : Str) (allowedWritePaths : List Str) : Bool :=
  allowedWritePaths.any (pathStartsWith path)

/-- The order of components in `PathBuf`'s `Ord`. -/
def componentRank : Path.Component → Nat × Str
  | .rootDir => (1, [])
  | .curDir => (2, [])
  | .parentDir => (3, [])
  | .normal name => (4, name)

def componentLt (a b : Path.Component) : Bool :=
  (componentRank a).1 < (componentRank b).1 ||
    (componentRank a).1 == (componentRank b).1 && decide ((componentRank a).2 < (componentRank b).2)

def pathLt : List Path.Component → List Path.Component → Bool
  | _, [] => false
  | [], _ :: _ => true
  | a :: as, b :: bs => componentLt a b || a == b && pathLt as bs

/-- `BTreeSet::insert`; paths of the same components are equal. -/
def insertPath (path : Str) : List Str → List Str
  | [] => [path]
  | first :: paths =>
    if Path.components path = Path.components first then first :: paths
    else if pathLt (Path.components path) (Path.components first) then path :: first :: paths
    else first :: insertPath path paths

def collectReadOnlySubpaths (writableRoots : List WritableRoot) : List Str :=
  (writableRoots.flatMap fun writableRoot => writableRoot.readOnlySubpaths).foldl
    (fun paths subpath => insertPath subpath paths) []

/-- `PathBuf::pop`. -/
def pop (comps : List Path.Component) : List Path.Component :=
  if comps = [.rootDir] then comps else comps.dropLast

/-- The walk of `find_symlink_in_path` from a component on. -/
def findSymlinkFrom (host : Host) (allowedWritePaths : List Str) (current : List Path.Component) :
    List Path.Component → Option Str
  | [] => none
  | .rootDir :: rest => findSymlinkFrom host allowedWritePaths [.rootDir] rest
  | .curDir :: rest => findSymlinkFrom host allowedWritePaths current rest
  | .parentDir :: rest => findSymlinkFrom host allowedWritePaths (pop current) rest
  | .normal part :: rest =>
    let current := current ++ [.normal part]
    match host.symlinkMetadata (pathOf current) with
    | none => none
    | some isSymlink =>
      if isSymlink && isWithinAllowedWritePaths (pathOf current) allowedWritePaths then
        some (pathOf current)
      else findSymlinkFrom host allowedWritePaths current rest

def findSymlinkInPath (host : Host) (targetPath : Str) (allowedWritePaths : List Str) :
    Option Str :=
  findSymlinkFrom host allowedWritePaths [] (Path.components targetPath)

/-- The walk of `find_first_non_existent_component` from a component on. -/
def findFirstNonExistentFrom (host : Host) (current : List Path.Component) :
    List Path.Component → Option Str
  | [] => none
  | .rootDir :: rest => findFirstNonExistentFrom host [.rootDir] rest
  | .curDir :: rest => findFirstNonExistentFrom host current rest
  | .parentDir :: rest => findFirstNonExistentFrom host (pop current) rest
  | .normal part :: rest =>
    let current := current ++ [.normal part]
    if host.existsAt (pathOf current) then findFirstNonExistentFrom host current rest
    else some (pathOf current)

def findFirstNonExistentComponent (host : Host) (targetPath : Str) : Option Str :=
  findFirstNonExistentFrom host [] (Path.components targetPath)

/-! ## The mounts -/

def ensureMountTargetsExist (host : Host) (writableRoots : List WritableRoot) :
    Except CodexErr Unit :=
  match writableRoots.find? fun writableRoot => !host.existsAt writableRoot.root with
  | some writableRoot =>
    .error (.unsupportedOperation (("Sandbox expected writable root " : Str) ++
      writableRoot.root ++ (", but it does not exist." : Str)))
  | none => .ok ()

def subpathMounts (host : Host) (allowedWritePaths : List Str) (subpath : Str) : List MountArg :=
  match findSymlinkInPath host subpath allowedWritePaths with
  | some symlinkPath => [.roBind devNull symlinkPath]
  | none =>
    if !host.existsAt subpath then
      match findFirstNonExistentComponent host subpath with
      | some firstMissing =>
        if isWithinAllowedWritePaths firstMissing allowedWritePaths then
          [.roBind devNull firstMissing]
        else []
      | none => []
    else if isWithinAllowedWritePaths subpath allowedWritePaths then [.roBind subpath subpath]
    else []

def createFilesystemMounts (host : Host) (sandboxPolicy : SandboxPolicy) (cwd : Str) :
    Except CodexErr (List MountArg) :=
  if !sandboxPolicy.hasFullDiskReadAccess then
    .error (.unsupportedOperation (("Restricted read-only access is not yet " : Str) ++
      ("supported by the Linux bubblewrap backend." : Str)))
  else do
    let writableRoots := sandboxPolicy.getWritableRootsWithCwd host cwd
    ensureMountTargetsExist host writableRoots
    let allowedWritePaths := writableRoots.map fun writableRoot => writableRoot.root
    return .roBind ("/" : Str) ("/" : Str) ::
      (allowedWritePaths.map fun root => .bind root root) ++
        (collectReadOnlySubpaths writableRoots).flatMap (subpathMounts host allowedWritePaths) ++
          [.devBind devNull devNull]

def createFilesystemArgs (host : Host) (sandboxPolicy : SandboxPolicy) (cwd : Str) :
    Except CodexErr (List Str) :=
  (createFilesystemMounts host sandboxPolicy cwd).map fun mounts => mounts.flatMap MountArg.args

/-- A path is writable under mounts applied in order: the last that covers it is writable. -/
def writableUnder (mounts : List MountArg) (path : Str) : Bool :=
  ((mounts.filter fun mount => pathStartsWith path mount.dest).getLast?.map
    MountArg.isWritable).getD false

/-! ## The boundary that the mounts draw -/

/-- A tree without symlinks, with the roots and what is protected below them in it. -/
structure PlainTree (host : Host) (writableRoots : List WritableRoot) : Prop where
  noSymlinks : ∀ path, host.symlinkMetadata path ≠ some true
  roots : ∀ writableRoot ∈ writableRoots, host.existsAt writableRoot.root = true
  subpaths : ∀ writableRoot ∈ writableRoots, ∀ subpath ∈ writableRoot.readOnlySubpaths,
    host.existsAt subpath = true
  canonical : ∀ writableRoot ∈ writableRoots,
    ∀ path ∈ writableRoot.root :: writableRoot.readOnlySubpaths,
      ∀ canonical, host.canonicalize path = some canonical →
        Path.components canonical = Path.components path

section Boundary

variable {host : Host} {writableRoots : List WritableRoot} {allowedWritePaths paths : List Str}
  {path subpath : Str} {mounts mounts' : List MountArg} {P : Str → Prop}

/-- A property of paths as lists of components. -/
def Componentwise (P : Str → Prop) : Prop :=
  ∀ path path', Path.components path = Path.components path' → (P path ↔ P path')

theorem exists_insertPath_iff (hP : Componentwise P) :
    (∃ path ∈ insertPath subpath paths, P path) ↔ P subpath ∨ ∃ path ∈ paths, P path := by
  induction paths with
  | nil =>
    rw [insertPath, exists_mem_cons_iff]
  | cons first paths ih =>
    rw [insertPath]
    split
    next heq =>
      rw [exists_mem_cons_iff, hP subpath first heq, ← or_assoc, or_self]
    · split
      · rw [exists_mem_cons_iff]
      · rw [exists_mem_cons_iff, exists_mem_cons_iff, ih]
        exact or_left_comm

theorem exists_collect_iff (hP : Componentwise P) :
    (∃ subpath ∈ collectReadOnlySubpaths writableRoots, P subpath) ↔
      ∃ writableRoot ∈ writableRoots, ∃ subpath ∈ writableRoot.readOnlySubpaths, P subpath := by
  have hfold (subpaths paths : List Str) :
      (∃ path ∈ subpaths.foldl (fun paths subpath => insertPath subpath paths) paths, P path) ↔
        (∃ path ∈ paths, P path) ∨ ∃ subpath ∈ subpaths, P subpath := by
    induction subpaths generalizing paths with
    | nil => simp
    | cons subpath subpaths ih =>
      rw [foldl_cons, ih, exists_insertPath_iff hP, exists_mem_cons_iff, or_assoc]
      exact or_left_comm
  rw [collectReadOnlySubpaths, hfold]
  constructor
  · rintro (⟨path, hpath, -⟩ | ⟨subpath, hsubpath, hsatisfies⟩)
    · cases hpath
    · obtain ⟨writableRoot, hroot, hmem⟩ := mem_flatMap.1 hsubpath
      exact ⟨writableRoot, hroot, subpath, hmem, hsatisfies⟩
  · rintro ⟨writableRoot, hroot, subpath, hmem, hsatisfies⟩
    exact Or.inr ⟨subpath, mem_flatMap.2 ⟨writableRoot, hroot, hmem⟩, hsatisfies⟩

theorem mem_insertPath (h : path ∈ insertPath subpath paths) : path = subpath ∨ path ∈ paths := by
  induction paths with
  | nil => exact Or.inl (mem_singleton.1 h)
  | cons first paths ih =>
    rw [insertPath] at h
    split at h
    · exact Or.inr h
    · split at h
      · exact (mem_cons.1 h)
      · rcases mem_cons.1 h with rfl | h
        · exact Or.inr mem_cons_self
        · exact (ih h).imp_right (mem_cons_of_mem _)

theorem mem_collect (h : subpath ∈ collectReadOnlySubpaths writableRoots) :
    ∃ writableRoot ∈ writableRoots, subpath ∈ writableRoot.readOnlySubpaths := by
  have hfold (subpaths paths : List Str)
      (h : subpath ∈ subpaths.foldl (fun paths subpath => insertPath subpath paths) paths) :
      subpath ∈ paths ∨ subpath ∈ subpaths := by
    induction subpaths generalizing paths with
    | nil => exact Or.inl h
    | cons first subpaths ih =>
      rcases ih _ h with h | h
      · exact (mem_insertPath h).elim (fun h => Or.inr (h ▸ mem_cons_self)) Or.inl
      · exact Or.inr (mem_cons_of_mem _ h)
  rcases hfold _ _ h with h | h
  · cases h
  · exact mem_flatMap.1 h

theorem findSymlinkFrom_eq_none (h : ∀ path, host.symlinkMetadata path ≠ some true)
    (current comps : List Path.Component) :
    findSymlinkFrom host allowedWritePaths current comps = none := by
  induction comps generalizing current with
  | nil => rfl
  | cons comp comps ih =>
    cases comp with
    | rootDir => exact ih _
    | curDir => exact ih _
    | parentDir => exact ih _
    | normal part =>
      rw [findSymlinkFrom]
      split
      · rfl
      next isSymlink hmetadata =>
        have hplain : isSymlink = false := by
          rw [← Bool.not_eq_true]
          rintro rfl
          exact h _ hmetadata
        rw [hplain, Bool.false_and]
        exact ih _

theorem subpathMounts_of_plain (h : PlainTree host writableRoots)
    (hsubpath : subpath ∈ collectReadOnlySubpaths writableRoots) :
    subpathMounts host allowedWritePaths subpath =
      if isWithinAllowedWritePaths subpath allowedWritePaths then [.roBind subpath subpath]
      else [] := by
  obtain ⟨writableRoot, hroot, hmem⟩ := mem_collect hsubpath
  rw [subpathMounts, findSymlinkInPath, findSymlinkFrom_eq_none h.noSymlinks]
  dsimp only
  rw [h.subpaths writableRoot hroot subpath hmem]
  rfl

theorem writableUnder_append_of_none
    (h : ∀ mount ∈ mounts', pathStartsWith path mount.dest = false) :
    writableUnder (mounts ++ mounts') path = writableUnder mounts path := by
  have hnone : (mounts'.filter fun mount => pathStartsWith path mount.dest) = [] := by
    rw [filter_eq_nil_iff]
    intro mount hmount
    rw [h mount hmount]
    exact Bool.false_ne_true
  rw [writableUnder, filter_append, hnone, append_nil]
  rfl

/-- Mounts of one kind decide for the paths that they cover. -/
theorem writableUnder_append_of_some (isWritable : Bool)
    (hkind : ∀ mount ∈ mounts', mount.isWritable = isWritable)
    (h : ∃ mount ∈ mounts', pathStartsWith path mount.dest = true) :
    writableUnder (mounts ++ mounts') path = isWritable := by
  obtain ⟨mount, hmount, hcovers⟩ := h
  have hmem : mount ∈ mounts'.filter fun mount => pathStartsWith path mount.dest :=
    mem_filter.2 ⟨hmount, hcovers⟩
  have hne := ne_nil_of_mem hmem
  have hlast := (mem_filter.1 (getLast_mem hne)).1
  rw [writableUnder, filter_append, List.getLast?_append, List.getLast?_eq_some_getLast hne]
  exact hkind _ hlast

theorem pathStartsWith_congr {base base' : Str}
    (h : Path.components base = Path.components base') :
    pathStartsWith path base = pathStartsWith path base' := by
  rw [pathStartsWith, pathStartsWith, h]

theorem isWithin_congr {path' : Str} (h : Path.components path = Path.components path') :
    isWithinAllowedWritePaths path allowedWritePaths =
      isWithinAllowedWritePaths path' allowedWritePaths := by
  unfold isWithinAllowedWritePaths pathStartsWith
  rw [h]

/-- A subpath that is bound read-only covers a path. -/
def Protects (writableRoots : List WritableRoot) (path subpath : Str) : Prop :=
  isWithinAllowedWritePaths subpath (writableRoots.map fun writableRoot => writableRoot.root) =
      true ∧
    pathStartsWith path subpath = true

theorem componentwise_protects : Componentwise (Protects writableRoots path) := by
  intro subpath subpath' h
  rw [Protects, Protects, isWithin_congr h, pathStartsWith_congr h]

def readOnlyRoot : List MountArg := [.roBind ("/" : Str) ("/" : Str)]

def rootBinds (writableRoots : List WritableRoot) : List MountArg :=
  (writableRoots.map fun writableRoot => writableRoot.root).map fun root => .bind root root

def subpathBinds (host : Host) (writableRoots : List WritableRoot) : List MountArg :=
  (collectReadOnlySubpaths writableRoots).flatMap
    (subpathMounts host (writableRoots.map fun writableRoot => writableRoot.root))

theorem createFilesystemMounts_of_plain {policy : SandboxPolicy} {cwd : Str}
    (h : PlainTree host (policy.getWritableRootsWithCwd host cwd)) :
    createFilesystemMounts host policy cwd =
      if policy.hasFullDiskReadAccess then
        .ok (readOnlyRoot ++ rootBinds (policy.getWritableRootsWithCwd host cwd) ++
          subpathBinds host (policy.getWritableRootsWithCwd host cwd) ++
            [.devBind devNull devNull])
      else .error (.unsupportedOperation (("Restricted read-only access is not yet " : Str) ++
        ("supported by the Linux bubblewrap backend." : Str))) := by
  have hensure : ensureMountTargetsExist host (policy.getWritableRootsWithCwd host cwd) =
      .ok () := by
    have hnone : (policy.getWritableRootsWithCwd host cwd).find?
        (fun writableRoot => !host.existsAt writableRoot.root) = none := by
      rw [List.find?_eq_none]
      intro writableRoot hroot
      rw [h.roots writableRoot hroot]
      exact Bool.false_ne_true
    rw [ensureMountTargetsExist, hnone]
  rw [createFilesystemMounts]
  dsimp only
  rw [hensure]
  cases policy.hasFullDiskReadAccess with
  | true => rfl
  | false => rfl

/-- The bind of the whole tree makes nothing writable. -/
theorem writableUnder_readOnlyRoot : writableUnder readOnlyRoot path = false := by
  have hkind : ∀ mount ∈ readOnlyRoot, mount.isWritable = false := by
    intro mount hmount
    rw [mem_singleton.1 hmount]
    rfl
  rw [← nil_append readOnlyRoot]
  by_cases hcovers : ∃ mount ∈ readOnlyRoot, pathStartsWith path mount.dest = true
  · exact writableUnder_append_of_some false hkind hcovers
  · rw [writableUnder_append_of_none]
    · rfl
    · intro mount hmount
      rw [← Bool.not_eq_true]
      exact fun h => hcovers ⟨mount, hmount, h⟩

theorem exists_rootBinds_iff : (∃ mount ∈ rootBinds writableRoots,
    pathStartsWith path mount.dest = true) ↔
      ∃ writableRoot ∈ writableRoots, pathStartsWith path writableRoot.root = true := by
  simp only [rootBinds, map_map, mem_map]
  constructor
  · rintro ⟨mount, ⟨writableRoot, hroot, rfl⟩, hcovers⟩
    exact ⟨writableRoot, hroot, hcovers⟩
  · rintro ⟨writableRoot, hroot, hcovers⟩
    exact ⟨_, ⟨writableRoot, hroot, rfl⟩, hcovers⟩

theorem mem_subpathBinds_iff (h : PlainTree host writableRoots) {mount : MountArg} :
    mount ∈ subpathBinds host writableRoots ↔
      ∃ subpath ∈ collectReadOnlySubpaths writableRoots,
        isWithinAllowedWritePaths subpath
            (writableRoots.map fun writableRoot => writableRoot.root) = true ∧
          mount = .roBind subpath subpath := by
  rw [subpathBinds, mem_flatMap]
  apply exists_congr
  intro subpath
  apply and_congr_right
  intro hsubpath
  rw [subpathMounts_of_plain h hsubpath]
  split
  next hwithin => rw [mem_singleton, hwithin, eq_self, true_and]
  next hwithin =>
    constructor
    · intro hmem
      cases hmem
    · rintro ⟨hwithin', -⟩
      exact absurd hwithin' hwithin

theorem exists_subpathBinds_iff (h : PlainTree host writableRoots) :
    (∃ mount ∈ subpathBinds host writableRoots, pathStartsWith path mount.dest = true) ↔
      ∃ writableRoot ∈ writableRoots, ∃ subpath ∈ writableRoot.readOnlySubpaths,
        Protects writableRoots path subpath := by
  rw [← exists_collect_iff componentwise_protects]
  constructor
  · rintro ⟨mount, hmount, hcovers⟩
    obtain ⟨subpath, hsubpath, hwithin, rfl⟩ := (mem_subpathBinds_iff h).1 hmount
    exact ⟨subpath, hsubpath, hwithin, hcovers⟩
  · rintro ⟨subpath, hsubpath, hwithin, hcovers⟩
    exact ⟨_, (mem_subpathBinds_iff h).2 ⟨subpath, hsubpath, hwithin, rfl⟩, hcovers⟩

/-- The boundary in a plain tree: `/dev/null`, and the roots without what is protected in them. -/
theorem writableUnder_iff (h : PlainTree host writableRoots) :
    writableUnder (readOnlyRoot ++ rootBinds writableRoots ++ subpathBinds host writableRoots ++
      [.devBind devNull devNull]) path = true ↔
      pathStartsWith path devNull = true ∨
        (∃ writableRoot ∈ writableRoots, pathStartsWith path writableRoot.root = true) ∧
          ¬∃ writableRoot ∈ writableRoots, ∃ subpath ∈ writableRoot.readOnlySubpaths,
            Protects writableRoots path subpath := by
  by_cases hdev : pathStartsWith path devNull = true
  · rw [writableUnder_append_of_some true]
    · exact iff_of_true rfl (Or.inl hdev)
    · intro mount hmount
      rw [mem_singleton.1 hmount]
      rfl
    · exact ⟨_, mem_singleton_self _, hdev⟩
  rw [writableUnder_append_of_none, or_iff_right hdev]
  swap
  · intro mount hmount
    rw [mem_singleton.1 hmount]
    exact Bool.not_eq_true _ ▸ hdev
  by_cases hprotected : ∃ mount ∈ subpathBinds host writableRoots,
      pathStartsWith path mount.dest = true
  · have hprotects := (exists_subpathBinds_iff h).1 hprotected
    rw [writableUnder_append_of_some false _ hprotected]
    · exact iff_of_false Bool.false_ne_true fun hboth => hboth.2 hprotects
    · intro mount hmount
      obtain ⟨subpath, -, -, rfl⟩ := (mem_subpathBinds_iff h).1 hmount
      rfl
  have hfree := mt (exists_subpathBinds_iff h).2 hprotected
  rw [writableUnder_append_of_none, and_iff_left hfree, ← exists_rootBinds_iff]
  swap
  · intro mount hmount
    rw [← Bool.not_eq_true]
    exact fun hcovers => hprotected ⟨mount, hmount, hcovers⟩
  by_cases hroot : ∃ mount ∈ rootBinds writableRoots, pathStartsWith path mount.dest = true
  · rw [writableUnder_append_of_some true _ hroot]
    · exact iff_of_true rfl hroot
    · intro mount hmount
      obtain ⟨root, -, rfl⟩ := mem_map.1 hmount
      rfl
  · rw [writableUnder_append_of_none]
    · refine iff_of_false ?_ hroot
      rw [writableUnder_readOnlyRoot]
      exact Bool.false_ne_true
    · intro mount hmount
      rw [← Bool.not_eq_true]
      exact fun hcovers => hroot ⟨mount, hmount, hcovers⟩

end Boundary

end SheriMl.Sandbox
