import SheriMl.Lib.Mounts
import SheriMl.Sandbox.Bwrap

/-!
# The namespace that the mounts make

The arguments of `create_filesystem_args` of `linux-sandbox/src/bwrap.rs`, applied in order to a tree
with symlinks anywhere. A mount is of the location of its source at that of its destination; one
whose paths do not exist is not made. The code reads the same tree (`treeHost`); what the paths of
the policy are made absolute by is open.
-/

namespace SheriMl.Sandbox

open LinkTree (Straight isLink locate lstat resolve)
open Mounts
open Protocol

/-- A path that is absolute and normalized. -/
def Normal (path : Str) : Prop :=
  ∃ names : List Str, Path.components path = .rootDir :: names.map .normal

/-- What the code reads of a tree, over at most so many links. -/
def treeHost (t : LinkTree) (links : Nat) (fromAbsolutePath : Str → Option Str)
    (resolvePathAgainstBase : Str → Str → Option Str) (tmpdirVar : Option Str) : Host where
  fromAbsolutePath
  resolvePathAgainstBase
  tmpdirVar
  existsAt path := (resolve t.node links path).isSome
  isFile path :=
    match (resolve t.node links path).bind t.node with
    | some (.file _) => true
    | some .dir | some (.link _) | some .device | none => false
  isDir path :=
    match (resolve t.node links path).bind t.node with
    | some .dir => true
    | some (.file _) | some (.link _) | some .device | none => false
  symlinkMetadata path := (lstat t.node links path).map fun
    | .link _ => true
    | .file _ | .dir | .device => false
  readToString path :=
    match (resolve t.node links path).bind t.node with
    | some (.file contents) => some contents
    | some .dir | some (.link _) | some .device | none => none
  canonicalize path := (resolve t.node links path).map fun loc => pathOf (.rootDir :: loc.map .normal)

def MountArg.source : MountArg → Str
  | roBind source _ => source
  | bind source _ => source
  | devBind source _ => source

section

variable (t : LinkTree) (links : Nat)

def bound (mount : MountArg) : Option Bound := do
  let source ← resolve t.node links mount.source
  let dest ← resolve t.node links mount.dest
  some ⟨source, dest, mount.isWritable⟩

def bounds (mounts : List MountArg) : List Bound := mounts.filterMap (bound t links)

/-- The sink that stays writable. -/
def InDevNull (loc : Loc) : Prop := ∃ sink, resolve t.node links devNull = some sink ∧ sink <+: loc

/-- In the namespace the path leads to a location that may be written, or created. -/
def Writes (mounts : List MountArg) (path : Str) (loc : Loc) : Prop :=
  locate (view t.node (bounds t links mounts)) links [] (Path.components path) = some loc ∧
    permits t.node (bounds t links mounts) loc = true

end

/-- A path that is protected for a subpath: the subpath itself, or the symlink in a root that leads
to it. -/
def ProtectedAt (host : Host) (allowedWritePaths : List Str) (subpath path : Str) : Prop :=
  pathStartsWith subpath path = true ∧
    (Path.components path = Path.components subpath ∨
      isWithinAllowedWritePaths path allowedWritePaths = true ∧
        host.symlinkMetadata path = some true)

variable {t : LinkTree} {links : Nat} {fromAbsolutePath : Str → Option Str}
  {resolvePathAgainstBase : Str → Str → Option Str} {tmpdirVar : Option Str} {host : Host}
  {policy : SandboxPolicy} {allowedWritePaths names : List Str} {path subpath cwd root : Str}
  {mount : MountArg} {mounts : List MountArg} {loc : Loc} {m : Bound}
  {writableRoots : List WritableRoot}

/-! ## Subpaths -/

theorem components_pathOf (h : ∀ name ∈ names, Path.IsName name) :
    Path.components (pathOf (.rootDir :: names.map .normal)) = .rootDir :: names.map .normal := by
  have hnames : pathOf.names (names.map .normal) = names := by
    rw [pathOf.names, List.map_map]
    exact List.map_id names
  rw [pathOf, hnames]
  exact Path.components_join h

theorem resolveGitdirFromFile_spec (h : resolveGitdirFromFile host path = some subpath) :
    (∃ path base, host.resolvePathAgainstBase path base = some subpath) ∧
      (host.existsAt subpath = true ∨ host.isDir subpath = true ∨ host.isFile subpath = true) := by
  simp only [resolveGitdirFromFile, Option.bind_eq_bind, Option.bind_eq_some_iff] at h
  obtain ⟨contents, -, pieces, -, h⟩ := h
  split at h
  next => cases h
  next =>
    obtain ⟨base, -, h⟩ := Option.bind_eq_some_iff.1 h
    obtain ⟨gitdirPath, hgitdir, h⟩ := Option.bind_eq_some_iff.1 h
    split at h
    next hexists =>
      cases h
      exact ⟨⟨_, base, hgitdir⟩, .inl hexists⟩
    next => cases h

/-- The subpaths are made absolute, and are seen. -/
theorem mem_readOnlySubpathsOf (h : subpath ∈ readOnlySubpathsOf host root) :
    (∃ path base, host.resolvePathAgainstBase path base = some subpath) ∧
      (host.existsAt subpath = true ∨ host.isDir subpath = true ∨ host.isFile subpath = true) := by
  rw [readOnlySubpathsOf] at h
  obtain hgit | hcodex := List.mem_append.1 h
  · split at hgit
    next => cases hgit
    next topLevelGit hjoin =>
      split at hgit
      next hseen =>
        obtain hgitdir | hmem := List.mem_append.1 hgit
        · split at hgitdir
          next =>
            exact resolveGitdirFromFile_spec (Option.mem_toList.1 hgitdir)
          next => cases hgitdir
        · obtain rfl := List.mem_singleton.1 hmem
          rw [Bool.or_eq_true] at hseen
          exact ⟨⟨_, _, hjoin⟩, .inr hseen⟩
      next => cases hgit
  · obtain ⟨hmem, hdir⟩ := List.mem_filter.1 hcodex
    obtain ⟨subdir, -, hjoin⟩ := List.mem_filterMap.1 hmem
    exact ⟨⟨_, _, hjoin⟩, .inr (.inl hdir)⟩

theorem readOnlySubpaths_eq {writableRoot : WritableRoot}
    (h : writableRoot ∈ policy.getWritableRootsWithCwd host cwd) :
    writableRoot.readOnlySubpaths = readOnlySubpathsOf host writableRoot.root := by
  cases policy with
  | workspaceWrite =>
    obtain ⟨root, -, rfl⟩ := List.mem_map.1 h
    rfl
  | dangerFullAccess | externalSandbox | readOnly => cases h

theorem findSymlinkFrom_spec {current : List Path.Component}
    (h : findSymlinkFrom host allowedWritePaths current (names.map .normal) = some path) :
    ∃ taken, taken <+: names ∧ path = pathOf (current ++ taken.map .normal) ∧
      isWithinAllowedWritePaths path allowedWritePaths = true ∧
      host.symlinkMetadata path = some true := by
  induction names generalizing current with
  | nil => cases h
  | cons name names ih =>
    rw [List.map_cons, findSymlinkFrom] at h
    split at h
    next => cases h
    next isSymlink hmetadata =>
      split at h
      next hfound =>
        obtain rfl := Option.some.inj h
        rw [Bool.and_eq_true] at hfound
        refine ⟨[name], List.prefix_append [name] names, rfl, hfound.2, ?_⟩
        rw [hmetadata, hfound.1]
      next =>
        obtain ⟨taken, hbelow, hpath, hfound⟩ := ih h
        refine ⟨name :: taken, List.cons_prefix_cons.2 ⟨rfl, hbelow⟩, ?_, hfound⟩
        rw [hpath, List.map_cons, List.append_assoc]
        rfl

theorem existsAt_of_seen {host : Host}
    (hhost : host = treeHost t links fromAbsolutePath resolvePathAgainstBase tmpdirVar)
    (h : host.existsAt path = true ∨ host.isDir path = true ∨ host.isFile path = true) :
    host.existsAt path = true := by
  subst hhost
  obtain h | h | h := h
  · exact h
  · simp only [treeHost] at h ⊢
    split at h
    next hnode =>
      obtain ⟨loc, hloc, -⟩ := Option.bind_eq_some_iff.1 hnode
      rw [hloc]
      rfl
    all_goals cases h
  · simp only [treeHost] at h ⊢
    split at h
    next hnode =>
      obtain ⟨loc, hloc, -⟩ := Option.bind_eq_some_iff.1 hnode
      rw [hloc]
      rfl
    all_goals cases h

theorem exists_protectedAt (hnormal : Normal subpath) (hexists : host.existsAt subpath = true)
    (hwithin : isWithinAllowedWritePaths subpath allowedWritePaths = true) :
    ∃ path, ProtectedAt host allowedWritePaths subpath path ∧
      ∃ source, (source = devNull ∨ source = path) ∧
        subpathMounts host allowedWritePaths subpath = [.roBind source path] := by
  obtain ⟨names, hnames⟩ := hnormal
  have hvalid : ∀ name ∈ names, Path.IsName name := by
    intro name hname
    refine Path.isName_of_mem_components (p := subpath) ?_
    rw [hnames]
    exact List.mem_cons_of_mem _ (List.mem_map_of_mem hname)
  rw [subpathMounts]
  cases hsymlink : findSymlinkInPath host subpath allowedWritePaths with
  | some symlinkPath =>
    refine ⟨symlinkPath, ?_, devNull, .inl rfl, rfl⟩
    rw [findSymlinkInPath, hnames, findSymlinkFrom] at hsymlink
    obtain ⟨taken, hbelow, hpath, hsymlink⟩ := findSymlinkFrom_spec hsymlink
    rw [List.singleton_append] at hpath
    refine ⟨?_, .inr hsymlink⟩
    rw [pathStartsWith, hpath, hnames,
      components_pathOf fun name hname => hvalid name (hbelow.subset hname),
      List.isPrefixOf_iff_prefix]
    exact List.cons_prefix_cons.2 ⟨rfl, hbelow.map _⟩
  | none =>
    refine ⟨subpath, ⟨?_, .inl rfl⟩, subpath, .inr rfl, ?_⟩
    · exact List.isPrefixOf_iff_prefix.2 (List.prefix_refl _)
    · dsimp only
      rw [hexists, hwithin]
      rfl

theorem exists_protection {writableRoot : WritableRoot}
    (hhost : host = treeHost t links fromAbsolutePath resolvePathAgainstBase tmpdirVar)
    (hnormal : ∀ path base s, resolvePathAgainstBase path base = some s → Normal s)
    (hroot : writableRoot ∈ policy.getWritableRootsWithCwd host cwd)
    (hsubpath : subpath ∈ writableRoot.readOnlySubpaths)
    (hwithin : isWithinAllowedWritePaths subpath ((policy.getWritableRootsWithCwd host cwd).map
      fun writableRoot => writableRoot.root) = true) :
    ∃ path dest source, ProtectedAt host ((policy.getWritableRootsWithCwd host cwd).map
        fun writableRoot => writableRoot.root) subpath path ∧
      resolve t.node links path = some dest ∧ (source = devNull ∨ source = path) ∧
      .roBind source path ∈ subpathBinds host (policy.getWritableRootsWithCwd host cwd) := by
  have hmem := hsubpath
  rw [readOnlySubpaths_eq hroot] at hmem
  obtain ⟨⟨raw, base, hresolve⟩, hseen⟩ := mem_readOnlySubpathsOf hmem
  have hexists := existsAt_of_seen hhost hseen
  have hsame : Componentwise fun other => Path.components other = Path.components subpath :=
    fun path path' h => ⟨fun h' => h.symm.trans h', fun h' => h.trans h'⟩
  obtain ⟨subpath', hcollected, hcomponents⟩ :=
    (exists_collect_iff hsame).2 ⟨writableRoot, hroot, subpath, hsubpath, rfl⟩
  subst hhost
  have hexists' : (resolve t.node links subpath').isSome := by
    rw [resolve, hcomponents]
    exact hexists
  have hnormal' : Normal subpath' := by
    rw [Normal, hcomponents]
    exact hnormal _ _ _ hresolve
  have hseen' : (treeHost t links fromAbsolutePath resolvePathAgainstBase tmpdirVar).existsAt
      subpath' = true := hexists'
  obtain ⟨path, ⟨hstarts, hkind⟩, source, hsource, hmounts⟩ := exists_protectedAt hnormal' hseen'
    ((isWithin_congr hcomponents).trans hwithin)
  have hbelow := hstarts
  rw [pathStartsWith, List.isPrefixOf_iff_prefix] at hbelow
  obtain ⟨dest, hdest⟩ := Option.isSome_iff_exists.1 (LinkTree.resolve_of_below hexists' hbelow)
  rw [hcomponents] at hkind
  rw [pathStartsWith, hcomponents] at hstarts
  refine ⟨path, dest, source, ⟨hstarts, hkind⟩, hdest, hsource,
    List.mem_flatMap.2 ⟨subpath', hcollected, ?_⟩⟩
  rw [hmounts]
  exact List.mem_singleton_self _

/-! ## Mounts -/

theorem mem_bounds_iff : m ∈ bounds t links mounts ↔ ∃ mount ∈ mounts, bound t links mount = some m :=
  List.mem_filterMap

theorem bound_eq_some_iff : bound t links mount = some m ↔
    resolve t.node links mount.source = some m.source ∧
      resolve t.node links mount.dest = some m.dest ∧ mount.isWritable = m.writable := by
  simp only [bound, Option.bind_eq_bind, Option.bind_eq_some_iff]
  constructor
  · rintro ⟨source, hsource, dest, hdest, h⟩
    cases h
    exact ⟨hsource, hdest, rfl⟩
  · rintro ⟨hsource, hdest, hwritable⟩
    exact ⟨_, hsource, _, hdest, by rw [hwritable]⟩

theorem isSome_of_resolve (h : resolve t.node links path = some loc) : (t.node loc).isSome :=
  (Option.filter_eq_some_iff.1 h).2

theorem isLink_of_resolve (h : resolve t.node links path = some loc) :
    isLink t.node loc = false := by
  have hwalk := LinkTree.walk_of_locate (Option.filter_eq_some_iff.1 h).1
  exact hwalk.isLink_eq_false (by rw [isLink, t.root_dir])

theorem createFilesystemMounts_eq (h : createFilesystemMounts host policy cwd = .ok mounts) :
    mounts = readOnlyRoot ++ rootBinds (policy.getWritableRootsWithCwd host cwd) ++
      subpathBinds host (policy.getWritableRootsWithCwd host cwd) ++ [.devBind devNull devNull] := by
  rw [createFilesystemMounts] at h
  split at h
  next => cases h
  next =>
    dsimp only at h
    cases hensure : ensureMountTargetsExist host (policy.getWritableRootsWithCwd host cwd) with
    | error e =>
      rw [hensure] at h
      cases h
    | ok =>
      rw [hensure] at h
      cases h
      rfl

/-- What protects is read-only, and shows what was there or the sink. -/
theorem readOnly_subpathMounts (h : mount ∈ subpathMounts host allowedWritePaths subpath) :
    mount.isWritable = false ∧ (mount.source = devNull ∨ mount.source = mount.dest) := by
  have hone {source dest : Str} (h : mount ∈ [MountArg.roBind source dest])
      (hsource : source = devNull ∨ source = dest) :
      mount.isWritable = false ∧ (mount.source = devNull ∨ mount.source = mount.dest) := by
    rw [List.mem_singleton.1 h]
    exact ⟨rfl, hsource⟩
  rw [subpathMounts] at h
  split at h
  next => exact hone h (.inl rfl)
  next =>
    split at h
    · split at h
      · split at h
        · exact hone h (.inl rfl)
        · cases h
      · cases h
    · split at h
      · exact hone h (.inr rfl)
      · cases h

theorem readOnly_subpathBinds (h : mount ∈ subpathBinds host writableRoots) :
    mount.isWritable = false ∧ (mount.source = devNull ∨ mount.source = mount.dest) := by
  obtain ⟨subpath, -, hmount⟩ := List.mem_flatMap.1 h
  exact readOnly_subpathMounts hmount

theorem mem_rootBinds (h : mount ∈ rootBinds writableRoots) :
    ∃ writableRoot ∈ writableRoots, mount = .bind writableRoot.root writableRoot.root := by
  obtain ⟨root, hroot, rfl⟩ := List.mem_map.1 h
  obtain ⟨writableRoot, hmem, rfl⟩ := List.mem_map.1 hroot
  exact ⟨writableRoot, hmem, rfl⟩

/-- A mount of the policy is of a path on itself, or of the sink. -/
theorem source_of_mem_mounts (h : createFilesystemMounts host policy cwd = .ok mounts)
    (hmount : mount ∈ mounts) : mount.source = devNull ∨ mount.source = mount.dest := by
  rw [createFilesystemMounts_eq h, List.mem_append, List.mem_append, List.mem_append] at hmount
  obtain ((hmount | hmount) | hmount) | hmount := hmount
  · rw [List.mem_singleton.1 hmount]
    exact .inr rfl
  · obtain ⟨writableRoot, -, rfl⟩ := mem_rootBinds hmount
    exact .inr rfl
  · exact (readOnly_subpathBinds hmount).2
  · rw [List.mem_singleton.1 hmount]
    exact .inl rfl

theorem isSome_of_mem_bounds (h : m ∈ bounds t links mounts) : (t.node m.source).isSome := by
  obtain ⟨mount, -, hbound⟩ := mem_bounds_iff.1 h
  exact isSome_of_resolve (bound_eq_some_iff.1 hbound).1

theorem masks_of_mem_bounds (h : createFilesystemMounts host policy cwd = .ok mounts)
    (hsink : (resolve t.node links devNull).bind t.node = some .device)
    (hm : m ∈ bounds t links mounts) : Masks t.node m := by
  obtain ⟨mount, hmount, hbound⟩ := mem_bounds_iff.1 hm
  obtain ⟨hsource, hdest, -⟩ := bound_eq_some_iff.1 hbound
  obtain hdevNull | hself := source_of_mem_mounts h hmount
  · refine .inr ⟨?_, isSome_of_resolve hdest, isLink_of_resolve hdest⟩
    rw [← hdevNull, hsource] at hsink
    exact hsink
  · rw [hself, hdest] at hsource
    exact .inl (Option.some.inj hsource).symm

/-! ## What may be written -/

section Namespace

variable (hmounts : createFilesystemMounts host policy cwd = .ok mounts)

include hmounts in
theorem bounds_eq : bounds t links mounts =
    bounds t links readOnlyRoot ++
      bounds t links (rootBinds (policy.getWritableRootsWithCwd host cwd)) ++
      bounds t links (subpathBinds host (policy.getWritableRootsWithCwd host cwd)) ++
      bounds t links [.devBind devNull devNull] := by
  rw [createFilesystemMounts_eq hmounts, bounds, List.filterMap_append, List.filterMap_append,
    List.filterMap_append]
  rfl

theorem cover_devBind (h : cover (bounds t links [.devBind devNull devNull]) loc = some m) :
    InDevNull t links loc := by
  obtain ⟨hm, hbelow⟩ := cover_spec h
  obtain ⟨mount, hmount, hbound⟩ := mem_bounds_iff.1 hm
  rw [List.mem_singleton.1 hmount] at hbound
  exact ⟨m.dest, (bound_eq_some_iff.1 hbound).2.1, hbelow⟩

include hmounts in
/-- Nothing at or below a location that protects a subpath may be written. -/
theorem inDevNull_of_protected {dest : Loc} {source : Str}
    (hmount : .roBind source path ∈
      subpathBinds host (policy.getWritableRootsWithCwd host cwd))
    (hsource : (resolve t.node links source).isSome)
    (hdest : resolve t.node links path = some dest) (hbelow : dest <+: loc)
    (hpermits : permits t.node (bounds t links mounts) loc = true) : InDevNull t links loc := by
  rw [permits_eq fun m hm => isSome_of_mem_bounds hm, writableAt, bounds_eq hmounts, cover_append,
    cover_append] at hpermits
  cases hdev : cover (bounds t links [.devBind devNull devNull]) loc with
  | some m => exact cover_devBind hdev
  | none =>
    obtain ⟨source', hsource'⟩ := Option.isSome_iff_exists.1 hsource
    have hcovered : (cover (bounds t links
        (subpathBinds host (policy.getWritableRootsWithCwd host cwd))) loc).isSome :=
      cover_isSome_iff.2 ⟨⟨source', dest, false⟩, mem_bounds_iff.2 ⟨_, hmount,
        bound_eq_some_iff.2 ⟨hsource', hdest, rfl⟩⟩, hbelow⟩
    obtain ⟨m, hm⟩ := Option.isSome_iff_exists.1 hcovered
    rw [hdev, hm, Option.none_or, Option.some_or, Option.map_some, Option.getD_some] at hpermits
    obtain ⟨mount, hmem, hbound⟩ := mem_bounds_iff.1 (cover_spec hm).1
    rw [← (bound_eq_some_iff.1 hbound).2.2, (readOnly_subpathBinds hmem).1] at hpermits
    cases hpermits

include hmounts in
theorem inRoot_of_permits (hpermits : permits t.node (bounds t links mounts) loc = true) :
    (∃ writableRoot ∈ policy.getWritableRootsWithCwd host cwd, ∃ dest,
      resolve t.node links writableRoot.root = some dest ∧ dest <+: loc) ∨
      InDevNull t links loc := by
  rw [permits_eq fun m hm => isSome_of_mem_bounds hm, writableAt] at hpermits
  cases hcover : cover (bounds t links mounts) loc with
  | none =>
    rw [hcover] at hpermits
    cases hpermits
  | some m =>
    rw [hcover] at hpermits
    have hwritable : m.writable = true := hpermits
    obtain ⟨hm, hbelow⟩ := cover_spec hcover
    obtain ⟨mount, hmem, hbound⟩ := mem_bounds_iff.1 hm
    obtain ⟨-, hdest, hkind⟩ := bound_eq_some_iff.1 hbound
    rw [hwritable] at hkind
    rw [createFilesystemMounts_eq hmounts, List.mem_append, List.mem_append, List.mem_append] at hmem
    obtain ((hmem | hmem) | hmem) | hmem := hmem
    · rw [List.mem_singleton.1 hmem] at hkind
      cases hkind
    · obtain ⟨writableRoot, hroot, rfl⟩ := mem_rootBinds hmem
      exact .inl ⟨writableRoot, hroot, m.dest, hdest, hbelow⟩
    · rw [(readOnly_subpathBinds hmem).1] at hkind
      cases hkind
    · rw [List.mem_singleton.1 hmem] at hdest
      exact .inr ⟨m.dest, hdest, hbelow⟩

theorem not_inDevNull_of_dir (hsink : (resolve t.node links devNull).bind t.node = some .device)
    (hdir : t.node loc = some .dir) : ¬ InDevNull t links loc := by
  rintro ⟨sink, hresolve, rest, rfl⟩
  rw [hresolve, Option.bind_some] at hsink
  have hnil := eq_nil_of_device hsink (by rw [hdir]; rfl)
  rw [hnil, List.append_nil, hsink] at hdir
  cases hdir

include hmounts in
/-- The directory of a root stays a directory that may be written, unless a location that protects
a subpath lies at or above it. -/
theorem permits_root {writableRoot : WritableRoot} {dest : Loc}
    (hroot : writableRoot ∈ policy.getWritableRootsWithCwd host cwd)
    (hdest : resolve t.node links writableRoot.root = some dest)
    (hdir : t.node dest = some .dir)
    (hsink : (resolve t.node links devNull).bind t.node = some .device)
    (hfree : ∀ mount ∈ subpathBinds host (policy.getWritableRootsWithCwd host cwd),
      ∀ protect, resolve t.node links mount.dest = some protect → ¬ protect <+: dest) :
    view t.node (bounds t links mounts) dest = some .dir ∧
      permits t.node (bounds t links mounts) dest = true := by
  have hdev : cover (bounds t links [.devBind devNull devNull]) dest = none := by
    rw [Option.eq_none_iff_forall_ne_some]
    exact fun m hm => not_inDevNull_of_dir hsink hdir (cover_devBind hm)
  have hsub : cover (bounds t links
      (subpathBinds host (policy.getWritableRootsWithCwd host cwd))) dest = none := by
    refine cover_eq_none_iff.2 fun m hm => ?_
    obtain ⟨mount, hmount, hbound⟩ := mem_bounds_iff.1 hm
    exact hfree mount hmount m.dest (bound_eq_some_iff.1 hbound).2.1
  have hbind : (cover (bounds t links
      (rootBinds (policy.getWritableRootsWithCwd host cwd))) dest).isSome :=
    cover_isSome_iff.2 ⟨⟨dest, dest, true⟩, mem_bounds_iff.2
      ⟨.bind writableRoot.root writableRoot.root, List.mem_map_of_mem (List.mem_map_of_mem hroot),
        bound_eq_some_iff.2 ⟨hdest, hdest, rfl⟩⟩, List.prefix_refl dest⟩
  obtain ⟨m, hm⟩ := Option.isSome_iff_exists.1 hbind
  have hcover : cover (bounds t links mounts) dest = some m := by
    rw [bounds_eq hmounts, cover_append, cover_append, cover_append, hdev, hsub, hm]
    rfl
  obtain ⟨mount, hmem, hbound⟩ := mem_bounds_iff.1 (cover_spec hm).1
  obtain ⟨other, -, rfl⟩ := mem_rootBinds hmem
  obtain ⟨hsource, hdest', hwritable⟩ := bound_eq_some_iff.1 hbound
  have hsame : m.source = m.dest := Option.some.inj (hsource.symm.trans hdest')
  constructor
  · obtain ⟨rest, hrest, hview⟩ := view_of_cover t.node hcover
    rw [hview, hsame, hrest, hdir]
  · rw [permits_eq fun m hm => isSome_of_mem_bounds hm, writableAt, hcover]
    exact hwritable.symm

end Namespace

/-- The boundary that the mounts draw in a tree with symlinks anywhere. A subpath that lies in a root
is protected, at its own location or at that of the symlink in a root that leads to it: no path below
it that meets no further symlink may be written or created. No location outside all roots may be. The
directory of a root stays a directory that may be written, unless such a protected location lies at
or above it. The sink stays writable everywhere. -/
theorem boundary_of_mounts (t : LinkTree) (links : Nat) (fromAbsolutePath : Str → Option Str)
    (resolvePathAgainstBase : Str → Str → Option Str) (tmpdirVar : Option Str)
    (policy : SandboxPolicy) (cwd : Str) (mounts : List MountArg)
    (hnormal : ∀ path base s, resolvePathAgainstBase path base = some s → Normal s)
    (hsink : (resolve t.node links devNull).bind t.node = some .device)
    (hmounts : createFilesystemMounts
      (treeHost t links fromAbsolutePath resolvePathAgainstBase tmpdirVar) policy cwd =
        .ok mounts) :
    let host := treeHost t links fromAbsolutePath resolvePathAgainstBase tmpdirVar
    let roots := policy.getWritableRootsWithCwd host cwd
    let allowedWritePaths := roots.map fun writableRoot => writableRoot.root
    (∀ root ∈ roots, ∀ subpath ∈ root.readOnlySubpaths,
      isWithinAllowedWritePaths subpath allowedWritePaths = true →
      ∃ path dest, ProtectedAt host allowedWritePaths subpath path ∧
        resolve t.node links path = some dest ∧
        ∀ (p : Str) (names : List Str) (loc : Loc),
          Path.components p = Path.components path ++ names.map .normal →
          Straight t.node dest names → Writes t links mounts p loc → InDevNull t links loc) ∧
    (∀ (p : Str) (loc : Loc), Writes t links mounts p loc →
      (∃ root ∈ roots, ∃ dest, resolve t.node links root.root = some dest ∧ dest <+: loc) ∨
        InDevNull t links loc) ∧
    ∀ root ∈ roots, ∀ dest, resolve t.node links root.root = some dest →
      t.node dest = some .dir →
      (∀ other ∈ roots, ∀ subpath ∈ other.readOnlySubpaths,
        ∀ mount ∈ subpathMounts host allowedWritePaths subpath,
        ∀ protect, resolve t.node links mount.dest = some protect → ¬ protect <+: dest) →
      view t.node (bounds t links mounts) dest = some .dir ∧
        permits t.node (bounds t links mounts) dest = true := by
  intro host roots allowedWritePaths
  refine ⟨fun root hroot subpath hsubpath hwithin => ?_,
    fun p loc hwrites => inRoot_of_permits hmounts hwrites.2,
    fun root hroot dest hdest hdir hfree => ?_⟩
  · obtain ⟨path, dest, source, hprotected, hdest, hsource, hmount⟩ :=
      exists_protection (rfl : host = _) hnormal hroot hsubpath hwithin
    refine ⟨path, dest, hprotected, hdest, fun p names loc hp hnames hwrites => ?_⟩
    have hlocate := locate_of_locate_view (fun m hm => masks_of_mem_bounds hmounts hsink hm)
      hwrites.1
    have hloc := LinkTree.eq_append_of_locate hdest hp hnames hlocate
    refine inDevNull_of_protected hmounts hmount ?_ hdest ⟨names, hloc.symm⟩ hwrites.2
    obtain rfl | rfl := hsource
    · obtain ⟨sink, hresolve, -⟩ := Option.bind_eq_some_iff.1 hsink
      rw [hresolve]
      rfl
    · rw [hdest]
      rfl
  · refine permits_root hmounts hroot hdest hdir hsink fun mount hmount => ?_
    obtain ⟨subpath, hsubpath, hmem⟩ := List.mem_flatMap.1 hmount
    obtain ⟨other, hother, hsubpath⟩ := mem_collect hsubpath
    exact hfree other hother subpath hsubpath mount hmem

/-! ## Symlinks below a subpath and above it, and a root in another -/

def entries : List (Loc × LinkTree.Node) :=
  [([], .dir), (["dev"], .dir), (["dev", "null"], .device), (["l"], .link "/w"), (["v"], .dir),
    (["v", ".git"], .file "gitdir: /l/h"), (["w"], .dir), (["w", ".git"], .dir),
    (["w", ".git", "hooks"], .link "/w/h"), (["w", ".git", "r"], .dir), (["w", "h"], .dir)]

def linkedTree : LinkTree := .ofList entries (by decide +kernel) (by decide +kernel)

def isNormalComponent : Path.Component → Bool
  | .normal _ => true
  | .rootDir | .curDir | .parentDir => false

def resolveNormal (path base : Str) : Option Str :=
  match Path.components (Path.join base path) with
  | .rootDir :: comps => if comps.all isNormalComponent then some (Path.join base path) else none
  | _ => none

theorem normal_of_resolveNormal (path base s : Str) (h : resolveNormal path base = some s) :
    Normal s := by
  have hnames (comps : List Path.Component) (h : comps.all isNormalComponent = true) :
      ∃ names : List Str, comps = names.map .normal := by
    induction comps with
    | nil => exact ⟨[], rfl⟩
    | cons comp comps ih =>
      rw [List.all_cons, Bool.and_eq_true] at h
      obtain ⟨names, rfl⟩ := ih h.2
      cases comp with
      | normal name => exact ⟨name :: names, rfl⟩
      | rootDir | curDir | parentDir => cases h.1
  rw [resolveNormal] at h
  split at h
  next comps hcomps =>
    split at h
    next hall =>
      obtain ⟨names, hcomponents⟩ := hnames comps hall
      cases h
      exact ⟨names, by rw [hcomps, hcomponents]⟩
    next => cases h
  next => cases h

def linkedHost : Host := treeHost linkedTree 40 some resolveNormal none

def linkedPolicy : SandboxPolicy :=
  .workspaceWrite ["/w/.git/r".toList, "/v".toList] .fullAccess false true true

def linkedRoots : List WritableRoot := linkedPolicy.getWritableRootsWithCwd linkedHost "/w".toList

def linkedMounts : List MountArg :=
  readOnlyRoot ++ rootBinds linkedRoots ++ subpathBinds linkedHost linkedRoots ++
    [.devBind devNull devNull]

theorem createFilesystemMounts_linked :
    createFilesystemMounts linkedHost linkedPolicy "/w".toList = .ok linkedMounts := by
  rfl

theorem free_of_linkedRoots : ∀ root ∈ linkedRoots, ∀ subpath ∈ root.readOnlySubpaths,
    ∀ mount ∈ subpathMounts linkedHost (linkedRoots.map fun root => root.root) subpath,
      (resolve linkedTree.node 40 mount.dest).all (fun protect => !protect.isPrefixOf ["w"]) =
        true := by
  decide +kernel

/-- The working directory stays writable. -/
theorem boundary_of_linkedMounts :
    view linkedTree.node (bounds linkedTree 40 linkedMounts) ["w"] = some .dir ∧
      permits linkedTree.node (bounds linkedTree 40 linkedMounts) ["w"] = true := by
  refine (boundary_of_mounts linkedTree 40 some resolveNormal none linkedPolicy "/w".toList
    linkedMounts normal_of_resolveNormal (by decide +kernel) createFilesystemMounts_linked).2.2
      ⟨"/w", ["/w/.git"]⟩ (by decide +kernel) ["w"] (by decide +kernel) (by decide +kernel) ?_
  intro root hroot subpath hsubpath mount hmount protect hprotect hbelow
  have hfree := free_of_linkedRoots root hroot subpath hsubpath mount hmount
  rw [hprotect, Option.all_some, List.isPrefixOf_iff_prefix.2 hbelow] at hfree
  cases hfree

/-- A path below a subpath may be written over a symlink below the subpath, or if the subpath lies in
a root only over a symlink outside all roots; the sink may be written outside all roots; and a root in
a subpath of another is read-only. -/
theorem boundary_is_crossed :
    createFilesystemMounts linkedHost linkedPolicy "/w".toList = .ok linkedMounts ∧
    (∃ root ∈ linkedRoots, ∃ subpath ∈ root.readOnlySubpaths, ∃ p loc,
      isWithinAllowedWritePaths subpath (linkedRoots.map fun root => root.root) = true ∧
      pathStartsWith p subpath = true ∧ Writes linkedTree 40 linkedMounts p loc ∧
      loc = ["w", "h", "x"]) ∧
    (∃ root ∈ linkedRoots, ∃ subpath ∈ root.readOnlySubpaths, ∃ loc,
      Writes linkedTree 40 linkedMounts subpath loc ∧ loc = ["w", "h"]) ∧
    (∃ p loc, (∀ root ∈ linkedRoots, pathStartsWith p root.root = false) ∧
      Writes linkedTree 40 linkedMounts p loc) ∧
    ∃ root ∈ linkedRoots, ∃ dest, resolve linkedTree.node 40 root.root = some dest ∧
      linkedTree.node dest = some .dir ∧
      permits linkedTree.node (bounds linkedTree 40 linkedMounts) dest = false := by
  refine ⟨createFilesystemMounts_linked, ?_, ?_, ?_, ?_⟩
  · exact ⟨⟨"/w", ["/w/.git"]⟩, by decide +kernel, "/w/.git", by simp, "/w/.git/hooks/x",
      ["w", "h", "x"], by decide +kernel, by decide +kernel,
      ⟨by decide +kernel, by decide +kernel⟩, rfl⟩
  · exact ⟨⟨"/v", ["/l/h", "/v/.git"]⟩, by decide +kernel, "/l/h", by simp, ["w", "h"],
      ⟨by decide +kernel, by decide +kernel⟩, rfl⟩
  · exact ⟨devNull, ["dev", "null"], by decide +kernel, by decide +kernel, by decide +kernel⟩
  · exact ⟨⟨"/w/.git/r", []⟩, by decide +kernel, ["w", ".git", "r"], by decide +kernel,
      by decide +kernel, by decide +kernel⟩

end SheriMl.Sandbox
