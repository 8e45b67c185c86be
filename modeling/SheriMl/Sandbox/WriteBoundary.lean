import SheriMl.ApplyPatch.Verify
import SheriMl.Sandbox.Bwrap

/-!
# One write boundary

The write rule of `core/src/seatbelt.rs` and the roots that patches are approved by, against the
mounts of the Linux sandbox. `write_boundaries_agree`: the rule permits what the roots do, and so do
the mounts but for `/dev/null` and for paths that are protected under one root and not under
another.
-/

namespace SheriMl.Sandbox

open Protocol

/-- A clause of the write rule, its parameters told by their values. -/
structure WritableFolderPolicy where
  root : Str
  requireNot : List Str

inductive FileWritePolicy where
  | everything
  | folders (policies : List WritableFolderPolicy)

def canonical (host : Host) (path : Str) : Str := (host.canonicalize path).getD path

/-- The write rule of `create_seatbelt_command_args_with_extensions`. -/
def fileWritePolicy (host : Host) (sandboxPolicy : SandboxPolicy) (sandboxPolicyCwd : Str) :
    FileWritePolicy :=
  if sandboxPolicy.hasFullDiskWriteAccess then .everything
  else
    .folders ((sandboxPolicy.getWritableRootsWithCwd host sandboxPolicyCwd).map fun wr =>
      ⟨canonical host wr.root, wr.readOnlySubpaths.map (canonical host)⟩)

/-- The text of a clause and the values of its parameters. -/
def WritableFolderPolicy.render (index : Nat) (policy : WritableFolderPolicy) :
    Str × List (Str × Str) :=
  let subpath (param : Str) : Str := ("(subpath (param \"" : Str) ++ param ++ ("\"))" : Str)
  let rootParam := ("WRITABLE_ROOT_" : Str) ++ Nat.toDigits 10 index
  let roParams := policy.requireNot.zipIdx.map fun ro =>
    (rootParam ++ ("_RO_" : Str) ++ Nat.toDigits 10 ro.2, ro.1)
  let text :=
    if policy.requireNot.isEmpty then subpath rootParam
    else
      let parts := subpath rootParam :: roParams.map fun ro =>
        ("(require-not " : Str) ++ subpath ro.1 ++ (")" : Str)
      ("(require-all " : Str) ++ Str.join (" " : Str) parts ++ (" )" : Str)
  (text, (rootParam, policy.root) :: roParams)

/-- `(require-all (subpath root) (require-not (subpath ro)) ..)`. -/
def WritableFolderPolicy.permits (policy : WritableFolderPolicy) (path : Str) : Bool :=
  pathStartsWith path policy.root && policy.requireNot.all fun ro => !pathStartsWith path ro

def FileWritePolicy.permits (path : Str) : FileWritePolicy → Bool
  | .everything => Path.isAbsolute path
  | .folders policies => policies.any fun policy => policy.permits path

section

variable {host : Host} {writableRoots : List WritableRoot} {writableRoot : WritableRoot}
  {path cwd : Str}

/-! ## Approval and the write rule -/

/-- An absolute path without `..` is approved just if some root permits it. -/
theorem isPathWritable_absolute (habsolute : Path.isAbsolute path = true)
    (hnormal : .parentDir ∉ Path.components path) :
    ApplyPatch.isPathWritable writableRoots cwd (Path.components path) =
      writableRoots.any fun writableRoot => writableRoot.isPathWritable path := by
  have hcomponents : Path.components path =
      .rootDir :: Path.bodyComponents (Str.split '/' path) := if_pos habsolute
  have hbody : ∀ comp ∈ Path.bodyComponents (Str.split '/' path), ∃ name, comp = .normal name := by
    intro comp hcomp
    have hne : comp ≠ .parentDir := by
      rintro rfl
      exact hnormal (hcomponents ▸ List.mem_cons_of_mem _ hcomp)
    obtain ⟨piece, -, rfl⟩ := List.mem_map.1 hcomp
    split at hne
    · exact absurd rfl hne
    next hpiece =>
      rw [if_neg hpiece]
      exact ⟨piece, rfl⟩
  have hnormalize (comps : List Path.Component) (h : ∀ comp ∈ comps, ∃ name, comp = .normal name) :
      ApplyPatch.normalize (.rootDir :: comps) = .rootDir :: comps := by
    induction comps using List.reverseRecOn with
    | nil => rfl
    | append_singleton comps comp ih =>
      obtain ⟨name, rfl⟩ := h comp (List.mem_append_right _ List.mem_cons_self)
      have hinit := ih fun comp hcomp => h comp (List.mem_append_left _ hcomp)
      rw [ApplyPatch.normalize] at hinit
      rw [← List.cons_append, ApplyPatch.normalize, List.foldl_append, hinit]
      rfl
  have hhead : (Path.components path).head? = some .rootDir := by
    rw [hcomponents]
    rfl
  have hsame : ApplyPatch.normalize (Path.components path) = Path.components path := by
    rw [hcomponents]
    exact hnormalize _ hbody
  rw [ApplyPatch.isPathWritable, if_pos hhead, hsame]
  rfl

theorem any_isPathWritable_iff : (writableRoots.any fun root => root.isPathWritable path) = true ↔
    ∃ root ∈ writableRoots, pathStartsWith path root.root = true ∧
      ∀ subpath ∈ root.readOnlySubpaths, ¬pathStartsWith path subpath = true := by
  rw [List.any_eq_true]
  apply exists_congr
  intro root
  apply and_congr_right
  intro _
  rw [WritableRoot.isPathWritable, Bool.and_eq_true, Bool.not_eq_true', List.any_eq_false]

theorem components_canonical (h : PlainTree host writableRoots) (hroot : writableRoot ∈ writableRoots)
    (hpath : path ∈ writableRoot.root :: writableRoot.readOnlySubpaths) :
    Path.components (canonical host path) = Path.components path := by
  rw [canonical]
  cases hcanonical : host.canonicalize path with
  | none => rfl
  | some resolved => exact h.canonical writableRoot hroot path hpath resolved hcanonical

theorem permits_clause (h : PlainTree host writableRoots) (hroot : writableRoot ∈ writableRoots)
    (path : Str) :
    WritableFolderPolicy.permits ⟨canonical host writableRoot.root,
        writableRoot.readOnlySubpaths.map (canonical host)⟩ path =
      writableRoot.isPathWritable path := by
  have hsubpaths : (writableRoot.readOnlySubpaths.map (canonical host)).all
        (fun ro => !pathStartsWith path ro) =
      !writableRoot.readOnlySubpaths.any (pathStartsWith path) := by
    rw [List.all_map, List.not_any_eq_all_not, Bool.eq_iff_iff, List.all_eq_true, List.all_eq_true]
    apply forall₂_congr
    intro subpath hsubpath
    rw [Function.comp_apply, pathStartsWith_congr
      (components_canonical h hroot (List.mem_cons_of_mem _ hsubpath))]
  rw [WritableFolderPolicy.permits, WritableRoot.isPathWritable, hsubpaths,
    pathStartsWith_congr (components_canonical h hroot List.mem_cons_self)]

theorem permits_fileWritePolicy {policy : SandboxPolicy}
    (hpolicy : policy.hasFullDiskWriteAccess = false)
    (h : PlainTree host (policy.getWritableRootsWithCwd host cwd)) (path : Str) :
    (fileWritePolicy host policy cwd).permits path =
      (policy.getWritableRootsWithCwd host cwd).any fun root => root.isPathWritable path := by
  rw [fileWritePolicy, hpolicy]
  change (List.map _ _).any _ = _
  rw [List.any_map, Bool.eq_iff_iff, List.any_eq_true, List.any_eq_true]
  apply exists_congr
  intro root
  apply and_congr_right
  intro hroot
  rw [Function.comp_apply, permits_clause h hroot]

/-! ## The mounts -/

/-- A path that is protected under one root is protected under every root that it lies in, and by
a path in the root itself. -/
def UniformlyProtected (writableRoots : List WritableRoot) (path : Str) : Prop :=
  ∀ root ∈ writableRoots, ∀ subpath ∈ root.readOnlySubpaths, pathStartsWith path subpath = true →
    pathStartsWith subpath root.root = true ∧
      ∀ other ∈ writableRoots, pathStartsWith path other.root = true →
        ∃ subpath ∈ other.readOnlySubpaths, pathStartsWith path subpath = true

instance : Decidable (UniformlyProtected writableRoots path) :=
  inferInstanceAs (Decidable (∀ root ∈ writableRoots, ∀ subpath ∈ root.readOnlySubpaths,
    pathStartsWith path subpath = true → pathStartsWith subpath root.root = true ∧
      ∀ other ∈ writableRoots, pathStartsWith path other.root = true →
        ∃ subpath ∈ other.readOnlySubpaths, pathStartsWith path subpath = true))

theorem protected_iff (h : UniformlyProtected writableRoots path) :
    ((∃ root ∈ writableRoots, pathStartsWith path root.root = true) ∧
      ¬∃ root ∈ writableRoots, ∃ subpath ∈ root.readOnlySubpaths,
        Protects writableRoots path subpath) ↔
      (writableRoots.any fun root => root.isPathWritable path) = true := by
  rw [any_isPathWritable_iff]
  constructor
  · rintro ⟨⟨root, hroot, hpath⟩, hfree⟩
    refine ⟨root, hroot, hpath, ?_⟩
    intro subpath hsubpath hcovers
    have hwithin := (h root hroot subpath hsubpath hcovers).1
    apply hfree
    refine ⟨root, hroot, subpath, hsubpath, ?_, hcovers⟩
    exact List.any_eq_true.2 ⟨root.root, List.mem_map_of_mem hroot, hwithin⟩
  · rintro ⟨root, hroot, hpath, hfree⟩
    refine ⟨⟨root, hroot, hpath⟩, ?_⟩
    rintro ⟨other, hother, subpath, hsubpath, -, hcovers⟩
    obtain ⟨subpath', hsubpath', hcovers'⟩ :=
      (h other hother subpath hsubpath hcovers).2 root hroot hpath
    exact hfree subpath' hsubpath' hcovers'

end

/-- The write boundary of a workspace policy in a plain tree. The write rule is that of the roots;
the mounts need full read access, keep `/dev/null` writable, and agree on any other path that the
roots protect alike. -/
theorem write_boundaries_agree (host : Host) (roots : List Str) (access : ReadOnlyAccess)
    (networkAccess excludeTmpdirEnvVar excludeSlashTmp : Bool) (cwd path : Str) :
    let policy := SandboxPolicy.workspaceWrite roots access networkAccess excludeTmpdirEnvVar
      excludeSlashTmp
    let writableRoots := policy.getWritableRootsWithCwd host cwd
    PlainTree host writableRoots →
      ((fileWritePolicy host policy cwd).permits path = true ↔
        (writableRoots.any fun root => root.isPathWritable path) = true) ∧
      (access ≠ .fullAccess → ∃ e, createFilesystemMounts host policy cwd = .error e) ∧
      (access = .fullAccess → ∃ mounts, createFilesystemMounts host policy cwd = .ok mounts ∧
        writableUnder mounts devNull = true ∧
        (UniformlyProtected writableRoots path → pathStartsWith path devNull = false →
          (writableUnder mounts path = true ↔
            (writableRoots.any fun root => root.isPathWritable path) = true))) := by
  intro policy writableRoots h
  have hmounts : createFilesystemMounts host policy cwd = _ := createFilesystemMounts_of_plain h
  refine ⟨?_, ?_, ?_⟩
  · rw [permits_fileWritePolicy rfl h]
  · intro haccess
    have hread : policy.hasFullDiskReadAccess = false := decide_eq_false haccess
    rw [hread] at hmounts
    exact ⟨_, hmounts⟩
  · intro haccess
    have hread : policy.hasFullDiskReadAccess = true := decide_eq_true haccess
    rw [hread] at hmounts
    refine ⟨_, hmounts, ?_, ?_⟩
    · exact (writableUnder_iff h).2 (Or.inl (by decide))
    · intro hprotected hdev
      rw [writableUnder_iff h, hdev, or_iff_right Bool.false_ne_true]
      exact protected_iff hprotected

/-- A machine without symlinks where everything exists and a directory `.git` is at each root. -/
def plainHost : Host where
  fromAbsolutePath path := some path
  resolvePathAgainstBase path base := some (Path.join base path)
  tmpdirVar := none
  existsAt _ := true
  isFile _ := false
  isDir path := Path.fileName path == some (".git" : Str)
  symlinkMetadata _ := some false
  readToString _ := none
  canonicalize path := some path

theorem plainTree_plainHost (writableRoots : List WritableRoot) :
    PlainTree plainHost writableRoots where
  noSymlinks path h := by cases h
  roots _ _ := rfl
  subpaths _ _ _ _ := rfl
  canonical _ _ path _ canonical h := by
    obtain rfl : path = canonical := Option.some.inj h
    rfl

/-- A file of the workspace. -/
theorem write_boundaries_agree_in_workspace :
    ∃ mounts, createFilesystemMounts plainHost .newWorkspaceWritePolicy "/w".toList = .ok mounts ∧
      writableUnder mounts "/w/src".toList = true := by
  obtain ⟨-, -, hmounts⟩ := write_boundaries_agree plainHost [] .fullAccess false false false
    "/w".toList "/w/src".toList (plainTree_plainHost _)
  obtain ⟨mounts, hok, -, hagree⟩ := hmounts rfl
  refine ⟨mounts, ?_, (hagree ?_ (by decide)).2 (by decide)⟩
  · exact hok
  · decide

/-- The mounts keep `/dev/null` writable, which no root permits. -/
theorem write_boundary_of_dev_null :
    ¬∀ (host : Host) (roots : List Str) (access : ReadOnlyAccess)
      (networkAccess excludeTmpdirEnvVar excludeSlashTmp : Bool) (cwd path : Str),
      let policy := SandboxPolicy.workspaceWrite roots access networkAccess excludeTmpdirEnvVar
        excludeSlashTmp
      let writableRoots := policy.getWritableRootsWithCwd host cwd
      PlainTree host writableRoots → Path.isAbsolute path = true →
        ∃ mounts, createFilesystemMounts host policy cwd = .ok mounts ∧
          (writableUnder mounts path = true ↔
            (writableRoots.any fun root => root.isPathWritable path) = true) := by
  intro hall
  obtain ⟨mounts, hmounts, hagree⟩ := hall plainHost [] .fullAccess false true true "/w".toList
    devNull (plainTree_plainHost _) (by decide)
  obtain rfl := Except.ok.inj hmounts
  revert hagree
  decide

theorem isPathWritable_absolute_workspace :
    ApplyPatch.isPathWritable [⟨"/w", []⟩] "/" (Path.components "/w/a") =
      [⟨"/w", []⟩].any fun writableRoot : WritableRoot => writableRoot.isPathWritable "/w/a" :=
  isPathWritable_absolute (by decide) (by decide)

/-- A root around another: the protected directory of the inner one is approved and permitted,
while the mounts keep it read-only. -/
example :
    let policy := SandboxPolicy.workspaceWrite ["/w".toList] .fullAccess false true true
    let roots := policy.getWritableRootsWithCwd plainHost "/w/p".toList
    (roots.any fun root => root.isPathWritable "/w/p/.git/config".toList) = true ∧
      writableUnder (readOnlyRoot ++ rootBinds roots ++ subpathBinds plainHost roots ++
        [.devBind devNull devNull]) "/w/p/.git/config".toList = false := by
  decide

end SheriMl.Sandbox
