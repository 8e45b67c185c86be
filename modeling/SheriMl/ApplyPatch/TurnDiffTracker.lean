import SheriMl.Lib.Inverse
import SheriMl.Lib.Str
import SheriMl.Lib.Transition

/-!
# The diff of a turn

`TurnDiffTracker` of `core/src/turn_diff_tracker.rs`: an internal name for each file that a
turn's patches touch, the file as it was first seen, and the path where it is now. A call of
`on_patch_begin` takes the changes of a patch in the order of a hash map.
`tracker_maps_inverse`: as long as every move goes to a path that is not tracked and that no other
change of its patch names, the two maps are inverse to each other, whatever the order.

What stands at a path when a call reads it is the call's `Worktree`; the texts of the sections
are left out, with the `git` root that their paths are relative to.
-/

namespace SheriMl.TurnDiff

open Transition

inductive FileMode where
  | regular
  | executable
  | symlink
  deriving DecidableEq

inductive FileChange (Path : Type) where
  | add (content : Str)
  | delete (content : Str)
  | update (unifiedDiff : Str) (movePath : Option Path)

structure BaselineFileInfo (Path : Type) where
  path : Path
  content : List UInt8
  mode : FileMode
  oid : Str

/-- `ZERO_OID`. -/
def zeroOid : Str := ("0000000000000000000000000000000000000000" : Str)

/-- What is read of the file system, and of `git`, at some moment. -/
structure Worktree (Path : Type) where
  existsAt : Path → Bool
  fileModeForPath : Path → Option FileMode
  blobBytes : Path → FileMode → Option (List UInt8)
  gitBlobOidForPath : Path → Option Str
  gitBlobSha1Hex : List UInt8 → Str

structure TurnDiffTracker (Path Name : Type) where
  externalToTempName : Finmap fun _ : Path => Name
  baselineFileInfo : Finmap fun _ : Name => BaselineFileInfo Path
  tempNameToCurrentPath : Finmap fun _ : Name => Path

variable {Path Name : Type} [DecidableEq Path] [DecidableEq Name]

/-- A call of `on_patch_begin`, the changes in the order they are visited. A UUID is told by the
path it is drawn for: `uuid` when the path is first tracked, `sourceUuid` when it is the
source of a move that is not tracked. -/
structure PatchCall (Path Name : Type) where
  worktree : Worktree Path
  uuid : Path → Name
  sourceUuid : Path → Name
  changes : List (Path × FileChange Path)
  nodup : (changes.map Prod.fst).Nodup

def FileChange.movePath : FileChange Path → Option Path
  | .update _ movePath => movePath
  | _ => none

def Worktree.snapshot (worktree : Worktree Path) (path : Path) : BaselineFileInfo Path :=
  if worktree.existsAt path then
    let mode := worktree.fileModeForPath path
    let modeVal := mode.getD .regular
    let content := (worktree.blobBytes path modeVal).getD []
    let oid :=
      if mode = some .symlink then worktree.gitBlobSha1Hex content
      else (worktree.gitBlobOidForPath path).getD (worktree.gitBlobSha1Hex content)
    ⟨path, content, modeVal, oid⟩
  else ⟨path, [], .regular, zeroOid⟩

namespace TurnDiffTracker

def new : TurnDiffTracker Path Name := ⟨∅, ∅, ∅⟩

def ensureTracked (tracker : TurnDiffTracker Path Name) (worktree : Worktree Path)
    (uuid : Path → Name) (path : Path) : TurnDiffTracker Path Name :=
  if path ∈ tracker.externalToTempName then tracker
  else
    { externalToTempName := tracker.externalToTempName.insert path (uuid path)
      baselineFileInfo := tracker.baselineFileInfo.insert (uuid path) (worktree.snapshot path)
      tempNameToCurrentPath := tracker.tempNameToCurrentPath.insert (uuid path) path }

def trackMove (tracker : TurnDiffTracker Path Name) (sourceUuid : Path → Name)
    (path dest : Path) : TurnDiffTracker Path Name :=
  match tracker.externalToTempName.lookup path with
  | some name =>
    { tracker with
      externalToTempName := (tracker.externalToTempName.erase path).insert dest name
      tempNameToCurrentPath := tracker.tempNameToCurrentPath.insert name dest }
  | none =>
    let name := sourceUuid path
    { externalToTempName := (tracker.externalToTempName.erase path).insert dest name
      baselineFileInfo := tracker.baselineFileInfo.insert name ⟨path, [], .regular, zeroOid⟩
      tempNameToCurrentPath := tracker.tempNameToCurrentPath.insert name dest }

/-- The body of the loop over the changes. -/
def visit (call : PatchCall Path Name) (tracker : TurnDiffTracker Path Name)
    (entry : Path × FileChange Path) : TurnDiffTracker Path Name :=
  let tracker := tracker.ensureTracked call.worktree call.uuid entry.1
  match entry.2.movePath with
  | some dest => tracker.trackMove call.sourceUuid entry.1 dest
  | none => tracker

def onPatchBegin (tracker : TurnDiffTracker Path Name) (call : PatchCall Path Name) :
    TurnDiffTracker Path Name :=
  call.changes.foldl (visit call) tracker

def getPathForInternal (tracker : TurnDiffTracker Path Name) (internal : Name) : Option Path :=
  (tracker.tempNameToCurrentPath.lookup internal).or
    ((tracker.baselineFileInfo.lookup internal).map fun info => info.path)

end TurnDiffTracker

/-- A section of the diff, before it is rendered. -/
structure FileDiff (Path : Type) where
  baselinePath : Option Path
  currentPath : Path
  baselineMode : FileMode
  currentMode : FileMode
  leftOid : Str
  rightOid : Str
  left : Option (List UInt8)
  right : Option (List UInt8)

namespace TurnDiffTracker

/-- `get_file_diff`; nothing is emitted for a file that is as it was. -/
def getFileDiff (tracker : TurnDiffTracker Path Name) (worktree : Worktree Path)
    (internal : Name) : Option (FileDiff Path) :=
  let info := tracker.baselineFileInfo.lookup internal
  let baselinePath := info.map fun info => info.path
  let baselineMode := (info.map fun info => info.mode).getD .regular
  let leftOid := (info.map fun info => info.oid).getD zeroOid
  match tracker.getPathForInternal internal with
  | none => none
  | some currentPath =>
    let currentMode := (worktree.fileModeForPath currentPath).getD .regular
    let right := worktree.blobBytes currentPath currentMode
    let rightOid :=
      match right with
      | some bytes =>
        if currentMode = .symlink then worktree.gitBlobSha1Hex bytes
        else (worktree.gitBlobOidForPath currentPath).getD (worktree.gitBlobSha1Hex bytes)
      | none => zeroOid
    let left := if leftOid = zeroOid then none else info.map fun info => info.content
    if left = right then none
    else some ⟨baselinePath, currentPath, baselineMode, currentMode, leftOid, rightOid, left, right⟩

/-- `get_unified_diff`: the sections, the internal names in the order they are sorted to. -/
def getUnifiedDiff (tracker : TurnDiffTracker Path Name) (worktree : Worktree Path)
    (baselineFileNames : List Name) : List (FileDiff Path) :=
  baselineFileNames.filterMap (tracker.getFileDiff worktree)

end TurnDiffTracker

/-- The UUIDs of a call are drawn for the first time. -/
structure PatchCall.Fresh (call : PatchCall Path Name) (tracker : TurnDiffTracker Path Name) :
    Prop where
  unused : ∀ path ∈ call.changes.map Prod.fst, call.uuid path ∉ tracker.tempNameToCurrentPath
  distinct : ∀ path ∈ call.changes.map Prod.fst, ∀ path' ∈ call.changes.map Prod.fst,
    call.uuid path = call.uuid path' → path = path'

/-- Every move to another path goes to one that is not tracked, that no change of the patch is
at, and that no other change moves to. -/
def MovesApart (tracker : TurnDiffTracker Path Name) (changes : List (Path × FileChange Path)) :
    Prop :=
  ∀ entry ∈ changes, ∀ dest, entry.2.movePath = some dest → dest ≠ entry.1 →
    dest ∉ tracker.externalToTempName ∧ dest ∉ changes.map Prod.fst ∧
      ∀ other ∈ changes, other.2.movePath = some dest → other.1 = entry.1

/-- A call of `on_patch_begin`. -/
def patchStep (tracker : TurnDiffTracker Path Name) (call : PatchCall Path Name)
    (tracker' : TurnDiffTracker Path Name) : Prop :=
  call.Fresh tracker ∧ tracker' = tracker.onPatchBegin call

section Visit

variable {tracker tracker' : TurnDiffTracker Path Name} {call : PatchCall Path Name}
  {entry other : Path × FileChange Path} {changes changes' : List (Path × FileChange Path)}
  {path dest : Path} {name : Name}

/-- The internal name of a path, drawn if there is none yet. -/
def nameOf (call : PatchCall Path Name) (tracker : TurnDiffTracker Path Name) (path : Path) :
    Name :=
  (tracker.externalToTempName.lookup path).getD (call.uuid path)

def target (entry : Path × FileChange Path) : Path := entry.2.movePath.getD entry.1

namespace TurnDiffTracker

/-- The internal names and the current paths say the same, and every baseline has a path. -/
structure Consistent (tracker : TurnDiffTracker Path Name) : Prop where
  inverse : Inverse tracker.externalToTempName tracker.tempNameToCurrentPath
  baselined : ∀ name ∈ tracker.baselineFileInfo, name ∈ tracker.tempNameToCurrentPath

theorem consistent_new : Consistent (new : TurnDiffTracker Path Name) where
  inverse := Inverse.empty
  baselined _ h := absurd h Finmap.notMem_empty

/-- What a change does to the three maps. -/
theorem visit_eq (h : Inverse tracker.externalToTempName tracker.tempNameToCurrentPath) :
    visit call tracker entry =
      { externalToTempName := (tracker.externalToTempName.erase entry.1).insert (target entry)
          (nameOf call tracker entry.1)
        baselineFileInfo :=
          if entry.1 ∈ tracker.externalToTempName then tracker.baselineFileInfo
          else tracker.baselineFileInfo.insert (call.uuid entry.1)
            (call.worktree.snapshot entry.1)
        tempNameToCurrentPath := tracker.tempNameToCurrentPath.insert
          (nameOf call tracker entry.1) (target entry) } := by
  cases hlookup : tracker.externalToTempName.lookup entry.1 with
  | some name =>
    have hmem : entry.1 ∈ tracker.externalToTempName := Finmap.mem_of_lookup_eq_some hlookup
    have hname : nameOf call tracker entry.1 = name := by
      rw [nameOf, hlookup]
      rfl
    rw [visit, ensureTracked, if_pos hmem, if_pos hmem, hname, target]
    cases entry.2.movePath with
    | none =>
      dsimp only [Option.getD_none]
      rw [Finmap.insert_erase_self, Finmap.insert_of_lookup hlookup,
        Finmap.insert_of_lookup ((h _ _).1 hlookup)]
    | some dest =>
      dsimp only [Option.getD_some]
      rw [trackMove, hlookup]
  | none =>
    have hmem : entry.1 ∉ tracker.externalToTempName := Finmap.lookup_eq_none.1 hlookup
    have hname : nameOf call tracker entry.1 = call.uuid entry.1 := by
      rw [nameOf, hlookup]
      rfl
    rw [visit, ensureTracked, if_neg hmem, if_neg hmem, hname, target]
    cases entry.2.movePath with
    | none =>
      dsimp only [Option.getD_none]
      rw [Finmap.insert_erase_self]
    | some dest =>
      dsimp only [Option.getD_some]
      rw [trackMove]
      dsimp only
      rw [Finmap.lookup_insert]
      dsimp only
      rw [Finmap.erase_insert_self, Finmap.insert_insert]

omit [DecidableEq Path] in
theorem target_of_move (h : entry.2.movePath = some dest) : target entry = dest := by
  rw [target, h]
  rfl

omit [DecidableEq Path] in
theorem target_of_none (h : entry.2.movePath = none) : target entry = entry.1 := by
  rw [target, h]
  rfl

omit [DecidableEq Name] in
theorem nameOf_of_lookup (h : tracker.externalToTempName.lookup path = some name) :
    nameOf call tracker path = name := by
  rw [nameOf, h]
  rfl

omit [DecidableEq Name] in
theorem nameOf_of_notMem (h : path ∉ tracker.externalToTempName) :
    nameOf call tracker path = call.uuid path := by
  rw [nameOf, Finmap.lookup_eq_none.2 h]
  rfl

theorem inverse_visit (h : Inverse tracker.externalToTempName tracker.tempNameToCurrentPath)
    (hunused : call.uuid entry.1 ∉ tracker.tempNameToCurrentPath)
    (htarget : target entry = entry.1 ∨ target entry ∉ tracker.externalToTempName) :
    Inverse (visit call tracker entry).externalToTempName
      (visit call tracker entry).tempNameToCurrentPath := by
  rw [visit_eq h]
  dsimp only
  cases hlookup : tracker.externalToTempName.lookup entry.1 with
  | some name =>
    rw [nameOf_of_lookup hlookup]
    exact h.move hlookup htarget
  | none =>
    have hmem := Finmap.lookup_eq_none.1 hlookup
    have hfree : target entry = entry.1 ∨ target entry ∉
        tracker.externalToTempName.insert entry.1 (call.uuid entry.1) := by
      rw [Finmap.mem_insert, not_or]
      by_cases hsame : target entry = entry.1
      · exact Or.inl hsame
      · exact Or.inr ⟨hsame, htarget.resolve_left hsame⟩
    have hmoved := (h.insert hmem hunused).move (Finmap.lookup_insert _) hfree
    rw [Finmap.erase_insert_self, Finmap.insert_insert] at hmoved
    rwa [nameOf_of_notMem hmem]

/-- What the changes that are left need of the tracker and of each other. -/
structure Ready (call : PatchCall Path Name) (tracker : TurnDiffTracker Path Name)
    (changes : List (Path × FileChange Path)) : Prop extends Consistent tracker where
  keys : (changes.map Prod.fst).Nodup
  unused : ∀ path ∈ changes.map Prod.fst, call.uuid path ∉ tracker.tempNameToCurrentPath
  distinct : ∀ path ∈ changes.map Prod.fst, ∀ path' ∈ changes.map Prod.fst,
    call.uuid path = call.uuid path' → path = path'
  apart : MovesApart tracker changes

namespace Ready

theorem perm (hperm : changes.Perm changes') (h : Ready call tracker changes) :
    Ready call tracker changes' where
  toConsistent := h.toConsistent
  keys := (hperm.map Prod.fst).nodup_iff.1 h.keys
  unused path hpath := h.unused path ((hperm.map Prod.fst).mem_iff.2 hpath)
  distinct path hpath path' hpath' :=
    h.distinct path ((hperm.map Prod.fst).mem_iff.2 hpath) path'
      ((hperm.map Prod.fst).mem_iff.2 hpath')
  apart entry hentry dest hmove hne := by
    obtain ⟨huntracked, hnokey, halone⟩ := h.apart entry (hperm.mem_iff.2 hentry) dest hmove hne
    refine ⟨huntracked, ?_, ?_⟩
    · rwa [← (hperm.map Prod.fst).mem_iff]
    · exact fun other hother => halone other (hperm.mem_iff.2 hother)

/-- A change leaves its file where it is, or at a path that is not tracked. -/
theorem target_free (h : Ready call tracker changes) (hentry : entry ∈ changes) :
    target entry = entry.1 ∨ target entry ∉ tracker.externalToTempName := by
  by_cases hsame : target entry = entry.1
  · exact Or.inl hsame
  · cases hmove : entry.2.movePath with
    | none => exact absurd (target_of_none hmove) hsame
    | some dest =>
      rw [target_of_move hmove] at hsame ⊢
      exact Or.inr (h.apart entry hentry dest hmove hsame).1

/-- No change leaves its file where another file is. -/
theorem target_ne_key (h : Ready call tracker changes) (hentry : entry ∈ changes)
    (hother : other ∈ changes) (hne : entry.1 ≠ other.1) : target entry ≠ other.1 := by
  cases hmove : entry.2.movePath with
  | none =>
    rw [target_of_none hmove]
    exact hne
  | some dest =>
    rw [target_of_move hmove]
    intro heq
    have hnokey := (h.apart entry hentry dest hmove (heq ▸ hne.symm)).2.1
    exact hnokey (heq ▸ List.mem_map_of_mem hother)

/-- No two changes leave their files at one path. -/
theorem target_ne_target (h : Ready call tracker changes) (hentry : entry ∈ changes)
    (hother : other ∈ changes) (hne : entry.1 ≠ other.1) : target entry ≠ target other := by
  intro heq
  have hkey := h.target_ne_key hentry hother hne
  have hkey' := h.target_ne_key hother hentry hne.symm
  cases hmove : other.2.movePath with
  | none =>
    rw [heq, target_of_none hmove] at hkey
    exact hkey rfl
  | some dest =>
    cases hmove' : entry.2.movePath with
    | none =>
      rw [← heq, target_of_none hmove'] at hkey'
      exact hkey' rfl
    | some dest' =>
      rw [target_of_move hmove, target_of_move hmove'] at heq
      subst heq
      rw [target_of_move hmove'] at hkey
      exact hne ((h.apart other hother dest' hmove hkey).2.2 entry hentry hmove')

theorem nameOf_ne (h : Ready call tracker changes) (hentry : entry ∈ changes)
    (hother : other ∈ changes) (hne : entry.1 ≠ other.1) :
    nameOf call tracker entry.1 ≠ nameOf call tracker other.1 := by
  have hdrawn {entry : Path × FileChange Path} (hentry : entry ∈ changes) {name : Name}
      {path : Path} (hlookup : tracker.externalToTempName.lookup path = some name) :
      call.uuid entry.1 ≠ name := by
    rintro rfl
    exact h.unused entry.1 (List.mem_map_of_mem hentry)
      (Finmap.mem_of_lookup_eq_some ((h.inverse _ _).1 hlookup))
  cases hlookup : tracker.externalToTempName.lookup entry.1 with
  | some name =>
    rw [nameOf_of_lookup hlookup]
    cases hlookup' : tracker.externalToTempName.lookup other.1 with
    | some name' =>
      rw [nameOf_of_lookup hlookup']
      rintro rfl
      have hpath := ((h.inverse _ _).1 hlookup).symm.trans ((h.inverse _ _).1 hlookup')
      exact hne (Option.some.inj hpath)
    | none =>
      rw [nameOf_of_notMem (Finmap.lookup_eq_none.1 hlookup')]
      exact (hdrawn hother hlookup).symm
  | none =>
    rw [nameOf_of_notMem (Finmap.lookup_eq_none.1 hlookup)]
    cases hlookup' : tracker.externalToTempName.lookup other.1 with
    | some name' =>
      rw [nameOf_of_lookup hlookup']
      exact hdrawn hentry hlookup'
    | none =>
      rw [nameOf_of_notMem (Finmap.lookup_eq_none.1 hlookup')]
      intro heq
      exact hne (h.distinct entry.1 (List.mem_map_of_mem hentry) other.1
        (List.mem_map_of_mem hother) heq)

/-- A change leaves the name of any other path that it does not move to. -/
theorem lookup_visit (h : Ready call tracker changes) (hpath : path ≠ entry.1)
    (htarget : path ≠ target entry) :
    (visit call tracker entry).externalToTempName.lookup path =
      tracker.externalToTempName.lookup path := by
  rw [visit_eq h.inverse]
  dsimp only
  rw [Finmap.lookup_insert_of_ne _ htarget, Finmap.lookup_erase_ne hpath]

theorem mem_visit_iff (h : Ready call tracker changes) (hpath : path ≠ entry.1)
    (htarget : path ≠ target entry) :
    path ∈ (visit call tracker entry).externalToTempName ↔
      path ∈ tracker.externalToTempName := by
  rw [← Finmap.lookup_isSome, ← Finmap.lookup_isSome, h.lookup_visit hpath htarget]

theorem consistent_visit (h : Ready call tracker (entry :: changes)) :
    Consistent (visit call tracker entry) where
  inverse := by
    apply inverse_visit h.inverse
    · exact h.unused entry.1 List.mem_cons_self
    · exact h.target_free List.mem_cons_self
  baselined := by
    rw [visit_eq h.inverse]
    intro name hname
    rw [Finmap.mem_insert]
    dsimp only at hname
    split at hname
    · exact Or.inr (h.baselined name hname)
    next hmem =>
      rw [nameOf_of_notMem hmem]
      exact (Finmap.mem_insert.1 hname).imp_right (h.baselined name)

/-- The changes after the first are ready once it is made. -/
theorem visit (h : Ready call tracker (entry :: changes)) :
    Ready call (visit call tracker entry) changes where
  toConsistent := h.consistent_visit
  keys := (List.nodup_cons.1 h.keys).2
  unused path hpath := by
    rw [visit_eq h.inverse, Finmap.mem_insert, not_or]
    have hunused := h.unused path (List.mem_cons_of_mem _ hpath)
    refine ⟨?_, hunused⟩
    intro heq
    by_cases hmem : entry.1 ∈ tracker.externalToTempName
    · obtain ⟨name, hlookup⟩ := Finmap.mem_iff.1 hmem
      rw [nameOf_of_lookup hlookup] at heq
      rw [heq] at hunused
      exact hunused (Finmap.mem_of_lookup_eq_some ((h.inverse _ _).1 hlookup))
    · rw [nameOf_of_notMem hmem] at heq
      have hsame := h.distinct path (List.mem_cons_of_mem _ hpath) entry.1 List.mem_cons_self heq
      exact (List.nodup_cons.1 h.keys).1 (hsame ▸ hpath)
  distinct path hpath path' hpath' :=
    h.distinct path (List.mem_cons_of_mem _ hpath) path' (List.mem_cons_of_mem _ hpath')
  apart other hother dest hmove hne := by
    have hother' : other ∈ entry :: changes := List.mem_cons_of_mem _ hother
    obtain ⟨huntracked, hnokey, halone⟩ := h.apart other hother' dest hmove hne
    rw [List.map_cons, List.mem_cons, not_or] at hnokey
    have hkeys : entry.1 ≠ other.1 := by
      intro heq
      exact (List.nodup_cons.1 h.keys).1 (heq ▸ List.mem_map_of_mem hother)
    have htarget : dest ≠ target entry := by
      rw [← target_of_move hmove]
      exact h.target_ne_target hother' List.mem_cons_self hkeys.symm
    refine ⟨?_, hnokey.2, ?_⟩
    · rwa [h.mem_visit_iff hnokey.1 htarget]
    · exact fun third hthird => halone third (List.mem_cons_of_mem _ hthird)

/-- Two changes may be made in either order. -/
theorem swap (h : Ready call tracker (entry :: other :: changes)) :
    TurnDiffTracker.visit call (TurnDiffTracker.visit call tracker entry) other =
      TurnDiffTracker.visit call (TurnDiffTracker.visit call tracker other) entry := by
  have hentry : entry ∈ entry :: other :: changes := List.mem_cons_self
  have hother : other ∈ entry :: other :: changes := List.mem_cons_of_mem _ List.mem_cons_self
  have hne : entry.1 ≠ other.1 := by
    intro heq
    exact (List.nodup_cons.1 h.keys).1 (heq ▸ List.mem_cons_self)
  have hready' : Ready call tracker (other :: entry :: changes) := h.perm (.swap _ _ _)
  have htarget := h.target_ne_key hentry hother hne
  have htarget' := h.target_ne_key hother hentry hne.symm
  have htargets := h.target_ne_target hentry hother hne
  have hnames := h.nameOf_ne hentry hother hne
  have hname : nameOf call (TurnDiffTracker.visit call tracker entry) other.1 =
      nameOf call tracker other.1 := by
    rw [nameOf, h.lookup_visit hne.symm htarget.symm]
    rfl
  have hname' : nameOf call (TurnDiffTracker.visit call tracker other) entry.1 =
      nameOf call tracker entry.1 := by
    rw [nameOf, h.lookup_visit hne htarget'.symm]
    rfl
  have hmem := h.mem_visit_iff hne.symm htarget.symm
  have hmem' := h.mem_visit_iff hne htarget'.symm
  rw [visit_eq h.visit.inverse, visit_eq hready'.visit.inverse, hname, hname']
  simp only [hmem, hmem']
  rw [visit_eq h.inverse, visit_eq h.inverse]
  simp only [TurnDiffTracker.mk.injEq]
  refine ⟨?_, ?_, ?_⟩
  · rw [Finmap.erase_insert_of_ne htarget, Finmap.erase_insert_of_ne htarget', Finmap.erase_erase]
    exact Finmap.insert_insert_of_ne _ htargets
  · have huuids : call.uuid entry.1 ≠ call.uuid other.1 := by
      intro heq
      exact hne (h.distinct entry.1 (List.mem_map_of_mem hentry) other.1
        (List.mem_map_of_mem hother) heq)
    split
    · rfl
    · split
      · rfl
      · exact Finmap.insert_insert_of_ne _ huuids
  · exact Finmap.insert_insert_of_ne _ hnames

theorem consistent_foldl (h : Ready call tracker changes) :
    Consistent (changes.foldl (TurnDiffTracker.visit call) tracker) := by
  induction changes generalizing tracker with
  | nil => exact h.toConsistent
  | cons entry changes ih => exact ih h.visit

/-- The order of the changes does not matter. -/
theorem foldl_perm (h : Ready call tracker changes) (hperm : changes.Perm changes') :
    changes.foldl (TurnDiffTracker.visit call) tracker =
      changes'.foldl (TurnDiffTracker.visit call) tracker := by
  refine hperm.foldl_eq_of_ready ?_ ?_ ?_ h
  · exact fun hperm h => h.perm hperm
  · exact fun h => h.visit
  · exact fun h => h.swap

end Ready

theorem Consistent.ready (h : Consistent tracker) (hfresh : call.Fresh tracker)
    (hapart : MovesApart tracker call.changes) : Ready call tracker call.changes where
  toConsistent := h
  keys := call.nodup
  unused := hfresh.unused
  distinct := hfresh.distinct
  apart := hapart

/-! ## Sections -/

theorem lookup_of_getFileDiff {worktree : Worktree Path} {diff : FileDiff Path}
    (h : Consistent tracker) (hdiff : tracker.getFileDiff worktree name = some diff) :
    tracker.tempNameToCurrentPath.lookup name = some diff.currentPath := by
  have hpath : tracker.getPathForInternal name = some diff.currentPath := by
    unfold getFileDiff at hdiff
    dsimp only at hdiff
    split at hdiff
    · cases hdiff
    next path hpath =>
      obtain ⟨-, hsection⟩ := Option.ite_none_left_eq_some.1 hdiff
      rw [hpath, ← Option.some.inj hsection]
  rw [getPathForInternal, Option.or_eq_some_iff] at hpath
  rcases hpath with hpath | ⟨hnone, hbaseline⟩
  · exact hpath
  · obtain ⟨info, hinfo, -⟩ := Option.map_eq_some_iff.1 hbaseline
    have hmem := h.baselined name (Finmap.mem_of_lookup_eq_some hinfo)
    exact absurd hmem (Finmap.lookup_eq_none.1 hnone)

theorem Consistent.nodup_currentPath (h : Consistent tracker) (worktree : Worktree Path)
    {names : List Name} (hnames : names.Nodup) :
    ((tracker.getUnifiedDiff worktree names).map fun diff => diff.currentPath).Nodup := by
  rw [getUnifiedDiff, List.map_filterMap]
  apply hnames.filterMap
  intro name name' path hname hname'
  obtain ⟨diff, hdiff, rfl⟩ := Option.map_eq_some_iff.1 (Option.mem_def.1 hname)
  obtain ⟨diff', hdiff', hsame⟩ := Option.map_eq_some_iff.1 (Option.mem_def.1 hname')
  have hpath := lookup_of_getFileDiff h hdiff
  have hpath' := lookup_of_getFileDiff h hdiff'
  rw [hsame] at hpath'
  exact h.inverse.name_unique hpath hpath'

end TurnDiffTracker

end Visit

/-- What a turn's tracker keeps: maps that are inverse, and so one section for each path. -/
structure OneSectionEach (tracker : TurnDiffTracker Path Name) : Prop where
  inverse : Inverse tracker.externalToTempName tracker.tempNameToCurrentPath
  sections : ∀ worktree names, names.Nodup → (∀ name ∈ names, name ∈ tracker.baselineFileInfo) →
    ((tracker.getUnifiedDiff worktree names).map fun diff => diff.currentPath).Nodup

/-- The same call with its changes in another order. -/
def PatchCall.reorder (call : PatchCall Path Name) (changes : List (Path × FileChange Path))
    (hperm : call.changes.Perm changes) : PatchCall Path Name :=
  { call with
    changes := changes
    nodup := (hperm.map Prod.fst).nodup_iff.1 call.nodup }

/-- A call of `on_patch_begin` whose moves are apart. -/
def apartStep (tracker : TurnDiffTracker Path Name) (call : PatchCall Path Name)
    (tracker' : TurnDiffTracker Path Name) : Prop :=
  patchStep tracker call tracker' ∧ MovesApart tracker call.changes

/-- As long as the moves are apart the maps are inverse, there is one section for each path, and
the order of a patch's changes does not matter. -/
theorem tracker_maps_inverse {calls : List (PatchCall Path Name)}
    {tracker : TurnDiffTracker Path Name} (h : Run apartStep .new calls tracker) :
    OneSectionEach tracker ∧
      ∀ call tracker', apartStep tracker call tracker' →
        ∀ changes, ∀ hperm : call.changes.Perm changes,
          tracker.onPatchBegin (call.reorder changes hperm) = tracker' := by
  have hconsistent : tracker.Consistent := by
    refine h.invariant ?_ TurnDiffTracker.consistent_new
    rintro tracker call tracker' hconsistent ⟨⟨hfresh, rfl⟩, hapart⟩
    exact (hconsistent.ready hfresh hapart).consistent_foldl
  refine ⟨⟨hconsistent.inverse, ?_⟩, ?_⟩
  · intro worktree names hnames _
    exact hconsistent.nodup_currentPath worktree hnames
  · rintro call tracker' ⟨⟨hfresh, rfl⟩, hapart⟩ changes hperm
    exact ((hconsistent.ready hfresh hapart).foldl_perm hperm).symm

/-- A patch that moves a file to a new name. -/
theorem tracker_maps_inverse_of_move :
    ∃ (calls : List (PatchCall Str Nat)) (tracker : TurnDiffTracker Str Nat),
      Run apartStep .new calls tracker ∧ tracker.externalToTempName.keys = {"b".toList} ∧
        OneSectionEach tracker := by
  let worktree : Worktree Str :=
    ⟨fun _ => true, fun _ => some .regular, fun _ _ => some [1], fun _ => none, fun _ => []⟩
  let call : PatchCall Str Nat :=
    ⟨worktree, fun _ => 7, fun _ => 8, [("a".toList, .update [] (some "b".toList))],
      List.nodup_singleton _⟩
  have hfresh : call.Fresh .new := by
    constructor
    · intro path _
      exact Finmap.notMem_empty
    · intro path hpath path' hpath' _
      exact (List.mem_singleton.1 hpath).trans (List.mem_singleton.1 hpath').symm
  have hapart : MovesApart (.new : TurnDiffTracker Str Nat) call.changes := by
    intro entry hentry dest hmove hne
    obtain rfl := List.mem_singleton.1 hentry
    obtain rfl := Option.some.inj hmove
    refine ⟨Finmap.notMem_empty, by decide, ?_⟩
    intro other hother _
    rw [List.mem_singleton.1 hother]
  have hrun : Run apartStep .new [call] (TurnDiffTracker.new.onPatchBegin call) :=
    .single ⟨⟨hfresh, rfl⟩, hapart⟩
  refine ⟨_, _, hrun, ?_, (tracker_maps_inverse hrun).1⟩
  decide

/-- Files at two paths, told by their contents. -/
def worktreeOf (a b : Option (List UInt8)) : Worktree Str where
  existsAt path := if path = "a".toList then a.isSome else b.isSome
  fileModeForPath _ := some .regular
  blobBytes path _ := if path = "a".toList then a else b
  gitBlobOidForPath _ := none
  gitBlobSha1Hex _ := []

/-- `b` is added, and a file is moved onto it: two sections are for `b`. The other way round, the
files of one patch change places: the name that is left depends on the order. -/
theorem section_twice_after_move :
    (¬∀ (calls : List (PatchCall Str Nat)) (tracker : TurnDiffTracker Str Nat),
      Run patchStep .new calls tracker → OneSectionEach tracker) ∧
    ¬∀ (call : PatchCall Str Nat) (changes : List (Str × FileChange Str))
      (hperm : call.changes.Perm changes), call.Fresh .new →
        TurnDiffTracker.new.onPatchBegin (call.reorder changes hperm) =
          TurnDiffTracker.new.onPatchBegin call := by
  let uuid : Str → Nat := fun path => if path = "a".toList then 2 else 1
  have hfresh (call : PatchCall Str Nat) (tracker : TurnDiffTracker Str Nat)
      (huuid : call.uuid = uuid)
      (hkeys : ∀ path ∈ call.changes.map Prod.fst, path = "a".toList ∨ path = "b".toList)
      (hunused : ∀ path ∈ call.changes.map Prod.fst,
        uuid path ∉ tracker.tempNameToCurrentPath) : call.Fresh tracker := by
    refine ⟨huuid ▸ hunused, ?_⟩
    rw [huuid]
    intro path hpath path' hpath'
    rcases hkeys path hpath with rfl | rfl
    · rcases hkeys path' hpath' with rfl | rfl
      · simp
      · simp [uuid]
    · rcases hkeys path' hpath' with rfl | rfl
      · simp [uuid]
      · simp
  constructor
  · intro hall
    let add : PatchCall Str Nat := ⟨worktreeOf (some [1]) none, uuid, fun _ => 0,
      [("b".toList, .add [])], List.nodup_singleton _⟩
    let move : PatchCall Str Nat := ⟨worktreeOf (some [1]) (some []), uuid, fun _ => 0,
      [("a".toList, .update [] (some "b".toList))], List.nodup_singleton _⟩
    have hadd : patchStep .new add (TurnDiffTracker.new.onPatchBegin add) :=
      ⟨hfresh add .new rfl (by decide) (by decide), rfl⟩
    have hmove : patchStep (TurnDiffTracker.new.onPatchBegin add) move
        ((TurnDiffTracker.new.onPatchBegin add).onPatchBegin move) :=
      ⟨hfresh move _ rfl (by decide) (by decide), rfl⟩
    have hsections := (hall _ _ (.cons hadd (.single hmove))).sections
      (worktreeOf none (some [2])) [1, 2] (by decide) (by decide)
    revert hsections
    decide
  · intro hall
    let call : PatchCall Str Nat := ⟨worktreeOf (some [1]) (some [2]), uuid, fun _ => 0,
      [("a".toList, .update [] (some "b".toList)), ("b".toList, .update [] (some "a".toList))],
      by decide⟩
    have hsame := hall call _ (.swap _ _ _) (hfresh call .new rfl (by decide) (by decide))
    have hname := congrArg (fun tracker => tracker.externalToTempName.lookup "a".toList) hsame
    revert hname
    decide

end SheriMl.TurnDiff
