import SheriMl.ApplyPatch.Verify

/-!
# The footprint of a patch

The changes that the writable roots are checked against name the path of every
hunk. They do not name every move destination: a later hunk on the same path
overwrites the entry of the update that moves. A run touches a path the changes do
not name exactly if it gets to write such a destination (`covered_iff`).
-/

namespace SheriMl.ApplyPatch

open FileTree (Contents)
open Protocol (SandboxPolicy WritableRoot)

/-- A key of the changes, or the destination of one of them. -/
def Covers (changes : Changes) (path : PathKey) : Prop :=
  (∃ change, changes.lookup path = some change) ∨
    ∃ k diff dest content, changes.lookup k = some (.update diff (some dest) content) ∧
      Path.components dest = path

def Hunk.movePath : Hunk → Option Str
  | .updateFile _ movePath _ => movePath
  | _ => none

/-- The path of a hunk, or the destination of the last hunk on some path. -/
def Named (cwd : Str) (hunks : List Hunk) (path : PathKey) : Prop :=
  (∃ hunk ∈ hunks, hunk.key cwd = path) ∨
    ∃ hunk ∈ hunks, lastOn cwd hunks (hunk.key cwd) = some hunk ∧
      ∃ dest ∈ hunk.movePath, pathKey cwd dest = path

instance (cwd : Str) (hunks : List Hunk) (path : PathKey) : Decidable (Named cwd hunks path) :=
  inferInstanceAs (Decidable (_ ∨ _))

/-- The hunks before an update that moves are applied without an error, its chunks apply, and
its destination is written, at least in part, or a directory made for it. -/
def ReachesMove (faults : Nat → Faults) (cwd : Str) (t : FileTree) (before : List Hunk)
    (path dest : Str) (chunks : List UpdateFileChunk) : Prop :=
  let e := applyHunksFrom faults cwd 0 t before
  let f := faults before.length
  e.error = none ∧ ∃ original new,
    deriveNewContentsFromChunks path (readFile f cwd e.tree path) chunks = .ok (original, new) ∧
      dest ∈ (writeNewFile f cwd e.tree dest new).touched

section Named

variable {unifiedDiff : Str → Str → Str} {cwd : Str} {t : FileTree} {hunks : List Hunk}
  {changes : Changes} {k path : PathKey} {hunk : Hunk}

theorem lastOn_spec (h : lastOn cwd hunks k = some hunk) : hunk ∈ hunks ∧ hunk.key cwd = k := by
  have hmem := List.mem_of_find?_eq_some h
  have hkey := List.find?_some h
  exact ⟨List.mem_reverse.1 hmem, of_decide_eq_true hkey⟩

theorem lookup_changes_eq_some_iff (h : collectChanges unifiedDiff cwd t hunks = .ok changes)
    {change : ApplyPatchFileChange} :
    changes.lookup k = some change ↔
      ∃ hunk, lastOn cwd hunks k = some hunk ∧ changeOf unifiedDiff cwd t hunk = .ok change := by
  rw [lookup_changes h k, Option.bind_eq_some_iff]
  simp only [Result.toOption_eq_some]

theorem exists_lookup_iff (h : collectChanges unifiedDiff cwd t hunks = .ok changes) :
    (∃ change, changes.lookup k = some change) ↔ ∃ hunk ∈ hunks, hunk.key cwd = k := by
  constructor
  · rintro ⟨change, hchange⟩
    obtain ⟨hunk, hlast, -⟩ := (lookup_changes_eq_some_iff h).1 hchange
    exact ⟨hunk, lastOn_spec hlast⟩
  · rintro ⟨hunk, hmem, hkey⟩
    have hsome : (lastOn cwd hunks k).isSome := by
      unfold lastOn
      rw [List.find?_isSome]
      exact ⟨hunk, List.mem_reverse.2 hmem, by simpa using hkey⟩
    obtain ⟨last, hlast⟩ := Option.isSome_iff_exists.1 hsome
    obtain ⟨change, hchange⟩ := changeOf_of_mem h last (lastOn_spec hlast).1
    exact ⟨change, (lookup_changes_eq_some_iff h).2 ⟨last, hlast, hchange⟩⟩

theorem exists_changeOf_move_iff {change : ApplyPatchFileChange} {dest : Str}
    (h : changeOf unifiedDiff cwd t hunk = .ok change) :
    (∃ diff content, change = .update diff (some dest) content) ↔
      ∃ d, hunk.movePath = some d ∧ Path.join cwd d = dest := by
  cases hunk with
  | addFile path contents =>
    cases h
    simp [Hunk.movePath]
  | deleteFile path =>
    unfold changeOf at h
    dsimp only at h
    split at h
    · cases h
      simp [Hunk.movePath]
    · cases h
  | updateFile path movePath chunks =>
    obtain ⟨⟨diff, contents⟩, -, rfl⟩ := Result.exists_of_map_eq_ok h
    simp [Hunk.movePath, Option.map_eq_some_iff]

theorem covers_iff (h : collectChanges unifiedDiff cwd t hunks = .ok changes) :
    Covers changes path ↔ Named cwd hunks path := by
  unfold Covers Named
  rw [exists_lookup_iff h]
  refine or_congr_right ?_
  constructor
  · rintro ⟨k, diff, dest, content, hlookup, hdest⟩
    obtain ⟨hunk, hlast, hchange⟩ := (lookup_changes_eq_some_iff h).1 hlookup
    obtain ⟨d, hmove, rfl⟩ := (exists_changeOf_move_iff hchange).1 ⟨diff, content, rfl⟩
    obtain ⟨hmem, hkey⟩ := lastOn_spec hlast
    refine ⟨hunk, hmem, ?_, d, hmove, hdest⟩
    rw [hkey]
    exact hlast
  · rintro ⟨hunk, hmem, hlast, d, hmove, hdest⟩
    obtain ⟨change, hchange⟩ := changeOf_of_mem h hunk hmem
    obtain ⟨diff, content, rfl⟩ := (exists_changeOf_move_iff hchange).2 ⟨d, hmove, rfl⟩
    exact ⟨_, diff, _, content, (lookup_changes_eq_some_iff h).2 ⟨hunk, hlast, hchange⟩, hdest⟩

end Named

/-! ## What a run touches -/

section Touched

variable {faults : Faults} {cwd : Str} {t : FileTree} {p path contents context : Str}

theorem touched_andThen {e : Effect} {next : FileTree → Effect} :
    p ∈ (e.andThen next).touched ↔
      p ∈ e.touched ∨ e.error = none ∧ p ∈ (next e.tree).touched := by
  unfold Effect.andThen
  cases e.error with
  | none => simp
  | some => simp

theorem andThen_assoc (e : Effect) (next last : FileTree → Effect) :
    (e.andThen next).andThen last = e.andThen fun t => (next t).andThen last := by
  obtain ⟨tree, touched, error⟩ := e
  cases error with
  | some => rfl
  | none =>
    simp only [Effect.andThen]
    cases herror : (next tree).error with
    | some => simp [herror]
    | none => simp

theorem touched_createParentDirs (h : p ∈ (createParentDirs faults cwd t path).touched) :
    p = path := by
  unfold createParentDirs at h
  dsimp only at h
  split at h
  · cases h
  · exact List.mem_singleton.1 h

theorem touched_writeFile (h : p ∈ (writeFile faults cwd t path contents).touched) : p = path := by
  unfold writeFile at h
  dsimp only at h
  split at h
  · split at h
    · exact List.mem_singleton.1 h
    · cases h
  · cases h
  · split at h
    · exact List.mem_singleton.1 h
    · cases h

theorem touched_writeNewFile (h : p ∈ (writeNewFile faults cwd t path contents).touched) :
    p = path := by
  rcases touched_andThen.1 h with h | ⟨-, h⟩
  · exact touched_createParentDirs h
  · exact touched_writeFile h

theorem touched_removeFile (h : p ∈ (removeFile faults cwd t context path).touched) : p = path := by
  unfold removeFile at h
  split at h
  · exact List.mem_singleton.1 h
  · cases h

theorem touched_applyHunk {hunk : Hunk} (h : p ∈ (applyHunk faults cwd t hunk).touched) :
    p = hunk.path ∨ ∃ path chunks original new, hunk = .updateFile path (some p) chunks ∧
      deriveNewContentsFromChunks path (readFile faults cwd t path) chunks = .ok (original, new) ∧
        p ∈ (writeNewFile faults cwd t p new).touched := by
  cases hunk with
  | addFile path contents => exact .inl (touched_writeNewFile h)
  | deleteFile path => exact .inl (touched_removeFile h)
  | updateFile path movePath chunks =>
    rw [applyHunk] at h
    split at h
    · cases h
    next original new hderive =>
      cases movePath with
      | none => exact .inl (touched_writeFile h)
      | some dest =>
        rcases touched_andThen.1 h with h | ⟨-, h⟩
        · obtain rfl := touched_writeNewFile h
          exact .inr ⟨path, chunks, original, new, rfl, hderive, h⟩
        · exact .inl (touched_removeFile h)

theorem touched_applyHunk_move {dest original new : Str} {chunks : List UpdateFileChunk}
    (hderive : deriveNewContentsFromChunks path (readFile faults cwd t path) chunks =
      .ok (original, new)) (h : dest ∈ (writeNewFile faults cwd t dest new).touched) :
    dest ∈ (applyHunk faults cwd t (.updateFile path (some dest) chunks)).touched := by
  rw [applyHunk, hderive]
  exact touched_andThen.2 (.inl h)

end Touched

section Run

variable {faults : Nat → Faults} {cwd p : Str} {t : FileTree} {hunks : List Hunk}

theorem applyHunksFrom_append (before after : List Hunk) (i : Nat) (t : FileTree) :
    applyHunksFrom faults cwd i t (before ++ after) =
      (applyHunksFrom faults cwd i t before).andThen fun t =>
        applyHunksFrom faults cwd (i + before.length) t after := by
  induction before generalizing i t with
  | nil => simp [applyHunksFrom, Effect.andThen]
  | cons hunk before ih =>
    have hlen : i + 1 + before.length = i + (hunk :: before).length := by
      rw [List.length_cons]
      omega
    rw [List.cons_append, applyHunksFrom, applyHunksFrom, andThen_assoc]
    congr 1
    funext t
    rw [ih, hlen]

/-- A path is touched when the run reaches a hunk that touches it. -/
theorem touched_applyHunksFrom {i : Nat} :
    p ∈ (applyHunksFrom faults cwd i t hunks).touched ↔
      ∃ before hunk after, hunks = before ++ hunk :: after ∧
        (applyHunksFrom faults cwd i t before).error = none ∧
        p ∈ (applyHunk (faults (i + before.length)) cwd
          (applyHunksFrom faults cwd i t before).tree hunk).touched := by
  constructor
  · intro h
    induction hunks using List.reverseRecOn with
    | nil => cases h
    | append_singleton hunks last ih =>
      rw [applyHunksFrom_append] at h
      rcases touched_andThen.1 h with h | ⟨herror, h⟩
      · obtain ⟨before, hunk, after, rfl, herror, htouched⟩ := ih h
        exact ⟨before, hunk, after ++ [last], by simp, herror, htouched⟩
      · refine ⟨hunks, last, [], rfl, herror, ?_⟩
        rcases touched_andThen.1 h with h | ⟨-, h⟩
        · exact h
        · cases h
  · rintro ⟨before, hunk, after, rfl, herror, htouched⟩
    rw [applyHunksFrom_append]
    exact touched_andThen.2 (.inr ⟨herror, touched_andThen.2 (.inl htouched)⟩)

theorem touched_applyHunksToFiles :
    p ∈ (applyHunksToFiles faults cwd t hunks).effect.touched ↔
      p ∈ (applyHunksFrom faults cwd 0 t hunks).touched := by
  unfold applyHunksToFiles
  cases hunks with
  | nil => rfl
  | cons => rfl

end Run

/-! ## Only what is touched changes -/

/-- The directories on the way to a path, from the working directory. -/
def OnWay (cwd path : Str) (loc : Loc) : Prop :=
  Path.hasParent path = true ∧
    loc ∈ Path.passed (Path.located cwd) (Path.components path).dropLast

instance (cwd path : Str) (loc : Loc) : Decidable (OnWay cwd path loc) :=
  inferInstanceAs (Decidable (_ ∧ _))

/-- A location changes only if it is that of a touched path or on the way to one. -/
def Effect.Frames (cwd : Str) (t : FileTree) (e : Effect) : Prop :=
  ∀ loc, e.tree.node loc ≠ t.node loc →
    ∃ p ∈ e.touched, loc = Path.located (Path.join cwd p) ∨ OnWay cwd p loc

section Frames

variable {faults : Faults} {cwd path contents context : Str} {t : FileTree}

theorem frames_refl {error : Option ApplyPatchError} : Effect.Frames cwd t ⟨t, [], error⟩ :=
  fun _ h => absurd rfl h

theorem Effect.Frames.andThen {e : Effect} {next : FileTree → Effect} (he : e.Frames cwd t)
    (hnext : (next e.tree).Frames cwd e.tree) : (e.andThen next).Frames cwd t := by
  unfold Effect.andThen
  cases e.error with
  | some => exact he
  | none =>
    intro loc hloc
    by_cases hfirst : e.tree.node loc = t.node loc
    · obtain ⟨p, hp, hat⟩ := hnext loc fun h => hloc (h.trans hfirst)
      exact ⟨p, List.mem_append.2 (.inr hp), hat⟩
    · obtain ⟨p, hp, hat⟩ := he loc hfirst
      exact ⟨p, List.mem_append.2 (.inl hp), hat⟩

theorem frames_createParentDirs : (createParentDirs faults cwd t path).Frames cwd t := by
  intro loc hloc
  unfold createParentDirs createParents at hloc ⊢
  split
  next hparent =>
    rw [if_pos hparent] at hloc
    split
    next hwalk =>
      rw [hwalk] at hloc
      exact absurd rfl hloc
    next dir hwalk =>
      rw [hwalk] at hloc
      obtain ⟨hnode, hmade⟩ := t.createDirAll_spec faults.createDirs dir
        (Path.components path).dropLast
      dsimp only at hloc ⊢
      rw [hnode loc] at hloc
      by_cases hin : loc ∈ (t.createDirAll faults.createDirs dir
          (Path.components path).dropLast).made
      · have hdir : dir = Path.located cwd := by
          rw [(FileTree.walk_spec hwalk).1, Path.foldl_enterPiece_split]
        rw [if_neg (List.ne_nil_of_mem hin)]
        refine ⟨path, List.mem_singleton_self _, .inr ?_⟩
        rw [OnWay, ← hdir]
        exact ⟨hparent, (hmade loc hin).2⟩
      · rw [if_neg hin] at hloc
        exact absurd rfl hloc
  next hparent =>
    rw [if_neg hparent] at hloc
    exact absurd rfl hloc

theorem frames_of_write {t' : FileTree} {c : Contents} {error : Option ApplyPatchError}
    (h : t.write (Path.join cwd path) c = some t') : Effect.Frames cwd t ⟨t', [path], error⟩ := by
  intro loc hloc
  have hnode := (FileTree.write_spec h).2 loc
  by_cases hat : loc = Path.located (Path.join cwd path)
  · exact ⟨path, List.mem_singleton_self _, .inl hat⟩
  · rw [if_neg hat] at hnode
    exact absurd hnode hloc

theorem frames_writeFile : (writeFile faults cwd t path contents).Frames cwd t := by
  unfold writeFile
  dsimp only
  split
  · split
    next h => exact frames_of_write h
    · exact frames_refl
  · exact frames_refl
  · split
    next h => exact frames_of_write h
    · exact frames_refl

theorem frames_writeNewFile : (writeNewFile faults cwd t path contents).Frames cwd t :=
  frames_createParentDirs.andThen frames_writeFile

theorem frames_removeFile : (removeFile faults cwd t context path).Frames cwd t := by
  unfold removeFile
  split
  next t' h =>
    intro loc hloc
    split at h
    · cases h
    · have hnode := (FileTree.removeFile_spec h).2.2 loc
      by_cases hat : loc = Path.located (Path.join cwd path)
      · exact ⟨path, List.mem_singleton_self _, .inl hat⟩
      · rw [if_neg hat] at hnode
        exact absurd hnode hloc
  · exact frames_refl

theorem frames_applyHunk (hunk : Hunk) : (applyHunk faults cwd t hunk).Frames cwd t := by
  cases hunk with
  | addFile path contents => exact frames_writeNewFile
  | deleteFile path => exact frames_removeFile
  | updateFile path movePath chunks =>
    rw [applyHunk]
    split
    · exact frames_refl
    · cases movePath with
      | none => exact frames_writeFile
      | some dest => exact frames_writeNewFile.andThen frames_removeFile

theorem frames_applyHunksFrom {faults : Nat → Faults} {hunks : List Hunk} {i : Nat} :
    (applyHunksFrom faults cwd i t hunks).Frames cwd t := by
  induction hunks generalizing i t with
  | nil => exact frames_refl
  | cons hunk hunks ih => exact (frames_applyHunk hunk).andThen ih

end Frames

/-! ## The footprint -/

section Footprint

variable {extract : ExtractHeredoc} {unifiedDiff : Str → Str → Str} {faults : Nat → Faults}
  {argv : List Str} {cwd : Str} {t : FileTree} {args : ApplyPatchArgs} {action : ApplyPatchAction}
  {hunks : List Hunk} {changes : Changes}

theorem collectChanges_of_verified (hparse : maybeParseApplyPatch extract argv = .body args)
    (hverify : maybeParseApplyPatchVerified extract unifiedDiff t argv cwd = .body action) :
    collectChanges unifiedDiff action.cwd t args.hunks = .ok action.changes := by
  unfold maybeParseApplyPatchVerified at hverify
  split at hverify
  · cases hverify
  · rw [hparse] at hverify
    dsimp only at hverify
    split at hverify
    next h =>
      cases hverify
      exact h
    · cases hverify

theorem touched_covered_iff (h : collectChanges unifiedDiff cwd t hunks = .ok changes) :
    (∀ p ∈ (applyHunksToFiles faults cwd t hunks).effect.touched,
        Covers changes (pathKey cwd p)) ↔
      ∀ before path dest chunks after,
        hunks = before ++ .updateFile path (some dest) chunks :: after →
          ReachesMove faults cwd t before path dest chunks →
            Named cwd hunks (pathKey cwd dest) := by
  constructor
  · rintro hall before path dest chunks after hhunks ⟨herror, original, new, hderive, htouched⟩
    refine (covers_iff h).1 (hall dest (touched_applyHunksToFiles.2 ?_))
    refine touched_applyHunksFrom.2 ⟨before, _, after, hhunks, herror, ?_⟩
    rw [Nat.zero_add]
    exact touched_applyHunk_move hderive htouched
  · intro hall p hp
    obtain ⟨before, hunk, after, hhunks, herror, htouched⟩ :=
      touched_applyHunksFrom.1 (touched_applyHunksToFiles.1 hp)
    rw [Nat.zero_add] at htouched
    refine (covers_iff h).2 ?_
    rcases touched_applyHunk htouched with rfl | ⟨path, chunks, original, new, rfl, hderive, hdest⟩
    · exact .inl ⟨hunk, by simp [hhunks], rfl⟩
    · exact hall before path p chunks after hhunks ⟨herror, original, new, hderive, hdest⟩

/-- What the changes cover is what the writable roots are checked for. -/
theorem isPathWritable_of_covers {policy : SandboxPolicy} {roots : List WritableRoot}
    {path : PathKey} (hpolicy : ∀ network, policy ≠ .externalSandbox network)
    (hfull : policy ≠ .dangerFullAccess)
    (hcheck : isWritePatchConstrainedToWritablePaths action policy roots cwd = true)
    (h : Covers action.changes path) : isPathWritable roots cwd path = true := by
  cases policy with
  | dangerFullAccess => exact absurd rfl hfull
  | externalSandbox network => exact absurd rfl (hpolicy network)
  | readOnly => cases hcheck
  | workspaceWrite =>
    have hentry := List.all_eq_true.1 hcheck
    rcases h with ⟨change, hlookup⟩ | ⟨k, diff, dest, content, hlookup, rfl⟩
    · have hall := hentry _ (AList.mem_lookup_iff.1 hlookup)
      exact (Bool.and_eq_true_iff.1 hall).1
    · have hall := hentry _ (AList.mem_lookup_iff.1 hlookup)
      exact (Bool.and_eq_true_iff.1 hall).2

/-- The changes cover what a run touches exactly if they name the move destinations it reaches. -/
theorem footprint_covered_iff (hparse : maybeParseApplyPatch extract argv = .body args)
    (hverify : maybeParseApplyPatchVerified extract unifiedDiff t argv cwd = .body action) :
    (∀ p ∈ (applyHunksToFiles faults action.cwd t args.hunks).effect.touched,
        Covers action.changes (pathKey action.cwd p)) ↔
      ∀ before path dest chunks after,
        args.hunks = before ++ .updateFile path (some dest) chunks :: after →
          ReachesMove faults action.cwd t before path dest chunks →
            Named action.cwd args.hunks (pathKey action.cwd dest) :=
  touched_covered_iff (collectChanges_of_verified hparse hverify)

end Footprint

/-- `/out`, and `/w` with a file `a`. -/
def workTree : FileTree :=
  let t := (FileTree.empty.createDirAll none [] [.normal "w"]).tree
  let t := (t.createDirAll none [] [.normal "out"]).tree
  (t.write "/w/a" (.text "x\n")).getD t

def noHeredoc : ExtractHeredoc := fun _ => .error .commandDidNotStartWithApplyPatch

def oneLineDiff (_ _ : Str) : Str := "@@ -1 +1 @@\n-x\n+y\n"

def movePatch : Str :=
  "*** Begin Patch\n*** Update File: a\n*** Move to: d/b\n@@\n-x\n+y\n*** End Patch"

def deletePatch : Str := "*** Begin Patch\n*** Delete File: a\n*** End Patch"

/-- The destination of a single move is covered. -/
theorem footprint_covered_move :
    ("d/b" : Str) ∈ (applyHunksToFiles (fun _ => Faults.none) "/w" workTree
        [.updateFile "a" (some "d/b") [⟨none, ["x"], ["y"], false⟩]]).effect.touched ∧
      Covers ((∅ : Changes).insert (pathKey "/w" "a")
        (.update "@@ -1 +1 @@\n-x\n+y\n" (some "/w/d/b") "y\n")) (pathKey "/w" "d/b") := by
  have hparse : maybeParseApplyPatch noHeredoc ["apply_patch", movePatch] =
      .body ⟨movePatch, [.updateFile "a" (some "d/b") [⟨none, ["x"], ["y"], false⟩]], none⟩ := by
    decide
  have hverify : maybeParseApplyPatchVerified noHeredoc oneLineDiff workTree
      ["apply_patch", movePatch] "/w" =
        .body ⟨(∅ : Changes).insert (pathKey "/w" "a")
          (.update "@@ -1 +1 @@\n-x\n+y\n" (some "/w/d/b") "y\n"), movePatch, "/w"⟩ := rfl
  have htouched : ("d/b" : Str) ∈ (applyHunksToFiles (fun _ => Faults.none) "/w" workTree
      [.updateFile "a" (some "d/b") [⟨none, ["x"], ["y"], false⟩]]).effect.touched := by decide
  refine ⟨htouched, (footprint_covered_iff hparse hverify).2 ?_ "d/b" htouched⟩
  rintro before path dest chunks after hhunks -
  cases before with
  | nil =>
    cases hhunks
    decide
  | cons hunk before => simp at hhunks

def moveThenAddPatch : Str :=
  ("*** Begin Patch\n*** Update File: a\n*** Move to: ../out/b\n@@\n-x\n+y\n" : Str) ++
    ("*** Add File: a\n+z\n*** End Patch" : Str)

/-- The second hunk overwrites the entry of the first: the changes pass the check for `/w`,
and the run writes `/out/b`. -/
theorem not_footprint_covered_moveThenAdd :
    let hunks : List Hunk :=
      [.updateFile "a" (some "../out/b") [⟨none, ["x"], ["y"], false⟩], .addFile "a" "z\n"]
    let run := applyHunksToFiles (fun _ => Faults.none) "/w" workTree hunks
    maybeParseApplyPatch noHeredoc ["apply_patch", moveThenAddPatch] =
        .body ⟨moveThenAddPatch, hunks, none⟩ ∧
      ∃ action, maybeParseApplyPatchVerified noHeredoc oneLineDiff workTree
          ["apply_patch", moveThenAddPatch] "/w" = .body action ∧ action.cwd = "/w" ∧
        isWritePatchConstrainedToWritablePaths action SandboxPolicy.newWorkspaceWritePolicy
          [⟨"/w", []⟩] "/w" = true ∧
        run.affected = .ok ⟨["a"], ["../out/b"], []⟩ ∧
        ("../out/b" : Str) ∈ run.effect.touched ∧
        run.effect.tree.node (["out", "b"] : List Str) = some (.file (.text "y\n")) ∧
        ¬ Covers action.changes (pathKey "/w" "../out/b") := by
  intro hunks run
  have hverify : maybeParseApplyPatchVerified noHeredoc oneLineDiff workTree
      ["apply_patch", moveThenAddPatch] "/w" =
        .body ⟨((∅ : Changes).insert (pathKey "/w" "a")
            (.update "@@ -1 +1 @@\n-x\n+y\n" (some "/w/../out/b") "y\n")).insert
          (pathKey "/w" "a") (.add "z\n"), moveThenAddPatch, "/w"⟩ := rfl
  have hparse : maybeParseApplyPatch noHeredoc ["apply_patch", moveThenAddPatch] =
      .body ⟨moveThenAddPatch, hunks, none⟩ := by decide
  refine ⟨hparse, _, hverify, rfl, by decide, by decide, by decide, by decide, ?_⟩
  rw [covers_iff (collectChanges_of_verified hparse hverify)]
  decide

end SheriMl.ApplyPatch
