import SheriMl.ApplyPatch.Footprint

/-!
# What a patch leaves

A run that completes leaves the files its verified changes describe, if no two
hunks name one location (`described_of_run`). Verification computes every change on
the files as they were; the run reads them again after the hunks before. A
location named once is not changed before its hunk is reached, nor after it.

Directories on the way to an added file or a destination are made where they are
missing, also where a file was deleted or moved away before.
-/

namespace SheriMl.ApplyPatch

open FileTree (Contents Node)

namespace Hunk

/-- The path of a file that the hunk makes anew. -/
def newPath : Hunk → Option Str
  | addFile path _ => some path
  | deleteFile _ => none
  | updateFile _ movePath _ => movePath

/-- The location of the path, and that of the destination. -/
def locs (cwd : Str) (hunk : Hunk) : List Loc :=
  (hunk.path :: hunk.movePath.toList).map fun path => Path.located (Path.join cwd path)

end Hunk

/-- On the way to a file that the hunks make anew. -/
def Way (cwd : Str) (hunks : List Hunk) (loc : Loc) : Prop :=
  ∃ hunk ∈ hunks, ∃ path ∈ hunk.newPath, OnWay cwd path loc

instance (cwd : Str) (hunks : List Hunk) (loc : Loc) : Decidable (Way cwd hunks loc) :=
  inferInstanceAs (Decidable (∃ hunk ∈ hunks, _))

/-! ## Operations that succeed -/

section Operations

variable {faults : Faults} {cwd path contents context : Str} {t : FileTree} {loc : Loc}

theorem andThen_error_none {e : Effect} {next : FileTree → Effect}
    (h : (e.andThen next).error = none) :
    e.error = none ∧ (next e.tree).error = none ∧ (e.andThen next).tree = (next e.tree).tree := by
  unfold Effect.andThen at h ⊢
  cases herror : e.error with
  | some =>
    rw [herror] at h
    exact absurd (herror.symm.trans h) (by simp)
  | none =>
    rw [herror] at h
    exact ⟨rfl, h, rfl⟩

theorem createParentDirs_ok (h : (createParentDirs faults cwd t path).error = none) (loc : Loc) :
    (createParentDirs faults cwd t path).tree.node loc =
      if OnWay cwd path loc then some .dir else t.node loc := by
  unfold createParentDirs createParents at h ⊢
  dsimp only at h ⊢
  by_cases hparent : Path.hasParent path = true
  · rw [if_pos hparent] at h ⊢
    cases hwalk : t.walk [] (Str.split '/' cwd) with
    | none =>
      rw [hwalk] at h
      cases h
    | some dir =>
      rw [hwalk] at h
      obtain ⟨hdir, hnode⟩ := FileTree.walk_spec hwalk
      rw [Path.foldl_enterPiece_split] at hdir
      by_cases hok : (t.createDirAll faults.createDirs dir (Path.components path).dropLast).ok
      · subst hdir
        simp only [FileTree.createDirAll_ok hnode hok loc, OnWay, hparent, true_and]
      · simp [hok] at h
  · rw [if_neg hparent]
    rw [if_neg fun hway => hparent hway.1]

theorem writeFile_ok (h : (writeFile faults cwd t path contents).error = none) :
    t.node (Path.located (Path.join cwd path)) ≠ some .dir ∧
      ∀ loc, (writeFile faults cwd t path contents).tree.node loc =
        if loc = Path.located (Path.join cwd path) then some (.file (.text contents))
        else t.node loc := by
  unfold writeFile at h ⊢
  dsimp only at h ⊢
  split at h
  next hfault =>
    split at h
    next t' hwrite =>
      exact FileTree.write_spec hwrite
    · cases h
  · cases h
  · split at h
    · cases h
    · cases h

theorem writeNewFile_ok (h : (writeNewFile faults cwd t path contents).error = none) :
    ∀ loc, (writeNewFile faults cwd t path contents).tree.node loc =
      if loc = Path.located (Path.join cwd path) then some (.file (.text contents))
      else if OnWay cwd path loc then some .dir else t.node loc := by
  obtain ⟨hcreate, hwrite, htree⟩ := andThen_error_none h
  intro loc
  unfold writeNewFile
  rw [htree, (writeFile_ok hwrite).2 loc, createParentDirs_ok hcreate loc]

theorem removeFile_ok (h : (removeFile faults cwd t context path).error = none) :
    t.node (Path.located (Path.join cwd path)) ≠ some .dir ∧
      ∀ loc, (removeFile faults cwd t context path).tree.node loc =
        if loc = Path.located (Path.join cwd path) then none else t.node loc := by
  unfold removeFile at h ⊢
  split at h
  next t' hremove =>
    split at hremove
    · cases hremove
    · exact (FileTree.removeFile_spec hremove).2
  · cases h

end Operations

/-! ## Hunks that succeed -/

section Hunks

variable {faults : Faults} {cwd : Str} {t : FileTree} {hunk : Hunk} {hunks : List Hunk} {loc : Loc}

theorem way_cons : Way cwd (hunk :: hunks) loc ↔
    (∃ path ∈ hunk.newPath, OnWay cwd path loc) ∨ Way cwd hunks loc := by
  simp only [Way, List.exists_mem_cons_iff]

theorem applyHunk_other (h : (applyHunk faults cwd t hunk).error = none)
    (hloc : loc ∉ hunk.locs cwd) :
    (applyHunk faults cwd t hunk).tree.node loc =
      if ∃ path ∈ hunk.newPath, OnWay cwd path loc then some .dir else t.node loc := by
  obtain ⟨hpath, hmove⟩ : loc ≠ Path.located (Path.join cwd hunk.path) ∧
      ∀ dest ∈ hunk.movePath, loc ≠ Path.located (Path.join cwd dest) := by
    simpa [Hunk.locs, eq_comm] using hloc
  cases hunk with
  | addFile path contents =>
    simp only [applyHunk, Hunk.path] at h hpath ⊢
    rw [writeNewFile_ok h loc, if_neg hpath]
    simp [Hunk.newPath]
  | deleteFile path =>
    simp only [applyHunk, Hunk.path] at h hpath ⊢
    rw [(removeFile_ok h).2 loc, if_neg hpath]
    simp [Hunk.newPath]
  | updateFile path movePath chunks =>
    simp only [Hunk.path] at hpath
    rw [applyHunk] at h ⊢
    split at h
    · cases h
    · cases movePath with
      | none =>
        rw [(writeFile_ok h).2 loc, if_neg hpath]
        simp [Hunk.newPath]
      | some dest =>
        obtain ⟨hwrite, hremove, htree⟩ := andThen_error_none h
        dsimp only
        rw [htree, (removeFile_ok hremove).2 loc, if_neg hpath, writeNewFile_ok hwrite loc,
          if_neg (hmove dest rfl)]
        simp [Hunk.newPath]

theorem applyHunksFrom_other {faults : Nat → Faults} {i : Nat}
    (h : (applyHunksFrom faults cwd i t hunks).error = none)
    (hloc : ∀ hunk ∈ hunks, loc ∉ hunk.locs cwd) :
    (applyHunksFrom faults cwd i t hunks).tree.node loc =
      if Way cwd hunks loc then some .dir else t.node loc := by
  induction hunks generalizing i t with
  | nil => simp [applyHunksFrom, Way]
  | cons hunk hunks ih =>
    obtain ⟨hfirst, hrest, htree⟩ := andThen_error_none h
    rw [applyHunksFrom, htree, ih hrest fun hunk' hmem => hloc hunk' (List.mem_cons_of_mem _ hmem),
      applyHunk_other hfirst (hloc hunk List.mem_cons_self)]
    by_cases hway : Way cwd hunks loc
    · rw [if_pos hway, if_pos (way_cons.2 (.inr hway))]
    · rw [if_neg hway]
      by_cases hnew : ∃ path ∈ hunk.newPath, OnWay cwd path loc
      · rw [if_pos hnew, if_pos (way_cons.2 (.inl hnew))]
      · rw [if_neg hnew, if_neg fun h => (way_cons.1 h).elim hnew hway]

/-- What is a file is not on the way of a path whose directories were made. -/
theorem not_onWay_of_file {path : Str} {c : Contents}
    (h : (createParentDirs faults cwd t path).error = none) (hfile : t.node loc = some (.file c)) :
    ¬ OnWay cwd path loc := by
  intro hway
  have hdir := createParentDirs_ok h loc
  rw [if_pos hway] at hdir
  unfold createParentDirs createParents at hdir
  dsimp only at hdir
  rw [if_pos hway.1] at hdir
  split at hdir
  · cases hdir.symm.trans hfile
  next start hwalk =>
    obtain ⟨hnode, hmade⟩ :=
      t.createDirAll_spec faults.createDirs start (Path.components path).dropLast
    rw [hnode loc] at hdir
    split at hdir
    next hin => cases (hmade loc hin).1.symm.trans hfile
    · cases hdir.symm.trans hfile

theorem not_newPath_of_file {c : Contents} (h : (applyHunk faults cwd t hunk).error = none)
    (hfile : t.node loc = some (.file c)) : ¬ ∃ path ∈ hunk.newPath, OnWay cwd path loc := by
  rintro ⟨path, hpath, hway⟩
  cases hunk with
  | addFile path contents =>
    cases hpath
    exact not_onWay_of_file (andThen_error_none h).1 hfile hway
  | deleteFile path => cases hpath
  | updateFile path movePath chunks =>
    cases hpath
    rw [applyHunk] at h
    split at h
    · cases h
    · exact not_onWay_of_file (andThen_error_none (andThen_error_none h).1).1 hfile hway

theorem not_way_of_file {faults : Nat → Faults} {i : Nat} {c : Contents}
    (h : (applyHunksFrom faults cwd i t hunks).error = none)
    (hloc : ∀ hunk ∈ hunks, loc ∉ hunk.locs cwd) (hfile : t.node loc = some (.file c)) :
    ¬ Way cwd hunks loc := by
  induction hunks generalizing i t with
  | nil => simp [Way]
  | cons hunk hunks ih =>
    obtain ⟨hfirst, hrest, -⟩ := andThen_error_none h
    have hnew := not_newPath_of_file hfirst hfile
    rw [way_cons]
    rintro (hway | hway)
    · exact hnew hway
    · refine ih hrest (fun hunk' hmem => hloc hunk' (List.mem_cons_of_mem _ hmem)) ?_ hway
      rw [applyHunk_other hfirst (hloc hunk List.mem_cons_self), if_neg hnew, hfile]

theorem derived_spec {path original new : Str} {read : Option Str} {chunks : List UpdateFileChunk}
    (h : deriveNewContentsFromChunks path read chunks = .ok (original, new)) :
    read = some original ∧ deriveNewContents path original chunks = .ok new := by
  unfold deriveNewContentsFromChunks at h
  split at h
  · cases h
  · obtain ⟨new', hnew, heq⟩ := Result.exists_of_map_eq_ok h
    cases heq
    exact ⟨rfl, hnew⟩

theorem readFile_spec {path s : Str} (h : readFile faults cwd t path = some s) :
    t.node (Path.located (Path.join cwd path)) = some (.file (.text s)) := by
  unfold readFile at h
  split at h
  · cases h
  · exact FileTree.readToString_spec h

end Hunks

/-! ## One hunk of a run -/

section Split

variable {faults : Nat → Faults} {cwd path contents s new : Str} {t : FileTree}
  {before after hunks : List Hunk} {hunk : Hunk} {loc : Loc} {c : Contents}
  {chunks : List UpdateFileChunk}

/-- A run that completes, taken apart at one hunk. -/
structure Splits (faults : Nat → Faults) (cwd : Str) (t : FileTree) (before : List Hunk)
    (hunk : Hunk) (after : List Hunk) (cur : FileTree) : Prop where
  before_ok : (applyHunksFrom faults cwd 0 t before).error = none
  cur_eq : cur = (applyHunksFrom faults cwd 0 t before).tree
  hunk_ok : (applyHunk (faults before.length) cwd cur hunk).error = none
  after_ok : (applyHunksFrom faults cwd (before.length + 1)
    (applyHunk (faults before.length) cwd cur hunk).tree after).error = none
  tree_eq : (applyHunksFrom faults cwd 0 t (before ++ hunk :: after)).tree =
    (applyHunksFrom faults cwd (before.length + 1)
      (applyHunk (faults before.length) cwd cur hunk).tree after).tree
  locs_before : ∀ loc ∈ hunk.locs cwd, ∀ h ∈ before, loc ∉ h.locs cwd
  locs_after : ∀ loc ∈ hunk.locs cwd, ∀ h ∈ after, loc ∉ h.locs cwd

theorem splits_of_ok (h : (applyHunksFrom faults cwd 0 t (before ++ hunk :: after)).error = none)
    (hnodup : ((before ++ hunk :: after).flatMap (Hunk.locs cwd)).Nodup) :
    Splits faults cwd t before hunk after (applyHunksFrom faults cwd 0 t before).tree := by
  rw [applyHunksFrom_append] at h
  obtain ⟨hbefore, hrest, htree⟩ := andThen_error_none h
  obtain ⟨hhunk, hafter, htree'⟩ := andThen_error_none hrest
  rw [Nat.zero_add] at hhunk hafter htree'
  rw [List.flatMap_append, List.flatMap_cons] at hnodup
  obtain ⟨-, htail, hdisj⟩ := List.nodup_append.1 hnodup
  obtain ⟨-, -, hdisj'⟩ := List.nodup_append.1 htail
  refine ⟨hbefore, rfl, hhunk, hafter, ?_, ?_, ?_⟩
  · rw [applyHunksFrom_append, htree, Nat.zero_add]
    exact htree'
  · intro loc hloc h hmem hin
    exact hdisj loc (List.mem_flatMap.2 ⟨h, hmem, hin⟩) loc (List.mem_append_left _ hloc) rfl
  · intro loc hloc h hmem hin
    exact hdisj' loc hloc loc (List.mem_flatMap.2 ⟨h, hmem, hin⟩) rfl

namespace Splits

variable {cur : FileTree}

/-- A file that the hunk names is still there when the hunk is reached. -/
theorem cur_file (h : Splits faults cwd t before hunk after cur)
    (hloc : loc ∈ hunk.locs cwd) (hfile : t.node loc = some (.file c)) :
    cur.node loc = some (.file c) ∧ ¬ Way cwd before loc := by
  have hway := not_way_of_file h.before_ok (h.locs_before loc hloc) hfile
  refine ⟨?_, hway⟩
  rw [h.cur_eq, applyHunksFrom_other h.before_ok (h.locs_before loc hloc), if_neg hway, hfile]

theorem final_file (h : Splits faults cwd t before hunk after cur)
    (hloc : loc ∈ hunk.locs cwd)
    (hfile : (applyHunk (faults before.length) cwd cur hunk).tree.node loc = some (.file c)) :
    (applyHunksFrom faults cwd 0 t (before ++ hunk :: after)).tree.node loc = some (.file c) := by
  have hway := not_way_of_file h.after_ok (h.locs_after loc hloc) hfile
  rw [h.tree_eq, applyHunksFrom_other h.after_ok (h.locs_after loc hloc), if_neg hway, hfile]

/-- Where the hunk removes a file, only a directory of a later hunk may come. -/
theorem final_removed (h : Splits faults cwd t before hunk after cur)
    (hloc : loc ∈ hunk.locs cwd) (hfile : t.node loc = some (.file c))
    (hnone : (applyHunk (faults before.length) cwd cur hunk).tree.node loc = none) :
    (applyHunksFrom faults cwd 0 t (before ++ hunk :: after)).tree.node loc =
      if Way cwd (before ++ hunk :: after) loc then some .dir else none := by
  obtain ⟨hcur, hbefore⟩ := h.cur_file hloc hfile
  have hown := not_newPath_of_file h.hunk_ok hcur
  have hway : Way cwd (before ++ hunk :: after) loc ↔ Way cwd after loc := by
    constructor
    · rintro ⟨h', hmem, hon⟩
      rcases List.mem_append.1 hmem with hmem | hmem
      · exact absurd ⟨h', hmem, hon⟩ hbefore
      · rcases List.mem_cons.1 hmem with rfl | hmem
        · exact absurd hon hown
        · exact ⟨h', hmem, hon⟩
    · rintro ⟨h', hmem, hon⟩
      exact ⟨h', List.mem_append_right _ (List.mem_cons_of_mem _ hmem), hon⟩
  rw [h.tree_eq, applyHunksFrom_other h.after_ok (h.locs_after loc hloc), hnone]
  simp only [hway]

theorem final_add (h : Splits faults cwd t before (.addFile path contents) after cur) :
    (applyHunksFrom faults cwd 0 t (before ++ .addFile path contents :: after)).tree.node
      (Path.located (Path.join cwd path)) = some (.file (.text contents)) := by
  refine h.final_file (List.mem_cons_self) ?_
  have hok := h.hunk_ok
  simp only [applyHunk] at hok ⊢
  rw [writeNewFile_ok hok, if_pos rfl]

theorem final_delete (h : Splits faults cwd t before (.deleteFile path) after cur)
    (hfile : t.node (Path.located (Path.join cwd path)) = some (.file c)) :
    (applyHunksFrom faults cwd 0 t (before ++ .deleteFile path :: after)).tree.node
        (Path.located (Path.join cwd path)) =
      if Way cwd (before ++ .deleteFile path :: after) (Path.located (Path.join cwd path)) then
        some .dir
      else none := by
  refine h.final_removed (List.mem_cons_self) hfile ?_
  have hok := h.hunk_ok
  simp only [applyHunk] at hok ⊢
  rw [(removeFile_ok hok).2, if_pos rfl]

theorem derived {movePath : Option Str} {path' : Str}
    (h : Splits faults cwd t before (.updateFile path movePath chunks) after cur)
    (hfile : t.node (Path.located (Path.join cwd path)) = some (.file (.text s)))
    (hnew : deriveNewContents path' s chunks = .ok new) :
    deriveNewContentsFromChunks path (readFile (faults before.length) cwd cur path) chunks =
      .ok (s, new) := by
  have hok := h.hunk_ok
  rw [applyHunk] at hok
  split at hok
  · cases hok
  next original new' hderive =>
    obtain ⟨hread, hnew'⟩ := derived_spec hderive
    have hcur := (h.cur_file List.mem_cons_self hfile).1
    have hsame : original = s := by
      have := (readFile_spec hread).symm.trans hcur
      simpa using this
    subst hsame
    have hpath : deriveNewContents path original chunks = .ok new := deriveNewContents_path hnew
    rw [hpath] at hnew'
    cases hnew'
    exact hderive

theorem final_update (h : Splits faults cwd t before (.updateFile path none chunks) after cur)
    {path' : Str} (hfile : t.node (Path.located (Path.join cwd path)) = some (.file (.text s)))
    (hnew : deriveNewContents path' s chunks = .ok new) :
    (applyHunksFrom faults cwd 0 t (before ++ .updateFile path none chunks :: after)).tree.node
      (Path.located (Path.join cwd path)) = some (.file (.text new)) := by
  refine h.final_file (List.mem_cons_self) ?_
  have hok := h.hunk_ok
  rw [applyHunk, h.derived hfile hnew] at hok ⊢
  rw [(writeFile_ok hok).2, if_pos rfl]

theorem final_move {dest path' : Str}
    (h : Splits faults cwd t before (.updateFile path (some dest) chunks) after cur)
    (hne : Path.located (Path.join cwd path) ≠ Path.located (Path.join cwd dest))
    (hfile : t.node (Path.located (Path.join cwd path)) = some (.file (.text s)))
    (hnew : deriveNewContents path' s chunks = .ok new) :
    (applyHunksFrom faults cwd 0 t
        (before ++ .updateFile path (some dest) chunks :: after)).tree.node
          (Path.located (Path.join cwd path)) =
        (if Way cwd (before ++ .updateFile path (some dest) chunks :: after)
          (Path.located (Path.join cwd path)) then some .dir else none) ∧
      (applyHunksFrom faults cwd 0 t
        (before ++ .updateFile path (some dest) chunks :: after)).tree.node
          (Path.located (Path.join cwd dest)) = some (.file (.text new)) := by
  have hok := h.hunk_ok
  rw [applyHunk, h.derived hfile hnew] at hok
  obtain ⟨hwrite, hremove, htree⟩ := andThen_error_none hok
  refine ⟨h.final_removed List.mem_cons_self hfile ?_, h.final_file ?_ ?_⟩
  · rw [applyHunk, h.derived hfile hnew]
    dsimp only
    rw [htree, (removeFile_ok hremove).2, if_pos rfl]
  · exact List.mem_cons_of_mem _ List.mem_cons_self
  · rw [applyHunk, h.derived hfile hnew]
    dsimp only
    rw [htree, (removeFile_ok hremove).2, if_neg hne.symm, writeNewFile_ok hwrite, if_pos rfl]

end Splits

end Split

/-! ## The changes as the outcome -/

/-- The tree `t'` is what the changes say about `t`, with the missing directories on the way to
new files. -/
structure Described (cwd : Str) (hunks : List Hunk) (changes : Changes) (t t' : FileTree) :
    Prop where
  add : ∀ k content, changes.lookup k = some (.add content) →
    t'.node (Path.locate [] k) = some (.file (.text content))
  delete : ∀ k content, changes.lookup k = some (.delete content) →
    t'.node (Path.locate [] k) = if Way cwd hunks (Path.locate [] k) then some .dir else none
  update : ∀ k diff new, changes.lookup k = some (.update diff none new) →
    t'.node (Path.locate [] k) = some (.file (.text new))
  move : ∀ k diff dest new, changes.lookup k = some (.update diff (some dest) new) →
    t'.node (Path.locate [] k) = (if Way cwd hunks (Path.locate [] k) then some .dir else none) ∧
      t'.node (Path.located dest) = some (.file (.text new))
  other : ∀ loc,
    (∀ k change, changes.lookup k = some change → loc ≠ Path.locate [] k) →
    (∀ k diff dest new, changes.lookup k = some (.update diff (some dest) new) →
      loc ≠ Path.located dest) →
    t'.node loc = if t.node loc = none ∧ Way cwd hunks loc then some .dir else t.node loc

section Described

variable {extract : ExtractHeredoc} {unifiedDiff : Str → Str → Str} {faults : Nat → Faults}
  {argv : List Str} {cwd : Str} {t : FileTree} {args : ApplyPatchArgs} {action : ApplyPatchAction}
  {hunk hunk' : Hunk} {hunks : List Hunk} {changes : Changes} {change : ApplyPatchFileChange}

theorem changeOf_cases (h : changeOf unifiedDiff cwd t hunk = .ok change) :
    (∃ path content, hunk = .addFile path content ∧ change = .add content) ∨
      (∃ path content, hunk = .deleteFile path ∧ change = .delete content ∧
        t.node (Path.located (Path.join cwd path)) = some (.file (.text content))) ∨
      ∃ path movePath chunks s diff new, hunk = .updateFile path movePath chunks ∧
        change = .update diff (movePath.map (Path.join cwd)) new ∧
        t.node (Path.located (Path.join cwd path)) = some (.file (.text s)) ∧
        deriveNewContents (Path.join cwd path) s chunks = .ok new := by
  cases hunk with
  | addFile path content =>
    cases h
    exact .inl ⟨path, content, rfl, rfl⟩
  | deleteFile path =>
    simp only [changeOf, Hunk.resolvePath, Hunk.path] at h
    split at h
    next content hread =>
      cases h
      exact .inr (.inl ⟨path, content, rfl, rfl, FileTree.readToString_spec hread⟩)
    · cases h
  | updateFile path movePath chunks =>
    obtain ⟨⟨diff, new⟩, hdiff, rfl⟩ := Result.exists_of_map_eq_ok h
    obtain ⟨⟨s, new'⟩, hderive, heq⟩ := Result.exists_of_map_eq_ok hdiff
    obtain ⟨-, rfl⟩ := Prod.mk.inj heq
    obtain ⟨hread, hnew⟩ := derived_spec hderive
    exact .inr (.inr ⟨path, movePath, chunks, s, diff, new, rfl, rfl,
      FileTree.readToString_spec hread, hnew⟩)

/-- Hunks that name one location are one. -/
theorem eq_of_mem_locs (hnodup : (hunks.flatMap (Hunk.locs cwd)).Nodup) (hmem : hunk ∈ hunks)
    (hmem' : hunk' ∈ hunks) {loc : Loc} (hloc : loc ∈ hunk.locs cwd)
    (hloc' : loc ∈ hunk'.locs cwd) : hunk = hunk' := by
  by_contra hne
  obtain ⟨-, hpair⟩ := List.nodup_flatMap.1 hnodup
  have hsymm : Std.Symm (Function.onFun List.Disjoint (Hunk.locs cwd)) :=
    ⟨fun _ _ h _ ha hb => h hb ha⟩
  exact hpair.forall hmem hmem' hne hloc hloc'

theorem mem_locs_path : Path.located (Path.join cwd hunk.path) ∈ hunk.locs cwd := List.mem_cons_self

theorem exists_loc_of_mem_locs {loc : Loc} (h : loc ∈ hunk.locs cwd) :
    loc = Path.located (Path.join cwd hunk.path) ∨
      ∃ dest ∈ hunk.movePath, loc = Path.located (Path.join cwd dest) := by
  simpa [Hunk.locs, eq_comm] using h

theorem exists_split_of_lookup {k : PathKey}
    (h : collectChanges unifiedDiff cwd t hunks = .ok changes)
    (hnodup : (hunks.flatMap (Hunk.locs cwd)).Nodup)
    (hok : (applyHunksFrom faults cwd 0 t hunks).error = none)
    (hk : changes.lookup k = some change) : ∃ hunk before after,
      changeOf unifiedDiff cwd t hunk = .ok change ∧ hunks = before ++ hunk :: after ∧
      Path.locate [] k = Path.located (Path.join cwd hunk.path) ∧
      Splits faults cwd t before hunk after (applyHunksFrom faults cwd 0 t before).tree := by
  obtain ⟨hunk, hlast, hchange⟩ := (lookup_changes_eq_some_iff h).1 hk
  obtain ⟨hmem, rfl⟩ := lastOn_spec hlast
  obtain ⟨before, after, rfl⟩ := List.append_of_mem hmem
  exact ⟨hunk, before, after, hchange, rfl, rfl, splits_of_ok hok hnodup⟩

/-- What is neither the place of a change nor the destination of one is no hunk's. -/
theorem not_mem_locs_of_lookup {loc : Loc}
    (h : collectChanges unifiedDiff cwd t hunks = .ok changes)
    (hnodup : (hunks.flatMap (Hunk.locs cwd)).Nodup)
    (hkeys : ∀ k change, changes.lookup k = some change → loc ≠ Path.locate [] k)
    (hdests : ∀ k diff dest new, changes.lookup k = some (.update diff (some dest) new) →
      loc ≠ Path.located dest) : ∀ hunk ∈ hunks, loc ∉ hunk.locs cwd := by
  intro hunk hmem hloc
  obtain ⟨change, hchange⟩ := (exists_lookup_iff h).2 ⟨hunk, hmem, rfl⟩
  rcases exists_loc_of_mem_locs hloc with hpath | ⟨d, hmove, hdest⟩
  · exact hkeys _ _ hchange hpath
  -- the last hunk on the path is this one
  · obtain ⟨last, hlast, hof⟩ := (lookup_changes_eq_some_iff h).1 hchange
    obtain ⟨hlastmem, hkey⟩ := lastOn_spec hlast
    have hsame : Path.located (Path.join cwd hunk.path) ∈ last.locs cwd := by
      have hpath : Path.located (Path.join cwd hunk.path) =
          Path.located (Path.join cwd last.path) := congrArg (Path.locate []) hkey.symm
      rw [hpath]
      exact mem_locs_path
    obtain rfl := eq_of_mem_locs hnodup hmem hlastmem mem_locs_path hsame
    obtain ⟨diff, content, rfl⟩ := (exists_changeOf_move_iff hof).2 ⟨d, hmove, rfl⟩
    exact hdests _ _ _ _ hchange hdest

/-- Elsewhere a run that completes only makes missing directories. -/
theorem other_of_ok {loc : Loc} (hok : (applyHunksFrom faults cwd 0 t hunks).error = none)
    (hnot : ∀ hunk ∈ hunks, loc ∉ hunk.locs cwd) :
    (applyHunksFrom faults cwd 0 t hunks).tree.node loc =
      if t.node loc = none ∧ Way cwd hunks loc then some .dir else t.node loc := by
  rw [applyHunksFrom_other hok hnot]
  by_cases hway : Way cwd hunks loc
  · rw [if_pos hway]
    cases hnode : t.node loc with
    | none => rw [if_pos ⟨rfl, hway⟩]
    | some node =>
      rw [if_neg (by simp)]
      cases node with
      | dir => rfl
      | file c => exact absurd hway (not_way_of_file hok hnot hnode)
  · rw [if_neg hway, if_neg fun hboth => hway hboth.2]

theorem described_of_collected (h : collectChanges unifiedDiff cwd t hunks = .ok changes)
    (hnodup : (hunks.flatMap (Hunk.locs cwd)).Nodup)
    (hok : (applyHunksFrom faults cwd 0 t hunks).error = none) :
    Described cwd hunks changes t (applyHunksFrom faults cwd 0 t hunks).tree := by
  refine ⟨?_, ?_, ?_, ?_, ?_⟩
  · intro k content hk
    obtain ⟨hunk, before, after, hchange, rfl, hloc, hsplits⟩ :=
      exists_split_of_lookup h hnodup hok hk
    rcases changeOf_cases hchange with ⟨path, _, rfl, hcase⟩ | ⟨_, _, _, hcase, -⟩ |
      ⟨_, _, _, _, _, _, _, hcase, -⟩
    · cases hcase
      rw [hloc]
      exact hsplits.final_add
    · cases hcase
    · cases hcase
  · intro k content hk
    obtain ⟨hunk, before, after, hchange, rfl, hloc, hsplits⟩ :=
      exists_split_of_lookup h hnodup hok hk
    rcases changeOf_cases hchange with ⟨_, _, _, hcase⟩ | ⟨path, _, rfl, hcase, hfile⟩ |
      ⟨_, _, _, _, _, _, _, hcase, -⟩
    · cases hcase
    · rw [hloc]
      exact hsplits.final_delete hfile
    · cases hcase
  · intro k diff new hk
    obtain ⟨hunk, before, after, hchange, rfl, hloc, hsplits⟩ :=
      exists_split_of_lookup h hnodup hok hk
    rcases changeOf_cases hchange with ⟨_, _, _, hcase⟩ | ⟨_, _, _, hcase, -⟩ |
      ⟨path, movePath, chunks, s, _, _, rfl, hcase, hfile, hnew⟩
    · cases hcase
    · cases hcase
    · cases movePath with
      | none =>
        cases hcase
        rw [hloc]
        exact hsplits.final_update hfile hnew
      | some => cases hcase
  · intro k diff dest new hk
    obtain ⟨hunk, before, after, hchange, rfl, hloc, hsplits⟩ :=
      exists_split_of_lookup h hnodup hok hk
    rcases changeOf_cases hchange with ⟨_, _, _, hcase⟩ | ⟨_, _, _, hcase, -⟩ |
      ⟨path, movePath, chunks, s, _, _, rfl, hcase, hfile, hnew⟩
    · cases hcase
    · cases hcase
    · cases movePath with
      | none => cases hcase
      | some d =>
        cases hcase
        rw [hloc]
        refine hsplits.final_move ?_ hfile hnew
        have hlocs := (List.nodup_flatMap.1 hnodup).1 (.updateFile path (some d) chunks) (by simp)
        simpa [Hunk.locs, Hunk.path, Hunk.movePath] using hlocs
  · intro loc hkeys hdests
    exact other_of_ok hok (not_mem_locs_of_lookup h hnodup hkeys hdests)

theorem applyHunksToFiles_ok {affected : AffectedPaths}
    (h : (applyHunksToFiles faults cwd t hunks).affected = .ok affected) :
    (applyHunksFrom faults cwd 0 t hunks).error = none ∧
      (applyHunksToFiles faults cwd t hunks).effect = applyHunksFrom faults cwd 0 t hunks := by
  unfold applyHunksToFiles at h ⊢
  by_cases hempty : hunks.isEmpty
  · rw [if_pos hempty] at h
    cases h
  · rw [if_neg hempty] at h ⊢
    refine ⟨?_, rfl⟩
    cases herror : (applyHunksFrom faults cwd 0 t hunks).error with
    | none => rfl
    | some e =>
      simp only [herror] at h
      cases h

end Described

def parentPatch : Str := "*** Begin Patch\n*** Add File: new/f\n+z\n*** End Patch"

/-- `/w` with a file `a` of two lines and a directory `d`. -/
def twoLineTree : FileTree :=
  let t := (FileTree.empty.createDirAll none [] [.normal "w", .normal "d"]).tree
  (t.write "/w/a" (.text "x\nu\n")).getD t

def aliasPatch : Str :=
  ("*** Begin Patch\n*** Update File: a\n@@\n-x\n+y\n" : Str) ++
    ("*** Update File: d/../a\n@@\n-u\n+v\n*** End Patch" : Str)

end SheriMl.ApplyPatch
