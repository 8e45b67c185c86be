import SheriMl.State.Backfill

/-!
# Runs of the backfill

What a backfill that is complete has written. Of a rollout that stays where it is, no watermark comes
to lie past it before its upsert (`Kept`), neither in the database nor with any worker (`Covers`).
-/

namespace SheriMl.State

open Pool Transition
open ThreadList (Formats OffsetDateTime PathBuf)

variable (fmt : Formats) (texts : EnumTexts) (defaultProvider : Str)

/-! ## A rollout that stays where it is -/

/-- A rollout that can be parsed is at the path, and no other file has its watermark. -/
structure Files.Holds (files : Files) (path : PathBuf) : Prop where
  parsed : (files.extract fmt texts defaultProvider path none).isSome
  inTree : ∃ root dir name, root ∈ backfillRoots ∧ path = root.1 :: (dir ++ [name]) ∧
    isRolloutName name = true
  own : ∀ other, files.isFile other = true →
    backfillWatermarkForPath other = backfillWatermarkForPath path → other = path

/-- Metadata of a rollout as it was at some moment, with whatever time of archiving. -/
def IsMetadata (path : PathBuf) (metadata : ThreadMetadata) : Prop :=
  ∃ items modified m archivedAt,
    extractMetadata fmt texts defaultProvider items path modified = some m ∧
    metadata = m.withArchivedAt archivedAt

/-- The metadata of the rollout has been upserted, or would have been if the statement had not
failed. -/
def Tried (path : PathBuf) (past : List (Option BackfillEvent)) : Prop :=
  ∃ metadata ok, IsMetadata fmt texts defaultProvider path metadata ∧
    some (.upserted path metadata ok) ∈ past

/-- A watermark that is not below that of the rollout comes after its upsert. -/
def Below (path : PathBuf) (past : List (Option BackfillEvent)) (watermark : Option Str) : Prop :=
  ∀ w, watermark = some w → backfillWatermarkForPath path ≤ w →
    Tried fmt texts defaultProvider path past

def Listed (path : PathBuf) (entries : List BackfillRolloutPath) : Prop :=
  ∃ e ∈ entries, e.path = path

/-- Only the entry of the rollout has its watermark. -/
def Own (path : PathBuf) (entries : List BackfillRolloutPath) : Prop :=
  ∀ e ∈ entries, e.path = path ↔ e.watermark = backfillWatermarkForPath path

/-- The rollout is found, or in a tree that is yet to be read, or in a directory on the stack. -/
def Reached (path : PathBuf) (stack : List PathBuf) (roots : List (Str × Bool))
    (found : List BackfillRolloutPath) : Prop :=
  Listed path found ∨ (∃ root ∈ roots, ∃ rest, rest ≠ [] ∧ path = root.1 :: rest) ∨
    ∃ dir ∈ stack, ∃ rest, rest ≠ [] ∧ path = dir ++ rest

/-- What holds of the batches that follow. -/
structure Later (path : PathBuf) (past : List (Option BackfillEvent))
    (batches : List (List BackfillRolloutPath)) (lastWatermark : Option Str) : Prop where
  sorted : batches.flatten.Pairwise fun a b => a.watermark ≤ b.watermark
  own : Own path batches.flatten
  below : Below fmt texts defaultProvider path past lastWatermark

/-- What holds in a batch of which the entries `rest` are left. -/
structure InBatch (path : PathBuf) (past : List (Option BackfillEvent))
    (rest : List BackfillRolloutPath) (info : BatchInfo) : Prop where
  later : Later fmt texts defaultProvider path past info.batches info.lastWatermark
  ahead : Tried fmt texts defaultProvider path past ∨ Listed path rest ∨
    Listed path info.batches.flatten
  last_le : ∀ w, info.last = some w → ∀ e ∈ info.batches.flatten, w ≤ e.watermark
  last_own : info.last = some (backfillWatermarkForPath path) →
    Tried fmt texts defaultProvider path past ∨ Listed path rest

/-- No worker passes the rollout by. -/
def Covers (path : PathBuf) (past : List (Option BackfillEvent)) : BackfillCall → Prop
  | .starting | .claiming | .claimed | .others => True
  | .marking start => Below fmt texts defaultProvider path past start
  | .collecting stack _ roots start found =>
    Below fmt texts defaultProvider path past start ∧ Own path found ∧
      Reached path stack roots found
  | .batching batches lastWatermark =>
    Later fmt texts defaultProvider path past batches lastWatermark ∧
      (Tried fmt texts defaultProvider path past ∨ Listed path batches.flatten)
  | .scanning rest info => InBatch fmt texts defaultProvider path past rest info
  | .upserting entry metadata rest info =>
    IsMetadata fmt texts defaultProvider entry.path metadata ∧
      InBatch fmt texts defaultProvider path past (entry :: rest) info

/-- The database does not pass the rollout by. -/
structure Kept (path : PathBuf) (past : List (Option BackfillEvent)) (s : Store) : Prop where
  below : Below fmt texts defaultProvider path past s.state.lastWatermark
  complete : s.state.status = .complete → Tried fmt texts defaultProvider path past

section

variable {fmt texts defaultProvider} {path : PathBuf} {past : List (Option BackfillEvent)}
  {l : Option BackfillEvent} {files : Files} {s s' : Store} {info : BatchInfo}
  {rest found es es' : List BackfillRolloutPath} {e : BackfillRolloutPath}

/-! ### Later events -/

theorem Tried.mono (h : Tried fmt texts defaultProvider path past) :
    Tried fmt texts defaultProvider path (past ++ [l]) := by
  obtain ⟨metadata, ok, hm, hmem⟩ := h
  exact ⟨metadata, ok, hm, List.mem_append_left _ hmem⟩

theorem Below.mono {watermark : Option Str} (h : Below fmt texts defaultProvider path past watermark) :
    Below fmt texts defaultProvider path (past ++ [l]) watermark :=
  fun w hw hle => (h w hw hle).mono

theorem Below.of_tried {watermark : Option Str} (h : Tried fmt texts defaultProvider path past) :
    Below fmt texts defaultProvider path past watermark :=
  fun _ _ _ => h

theorem Below.none : Below fmt texts defaultProvider path past none := by
  rintro w ⟨⟩

theorem Later.mono {batches : List (List BackfillRolloutPath)} {lastWatermark : Option Str}
    (h : Later fmt texts defaultProvider path past batches lastWatermark) :
    Later fmt texts defaultProvider path (past ++ [l]) batches lastWatermark :=
  ⟨h.sorted, h.own, h.below.mono⟩

theorem InBatch.mono (h : InBatch fmt texts defaultProvider path past rest info) :
    InBatch fmt texts defaultProvider path (past ++ [l]) rest info :=
  ⟨h.later.mono, h.ahead.imp_left Tried.mono, h.last_le,
    fun hlast => (h.last_own hlast).imp_left Tried.mono⟩

theorem Covers.mono {k : BackfillCall} (h : Covers fmt texts defaultProvider path past k) :
    Covers fmt texts defaultProvider path (past ++ [l]) k := by
  cases k with
  | starting | claiming | claimed | others => trivial
  | marking => exact Below.mono h
  | collecting => exact ⟨h.1.mono, h.2⟩
  | batching => exact ⟨h.1.mono, h.2.imp_left Tried.mono⟩
  | scanning => exact InBatch.mono h
  | upserting => exact ⟨h.1, h.2.mono⟩

theorem Kept.mono (h : Kept fmt texts defaultProvider path past s) :
    Kept fmt texts defaultProvider path (past ++ [l]) s :=
  ⟨h.below.mono, fun hs => (h.complete hs).mono⟩

/-! ### Reading the trees -/

theorem Files.isSome_of_append {dir rest : PathBuf} (h : (files.node (dir ++ rest)).isSome) :
    (files.node dir).isSome := by
  induction rest using List.reverseRecOn with
  | nil => rwa [List.append_nil] at h
  | append_singleton rest name ih =>
    rw [← List.append_assoc] at h
    refine ih ?_
    rw [files.parent_dir _ _ h]
    rfl

theorem Files.isDir_of_append {dir rest : PathBuf} {name : Str}
    (h : (files.node (dir ++ name :: rest)).isSome) : files.isDir dir = true := by
  rw [List.append_cons] at h
  rw [Files.isDir, files.parent_dir dir name (isSome_of_append h)]

theorem Files.Holds.isFile (h : files.Holds fmt texts defaultProvider path) :
    files.isFile path = true := by
  have hparsed := h.parsed
  rw [Files.extract] at hparsed
  split at hparsed
  next hnode => rw [Files.isFile, hnode]
  all_goals cases hparsed

theorem Files.Holds.isSome (h : files.Holds fmt texts defaultProvider path) :
    (files.node path).isSome := by
  have hfile := h.isFile
  rw [Files.isFile] at hfile
  split at hfile
  next hnode =>
    rw [hnode]
    rfl
  all_goals cases hfile

theorem Files.Holds.isRolloutName (h : files.Holds fmt texts defaultProvider path)
    {dir : PathBuf} {name : Str} (hpath : path = dir ++ [name]) : isRolloutName name = true := by
  obtain ⟨root, dir', name', -, hpath', hname⟩ := h.inTree
  rw [hpath, ← List.cons_append] at hpath'
  obtain ⟨-, hlast⟩ := List.append_inj' hpath' rfl
  rw [(List.cons.inj hlast).1]
  exact hname

/-- Whether the rollout can be parsed does not depend on the time of its last change. -/
theorem Files.Holds.extract_ne_none (h : files.Holds fmt texts defaultProvider path)
    (modified : Option OffsetDateTime) :
    files.extract fmt texts defaultProvider path modified ≠ none := by
  have hparsed := h.parsed
  rw [Files.extract] at hparsed ⊢
  split at hparsed
  next items hnode =>
    rw [extractMetadata] at hparsed ⊢
    split at hparsed
    next => cases hparsed
    next hitems =>
      rw [Option.isSome_map] at hparsed
      rw [if_neg hitems, ne_eq, Option.map_eq_none_iff]
      exact Option.isSome_iff_ne_none.1 hparsed
  all_goals cases hparsed

theorem Own.append (h : Own path es) (h' : Own path es') : Own path (es ++ es') :=
  List.forall_mem_append.2 ⟨h, h'⟩

/-- What a directory adds. -/
theorem Files.Holds.own_rolloutsIn (h : files.Holds fmt texts defaultProvider path)
    {dir : PathBuf} {names : List Str} {archived : Bool} :
    Own path ((rolloutsIn files dir names).map (backfillRolloutPath archived)) := by
  intro e he
  obtain ⟨other, hother, rfl⟩ := List.mem_map.1 he
  have hfile : files.isFile other = true := (List.mem_filter.1 hother).2
  exact ⟨fun hpath => congrArg backfillWatermarkForPath hpath, h.own other hfile⟩

theorem mem_rolloutsIn {dir : PathBuf} {names : List Str} {name : Str} (hname : name ∈ names)
    (hrollout : isRolloutName name = true) (hfile : files.isFile (dir ++ [name]) = true) :
    dir ++ [name] ∈ rolloutsIn files dir names :=
  List.mem_filter.2 ⟨List.mem_map_of_mem (List.mem_filter.2 ⟨hname, hrollout⟩), hfile⟩

theorem mem_subdirs {dir : PathBuf} {names : List Str} {name : Str} (hname : name ∈ names)
    (hdir : files.isDir (dir ++ [name]) = true) : dir ++ [name] ∈ subdirs files dir names :=
  List.mem_filter.2 ⟨List.mem_map_of_mem hname, hdir⟩

theorem Listed.append_left (h : Listed path es) : Listed path (es ++ es') := by
  obtain ⟨e, he, hpath⟩ := h
  exact ⟨e, List.mem_append_left _ he, hpath⟩

/-- A directory that is read leads to the rollout: to its file, or to the next directory. -/
theorem Reached.directory {dir : PathBuf} {stack : List PathBuf} {roots : List (Str × Bool)}
    {archived : Bool} {names : List Str} (hholds : files.Holds fmt texts defaultProvider path)
    (hlists : files.Lists dir names) (h : Reached path (dir :: stack) roots found) :
    Reached path ((subdirs files dir names).reverse ++ stack) roots
      (found ++ (rolloutsIn files dir names).map (backfillRolloutPath archived)) := by
  obtain hfound | hroot | ⟨dir', hdir', rest, hrest, hpath⟩ := h
  · exact .inl hfound.append_left
  · exact .inr (.inl hroot)
  · obtain rfl | hmem := List.mem_cons.1 hdir'
    · obtain ⟨name, rest, rfl⟩ := List.exists_cons_of_ne_nil hrest
      have hsome := hholds.isSome
      rw [hpath, List.append_cons] at hsome
      have hname : name ∈ names := (hlists.mem_iff name).2 (Files.isSome_of_append hsome)
      cases rest with
      | nil =>
        have hfile := hholds.isFile
        rw [hpath] at hfile
        have hmem := mem_rolloutsIn hname (hholds.isRolloutName hpath) hfile
        exact .inl ⟨backfillRolloutPath archived (dir' ++ [name]),
          List.mem_append_right _ (List.mem_map_of_mem hmem), hpath.symm⟩
      | cons next rest =>
        have hmem := mem_subdirs hname (Files.isDir_of_append hsome)
        refine .inr (.inr ⟨dir' ++ [name], ?_, next :: rest, by simp, ?_⟩)
        · exact List.mem_append_left _ (List.mem_reverse.2 hmem)
        · rw [hpath, List.append_cons]
    · exact .inr (.inr ⟨dir', List.mem_append_right _ hmem, rest, hrest, hpath⟩)

theorem Reached.noDirectory {dir : PathBuf} {stack : List PathBuf} {roots : List (Str × Bool)}
    (hholds : files.Holds fmt texts defaultProvider path) (hdir : files.isDir dir = false)
    (h : Reached path (dir :: stack) roots found) : Reached path stack roots found := by
  obtain hfound | hroot | ⟨dir', hdir', rest, hrest, hpath⟩ := h
  · exact .inl hfound
  · exact .inr (.inl hroot)
  · obtain rfl | hmem := List.mem_cons.1 hdir'
    · obtain ⟨name, rest, rfl⟩ := List.exists_cons_of_ne_nil hrest
      have hsome := hholds.isSome
      rw [hpath] at hsome
      rw [Files.isDir_of_append hsome] at hdir
      cases hdir
    · exact .inr (.inr ⟨dir', hmem, rest, hrest, hpath⟩)

theorem Reached.root {root : Str} {archived : Bool} {roots : List (Str × Bool)}
    (h : Reached path [] ((root, archived) :: roots) found) : Reached path [[root]] roots found := by
  obtain hfound | ⟨root', hroot, rest, hrest, hpath⟩ | ⟨dir, hdir, -⟩ := h
  · exact .inl hfound
  · obtain rfl | hmem := List.mem_cons.1 hroot
    · exact .inr (.inr ⟨[root], List.mem_singleton_self _, rest, hrest, hpath⟩)
    · exact .inr (.inl ⟨root', hmem, rest, hrest, hpath⟩)
  · cases hdir

theorem Reached.noRoot {root : Str} {archived : Bool} {roots : List (Str × Bool)}
    (hholds : files.Holds fmt texts defaultProvider path) (hroot : files.node [root] = none)
    (h : Reached path [] ((root, archived) :: roots) found) : Reached path [] roots found := by
  obtain hfound | ⟨root', hmem, rest, hrest, hpath⟩ | ⟨dir, hdir, -⟩ := h
  · exact .inl hfound
  · obtain rfl | hmem := List.mem_cons.1 hmem
    · have hsome := hholds.isSome
      rw [hpath, ← List.singleton_append] at hsome
      exact absurd hroot (Option.isSome_iff_ne_none.1 (Files.isSome_of_append hsome))
    · exact .inr (.inl ⟨root', hmem, rest, hrest, hpath⟩)
  · cases hdir

/-! ### Batches -/

theorem flatten_batchesOf : (batchesOf es).flatten = es := by
  induction es using batchesOf.induct with
  | case1 =>
    rw [batchesOf]
    rfl
  | case2 e es ih =>
    rw [batchesOf, List.flatten_cons, ih, List.cons_append, List.take_append_drop]

theorem mem_remainingRollouts {lastWatermark : Option Str} :
    e ∈ remainingRollouts lastWatermark es ↔
      e ∈ es ∧ ∀ last, lastWatermark = some last → last < e.watermark := by
  cases lastWatermark with
  | none => simp [remainingRollouts]
  | some last => simp [remainingRollouts]

theorem pairwise_remainingRollouts (lastWatermark : Option Str) :
    (remainingRollouts lastWatermark es).Pairwise fun a b => a.watermark ≤ b.watermark := by
  have hsorted : (es.mergeSort fun a b => decide (a.watermark ≤ b.watermark)).Pairwise
      fun a b => a.watermark ≤ b.watermark := by
    refine (List.pairwise_mergeSort ?_ ?_ es).imp of_decide_eq_true
    · intro a b c hab hbc
      exact decide_eq_true ((of_decide_eq_true hab).trans (of_decide_eq_true hbc))
    · intro a b
      simpa using le_total a.watermark b.watermark
  cases lastWatermark with
  | none => exact hsorted
  | some last => exact hsorted.filter _

/-- A worker starts on batches that hold the rollout, unless it comes before the last watermark. -/
theorem Covers.collected {start : Option Str}
    (hbelow : Below fmt texts defaultProvider path past start) (hown : Own path found)
    (h : Reached path [] [] found) :
    Covers fmt texts defaultProvider path past
      (.batching (batchesOf (remainingRollouts start found)) start) := by
  have hlisted : Listed path found := by
    obtain hfound | ⟨root, hroot, -⟩ | ⟨dir, hdir, -⟩ := h
    · exact hfound
    · cases hroot
    · cases hdir
  rw [Covers, flatten_batchesOf]
  refine ⟨⟨?_, ?_, hbelow⟩, ?_⟩
  · rw [flatten_batchesOf]
    exact pairwise_remainingRollouts start
  · rw [flatten_batchesOf]
    exact fun e he => hown e (mem_remainingRollouts.1 he).1
  · obtain ⟨e, he, hpath⟩ := hlisted
    by_cases htried : Tried fmt texts defaultProvider path past
    · exact .inl htried
    · refine .inr ⟨e, mem_remainingRollouts.2 ⟨he, fun last hlast => ?_⟩, hpath⟩
      rw [(hown e he).1 hpath]
      by_contra hle
      exact htried (hbelow last hlast (not_lt.1 hle))

theorem Listed.of_cons (h : Listed path (e :: es)) : e.path = path ∨ Listed path es := by
  obtain ⟨e', he, hpath⟩ := h
  obtain rfl | hmem := List.mem_cons.1 he
  · exact .inl hpath
  · exact .inr ⟨e', hmem, hpath⟩

/-- The first batch is taken up. -/
theorem InBatch.of_batching {batch : List BackfillRolloutPath}
    {batches : List (List BackfillRolloutPath)} {lastWatermark : Option Str}
    (h : Later fmt texts defaultProvider path past (batch :: batches) lastWatermark)
    (hlisted : Tried fmt texts defaultProvider path past ∨ Listed path (batch :: batches).flatten) :
    InBatch fmt texts defaultProvider path past batch
      ⟨batch.getLast?.map BackfillRolloutPath.watermark, batches, lastWatermark⟩ := by
  have hsorted := h.sorted
  rw [List.flatten_cons, List.pairwise_append] at hsorted
  have hown : Own path (batch ++ batches.flatten) := by
    rw [← List.flatten_cons]
    exact h.own
  refine ⟨⟨hsorted.2.1, fun e he => hown e (List.mem_append_right _ he), h.below⟩, ?_, ?_, ?_⟩
  · refine hlisted.imp_right fun hlisted => ?_
    obtain ⟨e, he, hpath⟩ := hlisted
    rw [List.flatten_cons] at he
    exact (List.mem_append.1 he).imp (fun he => ⟨e, he, hpath⟩) fun he => ⟨e, he, hpath⟩
  · intro w hw e he
    obtain ⟨last, hlast, rfl⟩ := Option.map_eq_some_iff.1 hw
    exact hsorted.2.2 last (List.mem_of_getLast? hlast) e he
  · intro hw
    obtain ⟨last, hlast, hwatermark⟩ := Option.map_eq_some_iff.1 hw
    have hmem := List.mem_of_getLast? hlast
    exact .inr ⟨last, hmem, (hown last (List.mem_append_left _ hmem)).2 hwatermark⟩

/-- An entry is passed. -/
theorem InBatch.of_cons (h : InBatch fmt texts defaultProvider path past (e :: rest) info)
    (he : e.path = path → Tried fmt texts defaultProvider path past) :
    InBatch fmt texts defaultProvider path past rest info := by
  have hpass : Listed path (e :: rest) →
      Tried fmt texts defaultProvider path past ∨ Listed path rest :=
    fun hlisted => hlisted.of_cons.imp_left he
  refine ⟨h.later, ?_, h.last_le, fun hlast => ?_⟩
  · obtain htried | hlisted | hlisted := h.ahead
    · exact .inl htried
    · exact (hpass hlisted).imp_right .inl
    · exact .inr (.inr hlisted)
  · obtain htried | hlisted := h.last_own hlast
    · exact .inl htried
    · exact hpass hlisted

theorem not_listed_nil : ¬ Listed path [] := by
  rintro ⟨e, he, -⟩
  cases he

/-- At the end of a batch the rollout has been upserted, or is in a later one. -/
theorem InBatch.tried_or_listed (h : InBatch fmt texts defaultProvider path past [] info) :
    Tried fmt texts defaultProvider path past ∨ Listed path info.batches.flatten := by
  obtain htried | hlisted | hlisted := h.ahead
  · exact .inl htried
  · exact absurd hlisted not_listed_nil
  · exact .inr hlisted

/-- At the end of a batch its last watermark may be written. -/
theorem InBatch.below_last (h : InBatch fmt texts defaultProvider path past [] info) {w : Str}
    (hw : info.last = some w) : Below fmt texts defaultProvider path past (some w) := by
  rintro _ ⟨⟩ hle
  obtain htried | ⟨e, he, hpath⟩ := h.tried_or_listed
  · exact htried
  · have hwatermark := (h.later.own e he).1 hpath
    have heq : w = backfillWatermarkForPath path :=
      le_antisymm (hwatermark ▸ h.last_le w hw e he) hle
    obtain htried | hlisted := h.last_own (heq ▸ hw)
    · exact htried
    · exact absurd hlisted not_listed_nil

/-! ### Steps -/

theorem isMetadata_metadata {items : List RolloutItem} {modified modified' : Option OffsetDateTime}
    {m : ThreadMetadata}
    (h : extractMetadata fmt texts defaultProvider items e.path modified = some m) :
    IsMetadata fmt texts defaultProvider e.path (e.metadata modified' m) := by
  rw [BackfillRolloutPath.metadata]
  split
  · exact ⟨items, modified, m, _, h, rfl⟩
  · exact ⟨items, modified, m, m.archivedAt, h, rfl⟩

theorem isMetadata_of_extract {modified modified' : Option OffsetDateTime} {m : ThreadMetadata}
    (h : files.extract fmt texts defaultProvider e.path modified = some m) :
    IsMetadata fmt texts defaultProvider e.path (e.metadata modified' m) := by
  rw [Files.extract] at h
  split at h
  · exact isMetadata_metadata h
  all_goals cases h

theorem Kept.running {state : BackfillState}
    (hbelow : Below fmt texts defaultProvider path past state.lastWatermark)
    (hs : s.state = { state with status := .running }) :
    Kept fmt texts defaultProvider path past s := by
  refine ⟨?_, fun hcomplete => ?_⟩
  · rw [hs]
    exact hbelow
  · rw [hs] at hcomplete
    cases hcomplete

theorem Kept.one {k : BackfillCall} (h : Kept fmt texts defaultProvider path past s)
    (hk : Covers fmt texts defaultProvider path past k) :
    Kept fmt texts defaultProvider path (past ++ [l]) s ∧
      ∀ k' ∈ ({k} : Multiset BackfillCall), Covers fmt texts defaultProvider path (past ++ [l]) k' :=
  ⟨h.mono, fun _ hk' => Multiset.mem_singleton.1 hk' ▸ hk.mono⟩

theorem Kept.ended (h : Kept fmt texts defaultProvider path past s) :
    Kept fmt texts defaultProvider path (past ++ [l]) s ∧
      ∀ k' ∈ (0 : Multiset BackfillCall), Covers fmt texts defaultProvider path (past ++ [l]) k' :=
  ⟨h.mono, fun _ hk' => absurd hk' (Multiset.notMem_zero _)⟩

theorem covers_collect {start : Option Str} (hholds : files.Holds fmt texts defaultProvider path)
    (h : Below fmt texts defaultProvider path past start) :
    Covers fmt texts defaultProvider path past (.collect start) := by
  obtain ⟨root, dir, name, hroot, hpath, -⟩ := hholds.inTree
  refine ⟨h, ?_, .inr (.inl ⟨root, hroot, dir ++ [name], by simp, hpath⟩)⟩
  rintro e ⟨⟩

theorem Store.tryClaimBackfill_spec {now : Int} (h : s.tryClaimBackfill now = some s') :
    s.state.status ≠ .complete ∧ s'.state = { s.state with status := .running } ∧
      s'.files = s.files := by
  rw [Store.tryClaimBackfill] at h
  split at h
  next hclaim =>
    cases h
    exact ⟨hclaim.1, rfl, rfl⟩
  next => cases h

/-- One step, while the rollout is where it is. -/
theorem Kept.step {k : BackfillCall} {e : BackfillEvent} {ks : Multiset BackfillCall}
    (hstep : BackfillStep fmt texts defaultProvider s k e s' ks)
    (hholds : s.files.Holds fmt texts defaultProvider path)
    (h : Kept fmt texts defaultProvider path past s)
    (hk : Covers fmt texts defaultProvider path past k) :
    Kept fmt texts defaultProvider path (past ++ [some e]) s' ∧
      ∀ k' ∈ ks, Covers fmt texts defaultProvider path (past ++ [some e]) k' := by
  cases hstep with
  | changed files => exact Kept.one (s := s.withFiles files) ⟨h.below, h.complete⟩ hk
  | notComplete | readFailed => exact h.one trivial
  | alreadyComplete | notClaimed | dropped => exact h.ended
  | claim now hclaim =>
    exact Kept.one (.running h.below (Store.tryClaimBackfill_spec hclaim).2.1) trivial
  | running => exact h.one (covers_collect hholds h.below)
  | notRunning => exact h.one h.below
  | rereadFailed => exact h.one (covers_collect hholds .none)
  | marked now => exact Kept.one (.running h.below rfl) (covers_collect hholds hk)
  | notMarked => exact h.one (covers_collect hholds hk)
  | root => exact h.one ⟨hk.1, hk.2.1, hk.2.2.root⟩
  | noRoot hroot => exact h.one ⟨hk.1, hk.2.1, hk.2.2.noRoot hholds hroot⟩
  | directory hdir hlists =>
    exact h.one ⟨hk.1, hk.2.1.append hholds.own_rolloutsIn, hk.2.2.directory hholds hlists⟩
  | noDirectory hdir => exact h.one ⟨hk.1, hk.2.1, hk.2.2.noDirectory hholds hdir⟩
  | collected => exact h.one (.collected hk.1 hk.2.1 hk.2.2)
  | batch => exact h.one (InBatch.of_batching hk.1 hk.2)
  | extracted modified modified' hextract => exact h.one ⟨isMetadata_of_extract hextract, hk⟩
  | notExtracted modified hextract =>
    refine h.one (InBatch.of_cons hk fun hpath => ?_)
    rw [hpath] at hextract
    exact absurd hextract (hholds.extract_ne_none modified)
  | upsert ok =>
    refine ⟨h.mono, fun k' hk' => ?_⟩
    rw [Multiset.mem_singleton.1 hk']
    refine InBatch.of_cons hk.2.mono fun hpath => ?_
    subst hpath
    exact ⟨_, ok, hk.1, List.mem_append_right _ (List.mem_singleton_self _)⟩
  | noLast | notCheckpointed =>
    have hbatch : InBatch fmt texts defaultProvider path past [] _ := hk
    exact h.one ⟨hbatch.later, hbatch.tried_or_listed⟩
  | checkpoint now hlast =>
    have hbatch : InBatch fmt texts defaultProvider path past [] _ := hk
    have hbelow := hbatch.below_last hlast
    refine Kept.one ⟨hbelow, fun hcomplete => by cases hcomplete⟩
      ⟨⟨hbatch.later.sorted, hbatch.later.own, hbelow⟩, hbatch.tried_or_listed⟩
  | complete now =>
    have htried : Tried fmt texts defaultProvider path past := by
      obtain htried | hlisted := hk.2
      · exact htried
      · exact absurd hlisted not_listed_nil
    exact Kept.ended ⟨.of_tried htried, fun _ => htried⟩

/-! ### Runs -/

/-- A worker that has not claimed the backfill, or that has only to mark it complete. -/
def BackfillCall.Idle : BackfillCall → Prop
  | .starting | .claiming | .others => True
  | .batching batches _ => batches = []
  | .claimed | .marking _ | .collecting .. | .scanning .. | .upserting .. => False

variable {c c' : Config Store BackfillCall} {ls : List (Option BackfillEvent)}

theorem watermarkKept_of_run (hstate : c.shared.state = .default) (hcalls : c.calls = 0)
    (h : Run (backfillStepWhile fmt texts defaultProvider
      fun files => files.Holds fmt texts defaultProvider path) c ls c') :
    Kept fmt texts defaultProvider path ls c'.shared := by
  have hinit : Kept fmt texts defaultProvider path [] c.shared := by
    rw [BackfillState.default] at hstate
    refine ⟨?_, fun hcomplete => ?_⟩
    · rw [hstate]
      exact .none
    · rw [hstate] at hcomplete
      cases hcomplete
  have hnone : ∀ k ∈ c.calls, Covers fmt texts defaultProvider path [] k := by
    rw [hcalls]
    exact fun k hk => absurd hk (Multiset.notMem_zero k)
  refine (h.history (I := fun past c => Kept fmt texts defaultProvider path past c.shared ∧
    ∀ k ∈ c.calls, Covers fmt texts defaultProvider path past k) ?_ [] ⟨hinit, hnone⟩).1
  rintro past c l c' hI ⟨hholds, hstep⟩
  refine Step.history (I := Kept fmt texts defaultProvider path)
    (J := fun past _ k => Covers fmt texts defaultProvider path past k)
    ?_ Covers.mono ?_ (fun _ => Covers.mono)
    (Step.restrict (P := fun s => s.files.Holds fmt texts defaultProvider path) hstep hholds) hI
  · rintro past s k hk hkept
    cases hk with
    | worker | others => exact ⟨hkept.mono, trivial⟩
  · rintro past s k l s' ks' ⟨hholds, hop⟩ hkept hk
    exact hkept.step hop hholds hk

theorem status_ne_pending (h : Run (backfillStep fmt texts defaultProvider) c ls c')
    (hs : c.shared.state.status ≠ .pending) : c'.shared.state.status ≠ .pending := by
  refine h.invariant (I := fun c => c.shared.state.status ≠ .pending) ?_ hs
  rintro c l c' hne hstep
  cases hstep with
  | start => exact hne
  | call hop =>
    cases hop with
    | claim now hclaim =>
      rw [(Store.tryClaimBackfill_spec hclaim).2.1]
      simp
    | marked | checkpoint | complete =>
      simp [Store.markBackfillRunning, Store.checkpointBackfill, Store.markBackfillComplete]
    | changed | notComplete | alreadyComplete | readFailed | notClaimed | running | notRunning
    | rereadFailed | notMarked | root | noRoot | directory | noDirectory | collected | batch
    | extracted | notExtracted | upsert | noLast | notCheckpointed | dropped => exact hne

theorem complete_of_run (h : Run (backfillStep fmt texts defaultProvider) c ls c')
    (hs : c.shared.state.status = .complete) (hidle : ∀ k ∈ c.calls, k.Idle) :
    c'.shared.state.status = .complete := by
  refine (h.invariant (I := fun c => c.shared.state.status = .complete ∧ ∀ k ∈ c.calls, k.Idle)
    ?_ ⟨hs, hidle⟩).1
  rintro c l c' hI hstep
  refine Step.preserves (I := fun s => s.state.status = .complete) (J := BackfillCall.Idle)
    ?_ ?_ hstep hI
  · rintro k hk
    cases hk with
    | worker | others => trivial
  · rintro s k l s' ks' hop hcomplete hk
    have hend : ∀ k ∈ (0 : Multiset BackfillCall), k.Idle :=
      fun k hk => absurd hk (Multiset.notMem_zero k)
    have hone {k : BackfillCall} (hk : k.Idle) : ∀ k' ∈ ({k} : Multiset BackfillCall), k'.Idle :=
      fun k' hk' => Multiset.mem_singleton.1 hk' ▸ hk
    cases hop with
    | changed | notComplete | readFailed => exact ⟨hcomplete, hone trivial⟩
    | alreadyComplete | notClaimed | dropped => exact ⟨hcomplete, hend⟩
    | claim now hclaim => exact absurd hcomplete (Store.tryClaimBackfill_spec hclaim).1
    | complete => exact ⟨rfl, hend⟩
    | batch => cases hk
    | running | notRunning | rereadFailed | marked | notMarked | root | noRoot | directory
    | noDirectory | collected | extracted | notExtracted | upsert | noLast | checkpoint
    | notCheckpointed => exact absurd hk id

/-- When the backfill is complete, every rollout that has stayed at one path has had its metadata
upserted, or would have had it if the statement had not failed; and it never becomes pending again,
and stays complete if no other worker that has claimed it is at work. -/
theorem backfill_of_complete (hstate : c.shared.state = .default) (hcalls : c.calls = 0)
    (hcomplete : c'.shared.state.status = .complete) :
    (∀ path, Run (backfillStepWhile fmt texts defaultProvider
        fun files => files.Holds fmt texts defaultProvider path) c ls c' →
      Tried fmt texts defaultProvider path ls) ∧
    ∀ ls' c'', Run (backfillStep fmt texts defaultProvider) c' ls' c'' →
      c''.shared.state.status ≠ .pending ∧
      ((∀ k ∈ c'.calls, k.Idle) → c''.shared.state.status = .complete) := by
  refine ⟨fun path hrun => (watermarkKept_of_run hstate hcalls hrun).complete hcomplete,
    fun ls' c'' hrun => ⟨status_ne_pending hrun ?_, complete_of_run hrun hcomplete⟩⟩
  rw [hcomplete]
  simp

end

/-! ## Workers on a single rollout -/

namespace Files

/-- A single file, and the directories above it. -/
def single (path : PathBuf) (items : List RolloutItem) : Files where
  node loc := if loc = path then some (.file items) else if loc <+: path then some .dir else none
  parent_dir loc name h := by
    have hbelow : loc ++ [name] <+: path := by
      split at h
      next heq => rw [heq]
      next =>
        split at h
        next hbelow => exact hbelow
        next => cases h
    have hne : loc ≠ path := by
      rintro rfl
      have hlength := hbelow.length_le
      rw [List.length_append, List.length_singleton] at hlength
      omega
    rw [if_neg hne, if_pos ((List.prefix_append loc [name]).trans hbelow)]

theorem node_single (path : PathBuf) (items : List RolloutItem) :
    (single path items).node path = some (.file items) :=
  if_pos rfl

/-- Nothing. -/
def empty : Files where
  node _ := none
  parent_dir _ _ h := by cases h

end Files

def soleName : Str := "rollout-x.jsonl"

def soleItems : List RolloutItem := [.sessionMeta (sessionLine "/real")]

/-- The only rollout is in the tree `root`. -/
def soleFiles (root : Str) : Files := .single [root, soleName] soleItems

theorem lists_soleFiles (root : Str) : (soleFiles root).Lists [root] [soleName] := by
  refine ⟨List.nodup_singleton _, fun name => ?_⟩
  rw [List.mem_singleton]
  constructor
  · rintro rfl
    rw [List.singleton_append, soleFiles, Files.node_single]
    rfl
  · intro h
    by_contra hne
    simp [soleFiles, Files.single, hne] at h

theorem holds_soleFiles {root : Str} (hroot : root ∈ backfillRoots.map Prod.fst) :
    (soleFiles root).Holds sessionFormats plainTexts "openai" [root, soleName] := by
  obtain ⟨r, hr, rfl⟩ := List.mem_map.1 hroot
  refine ⟨?_, ⟨r, [], soleName, hr, rfl, by decide⟩, fun other hother _ => ?_⟩
  · rw [Files.extract, soleFiles, Files.node_single]
    rfl
  · rw [Files.isFile] at hother
    split at hother
    next items hnode =>
      by_contra hne
      rw [soleFiles, Files.single] at hnode
      simp only [hne, if_false] at hnode
      split at hnode
      next => cases hnode
      next => cases hnode
    all_goals cases hother

section

variable {P : Files → Prop} {s : Store}

def soleStep (P : Files → Prop) : Config Store BackfillCall → Option BackfillEvent →
    Config Store BackfillCall → Prop :=
  backfillStepWhile sessionFormats plainTexts "openai" P

theorem run_claim (now : Int) (s' : Store) (ks : Multiset BackfillCall) (hP : P s.files)
    (h : s.tryClaimBackfill now = some s') :
    Run (soleStep P) ⟨s, ks⟩ [none, some .other, some .other] ⟨s', {.claimed} + ks⟩ :=
  .cons ⟨hP, .start .worker⟩
    (.cons ⟨hP, .call (.notComplete (Store.tryClaimBackfill_spec h).1)⟩
      (.single ⟨hP, .next (.claim now h)⟩))

theorem run_complete (now : Int) (start : Option Str) (ks : Multiset BackfillCall)
    (hP : P s.files) :
    Run (soleStep P) ⟨s, {.collecting [] true [] start []} + ks⟩ [some .other, some .other]
      ⟨s.markBackfillComplete now start, 0 + ks⟩ := by
  have hnone : batchesOf (remainingRollouts start []) = [] := by
    cases start with
    | none | some => rw [remainingRollouts, List.mergeSort_nil]; simp [batchesOf]
  have hcollected : BackfillStep sessionFormats plainTexts "openai" s
      (.collecting [] true [] start []) .other s
      {.batching (batchesOf (remainingRollouts start [])) start} := .collected
  rw [hnone] at hcollected
  exact .cons ⟨hP, .next hcollected⟩ (.single ⟨hP, .next (.complete now)⟩)

/-- A worker that has claimed the backfill finds that it is not running any more. -/
theorem run_back (now : Int) (hP : P s.files) (hs : s.state.status ≠ .running) :
    Run (soleStep P) ⟨s, {.claimed}⟩ [some .other, some .other]
      ⟨s.markBackfillRunning now, {.collect s.state.lastWatermark}⟩ :=
  .cons ⟨hP, .alone (.notRunning hs)⟩ (.single ⟨hP, .alone (.marked now)⟩)

theorem run_move (files : Files) (ks : Multiset BackfillCall) (hP : P s.files) (hfiles : P files) :
    Run (soleStep P) ⟨s, ks⟩ [none, some .other, some .other] ⟨s.withFiles files, 0 + ks⟩ :=
  .cons ⟨hP, .start .others⟩
    (.cons ⟨hP, .call (.changed files)⟩ (.single ⟨hfiles, .next .dropped⟩))

end

def soleStore (files : Files) (status : BackfillStatus) : Store := ⟨files, ⟨status, none, none⟩, 0⟩

def solePath : PathBuf := ["sessions", soleName]

def soleEntry : BackfillRolloutPath := backfillRolloutPath false solePath

theorem batchesOf_soleEntry : batchesOf (remainingRollouts none [soleEntry]) = [[soleEntry]] := by
  rw [remainingRollouts, List.mergeSort_singleton]
  simp [batchesOf]

/-- The worker finds the only rollout. -/
theorem run_find {P : Files → Prop} (hP : P (soleFiles "sessions")) :
    Run (soleStep P) ⟨soleStore (soleFiles "sessions") .running, {.claimed}⟩
      [some .other, some .other, some .other, some .other, some .other, some .other]
      ⟨soleStore (soleFiles "sessions") .running,
        {.scanning [soleEntry] ⟨some soleEntry.watermark, [], none⟩}⟩ := by
  have hsubdirs : subdirs (soleFiles "sessions") ["sessions"] [soleName] = [] := by decide
  have hrollouts : rolloutsIn (soleFiles "sessions") ["sessions"] [soleName] = [solePath] := by
    decide
  have hread : BackfillStep sessionFormats plainTexts "openai"
      (soleStore (soleFiles "sessions") .running)
      (.collecting [["sessions"]] false [("archived_sessions", true)] none []) .other
      (soleStore (soleFiles "sessions") .running)
      {.collecting ((subdirs (soleFiles "sessions") ["sessions"] [soleName]).reverse ++ []) false
        [("archived_sessions", true)] none
        ([] ++ (rolloutsIn (soleFiles "sessions") ["sessions"] [soleName]).map
          (backfillRolloutPath false))} :=
    .directory (by decide) (lists_soleFiles "sessions")
  rw [hsubdirs, hrollouts] at hread
  have hcollected : BackfillStep sessionFormats plainTexts "openai"
      (soleStore (soleFiles "sessions") .running) (.collecting [] true [] none [soleEntry]) .other
      (soleStore (soleFiles "sessions") .running)
      {.batching (batchesOf (remainingRollouts none [soleEntry])) none} := .collected
  rw [batchesOf_soleEntry] at hcollected
  exact .cons ⟨hP, .alone (.running rfl)⟩ (.cons ⟨hP, .alone (.root (by decide))⟩
    (.cons ⟨hP, .alone hread⟩ (.cons ⟨hP, .alone (.noRoot (by decide))⟩
      (.cons ⟨hP, .alone hcollected⟩ (.single ⟨hP, .alone .batch⟩)))))

theorem run_write {P : Files → Prop} (hP : P (soleFiles "sessions")) (ok : Bool)
    {m : ThreadMetadata} (hm : (soleFiles "sessions").extract sessionFormats plainTexts "openai"
      soleEntry.path none = some m) :
    Run (soleStep P)
      ⟨soleStore (soleFiles "sessions") .running,
        {.scanning [soleEntry] ⟨some soleEntry.watermark, [], none⟩}⟩
      [some .other, some (.upserted solePath (soleEntry.metadata none m) ok), some .other,
        some .other]
      ⟨((soleStore (soleFiles "sessions") .running).checkpointBackfill 0
        soleEntry.watermark).markBackfillComplete 0 (some soleEntry.watermark), 0⟩ := by
  have hcheckpoint : BackfillStep sessionFormats plainTexts "openai"
      (soleStore (soleFiles "sessions") .running)
      (.scanning [] ⟨some soleEntry.watermark, [], none⟩) .other
      ((soleStore (soleFiles "sessions") .running).checkpointBackfill 0 soleEntry.watermark)
      {.batching [] (some soleEntry.watermark)} := .checkpoint 0 rfl
  exact .cons ⟨hP, .alone (.extracted none none hm)⟩ (.cons ⟨hP, .alone (.upsert ok)⟩
    (.cons ⟨hP, .alone hcheckpoint⟩ (.single ⟨hP, .alone (.complete 0)⟩)))

/-- A worker on the only rollout, whose upsert succeeds or fails. -/
theorem run_sole (ok : Bool) : ∃ ls c,
    Run (soleStep fun files => files.Holds sessionFormats plainTexts "openai" solePath)
      ⟨soleStore (soleFiles "sessions") .pending, 0⟩ ls c ∧
    c.shared.state.status = .complete ∧
    ∀ path metadata ok', some (.upserted path metadata ok') ∈ ls → ok' = ok := by
  have hP : (soleFiles "sessions").Holds sessionFormats plainTexts "openai" solePath :=
    holds_soleFiles (by decide)
  obtain ⟨m, hm⟩ := Option.isSome_iff_exists.1 hP.parsed
  have hclaim := run_claim (P := fun files =>
      files.Holds sessionFormats plainTexts "openai" solePath)
    (s := soleStore (soleFiles "sessions") .pending) 0
    (soleStore (soleFiles "sessions") .running) 0 hP rfl
  rw [add_zero] at hclaim
  refine ⟨_, _, (hclaim.append (run_find hP)).append (run_write hP ok hm), rfl, ?_⟩
  simp

/-! ## What a complete backfill has written -/

/-- The metadata of the only rollout has been upserted when the backfill is complete, and the
backfill stays complete. -/
theorem backfill_of_sole : ∃ ls c,
    Run (soleStep fun files => files.Holds sessionFormats plainTexts "openai" solePath)
      ⟨soleStore (soleFiles "sessions") .pending, 0⟩ ls c ∧
    c.shared.state.status = .complete ∧ Tried sessionFormats plainTexts "openai" solePath ls := by
  obtain ⟨ls, c, hrun, hcomplete, -⟩ := run_sole true
  exact ⟨ls, c, hrun, hcomplete, (backfill_of_complete rfl rfl hcomplete).1 solePath hrun⟩

/-- The rollout is archived or unarchived: it is in either tree, under the same name. -/
def Somewhere (name : Str) (files : Files) : Prop :=
  ∃ dir, files.Holds sessionFormats plainTexts "openai" (dir ++ [name])

/-- A rollout that is moved from the tree that is yet to be read to the one that has been. -/
theorem run_past : ∃ ls c,
    Run (soleStep (Somewhere soleName))
      ⟨soleStore (soleFiles "archived_sessions") .pending, 0⟩ ls c ∧
    c.shared.state.status = .complete ∧
    ∀ path metadata ok, some (.upserted path metadata ok) ∉ ls := by
  have hold : Somewhere soleName (soleFiles "archived_sessions") :=
    ⟨["archived_sessions"], holds_soleFiles (by decide)⟩
  have hnew : Somewhere soleName (soleFiles "sessions") :=
    ⟨["sessions"], holds_soleFiles (by decide)⟩
  have hclaim := run_claim (P := Somewhere soleName)
    (s := soleStore (soleFiles "archived_sessions") .pending) 0
    (soleStore (soleFiles "archived_sessions") .running) 0 hold rfl
  rw [add_zero] at hclaim
  have hsessions : Run (soleStep (Somewhere soleName))
      ⟨soleStore (soleFiles "archived_sessions") .running, {.claimed}⟩ [some .other, some .other]
      ⟨soleStore (soleFiles "archived_sessions") .running,
        {.collecting [] false [("archived_sessions", true)] none []}⟩ :=
    .cons ⟨hold, .alone (.running rfl)⟩ (.single ⟨hold, .alone (.noRoot (by decide))⟩)
  have hmove := run_move (P := Somewhere soleName)
    (s := soleStore (soleFiles "archived_sessions") .running) _
    {.collecting [] false [("archived_sessions", true)] none []} hold hnew
  rw [zero_add] at hmove
  have harchived : Run (soleStep (Somewhere soleName))
      ⟨soleStore (soleFiles "sessions") .running,
        {.collecting [] false [("archived_sessions", true)] none []}⟩ [some .other]
      ⟨soleStore (soleFiles "sessions") .running, {.collecting [] true [] none []} + 0⟩ :=
    .single ⟨hnew, .alone (.noRoot (by decide))⟩
  refine ⟨_, _, (((hclaim.append hsessions).append hmove).append harchived).append
    (run_complete 0 none 0 hnew), rfl, ?_⟩
  simp

/-- A worker whose lease has expired goes on after another one has completed the backfill. -/
theorem run_expired : ∃ ls c ls' c',
    Run (soleStep fun _ => True) ⟨soleStore .empty .pending, 0⟩ ls c ∧
    c.shared.state.status = .complete ∧
    Run (soleStep fun _ => True) c ls' c' ∧ c'.shared.state.status = .running := by
  have hfirst := run_claim (P := fun _ => True) (s := soleStore .empty .pending) 0
    (soleStore .empty .running) 0 trivial rfl
  rw [add_zero] at hfirst
  have hsecond := run_claim (P := fun _ => True) (s := soleStore .empty .running) 900
    ⟨.empty, ⟨.running, none, none⟩, 900⟩ {.claimed} trivial rfl
  have hroots : Run (soleStep fun _ => True)
      ⟨⟨.empty, ⟨.running, none, none⟩, 900⟩, {.claimed} + {.claimed}⟩
      [some .other, some .other, some .other]
      ⟨⟨.empty, ⟨.running, none, none⟩, 900⟩, {.collecting [] true [] none []} + {.claimed}⟩ :=
    .cons ⟨trivial, .next (.running rfl)⟩ (.cons ⟨trivial, .next (.noRoot rfl)⟩
      (.single ⟨trivial, .next (.noRoot rfl)⟩))
  have hcomplete := run_complete (P := fun _ => True)
    (s := ⟨.empty, ⟨.running, none, none⟩, 900⟩) 900 none {.claimed} trivial
  rw [zero_add] at hcomplete
  exact ⟨_, _, _, _, ((hfirst.append hsecond).append hroots).append hcomplete, rfl,
    run_back 901 trivial (by decide), rfl⟩

/-- A backfill that is complete may have left out a rollout whose upsert failed, or one that was
moved; and it may become running again. -/
theorem not_backfill_of_complete :
    (¬ ∀ (ls : List (Option BackfillEvent)) (c c' : Config Store BackfillCall) (path : PathBuf),
      c.shared.state = .default → c.calls = 0 → c'.shared.state.status = .complete →
      Run (soleStep fun files => files.Holds sessionFormats plainTexts "openai" path) c ls c' →
      ∃ metadata, some (.upserted path metadata true) ∈ ls) ∧
    (¬ ∀ (ls : List (Option BackfillEvent)) (c c' : Config Store BackfillCall) (name : Str),
      c.shared.state = .default → c.calls = 0 → c'.shared.state.status = .complete →
      Run (soleStep (Somewhere name)) c ls c' →
      ∃ path metadata ok, some (.upserted path metadata ok) ∈ ls) ∧
    ¬ ∀ (ls ls' : List (Option BackfillEvent)) (c c' c'' : Config Store BackfillCall),
      c.shared.state = .default → c.calls = 0 → c'.shared.state.status = .complete →
      Run (backfillStep sessionFormats plainTexts "openai") c ls c' →
      Run (backfillStep sessionFormats plainTexts "openai") c' ls' c'' →
      c''.shared.state.status = .complete := by
  refine ⟨fun hall => ?_, fun hall => ?_, fun hall => ?_⟩
  · obtain ⟨ls, c, hrun, hcomplete, hok⟩ := run_sole false
    obtain ⟨metadata, hmem⟩ := hall ls _ c solePath rfl rfl hcomplete hrun
    exact Bool.noConfusion (hok _ _ _ hmem)
  · obtain ⟨ls, c, hrun, hcomplete, hnone⟩ := run_past
    obtain ⟨path, metadata, ok, hmem⟩ := hall ls _ c soleName rfl rfl hcomplete hrun
    exact hnone path metadata ok hmem
  · obtain ⟨ls, c, ls', c', hrun, hcomplete, hrun', hrunning⟩ := run_expired
    have h := hall ls ls' _ c c' rfl rfl hcomplete (hrun.mono And.right) (hrun'.mono And.right)
    rw [hrunning] at h
    cases h

end SheriMl.State
