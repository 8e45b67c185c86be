import SheriMl.State.ThreadMetadata

/-!
# Rows that follow a rollout

A thread's row is kept up with its rollout item by item (`StateRuntime::apply_rollout_items` of
`state/src/runtime.rs`) or written anew from the whole file (`reconcile_rollout` of
`core/src/state_db.rs`). The row of other threads is not touched, so that the database is the row of
the thread. Resolving a path and the time of a file's last change are the file system's.
-/

namespace SheriMl.State

open ThreadList (Formats OffsetDateTime PathBuf SessionMetaLine Uuid)

variable (fmt : Formats) (texts : EnumTexts) (defaultProvider : Str) (canonicalize : Str → Option Str)

/-- `normalize_cwd_for_state_db`; `canonicalize` is `normalize_for_path_comparison`. -/
def normalizeCwdForStateDb (cwd : Str) : Str := (canonicalize cwd).getD cwd

/-- `StateRuntime::apply_rollout_items`, for the time of the rollout's last change. -/
def applyRolloutItems (builder : ThreadMetadataBuilder) (items : List RolloutItem)
    (modified : Option OffsetDateTime) (row : Option ThreadRow) : Option ThreadRow :=
  if items.isEmpty then row
  else
    let metadata := (row.map ThreadRow.toMetadata).getD (builder.build texts defaultProvider)
    let metadata := items.foldl (applyRolloutItem texts defaultProvider)
      (metadata.withRolloutPath builder.rolloutPath)
    some (metadata.withUpdatedAt modified).toRow

/-- The metadata that a builder and all items of a rollout give. -/
def rolloutMetadata (builder : ThreadMetadataBuilder) (items : List RolloutItem) : ThreadMetadata :=
  items.foldl (applyRolloutItem texts defaultProvider) (builder.build texts defaultProvider)

/-- `extract_metadata_from_rollout`, for the items that the file holds. -/
def extractMetadata (items : List RolloutItem) (rolloutPath : PathBuf)
    (modified : Option OffsetDateTime) : Option ThreadMetadata :=
  if items.isEmpty then none
  else
    (builderFromItems fmt items rolloutPath).map fun builder =>
      (rolloutMetadata texts defaultProvider builder items).withUpdatedAt modified

/-- What `archived_only` makes of the time of archiving. -/
def archivedFor (archivedOnly : Option Bool) (m : ThreadMetadata) : Option OffsetDateTime :=
  match archivedOnly with
  | some true => m.archivedAt.or (some m.updatedAt)
  | some false => none
  | none => m.archivedAt

/-- `reconcile_rollout` without builder and items. -/
def reconcileRollout (items : List RolloutItem) (rolloutPath : PathBuf)
    (modified : Option OffsetDateTime) (archivedOnly : Option Bool) (row : Option ThreadRow) :
    Option ThreadRow :=
  match extractMetadata fmt texts defaultProvider items rolloutPath modified with
  | none => row
  | some metadata =>
    some ((metadata.withCwd (normalizeCwdForStateDb canonicalize metadata.cwd)).withArchivedAt
      (archivedFor archivedOnly metadata)).toRow

/-- A call of `apply_rollout_items`. -/
structure Batch where
  builder : ThreadMetadataBuilder
  items : List RolloutItem
  modified : Option OffsetDateTime

def applyBatches (batches : List Batch) (row : Option ThreadRow) : Option ThreadRow :=
  batches.foldl (fun row batch =>
    applyRolloutItems texts defaultProvider batch.builder batch.items batch.modified row) row

/-! ## Rollouts of the recorder -/

/-- A rollout as the recorder writes it: the line of the session comes first, with the directory of
the session and a time that can be read. -/
structure Recorded (line : SessionMetaLine) (items : List RolloutItem) : Prop where
  head : items.head? = some (.sessionMeta line)
  cwd : line.cwd ≠ []
  timestamp : (parseTimestampToUtc fmt line.timestamp).isSome

/-- The directory that an item records for the thread. -/
def cwdOf (id : Uuid) : RolloutItem → Option Str
  | .sessionMeta line => if line.id = id ∧ line.cwd ≠ [] then some line.cwd else none
  | .turnContext cwd _ _ => some cwd
  | _ => none

/-- The last directory recorded. -/
def recordedCwd (id : Uuid) (items : List RolloutItem) : Str :=
  (items.filterMap (cwdOf id)).getLast?.getD []

section

variable {texts defaultProvider} {m : ThreadMetadata} {items : List RolloutItem}

theorem cwd_applyRolloutItem {item : RolloutItem} :
    (applyRolloutItem texts defaultProvider m item).cwd = (cwdOf m.id item).getD m.cwd := by
  have hfill (m' : ThreadMetadata) : (fillModelProvider defaultProvider m').cwd = m'.cwd := by
    rw [fillModelProvider]
    split <;> rfl
  rw [applyRolloutItem, hfill]
  cases item with
  | sessionMeta line =>
    rw [applyItem, applySessionMetaFromItem, cwdOf]
    by_cases hid : line.id = m.id
    · rw [if_neg (not_not_intro hid.symm)]
      cases hcwd : line.cwd with
      | nil => simp
      | cons c cwd => simp [hid]
    · rw [if_pos (Ne.symm hid), if_neg (fun h => hid h.1)]
      rfl
  | tokenCount totalTokens =>
    cases totalTokens with
    | none | some => rfl
  | turnContext | userMessage | responseItem | compacted | otherEvent => rfl

theorem id_applyRolloutItem {item : RolloutItem} :
    (applyRolloutItem texts defaultProvider m item).id = m.id :=
  congrArg Prod.fst place_applyRolloutItem

/-- The directory of the metadata is the last one recorded. -/
theorem cwd_foldl : (items.foldl (applyRolloutItem texts defaultProvider) m).cwd =
    (items.filterMap (cwdOf m.id)).getLast?.getD m.cwd := by
  induction items generalizing m with
  | nil => rfl
  | cons item items ih =>
    rw [List.foldl_cons, ih, id_applyRolloutItem, cwd_applyRolloutItem]
    cases hcwd : cwdOf m.id item with
    | none => rw [List.filterMap_cons_none hcwd, Option.getD_none]
    | some cwd =>
      rw [List.filterMap_cons_some hcwd, List.getLast?_cons, Option.getD_some, Option.getD_some]

end

/-! ## Batches -/

variable {fmt texts defaultProvider canonicalize} {line : SessionMetaLine}
  {items : List RolloutItem} {path : PathBuf} {builder : ThreadMetadataBuilder}

theorem Recorded.exists_cons (h : Recorded fmt line items) :
    ∃ rest, items = .sessionMeta line :: rest := by
  cases items with
  | nil => cases h.head
  | cons item rest => exact ⟨rest, by rw [Option.some.inj h.head]⟩

theorem Recorded.builderFromItems (h : Recorded fmt line items) (path : PathBuf) :
    ∃ createdAt, builderFromItems fmt items path =
      some (sessionMetaBuilder line path createdAt) := by
  obtain ⟨createdAt, hcreated⟩ := Option.isSome_iff_exists.1 h.timestamp
  obtain ⟨rest, rfl⟩ := h.exists_cons
  refine ⟨createdAt, ?_⟩
  simp [State.builderFromItems, builderFromSessionMeta, hcreated]

/-- The session's line replaces the directory that the builder brings. -/
theorem Recorded.foldl_withCwd (h : Recorded fmt line items) (hid : builder.id = line.id)
    (cwd : Str) :
    items.foldl (applyRolloutItem texts defaultProvider)
        ((builder.withCwd cwd).build texts defaultProvider) =
      items.foldl (applyRolloutItem texts defaultProvider) (builder.build texts defaultProvider) := by
  obtain ⟨rest, rfl⟩ := h.exists_cons
  rw [List.foldl_cons, List.foldl_cons]
  congr 1
  have hcwd : line.cwd.isEmpty = false := List.isEmpty_eq_false_iff.2 h.cwd
  simp [applyRolloutItem, fillModelProvider, applyItem, applySessionMetaFromItem,
    ThreadMetadataBuilder.build, ThreadMetadataBuilder.withCwd, hid, hcwd]

/-- What the batches up to a point leave: no row before the first item, and then the row of the
items so far. -/
def Follows (texts : EnumTexts) (defaultProvider : Str) (base : ThreadMetadata)
    (done : List RolloutItem) (row : Option ThreadRow) : Prop :=
  (done = [] ∧ row = none) ∨
    ∃ m : ThreadMetadata, row = some m.toRow ∧ m.Canonical ∧ m.rolloutPath = base.rolloutPath ∧
      m.settled = (done.foldl (applyRolloutItem texts defaultProvider) base).settled

theorem rolloutPath_foldl {m : ThreadMetadata} :
    (items.foldl (applyRolloutItem texts defaultProvider) m).rolloutPath = m.rolloutPath :=
  congrArg (fun place => place.2.1) place_foldl

/-- The row that a batch writes over metadata of the items before it. -/
theorem follows_of_foldl {base m : ThreadMetadata} {done batch : List RolloutItem}
    {modified : Option OffsetDateTime} (hm : m.Canonical) (hpath : m.rolloutPath = base.rolloutPath)
    (h : (batch.foldl (applyRolloutItem texts defaultProvider) m).settled =
      ((done ++ batch).foldl (applyRolloutItem texts defaultProvider) base).settled) :
    Follows texts defaultProvider base (done ++ batch)
      (some ((batch.foldl (applyRolloutItem texts defaultProvider) m).withUpdatedAt modified).toRow) := by
  have hfold : (batch.foldl (applyRolloutItem texts defaultProvider) m).Canonical := hm.foldl batch
  refine .inr ⟨_, rfl, ⟨hfold.createdAt, hfold.archivedAt, hfold.firstUserMessage⟩, ?_, h⟩
  exact rolloutPath_foldl.trans hpath

theorem Follows.applyRolloutItems {done batch rest : List RolloutItem} {row : Option ThreadRow}
    {cwd : Str} {modified : Option OffsetDateTime}
    (hrecorded : Recorded fmt line (done ++ (batch ++ rest))) (hid : builder.id = line.id)
    (h : Follows texts defaultProvider (builder.build texts defaultProvider) done row) :
    Follows texts defaultProvider (builder.build texts defaultProvider) (done ++ batch)
      (applyRolloutItems texts defaultProvider (builder.withCwd cwd) batch modified row) := by
  by_cases hbatch : batch = []
  · subst hbatch
    rw [List.append_nil]
    exact h
  · rw [State.applyRolloutItems, if_neg (by simpa using hbatch)]
    obtain ⟨rfl, rfl⟩ | ⟨m, rfl, hm, hpath, hsettled⟩ := h
    · have hhead : batch.head? = some (.sessionMeta line) := by
        rw [← hrecorded.head, List.nil_append, List.head?_append_of_ne_nil _ hbatch]
      have hfirst : Recorded fmt line batch := ⟨hhead, hrecorded.cwd, hrecorded.timestamp⟩
      exact follows_of_foldl canonical_build rfl
        (congrArg ThreadMetadata.settled (hfirst.foldl_withCwd hid cwd))
    · have hread := settled_toMetadata_toRow hm
      have hrow : m.toRow.toMetadata.withRolloutPath builder.rolloutPath = m.toRow.toMetadata :=
        withRolloutPath_self hpath
      rw [Option.map_some, Option.getD_some]
      change Follows _ _ _ _ (some (ThreadMetadata.withUpdatedAt (batch.foldl _
        (m.toRow.toMetadata.withRolloutPath builder.rolloutPath)) _).toRow)
      rw [hrow]
      refine follows_of_foldl (canonical_toMetadata _) hpath ?_
      rw [settled_foldl, hread, hsettled, ← settled_foldl, ← List.foldl_append]

theorem Follows.applyBatches {batches : List Batch} {done rest : List RolloutItem}
    {row : Option ThreadRow} (hrecorded : Recorded fmt line (done ++ rest))
    (hid : builder.id = line.id)
    (hbuilders : ∀ batch ∈ batches, ∃ cwd, batch.builder = builder.withCwd cwd)
    (hitems : batches.flatMap Batch.items = rest)
    (h : Follows texts defaultProvider (builder.build texts defaultProvider) done row) :
    Follows texts defaultProvider (builder.build texts defaultProvider) (done ++ rest)
      (applyBatches texts defaultProvider batches row) := by
  induction batches generalizing done rest row with
  | nil =>
    subst hitems
    rw [List.flatMap_nil, List.append_nil]
    exact h
  | cons batch batches ih =>
    subst hitems
    rw [List.flatMap_cons] at hrecorded ⊢
    obtain ⟨cwd, hbuilder⟩ := hbuilders batch List.mem_cons_self
    have hbatch : Follows texts defaultProvider (builder.build texts defaultProvider)
        (done ++ batch.items)
        (State.applyRolloutItems texts defaultProvider batch.builder batch.items batch.modified
          row) := by
      rw [hbuilder]
      exact h.applyRolloutItems hrecorded hid
    rw [← List.append_assoc] at hrecorded ⊢
    exact ih hrecorded (fun b hb => hbuilders b (List.mem_cons_of_mem _ hb)) rfl hbatch

/-- The directory that a recorder's rollout leads to is the last one recorded. -/
theorem Recorded.cwd_rolloutMetadata (h : Recorded fmt line items) (hid : builder.id = line.id) :
    (rolloutMetadata texts defaultProvider builder items).cwd = recordedCwd line.id items := by
  obtain ⟨rest, rfl⟩ := h.exists_cons
  have hcwd : cwdOf line.id (.sessionMeta line) = some line.cwd := if_pos ⟨rfl, h.cwd⟩
  have hbuild : (builder.build texts defaultProvider).id = line.id := hid
  rw [rolloutMetadata, cwd_foldl, hbuild, recordedCwd, List.filterMap_cons_some hcwd,
    List.getLast?_cons]
  rfl

/-- What reconciling the whole file of a recorder's rollout writes. -/
theorem Recorded.reconcileRollout {archivedOnly : Option Bool} {modified : Option OffsetDateTime}
    {row : Option ThreadRow} (h : Recorded fmt line items)
    (hbuilder : State.builderFromItems fmt items path = some builder)
    (harchived : archivedOnly ≠ some true) :
    State.reconcileRollout fmt texts defaultProvider canonicalize items path modified archivedOnly row =
      some (((rolloutMetadata texts defaultProvider builder items).withUpdatedAt modified).withCwd
        (normalizeCwdForStateDb canonicalize
          (rolloutMetadata texts defaultProvider builder items).cwd)).toRow := by
  obtain ⟨createdAt, hcreated⟩ := h.builderFromItems path
  have hne : items.isEmpty = false := by
    obtain ⟨rest, rfl⟩ := h.exists_cons
    rfl
  have hplace : (rolloutMetadata texts defaultProvider builder items).place =
      (builder.build texts defaultProvider).place := place_foldl
  have hnone : (rolloutMetadata texts defaultProvider builder items).archivedAt = none := by
    rw [Option.some.inj (hbuilder.symm.trans hcreated)] at hplace ⊢
    exact congrArg (fun place => place.2.2) hplace
  have hextract : extractMetadata fmt texts defaultProvider items path modified =
      some ((rolloutMetadata texts defaultProvider builder items).withUpdatedAt modified) := by
    rw [extractMetadata, hne, hbuilder]
    rfl
  have harchivedFor : archivedFor archivedOnly
      ((rolloutMetadata texts defaultProvider builder items).withUpdatedAt modified) = none := by
    cases archivedOnly with
    | none => exact hnone
    | some archived =>
      cases archived with
      | false => rfl
      | true => exact absurd rfl harchived
  rw [State.reconcileRollout, hextract]
  refine congrArg (fun m : ThreadMetadata => some m.toRow) (withArchivedAt_self ?_)
  rw [harchivedFor]
  exact hnone

/-- A thread kept up with its rollout batch by batch, however the rollout is split, has the row that
reconciling the whole file writes, but for the time of the last update, exactly if the last directory
recorded is the normal form of itself. -/
theorem applyBatches_eq_reconcile_iff {batches : List Batch} {archivedOnly : Option Bool}
    {modified : Option OffsetDateTime} {row : Option ThreadRow} (h : Recorded fmt line items)
    (hbuilder : builderFromItems fmt items path = some builder)
    (hitems : batches.flatMap Batch.items = items)
    (hbuilders : ∀ batch ∈ batches, ∃ cwd, batch.builder = builder.withCwd cwd)
    (harchived : archivedOnly ≠ some true) :
    (applyBatches texts defaultProvider batches none).map ThreadRow.settled =
        (reconcileRollout fmt texts defaultProvider canonicalize items path modified archivedOnly
          row).map ThreadRow.settled ↔
      normalizeCwdForStateDb canonicalize (recordedCwd line.id items) =
        recordedCwd line.id items := by
  obtain ⟨createdAt, hcreated⟩ := h.builderFromItems path
  have hid : builder.id = line.id :=
    congrArg ThreadMetadataBuilder.id (Option.some.inj (hbuilder.symm.trans hcreated))
  have hfollows : Follows texts defaultProvider (builder.build texts defaultProvider) ([] ++ items)
      (applyBatches texts defaultProvider batches none) :=
    Follows.applyBatches h hid hbuilders hitems (.inl ⟨rfl, rfl⟩)
  have hlast : (rolloutMetadata texts defaultProvider builder items).cwd =
      recordedCwd line.id items := h.cwd_rolloutMetadata hid
  rw [h.reconcileRollout hbuilder harchived, ← hlast]
  obtain ⟨hnil, -⟩ | ⟨m, hrow, -, -, hm⟩ := hfollows
  · obtain ⟨rest, rfl⟩ := h.exists_cons
    cases hnil
  · rw [hrow, Option.map_some, Option.map_some, Option.some.injEq]
    change m.settled = (rolloutMetadata texts defaultProvider builder items).settled at hm
    constructor
    · intro heq
      have hcwd : m.settled.cwd =
          (rolloutMetadata texts defaultProvider builder items).settled.cwd := by
        rw [hm]
      have hrowCwd : m.cwd = normalizeCwdForStateDb canonicalize _ := congrArg ThreadRow.cwd heq
      exact hrowCwd.symm.trans hcwd
    · intro heq
      rw [heq, settled_toRow, hm]
      rfl

/-! ## A session in a linked directory -/

def sessionTimestamp : Str := "2026-01-27T12:34:56.000Z"

/-- The formats, as far as they read the session's time. -/
def sessionFormats : Formats where
  formatRfc3339 := fun _ => none
  parseRfc3339 := fun ts =>
    if ts = sessionTimestamp then some ⟨2026, 1, 27, 12, 34, 56, 0⟩ else none
  parseFileTime := fun _ => none
  uuidToString := fun _ => []
  parseUuid := fun _ => none

def plainTexts : EnumTexts where
  source := fun _ => "cli"
  sandboxPolicy := fun _ => "read-only"
  approvalMode := fun _ => "on-request"

/-- The path of a link resolves to the directory that it names. -/
def resolveLink (cwd : Str) : Option Str := if cwd = "/link" then some "/real" else some cwd

def sessionLine (cwd : Str) : SessionMetaLine :=
  ⟨0, sessionTimestamp, cwd, "1.0.0", .cli, some "openai", none⟩

theorem recorded_sessionLine {cwd : Str} (h : cwd ≠ []) :
    Recorded sessionFormats (sessionLine cwd) [.sessionMeta (sessionLine cwd)] :=
  ⟨rfl, h, rfl⟩

def sessionBuilder (cwd : Str) : ThreadMetadataBuilder :=
  sessionMetaBuilder (sessionLine cwd) ["rollout.jsonl"] ⟨2026, 1, 27, 12, 34, 56, 0⟩

theorem builderFromItems_sessionLine (cwd : Str) :
    builderFromItems sessionFormats [.sessionMeta (sessionLine cwd)] ["rollout.jsonl"] =
      some (sessionBuilder cwd) :=
  rfl

/-- In a directory that is no link the two rows agree. -/
theorem applyBatches_eq_reconcile_of_real :
    (applyBatches plainTexts "openai"
        [⟨sessionBuilder "/real", [.sessionMeta (sessionLine "/real")], none⟩] none).map
          ThreadRow.settled =
      (reconcileRollout sessionFormats plainTexts "openai" resolveLink
        [.sessionMeta (sessionLine "/real")] ["rollout.jsonl"] none none none).map
          ThreadRow.settled := by
  refine (applyBatches_eq_reconcile_iff (recorded_sessionLine (by decide))
    (builderFromItems_sessionLine "/real") rfl ?_ (by decide)).2 (by decide)
  intro batch hbatch
  obtain rfl := List.mem_singleton.1 hbatch
  exact ⟨"/real", rfl⟩

/-- In a linked directory they do not. -/
theorem applyBatches_ne_reconcile :
    ¬ ∀ (fmt : Formats) (texts : EnumTexts) (defaultProvider : Str) (canonicalize : Str → Option Str)
      (line : SessionMetaLine) (items : List RolloutItem) (path : PathBuf)
      (builder : ThreadMetadataBuilder) (batches : List Batch) (modified : Option OffsetDateTime),
      Recorded fmt line items → builderFromItems fmt items path = some builder →
      batches.flatMap Batch.items = items →
      (∀ batch ∈ batches, ∃ cwd, batch.builder = builder.withCwd cwd) →
      (applyBatches texts defaultProvider batches none).map ThreadRow.settled =
        (reconcileRollout fmt texts defaultProvider canonicalize items path modified none none).map
          ThreadRow.settled := by
  intro hall
  have h := hall sessionFormats plainTexts "openai" resolveLink (sessionLine "/link")
    [.sessionMeta (sessionLine "/link")] ["rollout.jsonl"] (sessionBuilder "/link")
    [⟨sessionBuilder "/link", [.sessionMeta (sessionLine "/link")], none⟩] none
    (recorded_sessionLine (by decide)) (builderFromItems_sessionLine "/link") rfl
    (fun batch hbatch => ⟨"/link", by rw [List.mem_singleton.1 hbatch]; rfl⟩)
  revert h
  decide

end SheriMl.State
