import SheriMl.Lib.Pool
import SheriMl.State.Reconcile

/-!
# Updates of one row

`apply_rollout_items`, `mark_archived` and `mark_unarchived` of `state/src/runtime.rs` and
`read_repair_rollout_path` of `core/src/state_db.rs` on the row of one thread. Each of them reads the
row in one statement and writes the whole row in a later one (`CallStep`), and any number of tasks and
processes call them. The statements succeed.
-/

namespace SheriMl.State

open Pool Transition
open ThreadList (OffsetDateTime PathBuf)

/-- A call, with its arguments. -/
inductive RowOp where
  | applyRolloutItems (builder : ThreadMetadataBuilder) (items : List RolloutItem)
  | markArchived (rolloutPath : PathBuf) (archivedAt : OffsetDateTime)
  | markUnarchived (rolloutPath : PathBuf)
  | readRepairRolloutPath (archivedOnly : Option Bool) (rolloutPath : PathBuf)

/-- A call in progress, by the statement that it issues next. -/
inductive RowCall where
  | reading (op : RowOp)
  | writing (op : RowOp) (read : ThreadMetadata)

inductive RowEvent where
  /-- The call writes `row`; it has read `read`. -/
  | wrote (op : RowOp) (read : ThreadMetadata) (row : ThreadRow)
  | other

variable (texts : EnumTexts) (defaultProvider : Str) (canonicalize : Str → Option Str)

namespace RowOp

/-- What a call makes of the metadata that it has read, for the time of the last change of the
rollout. -/
def update (modified : Option OffsetDateTime) (read : ThreadMetadata) : RowOp → ThreadMetadata
  | applyRolloutItems builder items =>
    (items.foldl (applyRolloutItem texts defaultProvider)
      (read.withRolloutPath builder.rolloutPath)).withUpdatedAt modified
  | markArchived rolloutPath archivedAt =>
    ((read.withArchivedAt (some archivedAt)).withRolloutPath rolloutPath).withUpdatedAt modified
  | markUnarchived rolloutPath =>
    ((read.withArchivedAt none).withRolloutPath rolloutPath).withUpdatedAt modified
  | readRepairRolloutPath archivedOnly rolloutPath =>
    ((read.withRolloutPath rolloutPath).withCwd
      (normalizeCwdForStateDb canonicalize read.cwd)).withArchivedAt (archivedFor archivedOnly read)

/-- The call returns without a statement: there are no items. -/
def isEmpty : RowOp → Bool
  | applyRolloutItems _ items => items.isEmpty
  | markArchived .. | markUnarchived _ | readRepairRolloutPath .. => false

/-- The call returns without a write: there is nothing to repair. -/
def isRepaired (read : ThreadMetadata) : RowOp → Bool
  | readRepairRolloutPath archivedOnly rolloutPath =>
    (readRepairRolloutPath archivedOnly rolloutPath).update texts defaultProvider canonicalize none
      read = read
  | applyRolloutItems .. | markArchived .. | markUnarchived _ => false

/-- The items that the call is given. -/
def items : RowOp → List RolloutItem
  | applyRolloutItems _ items => items
  | markArchived .. | markUnarchived _ | readRepairRolloutPath .. => []

/-- The call is an archive, an unarchive or a repair. -/
def places : RowOp → Bool
  | applyRolloutItems .. => false
  | markArchived .. | markUnarchived _ | readRepairRolloutPath .. => true

end RowOp

inductive RowStep : ThreadRow → RowCall → RowEvent → ThreadRow → Multiset RowCall → Prop
  | empty {row op} : op.isEmpty = true → RowStep row (.reading op) .other row 0
  | read {row op} : op.isEmpty = false →
      RowStep row (.reading op) .other row {.writing op row.toMetadata}
  | repaired {row op read} : op.isRepaired texts defaultProvider canonicalize read = true →
      RowStep row (.writing op read) .other row 0
  | write {row op read} (modified : Option OffsetDateTime) :
      op.isRepaired texts defaultProvider canonicalize read = false →
      RowStep row (.writing op read)
        (.wrote op read (op.update texts defaultProvider canonicalize modified read).toRow)
        (op.update texts defaultProvider canonicalize modified read).toRow 0
  -- the task or its process ends
  | dropped {row call} : RowStep row call .other row 0

inductive RowCall.Start : RowCall → Prop
  | mk (op : RowOp) : Start (.reading op)

def rowStep : Config ThreadRow RowCall → Option RowEvent → Config ThreadRow RowCall → Prop :=
  Step RowCall.Start (RowStep texts defaultProvider canonicalize)

/-- Where a row says that the rollout is, and when it was archived. -/
def ThreadRow.placement (row : ThreadRow) : Option EpochSeconds × PathBuf :=
  (row.archivedAt, row.rolloutPath)

/-- The placement that the last archive, unarchive or repair has written. -/
def lastPlacement (start : Option EpochSeconds × PathBuf) (ls : List (Option RowEvent)) :
    Option EpochSeconds × PathBuf :=
  ls.foldl (fun placement l => match l with
    | some (.wrote op _ row) => if op.places then row.placement else placement
    | some .other | none => placement) start

/-- The items of the calls that have written, in the order of their writes. -/
def writtenItems (ls : List (Option RowEvent)) : List RolloutItem :=
  ls.flatMap fun
    | some (.wrote op _ _) => op.items
    | some .other | none => []

/-- The token count, the title and the first user message. -/
def ThreadMetadata.content (m : ThreadMetadata) : Int × Str × Option Str :=
  (m.tokensUsed, m.title, m.firstUserMessage)

/-- The row has the placement last written, and the content of all items written. -/
structure UpToDate (start : ThreadRow) (ls : List (Option RowEvent)) (row : ThreadRow) : Prop where
  placement : row.placement = lastPlacement start.placement ls
  content : row.toMetadata.content =
    ((writtenItems ls).foldl (applyRolloutItem texts defaultProvider) start.toMetadata).content

/-- A write overwrites the row that its call has read, and a call that applies items knows where the
rollout is. -/
def InTurn (row : ThreadRow) (l : Option RowEvent) : Prop :=
  ∀ op read row', l = some (.wrote op read row') → row.toMetadata = read ∧
    ∀ builder items, op = .applyRolloutItems builder items → builder.rolloutPath = row.rolloutPath

section

variable {texts defaultProvider canonicalize} {start row row' : ThreadRow}
  {past : List (Option RowEvent)} {m m' : ThreadMetadata} {item : RolloutItem}
  {items : List RolloutItem}

/-! ## What an item reads of the content -/

theorem content_applyItem (h : m.content = m'.content) :
    (applyItem texts m item).content = (applyItem texts m' item).content := by
  have htokens : m.tokensUsed = m'.tokensUsed := congrArg Prod.fst h
  have htitle : m.title = m'.title := congrArg (fun c => c.2.1) h
  have hfirst : m.firstUserMessage = m'.firstUserMessage := congrArg (fun c => c.2.2) h
  cases item with
  | sessionMeta line =>
    have hmeta (m : ThreadMetadata) :
        (applySessionMetaFromItem texts m line).content = m.content := by
      rw [applySessionMetaFromItem]
      split <;> rfl
    rw [applyItem, applyItem, hmeta, hmeta, h]
  | tokenCount totalTokens =>
    cases totalTokens with
    | none => exact h
    | some => simp [applyItem, ThreadMetadata.content, htitle, hfirst]
  | userMessage => simp [applyItem, applyUserMessage, ThreadMetadata.content, htokens, htitle, hfirst]
  | turnContext | responseItem | compacted | otherEvent => exact h

theorem content_foldl (h : m.content = m'.content) :
    (items.foldl (applyRolloutItem texts defaultProvider) m).content =
      (items.foldl (applyRolloutItem texts defaultProvider) m').content := by
  have hfill (m : ThreadMetadata) : (fillModelProvider defaultProvider m).content = m.content := by
    rw [fillModelProvider]
    split <;> rfl
  induction items generalizing m m' with
  | nil => exact h
  | cons item items ih =>
    refine ih ?_
    rw [applyRolloutItem, applyRolloutItem, hfill, hfill]
    exact content_applyItem h

theorem content_toRow (h : m.firstUserMessage ≠ some []) : m.toRow.toMetadata.content = m.content := by
  rw [ThreadMetadata.content, firstUserMessage_toRow h]
  rfl

/-! ## Steps -/

theorem UpToDate.other (h : UpToDate texts defaultProvider start past row)
    {l : Option RowEvent} (hl : ∀ op read row', l ≠ some (.wrote op read row')) :
    UpToDate texts defaultProvider start (past ++ [l]) row := by
  have hplacement : lastPlacement start.placement (past ++ [l]) =
      lastPlacement start.placement past := by
    rw [lastPlacement, List.foldl_append]
    cases l with
    | none => rfl
    | some e =>
      cases e with
      | wrote op read row' => exact absurd rfl (hl op read row')
      | other => rfl
  have hitems : writtenItems (past ++ [l]) = writtenItems past := by
    rw [writtenItems, List.flatMap_append]
    cases l with
    | none => exact List.append_nil _
    | some e =>
      cases e with
      | wrote op read row' => exact absurd rfl (hl op read row')
      | other => exact List.append_nil _
  exact ⟨hplacement ▸ h.placement, hitems ▸ h.content⟩

theorem lastPlacement_wrote {op : RowOp} {read : ThreadMetadata} (p : Option EpochSeconds × PathBuf) :
    lastPlacement p (past ++ [some (.wrote op read row)]) =
      if op.places then row.placement else lastPlacement p past := by
  rw [lastPlacement, List.foldl_append]
  rfl

theorem writtenItems_wrote {op : RowOp} {read : ThreadMetadata} :
    writtenItems (past ++ [some (.wrote op read row)]) = writtenItems past ++ op.items := by
  rw [writtenItems, List.flatMap_append]
  exact congrArg _ (List.append_nil _)

/-- The content that a call writes is that of the items it is given, over what it has read. -/
theorem RowOp.content_update (op : RowOp) (h : m.Canonical) (modified : Option OffsetDateTime) :
    (op.update texts defaultProvider canonicalize modified m).toRow.toMetadata.content =
      (op.items.foldl (applyRolloutItem texts defaultProvider) m).content := by
  cases op with
  | applyRolloutItems builder items =>
    have hplaced : (m.withRolloutPath builder.rolloutPath).Canonical :=
      ⟨h.createdAt, h.archivedAt, h.firstUserMessage⟩
    exact (content_toRow (hplaced.foldl items).firstUserMessage).trans (content_foldl rfl)
  | markArchived | markUnarchived | readRepairRolloutPath =>
    exact (content_toRow h.firstUserMessage).trans rfl

/-- A call that applies items leaves the placement that it has read, if it knows the path. -/
theorem placement_applyRolloutItems {builder : ThreadMetadataBuilder}
    (hpath : builder.rolloutPath = row.rolloutPath) (modified : Option OffsetDateTime) :
    ((RowOp.applyRolloutItems builder items).update texts defaultProvider canonicalize modified
      row.toMetadata).toRow.placement = row.placement := by
  have hplace : (items.foldl (applyRolloutItem texts defaultProvider)
      (row.toMetadata.withRolloutPath builder.rolloutPath)).place =
      (row.toMetadata.withRolloutPath builder.rolloutPath).place := place_foldl
  have harchived : (items.foldl (applyRolloutItem texts defaultProvider)
      (row.toMetadata.withRolloutPath builder.rolloutPath)).archivedAt =
        row.archivedAt.map epochSecondsToDatetime := congrArg (fun place => place.2.2) hplace
  have hrollout : (items.foldl (applyRolloutItem texts defaultProvider)
      (row.toMetadata.withRolloutPath builder.rolloutPath)).rolloutPath = row.rolloutPath :=
    (congrArg (fun place => place.2.1) hplace).trans hpath
  have hback : (row.archivedAt.map epochSecondsToDatetime).map datetimeToEpochSeconds =
      row.archivedAt := by
    simp [Function.comp_def]
  refine Prod.ext ?_ hrollout
  exact (congrArg (Option.map datetimeToEpochSeconds) harchived).trans hback

/-- A write in its turn. -/
theorem UpToDate.wrote {op : RowOp} {modified : Option OffsetDateTime}
    (h : UpToDate texts defaultProvider start past row)
    (hturn : ∀ builder items, op = .applyRolloutItems builder items →
      builder.rolloutPath = row.rolloutPath)
    (hrow : row' = (op.update texts defaultProvider canonicalize modified row.toMetadata).toRow) :
    UpToDate texts defaultProvider start (past ++ [some (.wrote op row.toMetadata row')]) row' := by
  constructor
  · rw [lastPlacement_wrote]
    cases op with
    | applyRolloutItems builder items =>
      rw [hrow, placement_applyRolloutItems (hturn builder items rfl)]
      exact h.placement
    | markArchived | markUnarchived | readRepairRolloutPath => rfl
  · rw [writtenItems_wrote, hrow, op.content_update (canonical_toMetadata row) modified,
      List.foldl_append]
    exact content_foldl h.content

/-- A step in which every write comes in its turn. -/
theorem UpToDate.step {call : RowCall} {e : RowEvent} {calls : Multiset RowCall}
    (h : UpToDate texts defaultProvider start past row)
    (hstep : RowStep texts defaultProvider canonicalize row call e row' calls)
    (hturn : InTurn row (some e)) :
    UpToDate texts defaultProvider start (past ++ [some e]) row' := by
  have hother : e = .other → ∀ op read row', some e ≠ some (.wrote op read row') := by
    rintro rfl op read row' heq
    cases heq
  cases hstep with
  | empty | read | repaired | dropped => exact h.other (hother rfl)
  | write modified hrepaired =>
    obtain ⟨rfl, hpath⟩ := hturn _ _ _ rfl
    exact h.wrote hpath rfl

/-- In every run in which each write comes in its turn, the row has the placement that the last
archive, unarchive or repair has written, and the content of all items written. -/
theorem upToDate_of_run {ls : List (Option RowEvent)} {c : Config ThreadRow RowCall}
    (h : Run (fun c l c' => rowStep texts defaultProvider canonicalize c l c' ∧ InTurn c.shared l)
      ⟨start, 0⟩ ls c) :
    UpToDate texts defaultProvider start ls c.shared := by
  have hrun := h.history (I := fun past c => UpToDate texts defaultProvider start past c.shared)
    (fun hI hstep => ?_) [] ⟨rfl, rfl⟩
  · exact hrun
  · obtain ⟨hstep, hturn⟩ := hstep
    cases hstep with
    | start => exact hI.other (fun op read row' heq => by cases heq)
    | call hop => exact hI.step hop hturn

/-- Both calls read the row before either writes. -/
theorem run_overlap (op op' : RowOp) (hread : op.isEmpty = false) (hread' : op'.isEmpty = false)
    (hwrite : op.isRepaired texts defaultProvider canonicalize row.toMetadata = false)
    (hwrite' : op'.isRepaired texts defaultProvider canonicalize row.toMetadata = false) :
    Run (rowStep texts defaultProvider canonicalize) ⟨row, 0⟩
      [none, some .other, none, some .other,
        some (.wrote op' row.toMetadata
          (op'.update texts defaultProvider canonicalize none row.toMetadata).toRow),
        some (.wrote op row.toMetadata
          (op.update texts defaultProvider canonicalize none row.toMetadata).toRow)]
      ⟨(op.update texts defaultProvider canonicalize none row.toMetadata).toRow, 0⟩ := by
  have hreads : Run (rowStep texts defaultProvider canonicalize) ⟨row, 0⟩
      [none, some .other, none, some .other,
        some (.wrote op' row.toMetadata
          (op'.update texts defaultProvider canonicalize none row.toMetadata).toRow)]
      ⟨(op'.update texts defaultProvider canonicalize none row.toMetadata).toRow,
        0 + {.writing op row.toMetadata}⟩ :=
    .cons (.start (.mk op)) (.cons (.alone (.read hread)) (.cons (.start (.mk op'))
      (.cons (.call (.read hread')) (.single (.next (.write none hwrite'))))))
  rw [zero_add] at hreads
  exact hreads.append (.single (.alone (.write none hwrite)))

end

/-! ## A thread that is archived while its rollout is recorded -/

def liveRow : ThreadRow := ((sessionBuilder "/real").build plainTexts "openai").toRow

def recordTokens (totalTokens : Int) : RowOp :=
  .applyRolloutItems (sessionBuilder "/real") [.tokenCount (some totalTokens)]

def archive : RowOp := .markArchived ["archived.jsonl"] ⟨2026, 1, 28, 0, 0, 0, 0⟩

/-- Recording alone leaves the row up to date. -/
theorem upToDate_of_recording : ∃ ls c,
    Run (fun c l c' => rowStep plainTexts "openai" resolveLink c l c' ∧ InTurn c.shared l)
      ⟨liveRow, 0⟩ ls c ∧
    UpToDate plainTexts "openai" liveRow ls c.shared ∧ c.shared.tokensUsed = 7 := by
  have hturn {l : Option RowEvent} (hl : ∀ op read row', l ≠ some (.wrote op read row')) :
      InTurn liveRow l := fun op read row' heq => absurd heq (hl op read row')
  have hrun : Run (fun c l c' => rowStep plainTexts "openai" resolveLink c l c' ∧
      InTurn c.shared l) ⟨liveRow, 0⟩
      [none, some .other, some (.wrote (recordTokens 7) liveRow.toMetadata
        ((recordTokens 7).update plainTexts "openai" resolveLink none liveRow.toMetadata).toRow)]
      ⟨((recordTokens 7).update plainTexts "openai" resolveLink none liveRow.toMetadata).toRow, 0⟩ := by
    refine .cons ⟨.start (.mk (recordTokens 7)), hturn (by simp)⟩
      (.cons ⟨.alone (.read rfl), hturn (by simp)⟩ (.single ⟨.alone (.write none rfl), ?_⟩))
    rintro op read row' heq
    cases heq
    refine ⟨rfl, fun builder items heq => ?_⟩
    cases heq
    rfl
  exact ⟨_, _, hrun, upToDate_of_run hrun, rfl⟩

/-- A call that applies items may write back the placement of before an archive, and of two such
calls one may write back the content of before the other. -/
theorem not_upToDate_of_overlap :
    (¬ ∀ (start : ThreadRow) (ls : List (Option RowEvent)) (c : Config ThreadRow RowCall),
      Run (rowStep plainTexts "openai" resolveLink) ⟨start, 0⟩ ls c → c.calls = 0 →
        c.shared.placement = lastPlacement start.placement ls) ∧
    (¬ ∀ (start : ThreadRow) (ls : List (Option RowEvent)) (c : Config ThreadRow RowCall),
      Run (rowStep plainTexts "openai" resolveLink) ⟨start, 0⟩ ls c → c.calls = 0 →
        c.shared.toMetadata.content = ((writtenItems ls).foldl
          (applyRolloutItem plainTexts "openai") start.toMetadata).content) := by
  constructor
  · intro hall
    have h := hall liveRow _ _ (run_overlap (recordTokens 7) archive rfl rfl rfl rfl) rfl
    have harchived := congrArg (fun p => p.1.isSome) h
    revert harchived
    decide
  · intro hall
    have h := hall liveRow _ _ (run_overlap
      (.applyRolloutItems (sessionBuilder "/real") [.otherEvent]) (recordTokens 7) rfl rfl rfl rfl) rfl
    have htokens := congrArg Prod.fst h
    revert htokens
    decide

end SheriMl.State
