import Mathlib.Data.Char
import Mathlib.Data.List.Lex
import SheriMl.Lib.Lines
import SheriMl.Lib.Pool
import SheriMl.State.Reconcile

/-!
# Backfill of rollout metadata

`backfill_sessions` of `core/src/rollout/metadata.rs` over the statements of `state/src/runtime.rs`.
Any number of workers of any processes run it on one database, while others change the files. A
worker reads the two trees of rollouts directory by directory, sorts what it has found by watermark,
and writes the metadata batch by batch; every SQL statement is a step of its own and may fail, and a
worker may end before any step (`BackfillStep`). Paths are relative to `codex_home`. The row of the
backfill is there from the start: every statement comes after `ensure_backfill_state_row`.
-/

namespace SheriMl.State

open Pool Transition
open ThreadList (Formats OffsetDateTime PathBuf)

/-! ## Files -/

/-- What is at a path. Of a file only the items that it holds as a rollout are read. -/
inductive Entry where
  | file (items : List RolloutItem)
  | dir
  | other

/-- The files under `codex_home`; whatever has a name is in a directory. -/
structure Files where
  node : PathBuf → Option Entry
  parent_dir : ∀ path name, (node (path ++ [name])).isSome → node path = some .dir

namespace Files

/-- `read_dir`: the names in a directory, in any order. -/
structure Lists (files : Files) (dir : PathBuf) (names : List Str) : Prop where
  nodup : names.Nodup
  mem_iff : ∀ name, name ∈ names ↔ (files.node (dir ++ [name])).isSome

def isDir (files : Files) (path : PathBuf) : Bool :=
  match files.node path with
  | some .dir => true
  | some (.file _) | some .other | none => false

def isFile (files : Files) (path : PathBuf) : Bool :=
  match files.node path with
  | some (.file _) => true
  | some .dir | some .other | none => false

end Files

def rolloutPrefix : Str := "rollout-"

def rolloutSuffix : Str := ".jsonl"

def isRolloutName (name : Str) : Bool :=
  Str.startsWith name rolloutPrefix && Str.endsWith name rolloutSuffix

/-- The directories that a directory adds to the stack of `collect_rollout_paths`. -/
def subdirs (files : Files) (dir : PathBuf) (names : List Str) : List PathBuf :=
  (names.map fun name => dir ++ [name]).filter files.isDir

/-- The rollouts that a directory adds to the paths of `collect_rollout_paths`. -/
def rolloutsIn (files : Files) (dir : PathBuf) (names : List Str) : List PathBuf :=
  ((names.filter isRolloutName).map fun name => dir ++ [name]).filter files.isFile

/-! ## The state of the backfill -/

inductive BackfillStatus where
  | pending
  | running
  | complete
  deriving DecidableEq

structure BackfillState where
  status : BackfillStatus
  lastWatermark : Option Str
  lastSuccessAt : Option Int

/-- `BackfillState::default`, which is also the row as it is first inserted. -/
def BackfillState.default : BackfillState := ⟨.pending, none, none⟩

/-- The files, and the row of `backfill_state`. -/
structure Store where
  files : Files
  state : BackfillState
  updatedAt : Int

def backfillLeaseSeconds : Int := 900

namespace Store

variable (s : Store) (now : Int)

def withFiles (files : Files) : Store := { s with files }

/-- The row that `try_claim_backfill` updates, if it updates one. -/
def tryClaimBackfill : Option Store :=
  if s.state.status ≠ .complete ∧
      (s.state.status ≠ .running ∨ s.updatedAt ≤ now - max backfillLeaseSeconds 0) then
    some { s with state := { s.state with status := .running }, updatedAt := now }
  else none

def markBackfillRunning : Store :=
  { s with state := { s.state with status := .running }, updatedAt := now }

def checkpointBackfill (watermark : Str) : Store :=
  { s with
    state := { s.state with status := .running, lastWatermark := some watermark }
    updatedAt := now }

def markBackfillComplete (lastWatermark : Option Str) : Store :=
  { s with
    state := ⟨.complete, lastWatermark.or s.state.lastWatermark, some now⟩
    updatedAt := now }

end Store

/-! ## Workers -/

/-- `backfill_watermark_for_path`. -/
def backfillWatermarkForPath (path : PathBuf) : Str :=
  (['/'].intercalate path).map fun c => if c = '\\' then '/' else c

structure BackfillRolloutPath where
  watermark : Str
  path : PathBuf
  archived : Bool

def backfillRolloutPath (archived : Bool) (path : PathBuf) : BackfillRolloutPath :=
  ⟨backfillWatermarkForPath path, path, archived⟩

def backfillBatchSize : Nat := 200

/-- The trees of rollouts, with whether they are archived. -/
def backfillRoots : List (Str × Bool) := [("sessions", false), ("archived_sessions", true)]

/-- `chunks(BACKFILL_BATCH_SIZE)`. -/
def batchesOf : List BackfillRolloutPath → List (List BackfillRolloutPath)
  | [] => []
  | e :: es => (e :: es.take (backfillBatchSize - 1)) :: batchesOf (es.drop (backfillBatchSize - 1))
termination_by es => es.length
decreasing_by
  rw [List.length_drop, List.length_cons]
  omega

/-- Sorted by watermark, without those up to the last watermark. -/
def remainingRollouts (lastWatermark : Option Str) (found : List BackfillRolloutPath) :
    List BackfillRolloutPath :=
  let sorted := found.mergeSort fun a b => decide (a.watermark ≤ b.watermark)
  match lastWatermark with
  | none => sorted
  | some last => sorted.filter fun e => decide (last < e.watermark)

/-- A batch in progress: its last watermark, the batches that follow, and the last watermark that
the worker has written. -/
structure BatchInfo where
  last : Option Str
  batches : List (List BackfillRolloutPath)
  lastWatermark : Option Str

/-- A worker, by what it does next; or whoever else changes the files. -/
inductive BackfillCall where
  | starting
  | claiming
  | claimed
  | marking (lastWatermark : Option Str)
  | collecting (stack : List PathBuf) (archived : Bool) (roots : List (Str × Bool))
      (lastWatermark : Option Str) (found : List BackfillRolloutPath)
  | batching (batches : List (List BackfillRolloutPath)) (lastWatermark : Option Str)
  | scanning (rest : List BackfillRolloutPath) (info : BatchInfo)
  | upserting (entry : BackfillRolloutPath) (metadata : ThreadMetadata)
      (rest : List BackfillRolloutPath) (info : BatchInfo)
  | others

def BackfillCall.collect (lastWatermark : Option Str) : BackfillCall :=
  .collecting [] false backfillRoots lastWatermark []

inductive BackfillEvent where
  /-- `upsert_thread` on the metadata of the rollout at `path`, and whether it succeeds. -/
  | upserted (path : PathBuf) (metadata : ThreadMetadata) (ok : Bool)
  | other

variable (fmt : Formats) (texts : EnumTexts) (defaultProvider : Str)

/-- `extract_metadata_from_rollout` of what is at a path. -/
def Files.extract (files : Files) (path : PathBuf) (modified : Option OffsetDateTime) :
    Option ThreadMetadata :=
  match files.node path with
  | some (.file items) => extractMetadata fmt texts defaultProvider items path modified
  | some .dir | some .other | none => none

/-- The metadata that is written for an entry: an archived one has a time of archiving. -/
def BackfillRolloutPath.metadata (entry : BackfillRolloutPath) (modified : Option OffsetDateTime)
    (m : ThreadMetadata) : ThreadMetadata :=
  if entry.archived && m.archivedAt.isNone then
    m.withArchivedAt (modified.or (some m.updatedAt))
  else m

inductive BackfillStep : Store → BackfillCall → BackfillEvent → Store → Multiset BackfillCall → Prop
  | changed {s} (files : Files) : BackfillStep s .others .other (s.withFiles files) {.others}
  | notComplete {s} : s.state.status ≠ .complete → BackfillStep s .starting .other s {.claiming}
  | alreadyComplete {s} : s.state.status = .complete → BackfillStep s .starting .other s 0
  -- a state that cannot be read counts as the default
  | readFailed {s} : BackfillStep s .starting .other s {.claiming}
  | claim {s s'} (now : Int) : s.tryClaimBackfill now = some s' →
      BackfillStep s .claiming .other s' {.claimed}
  | notClaimed {s} (now : Int) : s.tryClaimBackfill now = none →
      BackfillStep s .claiming .other s 0
  | running {s} : s.state.status = .running →
      BackfillStep s .claimed .other s {.collect s.state.lastWatermark}
  | notRunning {s} : s.state.status ≠ .running →
      BackfillStep s .claimed .other s {.marking s.state.lastWatermark}
  | rereadFailed {s} : BackfillStep s .claimed .other s {.collect none}
  | marked {s start} (now : Int) :
      BackfillStep s (.marking start) .other (s.markBackfillRunning now) {.collect start}
  | notMarked {s start} : BackfillStep s (.marking start) .other s {.collect start}
  | root {s archived root archived' roots start found} : (s.files.node [root]).isSome →
      BackfillStep s (.collecting [] archived ((root, archived') :: roots) start found) .other s
        {.collecting [[root]] archived' roots start found}
  | noRoot {s archived root archived' roots start found} : s.files.node [root] = none →
      BackfillStep s (.collecting [] archived ((root, archived') :: roots) start found) .other s
        {.collecting [] archived' roots start found}
  | directory {s dir stack archived roots start found names} : s.files.isDir dir = true →
      s.files.Lists dir names →
      BackfillStep s (.collecting (dir :: stack) archived roots start found) .other s
        {.collecting ((subdirs s.files dir names).reverse ++ stack) archived roots start
          (found ++ (rolloutsIn s.files dir names).map (backfillRolloutPath archived))}
  | noDirectory {s dir stack archived roots start found} : s.files.isDir dir = false →
      BackfillStep s (.collecting (dir :: stack) archived roots start found) .other s
        {.collecting stack archived roots start found}
  | collected {s archived start found} :
      BackfillStep s (.collecting [] archived [] start found) .other s
        {.batching (batchesOf (remainingRollouts start found)) start}
  | batch {s batch batches lastWatermark} :
      BackfillStep s (.batching (batch :: batches) lastWatermark) .other s
        {.scanning batch
          ⟨batch.getLast?.map BackfillRolloutPath.watermark, batches, lastWatermark⟩}
  | extracted {s entry rest info m} (modified modified' : Option OffsetDateTime) :
      s.files.extract fmt texts defaultProvider entry.path modified = some m →
      BackfillStep s (.scanning (entry :: rest) info) .other s
        {.upserting entry (entry.metadata modified' m) rest info}
  | notExtracted {s entry rest info} (modified : Option OffsetDateTime) :
      s.files.extract fmt texts defaultProvider entry.path modified = none →
      BackfillStep s (.scanning (entry :: rest) info) .other s {.scanning rest info}
  | upsert {s entry metadata rest info} (ok : Bool) :
      BackfillStep s (.upserting entry metadata rest info) (.upserted entry.path metadata ok) s
        {.scanning rest info}
  | noLast {s info} : info.last = none →
      BackfillStep s (.scanning [] info) .other s {.batching info.batches info.lastWatermark}
  | checkpoint {s info watermark} (now : Int) : info.last = some watermark →
      BackfillStep s (.scanning [] info) .other (s.checkpointBackfill now watermark)
        {.batching info.batches (some watermark)}
  | notCheckpointed {s info} :
      BackfillStep s (.scanning [] info) .other s {.batching info.batches info.lastWatermark}
  | complete {s lastWatermark} (now : Int) :
      BackfillStep s (.batching [] lastWatermark) .other (s.markBackfillComplete now lastWatermark) 0
  -- the worker ends, or gives up after a statement that failed
  | dropped {s call} : BackfillStep s call .other s 0

inductive BackfillCall.Start : BackfillCall → Prop
  | worker : Start .starting
  | others : Start .others

def backfillStep : Config Store BackfillCall → Option BackfillEvent → Config Store BackfillCall →
    Prop :=
  Step BackfillCall.Start (BackfillStep fmt texts defaultProvider)

/-- A step from files of which `P` holds. -/
def backfillStepWhile (P : Files → Prop) (c : Config Store BackfillCall) (l : Option BackfillEvent)
    (c' : Config Store BackfillCall) : Prop :=
  P c.shared.files ∧ backfillStep fmt texts defaultProvider c l c'

section

variable {path path' : PathBuf}

/-- Names without a separator of either kind. -/
def Portable (path : PathBuf) : Prop := path ≠ [] ∧ ∀ name ∈ path, '/' ∉ name ∧ '\\' ∉ name

theorem splitOn_backfillWatermarkForPath (h : Portable path) :
    (backfillWatermarkForPath path).splitOn '/' = path := by
  have hmem : ∀ c ∈ ['/'].intercalate path, (if c = '\\' then '/' else c) = id c := by
    intro c hc
    refine if_neg ?_
    rintro rfl
    exact Str.notMem_join (by decide) (fun name hname => (h.2 name hname).2) hc
  rw [backfillWatermarkForPath, List.map_congr_left hmem, List.map_id]
  exact List.splitOn_intercalate '/' (fun name hname => (h.2 name hname).1) h.1

/-- Two paths with such names have different watermarks. -/
theorem eq_of_backfillWatermarkForPath_eq (h : Portable path) (h' : Portable path')
    (heq : backfillWatermarkForPath path = backfillWatermarkForPath path') : path = path' := by
  rw [← splitOn_backfillWatermarkForPath h, heq, splitOn_backfillWatermarkForPath h']

end

end SheriMl.State
