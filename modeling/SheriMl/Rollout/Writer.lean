import SheriMl.Lib.Transition
import SheriMl.State.Reconcile

/-!
# Writing a rollout

`rollout_writer` of `core/src/rollout/recorder.rs`. The file of a new session is created by the first
`Persist`; until then the writer buffers the items. The file of a resumed session is open from the
start. What the file system, the clock and git answer while a command is processed is its `Io`; a
write or a flush that fails ends the writer.
-/

namespace SheriMl.RolloutRecorder

open State (Batch ThreadMetadataBuilder builderFromItems builderFromSessionMeta
  normalizeCwdForStateDb)
open ThreadList (Formats GitInfo OffsetDateTime PathBuf SessionMetaLine SessionSource Uuid)
open Transition

structure SessionMeta where
  id : Uuid
  timestamp : Str
  cwd : Str
  cliVersion : Str
  source : SessionSource
  modelProvider : Option Str

/-- `SessionMetaLine { meta, git }`. -/
def SessionMeta.withGit (m : SessionMeta) (git : Option GitInfo) : SessionMetaLine where
  id := m.id
  timestamp := m.timestamp
  cwd := m.cwd
  cliVersion := m.cliVersion
  source := m.source
  modelProvider := m.modelProvider
  git

structure LogFileInfo where
  path : PathBuf
  conversationId : Uuid
  timestamp : OffsetDateTime

/-- Commands, with the channels that they are acknowledged on. -/
inductive RolloutCmd (ι : Type) where
  | addItems (items : List ι)
  | persist (ack : Nat)
  | flush (ack : Nat)
  | shutdown (ack : Nat)

/-- The items of a rollout, as far as the writer knows them: the one of a session's metadata, what
the state database reads of an item, and the JSON of a line. -/
structure ItemFormat (ι : Type) where
  sessionMeta : SessionMetaLine → ι
  view : ι → State.RolloutItem
  toJson : Str → ι → Str

/-- What the writer is given once; `stateDb` tells whether there is a state database. -/
structure Context (ι : Type) where
  items : ItemFormat ι
  formats : Formats
  canonicalize : Str → Option Str
  rolloutPath : PathBuf
  stateDb : Bool

/-- Writing a line: its time and, if the write fails, how much of the line is written. -/
structure LineIo where
  timestamp : Str
  failed : Option Nat

structure Io where
  opens : Bool
  metaLine : LineIo
  line : Nat → LineIo
  flushes : Bool
  git : Option GitInfo
  modified : Option OffsetDateTime

structure RolloutWriter (ι : Type) where
  disk : PathBuf → Option Str
  /-- The path that the open file has. -/
  writer : Option PathBuf
  deferredLogFileInfo : Option LogFileInfo
  sessionMeta : Option SessionMeta
  bufferedItems : List ι
  stateBuilder : Option ThreadMetadataBuilder
  /-- The calls of `StateRuntime::apply_rollout_items`. -/
  batches : List Batch
  acks : List Nat
  running : Bool

variable {ι : Type}

/-! ## Lines -/

/-- `write_line`. -/
def writeLine (io : LineIo) (json content : Str) : Str × Bool :=
  match io.failed with
  | none => (content ++ (json ++ ['\n']), true)
  | some written => (content ++ (json ++ ['\n']).take written, false)

/-- `write_rollout_item` for each item. -/
def writeRolloutItems (toJson : Str → ι → Str) (io : Nat → LineIo) (content : Str) :
    Nat → List ι → Str × Bool
  | _, [] => (content, true)
  | n, item :: items =>
    match writeLine (io n) (toJson (io n).timestamp item) content with
    | (content, true) => writeRolloutItems toJson io content (n + 1) items
    | (content, false) => (content, false)

namespace RolloutWriter

variable (ctx : Context ι) (io : Io)

/-- What follows a step that may fail. -/
def andThen (r : RolloutWriter ι × Bool) (f : RolloutWriter ι → RolloutWriter ι × Bool) :
    RolloutWriter ι × Bool :=
  if r.2 then f r.1 else r

/-- The lines of items at the end of the open file. -/
def writeItems (lineIo : Nat → LineIo) (items : List ι) (s : RolloutWriter ι) :
    RolloutWriter ι × Bool :=
  match s.writer with
  | none => (s, true)
  | some path =>
    let (content, ok) := writeRolloutItems ctx.items.toJson lineIo ((s.disk path).getD []) 0 items
    ({ s with disk := Function.update s.disk path (some content) }, ok)

/-- `apply_rollout_items`, which `reconcile_rollout` comes to when there are items. -/
def applyRolloutItems (items : List ι) (s : RolloutWriter ι) : RolloutWriter ι :=
  if ctx.stateDb then
    let views := items.map ctx.items.view
    match s.stateBuilder.or (builderFromItems ctx.formats views ctx.rolloutPath) with
    | none => s
    | some builder =>
      let builder := { builder with
        rolloutPath := ctx.rolloutPath
        cwd := normalizeCwdForStateDb ctx.canonicalize builder.cwd }
      { s with batches := s.batches ++ [⟨builder, views, io.modified⟩] }
  else s

def writeSessionMeta (sessionMeta : SessionMeta) (s : RolloutWriter ι) : RolloutWriter ι × Bool :=
  let sessionMetaLine := sessionMeta.withGit io.git
  let s := if ctx.stateDb then
      { s with stateBuilder := builderFromSessionMeta ctx.formats sessionMetaLine ctx.rolloutPath }
    else s
  let rolloutItem := ctx.items.sessionMeta sessionMetaLine
  andThen (s.writeItems ctx (fun _ => io.metaLine) [rolloutItem]) fun s =>
    (s.applyRolloutItems ctx io [rolloutItem], true)

/-- The builder, if there is one, is for the writer's path. -/
def setBuilderPath (s : RolloutWriter ι) : RolloutWriter ι :=
  let atPath (builder : ThreadMetadataBuilder) : ThreadMetadataBuilder :=
    { builder with rolloutPath := ctx.rolloutPath }
  { s with stateBuilder := s.stateBuilder.map atPath }

def writeAndReconcileItems (items : List ι) (s : RolloutWriter ι) : RolloutWriter ι × Bool :=
  andThen (s.writeItems ctx io.line items) fun s =>
    ((s.setBuilderPath ctx).applyRolloutItems ctx io items, true)

/-- `meta.take()`, and writing what it gives. -/
def takeSessionMeta (s : RolloutWriter ι) : RolloutWriter ι × Bool :=
  match s.sessionMeta with
  | none => (s, true)
  | some sessionMeta =>
    writeSessionMeta ctx io sessionMeta { s with sessionMeta := none }

def writeBufferedItems (s : RolloutWriter ι) : RolloutWriter ι × Bool :=
  if s.bufferedItems.isEmpty then (s, true)
  else
    andThen (s.writeAndReconcileItems ctx io s.bufferedItems) fun s =>
      ({ s with bufferedItems := [] }, true)

/-- `open_log_file`, for appending. -/
def openLogFile (path : PathBuf) (s : RolloutWriter ι) : RolloutWriter ι × Bool :=
  if io.opens then
    ({ s with
      disk := Function.update s.disk path (some ((s.disk path).getD []))
      writer := some path }, true)
  else (s, false)

/-- What the first `Persist` does. -/
def materialize (s : RolloutWriter ι) : RolloutWriter ι × Bool :=
  match s.deferredLogFileInfo with
  -- "deferred rollout recorder missing log file metadata"
  | none => (s, false)
  | some logFileInfo =>
    andThen (openLogFile io logFileInfo.path { s with deferredLogFileInfo := none }) fun s =>
      andThen (s.takeSessionMeta ctx io) fun s => s.writeBufferedItems ctx io

def ack (ack : Nat) (s : RolloutWriter ι) : RolloutWriter ι := { s with acks := s.acks ++ [ack] }

/-- The writer goes on, or returns its error. -/
def finish (r : RolloutWriter ι × Bool) : RolloutWriter ι := { r.1 with running := r.2 }

/-- The loop's body, for one command. -/
def process (cmd : RolloutCmd ι) (s : RolloutWriter ι) : RolloutWriter ι :=
  match cmd with
  | .addItems items =>
    if items.isEmpty then s
    else if s.writer.isNone then { s with bufferedItems := s.bufferedItems ++ items }
    else finish (s.writeAndReconcileItems ctx io items)
  | .persist ack =>
    if s.writer.isNone then (finish (s.materialize ctx io)).ack ack
    else s.ack ack
  | .flush ack =>
    if s.writer.isSome ∧ io.flushes = false then (finish (s, false)).ack ack
    else s.ack ack
  | .shutdown ack => s.ack ack

/-- What `rollout_writer` does before its loop. -/
def start (s : RolloutWriter ι) : RolloutWriter ι :=
  let s := s.setBuilderPath ctx
  if s.writer.isSome then finish (s.takeSessionMeta ctx io) else s

/-- The writer of a new session, whose file is not yet open. -/
def create (disk : PathBuf → Option Str) (logFileInfo : LogFileInfo) (sessionMeta : SessionMeta)
    (stateBuilder : Option ThreadMetadataBuilder) : RolloutWriter ι where
  disk
  writer := none
  deferredLogFileInfo := some logFileInfo
  sessionMeta := some sessionMeta
  bufferedItems := []
  stateBuilder
  batches := []
  acks := []
  running := true

/-- The writer of a resumed session, on the file that it has opened. -/
def resume (disk : PathBuf → Option Str) (path : PathBuf)
    (stateBuilder : Option ThreadMetadataBuilder) : RolloutWriter ι where
  disk
  writer := some path
  deferredLogFileInfo := none
  sessionMeta := none
  bufferedItems := []
  stateBuilder
  batches := []
  acks := []
  running := true

/-- A command is taken from the channel and processed. -/
def Step (ctx : Context ι) (s : RolloutWriter ι) (label : RolloutCmd ι × Io)
    (t : RolloutWriter ι) : Prop :=
  s.running ∧ s.process ctx label.2 label.1 = t

end RolloutWriter

end SheriMl.RolloutRecorder
