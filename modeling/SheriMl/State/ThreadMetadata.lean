import SheriMl.Protocol.Rollout
import SheriMl.Protocol.SandboxPolicy
import SheriMl.Rollout.ThreadList

/-!
# Thread metadata

The metadata of a thread and its row in the state database: `state/src/model/thread_metadata.rs`,
`state/src/extract.rs`, and the builders of `core/src/rollout/metadata.rs`. A row keeps times to the
second and has no absent first user message. How enumerations are written is open (`EnumTexts`).
-/

namespace SheriMl.State

open Protocol
open ThreadList (Formats GitInfo OffsetDateTime PathBuf SessionMetaLine SessionSource Uuid
  parseTimestampUuidFromFilename stripUserMessagePrefix)

/-- `enum_to_string`, for the types that it is used at. -/
structure EnumTexts where
  source : SessionSource → Str
  sandboxPolicy : SandboxPolicy → Str
  approvalMode : AskForApproval → Str

/-- The entries of a rollout, as the metadata tells them apart. -/
inductive RolloutItem where
  | sessionMeta (line : SessionMetaLine)
  | responseItem
  | compacted
  | turnContext (cwd : Str) (sandboxPolicy : SandboxPolicy) (approvalPolicy : AskForApproval)
  /-- `TokenCount`, by the total tokens of its info. -/
  | tokenCount (totalTokens : Option Int)
  | userMessage (user : UserMessageEvent)
  | otherEvent

structure ThreadMetadata where
  id : Uuid
  rolloutPath : PathBuf
  createdAt : OffsetDateTime
  updatedAt : OffsetDateTime
  source : Str
  modelProvider : Str
  cwd : Str
  cliVersion : Str
  title : Str
  sandboxPolicy : Str
  approvalMode : Str
  tokensUsed : Int
  firstUserMessage : Option Str
  archivedAt : Option OffsetDateTime
  gitSha : Option Str
  gitBranch : Option Str
  gitOriginUrl : Option Str
  deriving DecidableEq

structure ThreadMetadataBuilder where
  id : Uuid
  rolloutPath : PathBuf
  createdAt : OffsetDateTime
  updatedAt : Option OffsetDateTime
  source : SessionSource
  modelProvider : Option Str
  cwd : Str
  cliVersion : Option Str
  sandboxPolicy : SandboxPolicy
  approvalMode : AskForApproval
  archivedAt : Option OffsetDateTime
  gitSha : Option Str
  gitBranch : Option Str
  gitOriginUrl : Option Str

/-- `with_nanosecond(0)`. -/
def canonicalizeDatetime (dt : OffsetDateTime) : OffsetDateTime := { dt with nanosecond := 0 }

@[simp] theorem canonicalizeDatetime_idem (dt : OffsetDateTime) :
    canonicalizeDatetime (canonicalizeDatetime dt) = canonicalizeDatetime dt := rfl

namespace ThreadMetadataBuilder

def new (id : Uuid) (rolloutPath : PathBuf) (createdAt : OffsetDateTime) (source : SessionSource) :
    ThreadMetadataBuilder where
  id
  rolloutPath
  createdAt
  updatedAt := none
  source
  modelProvider := none
  cwd := []
  cliVersion := none
  sandboxPolicy := .newReadOnlyPolicy
  approvalMode := .onRequest
  archivedAt := none
  gitSha := none
  gitBranch := none
  gitOriginUrl := none

def build (texts : EnumTexts) (defaultProvider : Str) (b : ThreadMetadataBuilder) :
    ThreadMetadata where
  id := b.id
  rolloutPath := b.rolloutPath
  createdAt := canonicalizeDatetime b.createdAt
  updatedAt := (b.updatedAt.map canonicalizeDatetime).getD (canonicalizeDatetime b.createdAt)
  source := texts.source b.source
  modelProvider := b.modelProvider.getD defaultProvider
  cwd := b.cwd
  cliVersion := b.cliVersion.getD []
  title := []
  sandboxPolicy := texts.sandboxPolicy b.sandboxPolicy
  approvalMode := texts.approvalMode b.approvalMode
  tokensUsed := 0
  firstUserMessage := none
  archivedAt := b.archivedAt.map canonicalizeDatetime
  gitSha := b.gitSha
  gitBranch := b.gitBranch
  gitOriginUrl := b.gitOriginUrl

end ThreadMetadataBuilder

/-- With the time of the rollout's last change, if it is known. -/
def ThreadMetadata.withUpdatedAt (m : ThreadMetadata) (modified : Option OffsetDateTime) :
    ThreadMetadata :=
  { m with updatedAt := modified.getD m.updatedAt }

def ThreadMetadata.withCwd (m : ThreadMetadata) (cwd : Str) : ThreadMetadata := { m with cwd }

def ThreadMetadata.withArchivedAt (m : ThreadMetadata) (archivedAt : Option OffsetDateTime) :
    ThreadMetadata :=
  { m with archivedAt }

def ThreadMetadata.withRolloutPath (m : ThreadMetadata) (rolloutPath : PathBuf) : ThreadMetadata :=
  { m with rolloutPath }

def ThreadMetadataBuilder.withCwd (b : ThreadMetadataBuilder) (cwd : Str) : ThreadMetadataBuilder :=
  { b with cwd }

/-! ## Builders of a rollout -/

/-- A time as file names write it, or one of RFC 3339. -/
def parseTimestampToUtc (fmt : Formats) (ts : Str) : Option OffsetDateTime :=
  ((fmt.parseFileTime ts).or (fmt.parseRfc3339 ts)).map canonicalizeDatetime

def sessionMetaBuilder (line : SessionMetaLine) (rolloutPath : PathBuf)
    (createdAt : OffsetDateTime) : ThreadMetadataBuilder :=
  { ThreadMetadataBuilder.new line.id rolloutPath createdAt line.source with
    modelProvider := line.modelProvider
    cwd := line.cwd
    cliVersion := some line.cliVersion
    sandboxPolicy := .newReadOnlyPolicy
    approvalMode := .onRequest
    gitSha := line.git.bind GitInfo.commitHash
    gitBranch := line.git.bind GitInfo.branch
    gitOriginUrl := line.git.bind GitInfo.repositoryUrl }

def builderFromSessionMeta (fmt : Formats) (line : SessionMetaLine) (rolloutPath : PathBuf) :
    Option ThreadMetadataBuilder :=
  (parseTimestampToUtc fmt line.timestamp).map (sessionMetaBuilder line rolloutPath)

/-- The builder of the first session-meta line, or else of the file's name. -/
def builderFromItems (fmt : Formats) (items : List RolloutItem) (rolloutPath : PathBuf) :
    Option ThreadMetadataBuilder :=
  let sessionMeta := items.findSome? fun
    | .sessionMeta line => some line
    | _ => none
  (sessionMeta.bind fun line => builderFromSessionMeta fmt line rolloutPath).or do
    let fileName ← rolloutPath.getLast?
    let (createdTs, uuid) ← parseTimestampUuidFromFilename fmt fileName
    some (.new uuid rolloutPath (canonicalizeDatetime createdTs) .vscode)

/-! ## Items -/

def applySessionMetaFromItem (texts : EnumTexts) (m : ThreadMetadata) (line : SessionMetaLine) :
    ThreadMetadata :=
  if m.id ≠ line.id then m
  else
    { m with
      source := texts.source line.source
      modelProvider := line.modelProvider.getD m.modelProvider
      cliVersion := if line.cliVersion.isEmpty then m.cliVersion else line.cliVersion
      cwd := if line.cwd.isEmpty then m.cwd else line.cwd
      gitSha := line.git.elim m.gitSha GitInfo.commitHash
      gitBranch := line.git.elim m.gitBranch GitInfo.branch
      gitOriginUrl := line.git.elim m.gitOriginUrl GitInfo.repositoryUrl }

def imageOnlyUserMessagePlaceholder : Str := "[Image]"

def userMessagePreview (user : UserMessageEvent) : Option Str :=
  let message := stripUserMessagePrefix user.message
  if !message.isEmpty then some message
  else if user.images.any (!·.isEmpty) || !user.localImages.isEmpty then
    some imageOnlyUserMessagePlaceholder
  else none

def applyUserMessage (m : ThreadMetadata) (user : UserMessageEvent) : ThreadMetadata :=
  { m with
    firstUserMessage := m.firstUserMessage.or (userMessagePreview user)
    title := if m.title.isEmpty then stripUserMessagePrefix user.message else m.title }

/-- What an item does, before the default provider is filled in. -/
def applyItem (texts : EnumTexts) (m : ThreadMetadata) : RolloutItem → ThreadMetadata
  | .sessionMeta line => applySessionMetaFromItem texts m line
  | .turnContext cwd sandboxPolicy approvalPolicy =>
    { m with
      cwd
      sandboxPolicy := texts.sandboxPolicy sandboxPolicy
      approvalMode := texts.approvalMode approvalPolicy }
  | .tokenCount (some totalTokens) => { m with tokensUsed := max totalTokens 0 }
  | .userMessage user => applyUserMessage m user
  | .tokenCount none | .responseItem | .compacted | .otherEvent => m

def fillModelProvider (defaultProvider : Str) (m : ThreadMetadata) : ThreadMetadata :=
  if m.modelProvider.isEmpty then { m with modelProvider := defaultProvider } else m

def applyRolloutItem (texts : EnumTexts) (defaultProvider : Str) (m : ThreadMetadata)
    (item : RolloutItem) : ThreadMetadata :=
  fillModelProvider defaultProvider (applyItem texts m item)

/-! ## Rows -/

structure EpochSeconds where
  time : OffsetDateTime
  whole : time.nanosecond = 0
  deriving DecidableEq

def datetimeToEpochSeconds (dt : OffsetDateTime) : EpochSeconds := ⟨canonicalizeDatetime dt, rfl⟩

def epochSecondsToDatetime (secs : EpochSeconds) : OffsetDateTime := secs.time

@[simp] theorem datetimeToEpochSeconds_epochSecondsToDatetime (secs : EpochSeconds) :
    datetimeToEpochSeconds (epochSecondsToDatetime secs) = secs := by
  obtain ⟨time, whole⟩ := secs
  have h : canonicalizeDatetime time = time := by rw [canonicalizeDatetime, ← whole]
  simp [datetimeToEpochSeconds, epochSecondsToDatetime, h]

structure ThreadRow where
  id : Uuid
  rolloutPath : PathBuf
  createdAt : EpochSeconds
  updatedAt : EpochSeconds
  source : Str
  modelProvider : Str
  cwd : Str
  cliVersion : Str
  title : Str
  sandboxPolicy : Str
  approvalMode : Str
  tokensUsed : Int
  firstUserMessage : Str
  archived : Bool
  archivedAt : Option EpochSeconds
  gitSha : Option Str
  gitBranch : Option Str
  gitOriginUrl : Option Str
  deriving DecidableEq

/-- The values that `upsert_thread` binds. -/
def ThreadMetadata.toRow (m : ThreadMetadata) : ThreadRow where
  id := m.id
  rolloutPath := m.rolloutPath
  createdAt := datetimeToEpochSeconds m.createdAt
  updatedAt := datetimeToEpochSeconds m.updatedAt
  source := m.source
  modelProvider := m.modelProvider
  cwd := m.cwd
  cliVersion := m.cliVersion
  title := m.title
  sandboxPolicy := m.sandboxPolicy
  approvalMode := m.approvalMode
  tokensUsed := m.tokensUsed
  firstUserMessage := m.firstUserMessage.getD []
  archived := m.archivedAt.isSome
  archivedAt := m.archivedAt.map datetimeToEpochSeconds
  gitSha := m.gitSha
  gitBranch := m.gitBranch
  gitOriginUrl := m.gitOriginUrl

/-- `ThreadMetadata::try_from` of a row. -/
def ThreadRow.toMetadata (row : ThreadRow) : ThreadMetadata where
  id := row.id
  rolloutPath := row.rolloutPath
  createdAt := epochSecondsToDatetime row.createdAt
  updatedAt := epochSecondsToDatetime row.updatedAt
  source := row.source
  modelProvider := row.modelProvider
  cwd := row.cwd
  cliVersion := row.cliVersion
  title := row.title
  sandboxPolicy := row.sandboxPolicy
  approvalMode := row.approvalMode
  tokensUsed := row.tokensUsed
  firstUserMessage := if row.firstUserMessage.isEmpty then none else some row.firstUserMessage
  archivedAt := row.archivedAt.map epochSecondsToDatetime
  gitSha := row.gitSha
  gitBranch := row.gitBranch
  gitOriginUrl := row.gitOriginUrl

/-! ## Metadata that a row keeps -/

/-- The times are whole seconds, and a first user message is not empty. -/
structure ThreadMetadata.Canonical (m : ThreadMetadata) : Prop where
  createdAt : canonicalizeDatetime m.createdAt = m.createdAt
  archivedAt : m.archivedAt.map canonicalizeDatetime = m.archivedAt
  firstUserMessage : m.firstUserMessage ≠ some []

/-- The metadata but for the time of the last update. -/
def ThreadMetadata.settled (m : ThreadMetadata) : ThreadMetadata :=
  { m with updatedAt := OffsetDateTime.unixEpoch }

def ThreadRow.settled (row : ThreadRow) : ThreadRow :=
  { row with updatedAt := datetimeToEpochSeconds OffsetDateTime.unixEpoch }

section

variable {texts : EnumTexts} {defaultProvider : Str} {m m' : ThreadMetadata} {item : RolloutItem}

@[simp] theorem settled_settled : m.settled.settled = m.settled := rfl

theorem settled_toRow : m.toRow.settled = m.settled.toRow.settled := rfl

@[simp] theorem settled_withUpdatedAt {modified : Option OffsetDateTime} :
    (m.withUpdatedAt modified).settled = m.settled := rfl

theorem withArchivedAt_self {archivedAt : Option OffsetDateTime} (h : m.archivedAt = archivedAt) :
    m.withArchivedAt archivedAt = m := by
  subst h
  rfl

theorem withRolloutPath_self {path : PathBuf} (h : m.rolloutPath = path) :
    m.withRolloutPath path = m := by
  subst h
  rfl

theorem firstUserMessage_toRow (h : m.firstUserMessage ≠ some []) :
    m.toRow.toMetadata.firstUserMessage = m.firstUserMessage := by
  rw [ThreadMetadata.toRow, ThreadRow.toMetadata]
  cases hm : m.firstUserMessage with
  | none => rfl
  | some text =>
    cases text with
    | nil => exact absurd hm h
    | cons c text => rfl

/-- A row gives back the metadata written, but for the time of the last update. -/
theorem settled_toMetadata_toRow (h : m.Canonical) : m.toRow.toMetadata.settled = m.settled := by
  have hfirst := firstUserMessage_toRow h.firstUserMessage
  have hcreated : m.toRow.toMetadata.createdAt = m.createdAt := h.createdAt
  have harchived : m.toRow.toMetadata.archivedAt = m.archivedAt :=
    (Option.map_map ..).trans h.archivedAt
  unfold ThreadMetadata.settled
  rw [hfirst, hcreated, harchived]
  rfl

theorem canonical_toMetadata (row : ThreadRow) : row.toMetadata.Canonical := by
  have hsecs (secs : EpochSeconds) :
      canonicalizeDatetime (epochSecondsToDatetime secs) = epochSecondsToDatetime secs :=
    congrArg EpochSeconds.time (datetimeToEpochSeconds_epochSecondsToDatetime secs)
  refine ⟨hsecs row.createdAt, ?_, ?_⟩
  · cases harchived : row.archivedAt with
    | none => simp [ThreadRow.toMetadata, harchived]
    | some secs => simp [ThreadRow.toMetadata, harchived, hsecs secs]
  · intro heq
    rw [ThreadRow.toMetadata] at heq
    split at heq
    · cases heq
    · next hempty => exact hempty (List.isEmpty_iff.2 (Option.some.inj heq))

theorem userMessagePreview_ne {user : UserMessageEvent} : userMessagePreview user ≠ some [] := by
  rw [userMessagePreview]
  split
  · next hmessage =>
    intro heq
    rw [Option.some.inj heq] at hmessage
    cases hmessage
  · split
    · intro heq
      cases heq
    · intro heq
      cases heq

theorem canonical_build {b : ThreadMetadataBuilder} : (b.build texts defaultProvider).Canonical where
  createdAt := rfl
  archivedAt := Option.map_map ..
  firstUserMessage := fun heq => by cases heq

theorem ThreadMetadata.Canonical.applyItem (h : m.Canonical) :
    (applyItem texts m item).Canonical := by
  cases item with
  | sessionMeta line =>
    rw [State.applyItem, applySessionMetaFromItem]
    split
    · exact h
    · exact ⟨h.createdAt, h.archivedAt, h.firstUserMessage⟩
  | turnContext => exact ⟨h.createdAt, h.archivedAt, h.firstUserMessage⟩
  | tokenCount totalTokens =>
    cases totalTokens with
    | none => exact h
    | some => exact ⟨h.createdAt, h.archivedAt, h.firstUserMessage⟩
  | userMessage user =>
    refine ⟨h.createdAt, h.archivedAt, fun heq => ?_⟩
    obtain heq | ⟨-, heq⟩ := Option.or_eq_some_iff.1 heq
    · exact h.firstUserMessage heq
    · exact userMessagePreview_ne heq
  | responseItem | compacted | otherEvent => exact h

theorem ThreadMetadata.Canonical.applyRolloutItem (h : m.Canonical) :
    (applyRolloutItem texts defaultProvider m item).Canonical := by
  have hitem : (State.applyItem texts m item).Canonical := h.applyItem
  unfold State.applyRolloutItem fillModelProvider
  split
  · exact ⟨hitem.createdAt, hitem.archivedAt, hitem.firstUserMessage⟩
  · exact hitem

theorem settled_applyItem :
    (applyItem texts m item).settled = applyItem texts m.settled item := by
  cases item with
  | sessionMeta line =>
    simp only [applyItem, applySessionMetaFromItem]
    split
    · next hid => rw [if_pos (show m.settled.id ≠ line.id from hid)]
    · next hid =>
      rw [if_neg (show ¬m.settled.id ≠ line.id from hid)]
      rfl
  | tokenCount totalTokens =>
    cases totalTokens with
    | none | some => rfl
  | turnContext | userMessage | responseItem | compacted | otherEvent => rfl

/-- The time of the last update is not read. -/
theorem settled_applyRolloutItem : (applyRolloutItem texts defaultProvider m item).settled =
    applyRolloutItem texts defaultProvider m.settled item := by
  rw [applyRolloutItem, applyRolloutItem, ← settled_applyItem]
  unfold fillModelProvider
  split
  · next hempty =>
    rw [if_pos (show (applyItem texts m item).settled.modelProvider.isEmpty from hempty)]
    rfl
  · next hempty =>
    rw [if_neg (show ¬(applyItem texts m item).settled.modelProvider.isEmpty from hempty)]

theorem settled_foldl {items : List RolloutItem} :
    (items.foldl (applyRolloutItem texts defaultProvider) m).settled =
      items.foldl (applyRolloutItem texts defaultProvider) m.settled := by
  induction items generalizing m with
  | nil => rfl
  | cons item items ih => rw [List.foldl_cons, ih, settled_applyRolloutItem, List.foldl_cons]

theorem ThreadMetadata.Canonical.foldl (h : m.Canonical) (items : List RolloutItem) :
    (items.foldl (State.applyRolloutItem texts defaultProvider) m).Canonical := by
  induction items generalizing m with
  | nil => exact h
  | cons item items ih => exact ih h.applyRolloutItem

/-- What identifies a thread and tells where it is. -/
def ThreadMetadata.place (m : ThreadMetadata) : Uuid × PathBuf × Option OffsetDateTime :=
  (m.id, m.rolloutPath, m.archivedAt)

/-- No item moves, renames or archives a thread. -/
theorem place_applyRolloutItem :
    (applyRolloutItem texts defaultProvider m item).place = m.place := by
  have hitem : (applyItem texts m item).place = m.place := by
    cases item with
    | sessionMeta line =>
      rw [applyItem, applySessionMetaFromItem]
      split <;> rfl
    | tokenCount totalTokens =>
      cases totalTokens with
      | none | some => rfl
    | turnContext | userMessage | responseItem | compacted | otherEvent => rfl
  rw [applyRolloutItem, fillModelProvider]
  split
  · exact hitem
  · exact hitem

theorem place_foldl {items : List RolloutItem} :
    (items.foldl (applyRolloutItem texts defaultProvider) m).place = m.place := by
  induction items generalizing m with
  | nil => rfl
  | cons item items ih => rw [List.foldl_cons, ih, place_applyRolloutItem]

end

end SheriMl.State
