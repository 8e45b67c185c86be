import Mathlib.Data.Prod.Lex
import Mathlib.Order.Fin.Basic
import SheriMl.Lib.Loop
import SheriMl.Lib.Str

/-!
# Listing threads

`core/src/rollout/list.rs`: a page of the threads under a root, newest first. Rollout files lie
in directories for the year, the month and the day, or all in one; they are sorted by the time in
their name or by the time of their last change. The texts of times and of UUIDs are read and
written by other crates (`Formats`). A directory lists its entries in any order.
-/

namespace SheriMl.ThreadList

open Loop

universe u

/-! ## Times and cursors -/

instance neZero_uuids : NeZero (2 ^ 128) := ⟨by decide⟩

abbrev Uuid := Fin (2 ^ 128)

-- literals of the fields of a time
instance neZero_years : NeZero 10000 := ⟨by decide⟩
instance neZero_months : NeZero 13 := ⟨by decide⟩
instance neZero_days : NeZero 32 := ⟨by decide⟩
instance neZero_hours : NeZero 24 := ⟨by decide⟩
instance neZero_sixtieths : NeZero 60 := ⟨by decide⟩
instance neZero_nanoseconds : NeZero 1000000000 := ⟨by decide⟩

/-- A UTC time, of the years that file names and RFC 3339 can write. -/
structure OffsetDateTime where
  year : Fin 10000
  month : Fin 13
  day : Fin 32
  hour : Fin 24
  minute : Fin 60
  second : Fin 60
  nanosecond : Fin 1000000000
  deriving DecidableEq

namespace OffsetDateTime

/-- The fields, from the year down. -/
def lex (t : OffsetDateTime) :
    Fin 10000 ×ₗ Fin 13 ×ₗ Fin 32 ×ₗ Fin 24 ×ₗ Fin 60 ×ₗ Fin 60 ×ₗ Fin 1000000000 :=
  toLex (t.year, toLex (t.month, toLex (t.day, toLex (t.hour, toLex (t.minute,
    toLex (t.second, t.nanosecond))))))

theorem lex_injective : Function.Injective lex := by
  rintro ⟨y, mo, d, h, mi, s, n⟩ ⟨y', mo', d', h', mi', s', n'⟩ heq
  simpa only [lex, EmbeddingLike.apply_eq_iff_eq, Prod.mk.injEq, mk.injEq] using heq

instance : LinearOrder OffsetDateTime := LinearOrder.lift' lex lex_injective

def unixEpoch : OffsetDateTime := ⟨1970, 1, 1, 0, 0, 0, 0⟩

def truncateToSeconds (t : OffsetDateTime) : Option OffsetDateTime := some { t with nanosecond := 0 }

end OffsetDateTime

/-- How times and UUIDs are read and written: `OffsetDateTime::format` and `parse` of RFC 3339,
`PrimitiveDateTime::parse` of the format of file names, and the texts of a `Uuid`. -/
structure Formats where
  formatRfc3339 : OffsetDateTime → Option Str
  parseRfc3339 : Str → Option OffsetDateTime
  parseFileTime : Str → Option OffsetDateTime
  uuidToString : Uuid → Str
  parseUuid : Str → Option Uuid

/-- Reading inverts writing. -/
structure Formats.Lawful (fmt : Formats) : Prop where
  rfc3339 : ∀ t, ∃ s, fmt.formatRfc3339 t = some s ∧ fmt.parseRfc3339 s = some t ∧ '|' ∉ s
  uuid : ∀ id, fmt.parseUuid (fmt.uuidToString id) = some id

structure Cursor where
  ts : OffsetDateTime
  id : Uuid

namespace Cursor

def lex (c : Cursor) : OffsetDateTime ×ₗ Uuid := toLex (c.ts, c.id)

theorem lex_injective : Function.Injective lex := by
  rintro ⟨ts, id⟩ ⟨ts', id'⟩ heq
  simpa only [lex, EmbeddingLike.apply_eq_iff_eq, Prod.mk.injEq, mk.injEq] using heq

/-- By the time, and within a second by the UUID. -/
instance : LinearOrder Cursor := LinearOrder.lift' lex lex_injective

theorem lt_iff {c c' : Cursor} : c < c' ↔ c.ts < c'.ts ∨ c.ts = c'.ts ∧ c.id < c'.id :=
  Prod.Lex.toLex_lt_toLex

def serialize (fmt : Formats) (c : Cursor) : Option Str :=
  (fmt.formatRfc3339 c.ts).map fun ts => ts ++ '|' :: fmt.uuidToString c.id

end Cursor

def parseCursor (fmt : Formats) (token : Str) : Option Cursor := do
  let (fileTs, uuidStr) ← Str.splitOnce '|' token
  let uuid ← fmt.parseUuid uuidStr
  let ts ← (fmt.parseRfc3339 fileTs).or (fmt.parseFileTime fileTs)
  some ⟨ts, uuid⟩

/-- Where a listing left off. -/
structure AnchorState where
  ts : OffsetDateTime
  id : Uuid
  passed : Bool

namespace AnchorState

def new (anchor : Option Cursor) : AnchorState :=
  match anchor with
  | some cursor => ⟨cursor.ts, cursor.id, false⟩
  | none => ⟨OffsetDateTime.unixEpoch, 0, true⟩

def shouldSkip (a : AnchorState) (ts : OffsetDateTime) (id : Uuid) : Bool × AnchorState :=
  if a.passed then (false, a)
  else if ts < a.ts ∨ ts = a.ts ∧ id < a.id then (false, { a with passed := true })
  else (true, a)

end AnchorState

/-! ## Files and directories -/

inductive SubAgentSource where
  | review
  | compact
  | threadSpawn (parentThreadId : Uuid) (depth : Int)
  | memoryConsolidation
  | other (name : Str)
  deriving DecidableEq

inductive SessionSource where
  | cli
  | vscode
  | exec
  | mcp
  | subAgent (source : SubAgentSource)
  | unknown
  deriving DecidableEq

structure GitInfo where
  commitHash : Option Str
  branch : Option Str
  repositoryUrl : Option Str

structure SessionMetaLine where
  id : Uuid
  timestamp : Str
  cwd : Str
  cliVersion : Str
  source : SessionSource
  modelProvider : Option Str
  git : Option GitInfo

/-- The entry of a line, as the scan of a file's head tells them apart. -/
inductive HeadItem where
  | sessionMeta (line : SessionMetaLine)
  | responseItem
  | turnContext
  | compacted
  | userMessage (message : Str)
  | otherEvent

inductive HeadLine where
  | blank
  | invalid
  | line (timestamp : Str) (item : HeadItem)

/-- A file: its lines, if it can be read, and the time of its last change. -/
structure FileData where
  lines : Option (List HeadLine)
  modified : Option OffsetDateTime

def FileData.fileModifiedTime (file : FileData) : Option OffsetDateTime :=
  file.modified.bind OffsetDateTime.truncateToSeconds

inductive DirEntry where
  | file (data : FileData)
  | dir (entries : List (Str × DirEntry))
  | other

abbrev Dir := List (Str × DirEntry)

abbrev PathBuf := List Str

/-! ## Heads of files -/

def userMessageBegin : Str := "## My request for Codex:"

def stripUserMessagePrefix (text : Str) : Str :=
  match text.tails.find? fun rest => Str.startsWith rest userMessageBegin with
  | some rest => Str.trim (rest.drop userMessageBegin.length)
  | none => Str.trim text

structure HeadTailSummary where
  sawSessionMeta : Bool
  sawUserEvent : Bool
  threadId : Option Uuid
  firstUserMessage : Option Str
  cwd : Option Str
  gitBranch : Option Str
  gitSha : Option Str
  gitOriginUrl : Option Str
  source : Option SessionSource
  modelProvider : Option Str
  cliVersion : Option Str
  createdAt : Option Str
  updatedAt : Option Str

namespace HeadTailSummary

def default : HeadTailSummary :=
  ⟨false, false, none, none, none, none, none, none, none, none, none, none, none⟩

/-- What one line adds. -/
def scan (summary : HeadTailSummary) (timestamp : Str) : HeadItem → HeadTailSummary
  | .sessionMeta line =>
    if summary.sawSessionMeta then summary
    else
      { summary with
        source := some line.source
        modelProvider := line.modelProvider
        threadId := some line.id
        cwd := some line.cwd
        gitBranch := line.git.bind GitInfo.branch
        gitSha := line.git.bind GitInfo.commitHash
        gitOriginUrl := line.git.bind GitInfo.repositoryUrl
        cliVersion := some line.cliVersion
        createdAt := some line.timestamp
        sawSessionMeta := true }
  | .responseItem => { summary with createdAt := summary.createdAt.or (some timestamp) }
  | .userMessage text =>
    let message := stripUserMessagePrefix text
    { summary with
      sawUserEvent := true
      firstUserMessage :=
        summary.firstUserMessage.or (if message.isEmpty then none else some message) }
  | .turnContext | .compacted | .otherEvent => summary

end HeadTailSummary

def headRecordLimit : Nat := 10

def userEventScanLimit : Nat := 200

def readHeadLines (headLimit : Nat) : List HeadLine → Nat → HeadTailSummary → HeadTailSummary
  | [], _, summary => summary
  | line :: lines, linesScanned, summary =>
    if linesScanned < headLimit ∨
        summary.sawSessionMeta ∧ ¬summary.sawUserEvent ∧
          linesScanned < headLimit + userEventScanLimit then
      match line with
      | .blank => readHeadLines headLimit lines linesScanned summary
      | .invalid => readHeadLines headLimit lines (linesScanned + 1) summary
      | .line timestamp item =>
        let summary := summary.scan timestamp item
        if summary.sawSessionMeta && summary.sawUserEvent then summary
        else readHeadLines headLimit lines (linesScanned + 1) summary
    else summary

def readHeadSummary (file : FileData) (headLimit : Nat) : Option HeadTailSummary :=
  file.lines.map fun lines => readHeadLines headLimit lines 0 .default

/-! ## Thread items -/

structure ThreadItem where
  path : PathBuf
  threadId : Option Uuid
  firstUserMessage : Option Str
  cwd : Option Str
  gitBranch : Option Str
  gitSha : Option Str
  gitOriginUrl : Option Str
  source : Option SessionSource
  modelProvider : Option Str
  cliVersion : Option Str
  createdAt : Option Str
  updatedAt : Option Str

structure ProviderMatcher where
  filters : List Str
  matchesDefaultProvider : Bool

namespace ProviderMatcher

def new (filters : List Str) (defaultProvider : Str) : Option ProviderMatcher :=
  if filters.isEmpty then none else some ⟨filters, filters.any (· == defaultProvider)⟩

def «matches» (matcher : ProviderMatcher) (sessionProvider : Option Str) : Bool :=
  match sessionProvider with
  | some provider => matcher.filters.any (· == provider)
  | none => matcher.matchesDefaultProvider

end ProviderMatcher

structure Filters where
  allowedSources : List SessionSource
  providerMatcher : Option ProviderMatcher

def buildThreadItem (filters : Filters) (path : PathBuf) (file : FileData)
    (updatedAt : Option Str) : Option ThreadItem :=
  let summary := (readHeadSummary file headRecordLimit).getD .default
  if !filters.allowedSources.isEmpty && !summary.source.any (filters.allowedSources.contains ·) then
    none
  else if filters.providerMatcher.any fun matcher => !matcher.matches summary.modelProvider then none
  else if summary.sawSessionMeta && summary.sawUserEvent then
    some
      { path
        threadId := summary.threadId
        firstUserMessage := summary.firstUserMessage
        cwd := summary.cwd
        gitBranch := summary.gitBranch
        gitSha := summary.gitSha
        gitOriginUrl := summary.gitOriginUrl
        source := summary.source
        modelProvider := summary.modelProvider
        cliVersion := summary.cliVersion
        createdAt := summary.createdAt
        updatedAt := summary.updatedAt.or (updatedAt.or summary.createdAt) }
  else none

/-! ## Finding the files -/

def maxScanFiles : Nat := 10000

/-- A rollout file, with the time and the UUID of its name. -/
structure RolloutFile where
  ts : OffsetDateTime
  id : Uuid
  path : PathBuf
  file : FileData

def RolloutFile.created (f : RolloutFile) : Cursor := ⟨f.ts, f.id⟩

structure ThreadCandidate where
  path : PathBuf
  id : Uuid
  updatedAt : Option OffsetDateTime
  file : FileData

namespace ThreadCandidate

def new (f : RolloutFile) : ThreadCandidate := ⟨f.path, f.id, f.file.fileModifiedTime, f.file⟩

def ts (candidate : ThreadCandidate) : OffsetDateTime :=
  candidate.updatedAt.getD OffsetDateTime.unixEpoch

def updated (candidate : ThreadCandidate) : Cursor := ⟨candidate.ts, candidate.id⟩

end ThreadCandidate

/-- `str::parse` of an unsigned integer. -/
def parseUnsigned (max : Nat) (s : Str) : Option Nat :=
  let digits := (Str.stripPrefix s "+").getD s
  if !digits.isEmpty && digits.all Str.isAsciiDigit then
    let n := Nat.ofDigitChars 10 digits 0
    if n ≤ max then some n else none
  else none

def parseU16 : Str → Option Nat := parseUnsigned 65535

def parseU8 : Str → Option Nat := parseUnsigned 255

/-- The time and the UUID of `rollout-YYYY-MM-DDThh-mm-ss-<uuid>.jsonl`, from the last dash with a
UUID after it. -/
def parseTimestampUuidFromFilename (fmt : Formats) (name : Str) : Option (OffsetDateTime × Uuid) := do
  let rest ← Str.stripPrefix name "rollout-"
  let core ← Str.stripSuffix rest ".jsonl"
  let (sepIdx, uuid) ← (List.range core.length).reverse.findSome? fun i =>
    if core[i]? = some '-' then (fmt.parseUuid (core.drop (i + 1))).map fun u => (i, u) else none
  let ts ← fmt.parseFileTime (core.take sepIdx)
  some (ts, uuid)

structure DatedDir where
  value : Nat
  path : PathBuf
  entries : Dir

def DirEntry.asDir (parse : Str → Option Nat) (parent : PathBuf) (name : Str) :
    DirEntry → Option DatedDir
  | .dir entries => (parse name).map fun v => ⟨v, parent ++ [name], entries⟩
  | _ => none

def collectDirsDesc (parse : Str → Option Nat) (parent : PathBuf) (entries : Dir) : List DatedDir :=
  (entries.filterMap fun e => e.2.asDir parse parent e.1).mergeSort fun d d' => d'.value ≤ d.value

/-- An entry that is a file with the name of a rollout. -/
def DirEntry.asRollout (fmt : Formats) (parent : PathBuf) (name : Str) :
    DirEntry → Option RolloutFile
  | .file data =>
    if !Str.startsWith name "rollout-" || !Str.endsWith name ".jsonl" then none
    else
      (parseTimestampUuidFromFilename fmt name).map fun named =>
        ⟨named.1, named.2, parent ++ [name], data⟩
  | _ => none

def collectRolloutDayFiles (fmt : Formats) (day : DatedDir) : List RolloutFile :=
  (day.entries.filterMap fun e => e.2.asRollout fmt day.path e.1).mergeSort fun f f' =>
    f'.created ≤ f.created

section Walk

variable {σ : Type u}

/-- The files scanned, with the state of a visitor. -/
abbrev Scan (σ : Type u) := Nat × σ

/-- One round of the innermost loop of `walk_rollout_files`. -/
def scanFile (visit : RolloutFile → Nat → σ → ForInStep σ) (f : RolloutFile) (s : Scan σ) :
    ForInStep (Scan σ) :=
  let scanned := s.1 + 1
  if maxScanFiles < scanned then .done (scanned, s.2)
  else
    match visit f scanned s.2 with
    | .yield s' => .yield (scanned, s')
    | .done s' => .done (scanned, s')

/-- A loop over directories that stops before one when the cap is reached. -/
def eachDir (inner : DatedDir → Scan σ → ForInStep (Scan σ)) (dirs : List DatedDir) :
    Scan σ → ForInStep (Scan σ) :=
  budgeted Prod.fst maxScanFiles inner dirs

def walkRolloutFiles (fmt : Formats) (root : PathBuf) (dir : Dir)
    (visit : RolloutFile → Nat → σ → ForInStep σ) (s : Scan σ) : Scan σ :=
  state <|
    eachDir
      (fun year =>
        eachDir
          (fun month =>
            eachDir (fun day => loop (scanFile visit) (collectRolloutDayFiles fmt day))
              (collectDirsDesc parseU8 month.path month.entries))
          (collectDirsDesc parseU8 year.path year.entries))
      (collectDirsDesc parseU16 root dir) s

/-- One round of the loops over the entries of a flat directory, which keep `take` of a rollout. -/
def scanEntry (fmt : Formats) (root : PathBuf) (take : RolloutFile → σ) (e : Str × DirEntry)
    (s : Scan (List σ)) : ForInStep (Scan (List σ)) :=
  if maxScanFiles ≤ s.1 then .done s
  else
    match e.2.asRollout fmt root e.1 with
    | none => .yield s
    | some f =>
      let scanned := s.1 + 1
      if maxScanFiles < scanned then .done (scanned, s.2) else .yield (scanned, s.2 ++ [take f])

def collectFlat (fmt : Formats) (root : PathBuf) (dir : Dir) (take : RolloutFile → σ) :
    Scan (List σ) :=
  state (loop (scanEntry fmt root take) dir (0, []))

end Walk

def collectFlatRolloutFiles (fmt : Formats) (root : PathBuf) (dir : Dir) : Scan (List RolloutFile) :=
  let (scanned, collected) := collectFlat fmt root dir id
  (scanned, collected.mergeSort fun f f' => f'.created ≤ f.created)

def collectFlatFilesByUpdatedAt (fmt : Formats) (root : PathBuf) (dir : Dir) :
    Scan (List ThreadCandidate) :=
  collectFlat fmt root dir ThreadCandidate.new

def filesByUpdatedAtVisit (f : RolloutFile) (_scanned : Nat) (candidates : List ThreadCandidate) :
    ForInStep (List ThreadCandidate) :=
  .yield (candidates ++ [ThreadCandidate.new f])

def collectFilesByUpdatedAt (fmt : Formats) (root : PathBuf) (dir : Dir) :
    Scan (List ThreadCandidate) :=
  walkRolloutFiles fmt root dir filesByUpdatedAtVisit (0, [])

def sortByUpdatedAt (candidates : List ThreadCandidate) : List ThreadCandidate :=
  candidates.mergeSort fun c c' => c'.updated ≤ c.updated

/-! ## Pages -/

inductive ThreadSortKey where
  | createdAt
  | updatedAt

inductive ThreadListLayout where
  | nestedByDate
  | flat
  deriving DecidableEq

structure ThreadsPage where
  items : List ThreadItem
  nextCursor : Option Cursor
  numScannedFiles : Nat
  reachedScanCap : Bool

def buildNextCursor (fmt : Formats) (items : List ThreadItem) (sortKey : ThreadSortKey) :
    Option Cursor := do
  let last ← items.getLast?
  let fileName ← last.path.getLast?
  let (createdTs, id) ← parseTimestampUuidFromFilename fmt fileName
  let ts ←
    match sortKey with
    | .createdAt => some createdTs
    | .updatedAt => last.updatedAt.bind fmt.parseRfc3339
  some ⟨ts, id⟩

structure PageState where
  anchor : AnchorState
  items : List ThreadItem
  moreMatchesAvailable : Bool

namespace PageState

def new (anchor : Option Cursor) : PageState := ⟨.new anchor, [], false⟩

/-- What all loops do with a file at `key`: it is skipped, ends the page, or is taken if it can be
built. -/
def visit (pageSize : Nat) (key : Cursor) (item : Option ThreadItem) (s : PageState) :
    ForInStep PageState :=
  let (skip, anchor) := s.anchor.shouldSkip key.ts key.id
  if skip then .yield { s with anchor }
  else if s.items.length = pageSize then .done { s with anchor, moreMatchesAvailable := true }
  else .yield { s with anchor, items := s.items ++ item.toList }

/-- The end of all traversals. -/
def page (fmt : Formats) (sortKey : ThreadSortKey) (scannedFiles : Nat) (s : PageState) :
    ThreadsPage :=
  let reachedScanCap := decide (maxScanFiles ≤ scannedFiles)
  let more := s.moreMatchesAvailable || reachedScanCap && !s.items.isEmpty
  { items := s.items
    nextCursor := if more then buildNextCursor fmt s.items sortKey else none
    numScannedFiles := scannedFiles
    reachedScanCap }

end PageState

section Traverse

variable (fmt : Formats) (root : PathBuf) (dir : Dir) (pageSize : Nat) (anchor : Option Cursor)
  (filters : Filters)

def buildFromRollout (f : RolloutFile) : Option ThreadItem :=
  buildThreadItem filters f.path f.file (f.file.fileModifiedTime.bind fmt.formatRfc3339)

def buildFromCandidate (c : ThreadCandidate) : Option ThreadItem :=
  buildThreadItem filters c.path c.file (c.updatedAt.bind fmt.formatRfc3339)

def filesByCreatedAtVisit (f : RolloutFile) (scanned : Nat) (s : PageState) :
    ForInStep PageState :=
  if maxScanFiles ≤ scanned ∧ pageSize ≤ s.items.length then
    .done { s with moreMatchesAvailable := true }
  else s.visit pageSize f.created (buildFromRollout fmt filters f)

def traverseDirectoriesForPathsCreated : ThreadsPage :=
  let (scanned, s) :=
    walkRolloutFiles fmt root dir (filesByCreatedAtVisit fmt pageSize filters) (0, .new anchor)
  s.page fmt .createdAt scanned

/-- The loop over files in the order of their names. -/
def pageOfRollouts (files : List RolloutFile) : PageState :=
  state <|
    loop (fun f s => s.visit pageSize f.created (buildFromRollout fmt filters f)) files
      (.new anchor)

/-- The loop over candidates. -/
def pageOfCandidates (candidates : List ThreadCandidate) : PageState :=
  state <|
    loop (fun c s => s.visit pageSize c.updated (buildFromCandidate fmt filters c)) candidates
      (.new anchor)

def traverseDirectoriesForPathsUpdated : ThreadsPage :=
  let (scanned, candidates) := collectFilesByUpdatedAt fmt root dir
  (pageOfCandidates fmt pageSize anchor filters (sortByUpdatedAt candidates)).page fmt .updatedAt
    scanned

def traverseFlatPathsCreated : ThreadsPage :=
  let (scanned, files) := collectFlatRolloutFiles fmt root dir
  (pageOfRollouts fmt pageSize anchor filters files).page fmt .createdAt scanned

def traverseFlatPathsUpdated : ThreadsPage :=
  let (scanned, candidates) := collectFlatFilesByUpdatedAt fmt root dir
  (pageOfCandidates fmt pageSize anchor filters (sortByUpdatedAt candidates)).page fmt .updatedAt
    scanned

def traverseDirectoriesForPaths (sortKey : ThreadSortKey) : ThreadsPage :=
  match sortKey with
  | .createdAt => traverseDirectoriesForPathsCreated fmt root dir pageSize anchor filters
  | .updatedAt => traverseDirectoriesForPathsUpdated fmt root dir pageSize anchor filters

def traverseFlatPaths (sortKey : ThreadSortKey) : ThreadsPage :=
  match sortKey with
  | .createdAt => traverseFlatPathsCreated fmt root dir pageSize anchor filters
  | .updatedAt => traverseFlatPathsUpdated fmt root dir pageSize anchor filters

end Traverse

structure ThreadListConfig where
  allowedSources : List SessionSource
  modelProviders : Option (List Str)
  defaultProvider : Str
  layout : ThreadListLayout

def ThreadListConfig.filters (config : ThreadListConfig) : Filters :=
  ⟨config.allowedSources,
    config.modelProviders.bind fun filters => ProviderMatcher.new filters config.defaultProvider⟩

/-- A page of the threads under a root, which need not exist. -/
def getThreadsInRoot (fmt : Formats) (root : PathBuf) (dir : Option Dir) (pageSize : Nat)
    (cursor : Option Cursor) (sortKey : ThreadSortKey) (config : ThreadListConfig) : ThreadsPage :=
  match dir with
  | none => ⟨[], none, 0, false⟩
  | some dir =>
    match config.layout with
    | .nestedByDate =>
      traverseDirectoriesForPaths fmt root dir pageSize cursor config.filters sortKey
    | .flat => traverseFlatPaths fmt root dir pageSize cursor config.filters sortKey

end SheriMl.ThreadList
