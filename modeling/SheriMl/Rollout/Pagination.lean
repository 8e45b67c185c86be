import SheriMl.Rollout.PageLoop
import SheriMl.Rollout.RolloutFiles
import SheriMl.Rollout.ThreadFormats

/-!
# Following the cursors of a listing

A client asks for the first page and then for the page at each cursor it is given, while threads
are created. `pages_exact`: as long as a request finds no more files than the scan cap, the pages
are all matching threads of the first request, newest first. A directory that grows past the cap
in between loses the oldest ones.
-/

namespace SheriMl.ThreadList

open Loop Paging

section

variable {fmt : Formats} {filters : Filters} {path root : PathBuf} {file : FileData}
  {f : RolloutFile} {files files' : List RolloutFile} {item : ThreadItem} {c : Cursor}
  {cursor : Option Cursor} {sortKey : ThreadSortKey} {size scanned : Nat} {s : PageState}
  {dir : Dir} {layout : ThreadListLayout}

/-! ## Items and their cursors -/

theorem scan_updatedAt (summary : HeadTailSummary) (timestamp : Str) (item : HeadItem) :
    (summary.scan timestamp item).updatedAt = summary.updatedAt := by
  cases item with
  | sessionMeta line =>
    rw [HeadTailSummary.scan]
    split <;> rfl
  | _ => rfl

/-- The head of a file says nothing of its last change. -/
theorem readHeadLines_updatedAt (headLimit : Nat) (lines : List HeadLine) (linesScanned : Nat)
    (summary : HeadTailSummary) :
    (readHeadLines headLimit lines linesScanned summary).updatedAt = summary.updatedAt := by
  induction lines generalizing linesScanned summary with
  | nil => rfl
  | cons line lines ih =>
    cases line with
    | blank | invalid =>
      rw [readHeadLines]
      split
      · exact ih _ _
      · rfl
    | line timestamp item =>
      rw [readHeadLines]
      split
      · simp only
        split
        · exact scan_updatedAt ..
        · rw [ih, scan_updatedAt]
      · rfl

theorem readHeadSummary_updatedAt (file : FileData) (headLimit : Nat) :
    ((readHeadSummary file headLimit).getD .default).updatedAt = none := by
  unfold readHeadSummary
  cases file.lines with
  | none => rfl
  | some lines => exact readHeadLines_updatedAt ..

theorem buildThreadItem_eq_some {updatedAt : Option Str}
    (h : buildThreadItem filters path file updatedAt = some item) :
    item.path = path ∧ item.updatedAt = updatedAt.or item.createdAt := by
  rw [buildThreadItem] at h
  split at h
  · cases h
  · split at h
    · cases h
    · split at h
      · cases h
        refine ⟨rfl, ?_⟩
        simp only
        rw [readHeadSummary_updatedAt, Option.none_or]
      · cases h

def RolloutFile.key (sortKey : ThreadSortKey) (f : RolloutFile) : Cursor :=
  match sortKey with
  | .createdAt => f.created
  | .updatedAt => (ThreadCandidate.new f).updated

theorem RolloutFile.key_id (sortKey : ThreadSortKey) (f : RolloutFile) :
    (f.key sortKey).id = f.id := by
  cases sortKey <;> rfl

theorem buildNextCursor_of_build (hfmt : fmt.Lawful)
    (hname : ∃ name, f.path.getLast? = some name ∧
      parseTimestampUuidFromFilename fmt name = some (f.ts, f.id))
    (hmodified : f.file.modified.isSome = true)
    (hitem : buildFromRollout fmt filters f = some item) :
    buildNextCursor fmt [item] sortKey = some (f.key sortKey) := by
  obtain ⟨name, hlast, hparse⟩ := hname
  obtain ⟨modified, hsome⟩ := Option.isSome_iff_exists.1 hmodified
  have htime : f.file.fileModifiedTime = some { modified with nanosecond := 0 } := by
    rw [FileData.fileModifiedTime, hsome]
    rfl
  obtain ⟨text, hformat, hread, _⟩ := hfmt.rfc3339 { modified with nanosecond := 0 }
  rw [buildFromRollout, htime, Option.bind_some, hformat] at hitem
  obtain ⟨hpath, hupdated⟩ := buildThreadItem_eq_some hitem
  rw [Option.some_or] at hupdated
  rw [← hpath] at hlast
  cases sortKey with
  | createdAt => simp [buildNextCursor, hlast, hparse, RolloutFile.key, RolloutFile.created]
  | updatedAt =>
    simp [buildNextCursor, hlast, hparse, hupdated, hread, RolloutFile.key, ThreadCandidate.updated,
      ThreadCandidate.ts, ThreadCandidate.new, htime]

/-! ## The traversals -/

/-- The page loop over files, newest first. -/
def pageOf (fmt : Formats) (filters : Filters) (sortKey : ThreadSortKey) (size : Nat)
    (cursor : Option Cursor) (files : List RolloutFile) : PageState :=
  state <|
    fill size (RolloutFile.key sortKey) (buildFromRollout fmt filters)
      (sortDesc (RolloutFile.key sortKey) files) (.new cursor)

theorem items_page (s : PageState) : (s.page fmt sortKey scanned).items = s.items := rfl

theorem mem_items_pageOf (h : item ∈ (pageOf fmt filters sortKey size cursor files).items) :
    ∃ f ∈ files, buildFromRollout fmt filters f = some item := by
  rcases mem_items_fill h with hnone | ⟨f, hf, hbuild⟩
  · cases hnone
  · exact ⟨f, (sortDesc_perm ..).mem_iff.1 hf, hbuild⟩

theorem pageOfCandidates_new (files : List RolloutFile) :
    pageOfCandidates fmt size cursor filters (sortByUpdatedAt (files.map ThreadCandidate.new)) =
      pageOf fmt filters .updatedAt size cursor files := by
  have hsort : sortByUpdatedAt (files.map ThreadCandidate.new) =
      (sortDesc (RolloutFile.key .updatedAt) files).map ThreadCandidate.new :=
    (map_sortDesc ThreadCandidate.new fun _ => rfl).symm
  rw [pageOfCandidates, hsort, loop_map]
  rfl

/-- A flat directory is listed up to the cap. -/
theorem traverseFlatPathsCreated_eq
    (hfiles : (dirRollouts fmt root dir).take maxScanFiles = files) :
    ∃ scanned, traverseFlatPathsCreated fmt root dir size cursor filters =
      (pageOf fmt filters .createdAt size cursor files).page fmt .createdAt scanned := by
  have hcollected := collectFlat_snd fmt root dir id
  rw [List.map_id, hfiles] at hcollected
  refine ⟨(collectFlat fmt root dir id).1, ?_⟩
  rw [← hcollected]
  rfl

theorem traverseFlatPathsUpdated_eq
    (hfiles : (dirRollouts fmt root dir).take maxScanFiles = files) :
    ∃ scanned, traverseFlatPathsUpdated fmt root dir size cursor filters =
      (pageOf fmt filters .updatedAt size cursor files).page fmt .updatedAt scanned := by
  have hcandidates := collectFlat_snd fmt root dir ThreadCandidate.new
  rw [hfiles] at hcandidates
  refine ⟨(collectFlat fmt root dir ThreadCandidate.new).1, ?_⟩
  rw [← pageOfCandidates_new, ← hcandidates]
  rfl

theorem loop_scanFile_updated {candidates : List ThreadCandidate}
    (hcap : scanned + files.length ≤ maxScanFiles) :
    (state (loop (scanFile filesByUpdatedAtVisit) files (scanned, candidates))).2 =
      candidates ++ files.map ThreadCandidate.new := by
  induction files generalizing scanned candidates with
  | nil => exact (List.append_nil _).symm
  | cons f files ih =>
    rw [List.length_cons] at hcap
    have hroom : scanned < maxScanFiles := by omega
    rw [loop_cons_of_yield (scanFile_of_yield hroom rfl), ih (by omega), List.map_cons,
      List.append_assoc, List.singleton_append]

/-- Below the cap the visitor of a walk does what the other loops do: where the check of the cap
ends a page, a full page ends it. -/
theorem loop_scanFile_created (hsize : 1 ≤ size) (hs : s.Partial size)
    (hcap : scanned + files.length ≤ maxScanFiles) :
    (state (loop (scanFile (filesByCreatedAtVisit fmt size filters)) files (scanned, s))).2 =
      state (fill size RolloutFile.created (buildFromRollout fmt filters) files s) := by
  induction files generalizing scanned s with
  | nil => rfl
  | cons f files ih =>
    rw [List.length_cons] at hcap
    have hvisit : filesByCreatedAtVisit fmt size filters f (scanned + 1) s =
        s.visit size f.created (buildFromRollout fmt filters f) := by
      rw [filesByCreatedAtVisit]
      split
      · next hfull =>
        have hlength : s.items.length = size := Nat.le_antisymm hs.length_le hfull.2
        have hpassed : s.anchor.passed = true := by
          refine hs.passed ?_
          rintro hnil
          rw [hnil] at hlength
          simp at hlength
          omega
        have hpass : s.anchor.pass = s.anchor := by rw [AnchorState.pass, ← hpassed]
        rw [PageState.visit_of_full (.inl hpassed) hlength, hpass]
      · rfl
    have hroom : scanned < maxScanFiles := by omega
    cases hcase : s.visit size f.created (buildFromRollout fmt filters f) with
    | yield s' =>
      rw [loop_cons_of_yield (scanFile_of_yield hroom (hvisit.trans hcase)),
        fill_cons_of_yield hcase]
      exact ih (hs.visit hcase) (by omega)
    | done s' =>
      rw [loop_cons_of_done (scanFile_of_done hroom (hvisit.trans hcase)), fill_cons_of_done hcase]
      rfl

theorem traverseDirectoriesForPathsUpdated_eq (hconsistent : Consistent fmt dateLevels root dir)
    (hkeys : ((rolloutsBelow fmt 3 root dir).map (RolloutFile.key .updatedAt)).Nodup)
    (hcap : (rolloutsBelow fmt 3 root dir).length ≤ maxScanFiles) :
    ∃ scanned, traverseDirectoriesForPathsUpdated fmt root dir size cursor filters =
      (pageOf fmt filters .updatedAt size cursor (rolloutsBelow fmt 3 root dir)).page fmt .updatedAt
        scanned := by
  have hperm := walkOrder_perm hconsistent
  have hlength : 0 + (walkOrder fmt dateLevels root dir).length ≤ maxScanFiles := by
    rw [Nat.zero_add, hperm.length_eq]
    exact hcap
  have hcandidates : (collectFilesByUpdatedAt fmt root dir).2 =
      (walkOrder fmt dateLevels root dir).map ThreadCandidate.new := by
    rw [collectFilesByUpdatedAt, walkRolloutFiles_eq hlength, loop_scanFile_updated hlength,
      List.nil_append]
  have hsort := sortDesc_congr ((hperm.map (RolloutFile.key .updatedAt)).nodup_iff.2 hkeys) hperm
  have hpage : traverseDirectoriesForPathsUpdated fmt root dir size cursor filters =
      (pageOfCandidates fmt size cursor filters
        (sortByUpdatedAt (collectFilesByUpdatedAt fmt root dir).2)).page fmt .updatedAt
          (collectFilesByUpdatedAt fmt root dir).1 := rfl
  rw [hcandidates, pageOfCandidates_new, pageOf, hsort] at hpage
  exact ⟨_, hpage⟩

theorem traverseDirectoriesForPathsCreated_eq (hsize : 1 ≤ size)
    (hconsistent : Consistent fmt dateLevels root dir) (hnames : DistinctNames 3 dir)
    (hkeys : ((rolloutsBelow fmt 3 root dir).map (RolloutFile.key .createdAt)).Nodup)
    (hcap : (rolloutsBelow fmt 3 root dir).length ≤ maxScanFiles) :
    ∃ scanned, traverseDirectoriesForPathsCreated fmt root dir size cursor filters =
      (pageOf fmt filters .createdAt size cursor (rolloutsBelow fmt 3 root dir)).page fmt .createdAt
        scanned := by
  have hperm := walkOrder_perm hconsistent
  have hlength : 0 + (walkOrder fmt dateLevels root dir).length ≤ maxScanFiles := by
    rw [Nat.zero_add, hperm.length_eq]
    exact hcap
  have horder : walkOrder fmt dateLevels root dir =
      sortDesc (RolloutFile.key .createdAt) (rolloutsBelow fmt 3 root dir) :=
    eq_sortDesc (walkOrder_descending hconsistent hnames hkeys fun _ _ _ _ => lt_of_before) hperm
  have hwalk : (walkRolloutFiles fmt root dir (filesByCreatedAtVisit fmt size filters)
      (0, .new cursor)).2 = pageOf fmt filters .createdAt size cursor
        (rolloutsBelow fmt 3 root dir) := by
    rw [walkRolloutFiles_eq hlength,
      loop_scanFile_created hsize (PageState.partial_new size cursor) hlength, horder]
    rfl
  refine ⟨(walkRolloutFiles fmt root dir (filesByCreatedAtVisit fmt size filters)
    (0, .new cursor)).1, ?_⟩
  rw [← hwalk]
  rfl

end

/-! ## Listing -/

/-- What a client lists, in pages of at least one thread. -/
structure Query where
  root : PathBuf
  pageSize : Nat
  sortKey : ThreadSortKey
  config : ThreadListConfig
  pageSize_pos : 1 ≤ pageSize

/-- A cursor as it comes back from a client, as text. -/
def handOn (fmt : Formats) (c : Cursor) : Option Cursor := (c.serialize fmt).bind (parseCursor fmt)

namespace Query

def files (q : Query) (fmt : Formats) (dir : Option Dir) : List RolloutFile :=
  dir.elim [] (rolloutFiles fmt q.config.layout q.root)

def key (q : Query) (f : RolloutFile) : Cursor := f.key q.sortKey

def thread (q : Query) (fmt : Formats) (f : RolloutFile) : Option ThreadItem :=
  buildFromRollout fmt q.config.filters f

/-- The request for a page, `dirs n` being under the root at the `n`-th. -/
def request (q : Query) (fmt : Formats) (dirs : Nat → Option Dir) (n : Nat)
    (cursor : Option Cursor) : Page Cursor ThreadItem :=
  (getThreadsInRoot fmt q.root (dirs n) q.pageSize (cursor.bind (handOn fmt)) q.sortKey
    q.config).paged

/-- Files with distinct UUIDs whose times of change can be had, in the directories of their dates
where a walk looks for them there. -/
structure Listable (q : Query) (fmt : Formats) (dir : Option Dir) : Prop where
  distinct : ((q.files fmt dir).map RolloutFile.id).Nodup
  modified : ∀ f ∈ q.files fmt dir, f.file.modified.isSome = true
  names : q.config.layout = .nestedByDate → ∀ d ∈ dir, DistinctNames 3 d
  consistent : q.config.layout = .nestedByDate → ∀ d ∈ dir, Consistent fmt dateLevels q.root d

/-- Between two requests files are created above the cursor, and nothing else changes. -/
def Created (q : Query) (fmt : Formats) (dirs : Nat → Option Dir) : Prop :=
  ∀ n page c, follow (q.request fmt dirs) n = some page → page.next = some c →
    ∃ new, (q.files fmt (dirs (n + 1))).Perm (q.files fmt (dirs n) ++ new) ∧ ∀ f ∈ new, c < q.key f

/-- The cursors end, and the pages up to then have each matching thread of the first request once,
newest first. -/
def Exact (q : Query) (fmt : Formats) (dirs : Nat → Option Dir) : Prop :=
  ∃ n page, ∃ visited : List RolloutFile,
    follow (q.request fmt dirs) n = some page ∧ page.next = none ∧
      visited.Perm ((q.files fmt (dirs 0)).filter fun f => (q.thread fmt f).isSome) ∧
        visited.Pairwise (fun f f' => q.key f' < q.key f) ∧
          (collected (q.request fmt dirs) n).map some = visited.map (q.thread fmt)

end Query

section

variable {fmt : Formats} {q : Query} {dirs : Nat → Option Dir} {dir : Option Dir}
  {files new : List RolloutFile} {cursor : Option Cursor} {c : Cursor}

/-- A cursor comes back as it was given. -/
theorem handOn_eq (hfmt : fmt.Lawful) (c : Cursor) : handOn fmt c = some c := by
  obtain ⟨text, hformat, hread, hbar⟩ := hfmt.rfc3339 c.ts
  have hsplit : Str.splitOnce '|' (text ++ '|' :: fmt.uuidToString c.id) =
      some (text, fmt.uuidToString c.id) := by
    have hkept : ∀ d ∈ text, (d != '|') = true := by
      intro d hd
      refine bne_iff_ne.2 ?_
      rintro rfl
      exact hbar hd
    rw [Str.splitOnce, if_pos (by simp), List.takeWhile_append_of_pos hkept,
      List.dropWhile_append_of_pos hkept]
    simp
  rw [handOn, Cursor.serialize, hformat, Option.map_some, Option.bind_some, parseCursor, hsplit]
  simp [hfmt.uuid, hread]

namespace Query

/-- The threads of some files with their keys, newest first. -/
def listing (q : Query) (fmt : Formats) (files : List RolloutFile) : List (Cursor × ThreadItem) :=
  entries q.key (q.thread fmt) (sortDesc q.key files)

theorem Listable.keys_nodup (h : q.Listable fmt dir) : ((q.files fmt dir).map q.key).Nodup := by
  refine List.Nodup.of_map Cursor.id ?_
  have hid : Cursor.id ∘ q.key = RolloutFile.id := by
    funext f
    exact f.key_id q.sortKey
  rw [List.map_map, hid]
  exact h.distinct

theorem Listable.descending (h : q.Listable fmt dir) :
    Descending (q.listing fmt (q.files fmt dir)) :=
  descending_entries (pairwise_sortDesc h.keys_nodup)

/-- Below the cap all traversals fill a page from the same listing. -/
theorem getThreadsInRoot_eq {d : Dir} (h : q.Listable fmt (some d))
    (hcap : (q.files fmt (some d)).length ≤ maxScanFiles) (cursor : Option Cursor) :
    ∃ scanned, getThreadsInRoot fmt q.root (some d) q.pageSize cursor q.sortKey q.config =
      (pageOf fmt q.config.filters q.sortKey q.pageSize cursor (q.files fmt (some d))).page fmt
        q.sortKey scanned := by
  obtain ⟨root, size, sortKey, ⟨sources, providers, provider, layout⟩, hsize⟩ := q
  cases layout with
  | flat =>
    have hall := List.take_of_length_le hcap
    cases sortKey with
    | createdAt => exact traverseFlatPathsCreated_eq hall
    | updatedAt => exact traverseFlatPathsUpdated_eq hall
  | nestedByDate =>
    have hconsistent := h.consistent rfl d rfl
    cases sortKey with
    | createdAt =>
      exact traverseDirectoriesForPathsCreated_eq hsize hconsistent (h.names rfl d rfl) h.keys_nodup
        hcap
    | updatedAt => exact traverseDirectoriesForPathsUpdated_eq hconsistent h.keys_nodup hcap

theorem serves_request (hfmt : fmt.Lawful) {n : Nat} (h : q.Listable fmt (dirs n))
    (hcap : (q.files fmt (dirs n)).length ≤ maxScanFiles) (cursor : Option Cursor) :
    Serves q.pageSize cursor (q.listing fmt (q.files fmt (dirs n))) (q.request fmt dirs n cursor) := by
  have hcursor : cursor.bind (handOn fmt) = cursor := by
    cases cursor with
    | none => rfl
    | some c => exact handOn_eq hfmt c
  rw [request, hcursor]
  cases hdir : dirs n with
  | none =>
    have hnil : after cursor (q.listing fmt (q.files fmt none)) = [] := by
      simp [files, listing, sortDesc, entries, after]
    refine ⟨?_, ?_, ?_⟩
    · rw [hnil, List.take_nil]
      rfl
    · intro _
      rw [hnil]
      exact Nat.zero_le _
    · rintro c ⟨⟩
  | some d =>
    rw [hdir] at h hcap
    obtain ⟨scanned, hpage⟩ := getThreadsInRoot_eq h hcap cursor
    rw [hpage]
    refine serves_page q.pageSize_pos ?_ (filled_new (pairwise_sortDesc h.keys_nodup) cursor) scanned
    intro e he
    obtain ⟨f, hf, hbuild, hkey⟩ := mem_entries.1 he
    have hmem := (sortDesc_perm ..).mem_iff.1 hf
    rw [← hkey]
    exact buildNextCursor_of_build hfmt (parse_getLast_path hmem) (h.modified f hmem) hbuild

theorem listing_perm (q : Query) (fmt : Formats) (files : List RolloutFile) :
    (q.listing fmt files).Perm (entries q.key (q.thread fmt) files) :=
  (sortDesc_perm q.key files).filterMap _

/-- Files above a cursor change nothing below it. -/
theorem after_listing (h : q.Listable fmt dir) {dir' : Option Dir} (h' : q.Listable fmt dir')
    (hperm : (q.files fmt dir').Perm (q.files fmt dir ++ new)) (hnew : ∀ f ∈ new, c < q.key f) :
    after (some c) (q.listing fmt (q.files fmt dir')) =
      after (some c) (q.listing fmt (q.files fmt dir)) := by
  have hnone : after (some c) (entries q.key (q.thread fmt) new) = [] := by
    refine List.filter_eq_nil_iff.2 ?_
    intro e he
    obtain ⟨f, hf, _, hkey⟩ := mem_entries.1 he
    have hlt := hnew f hf
    rw [hkey] at hlt
    simpa using le_of_lt hlt
  have hleft : (after (some c) (q.listing fmt (q.files fmt dir'))).Perm
      (after (some c) (entries q.key (q.thread fmt) (q.files fmt dir ++ new))) :=
    ((q.listing_perm fmt _).trans (hperm.filterMap _)).filter _
  have hsplit : after (some c) (entries q.key (q.thread fmt) (q.files fmt dir ++ new)) =
      after (some c) (entries q.key (q.thread fmt) (q.files fmt dir)) := by
    rw [entries, List.filterMap_append, after, List.filter_append]
    rw [after, entries] at hnone
    rw [hnone, List.append_nil, after, entries]
  rw [hsplit] at hleft
  have hright := (q.listing_perm fmt (q.files fmt dir)).filter fun e =>
    (some c).all fun c => decide (e.1 < c)
  refine List.Perm.eq_of_pairwise ?_ (h'.descending.after (some c)) (h.descending.after (some c))
    (hleft.trans hright.symm)
  intro e e' _ _ hlt hlt'
  exact absurd (lt_trans hlt hlt') (lt_irrefl _)

theorem map_some_filterMap (q : Query) (fmt : Formats) (files : List RolloutFile) :
    (files.filterMap (q.thread fmt)).map some =
      (files.filter fun f => (q.thread fmt f).isSome).map (q.thread fmt) := by
  induction files with
  | nil => rfl
  | cons f files ih =>
    cases hthread : q.thread fmt f with
    | none =>
      rw [List.filterMap_cons_none hthread, List.filter_cons_of_neg (by simp [hthread]), ih]
    | some item =>
      rw [List.filterMap_cons_some hthread, List.filter_cons_of_pos (by simp [hthread]),
        List.map_cons, List.map_cons, ih, hthread]

/-- Following the cursors visits all matching threads, once, newest first, and ends, whatever
newer threads are created meanwhile, if no request finds more files than the cap. -/
theorem pages_exact (hfmt : fmt.Lawful) (hlistable : ∀ n, q.Listable fmt (dirs n))
    (hcap : ∀ n, (q.files fmt (dirs n)).length ≤ maxScanFiles) (hcreated : q.Created fmt dirs) :
    q.Exact fmt dirs := by
  have hgrows : Grows (q.request fmt dirs) fun n => q.listing fmt (q.files fmt (dirs n)) := by
    intro n page c hpage hnext
    obtain ⟨new, hperm, hnew⟩ := hcreated n page c hpage hnext
    exact after_listing (hlistable n) (hlistable (n + 1)) hperm hnew
  obtain ⟨n, page, hpage, hnext, hall⟩ := follow_exact
    (fun n cursor => serves_request hfmt (hlistable n) (hcap n) cursor)
    (fun n => (hlistable n).descending) hgrows
  have hsorted := pairwise_sortDesc (hlistable 0).keys_nodup
  refine ⟨n, page, _, hpage, hnext, (sortDesc_perm q.key _).filter _, hsorted.filter _, ?_⟩
  rw [hall, listing, map_snd_entries, map_some_filterMap]

end Query

end

/-! ## Threads of one second -/

section

variable {path : PathBuf} {i n count : Nat} {item : ThreadItem}

def sharedTime : OffsetDateTime := ⟨2025, 1, 2, 3, 4, 5, 0⟩

def threadFile : FileData where
  lines := some
    [.line "2025-01-02T03:04:05.000Z"
        (.sessionMeta ⟨0, "2025-01-02T03:04:05.000Z", "/", "0.0.0", .cli, none, none⟩),
      .line "2025-01-02T03:04:05.000Z" (.userMessage "hi")]
  modified := some sharedTime

def numberedName (i : Nat) : Str := standardName sharedTime (Fin.ofNat _ i)

/-- A directory with `count` threads, all of one second. -/
def numbered (count : Nat) : Dir :=
  (List.range count).reverse.map fun i => (numberedName i, .file threadFile)

def numberedFile (path : PathBuf) (i : Nat) : RolloutFile :=
  ⟨sharedTime, Fin.ofNat _ i, path ++ [numberedName i], threadFile⟩

theorem asRollout_numbered (path : PathBuf) (i : Nat) :
    (DirEntry.file threadFile).asRollout .standard path (numberedName i) =
      some (numberedFile path i) := by
  have hstart : Str.startsWith (numberedName i) "rollout-" = true := startsWith_rolloutName ..
  have hend : Str.endsWith (numberedName i) ".jsonl" = true := endsWith_rolloutName ..
  have hparse : parseTimestampUuidFromFilename .standard (numberedName i) =
      some (sharedTime, Fin.ofNat _ i) := parse_standardName rfl
  rw [DirEntry.asRollout, hstart, hend, if_neg (by decide), hparse, Option.map_some, numberedFile]

theorem dirRollouts_map (path : PathBuf) (is : List Nat) :
    dirRollouts .standard path (is.map fun i => (numberedName i, .file threadFile)) =
      is.map (numberedFile path) := by
  induction is with
  | nil => rfl
  | cons i is ih =>
    have hcons (dir : Dir) : dirRollouts .standard path ((numberedName i, .file threadFile) :: dir) =
        numberedFile path i :: dirRollouts .standard path dir :=
      dirRollouts_cons_of_some (asRollout_numbered path i)
    rw [List.map_cons, hcons, ih, List.map_cons]

theorem dirRollouts_numbered (path : PathBuf) (count : Nat) :
    dirRollouts .standard path (numbered count) =
      (List.range count).reverse.map (numberedFile path) := dirRollouts_map ..

/-- The UUIDs are distinct, of few enough threads. -/
theorem nodup_numbered (path : PathBuf) (h : count ≤ maxScanFiles + 1) :
    ((dirRollouts .standard path (numbered count)).map RolloutFile.id).Nodup := by
  rw [dirRollouts_numbered, List.map_map]
  refine List.Nodup.map_on ?_ (List.nodup_reverse.2 List.nodup_range)
  intro i hi j hj heq
  have hi' := List.mem_range.1 (List.mem_reverse.1 hi)
  have hj' := List.mem_range.1 (List.mem_reverse.1 hj)
  have hval : i % 2 ^ 128 = j % 2 ^ 128 := congrArg Fin.val heq
  rw [maxScanFiles] at h
  omega

theorem modified_numbered {f : RolloutFile} (h : f ∈ dirRollouts .standard path (numbered count)) :
    f.file.modified.isSome = true := by
  rw [dirRollouts_numbered] at h
  obtain ⟨i, _, rfl⟩ := List.mem_map.1 h
  rfl

/-- One more thread is a newer one. -/
theorem numbered_succ_perm (path : PathBuf) (count : Nat) :
    (dirRollouts .standard path (numbered (count + 1))).Perm
      (dirRollouts .standard path (numbered count) ++ [numberedFile path count]) := by
  rw [dirRollouts_numbered, dirRollouts_numbered, List.range_succ, List.reverse_append,
    List.reverse_singleton, List.singleton_append, List.map_cons]
  exact (List.perm_append_singleton _ _).symm

theorem key_numberedFile (sortKey : ThreadSortKey) (path : PathBuf) (i : Nat) :
    (numberedFile path i).key sortKey = ⟨sharedTime, Fin.ofNat _ i⟩ := by
  cases sortKey <;> rfl

theorem key_numberedFile_lt (sortKey : ThreadSortKey) (path : PathBuf) (h : i < n)
    (hn : n ≤ maxScanFiles) : (numberedFile path i).key sortKey < (numberedFile path n).key sortKey := by
  rw [key_numberedFile, key_numberedFile]
  refine Cursor.lt_iff.2 (.inr ⟨rfl, ?_⟩)
  rw [maxScanFiles] at hn
  rw [Fin.lt_def, Fin.val_ofNat, Fin.val_ofNat]
  omega

/-- The number of threads at a request, one being created after the first. -/
def countAt (count n : Nat) : Nat := if n = 0 then count else count + 1

variable {q : Query} {dirs : Nat → Option Dir} {f : RolloutFile}

theorem mem_numbered (h : f ∈ dirRollouts .standard path (numbered count)) :
    ∃ i < count, f = numberedFile path i := by
  rw [dirRollouts_numbered] at h
  obtain ⟨i, hi, rfl⟩ := List.mem_map.1 h
  exact ⟨i, List.mem_range.1 (List.mem_reverse.1 hi), rfl⟩

theorem created_numbered (hlistable : q.Listable .standard (dirs 0)) (hcount : count ≤ maxScanFiles)
    (hfiles : ∀ n,
      q.files .standard (dirs n) = dirRollouts .standard path (numbered (countAt count n))) :
    q.Created .standard dirs := by
  intro n page c hpage hnext
  cases n with
  | zero =>
    refine ⟨[numberedFile path count], ?_, ?_⟩
    · rw [hfiles, hfiles]
      exact numbered_succ_perm path count
    · intro f hf
      rw [List.mem_singleton.1 hf]
      have hcap : (q.files .standard (dirs 0)).length ≤ maxScanFiles := by
        rw [hfiles, dirRollouts_numbered, List.length_map, List.length_reverse, List.length_range]
        exact hcount
      cases hpage
      obtain ⟨e, hlast, rfl⟩ :=
        (Query.serves_request Formats.standard_lawful hlistable hcap none).of_next_some c hnext
      have hmem := List.mem_of_mem_filter (List.mem_of_mem_take (List.mem_of_getLast? hlast))
      obtain ⟨f', hf', _, hkey⟩ := mem_entries.1 hmem
      rw [(sortDesc_perm ..).mem_iff, hfiles] at hf'
      obtain ⟨i, hi, rfl⟩ := mem_numbered hf'
      rw [← hkey]
      exact key_numberedFile_lt q.sortKey path hi hcount
  | succ n =>
    refine ⟨[], ?_, ?_⟩
    · rw [hfiles, hfiles, List.append_nil]
      exact List.Perm.refl _
    · intro f hf
      cases hf

/-- Threads under the directories of their date, listed one at a time. -/
def datedQuery : Query := ⟨[], 1, .createdAt, ⟨[], none, "openai", .nestedByDate⟩, by decide⟩

def datedDir (dir : Dir) : Dir := [("2025", .dir [("01", .dir [("02", .dir dir)])])]

theorem files_datedDir (dir : Dir) :
    datedQuery.files .standard (some (datedDir dir)) = dirRollouts .standard ["2025", "01", "02"] dir :=
  (List.append_nil _).trans ((List.append_nil _).trans (List.append_nil _))

theorem listable_datedDir (h : count ≤ maxScanFiles + 1) :
    datedQuery.Listable .standard (some (datedDir (numbered count))) := by
  refine ⟨?_, ?_, ?_, ?_⟩
  · rw [files_datedDir]
    exact nodup_numbered _ h
  · intro f hf
    rw [files_datedDir] at hf
    exact modified_numbered hf
  · rintro _ d ⟨⟩
    simp [DistinctNames, datedDir, subdirs, DirEntry.asDirectory]
  · rintro _ d ⟨⟩ f hf
    have hf' : f ∈ dirRollouts .standard ["2025", "01", "02"] (numbered count) := by
      rw [← files_datedDir]
      exact hf
    obtain ⟨i, _, rfl⟩ := mem_numbered hf'
    have hnames : dateNames dateLevels sharedTime = ["2025", "01", "02"] := rfl
    exact List.dropLast_concat.trans hnames.symm

theorem pages_exact_of_new_thread :
    datedQuery.Exact .standard fun n => some (datedDir (numbered (countAt 2 n))) := by
  have hcount (n : Nat) : countAt 2 n ≤ 3 := by
    rw [countAt]
    split <;> decide
  have hlistable (n : Nat) : datedQuery.Listable .standard
      (some (datedDir (numbered (countAt 2 n)))) :=
    listable_datedDir (Nat.le_trans (hcount n) (by decide))
  refine Query.pages_exact Formats.standard_lawful hlistable ?_
    (created_numbered (hlistable 0) (by decide) fun n => files_datedDir _)
  intro n
  rw [files_datedDir, dirRollouts_numbered, List.length_map, List.length_reverse, List.length_range]
  exact Nat.le_trans (hcount n) (by decide)

/-! ## Past the cap -/

/-- A flat directory, listed one thread at a time. -/
def flatQuery : Query := ⟨[], 1, .createdAt, ⟨[], none, "openai", .flat⟩, by decide⟩

theorem listable_flat (h : count ≤ maxScanFiles + 1) :
    flatQuery.Listable .standard (some (numbered count)) :=
  ⟨nodup_numbered [] h, fun _ => modified_numbered, fun h => absurd h (by decide),
    fun h => absurd h (by decide)⟩

theorem thread_numberedFile (path : PathBuf) (i : Nat) :
    (flatQuery.thread .standard (numberedFile path i)).isSome = true := rfl

theorem path_of_thread (hitem : flatQuery.thread .standard (numberedFile [] i) = some item) :
    item.path = [numberedName i] := by
  rw [Query.thread, buildFromRollout] at hitem
  exact (buildThreadItem_eq_some hitem).1

theorem numberedName_ne_zero (h : i < maxScanFiles) : numberedName (i + 1) ≠ numberedName 0 := by
  intro heq
  have hparse (i : Nat) : parseTimestampUuidFromFilename .standard (numberedName i) =
      some (sharedTime, Fin.ofNat _ i) := parse_standardName rfl
  have hid := (hparse (i + 1)).symm.trans ((congrArg _ heq).trans (hparse 0))
  have hval : (i + 1) % 2 ^ 128 = 0 % 2 ^ 128 :=
    congrArg Fin.val (congrArg Prod.snd (Option.some.inj hid))
  rw [maxScanFiles] at h
  omega

variable {cap : Nat}

/-- The directory at each request: one thread more after the first. -/
def growingDirs (cap n : Nat) : Option Dir := some (numbered (countAt cap n))

theorem listable_growingDirs (hcap : cap = maxScanFiles) (n : Nat) :
    flatQuery.Listable .standard (growingDirs cap n) := by
  refine listable_flat ?_
  rw [countAt, hcap]
  split
  · exact Nat.le_succ _
  · exact Nat.le_refl _

theorem growingDirs_succ (cap n : Nat) : growingDirs cap (n + 1) = some (numbered (cap + 1)) := by
  rw [growingDirs, countAt, if_neg (Nat.succ_ne_zero n)]

theorem files_flatQuery (dir : Dir) :
    flatQuery.files .standard (some dir) = dirRollouts .standard [] dir := rfl

theorem files_growingDirs_zero (cap : Nat) : flatQuery.files .standard (growingDirs cap 0) =
    (List.range cap).reverse.map (numberedFile []) := by
  rw [growingDirs, files_flatQuery, dirRollouts_numbered, countAt, if_pos rfl]

theorem items_request_flatQuery {dirs : Nat → Option Dir} {dir : Dir} (hdir : dirs n = some dir)
    (cursor : Option Cursor) : (flatQuery.request .standard dirs n cursor).items =
      (traverseFlatPathsCreated .standard [] dir 1 (cursor.bind (handOn .standard))
        flatQuery.config.filters).items := by
  rw [Query.request, hdir]
  rfl

theorem length_files_growingDirs_zero (cap : Nat) :
    (flatQuery.files .standard (growingDirs cap 0)).length = cap := by
  rw [files_growingDirs_zero, List.length_map, List.length_reverse, List.length_range]

/-- The first page has the newest thread only. -/
theorem path_ne_of_mem_first (hcap : cap = maxScanFiles)
    (hitem : item ∈ (flatQuery.request .standard (growingDirs cap) 0 none).items) :
    item.path ≠ [numberedName 0] := by
  have hlength : (flatQuery.files .standard (growingDirs cap 0)).length ≤ maxScanFiles := by
    rw [length_files_growingDirs_zero, hcap]
  have hserves := Query.serves_request Formats.standard_lawful (listable_growingDirs hcap 0)
    hlength none
  have hdesc := (listable_growingDirs hcap 0).descending
  have hone : 1 < cap := by
    rw [hcap]
    decide
  rw [hserves.items_eq, after_none] at hitem
  obtain ⟨e, he, rfl⟩ := List.mem_map.1 hitem
  obtain ⟨f, hf, hbuild, hkey⟩ := mem_entries.1 (List.mem_of_mem_take he)
  rw [(sortDesc_perm ..).mem_iff, files_growingDirs_zero] at hf
  obtain ⟨i, hi, rfl⟩ := List.mem_map.1 hf
  rw [List.mem_reverse, List.mem_range] at hi
  rw [path_of_thread hbuild]
  cases i with
  | zero =>
    -- The thread after it has a larger key, so that it comes first.
    obtain ⟨second, hsecond⟩ := Option.isSome_iff_exists.1 (thread_numberedFile [] 1)
    have hfile : numberedFile [] 1 ∈ flatQuery.files .standard (growingDirs cap 0) := by
      rw [files_growingDirs_zero]
      exact List.mem_map_of_mem (List.mem_reverse.2 (List.mem_range.2 hone))
    have hmem : (flatQuery.key (numberedFile [] 1), second) ∈
        flatQuery.listing .standard (flatQuery.files .standard (growingDirs cap 0)) :=
      mem_entries.2 ⟨_, (sortDesc_perm ..).mem_iff.2 hfile, hsecond, rfl⟩
    have hlt : e.1 < flatQuery.key (numberedFile [] 1) := by
      rw [← hkey]
      exact key_numberedFile_lt .createdAt [] Nat.zero_lt_one (by decide)
    exact absurd (hdesc.le_of_mem_take_one he hmem) (not_le_of_gt hlt)
  | succ j =>
    intro heq
    rw [hcap] at hi
    exact numberedName_ne_zero (Nat.lt_of_succ_lt hi) (List.singleton_inj.1 heq)

/-- A page after the first has nothing of the oldest thread, which the scan does not come to. -/
theorem path_ne_of_mem_later (hcap : cap = maxScanFiles) {cursor : Option Cursor}
    (hitem : item ∈ (flatQuery.request .standard (growingDirs cap) (n + 1) cursor).items) :
    item.path ≠ [numberedName 0] := by
  have hfiles : (dirRollouts .standard [] (numbered (cap + 1))).take maxScanFiles =
      (List.range cap).reverse.map fun i => numberedFile [] (i + 1) := by
    rw [dirRollouts_numbered, List.range_succ_eq_map, List.reverse_cons, List.map_append,
      List.take_left' (by simp [hcap]), ← List.map_reverse, List.map_map]
    rfl
  rw [items_request_flatQuery (growingDirs_succ cap n)] at hitem
  obtain ⟨scanned, hpage⟩ : ∃ scanned, traverseFlatPathsCreated .standard []
      (numbered (cap + 1)) 1 (cursor.bind (handOn .standard)) flatQuery.config.filters =
        _ := traverseFlatPathsCreated_eq hfiles
  rw [hpage, items_page] at hitem
  obtain ⟨f, hf, hbuild⟩ := mem_items_pageOf hitem
  obtain ⟨i, hi, rfl⟩ := List.mem_map.1 hf
  rw [List.mem_reverse, List.mem_range, hcap] at hi
  rw [path_of_thread hbuild]
  intro heq
  exact numberedName_ne_zero hi (List.singleton_inj.1 heq)

theorem path_ne_of_mem_collected (hcap : cap = maxScanFiles) (n : Nat) :
    ∀ item ∈ collected (flatQuery.request .standard (growingDirs cap)) n,
      item.path ≠ [numberedName 0] := by
  induction n with
  | zero =>
    intro item hitem
    exact path_ne_of_mem_first hcap hitem
  | succ n ih =>
    intro item hitem
    rw [collected] at hitem
    rcases List.mem_append.1 hitem with hbefore | hlast
    · exact ih item hbefore
    · cases hfollow : follow (flatQuery.request .standard (growingDirs cap)) (n + 1) with
      | none =>
        rw [hfollow] at hlast
        cases hlast
      | some page =>
        obtain ⟨c, rfl⟩ := exists_of_follow_succ hfollow
        rw [hfollow] at hlast
        exact path_ne_of_mem_later hcap hlast

theorem not_exact_growingDirs (hcap : cap = maxScanFiles) :
    ¬flatQuery.Exact .standard (growingDirs cap) := by
  rintro ⟨n, page, visited, -, -, hperm, -, hall⟩
  obtain ⟨item, hitem⟩ := Option.isSome_iff_exists.1 (thread_numberedFile [] 0)
  have hpos : 0 < cap := by
    rw [hcap]
    decide
  have hfile : numberedFile [] 0 ∈ visited := by
    rw [hperm.mem_iff, List.mem_filter, files_growingDirs_zero]
    exact ⟨List.mem_map_of_mem (List.mem_reverse.2 (List.mem_range.2 hpos)),
      thread_numberedFile [] 0⟩
  have hmem : some item ∈
      (collected (flatQuery.request .standard (growingDirs cap)) n).map some := by
    rw [hall, ← hitem]
    exact List.mem_map_of_mem hfile
  obtain ⟨item', hitem', heq⟩ := List.mem_map.1 hmem
  cases heq
  exact path_ne_of_mem_collected hcap n item hitem' (path_of_thread hitem)

theorem created_growingDirs (hcap : cap = maxScanFiles) :
    flatQuery.Created .standard (growingDirs cap) :=
  created_numbered (listable_growingDirs hcap 0) (Nat.le_of_eq hcap) fun _ => files_flatQuery _

theorem oldest_thread_lost :
    (∀ n, flatQuery.Listable .standard (growingDirs maxScanFiles n)) ∧
      (flatQuery.files .standard (growingDirs maxScanFiles 0)).length ≤ maxScanFiles ∧
        flatQuery.Created .standard (growingDirs maxScanFiles) ∧
          ¬flatQuery.Exact .standard (growingDirs maxScanFiles) :=
  ⟨listable_growingDirs rfl, Nat.le_of_eq (length_files_growingDirs_zero _), created_growingDirs rfl,
    not_exact_growingDirs rfl⟩

end

end SheriMl.ThreadList
