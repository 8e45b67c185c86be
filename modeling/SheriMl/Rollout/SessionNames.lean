import SheriMl.Rollout.SessionIndex

/-!
# Names of the session index

The lookup of one thread's name and that of many agree on a file that was appended to exactly if the
last name of each thread is one that `normalize_thread_name` leaves alone
(`namesAgree_iff`), as the names of `set_thread_name` are (`settled_renamed`).
-/

namespace SheriMl.SessionIndex

open Pieces
open ThreadList (Uuid)

variable {json : EntryJson} {entry : SessionIndexEntry} {entries : List SessionIndexEntry}
  {threadId : Uuid} {threadIds : Finset Uuid}

/-! ## Names -/

@[simp] theorem normalizeThreadName_eq (name : Str) :
    normalizeThreadName name = if Str.trim name = [] then none else some (Str.trim name) := by
  rw [normalizeThreadName]
  cases Str.trim name with
  | nil => rfl
  | cons c name => rfl

theorem normalizeThreadName_of_eq_some {name name' : Str}
    (h : normalizeThreadName name = some name') : normalizeThreadName name' = some name' := by
  rw [normalizeThreadName_eq] at h ⊢
  split at h
  · cases h
  next hne =>
    obtain rfl := Option.some.inj h
    rw [Str.trim_trim, if_neg hne]

theorem getLast?_normalize_iff (names : List Str) :
    (names.filterMap normalizeThreadName).getLast? = names.getLast? ↔
      ∀ name ∈ names.getLast?, normalizeThreadName name = some name := by
  induction names using List.reverseRecOn with
  | nil => simp
  | append_singleton names last _ =>
    rw [List.filterMap_append, List.getLast?_append, List.getLast?_concat]
    constructor
    · intro h name hname
      obtain rfl := Option.some.inj hname
      cases hlast : normalizeThreadName last with
      | some name =>
        rw [List.filterMap_cons_some hlast] at h
        exact h
      | none =>
        rw [List.filterMap_cons_none hlast] at h
        obtain ⟨name, -, hname⟩ := List.mem_filterMap.1 (List.mem_of_getLast? h)
        rw [normalizeThreadName_of_eq_some hname] at hlast
        cases hlast
    · intro h
      rw [List.filterMap_cons_some (h last rfl)]
      rfl

/-! ## Files that are appended to -/

/-- What `serde_json` promises of an entry: it is read back, and its text is an object on one line. -/
structure EntryJson.Writes (json : EntryJson) (entry : SessionIndexEntry) : Prop where
  fromStr : json.fromStr (json.toString entry) = some entry
  braces : ∃ inner : Str, json.toString entry = '\x7b' :: (inner ++ ['\x7d'])
  newline : '\n' ∉ json.toString entry

/-- The file that entries are appended to. -/
def written (json : EntryJson) (entries : List SessionIndexEntry) : Option (List UInt8) :=
  entries.foldl (fun file entry => appendSessionIndexEntry json entry file) none

theorem EntryJson.Writes.trim (h : json.Writes entry) :
    Str.trim (json.toString entry) = json.toString entry := by
  obtain ⟨inner, hinner⟩ := h.braces
  rw [hinner]
  exact Str.trim_between rfl rfl inner (by simp)

theorem EntryJson.Writes.not_endsWith (h : json.Writes entry) :
    Str.endsWith (json.toString entry) "\r" = false := by
  obtain ⟨inner, hinner⟩ := h.braces
  rw [Bool.eq_false_iff, hinner]
  intro hends
  obtain ⟨r, hr⟩ := Str.endsWith_iff.1 hends
  have hlast := congrArg List.getLast? hr
  rw [← List.cons_append, List.getLast?_concat] at hlast
  change some '\x7d' = (r ++ ['\r']).getLast? at hlast
  rw [List.getLast?_concat] at hlast
  exact absurd (Option.some.inj hlast) (by decide)

theorem EntryJson.Writes.isEmpty (h : json.Writes entry) :
    (json.toString entry).isEmpty = false := by
  obtain ⟨inner, hinner⟩ := h.braces
  rw [hinner]
  rfl

theorem getD_written (json : EntryJson) (entries : List SessionIndexEntry) :
    (written json entries).getD [] =
      terminate 10 (entries.map fun entry => Str.asBytes (json.toString entry)) := by
  induction entries using List.reverseRecOn with
  | nil => rfl
  | append_singleton entries entry ih =>
    rw [written, List.foldl_concat]
    change ((written json entries).getD [] ++ _) = _
    have hnewline : Str.asBytes ['\n'] = [10] := rfl
    rw [ih, List.map_append, terminate_append, Str.asBytes_append, hnewline, List.map_singleton,
      terminate_cons, terminate_nil]

theorem notMem_of_mem_lines (hjson : ∀ entry ∈ entries, json.Writes entry) :
    ∀ line ∈ entries.map fun entry => Str.asBytes (json.toString entry), (10 : UInt8) ∉ line := by
  intro line hline
  obtain ⟨entry, hentry, rfl⟩ := List.mem_map.1 hline
  exact Str.notMem_asBytes (hjson entry hentry).newline

/-! ## The lookup of one name -/

theorem parseLine_asBytes (h : json.Writes entry) (predicate : SessionIndexEntry → Bool) :
    parseLine json predicate (Str.asBytes (json.toString entry)) =
      (some entry).filter predicate := by
  rw [parseLine, Str.fromUtf8_asBytes, Option.bind_some, Str.chomp_of_not_endsWith h.not_endsWith,
    h.trim]
  simp only [h.isEmpty, Bool.false_eq_true, if_false, h.fromStr]

theorem scanIndex_written (hjson : ∀ entry ∈ entries, json.Writes entry)
    (predicate : SessionIndexEntry → Bool) :
    scanIndex json predicate ((written json entries).getD []) =
      (entries.filter predicate).getLast? := by
  have hempty : parseLine json predicate [] = none := rfl
  rw [getD_written, scanIndex, splitOn_terminate (notMem_of_mem_lines hjson), List.filterMap_append,
    List.filterMap_cons_none hempty, List.filterMap_nil, List.append_nil, List.filterMap_map,
    ← List.filterMap_eq_filter]
  congr 1
  refine List.filterMap_congr fun entry hentry => ?_
  exact (parseLine_asBytes (hjson entry hentry) predicate).trans rfl

def namesOf (threadId : Uuid) (entries : List SessionIndexEntry) : List Str :=
  (entries.filter fun entry => entry.id = threadId).map SessionIndexEntry.threadName

theorem findThreadNameById_written (hjson : ∀ entry ∈ entries, json.Writes entry)
    (threadId : Uuid) :
    findThreadNameById json threadId (written json entries) =
      (namesOf threadId entries).getLast? := by
  have hlast := scanIndex_written hjson fun entry => entry.id = threadId
  rw [namesOf, List.getLast?_map, ← hlast, findThreadNameById]
  cases written json entries with
  | none => rfl
  | some content => rw [Option.bind_some, scanIndexFromEnd_eq, Option.getD_some]

/-! ## The lookup of many names -/

/-- What an entry does to the names found so far. -/
def insertEntryName (threadIds : Finset Uuid) (names : Uuid → Option Str)
    (entry : SessionIndexEntry) : Uuid → Option Str :=
  match normalizeThreadName entry.threadName with
  | none => names
  | some name =>
    if entry.id ∈ threadIds then Function.update names entry.id (some name) else names

theorem insertName_toString (h : json.Writes entry) (names : Uuid → Option Str) :
    insertName json threadIds names (json.toString entry) =
      insertEntryName threadIds names entry := by
  rw [insertName, insertEntryName, normalizeThreadName_eq, h.trim]
  simp only [h.isEmpty, Bool.false_eq_true, if_false, h.fromStr]
  by_cases hname : Str.trim entry.threadName = []
  · rw [if_neg fun hboth => hboth.1 hname, if_pos hname]
  · rw [if_neg hname]
    simp only [ne_eq, hname, not_false_eq_true, true_and]

theorem readNames_lines (hjson : ∀ entry ∈ entries, json.Writes entry) (threadIds : Finset Uuid)
    (names : Uuid → Option Str) :
    readNames json threadIds names
        ((entries.map fun entry => Str.asBytes (json.toString entry)).map (· ++ [10])) =
      .ok (entries.foldl (insertEntryName threadIds) names) := by
  induction entries generalizing names with
  | nil => rfl
  | cons entry entries ih =>
    obtain ⟨hentry, hentries⟩ := List.forall_mem_cons.1 hjson
    have hline : Str.asBytes (json.toString entry) ++ [10] =
        Str.asBytes (json.toString entry ++ ['\n']) := by
      rw [Str.asBytes_append]
      rfl
    rw [List.map_cons, List.map_cons, readNames, hline, Str.readLine_asBytes hentry.not_endsWith]
    simp only [insertName_toString hentry]
    exact ih hentries _

theorem foldl_insertEntryName (hid : threadId ∈ threadIds) (names : Uuid → Option Str) :
    entries.foldl (insertEntryName threadIds) names threadId =
      ((namesOf threadId entries).filterMap normalizeThreadName).getLast?.or (names threadId) := by
  induction entries using List.reverseRecOn with
  | nil => rfl
  | append_singleton entries entry ih =>
    rw [List.foldl_concat, insertEntryName, namesOf, List.filter_append, List.map_append,
      List.filterMap_append, List.getLast?_append, Option.or_assoc]
    change _ = Option.or _ ((List.filterMap _ (namesOf threadId entries)).getLast?.or _)
    rw [← ih]
    by_cases hentry : entry.id = threadId
    · rw [List.filter_cons_of_pos (by simpa using hentry), List.filter_nil, List.map_singleton]
      cases hname : normalizeThreadName entry.threadName with
      | none => rw [List.filterMap_cons_none hname]; rfl
      | some name =>
        rw [List.filterMap_cons_some hname]
        dsimp only
        rw [if_pos (hentry ▸ hid), hentry, Function.update_self]
        rfl
    · rw [List.filter_cons_of_neg (by simpa using hentry), List.filter_nil, List.map_nil,
        List.filterMap_nil, List.getLast?_nil, Option.none_or]
      cases normalizeThreadName entry.threadName with
      | none => rfl
      | some name =>
        dsimp only
        split
        · exact Function.update_of_ne (Ne.symm hentry) ..
        · rfl

theorem findThreadNamesByIds_written (hjson : ∀ entry ∈ entries, json.Writes entry)
    (threadIds : Finset Uuid) :
    ∃ names, findThreadNamesByIds json threadIds (written json entries) = .ok names ∧
      ∀ threadId ∈ threadIds, names threadId =
        ((namesOf threadId entries).filterMap normalizeThreadName).getLast? := by
  by_cases hempty : threadIds = ∅
  · refine ⟨fun _ => none, if_pos hempty, ?_⟩
    intro threadId hid
    rw [hempty] at hid
    exact absurd hid (Finset.notMem_empty _)
  · refine ⟨entries.foldl (insertEntryName threadIds) fun _ => none, ?_, ?_⟩
    · have hread := readNames_lines hjson threadIds fun _ => none
      have hcontent := getD_written json entries
      rw [← pieces_terminate (notMem_of_mem_lines hjson), ← hcontent] at hread
      rw [← hread, findThreadNamesByIds.eq_def, if_neg hempty]
      cases written json entries with
      | none | some content => rfl
    · intro threadId hid
      rw [foldl_insertEntryName hid, Option.or_none]

/-! ## Agreement -/

/-- The lookup of many names finds for each thread what the lookup of one does. -/
def NamesAgree (json : EntryJson) (file : Option (List UInt8)) : Prop :=
  ∀ threadIds : Finset Uuid, ∃ names, findThreadNamesByIds json threadIds file = .ok names ∧
    ∀ threadId ∈ threadIds, names threadId = findThreadNameById json threadId file

/-- The last name of each thread is in normal form. -/
def Settled (entries : List SessionIndexEntry) : Prop :=
  ∀ threadId, ∀ name ∈ (namesOf threadId entries).getLast?, normalizeThreadName name = some name

theorem namesAgree_iff (hjson : ∀ entry ∈ entries, json.Writes entry) :
    NamesAgree json (written json entries) ↔ Settled entries := by
  constructor
  · intro h threadId
    obtain ⟨names, hnames, hall⟩ := h {threadId}
    obtain ⟨names', hnames', hall'⟩ := findThreadNamesByIds_written hjson {threadId}
    obtain rfl := Except.ok.inj (hnames.symm.trans hnames')
    rw [← getLast?_normalize_iff, ← hall' threadId (Finset.mem_singleton_self _),
      hall threadId (Finset.mem_singleton_self _), findThreadNameById_written hjson]
  · intro h threadIds
    obtain ⟨names, hnames, hall⟩ := findThreadNamesByIds_written hjson threadIds
    refine ⟨names, hnames, fun threadId hid => ?_⟩
    rw [hall threadId hid, findThreadNameById_written hjson]
    exact (getLast?_normalize_iff _).2 (h threadId)

/-- A call of `set_thread_name`. -/
structure Rename where
  persistenceEnabled : Bool
  threadId : Uuid
  name : Str
  now : Option Str

def Rename.appended (rename : Rename) : Option SessionIndexEntry :=
  if rename.persistenceEnabled then
    (normalizeThreadName rename.name).map fun name =>
      ⟨rename.threadId, name, rename.now.getD "unknown"⟩
  else none

/-- The file that calls of `set_thread_name` make. -/
def renamed (json : EntryJson) (renames : List Rename) : Option (List UInt8) :=
  renames.foldl (fun file rename => setThreadName json rename.persistenceEnabled rename.threadId
    rename.name rename.now file) none

theorem renamed_eq (renames : List Rename) :
    renamed json renames = written json (renames.filterMap Rename.appended) := by
  induction renames using List.reverseRecOn with
  | nil => rfl
  | append_singleton renames rename ih =>
    have happend (entries later : List SessionIndexEntry) : written json (entries ++ later) =
        later.foldl (fun file entry => appendSessionIndexEntry json entry file)
          (written json entries) := List.foldl_append
    rw [renamed, List.foldl_concat, ← renamed, ih, List.filterMap_append, happend, setThreadName]
    cases hname : normalizeThreadName rename.name with
    | none =>
      have hentry : rename.appended = none := by
        rw [Rename.appended, hname]
        exact ite_self _
      rw [List.filterMap_cons_none hentry]
      rfl
    | some name =>
      cases henabled : rename.persistenceEnabled with
      | false =>
        have hentry : rename.appended = none := by
          rw [Rename.appended, henabled]
          rfl
        rw [List.filterMap_cons_none hentry]
        rfl
      | true =>
        have hentry : rename.appended = some ⟨rename.threadId, name, rename.now.getD "unknown"⟩ := by
          rw [Rename.appended, henabled, hname]
          rfl
        rw [List.filterMap_cons_some hentry]
        rfl

/-- The names that `set_thread_name` appends are in normal form. -/
theorem settled_renamed (renames : List Rename) : Settled (renames.filterMap Rename.appended) := by
  intro threadId last hlast
  obtain ⟨entry, hentry, rfl⟩ := List.mem_map.1 (List.mem_of_getLast? hlast)
  obtain ⟨rename, -, hrename⟩ := List.mem_filterMap.1 (List.mem_filter.1 hentry).1
  rw [Rename.appended] at hrename
  split at hrename
  · obtain ⟨name, hname, heq⟩ := Option.map_eq_some_iff.1 hrename
    rw [← heq]
    exact normalizeThreadName_of_eq_some hname
  · cases hrename

/-- Reading backwards finds the last match of any file. On a file that entries were appended to the
lookups of names agree exactly if each thread's last name is in normal form, and so they do on those
of `set_thread_name`. -/
theorem sessionIndex_spec (hjson : ∀ entry ∈ entries, json.Writes entry) :
    (∀ predicate content, scanIndexFromEnd json predicate content =
      scanIndex json predicate content) ∧
    (NamesAgree json (written json entries) ↔ Settled entries) ∧
    ∀ renames : List Rename, renames.filterMap Rename.appended = entries →
      NamesAgree json (renamed json renames) := by
  refine ⟨fun predicate content => scanIndexFromEnd_eq content, namesAgree_iff hjson, ?_⟩
  rintro renames rfl
  rw [renamed_eq]
  exact (namesAgree_iff hjson).2 (settled_renamed renames)

/-! ### A name with white space around it -/

def sampleEntry (name : Str) : SessionIndexEntry := ⟨1, name, "unknown"⟩

def sampleFields (entry : SessionIndexEntry) : Str :=
  ("\"id\":\"00000000-0000-0000-0000-000000000001\",\"thread_name\":\"" : Str) ++
    (entry.threadName ++ ("\",\"updated_at\":\"unknown\"" : Str))

def sampleText (entry : SessionIndexEntry) : Str := '\x7b' :: (sampleFields entry ++ ['\x7d'])

/-- JSON, as far as the entries of two names go. -/
def sampleJson : EntryJson where
  toString := sampleText
  fromStr s := [sampleEntry " draft ", sampleEntry "draft"].find? fun entry => sampleText entry = s

theorem writes_sampleJson {entry : SessionIndexEntry}
    (hread : sampleJson.fromStr (sampleText entry) = some entry)
    (hnewline : '\n' ∉ sampleText entry) : sampleJson.Writes entry :=
  ⟨hread, ⟨sampleFields entry, rfl⟩, hnewline⟩

theorem writes_sampleEntries :
    ∀ entry ∈ [sampleEntry " draft ", sampleEntry "draft"], sampleJson.Writes entry := by
  intro entry hentry
  rcases List.mem_cons.1 hentry with rfl | hentry
  · exact writes_sampleJson (by decide) (by decide)
  · obtain rfl := List.mem_singleton.1 hentry
    exact writes_sampleJson (by decide) (by decide)

/-- The call that gives a thread its name, with white space around it. -/
def sampleRename : Rename := ⟨true, 1, " draft ", none⟩

theorem appended_sampleRename : [sampleRename].filterMap Rename.appended = [sampleEntry "draft"] := by
  have hname : normalizeThreadName sampleRename.name = some "draft" := by decide
  have happended : sampleRename.appended = some (sampleEntry "draft") := by
    rw [Rename.appended, hname]
    rfl
  rw [List.filterMap_cons_some happended, List.filterMap_nil]

theorem sessionIndex_spec_draft : NamesAgree sampleJson (renamed sampleJson [sampleRename]) :=
  (sessionIndex_spec fun entry hentry =>
    writes_sampleEntries entry (List.mem_cons_of_mem _ hentry)).2.2 _ appended_sampleRename

/-- `append_thread_name` with such a name: one lookup gives it as it is, the other one trims it. -/
theorem not_namesAgree_padded :
    ¬∀ (json : EntryJson) (threadId : Uuid) (name : Str),
      json.Writes ⟨threadId, name, "unknown"⟩ →
      NamesAgree json (appendThreadName json threadId name none none) := by
  intro hall
  have hwrites : ∀ entry ∈ [sampleEntry " draft "], sampleJson.Writes entry := by
    intro entry hentry
    obtain rfl := List.mem_singleton.1 hentry
    exact writes_sampleEntries _ List.mem_cons_self
  have hagree := hall sampleJson 1 " draft " (hwrites _ List.mem_cons_self)
  have hsettled := (namesAgree_iff hwrites).1 hagree 1
  revert hsettled
  decide

end SheriMl.SessionIndex
