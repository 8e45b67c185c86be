import Mathlib.Data.List.Nodup
import SheriMl.Lib.Pages
import SheriMl.Rollout.ThreadList

/-!
# The rollout files under a root

Which files a listing finds, and in which order. A walk over the directories of years, months and
days that visits all files visits them in the order of their names, if each file lies in the
directories of its date (`walkOrder_eq`).
-/

namespace SheriMl.ThreadList

open List

open Loop Paging

universe u

section

variable {σ : Type u} {fmt : Formats} {path parent root : PathBuf} {dir : Dir} {name : Str}
  {entry : DirEntry} {f f' : RolloutFile} {take : RolloutFile → σ} {n scanned : Nat}
  {acc : List σ} {parse : Str → Option Nat} {sub : Str × Dir} {d : DatedDir}

/-! ## One directory -/

/-- The rollouts that lie in a directory. -/
def dirRollouts (fmt : Formats) (path : PathBuf) (dir : Dir) : List RolloutFile :=
  dir.filterMap fun e => e.2.asRollout fmt path e.1

theorem asRollout_eq_some (h : entry.asRollout fmt parent name = some f) :
    f.path = parent ++ [name] ∧
      parseTimestampUuidFromFilename fmt name = some (f.ts, f.id) := by
  cases entry with
  | file data =>
    rw [DirEntry.asRollout] at h
    split at h
    · cases h
    · obtain ⟨named, hnamed, rfl⟩ := Option.map_eq_some_iff.1 h
      exact ⟨rfl, hnamed⟩
  | dir entries => cases h
  | other => cases h

theorem dirRollouts_cons_of_none {e : Str × DirEntry} (he : e.2.asRollout fmt path e.1 = none) :
    dirRollouts fmt path (e :: dir) = dirRollouts fmt path dir := filterMap_cons_none he

theorem dirRollouts_cons_of_some {e : Str × DirEntry} (he : e.2.asRollout fmt path e.1 = some f) :
    dirRollouts fmt path (e :: dir) = f :: dirRollouts fmt path dir := filterMap_cons_some he

theorem mem_dirRollouts (h : f ∈ dirRollouts fmt path dir) :
    ∃ name, f.path = path ++ [name] ∧
      parseTimestampUuidFromFilename fmt name = some (f.ts, f.id) := by
  obtain ⟨e, _, he⟩ := mem_filterMap.1 h
  exact ⟨e.1, asRollout_eq_some he⟩

theorem scanEntry_of_spent {e : Str × DirEntry} (h : maxScanFiles ≤ scanned) :
    scanEntry fmt root take e (scanned, acc) = .done (scanned, acc) := if_pos h

theorem scanEntry_of_none {e : Str × DirEntry} (h : scanned < maxScanFiles)
    (he : e.2.asRollout fmt root e.1 = none) :
    scanEntry fmt root take e (scanned, acc) = .yield (scanned, acc) := by
  rw [scanEntry, if_neg (Nat.not_le.2 h), he]

theorem scanEntry_of_some {e : Str × DirEntry} (h : scanned < maxScanFiles)
    (he : e.2.asRollout fmt root e.1 = some f) :
    scanEntry fmt root take e (scanned, acc) = .yield (scanned + 1, acc ++ [take f]) := by
  rw [scanEntry, if_neg (Nat.not_le.2 h), he]
  exact if_neg (Nat.not_lt.2 h)

theorem loop_scanEntry (h : scanned ≤ maxScanFiles) :
    (state (loop (scanEntry fmt root take) dir (scanned, acc))).2 =
      acc ++ ((dirRollouts fmt root dir).take (maxScanFiles - scanned)).map take := by
  induction dir generalizing scanned acc with
  | nil => simp [dirRollouts]
  | cons e dir ih =>
    rcases Nat.lt_or_eq_of_le h with hlt | heq
    · cases he : e.2.asRollout fmt root e.1 with
      | none =>
        rw [loop_cons_of_yield (scanEntry_of_none hlt he), ih h, dirRollouts_cons_of_none he]
      | some f =>
        have hroom : maxScanFiles - scanned = maxScanFiles - (scanned + 1) + 1 := by omega
        rw [loop_cons_of_yield (scanEntry_of_some hlt he), ih hlt, dirRollouts_cons_of_some he,
          hroom, take_succ_cons, map_cons, append_assoc, singleton_append]
    · rw [loop_cons_of_done (scanEntry_of_spent (Nat.le_of_eq heq.symm)), heq, Nat.sub_self,
        take_zero, map_nil, append_nil]
      rfl

/-- A flat directory is read up to the cap. -/
theorem collectFlat_snd (fmt : Formats) (root : PathBuf) (dir : Dir) (take : RolloutFile → σ) :
    (collectFlat fmt root dir take).2 = ((dirRollouts fmt root dir).take maxScanFiles).map take := by
  rw [collectFlat, loop_scanEntry (Nat.zero_le _), nil_append, Nat.sub_zero]

/-! ## Directories in directories -/

def DirEntry.asDirectory : DirEntry → Option Dir
  | .dir entries => some entries
  | _ => none

/-- The directories in a directory, with their names. -/
def subdirs (dir : Dir) : List (Str × Dir) :=
  dir.filterMap fun e => e.2.asDirectory.map fun entries => (e.1, entries)

/-- The directories in a directory whose name `parse` reads. -/
def dated (parse : Str → Option Nat) (parent : PathBuf) (sub : Str × Dir) : Option DatedDir :=
  (parse sub.1).map fun v => ⟨v, parent ++ [sub.1], sub.2⟩

theorem collectDirsDesc_perm (parse : Str → Option Nat) (parent : PathBuf) (dir : Dir) :
    (collectDirsDesc parse parent dir).Perm ((subdirs dir).filterMap (dated parse parent)) := by
  have heq : (subdirs dir).filterMap (dated parse parent) =
      dir.filterMap fun e => e.2.asDir parse parent e.1 := by
    rw [subdirs, filterMap_filterMap]
    congr 1
    funext ⟨name, entry⟩
    cases entry <;> rfl
  rw [heq]
  exact mergeSort_perm ..

theorem mem_collectDirsDesc (h : d ∈ collectDirsDesc parse parent dir) :
    ∃ sub ∈ subdirs dir, parse sub.1 = some d.value ∧ d.path = parent ++ [sub.1] ∧
      d.entries = sub.2 := by
  obtain ⟨sub, hsub, hd⟩ := mem_filterMap.1 ((collectDirsDesc_perm ..).mem_iff.1 h)
  obtain ⟨v, hv, rfl⟩ := Option.map_eq_some_iff.1 hd
  exact ⟨sub, hsub, hv, rfl, rfl⟩

/-- Directories come with falling numbers; no two are the same. -/
theorem pairwise_collectDirsDesc (hnames : (dir.map Prod.fst).Nodup) :
    (collectDirsDesc parse parent dir).Pairwise fun d d' =>
      d'.value ≤ d.value ∧ d.path ≠ d'.path := by
  have hsorted : (collectDirsDesc parse parent dir).Pairwise fun d d' =>
      decide (d'.value ≤ d.value) = true :=
    pairwise_mergeSort
      (fun a b c hab hbc => by
        have hab := of_decide_eq_true hab
        have hbc := of_decide_eq_true hbc
        exact decide_eq_true (Nat.le_trans hbc hab))
      (fun a b => by simpa using Nat.le_total b.value a.value) _
  have hsubs : (subdirs dir).Pairwise fun sub sub' => sub.1 ≠ sub'.1 := by
    refine List.Pairwise.filterMap _ ?_ (pairwise_map.1 hnames)
    intro e e' hne sub hsub sub' hsub'
    obtain ⟨_, _, rfl⟩ := Option.map_eq_some_iff.1 hsub
    obtain ⟨_, _, rfl⟩ := Option.map_eq_some_iff.1 hsub'
    exact hne
  have hdated : ((subdirs dir).filterMap (dated parse parent)).Pairwise fun d d' =>
      d.path ≠ d'.path := by
    refine List.Pairwise.filterMap _ ?_ hsubs
    intro sub sub' hne d hd d' hd'
    obtain ⟨_, _, rfl⟩ := Option.map_eq_some_iff.1 hd
    obtain ⟨_, _, rfl⟩ := Option.map_eq_some_iff.1 hd'
    simpa using hne
  have hpaths := ((collectDirsDesc_perm parse parent dir).pairwise_iff Ne.symm).2 hdated
  exact (hsorted.and hpaths).imp fun h => ⟨of_decide_eq_true h.1, h.2⟩

/-- The rollouts that lie `n` directories down. -/
def rolloutsBelow (fmt : Formats) : Nat → PathBuf → Dir → List RolloutFile
  | 0, path, dir => dirRollouts fmt path dir
  | n + 1, path, dir => (subdirs dir).flatMap fun sub => rolloutsBelow fmt n (path ++ [sub.1]) sub.2

/-- A directory has each name once, and so have those in it, `n` directories down. -/
def DistinctNames : Nat → Dir → Prop
  | 0, _ => True
  | n + 1, dir => (dir.map Prod.fst).Nodup ∧ ∀ sub ∈ subdirs dir, DistinctNames n sub.2

def rolloutFiles (fmt : Formats) (layout : ThreadListLayout) (root : PathBuf) (dir : Dir) :
    List RolloutFile :=
  match layout with
  | .flat => dirRollouts fmt root dir
  | .nestedByDate => rolloutsBelow fmt 3 root dir

theorem mem_rolloutsBelow_succ :
    f ∈ rolloutsBelow fmt (n + 1) path dir ↔
      ∃ sub ∈ subdirs dir, f ∈ rolloutsBelow fmt n (path ++ [sub.1]) sub.2 := mem_flatMap

theorem dropLast_path_of_mem (h : f ∈ rolloutsBelow fmt n path dir) :
    ∃ names, f.path.dropLast = path ++ names ∧
      ∃ name, f.path.getLast? = some name ∧
        parseTimestampUuidFromFilename fmt name = some (f.ts, f.id) := by
  induction n generalizing path dir with
  | zero =>
    obtain ⟨name, hpath, hname⟩ := mem_dirRollouts h
    exact ⟨[], by rw [hpath, dropLast_concat, append_nil], name,
      by rw [hpath, List.getLast?_concat], hname⟩
  | succ n ih =>
    obtain ⟨sub, _, hf⟩ := mem_rolloutsBelow_succ.1 h
    obtain ⟨names, hnames, hlast⟩ := ih hf
    exact ⟨sub.1 :: names, by rw [hnames, append_assoc, singleton_append], hlast⟩

theorem parse_getLast_path {layout : ThreadListLayout} (h : f ∈ rolloutFiles fmt layout root dir) :
    ∃ name, f.path.getLast? = some name ∧
      parseTimestampUuidFromFilename fmt name = some (f.ts, f.id) := by
  have hbelow : ∃ n, f ∈ rolloutsBelow fmt n root dir := by
    cases layout with
    | flat => exact ⟨0, h⟩
    | nestedByDate => exact ⟨3, h⟩
  obtain ⟨n, hn⟩ := hbelow
  obtain ⟨_, _, hname⟩ := dropLast_path_of_mem hn
  exact hname

/-! ## Directories named for dates -/

/-- A level of directories: the part of a time that a directory is named for, and how the name is
written and read. -/
structure Level where
  part : OffsetDateTime → Nat
  text : Nat → Str
  parse : Str → Option Nat
  parse_text : ∀ t, parse (text (part t)) = some (part t)

variable {level : Level} {levels : List Level} {t t' : OffsetDateTime}

def dateNames (levels : List Level) (t : OffsetDateTime) : List Str :=
  levels.map fun level => level.text (level.part t)

/-- The first part in which two times differ is less. -/
def Before : List Level → OffsetDateTime → OffsetDateTime → Prop
  | [], _, _ => False
  | level :: levels, t, t' =>
    level.part t < level.part t' ∨ level.part t = level.part t' ∧ Before levels t t'

/-- Each rollout lies in the directories of its date. -/
def Consistent (fmt : Formats) (levels : List Level) (path : PathBuf) (dir : Dir) : Prop :=
  ∀ f ∈ rolloutsBelow fmt levels.length path dir, f.path.dropLast = path ++ dateNames levels f.ts

/-- The order in which a walk meets the rollouts. -/
def walkOrder (fmt : Formats) : List Level → PathBuf → Dir → List RolloutFile
  | [], path, dir => sortDesc RolloutFile.created (dirRollouts fmt path dir)
  | level :: levels, path, dir =>
    (collectDirsDesc level.parse path dir).flatMap fun d => walkOrder fmt levels d.path d.entries

theorem Consistent.name_eq (h : Consistent fmt (level :: levels) path dir) (hsub : sub ∈ subdirs dir)
    (hf : f ∈ rolloutsBelow fmt levels.length (path ++ [sub.1]) sub.2) :
    sub.1 = level.text (level.part f.ts) ∧
      f.path.dropLast = (path ++ [sub.1]) ++ dateNames levels f.ts := by
  have hdate := h f (mem_rolloutsBelow_succ.2 ⟨sub, hsub, hf⟩)
  obtain ⟨names, hnames, _⟩ := dropLast_path_of_mem hf
  rw [hnames, append_assoc, append_cancel_left_eq, singleton_append, dateNames,
    map_cons, List.cons.injEq] at hdate
  exact ⟨hdate.1, by rw [hnames, hdate.2, dateNames]⟩

theorem Consistent.below (h : Consistent fmt (level :: levels) path dir) (hsub : sub ∈ subdirs dir) :
    Consistent fmt levels (path ++ [sub.1]) sub.2 := by
  intro f hf
  exact (h.name_eq hsub hf).2

theorem Consistent.part_eq (h : Consistent fmt (level :: levels) path dir) (hsub : sub ∈ subdirs dir)
    (hf : f ∈ rolloutsBelow fmt levels.length (path ++ [sub.1]) sub.2) :
    level.parse sub.1 = some (level.part f.ts) := by
  rw [(h.name_eq hsub hf).1, level.parse_text]

/-- Directories that are passed over have nothing to visit. -/
theorem flatMap_dated_perm {visited : DatedDir → List RolloutFile}
    {rollouts : Str × Dir → List RolloutFile} {subs : List (Str × Dir)}
    (hnone : ∀ sub ∈ subs, parse sub.1 = none → rollouts sub = [])
    (hsome : ∀ sub ∈ subs, ∀ v,
      (visited ⟨v, parent ++ [sub.1], sub.2⟩).Perm (rollouts sub)) :
    ((subs.filterMap (dated parse parent)).flatMap visited).Perm (subs.flatMap rollouts) := by
  induction subs with
  | nil => exact List.Perm.refl _
  | cons sub subs ih =>
    have hrest := ih (fun sub' h => hnone sub' (mem_cons_of_mem _ h))
      (fun sub' h => hsome sub' (mem_cons_of_mem _ h))
    cases hparse : parse sub.1 with
    | none =>
      have hdated : dated parse parent sub = none := by rw [dated, hparse, Option.map_none]
      rw [filterMap_cons_none hdated, flatMap_cons, hnone sub mem_cons_self hparse,
        nil_append]
      exact hrest
    | some v =>
      have hdated : dated parse parent sub = some ⟨v, parent ++ [sub.1], sub.2⟩ := by
        rw [dated, hparse, Option.map_some]
      rw [filterMap_cons_some hdated, flatMap_cons, flatMap_cons]
      exact (hsome sub mem_cons_self v).append hrest

/-- A walk meets all rollouts, since no directory with one is passed over. -/
theorem walkOrder_perm (h : Consistent fmt levels path dir) :
    (walkOrder fmt levels path dir).Perm (rolloutsBelow fmt levels.length path dir) := by
  induction levels generalizing path dir with
  | nil => exact sortDesc_perm ..
  | cons level levels ih =>
    refine ((collectDirsDesc_perm ..).flatMap_right _).trans (flatMap_dated_perm ?_ ?_)
    · intro sub hsub hparse
      refine eq_nil_iff_forall_not_mem.2 ?_
      intro f hf
      rw [h.part_eq hsub hf] at hparse
      cases hparse
    · intro sub hsub _
      exact ih (h.below hsub)

theorem walkOrder_descending (h : Consistent fmt levels path dir)
    (hnames : DistinctNames levels.length dir)
    (hkeys : ((rolloutsBelow fmt levels.length path dir).map RolloutFile.created).Nodup)
    (hbefore : ∀ f ∈ rolloutsBelow fmt levels.length path dir,
      ∀ f' ∈ rolloutsBelow fmt levels.length path dir, Before levels f'.ts f.ts → f'.ts < f.ts) :
    (walkOrder fmt levels path dir).Pairwise fun f f' => f'.created < f.created := by
  induction levels generalizing path dir with
  | nil => exact pairwise_sortDesc hkeys
  | cons level levels ih =>
    rw [walkOrder, pairwise_flatMap]
    constructor
    · intro d hd
      obtain ⟨sub, hsub, _, hpath, hentries⟩ := mem_collectDirsDesc hd
      rw [hpath, hentries]
      refine ih (h.below hsub) (hnames.2 sub hsub) ?_ ?_
      · rw [length_cons, rolloutsBelow, map_flatMap] at hkeys
        exact (nodup_flatMap.1 hkeys).1 sub hsub
      · intro f hf f' hf' hlt
        have heq : level.part f'.ts = level.part f.ts :=
          Option.some.inj ((h.part_eq hsub hf').symm.trans (h.part_eq hsub hf))
        exact hbefore f (mem_rolloutsBelow_succ.2 ⟨sub, hsub, hf⟩) f'
          (mem_rolloutsBelow_succ.2 ⟨sub, hsub, hf'⟩) (.inr ⟨heq, hlt⟩)
    · refine List.Pairwise.imp_of_mem ?_ (pairwise_collectDirsDesc hnames.1)
      intro d d' hd hd' hle f hf f' hf'
      obtain ⟨sub, hsub, hvalue, hpath, hentries⟩ := mem_collectDirsDesc hd
      obtain ⟨sub', hsub', hvalue', hpath', hentries'⟩ := mem_collectDirsDesc hd'
      rw [hpath, hentries] at hf
      rw [hpath', hentries'] at hf'
      have hbelow := (walkOrder_perm (h.below hsub)).mem_iff.1 hf
      have hbelow' := (walkOrder_perm (h.below hsub')).mem_iff.1 hf'
      have hpart : d.value = level.part f.ts :=
        Option.some.inj (hvalue.symm.trans (h.part_eq hsub hbelow))
      have hpart' : d'.value = level.part f'.ts :=
        Option.some.inj (hvalue'.symm.trans (h.part_eq hsub' hbelow'))
      rcases Nat.lt_or_eq_of_le hle.1 with hlt | heq
      · refine Cursor.lt_iff.2 (.inl (hbefore f (mem_rolloutsBelow_succ.2 ⟨sub, hsub, hbelow⟩) f'
          (mem_rolloutsBelow_succ.2 ⟨sub', hsub', hbelow'⟩) (.inl ?_)))
        rwa [← hpart, ← hpart']
      · -- Two directories of one number have one name.
        refine absurd ?_ hle.2
        rw [hpath, hpath', (h.name_eq hsub hbelow).1, (h.name_eq hsub' hbelow').1, ← hpart,
          ← hpart', heq]

end

/-! ## Years, months and days -/

section

variable {max n : Nat} {s : Str} {t t' : OffsetDateTime}

theorem parseUnsigned_eq (hne : s ≠ []) (hdigits : ∀ c ∈ s, Str.isAsciiDigit c = true)
    (hmax : Nat.ofDigitChars 10 s 0 ≤ max) :
    parseUnsigned max s = some (Nat.ofDigitChars 10 s 0) := by
  have hsign : Str.stripPrefix s "+" = none := by
    refine Option.eq_none_iff_forall_ne_some.2 ?_
    intro rest hrest
    have hplus : '+' ∈ s := by
      rw [Str.stripPrefix_eq_some.1 hrest]
      exact mem_cons_self
    exact absurd (hdigits '+' hplus) (by decide)
  rw [parseUnsigned, hsign, Option.getD_none, all_eq_true.2 hdigits, Bool.and_true,
    if_pos (by simpa using hne)]
  exact if_pos hmax

theorem isAsciiDigit_of_mem_toDigits {c : Char} (h : c ∈ Nat.toDigits 10 n) :
    Str.isAsciiDigit c = true := by
  have hdigit := Nat.isDigit_of_mem_toDigits (by decide) (by decide) h
  rw [Char.isDigit, Bool.and_eq_true, decide_eq_true_eq, decide_eq_true_eq] at hdigit
  rw [Str.isAsciiDigit, Bool.and_eq_true, decide_eq_true_eq, decide_eq_true_eq]
  exact hdigit

theorem parseUnsigned_toDigits (h : n ≤ max) : parseUnsigned max (Nat.toDigits 10 n) = some n := by
  have hvalue : Nat.ofDigitChars 10 (Nat.toDigits 10 n) 0 = n := Nat.ofDigitChars_ten_toDigits
  rw [parseUnsigned_eq Nat.toDigits_ne_nil (fun c hc => isAsciiDigit_of_mem_toDigits hc)
    (by rwa [hvalue]), hvalue]

/-- `format!("{:02}")`. -/
def twoDigits (n : Nat) : Str :=
  if n < 10 then '0' :: Nat.toDigits 10 n else Nat.toDigits 10 n

theorem parseUnsigned_twoDigits (h : n ≤ max) : parseUnsigned max (twoDigits n) = some n := by
  by_cases hn : n < 10
  · have hvalue : Nat.ofDigitChars 10 ('0' :: Nat.toDigits 10 n) 0 = n := by
      rw [Nat.ofDigitChars_cons]
      exact Nat.ofDigitChars_ten_toDigits
    have hdigits : ∀ c ∈ '0' :: Nat.toDigits 10 n, Str.isAsciiDigit c = true := by
      intro c hc
      rcases mem_cons.1 hc with rfl | hc
      · decide
      · exact isAsciiDigit_of_mem_toDigits hc
    rw [twoDigits, if_pos hn, parseUnsigned_eq (cons_ne_nil _ _) hdigits (by rwa [hvalue]),
      hvalue]
  · rw [twoDigits, if_neg hn, parseUnsigned_toDigits h]

/-- The directories that the recorder makes for a time: its year, month and day. -/
def dateLevels : List Level :=
  [⟨fun t => t.year, Nat.toDigits 10, parseU16, fun t => parseUnsigned_toDigits (by omega)⟩,
    ⟨fun t => t.month, twoDigits, parseU8, fun t => parseUnsigned_twoDigits (by omega)⟩,
    ⟨fun t => t.day, twoDigits, parseU8, fun t => parseUnsigned_twoDigits (by omega)⟩]

example :
    dateNames dateLevels ⟨2025, 1, 31, 12, 0, 0, 0⟩ = [("2025" : Str), ("01" : Str), ("31" : Str)] :=
  rfl

theorem lt_of_before (h : Before dateLevels t t') : t < t' := by
  rcases h with hyear | ⟨hyear, hmonth | ⟨hmonth, hday | ⟨_, hnone⟩⟩⟩
  · exact Prod.Lex.toLex_lt_toLex.2 (.inl hyear)
  · exact Prod.Lex.toLex_lt_toLex.2 (.inr ⟨Fin.ext hyear, Prod.Lex.toLex_lt_toLex.2 (.inl hmonth)⟩)
  · exact Prod.Lex.toLex_lt_toLex.2 (.inr ⟨Fin.ext hyear, Prod.Lex.toLex_lt_toLex.2
      (.inr ⟨Fin.ext hmonth, Prod.Lex.toLex_lt_toLex.2 (.inl hday)⟩)⟩)
  · exact absurd hnone id

end

/-! ## The walk -/

section

variable {σ : Type u} {fmt : Formats} {root : PathBuf} {dir : Dir}
  {visit : RolloutFile → Nat → σ → ForInStep σ} {s : Scan σ} {t : σ} {f : RolloutFile}

theorem scanFile_of_yield (h : s.1 < maxScanFiles) (hvisit : visit f (s.1 + 1) s.2 = .yield t) :
    scanFile visit f s = .yield (s.1 + 1, t) := by
  rw [scanFile, hvisit]
  exact if_neg (Nat.not_lt.2 h)

theorem scanFile_of_done (h : s.1 < maxScanFiles) (hvisit : visit f (s.1 + 1) s.2 = .done t) :
    scanFile visit f s = .done (s.1 + 1, t) := by
  rw [scanFile, hvisit]
  exact if_neg (Nat.not_lt.2 h)

theorem counts_scanFile : Counts Prod.fst (scanFile visit) := by
  intro f s s' h
  rw [scanFile] at h
  split at h
  · cases h
  · split at h
    · cases h
      rfl
    · cases h

theorem walkRolloutFiles_eq
    (hcap : s.1 + (walkOrder fmt dateLevels root dir).length ≤ maxScanFiles) :
    walkRolloutFiles fmt root dir visit s =
      state (loop (scanFile visit) (walkOrder fmt dateLevels root dir) s) := by
  refine (budgeted_agree counts_scanFile ?_ hcap).state_eq
  intro year s hyear
  refine budgeted_agree counts_scanFile ?_ hyear
  intro month s hmonth
  refine budgeted_agree counts_scanFile ?_ hmonth
  intro day s _
  exact .inl rfl

end

end SheriMl.ThreadList
