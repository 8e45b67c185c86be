import Mathlib.Data.List.Sort
import SheriMl.Lib.Lines
import SheriMl.Lib.TreeWalk
import SheriMl.Tools.ListDir

/-!
# What a directory listing shows

All the entries down to the depth are collected, one directory after another
(`exists_collectEntries`), and sorted by their paths. Whether that is a walk of the tree, so that
the indentation shows under which directory an entry is, is a matter of the paths alone: a name
like `a.txt` comes between a directory `a` and what is in it, since `.` is below `/`. The pages
are the listing in any case (`exists_pages`).
-/

namespace SheriMl.Tools

open List

open TreeWalk

variable {ν : Type} {lossy : ν → Str} {sort : List (Found ν) → List (Found ν)} {tree : DirTree ν}
  {depth fuel limit n : Nat} {path : List ν} {found : Found ν}

/-- The entries of a directory, if it is read. -/
def foundIn (lossy : ν → Str) (tree : DirTree ν) (path : List ν) : List (Found ν) :=
  match tree.read path with
  | .ok entries => entries.map (inspectEntry lossy path)
  | .error _ => []

def entriesBelow (lossy : ν → Str) (tree : DirTree ν) (found : Found ν) : List (Found ν) :=
  if found.entry.kind = .directory then foundIn lossy tree found.relativePath else []

/-- The entries of the tree below a directory, cut at a depth. -/
abbrev entriesWithin (lossy : ν → Str) (tree : DirTree ν) (depth : Nat) (path : List ν) :
    List (Found ν) :=
  nodes (entriesBelow lossy tree) depth (foundIn lossy tree path)

/-- The directories down to the depth are read. -/
def Readable (lossy : ν → Str) (tree : DirTree ν) : Nat → List ν → Prop
  | 0, _ => True
  | n + 1, path => (∃ entries, tree.read path = .ok entries) ∧
      ∀ found ∈ foundIn lossy tree path, found.entry.kind = .directory →
        Readable lossy tree n found.relativePath

/-- What an unstable sort by the name leaves to chance is the order of equal names. -/
def Sorts (sort : List (Found ν) → List (Found ν)) : Prop :=
  ∀ l, (sort l).Perm l ∧ (sort l).Pairwise fun found found' =>
    found.entry.name ≤ found'.entry.name

/-! ## The entries are distinct -/

theorem of_mem_foundIn (h : found ∈ foundIn lossy tree path) :
    found.relativePath = path ++ [found.fileName] ∧ found.entry.depth = path.length ∧
      found.entry.name = formatEntryName lossy found.relativePath := by
  unfold foundIn at h
  split at h
  · obtain ⟨read, -, rfl⟩ := mem_map.1 h
    exact ⟨rfl, rfl, rfl⟩
  · cases h

theorem relativePath_of_mem_nodes (h : found ∈ entriesWithin lossy tree n path) :
    ∃ name rest, found.relativePath = path ++ name :: rest := by
  induction n generalizing path with
  | zero => cases h
  | succ n ih =>
    obtain ⟨first, hfirst, hfound⟩ := mem_nodes_succ.1 h
    obtain ⟨hpath, -⟩ := of_mem_foundIn hfirst
    rcases hfound with rfl | hbelow
    · exact ⟨_, [], hpath⟩
    · rw [entriesBelow] at hbelow
      split at hbelow
      · obtain ⟨name', rest, hrest⟩ := ih hbelow
        exact ⟨_, name' :: rest, by rw [hrest, hpath, append_assoc]; rfl⟩
      · rw [nodes_nil] at hbelow
        cases hbelow

theorem nodup_relativePaths (lossy : ν → Str) (tree : DirTree ν) (path : List ν) :
    (foundIn lossy tree path).Pairwise fun found found' =>
      found.relativePath ≠ found'.relativePath := by
  unfold foundIn
  split
  next entries hread =>
    refine pairwise_map.2 ((pairwise_map.1 (tree.nodup path entries hread)).imp ?_)
    intro read read' hne heq
    exact hne (singleton_inj.1 (append_cancel_left heq))
  next => exact List.Pairwise.nil

theorem nodup_entriesWithin (lossy : ν → Str) (tree : DirTree ν) (n : Nat) (path : List ν) :
    (entriesWithin lossy tree n path).Nodup := by
  induction n generalizing path with
  | zero => exact nodup_nil
  | succ n ih =>
    have hbelow : ∀ found, ∀ x ∈ nodes (entriesBelow lossy tree) n (entriesBelow lossy tree found),
        ∃ name rest, x.relativePath = found.relativePath ++ name :: rest := by
      intro found x hx
      rw [entriesBelow] at hx
      split at hx
      · exact relativePath_of_mem_nodes hx
      · rw [nodes_nil] at hx
        cases hx
    refine nodup_flatMap.2 ⟨fun found _ => nodup_cons.2 ⟨fun hmem => ?_, ?_⟩, ?_⟩
    · obtain ⟨name, rest, hpath⟩ := hbelow found found hmem
      have hlength := congrArg List.length hpath
      rw [length_append, length_cons] at hlength
      omega
    · rw [entriesBelow]
      split
      · exact ih _
      · rw [nodes_nil]
        exact nodup_nil
    · refine (nodup_relativePaths lossy tree path).imp_of_mem ?_
      intro found found' hfound hfound' hne x hx hx'
      have hbegins : ∀ first, x ∈ first :: nodes (entriesBelow lossy tree) n
          (entriesBelow lossy tree first) → first.relativePath <+: x.relativePath := by
        intro first hmem
        rcases mem_cons.1 hmem with rfl | hmem
        · exact prefix_refl _
        · obtain ⟨name, rest, hpath⟩ := hbelow first x hmem
          exact ⟨name :: rest, hpath.symm⟩
      obtain ⟨hpath, -⟩ := of_mem_foundIn hfound
      obtain ⟨hpath', -⟩ := of_mem_foundIn hfound'
      refine hne (List.IsPrefix.eq_of_length (prefix_of_prefix_length_le (hbegins found hx)
        (hbegins found' hx') ?_) ?_)
      · rw [hpath, hpath', length_append, length_append, length_singleton,
          length_singleton]
      · rw [hpath, hpath', length_append, length_append, length_singleton,
          length_singleton]

/-! ## Collecting -/

theorem flatMap_filter {α β : Type} (p : α → Bool) (f : α → List β) (l : List α) :
    (l.filter p).flatMap f = l.flatMap fun a => if p a then f a else [] := by
  induction l with
  | nil => rfl
  | cons a l ih =>
    rw [filter_cons, flatMap_cons, ← ih]
    split <;> rfl

/-- The directories that are put in the queue. -/
def subdirs (dirEntries : List (Found ν)) (n : Nat) : List (List ν × Nat) :=
  (dirEntries.filter fun found =>
    found.entry.kind = .directory && decide (1 < n + 1)).map fun found => (found.relativePath, n)

theorem length_subdirs_le (dirEntries : List (Found ν)) (n : Nat) :
    (subdirs dirEntries n).length ≤ dirEntries.length := by
  rw [subdirs, length_map]
  exact length_filter_le ..

theorem flatMap_subdirs (dirEntries : List (Found ν)) :
    (subdirs dirEntries n).flatMap (fun q => entriesWithin lossy tree q.2 q.1) =
      dirEntries.flatMap fun found =>
        nodes (entriesBelow lossy tree) n (entriesBelow lossy tree found) := by
  rw [subdirs, flatMap_map, flatMap_filter]
  refine congrArg (dirEntries.flatMap ·) (funext fun found => ?_)
  rw [entriesBelow]
  by_cases hkind : found.entry.kind = .directory
  · cases n with
    | zero => simp only [nodes, ite_self]
    | succ n => rw [if_pos hkind, if_pos (by simp [hkind])]
  · rw [if_neg hkind, nodes_nil, if_neg (by simp [hkind])]

theorem readNext_cons {current : List ν} {read : List (ν × DirEntryKind)}
    (hread : tree.read current = .ok read) (n : Nat) (queue : List (List ν × Nat))
    (entries : List (Found ν)) :
    readNext lossy sort tree { queue := (current, n + 1) :: queue, entries } =
      .ok (.yield
        { queue := queue ++ subdirs (sort (foundIn lossy tree current)) n
          entries := entries ++ sort (foundIn lossy tree current) }) := by
  have hfound : foundIn lossy tree current = read.map (inspectEntry lossy current) := by
    rw [foundIn, hread]
  rw [hfound]
  unfold readNext
  dsimp only
  rw [hread]
  rfl

/-- The entries so far and those to be found are all, and what is to be read can be. -/
structure Collects (lossy : ν → Str) (tree : DirTree ν) (all : List (Found ν))
    (s : Collector ν) : Prop where
  perm : (s.entries ++ s.queue.flatMap fun q => entriesWithin lossy tree q.2 q.1).Perm all
  readable : ∀ q ∈ s.queue, q.2 ≠ 0 ∧ Readable lossy tree q.2 q.1

/-- The directories in the queue and the entries to be found. -/
def remaining (lossy : ν → Str) (tree : DirTree ν) (s : Collector ν) : Nat :=
  s.queue.length + (s.queue.flatMap fun q => entriesWithin lossy tree q.2 q.1).length

theorem iterates_readNext {all : List (Found ν)} {s : Collector ν} (hsort : Sorts sort)
    (h : Collects lossy tree all s) (hagain : (!s.queue.isEmpty) = true) :
    Loop.Iterates (readNext lossy sort tree) (Collects lossy tree all)
      (fun s => s.entries.Perm all) (fun _ => False) (remaining lossy tree) s := by
  obtain ⟨queue, entries⟩ := s
  cases queue with
  | nil => cases hagain
  | cons q queue =>
    obtain ⟨current, remainingDepth⟩ := q
    obtain ⟨hpos, hreadable⟩ := h.readable _ mem_cons_self
    obtain ⟨n, rfl⟩ := Nat.exists_eq_add_one_of_ne_zero hpos
    obtain ⟨⟨read, hread⟩, hbelow⟩ := hreadable
    have hsorted := (hsort (foundIn lossy tree current)).1
    -- What was to be found in the directory is its entries, and what is below them.
    have hnodes : (entriesWithin lossy tree (n + 1) current).Perm
        (sort (foundIn lossy tree current) ++
          (subdirs (sort (foundIn lossy tree current)) n).flatMap
            fun q => entriesWithin lossy tree q.2 q.1) := by
      rw [flatMap_subdirs]
      exact (nodes_succ_perm _ n _).trans (hsorted.symm.append (hsorted.symm.flatMap_right _))
    refine .inr (.inr ⟨_, readNext_cons hread n queue entries, ⟨?_, ?_⟩, ?_⟩)
    · have hall := h.perm
      rw [flatMap_cons] at hall
      refine List.Perm.trans ?_ hall
      dsimp only
      rw [flatMap_append, append_assoc]
      refine List.Perm.append_left entries ?_
      refine ((perm_append_comm.append_left _).trans ?_).trans (hnodes.symm.append_right _)
      rw [append_assoc]
    · intro q hq
      rcases mem_append.1 hq with hq | hq
      · exact h.readable q (mem_cons_of_mem _ hq)
      · obtain ⟨found, hfound, rfl⟩ := mem_map.1 hq
        obtain ⟨hmem, hpushed⟩ := mem_filter.1 hfound
        rw [Bool.and_eq_true, decide_eq_true_eq, decide_eq_true_eq] at hpushed
        exact ⟨by dsimp only; omega, hbelow found (hsorted.mem_iff.1 hmem) hpushed.1⟩
    · have hlength := hnodes.length_eq
      have hsubdirs := length_subdirs_le (sort (foundIn lossy tree current)) n
      unfold remaining
      dsimp only
      rw [flatMap_append, flatMap_cons]
      simp only [length_append, length_cons] at hlength ⊢
      omega

theorem exists_collectEntries (hsort : Sorts sort) (hdepth : depth ≠ 0)
    (hreadable : Readable lossy tree depth [])
    (hfuel : (entriesWithin lossy tree depth []).length < fuel) :
    ∃ entries, collectEntries lossy sort tree fuel depth = .ok entries ∧
      entries.Perm (entriesWithin lossy tree depth []) := by
  have hstart : Collects lossy tree (entriesWithin lossy tree depth [])
      { queue := [([], depth)], entries := [] } := by
    refine ⟨?_, fun q hq => ?_⟩
    · simp
    · rw [mem_singleton.1 hq]
      exact ⟨hdepth, hreadable⟩
  have hexit : ∀ s : Collector ν, Collects lossy tree (entriesWithin lossy tree depth []) s →
      (!s.queue.isEmpty) = false → s.entries.Perm (entriesWithin lossy tree depth []) := by
    intro s hs hempty
    have hnil : s.queue = [] := by simpa using hempty
    have hperm := hs.perm
    rwa [hnil, flatMap_nil, append_nil] at hperm
  have hroom : ∀ s : Collector ν, (!s.queue.isEmpty) = true → 0 < remaining lossy tree s := by
    intro s hagain
    have hne : s.queue ≠ [] := by simpa using hagain
    have hpos := length_pos_iff.2 hne
    unfold remaining
    omega
  unfold collectEntries
  rcases Loop.iterate_spec (remaining lossy tree) hroom hexit
      (fun s hs hagain => iterates_readNext hsort hs hagain) fuel hstart with
    ⟨-, hless⟩ | ⟨e, -, hfalse⟩ | ⟨s, hok, hall⟩
  · have hone : remaining lossy tree { queue := [([], depth)], entries := [] } =
        1 + (entriesWithin lossy tree depth []).length := by simp [remaining]
    omega
  · exact hfalse.elim
  · rw [hok]
    exact ⟨s.entries, rfl, hall⟩

/-! ## Pages -/

/-- What the requests return from an offset on, each at the end of the page before: a page that is
not the last one is followed by a notice, and after the last one there is nothing. -/
def Served (request : Nat → Computes (List Str)) : Nat → List (List Str) → Prop
  | offset, [] =>
    request offset = .ok [] ∨ request offset = respond "offset exceeds directory entry count"
  | offset, page :: pages =>
    page ≠ [] ∧
      request offset = .ok (if pages.isEmpty then page else page ++ [moreFound page.length]) ∧
      Served request (offset + page.length) pages

def shownLines (entries : List (Found ν)) : List Str :=
  entries.map fun found => formatEntryLine found.entry

section Pages

variable {entries : List (Found ν)} (hsort : Sorts sort)
  (hentries : collectEntries lossy sort tree fuel depth = .ok entries)
include hsort hentries

theorem listDirSlice_of_le {start : Nat} (hstart : entries.length ≤ start) :
    listDirSlice lossy sort tree fuel (start + 1) limit depth = .ok [] ∨
      listDirSlice lossy sort tree fuel (start + 1) limit depth =
        respond "offset exceeds directory entry count" := by
  have hlength := (hsort entries).1.length_eq
  rw [listDirSlice, hentries, Machine.ok_bind]
  split
  next => exact .inl rfl
  next =>
    dsimp only
    rw [if_pos (by omega)]
    exact .inr rfl

theorem listDirSlice_of_lt {start n : Nat} (hstart : start < entries.length)
    (hn : n = min limit (entries.length - start)) :
    listDirSlice lossy sort tree fuel (start + 1) limit depth =
      .ok (if start + n < entries.length then
          shownLines (((sort entries).drop start).take n) ++ [moreFound n]
        else shownLines (((sort entries).drop start).take n)) := by
  have hlength := (hsort entries).1.length_eq
  have hsome : entries.isEmpty = false := by
    cases entries with
    | nil => exact absurd hstart (Nat.not_lt_zero start)
    | cons => rfl
  rw [listDirSlice, hentries, Machine.ok_bind, hsome, if_neg Bool.false_ne_true]
  dsimp only
  rw [hlength, Nat.add_sub_cancel, if_neg (by omega), ← hn, drop_take,
    Nat.add_sub_cancel_left]
  rfl

theorem exists_pages_from (hlimit : limit ≠ 0) (left : Nat) {start : Nat}
    (hleft : entries.length - start ≤ left) :
    ∃ pages : List (List Str), pages.flatten = shownLines ((sort entries).drop start) ∧
      Served (fun offset => listDirSlice lossy sort tree fuel offset limit depth) (start + 1)
        pages := by
  have hlength := (hsort entries).1.length_eq
  induction left generalizing start with
  | zero =>
    refine ⟨[], ?_, listDirSlice_of_le hsort hentries (by omega)⟩
    rw [drop_eq_nil_of_le (by omega)]
    rfl
  | succ left ih =>
    by_cases hstart : entries.length ≤ start
    · refine ⟨[], ?_, listDirSlice_of_le hsort hentries hstart⟩
      rw [drop_eq_nil_of_le (by omega)]
      rfl
    · obtain ⟨n, hn⟩ : ∃ n, n = min limit (entries.length - start) := ⟨_, rfl⟩
      have hrest : entries.length - (start + n) ≤ left := by omega
      obtain ⟨pages, hflatten, hserved⟩ := ih hrest
      obtain ⟨page, hpage⟩ : ∃ page, page = shownLines (((sort entries).drop start).take n) :=
        ⟨_, rfl⟩
      have hpageLength : page.length = n := by
        rw [hpage, shownLines, length_map, length_take, length_drop]
        omega
      -- There is a next page just if something is left.
      have hlast : pages.isEmpty = true ↔ ¬start + n < entries.length := by
        have hshown := congrArg List.length hflatten
        rw [shownLines, length_map, length_drop] at hshown
        cases pages with
        | nil =>
          rw [flatten_nil, length_nil] at hshown
          exact iff_of_true rfl (by omega)
        | cons page pages =>
          have hpos := length_pos_iff.2 hserved.1
          rw [flatten_cons, length_append] at hshown
          exact iff_of_false Bool.false_ne_true (by omega)
      refine ⟨page :: pages, ?_, ?_, ?_, ?_⟩
      · rw [flatten_cons, hflatten, hpage, shownLines, shownLines, ← map_append,
          ← drop_drop, take_append_drop]
        rfl
      · rw [← length_pos_iff, hpageLength]
        omega
      · dsimp only
        rw [listDirSlice_of_lt hsort hentries (Nat.not_le.1 hstart) hn, ← hpage, hpageLength]
        by_cases hmore : start + n < entries.length
        · rw [if_pos hmore, if_neg fun hempty => hlast.1 hempty hmore]
        · rw [if_neg hmore, if_pos (hlast.2 hmore)]
      · rw [hpageLength, Nat.add_right_comm]
        exact hserved

/-- The pages, each at the end of the one before, are the listing. -/
theorem exists_pages (hlimit : limit ≠ 0) : ∃ pages : List (List Str),
    pages.flatten = shownLines (sort entries) ∧
      Served (fun offset => listDirSlice lossy sort tree fuel offset limit depth) 1 pages := by
  have hfrom := exists_pages_from hsort hentries hlimit entries.length (Nat.sub_le _ 0)
  rwa [drop_zero] at hfrom

end Pages

/-! ## The listing -/

section Listing

variable [DecidableEq ν]

/-- The entries are a walk of the tree cut at the depth, with the names in a directory in order,
and each entry in a directory below is indented under the directory. -/
structure ShowsTree (lossy : ν → Str) (tree : DirTree ν) (depth : Nat)
    (entries : List (Found ν)) : Prop where
  walk : IsWalk (entriesBelow lossy tree) (fun found => lossy found.fileName) depth
    (foundIn lossy tree []) entries
  shownUnder : ∀ found below,
    IsChild (entriesBelow lossy tree) depth (foundIn lossy tree []) found below →
      ShownUnder (fun found => found.entry.depth) entries found below

/-- The tree is listed, and the listing served in pages of any size. -/
def ListsTree (lossy : ν → Str) (sort : List (Found ν) → List (Found ν)) (tree : DirTree ν)
    (fuel depth : Nat) : Prop :=
  ∃ entries, collectEntries lossy sort tree fuel depth = .ok entries ∧
    ShowsTree lossy tree depth (sort entries) ∧
    ∀ limit, limit ≠ 0 → ∃ pages : List (List Str),
      pages.flatten = shownLines (sort entries) ∧
        Served (fun offset => listDirSlice lossy sort tree fuel offset limit depth) 1 pages

omit [DecidableEq ν] in
theorem exists_foundIn_of_mem (h : found ∈ entriesWithin lossy tree n path) :
    ∃ current, found ∈ foundIn lossy tree current := by
  induction n generalizing path with
  | zero => cases h
  | succ n ih =>
    obtain ⟨first, hfirst, rfl | hbelow⟩ := mem_nodes_succ.1 h
    · exact ⟨path, hfirst⟩
    · rw [entriesBelow] at hbelow
      split at hbelow
      · exact ih hbelow
      · rw [nodes_nil] at hbelow
        cases hbelow

omit [DecidableEq ν] in
theorem length_relativePath (h : found ∈ entriesWithin lossy tree n path) :
    found.relativePath.length = found.entry.depth + 1 := by
  obtain ⟨current, hmem⟩ := exists_foundIn_of_mem h
  obtain ⟨hpath, hdepth, -⟩ := of_mem_foundIn hmem
  rw [hpath, hdepth, length_append, length_singleton]

theorem showsTree_of_isWalk {entries : List (Found ν)}
    (h : IsWalk (entriesBelow lossy tree) (fun found => lossy found.fileName) depth
      (foundIn lossy tree []) entries) : ShowsTree lossy tree depth entries := by
  have hnodup : entries.Nodup := h.perm.nodup_iff.2 (nodup_entriesWithin lossy tree depth [])
  have hlevel : ∀ found : Found ν, ∀ below ∈ entriesBelow lossy tree found,
      below.relativePath.length = found.relativePath.length + 1 := by
    intro found below hbelow
    rw [entriesBelow] at hbelow
    split at hbelow
    · obtain ⟨hpath, -⟩ := of_mem_foundIn hbelow
      rw [hpath, length_append, length_singleton]
    · cases hbelow
  refine ⟨h, fun found below hchild => ?_⟩
  obtain ⟨hbefore, hless, hlast⟩ := shownUnder_of_isWalk hlevel hnodup h hchild
  have hfound := length_relativePath hchild.mem.1
  have hbelow := length_relativePath hchild.mem.2
  refine ⟨hbefore, by omega, fun y hy hfirst hsecond => ?_⟩
  have hyLength := length_relativePath (h.perm.mem_iff.1 hy)
  have hyLevel := hlast y hy hfirst hsecond
  omega

/-- A sort that puts the entries of one list in a given order. -/
def sortAs (all out : List (Found ν)) (l : List (Found ν)) : List (Found ν) :=
  if l.Perm all then out
  else l.mergeSort fun found found' => decide (found.entry.name ≤ found'.entry.name)

theorem sorts_sortAs {all out : List (Found ν)} (hperm : out.Perm all)
    (hsorted : out.Pairwise fun found found' => found.entry.name ≤ found'.entry.name) :
    Sorts (sortAs all out) := by
  intro l
  unfold sortAs
  split
  next hl => exact ⟨hperm.trans hl.symm, hsorted⟩
  next => exact ⟨mergeSort_perm l _, Ranking.pairwise_ascending _ l⟩

/-- However the sort breaks ties, the tree is listed, just if the paths nest as the entries do. -/
theorem listsTree_iff (hdepth : depth ≠ 0) (hreadable : Readable lossy tree depth [])
    (hfuel : (entriesWithin lossy tree depth []).length < fuel) :
    (∀ sort, Sorts sort → ListsTree lossy sort tree fuel depth) ↔
      Nests (entriesBelow lossy tree) (fun found => lossy found.fileName)
        (fun found found' => found.entry.name < found'.entry.name) depth
        (foundIn lossy tree []) := by
  rw [← sorted_isWalk_iff (nodup_entriesWithin lossy tree depth [])]
  constructor
  · intro h out hperm hsorted
    have hsort := sorts_sortAs hperm hsorted
    obtain ⟨entries, hentries, hshows, -⟩ := h _ hsort
    obtain ⟨entries', hentries', hall⟩ := exists_collectEntries hsort hdepth hreadable hfuel
    rw [hentries] at hentries'
    cases hentries'
    have hwalk := hshows.walk
    rwa [sortAs, if_pos hall] at hwalk
  · intro h sort hsort
    obtain ⟨entries, hentries, hall⟩ := exists_collectEntries hsort hdepth hreadable hfuel
    obtain ⟨hperm, hsorted⟩ := hsort entries
    exact ⟨entries, hentries, showsTree_of_isWalk (h _ (hperm.trans hall) hsorted),
      fun limit hlimit => exists_pages hsort hentries hlimit⟩

/-- The directory `a` with `x` in it, and a file beside it. -/
def besideDirectory (name : Str) : DirTree Str where
  read path :=
    if path = [] then
      if name = "a" then .ok [("a", .directory)] else .ok [("a", .directory), (name, .file)]
    else .ok [("x", .file)]
  nodup path entries h := by
    split at h
    · split at h
      next => cases h; simp
      next hne =>
        cases h
        simpa using fun h => hne h.symm
    · cases h
      simp

def sortByName (l : List (Found Str)) : List (Found Str) :=
  l.insertionSort fun found found' => found.entry.name ≤ found'.entry.name

theorem sorts_sortByName : Sorts sortByName := by
  intro l
  have htotal : Std.Total fun found found' : Found Str => found.entry.name ≤ found'.entry.name :=
    ⟨fun found found' => le_total _ _⟩
  have htrans : IsTrans (Found Str) fun found found' => found.entry.name ≤ found'.entry.name :=
    ⟨fun found found' found'' => le_trans⟩
  exact ⟨perm_insertionSort _ l, pairwise_insertionSort _ l⟩

omit [DecidableEq ν] in
theorem readable_of_total (h : ∀ path, ∃ entries, tree.read path = .ok entries) (n : Nat)
    (path : List ν) : Readable lossy tree n path := by
  induction n generalizing path with
  | zero => trivial
  | succ n ih => exact ⟨h path, fun found _ _ => ih found.relativePath⟩

theorem listsTree_besideDirectory : ListsTree id sortByName (besideDirectory "b") 4 2 := by
  refine (listsTree_iff (by decide) (readable_of_total (fun path => ?_) 2 []) (by decide)).2
    (by decide +kernel) sortByName sorts_sortByName
  by_cases hroot : path = []
  · exact ⟨[("a", .directory), ("b", .file)], by subst hroot; rfl⟩
  · exact ⟨[("x", .file)], if_neg hroot⟩

/-- The file `a.txt` is shown between the directory `a` and what is in it. -/
theorem not_listsTree_dot :
    ¬∀ sort, Sorts sort → ListsTree id sort (besideDirectory "a.txt") 4 2 := by
  intro h
  obtain ⟨entries, hentries, hshows, -⟩ := h sortByName sorts_sortByName
  have hcollected : collectEntries id sortByName (besideDirectory "a.txt") 4 2 =
      .ok [inspectEntry id [] ("a", .directory), inspectEntry id [] ("a.txt", .file),
        inspectEntry id ["a"] ("x", .file)] := by decide +kernel
  rw [hcollected] at hentries
  cases hentries
  have hshown := hshows.shownUnder (inspectEntry id [] ("a", .directory))
    (inspectEntry id ["a"] ("x", .file)) (.inl (by decide +kernel))
  exact absurd (hshown.last (inspectEntry id [] ("a.txt", .file)) (by decide +kernel)
    (by decide +kernel) (by decide +kernel)) (by decide)

end Listing

/-! ## Plain names -/

/-- Of two names, the one that goes on after the other comes after what is in the directory of the
other if it does so with a character above the separator. -/
theorem lt_or_lt_iff {d e r : Str} (hne : e ≠ d) (hslash : '/' ∉ e) :
    (e < d ∨ d ++ '/' :: r < e) ↔ ∀ c t, e = d ++ c :: t → '/' < c := by
  induction d generalizing e with
  | nil =>
    cases e with
    | nil => exact absurd rfl hne
    | cons c t =>
      have hc : '/' ≠ c := fun h => hslash (h ▸ mem_cons_self)
      rw [nil_append, cons_lt_cons_iff, or_iff_right (not_lt_nil _)]
      constructor
      · rintro (hlt | ⟨heq, -⟩) c' t' heq'
        · cases heq'
          exact hlt
        · exact absurd heq hc
      · exact fun h => .inl (h c t rfl)
  | cons b d ih =>
    cases e with
    | nil => exact iff_of_true (.inl (nil_lt_cons b d)) fun c t h => by cases h
    | cons c e =>
      rw [cons_append, cons_lt_cons_iff, cons_lt_cons_iff]
      rcases lt_trichotomy c b with hlt | rfl | hgt
      · exact iff_of_true (.inl (.inl hlt)) fun c' t h => by
          cases h
          exact absurd hlt (lt_irrefl _)
      · have htail := ih (fun heq => hne (congrArg (c :: ·) heq))
          fun hmem => hslash (mem_cons_of_mem c hmem)
        simp only [lt_irrefl, false_or, true_and, cons_append, List.cons.injEq]
        exact htail
      · exact iff_of_true (.inr (.inl hgt)) fun c' t h => by
          cases h
          exact absurd hgt (lt_irrefl _)

theorem append_lt_append_iff {p s t : Str} : p ++ s < p ++ t ↔ s < t := by
  induction p with
  | nil => rfl
  | cons c p ih =>
    rw [cons_append, cons_append, cons_lt_cons_iff, ih]
    simp

/-- What comes before a name in the path of an entry. -/
def pathBefore (lossy : ν → Str) (path : List ν) : Str := (path.map lossy).flatMap (· ++ "/")

theorem pathBefore_concat (lossy : ν → Str) (path : List ν) (name : ν) :
    pathBefore lossy (path ++ [name]) = pathBefore lossy path ++ (lossy name ++ "/") := by
  rw [pathBefore, map_append, flatMap_append]
  exact congrArg (pathBefore lossy path ++ ·) (append_nil _)

/-- No name has a separator of either kind, no path is truncated, and the names in a directory
are told apart. -/
def PlainNames (lossy : ν → Str) (tree : DirTree ν) : Nat → List ν → Prop
  | 0, _ => True
  | n + 1, path =>
    (∀ found ∈ foundIn lossy tree path, '/' ∉ lossy found.fileName ∧
      '\\' ∉ lossy found.fileName ∧
      Str.utf8Size (pathBefore lossy path ++ lossy found.fileName) ≤ maxEntryLength ∧
      ∀ other ∈ foundIn lossy tree path, found ≠ other →
        lossy found.fileName ≠ lossy other.fileName) ∧
    ∀ found ∈ foundIn lossy tree path, found.entry.kind = .directory →
      PlainNames lossy tree n found.relativePath

/-- No entry beside a directory, in which something is listed, is named like it with a character
below the separator after that. -/
def NoneBeforeContents (lossy : ν → Str) (tree : DirTree ν) : Nat → List ν → Prop
  | 0, _ => True
  | n + 1, path =>
    (∀ found ∈ foundIn lossy tree path,
      nodes (entriesBelow lossy tree) n (entriesBelow lossy tree found) ≠ [] →
      ∀ other ∈ foundIn lossy tree path, ∀ c t,
        lossy other.fileName = lossy found.fileName ++ c :: t → '/' < c) ∧
    ∀ found ∈ foundIn lossy tree path, found.entry.kind = .directory →
      NoneBeforeContents lossy tree n found.relativePath

theorem name_of_plain (hfound : found ∈ foundIn lossy tree path)
    (hbefore : '\\' ∉ pathBefore lossy path) (hname : '\\' ∉ lossy found.fileName)
    (hsize : Str.utf8Size (pathBefore lossy path ++ lossy found.fileName) ≤ maxEntryLength) :
    found.entry.name = pathBefore lossy path ++ lossy found.fileName := by
  obtain ⟨hpath, -, hentry⟩ := of_mem_foundIn hfound
  have hjoin : Str.join "/" (found.relativePath.map lossy) =
      pathBefore lossy path ++ lossy found.fileName := by
    rw [hpath, map_append]
    exact Str.join_concat_sep _ _ _
  have hsame : (pathBefore lossy path ++ lossy found.fileName).map
      (fun c => if c = '\\' then '/' else c) = pathBefore lossy path ++ lossy found.fileName := by
    rw [map_congr_left (g := id), map_id]
    intro c hc
    refine if_neg ?_
    rintro rfl
    exact (mem_append.1 hc).elim hbefore hname
  rw [hentry, formatEntryName, hjoin, hsame, truncateEntry, if_neg (Nat.not_lt.2 hsize)]

theorem notMem_pathBefore_concat {name : ν} (hbefore : '\\' ∉ pathBefore lossy path)
    (hname : '\\' ∉ lossy name) : '\\' ∉ pathBefore lossy (path ++ [name]) := by
  rw [pathBefore_concat, mem_append, mem_append]
  rintro (h | h | h)
  · exact hbefore h
  · exact hname h
  · exact absurd h (by decide)

/-- The path of an entry begins with that of the directory. -/
theorem exists_name_of_plain (h : PlainNames lossy tree n path)
    (hbefore : '\\' ∉ pathBefore lossy path) (hfound : found ∈ entriesWithin lossy tree n path) :
    ∃ r, found.entry.name = pathBefore lossy path ++ r := by
  induction n generalizing path with
  | zero => cases hfound
  | succ n ih =>
    obtain ⟨first, hfirst, rfl | hbelow⟩ := mem_nodes_succ.1 hfound
    · obtain ⟨-, hname, hsize, -⟩ := h.1 found hfirst
      exact ⟨_, name_of_plain hfirst hbefore hname hsize⟩
    · obtain ⟨-, hname, -⟩ := h.1 first hfirst
      obtain ⟨hpath, -⟩ := of_mem_foundIn hfirst
      rw [entriesBelow] at hbelow
      split at hbelow
      next hkind =>
        have hbefore' := notMem_pathBefore_concat hbefore hname
        rw [← hpath] at hbefore'
        obtain ⟨r, hr⟩ := ih (h.2 first hfirst hkind) hbefore' hbelow
        rw [hpath, pathBefore_concat, append_assoc] at hr
        exact ⟨_, hr⟩
      next =>
        rw [nodes_nil] at hbelow
        cases hbelow

/-- For plain names, the paths nest just if no name comes between a directory and its contents. -/
theorem nests_iff_of_plain (h : PlainNames lossy tree n path)
    (hbefore : '\\' ∉ pathBefore lossy path) :
    Nests (entriesBelow lossy tree) (fun found => lossy found.fileName)
        (fun found found' => found.entry.name < found'.entry.name) n (foundIn lossy tree path) ↔
      NoneBeforeContents lossy tree n path := by
  induction n generalizing path with
  | zero => exact Iff.rfl
  | succ n ih =>
    obtain ⟨hhere, hdeeper⟩ := h
    have hname : ∀ found ∈ foundIn lossy tree path,
        found.entry.name = pathBefore lossy path ++ lossy found.fileName := by
      intro found hfound
      obtain ⟨-, hname, hsize, -⟩ := hhere found hfound
      exact name_of_plain hfound hbefore hname hsize
    have hbefore' : ∀ found ∈ foundIn lossy tree path,
        '\\' ∉ pathBefore lossy found.relativePath := by
      intro found hfound
      rw [(of_mem_foundIn hfound).1]
      exact notMem_pathBefore_concat hbefore (hhere found hfound).2.1
    -- The path of what is below an entry goes on after its name with the separator.
    have hbelow : ∀ found ∈ foundIn lossy tree path,
        ∀ x ∈ nodes (entriesBelow lossy tree) n (entriesBelow lossy tree found),
        ∃ r, x.entry.name = pathBefore lossy path ++ (lossy found.fileName ++ '/' :: r) := by
      intro found hfound x hx
      rw [entriesBelow] at hx
      split at hx
      next hkind =>
        obtain ⟨r, hr⟩ :=
          exists_name_of_plain (hdeeper found hfound hkind) (hbefore' found hfound) hx
        refine ⟨r, ?_⟩
        rw [hr, (of_mem_foundIn hfound).1, pathBefore_concat, append_assoc, append_assoc]
        rfl
      next =>
        rw [nodes_nil] at hx
        cases hx
    have hapart : ∀ found ∈ foundIn lossy tree path, ∀ other ∈ foundIn lossy tree path,
        found ≠ other → ∀ x ∈ nodes (entriesBelow lossy tree) n (entriesBelow lossy tree found),
        (other.entry.name < found.entry.name ∨ x.entry.name < other.entry.name ↔
          ∀ c t, lossy other.fileName = lossy found.fileName ++ c :: t → '/' < c) := by
      intro found hfound other hother hne x hx
      obtain ⟨r, hr⟩ := hbelow found hfound x hx
      obtain ⟨-, -, -, hdistinct⟩ := hhere found hfound
      rw [hr, hname found hfound, hname other hother, append_lt_append_iff, append_lt_append_iff]
      exact lt_or_lt_iff (Ne.symm (hdistinct other hother hne)) (hhere other hother).1
    constructor
    · rintro ⟨-, hbeside, hkids⟩
      refine ⟨fun found hfound hlisted other hother c t heq => ?_, fun found hfound hkind => ?_⟩
      · obtain ⟨x, hx⟩ := exists_mem_of_ne_nil _ hlisted
        have hne : found ≠ other := by
          rintro rfl
          have hlength := congrArg List.length heq
          rw [length_append, length_cons] at hlength
          omega
        exact (hapart found hfound other hother hne x hx).1
          ((hbeside found hfound other hother hne).2 x hx) c t heq
      · have hnests := hkids found hfound
        rw [entriesBelow, if_pos hkind] at hnests
        exact (ih (hdeeper found hfound hkind) (hbefore' found hfound)).1 hnests
    · rintro ⟨hnone, hkids⟩
      refine ⟨fun found hfound x hx => ?_, fun found hfound other hother hne =>
        ⟨fun hlt => ?_, fun x hx => ?_⟩, fun found hfound => ?_⟩
      · obtain ⟨r, hr⟩ := hbelow found hfound x hx
        have hlonger := (append_lt_append_iff (p := lossy found.fileName)).2
          (nil_lt_cons '/' r)
        rw [append_nil] at hlonger
        rw [hname found hfound, hr, append_lt_append_iff]
        exact hlonger
      · dsimp only
        rw [hname found hfound, hname other hother, append_lt_append_iff]
        exact hlt
      · exact (hapart found hfound other hother hne x hx).2
          (hnone found hfound (ne_nil_of_mem hx) other hother)
      · rw [entriesBelow]
        split
        next hkind =>
          exact (ih (hdeeper found hfound hkind) (hbefore' found hfound)).2
            (hkids found hfound hkind)
        next => exact nests_nil ..

end SheriMl.Tools
