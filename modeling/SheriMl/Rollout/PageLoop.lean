import SheriMl.Lib.Pages
import SheriMl.Rollout.ThreadList

/-!
# The loop that fills a page

All four traversals of a listing run one loop over files in the order of a sort key. Over files in
strictly descending order it takes the first below the anchor that can be built, and the cursor it
gives is the key of the last (`serves_page`).
-/

namespace SheriMl.ThreadList

open Loop Paging

universe u

section

variable {size : Nat} {key c : Cursor} {cursor : Option Cursor} {item : Option ThreadItem}
  {s s' : PageState} {a : AnchorState} {all : List ThreadItem}

/-! ## One file -/

namespace AnchorState

def bound (a : AnchorState) : Cursor := ⟨a.ts, a.id⟩

def pass (a : AnchorState) : AnchorState := { a with passed := true }

theorem shouldSkip_of_below (h : a.passed = true ∨ key < a.bound) :
    a.shouldSkip key.ts key.id = (false, a.pass) := by
  rw [shouldSkip]
  split
  · next hpassed => rw [pass, ← hpassed]
  · next hpassed =>
    have hlt := h.resolve_left hpassed
    exact if_pos (Cursor.lt_iff.1 hlt)

theorem shouldSkip_of_not_below (hpassed : a.passed = false) (h : ¬key < a.bound) :
    a.shouldSkip key.ts key.id = (true, a) := by
  rw [Cursor.lt_iff] at h
  rw [shouldSkip, if_neg (by simp [hpassed])]
  exact if_neg h

end AnchorState

namespace PageState

theorem visit_of_skip (hpassed : s.anchor.passed = false) (h : ¬key < s.anchor.bound) :
    s.visit size key item = .yield s := by
  rw [visit, AnchorState.shouldSkip_of_not_below hpassed h]
  rfl

theorem visit_of_full (h : s.anchor.passed = true ∨ key < s.anchor.bound)
    (hfull : s.items.length = size) :
    s.visit size key item =
      .done { s with anchor := s.anchor.pass, moreMatchesAvailable := true } := by
  rw [visit, AnchorState.shouldSkip_of_below h]
  exact if_pos hfull

theorem visit_of_room (h : s.anchor.passed = true ∨ key < s.anchor.bound)
    (hroom : s.items.length ≠ size) :
    s.visit size key item =
      .yield { s with anchor := s.anchor.pass, items := s.items ++ item.toList } := by
  rw [visit, AnchorState.shouldSkip_of_below h]
  exact if_neg hroom

/-- A file adds at most its item. -/
theorem items_visit (size : Nat) (key : Cursor) (item : Option ThreadItem) (s : PageState) :
    (state (s.visit size key item)).items = s.items ∨
      (state (s.visit size key item)).items = s.items ++ item.toList := by
  by_cases hbelow : s.anchor.passed = true ∨ key < s.anchor.bound
  · by_cases hfull : s.items.length = size
    · rw [visit_of_full hbelow hfull]
      exact .inl rfl
    · rw [visit_of_room hbelow hfull]
      exact .inr rfl
  · obtain ⟨hpassed, hnot⟩ := not_or.1 hbelow
    rw [visit_of_skip (Bool.eq_false_iff.2 hpassed) hnot]
    exact .inl rfl

/-- A state on the way: no more items than fit, and none before the anchor is passed. -/
structure Partial (size : Nat) (s : PageState) : Prop where
  length_le : s.items.length ≤ size
  passed : s.items ≠ [] → s.anchor.passed = true
  not_more : s.moreMatchesAvailable = false

theorem partial_new (size : Nat) (cursor : Option Cursor) : Partial size (.new cursor) :=
  ⟨Nat.zero_le size, fun h => absurd rfl h, rfl⟩

theorem Partial.visit (h : Partial size s) (hvisit : s.visit size key item = .yield s') :
    Partial size s' := by
  by_cases hbelow : s.anchor.passed = true ∨ key < s.anchor.bound
  · by_cases hfull : s.items.length = size
    · rw [visit_of_full hbelow hfull] at hvisit
      cases hvisit
    · rw [visit_of_room hbelow hfull] at hvisit
      cases hvisit
      have hlength := h.length_le
      have hitem : item.toList.length ≤ 1 := by cases item <;> simp
      refine ⟨?_, fun _ => rfl, h.not_more⟩
      rw [List.length_append]
      omega
  · obtain ⟨hpassed, hnot⟩ := not_or.1 hbelow
    rw [visit_of_skip (Bool.eq_false_iff.2 hpassed) hnot] at hvisit
    cases hvisit
    exact h

/-- A page filled from some items in order. -/
structure Filled (size : Nat) (all : List ThreadItem) (s : PageState) : Prop where
  items_eq : s.items = all.take size
  length_of_more : s.moreMatchesAvailable = true → s.items.length = size
  length_le_of_not_more : s.moreMatchesAvailable = false → all.length ≤ size

end PageState

/-! ## The loop -/

variable {γ : Type u} {keyOf : γ → Cursor} {build : γ → Option ThreadItem} {files : List γ}

/-- The loop over files with keys, each of which may be built. -/
def fill (size : Nat) (keyOf : γ → Cursor) (build : γ → Option ThreadItem) :
    List γ → PageState → ForInStep PageState :=
  loop fun f s => s.visit size (keyOf f) (build f)

theorem fill_cons_of_yield {f : γ} (h : s.visit size (keyOf f) (build f) = .yield s') :
    fill size keyOf build (f :: files) s = fill size keyOf build files s' := loop_cons_of_yield h

theorem fill_cons_of_done {f : γ} (h : s.visit size (keyOf f) (build f) = .done s') :
    fill size keyOf build (f :: files) s = .done s' := loop_cons_of_done h

theorem mem_items_fill {item : ThreadItem}
    (h : item ∈ (state (fill size keyOf build files s)).items) :
    item ∈ s.items ∨ ∃ f ∈ files, build f = some item := by
  induction files generalizing s with
  | nil => exact .inl h
  | cons f files ih =>
    have hvisit : ∀ s', state (s.visit size (keyOf f) (build f)) = s' → item ∈ s'.items →
        item ∈ s.items ∨ ∃ f' ∈ f :: files, build f' = some item := by
      rintro s' rfl hs'
      rcases PageState.items_visit size (keyOf f) (build f) s with heq | heq
      · exact .inl (heq ▸ hs')
      · rw [heq, List.mem_append, Option.mem_toList] at hs'
        exact hs'.imp_right fun hbuild => ⟨f, List.mem_cons_self, hbuild⟩
    cases hcase : s.visit size (keyOf f) (build f) with
    | yield s' =>
      rw [fill_cons_of_yield hcase] at h
      rcases ih h with hitem | ⟨f', hf', hbuild⟩
      · exact hvisit s' (by rw [hcase, state_yield]) hitem
      · exact .inr ⟨f', List.mem_cons_of_mem _ hf', hbuild⟩
    | done s' =>
      rw [fill_cons_of_done hcase] at h
      exact hvisit s' (by rw [hcase, state_done]) h

def entries (keyOf : γ → Cursor) (build : γ → Option ThreadItem) (files : List γ) :
    List (Cursor × ThreadItem) :=
  files.filterMap fun f => (build f).map fun item => (keyOf f, item)

theorem entries_cons (f : γ) (files : List γ) :
    entries keyOf build (f :: files) =
      ((build f).map fun item => (keyOf f, item)).toList ++ entries keyOf build files := by
  rw [entries, List.filterMap_cons]
  cases build f <;> rfl

theorem map_snd_entries (files : List γ) :
    (entries keyOf build files).map Prod.snd = files.filterMap build := by
  rw [entries, List.map_filterMap]
  congr 1
  funext f
  cases build f <;> rfl

theorem descending_entries (h : files.Pairwise fun f f' => keyOf f' < keyOf f) :
    Descending (entries keyOf build files) := by
  refine List.Pairwise.filterMap _ ?_ h
  intro f f' hlt e he e' he'
  obtain ⟨item, _, rfl⟩ := Option.map_eq_some_iff.1 he
  obtain ⟨item', _, rfl⟩ := Option.map_eq_some_iff.1 he'
  exact hlt

theorem filled_of_passed (h : s.Partial size) (hpassed : s.anchor.passed = true) :
    PageState.Filled size (s.items ++ files.filterMap build)
      (state (fill size keyOf build files s)) := by
  induction files generalizing s with
  | nil =>
    refine ⟨?_, ?_, ?_⟩
    · rw [List.filterMap_nil, List.append_nil, List.take_of_length_le h.length_le]
      rfl
    · intro hmore
      exact absurd (h.not_more.symm.trans hmore) (by decide)
    · intro _
      rw [List.filterMap_nil, List.append_nil]
      exact h.length_le
  | cons f files ih =>
    by_cases hfull : s.items.length = size
    · rw [fill_cons_of_done (PageState.visit_of_full (.inl hpassed) hfull)]
      refine ⟨?_, fun _ => hfull, ?_⟩
      · rw [List.take_left' hfull]
        rfl
      · intro hmore
        cases hmore
    · have hvisit : s.visit size (keyOf f) (build f) = .yield
          { s with anchor := s.anchor.pass, items := s.items ++ (build f).toList } :=
        PageState.visit_of_room (.inl hpassed) hfull
      have hfilled := ih (h.visit hvisit) rfl
      rw [fill_cons_of_yield hvisit, List.filterMap_cons]
      cases hbuild : build f with
      | none => simpa [hbuild] using hfilled
      | some item => simpa [hbuild] using hfilled

theorem fill_of_below (f : γ) (files : List γ) (h : keyOf f < s.anchor.bound)
    (hpassed : s'.anchor = s.anchor.pass) (hitems : s'.items = s.items)
    (hmore : s'.moreMatchesAvailable = s.moreMatchesAvailable) :
    fill size keyOf build (f :: files) s = fill size keyOf build (f :: files) s' := by
  have hpassed' : s'.anchor.passed = true := by rw [hpassed, AnchorState.pass]
  have hpass : s'.anchor.pass = s.anchor.pass := by rw [hpassed, AnchorState.pass, AnchorState.pass]
  by_cases hfull : s.items.length = size
  · have hfull' : s'.items.length = size := by rwa [hitems]
    rw [fill_cons_of_done (PageState.visit_of_full (.inr h) hfull),
      fill_cons_of_done (PageState.visit_of_full (.inl hpassed') hfull'), hpass, hitems]
  · have hroom : s'.items.length ≠ size := by rwa [hitems]
    rw [fill_cons_of_yield (PageState.visit_of_room (.inr h) hfull),
      fill_cons_of_yield (PageState.visit_of_room (.inl hpassed') hroom), hpass, hitems, hmore]

theorem mem_entries {e : Cursor × ThreadItem} :
    e ∈ entries keyOf build files ↔ ∃ f ∈ files, build f = some e.2 ∧ keyOf f = e.1 := by
  constructor
  · intro he
    obtain ⟨f, hf, hbuild⟩ := List.mem_filterMap.1 he
    obtain ⟨item, hitem, rfl⟩ := Option.map_eq_some_iff.1 hbuild
    exact ⟨f, hf, hitem, rfl⟩
  · rintro ⟨f, hf, hitem, hkey⟩
    exact List.mem_filterMap.2 ⟨f, hf, by rw [hitem, Option.map_some, hkey]⟩

theorem after_entries_of_below (h : ∀ f ∈ files, keyOf f < c) :
    after (some c) (entries keyOf build files) = entries keyOf build files := by
  refine List.filter_eq_self.2 ?_
  intro e he
  obtain ⟨f, hf, _, hkey⟩ := mem_entries.1 he
  exact decide_eq_true (hkey ▸ h f hf)

theorem after_entries_cons_of_not_below {f : γ} (h : ¬keyOf f < c) :
    after (some c) (entries keyOf build (f :: files)) =
      after (some c) (entries keyOf build files) := by
  rw [entries_cons, after, List.filter_append, List.filter_eq_nil_iff.2, List.nil_append, after]
  intro e he
  obtain ⟨item, _, rfl⟩ := Option.map_eq_some_iff.1 (Option.mem_toList.1 he)
  simpa using h

/-- Before the anchor, files are skipped until one is below it. -/
theorem filled_of_waiting (h : s.Partial size) (hpassed : s.anchor.passed = false)
    (hdesc : files.Pairwise fun f f' => keyOf f' < keyOf f) :
    PageState.Filled size ((after (some s.anchor.bound) (entries keyOf build files)).map Prod.snd)
      (state (fill size keyOf build files s)) := by
  have hnil : s.items = [] := by
    by_contra hne
    exact absurd (hpassed.symm.trans (h.passed hne)) (by decide)
  induction files with
  | nil =>
    refine ⟨?_, ?_, fun _ => Nat.zero_le size⟩
    · rw [fill, loop_nil, state_yield, hnil]
      exact List.take_nil.symm
    · intro hmore
      exact absurd (h.not_more.symm.trans hmore) (by decide)
  | cons f files ih =>
    obtain ⟨hbelow, htail⟩ := List.pairwise_cons.1 hdesc
    by_cases hlt : keyOf f < s.anchor.bound
    · have hall : ∀ f' ∈ f :: files, keyOf f' < s.anchor.bound := by
        intro f' hf'
        rcases List.mem_cons.1 hf' with rfl | hf'
        · exact hlt
        · exact lt_trans (hbelow f' hf') hlt
      have hpartial : PageState.Partial size { s with anchor := s.anchor.pass } :=
        ⟨h.length_le, fun _ => rfl, h.not_more⟩
      have hfilled : PageState.Filled size (s.items ++ (f :: files).filterMap build)
          (state (fill size keyOf build (f :: files) { s with anchor := s.anchor.pass })) :=
        filled_of_passed hpartial rfl
      have hstep : fill size keyOf build (f :: files) s =
          fill size keyOf build (f :: files) { s with anchor := s.anchor.pass } :=
        fill_of_below f files hlt rfl rfl rfl
      have hitems : s.items ++ (f :: files).filterMap build = (f :: files).filterMap build := by
        rw [hnil, List.nil_append]
      rw [after_entries_of_below hall, map_snd_entries, hstep]
      rwa [hitems] at hfilled
    · rw [fill_cons_of_yield (PageState.visit_of_skip hpassed hlt),
        after_entries_cons_of_not_below hlt]
      exact ih htail

theorem filled_new (hdesc : files.Pairwise fun f f' => keyOf f' < keyOf f)
    (cursor : Option Cursor) :
    PageState.Filled size ((after cursor (entries keyOf build files)).map Prod.snd)
      (state (fill size keyOf build files (.new cursor))) := by
  cases cursor with
  | none =>
    rw [after_none, map_snd_entries]
    exact filled_of_passed (PageState.partial_new size none) rfl
  | some c =>
    exact filled_of_waiting (PageState.partial_new size (some c)) rfl hdesc

/-! ## The page -/

variable {fmt : Formats} {sortKey : ThreadSortKey} {items : List ThreadItem}
  {listing : List (Cursor × ThreadItem)} {e : Cursor × ThreadItem}

theorem buildNextCursor_nil : buildNextCursor fmt [] sortKey = none := rfl

theorem buildNextCursor_of_getLast {last : ThreadItem} (h : items.getLast? = some last) :
    buildNextCursor fmt items sortKey = buildNextCursor fmt [last] sortKey := by
  rw [buildNextCursor, buildNextCursor, h, List.getLast?_singleton]

def ThreadsPage.paged (page : ThreadsPage) : Page Cursor ThreadItem := ⟨page.items, page.nextCursor⟩

theorem nextCursor_of_getLast
    (hcursor : ∀ e ∈ listing, buildNextCursor fmt [e.2] sortKey = some e.1)
    (hitems : items = ((after cursor listing).take size).map Prod.snd)
    (hlast : ((after cursor listing).take size).getLast? = some e) :
    buildNextCursor fmt items sortKey = some e.1 := by
  have hmem : e ∈ after cursor listing := List.mem_of_mem_take (List.mem_of_getLast? hlast)
  have hlast' : items.getLast? = some e.2 := by
    rw [hitems, List.getLast?_map, hlast, Option.map_some]
  rw [buildNextCursor_of_getLast hlast', hcursor e (List.mem_of_mem_filter hmem)]

/-- A filled page serves the listing it is filled from. -/
theorem serves_page (hsize : 1 ≤ size)
    (hcursor : ∀ e ∈ listing, buildNextCursor fmt [e.2] sortKey = some e.1)
    (h : PageState.Filled size ((after cursor listing).map Prod.snd) s) (scannedFiles : Nat) :
    Serves size cursor listing (s.page fmt sortKey scannedFiles).paged := by
  have hitems : s.items = ((after cursor listing).take size).map Prod.snd := by
    rw [h.items_eq, List.map_take]
  refine ⟨hitems, ?_, ?_⟩
  · intro hnext
    by_contra hlong
    have hmore : s.moreMatchesAvailable = true := by
      by_contra hnot
      have hle := h.length_le_of_not_more (Bool.eq_false_iff.2 hnot)
      rw [List.length_map] at hle
      exact hlong hle
    cases hlast : ((after cursor listing).take size).getLast? with
    | none =>
      have hlength := h.length_of_more hmore
      rw [hitems, List.getLast?_eq_none_iff.1 hlast] at hlength
      exact absurd hlength (by simp; omega)
    | some e =>
      have hcursor' := nextCursor_of_getLast hcursor hitems hlast
      rw [ThreadsPage.paged, PageState.page, hmore, Bool.true_or, if_pos rfl, hcursor'] at hnext
      cases hnext
  · intro c hnext
    rw [ThreadsPage.paged, PageState.page] at hnext
    simp only at hnext
    split at hnext
    · cases hlast : ((after cursor listing).take size).getLast? with
      | none =>
        rw [hitems, List.getLast?_eq_none_iff.1 hlast, List.map_nil, buildNextCursor_nil] at hnext
        cases hnext
      | some e =>
        rw [nextCursor_of_getLast hcursor hitems hlast] at hnext
        exact ⟨e, rfl, Option.some.inj hnext⟩
    · cases hnext

end

end SheriMl.ThreadList
