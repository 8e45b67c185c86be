import SheriMl.Lib.TomlDocument

/-!
# Edits of config.toml

`ConfigDocument` of `core/src/config/edit.rs`, with the edits that `ConfigService` makes. An edit
that meets an array of tables on its way is dropped, and only tells so by its result
(`insert_spec`); the file is not written when all edits are.
-/

namespace SheriMl.Config

open TomlValue TomlItem

universe u

variable {σ : Type u}

inductive ConfigEdit (σ : Type u) where
  | setPath (segments : List Str) (value : TomlItem σ) (keyed : value.content.Keyed)
  | clearPath (segments : List Str)

inductive TraversalMode where
  | create
  | existing

namespace ConfigDocument

def ensureTableForWrite : TomlItem σ → Option (List (Str × TomlItem σ))
  | .table entries => some entries
  | .value (.table entries) => some (ofInline entries)
  | .value _ => some []
  | .arrayOfTables _ => none

def ensureTableForRead : TomlItem σ → Option (List (Str × TomlItem σ))
  | .table entries => some entries
  | .value (.table entries) => some (ofInline entries)
  | .value _ | .arrayOfTables _ => none

/-- The table that `descend` goes on with, of the item that it finds. -/
def enter (mode : TraversalMode) (found : Option (TomlItem σ)) :
    Option (List (Str × TomlItem σ)) :=
  match mode with
  | .create => ensureTableForWrite (found.getD (.table []))
  | .existing => found.bind ensureTableForRead

/-- `descend`, and `edit` on the table that it comes to. -/
def descend (mode : TraversalMode)
    (edit : List (Str × TomlItem σ) → List (Str × TomlItem σ) × Bool) :
    List Str → List (Str × TomlItem σ) → List (Str × TomlItem σ) × Bool
  | [], current => edit current
  | segment :: segments, current =>
    match enter mode (current.lookup segment) with
    | some inner =>
      let result := descend mode edit segments inner
      (insertItem segment (.table result.1) current, result.2)
    | none => (current, false)

def insert (segments : List Str) (value : TomlItem σ) (doc : List (Str × TomlItem σ)) :
    List (Str × TomlItem σ) × Bool :=
  match segments.getLast? with
  | some last =>
    descend .create (fun parent => (insertItem last value parent, true)) segments.dropLast doc
  | none => (doc, false)

def remove (segments : List Str) (doc : List (Str × TomlItem σ)) :
    List (Str × TomlItem σ) × Bool :=
  match segments.getLast? with
  | some last =>
    descend .existing (fun parent => (removeItem last parent, (parent.lookup last).isSome))
      segments.dropLast doc
  | none => (doc, false)

def apply (edit : ConfigEdit σ) (doc : List (Str × TomlItem σ)) : List (Str × TomlItem σ) × Bool :=
  match edit with
  | .setPath segments item _ => insert segments item doc
  | .clearPath segments => remove segments doc

/-- The way to the parent meets an array of tables. -/
def Refuses : List Str → List (Str × TomlItem σ) → Prop
  | [], _ => False
  | segment :: segments, current =>
    match enter .create (current.lookup segment) with
    | some inner => Refuses segments inner
    | none => True

section Contents

variable {doc : List (Str × TomlItem σ)} {segments : List Str} {last : Str}

/-- The table that is entered has the entries of the one that is there, or none. -/
theorem contents_enter {mode : TraversalMode} {found : Option (TomlItem σ)}
    {table : List (Str × TomlItem σ)} (h : enter mode found = some table) :
    (∃ item, found = some item ∧ item.content = .table (contents table)) ∨
      table = [] ∧ ∀ item inner, found = some item → item.content ≠ .table inner := by
  cases found with
  | none =>
    cases mode with
    | existing => cases h
    | create => exact .inr ⟨(Option.some.inj h).symm, fun _ _ hnone => (by cases hnone)⟩
  | some item =>
    have hempty : ∀ {value : TomlValue σ}, item = .value value → value.isTable = false →
        ∀ item' inner, some item = some item' → item'.content ≠ .table inner := by
      rintro value rfl hvalue item' inner hitem hcontent
      obtain rfl := Option.some.inj hitem
      rw [content] at hcontent
      rw [hcontent] at hvalue
      cases hvalue
    cases item with
    | table entries =>
      cases mode <;>
      · obtain rfl := Option.some.inj h
        exact .inl ⟨_, rfl, rfl⟩
    | arrayOfTables tables => cases mode <;> cases h
    | value value =>
      cases value with
      | table entries =>
        cases mode <;>
        · obtain rfl := Option.some.inj h
          exact .inl ⟨_, rfl, by rw [content, contents_ofInline]⟩
      | scalar value =>
        cases mode with
        | existing => cases h
        | create => exact .inr ⟨(Option.some.inj h).symm, hempty rfl rfl⟩
      | array items =>
        cases mode with
        | existing => cases h
        | create => exact .inr ⟨(Option.some.inj h).symm, hempty rfl rfl⟩

theorem contents_enter_lookup {mode : TraversalMode} {segment : Str}
    {table : List (Str × TomlItem σ)} (h : enter mode (doc.lookup segment) = some table) :
    contents table = entriesAt segment (contents doc) := by
  rcases contents_enter h with ⟨item, hitem, hcontent⟩ | ⟨rfl, hno⟩
  · rw [entriesAt_of_lookup]
    rw [lookup_contents, hitem, Option.map_some, hcontent]
  · unfold entriesAt
    split
    next inner hlookup =>
      rw [lookup_contents, Option.map_eq_some_iff] at hlookup
      obtain ⟨item, hitem, hcontent⟩ := hlookup
      exact absurd hcontent (hno item inner hitem)
    · rfl

theorem keyed_descend {mode : TraversalMode}
    {edit : List (Str × TomlItem σ) → List (Str × TomlItem σ) × Bool}
    (hedit : ∀ {parent}, Keyed (.table (contents parent)) →
      Keyed (.table (contents (edit parent).1)))
    (h : Keyed (.table (contents doc))) :
    Keyed (.table (contents (descend mode edit segments doc).1)) := by
  induction segments generalizing doc with
  | nil => exact hedit h
  | cons segment segments ih =>
    rw [descend]
    split
    next inner henter =>
      have hinner : Keyed (.table (contents inner)) := by
        rw [contents_enter_lookup henter]
        exact h.entriesAt segment
      rw [contents_insertItem]
      exact h.insertEntry (ih hinner) segment
    · exact h

theorem keyed_apply {edit : ConfigEdit σ} (h : Keyed (.table (contents doc))) :
    Keyed (.table (contents (apply edit doc).1)) := by
  cases edit with
  | setPath segments item keyed =>
    simp only [apply, insert]
    split
    next last hlast =>
      refine keyed_descend (fun hparent => ?_) h
      rw [contents_insertItem]
      exact hparent.insertEntry keyed last
    · exact h
  | clearPath segments =>
    simp only [apply, remove]
    split
    next last hlast =>
      refine keyed_descend (fun hparent => ?_) h
      rw [contents_removeItem]
      exact hparent.removeEntry last
    · exact h

theorem descend_insert (value : TomlItem σ) (hrefuses : ¬Refuses segments doc) :
    contents (descend .create (fun parent => (insertItem last value parent, true)) segments doc).1 =
        putAt last value.content segments (contents doc) ∧
      (descend .create (fun parent => (insertItem last value parent, true)) segments doc).2 = true := by
  induction segments generalizing doc with
  | nil => exact ⟨contents_insertItem last value doc, rfl⟩
  | cons segment segments ih =>
    rw [descend, putAt]
    cases henter : enter .create (doc.lookup segment) with
    | none => simp [Refuses, henter] at hrefuses
    | some inner =>
      have hinner : ¬Refuses segments inner := by simpa [Refuses, henter] using hrefuses
      obtain ⟨hcontents, htrue⟩ := ih hinner
      refine ⟨?_, htrue⟩
      rw [contents_insertItem, content, hcontents, contents_enter_lookup henter]

/-- An edit puts its value at its path, unless an array of tables is on the way. -/
theorem insert_spec (value : TomlItem σ) (hlast : segments.getLast? = some last)
    (hrefuses : ¬Refuses segments.dropLast doc) :
    contents (insert segments value doc).1 =
        putAt last value.content segments.dropLast (contents doc) ∧
      (insert segments value doc).2 = true := by
  simp only [insert, hlast]
  exact descend_insert value hrefuses

theorem descend_of_refuses {edit : List (Str × TomlItem σ) → List (Str × TomlItem σ) × Bool}
    (h : Refuses segments doc) : (descend .create edit segments doc).2 = false := by
  induction segments generalizing doc with
  | nil => cases h
  | cons segment segments ih =>
    rw [descend]
    split
    next inner henter =>
      simp only [Refuses, henter] at h
      exact ih h
    · rfl

/-- To read a table is to find one. -/
theorem enter_existing (found : Option (TomlItem σ)) :
    (∃ table, enter .existing found = some table ∧
      found.map content = some (.table (contents table))) ∨
    enter .existing found = none ∧ ∀ inner, found.map content ≠ some (.table inner) := by
  cases found with
  | none => exact .inr ⟨rfl, fun _ hnone => by cases hnone⟩
  | some item =>
    cases item with
    | table entries => exact .inl ⟨entries, rfl, rfl⟩
    | arrayOfTables tables => exact .inr ⟨rfl, fun _ harray => by cases harray⟩
    | value value =>
      cases value with
      | table entries =>
        exact .inl ⟨ofInline entries, rfl, by rw [Option.map_some, content, contents_ofInline]⟩
      | scalar value => exact .inr ⟨rfl, fun _ hscalar => by cases hscalar⟩
      | array items => exact .inr ⟨rfl, fun _ harray => by cases harray⟩

/-- A key is removed from the table that it is in, if there is one. -/
theorem descend_remove :
    contents (descend .existing
      (fun parent => (removeItem last parent, (parent.lookup last).isSome)) segments doc).1 =
      removeAt last segments (contents doc) := by
  induction segments generalizing doc with
  | nil => exact contents_removeItem last doc
  | cons segment segments ih =>
    rcases enter_existing (doc.lookup segment) with ⟨table, henter, hcontent⟩ | ⟨henter, hno⟩
    · rw [← lookup_contents] at hcontent
      simp only [descend, henter, removeAt, hcontent, contents_insertItem, content, ih]
    · simp only [← lookup_contents] at hno
      simp only [descend, henter, removeAt]

theorem contents_remove (hlast : segments.getLast? = some last) :
    contents (remove segments doc).1 = removeAt last segments.dropLast (contents doc) := by
  simp only [remove, hlast]
  exact descend_remove

theorem removed {inner : List (Str × TomlValue σ)} (hlast : segments.getLast? = some last)
    (hparent : (TomlValue.table (contents doc)).get segments.dropLast = some (.table inner)) :
    (remove segments doc).2 = (inner.lookup last).isSome := by
  simp only [remove, hlast]
  generalize segments.dropLast = parents at hparent
  induction parents generalizing doc with
  | nil =>
    obtain rfl := TomlValue.table.inj (Option.some.inj hparent)
    rw [descend, lookup_contents, Option.isSome_map]
  | cons segment parents ih =>
    obtain ⟨found, hfound, hparent⟩ := Option.bind_eq_some_iff.1 hparent
    cases found with
    | scalar | array => cases parents <;> cases hparent
    | table entries =>
      rcases enter_existing (doc.lookup segment) with ⟨table, henter, hcontent⟩ | ⟨-, hno⟩
      · rw [← lookup_contents, hfound] at hcontent
        obtain rfl := TomlValue.table.inj (Option.some.inj hcontent)
        simp only [descend, henter]
        exact ih hparent
      · rw [lookup_contents] at hfound
        exact absurd hfound (hno entries)

theorem remove_spec {inner : List (Str × TomlValue σ)} (hlast : segments.getLast? = some last)
    (hparent : (TomlValue.table (contents doc)).get segments.dropLast = some (.table inner)) :
    contents (remove segments doc).1 = removeAt last segments.dropLast (contents doc) ∧
      (remove segments doc).2 = (inner.lookup last).isSome :=
  ⟨contents_remove hlast, removed hlast hparent⟩

/-- An edit that tells of no change makes none. -/
theorem same_descend {mode : TraversalMode}
    {edit : List (Str × TomlItem σ) → List (Str × TomlItem σ) × Bool}
    (hedit : ∀ {parent}, Keyed (.table (contents parent)) → (edit parent).2 = false →
      Same (.table (contents (edit parent).1)) (.table (contents parent)))
    (hcreate : mode = .create → ∀ segments, (descend mode edit segments []).2 = true)
    (hdoc : Keyed (.table (contents doc))) (h : (descend mode edit segments doc).2 = false) :
    Same (.table (contents (descend mode edit segments doc).1)) (.table (contents doc)) := by
  induction segments generalizing doc with
  | nil => exact hedit hdoc h
  | cons segment segments ih =>
    rw [descend] at h ⊢
    cases henter : enter mode (doc.lookup segment) with
    | none => exact .refl _
    | some inner =>
      simp only [henter] at h
      rcases contents_enter henter with ⟨item, hitem, hcontent⟩ | ⟨rfl, hno⟩
      · have hlookup : (contents doc).lookup segment = some (.table (contents inner)) := by
          rw [lookup_contents, hitem, Option.map_some, hcontent]
        simp only [contents_insertItem, content]
        exact .insertEntry_self hdoc.keys hlookup (ih (hdoc.lookup hlookup) h)
      · cases mode with
        | create =>
          rw [hcreate rfl segments] at h
          cases h
        | existing =>
          rcases enter_existing (doc.lookup segment) with ⟨table, -, hcontent⟩ | ⟨hnone, -⟩
          · obtain ⟨item, hitem, hcontent⟩ := Option.map_eq_some_iff.1 hcontent
            exact absurd hcontent (hno item _ hitem)
          · cases hnone.symm.trans henter

theorem same_apply {edit : ConfigEdit σ} (hdoc : Keyed (.table (contents doc)))
    (h : (apply edit doc).2 = false) :
    Same (.table (contents (apply edit doc).1)) (.table (contents doc)) := by
  cases edit with
  | setPath segments item keyed =>
    simp only [apply, insert] at h ⊢
    split at h
    next last hlast =>
      refine same_descend (fun _ hfalse => by cases hfalse) (fun _ segments => ?_) hdoc h
      induction segments with
      | nil => rfl
      | cons segment segments ih => exact ih
    · exact .refl _
  | clearPath segments =>
    simp only [apply, remove] at h ⊢
    split at h
    next last hlast =>
      refine same_descend (fun {parent} hparent hfalse => ?_) (fun hmode => by cases hmode) hdoc h
      have hnone : parent.lookup last = none :=
        Option.not_isSome_iff_eq_none.1 (Bool.eq_false_iff.1 hfalse)
      have hself : Same (.table (removeAt last [] (contents parent)))
          (.table (contents parent)) := by
        refine .removeAt_self hparent rfl ?_
        rw [lookup_contents, hnone, Option.map_none]
      rwa [contents_removeItem]
    · exact .refl _

end Contents

end ConfigDocument

def applyEdit (edit : ConfigEdit σ) (document : TomlDocument σ) : TomlDocument σ × Bool :=
  let result := ConfigDocument.apply edit document.entries
  (⟨result.1, ConfigDocument.keyed_apply document.keyed⟩, result.2)

/-- The loop over the edits, with whether one has changed the document. -/
def applyAll (edits : List (ConfigEdit σ)) (document : TomlDocument σ) : TomlDocument σ × Bool :=
  edits.foldl (fun result edit =>
    let applied := applyEdit edit result.1
    (applied.1, result.2 || applied.2)) (document, false)

inductive PersistError where
  | parse
  | persist

/-- The file is the document that it parses to, if it does; a missing one is empty. `writes`: the
atomic write succeeds. -/
def applyBlocking (edits : List (ConfigEdit σ)) (writes : Bool) (file : Option (TomlDocument σ)) :
    Except PersistError Unit × Option (TomlDocument σ) :=
  if edits.isEmpty then (.ok (), file)
  else
    match file with
    | none => (.error .parse, file)
    | some document =>
      let result := applyAll edits document
      if result.2 then
        if writes then (.ok (), some result.1) else (.error .persist, file)
      else (.ok (), file)

end SheriMl.Config
