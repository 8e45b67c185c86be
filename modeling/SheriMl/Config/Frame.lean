import SheriMl.Config.StoredEdits

/-!
# What an edit leaves alone

An edit of the document changes the value at its path and no other: what lies at a path that neither
leads to it nor goes on from it stays, whatever tables are made or converted on the way
(`ConfigDocument.get_descend`). This holds of each edit of a list (`applyAll_edited`).
-/

namespace SheriMl.Config

open TomlValue TomlItem

variable {σ : Type}

namespace ConfigDocument

variable {doc : List (Str × TomlItem σ)} {segments path : List Str} {last : Str}
  {mode : TraversalMode} {edit : List (Str × TomlItem σ) → List (Str × TomlItem σ) × Bool}

/-- Whatever the way to the parent makes of the tables on it, other paths lead to what they did. -/
theorem get_descend
    (hedit : ∀ {parent path}, Apart path [last] →
      (TomlValue.table (contents (edit parent).1)).get path =
        (TomlValue.table (contents parent)).get path)
    (hapart : Apart path (segments ++ [last])) :
    (TomlValue.table (contents (descend mode edit segments doc).1)).get path =
      (TomlValue.table (contents doc)).get path := by
  induction segments generalizing doc path with
  | nil => exact hedit hapart
  | cons segment segments ih =>
    obtain ⟨key, rest, rfl, hrest⟩ := Apart.cons hapart
    rw [descend]
    split
    next inner henter =>
      rw [contents_insertItem, content, get_table_cons, get_table_cons, lookup_insertEntry]
      split
      next heq =>
        obtain ⟨hne, hrest⟩ := hrest heq
        rw [Option.bind_some, ih hrest, contents_enter_lookup henter, get_entriesAt _ hne, heq]
      · rfl
    · rfl

theorem get_insertItem (value : TomlItem σ) {parent : List (Str × TomlItem σ)}
    (hapart : Apart path [last]) :
    (TomlValue.table (contents (insertItem last value parent))).get path =
      (TomlValue.table (contents parent)).get path := by
  obtain ⟨key, rest, rfl, hne⟩ := Apart.head hapart
  rw [contents_insertItem, get_table_cons, get_table_cons, lookup_insertEntry, if_neg hne]

theorem get_removeItem {parent : List (Str × TomlItem σ)} (hapart : Apart path [last]) :
    (TomlValue.table (contents (removeItem last parent))).get path =
      (TomlValue.table (contents parent)).get path := by
  obtain ⟨key, rest, rfl, hne⟩ := Apart.head hapart
  rw [contents_removeItem, get_table_cons, get_table_cons, lookup_removeEntry, if_neg hne]

theorem get_apply {configEdit : ConfigEdit σ} (hapart : Apart path configEdit.segments) :
    (TomlValue.table (contents (apply configEdit doc).1)).get path =
      (TomlValue.table (contents doc)).get path := by
  cases configEdit with
  | setPath segments value keyed =>
    rw [apply, insert]
    split
    next last hlast =>
      refine get_descend (get_insertItem value) ?_
      rwa [List.dropLast_append_getLast? last hlast]
    · rfl
  | clearPath segments =>
    rw [apply, remove]
    split
    next last hlast =>
      refine get_descend get_removeItem ?_
      rwa [List.dropLast_append_getLast? last hlast]
    · rfl

theorem descend_remove_snd :
    (descend .existing (fun parent => (removeItem last parent, (parent.lookup last).isSome))
      segments doc).2 = ((TomlValue.table (contents doc)).get (segments ++ [last])).isSome := by
  induction segments generalizing doc with
  | nil => rw [descend, List.nil_append, get_singleton, lookup_contents, Option.isSome_map]
  | cons segment segments ih =>
    rw [List.cons_append, get_table_cons, lookup_contents, descend]
    obtain ⟨table, henter, hfound⟩ | ⟨henter, hno⟩ := enter_existing (doc.lookup segment)
    · rw [henter, hfound, Option.bind_some]
      exact ih
    · rw [henter]
      cases hfound : (doc.lookup segment).map content with
      | none => rfl
      | some value =>
        cases value with
        | table inner => exact absurd hfound (hno inner)
        | scalar | array => cases segments <;> rfl

end ConfigDocument

/-! ## Edits -/

/-- The value that an edit asks for at its path. -/
def ConfigEdit.value : ConfigEdit σ → Option (TomlValue σ)
  | .setPath _ value _ => some value.content
  | .clearPath _ => none

/-- Whether an edit has something to do: a value is set unless an array of tables is on the way, and
one that is there is removed. -/
def ConfigEdit.Applies (document : TomlDocument σ) : ConfigEdit σ → Prop
  | .setPath segments _ _ =>
    segments ≠ [] ∧ ¬ConfigDocument.Refuses segments.dropLast document.entries
  | .clearPath segments => segments ≠ [] ∧ (document.content.get segments).isSome

structure Edited (edit : ConfigEdit σ) (before after : TomlDocument σ) (mutated : Bool) : Prop where
  /-- It tells of a change if it has something to do. -/
  mutated_iff : mutated = true ↔ edit.Applies before
  /-- Then the path has the value that is asked for. -/
  stored : mutated = true → after.content.get edit.segments = edit.value
  /-- Other paths have what they had. -/
  frame : ∀ path, ¬path <+: edit.segments → ¬edit.segments <+: path →
    after.content.get path = before.content.get path
  /-- Otherwise the document is the same. -/
  unchanged : mutated = false → Same after.content before.content

variable {document : TomlDocument σ} {edit : ConfigEdit σ}

theorem snd_applyEdit_iff : (applyEdit edit document).2 = true ↔ edit.Applies document := by
  cases edit with
  | setPath segments value keyed =>
    change (ConfigDocument.insert segments value document.entries).2 = true ↔ _
    cases hlast : segments.getLast? with
    | none =>
      simp [ConfigDocument.insert, ConfigEdit.Applies, List.getLast?_eq_none_iff.1 hlast]
    | some last =>
      have hne : segments ≠ [] := by
        rintro rfl
        cases hlast
      by_cases hrefuses : ConfigDocument.Refuses segments.dropLast document.entries
      · rw [ConfigDocument.insert, hlast]
        simp only [ConfigDocument.descend_of_refuses hrefuses, ConfigEdit.Applies]
        constructor
        · intro h
          cases h
        · intro h
          exact absurd hrefuses h.2
      · obtain ⟨-, htrue⟩ := ConfigDocument.insert_spec value hlast hrefuses
        exact ⟨fun _ => ⟨hne, hrefuses⟩, fun _ => htrue⟩
  | clearPath segments =>
    change (ConfigDocument.remove segments document.entries).2 = true ↔ _
    cases hlast : segments.getLast? with
    | none =>
      simp [ConfigDocument.remove, ConfigEdit.Applies, List.getLast?_eq_none_iff.1 hlast]
    | some last =>
      have hne : segments ≠ [] := by
        rintro rfl
        cases hlast
      rw [ConfigDocument.remove, hlast]
      simp only [ConfigDocument.descend_remove_snd, List.dropLast_append_getLast? last hlast]
      exact ⟨fun h => ⟨hne, h⟩, fun h => h.2⟩

theorem edited_applyEdit (edit : ConfigEdit σ) (document : TomlDocument σ) :
    Edited edit document (applyEdit edit document).1 (applyEdit edit document).2 where
  mutated_iff := snd_applyEdit_iff
  stored hmutated := by
    cases edit with
    | setPath segments value keyed =>
      obtain ⟨hne, hrefuses⟩ := snd_applyEdit_iff.1 hmutated
      have hlast := List.getLast?_eq_some_getLast hne
      change (TomlValue.table
        (contents (ConfigDocument.insert segments value document.entries).1)).get segments = _
      rw [(ConfigDocument.insert_spec value hlast hrefuses).1]
      have hput := get_putAt_self (segments.getLast hne) value.content segments.dropLast
        (contents document.entries)
      rwa [List.dropLast_append_getLast] at hput
    | clearPath segments =>
      obtain ⟨hne, -⟩ := snd_applyEdit_iff.1 hmutated
      have hlast := List.getLast?_eq_some_getLast hne
      change (TomlValue.table
        (contents (ConfigDocument.remove segments document.entries).1)).get segments = _
      rw [ConfigDocument.contents_remove hlast]
      have hremoved := get_removeAt_self (segments.getLast hne) segments.dropLast
        (contents document.entries)
      rwa [List.dropLast_append_getLast] at hremoved
  frame path hpath hsegments := ConfigDocument.get_apply ⟨hpath, hsegments⟩
  unchanged hmutated := same_applyEdit hmutated

theorem applyAll_append (edits later : List (ConfigEdit σ)) (document : TomlDocument σ) :
    (applyAll (edits ++ later) document).1 = (applyAll later (applyAll edits document).1).1 := by
  induction edits generalizing document with
  | nil => rfl
  | cons edit edits ih => rw [List.cons_append, applyAll_cons, applyAll_cons, ih]

/-- In every list of edits each edit sets or removes the value at its path in the document that the
edits before it leave, and nothing else. -/
theorem applyAll_edited (earlier later : List (ConfigEdit σ)) (edit : ConfigEdit σ)
    (document : TomlDocument σ) :
    let before := (applyAll earlier document).1
    let result := applyEdit edit before
    Edited edit before result.1 result.2 ∧
      (applyAll (earlier ++ edit :: later) document).1 = (applyAll later result.1).1 := by
  refine ⟨edited_applyEdit edit (applyAll earlier document).1, ?_⟩
  rw [applyAll_append, applyAll_cons]

end SheriMl.Config
