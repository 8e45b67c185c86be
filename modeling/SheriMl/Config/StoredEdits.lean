import SheriMl.Config.ServiceWrites

/-!
# What an edit leaves in the file

An edit that reaches its place in the document is stored there (`stored_of_reaches`), and edits at
other paths leave it (`Stored.writtenAll`). The document may be another one than the edit was merged
for.
-/

namespace SheriMl.Config

open List

open TomlValue TomlItem

variable {σ κ : Type}

/-! ## Values at a path -/

section Values

variable {segments other : List Str} {wanted : Option (TomlValue σ)}
  {value value' : TomlValue σ} {entries : List (Str × TomlValue σ)} {last : Str}

theorem canonicalItems_eq (items : List (TomlValue σ)) :
    canonicalItems items = items.map canonical := by
  induction items with
  | nil => rfl
  | cons item items ih => rw [canonicalItems, map_cons, ih]

theorem sameOption_valueAtPath (hvalue : value.Keyed) (hvalue' : value'.Keyed)
    (h : Same value value') (segments : List Str) :
    SameOption (valueAtPath segments value) (valueAtPath segments value') := by
  induction segments generalizing value value' with
  | nil => exact congrArg some h
  | cons segment segments ih =>
    have hbind : ∀ {found found' : Option (TomlValue σ)},
        found.map canonical = found'.map canonical →
        (∀ inner, found = some inner → inner.Keyed) →
        (∀ inner, found' = some inner → inner.Keyed) →
        SameOption (found.bind (valueAtPath segments)) (found'.bind (valueAtPath segments)) := by
      intro found found' heq hfound hfound'
      cases found with
      | none =>
        rw [Option.map_none, eq_comm, Option.map_eq_none_iff] at heq
        rw [heq]
        rfl
      | some inner =>
        rw [Option.map_some, eq_comm, Option.map_eq_some_iff] at heq
        obtain ⟨inner', rfl, heq⟩ := heq
        exact ih (hfound inner rfl) (hfound' inner' rfl) heq.symm
    cases hvalue with
    | scalar => cases hvalue' <;> first | rfl | cases h
    | @table entries hkeys hentries =>
      cases hvalue' with
      | scalar | array => cases h
      | @table entries' hkeys' hentries' =>
        refine hbind ((canonical_table_eq_iff hkeys hkeys').1 h segment) ?_ ?_
        · exact fun inner hinner => hentries _ ((lookup_eq_some_iff hkeys).1 hinner)
        · exact fun inner hinner => hentries' _ ((lookup_eq_some_iff hkeys').1 hinner)
    | @array items hitems =>
      cases hvalue' with
      | scalar | table => cases h
      | @array items' hitems' =>
        have hmap : items.map canonical = items'.map canonical := by
          rw [← canonicalItems_eq, ← canonicalItems_eq]
          exact TomlValue.array.inj h
        rw [valueAtPath, valueAtPath]
        cases parseIndex segment with
        | none => rfl
        | some index =>
          refine hbind ?_ ?_ ?_
          · rw [← List.getElem?_map, hmap, List.getElem?_map]
          · exact fun inner hinner => hitems _ (mem_of_getElem? hinner)
          · exact fun inner hinner => hitems' _ (mem_of_getElem? hinner)

theorem valueAtPath_of_get {inner : TomlValue σ} (h : value.get segments = some inner) :
    valueAtPath segments value = some inner := by
  induction segments generalizing value with
  | nil => exact h
  | cons segment segments ih =>
    cases value with
    | scalar | array => cases h
    | table entries =>
      obtain ⟨found, hfound, h⟩ := Option.bind_eq_some_iff.1 h
      rw [valueAtPath, hfound, Option.bind_some, ih h]

theorem valueAtPath_nil_table (hne : segments ≠ []) :
    valueAtPath segments (.table ([] : List (Str × TomlValue σ))) = none := by
  cases segments with
  | nil => exact absurd rfl hne
  | cons segment segments => rfl

theorem valueAtPath_putAt_none (hapart : Apart other (segments ++ [last]))
    (h : valueAtPath other (.table entries) = none) :
    valueAtPath other (.table (putAt last value segments entries)) = none := by
  induction segments generalizing entries other with
  | nil =>
    obtain ⟨key, rest, rfl, hne⟩ := Apart.head hapart
    rw [valueAtPath] at h ⊢
    rw [putAt, lookup_insertEntry, if_neg hne, h]
  | cons segment segments ih =>
    obtain ⟨key, rest, rfl, hrest⟩ := Apart.cons hapart
    rw [valueAtPath] at h ⊢
    rw [putAt, lookup_insertEntry]
    split
    next heq =>
      obtain ⟨hne, hrest⟩ := hrest heq
      rw [Option.bind_some]
      refine ih hrest ?_
      unfold entriesAt
      split
      next inner hinner =>
        rw [heq, hinner] at h
        exact h
      · exact valueAtPath_nil_table hne
    · exact h

theorem valueAtPath_removeAt_none (hapart : Apart other (segments ++ [last]))
    (h : valueAtPath other (.table entries) = none) :
    valueAtPath other (.table (removeAt last segments entries)) = none := by
  induction segments generalizing entries other with
  | nil =>
    obtain ⟨key, rest, rfl, hne⟩ := Apart.head hapart
    rw [valueAtPath] at h ⊢
    rw [removeAt, lookup_removeEntry, if_neg hne, h]
  | cons segment segments ih =>
    obtain ⟨key, rest, rfl, hrest⟩ := Apart.cons hapart
    rw [removeAt]
    split
    next inner hinner =>
      rw [valueAtPath] at h ⊢
      rw [lookup_insertEntry]
      split
      next heq =>
        obtain ⟨-, hrest⟩ := hrest heq
        rw [heq, hinner, Option.bind_some] at h
        exact ih hrest h
      · exact h
    · exact h

theorem valueAtPath_removed (h : ¬PassesArray (segments ++ [last]) (.table entries)) :
    valueAtPath (segments ++ [last]) (.table (removeAt last segments entries)) = none := by
  induction segments generalizing entries with
  | nil =>
    rw [nil_append, valueAtPath, removeAt, lookup_removeEntry, if_pos rfl]
    rfl
  | cons segment segments ih =>
    rw [cons_append, PassesArray] at h
    rw [cons_append, valueAtPath, removeAt]
    split
    next inner hinner =>
      rw [hinner] at h
      rw [lookup_insertEntry, if_pos rfl, Option.bind_some]
      exact ih h
    next hno =>
      cases hlookup : entries.lookup segment with
      | none => rfl
      | some found =>
        rw [hlookup] at h
        cases found with
        | table inner => exact absurd hlookup (hno inner)
        | scalar value => cases segments <;> rfl
        | array items => cases segments <;> exact absurd trivial h

theorem not_passesArray {root : TomlValue σ} {inner : List (Str × TomlValue σ)}
    (h : root.get segments = some (.table inner)) : ¬PassesArray (segments ++ [last]) root := by
  induction segments generalizing root with
  | nil =>
    obtain rfl := Option.some.inj h
    rw [nil_append, PassesArray]
    split <;> exact id
  | cons segment segments ih =>
    cases root with
    | scalar | array => cases h
    | table entries =>
      obtain ⟨found, hfound, h⟩ := Option.bind_eq_some_iff.1 h
      rw [cons_append, PassesArray, hfound]
      exact ih h

/-- The value at the path, which leads through tables; or no value there. -/
def Stored (segments : List Str) (wanted : Option (TomlValue σ)) (value : TomlValue σ) : Prop :=
  match wanted with
  | some inner => ∃ found, value.get segments = some found ∧ Same inner found
  | none => valueAtPath segments value = none

namespace Stored

theorem sameOption (h : Stored segments wanted value) :
    SameOption wanted (valueAtPath segments value) := by
  cases wanted with
  | none => rw [h]; rfl
  | some inner =>
    obtain ⟨found, hfound, hsame⟩ := h
    rw [valueAtPath_of_get hfound]
    exact congrArg some hsame

theorem congr (h : Stored segments wanted value) (hvalue : value.Keyed) (hvalue' : value'.Keyed)
    (hsame : Same value value') : Stored segments wanted value' := by
  cases wanted with
  | none =>
    have hnone := sameOption_valueAtPath hvalue hvalue' hsame segments
    rw [h, SameOption, Option.map_none, eq_comm, Option.map_eq_none_iff] at hnone
    exact hnone
  | some inner =>
    obtain ⟨found, hfound, hinner⟩ := h
    obtain ⟨found', hfound', hsame'⟩ := hsame.get hvalue hvalue' hfound
    exact ⟨found', hfound', hinner.trans hsame'⟩

theorem putAt {parents : List Str} (h : Stored segments wanted (.table entries))
    (hapart : Apart segments (parents ++ [last])) :
    Stored segments wanted (.table (putAt last value parents entries)) := by
  cases wanted with
  | none => exact valueAtPath_putAt_none hapart h
  | some inner =>
    obtain ⟨found, hfound, hsame⟩ := h
    exact ⟨found, get_putAt hapart hfound, hsame⟩

theorem removeAt {parents : List Str} (h : Stored segments wanted (.table entries))
    (hapart : Apart segments (parents ++ [last])) :
    Stored segments wanted (.table (removeAt last parents entries)) := by
  cases wanted with
  | none => exact valueAtPath_removeAt_none hapart h
  | some inner =>
    obtain ⟨found, hfound, hsame⟩ := h
    exact ⟨found, get_removeAt hapart hfound, hsame⟩

end Stored

end Values

theorem exists_valueAtPath {last : Str} {value root root' : TomlValue σ}
    {strategy : MergeStrategy} {parents : List Str}
    (h : mergeBelow last value strategy parents root = .ok root') :
    ∃ new, valueAtPath (parents ++ [last]) root' = some new :=
  ⟨_, mergeBelow_eq h ▸ valueAtPath_putAt parents _⟩

/-! ## Edits of the document -/

def ConfigEdit.segments : ConfigEdit σ → List Str
  | .setPath segments _ _ => segments
  | .clearPath segments => segments

section Documents

variable {segments : List Str} {wanted : Option (TomlValue σ)} {document : TomlDocument σ}
  {configEdit : ConfigEdit σ}

theorem same_applyEdit (h : (applyEdit configEdit document).2 = false) :
    Same (applyEdit configEdit document).1.content document.content :=
  ConfigDocument.same_apply document.keyed h

/-- An edit leaves what is at other paths. -/
theorem Stored.applyEdit (h : Stored segments wanted document.content)
    (hapart : Apart segments configEdit.segments) :
    Stored segments wanted (applyEdit configEdit document).1.content := by
  cases hresult : (Config.applyEdit configEdit document).2 with
  | false =>
    exact h.congr document.keyed (Config.applyEdit configEdit document).1.keyed
      (same_applyEdit hresult).symm
  | true =>
    cases configEdit with
    | setPath path item keyed =>
      have hnot : ∃ last, path.getLast? = some last ∧
          ¬ConfigDocument.Refuses path.dropLast document.entries := by
        simp only [Config.applyEdit, ConfigDocument.apply, ConfigDocument.insert] at hresult
        split at hresult
        next last hlast =>
          refine ⟨last, hlast, fun hrefuses => ?_⟩
          rw [ConfigDocument.descend_of_refuses hrefuses] at hresult
          cases hresult
        · cases hresult
      obtain ⟨last, hlast, hnot⟩ := hnot
      obtain ⟨hcontents, -⟩ := ConfigDocument.insert_spec item hlast hnot
      change Stored segments wanted
        (.table (contents (ConfigDocument.insert path item document.entries).1))
      rw [hcontents]
      refine h.putAt ?_
      rwa [dropLast_append_getLast? last hlast]
    | clearPath path =>
      cases hlast : path.getLast? with
      | none =>
        simp only [Config.applyEdit, ConfigDocument.apply, ConfigDocument.remove, hlast] at hresult
        cases hresult
      | some last =>
        change Stored segments wanted
          (.table (contents (ConfigDocument.remove path document.entries).1))
        rw [ConfigDocument.contents_remove hlast]
        refine h.removeAt ?_
        rwa [dropLast_append_getLast? last hlast]

theorem same_applyAll {configEdits : List (ConfigEdit σ)}
    (h : (applyAll configEdits document).2 = false) :
    Same (applyAll configEdits document).1.content document.content := by
  induction configEdits generalizing document with
  | nil => exact .refl _
  | cons configEdit configEdits ih =>
    rw [applyAll_cons] at h ⊢
    obtain ⟨hfirst, hrest⟩ := Bool.or_eq_false_iff.1 h
    exact (ih hrest).trans (same_applyEdit hfirst)

/-- The file after a write that succeeds, whether or not an edit told of a change. -/
theorem same_applyBlocking {configEdits : List (ConfigEdit σ)} {writes : Bool}
    {document' : TomlDocument σ}
    (h : applyBlocking configEdits writes (some document) = (.ok (), some document')) :
    Same (applyAll configEdits document).1.content document'.content := by
  unfold applyBlocking at h
  split at h
  next hempty =>
    obtain rfl := List.isEmpty_iff.1 hempty
    obtain rfl := Option.some.inj (Prod.mk.inj h).2
    exact .refl _
  next hne =>
    cases hmutated : (applyAll configEdits document).2 with
    | false =>
      simp only [hmutated, Bool.false_eq_true, if_false] at h
      obtain rfl := Option.some.inj (Prod.mk.inj h).2
      exact same_applyAll hmutated
    | true =>
      simp only [hmutated, if_true] at h
      split at h
      · obtain rfl := Option.some.inj (Prod.mk.inj h).2
        exact .refl _
      · cases h

end Documents

/-! ## Merged edits -/

namespace MergedEdit

/-- What the file has at the path of the edit, when it is as the edit makes the config. -/
def wanted (merged : MergedEdit σ) : Option (TomlValue σ) :=
  valueAtPath merged.segments merged.userConfig.value

/-- The way to the place of the edit is open: no array of tables refuses a set, and no array has
what is to be cleared. An edit that changed nothing in its own config has no place to reach, and asks
for what it had found. -/
def Reaches (merged : MergedEdit σ) (document : TomlDocument σ) : Prop :=
  match merged.configEdit with
  | some (.setPath ..) => ¬ConfigDocument.Refuses merged.segments.dropLast document.entries
  | some (.clearPath _) => ¬PassesArray merged.segments document.content
  | none => Stored merged.segments merged.wanted document.content

/-- The document after a batch. -/
def writtenAll (mergeds : List (MergedEdit σ)) (document : TomlDocument σ) : TomlDocument σ :=
  mergeds.foldl (fun document merged => merged.written document) document

theorem applyAll_eq (mergeds : List (MergedEdit σ)) (document : TomlDocument σ) :
    (applyAll (mergeds.filterMap configEdit) document).1 = writtenAll mergeds document := by
  induction mergeds generalizing document with
  | nil => rfl
  | cons merged mergeds ih =>
    rw [writtenAll, foldl_cons, ← writtenAll, ← ih]
    cases hedit : merged.configEdit with
    | none =>
      rw [filterMap_cons_none hedit]
      simp only [written, hedit]
    | some configEdit =>
      rw [filterMap_cons_some hedit, applyAll_cons]
      simp only [written, hedit]

end MergedEdit

section Merged

variable [DecidableEq σ] {service : ConfigService σ κ} {config userConfig : ConfigTable σ}
  {document : TomlDocument σ} {edit : Edit σ} {merged : MergedEdit σ}
  {segments : List Str} {wanted : Option (TomlValue σ)}

/-- The edit is one that a service has merged. -/
def MergedEdit.MergedBy (service : ConfigService σ κ) (merged : MergedEdit σ) : Prop :=
  ∃ config edit, service.mergeEdit config edit = .ok merged

theorem mergedBy_of_mem {edits : List (Edit σ)} {mergeds : List (MergedEdit σ)}
    (h : service.mergeEdits config edits = .ok (userConfig, mergeds)) (hmem : merged ∈ mergeds) :
    merged.MergedBy service := by
  induction edits generalizing config mergeds with
  | nil =>
    obtain ⟨-, rfl⟩ := Prod.mk.inj (Except.ok.inj h)
    cases hmem
  | cons edit edits ih =>
    obtain ⟨first, hfirst, h⟩ := Result.exists_of_bind_eq_ok h
    obtain ⟨⟨userConfig', rest⟩, hrest, h⟩ := Result.exists_of_bind_eq_ok h
    obtain ⟨rfl, rfl⟩ := Prod.mk.inj (Except.ok.inj h)
    obtain rfl | hmem := mem_cons.1 hmem
    · exact ⟨config, edit, hfirst⟩
    · exact ih hrest hmem

/-- The edit of the file that follows sets or clears the path of the edit. -/
theorem configEdit_cases (h : merged.MergedBy service) :
    merged.configEdit = none ∨
      (∃ last value keyed, merged.segments.getLast? = some last ∧ merged.wanted = some value ∧
        merged.configEdit = some (.setPath merged.segments (tomlValueToItem value) keyed)) ∨
      ∃ last, merged.segments.getLast? = some last ∧ merged.wanted = none ∧
        merged.configEdit = some (.clearPath merged.segments) := by
  obtain ⟨config, edit, h⟩ := h
  obtain ⟨last, value, hlast, -, hedit⟩ := mergeEdit_eq h
  split at hedit
  · exact .inl hedit
  · cases hwanted : merged.wanted with
    | none => exact .inr (.inr ⟨last, hlast, rfl, editFor_of_none hwanted ▸ hedit⟩)
    | some found =>
      obtain ⟨keyed, hset⟩ := editFor_of_some hwanted
      exact .inr (.inl ⟨last, found, keyed, hlast, rfl, hset ▸ hedit⟩)

theorem Stored.written (h : Stored segments wanted document.content)
    (hmerged : merged.MergedBy service) (hapart : Apart segments merged.segments) :
    Stored segments wanted (merged.written document).content := by
  rcases configEdit_cases hmerged with hnone | ⟨-, value, keyed, -, -, hset⟩ | ⟨-, -, -, hclear⟩
  · simp only [MergedEdit.written, hnone]
    exact h
  · simp only [MergedEdit.written, hset]
    exact h.applyEdit hapart
  · simp only [MergedEdit.written, hclear]
    exact h.applyEdit hapart

/-- Edits at other paths leave what is stored. -/
theorem Stored.writtenAll {mergeds : List (MergedEdit σ)}
    (h : Stored segments wanted document.content)
    (hmergeds : ∀ merged ∈ mergeds, merged.MergedBy service ∧ Apart segments merged.segments) :
    Stored segments wanted (MergedEdit.writtenAll mergeds document).content := by
  induction mergeds generalizing document with
  | nil => exact h
  | cons merged mergeds ih =>
    obtain ⟨⟨hmerged, hapart⟩, hmergeds⟩ := forall_mem_cons.1 hmergeds
    exact ih (h.written hmerged hapart) hmergeds

/-- What reaches its place is stored there. -/
theorem stored_of_reaches (hmerged : merged.MergedBy service) (h : merged.Reaches document) :
    Stored merged.segments merged.wanted (merged.written document).content := by
  rcases configEdit_cases hmerged with
    hnone | ⟨last, value, keyed, hlast, hwanted, hset⟩ | ⟨last, hlast, hwanted, hclear⟩
  · simp only [MergedEdit.Reaches, hnone] at h
    simp only [MergedEdit.written, hnone]
    exact h
  · simp only [MergedEdit.Reaches, hset] at h
    simp only [MergedEdit.written, hset, hwanted]
    obtain ⟨hcontents, -⟩ := ConfigDocument.insert_spec (tomlValueToItem value) hlast h
    change Stored merged.segments (some value) (.table (contents
      (ConfigDocument.insert merged.segments (tomlValueToItem value) document.entries).1))
    rw [hcontents, content_tomlValueToItem]
    refine ⟨value, ?_, .refl value⟩
    have hget := get_putAt_self last value merged.segments.dropLast (contents document.entries)
    rwa [dropLast_append_getLast? last hlast] at hget
  · simp only [MergedEdit.Reaches, hclear] at h
    simp only [MergedEdit.written, hclear, hwanted]
    change valueAtPath merged.segments
      (.table (contents (ConfigDocument.remove merged.segments document.entries).1)) = none
    rw [ConfigDocument.contents_remove hlast]
    rw [← dropLast_append_getLast? last hlast] at h
    have hgone := valueAtPath_removed h
    rwa [dropLast_append_getLast? last hlast] at hgone

theorem reaches_of_heard (hsame : Same config.value document.content)
    (h : service.mergeEdit config edit = .ok merged) (hheard : merged.Heard config document) :
    merged.Reaches document := by
  obtain ⟨last, value, hlast, hmerge, hedit⟩ := mergeEdit_eq h
  have hsegments := dropLast_append_getLast? last hlast
  have hvalues := sameOption_valueAtPath config.keyed document.keyed hsame merged.segments
  cases value with
  | none =>
    simp only [applyMerge, hlast] at hmerge
    obtain ⟨entries, inner, -, hget, -, hbefore, hafter⟩ := clearBelow_eq hmerge
    rw [hsegments] at hbefore hafter
    split at hedit
    next hsameValue =>
      simp only [MergedEdit.Reaches, MergedEdit.wanted, hedit, hafter]
      rw [hafter] at hsameValue
      exact Option.map_eq_none_iff.1 (hvalues.symm.trans hsameValue)
    next hdiffer =>
      rw [editFor_of_none hafter] at hedit
      simp only [MergedEdit.Reaches, hedit]
      obtain ⟨found, hfound, hfoundSame⟩ := hsame.get config.keyed document.keyed hget
      rcases hfoundSame.cases with ⟨-, inner', -, rfl⟩ | ⟨htable, -⟩
      · rw [← hsegments]
        exact not_passesArray hfound
      · cases htable
  | some value =>
    simp only [applyMerge, hlast] at hmerge
    obtain ⟨new, hnew⟩ := exists_valueAtPath hmerge
    rw [hsegments] at hnew
    split at hedit
    next hsameValue =>
      -- the value was there, and in the document
      simp only [MergedEdit.Heard, hedit] at hheard
      simp only [MergedEdit.Reaches, MergedEdit.wanted, hedit, hnew]
      rw [hnew] at hsameValue
      obtain ⟨found, hfound, hfoundSame⟩ := Option.map_eq_some_iff.1 hsameValue
      rw [← hsegments] at hfound
      have hget := get_of_valueAtPath hmerge hheard hfound
      rw [hsegments] at hget
      obtain ⟨found', hfound', hsame'⟩ := hsame.get config.keyed document.keyed hget
      exact ⟨found', hfound', .trans (.symm hfoundSame) hsame'⟩
    next hdiffer =>
      obtain ⟨keyed, hset⟩ := editFor_of_some hnew
      rw [hset] at hedit
      simp only [MergedEdit.Heard, hedit] at hheard
      simp only [MergedEdit.Reaches, hedit]
      exact hheard

theorem reaches_batch {edits : List (Edit σ)} {mergeds : List (MergedEdit σ)}
    (hsame : Same config.value document.content)
    (h : service.mergeEdits config edits = .ok (userConfig, mergeds))
    (hheard : BatchHeard service edits config document) {earlier later : List (MergedEdit σ)}
    (hmergeds : mergeds = earlier ++ merged :: later) :
    merged.Reaches (MergedEdit.writtenAll earlier document) := by
  induction edits generalizing config document mergeds earlier with
  | nil =>
    obtain ⟨-, rfl⟩ := Prod.mk.inj (Except.ok.inj h)
    cases earlier <;> cases hmergeds
  | cons edit edits ih =>
    obtain ⟨first, hfirst, h⟩ := Result.exists_of_bind_eq_ok h
    obtain ⟨⟨userConfig', rest⟩, hrest, h⟩ := Result.exists_of_bind_eq_ok h
    obtain ⟨rfl, rfl⟩ := Prod.mk.inj (Except.ok.inj h)
    obtain ⟨hheardFirst, hlater⟩ := hheard first hfirst
    cases earlier with
    | nil =>
      obtain ⟨rfl, -⟩ := List.cons.inj hmergeds
      exact reaches_of_heard hsame hfirst hheardFirst
    | cons first' earlier =>
      obtain ⟨rfl, htail⟩ := List.cons.inj hmergeds
      exact ih (carried_of_heard hsame hfirst hheardFirst).1 hrest hlater htail

end Merged

end SheriMl.Config
