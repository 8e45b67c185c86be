import SheriMl.Config.Service
import SheriMl.Lib.Result

/-!
# What is validated and what is written

`apply_edits` merges its edits into a value and applies them again to the document of the file. The
two part where the loaded config is not what the file spells, where an edit meets an array of tables
on its way (the document refuses it), and where an edit replaces an array and leaves the value at
its path as it was (no edit of the file follows). Elsewhere the file has the config that was
validated (`faithful_of_heard`).
-/

namespace SheriMl.Config

open TomlValue TomlItem

variable {σ κ : Type}

/-- A set at the path replaces an array on the way to its parent. -/
def PassesArray : List Str → TomlValue σ → Prop
  | _ :: _, .array _ => True
  | segment :: segments, .table entries =>
    match entries.lookup segment with
    | some inner => PassesArray segments inner
    | none => False
  | _, _ => False

/-! ## Merging as an update of the table -/

def entriesOf : TomlValue σ → List (Str × TomlValue σ)
  | .table entries => entries
  | _ => []

section Walks

variable {last : Str} {value root root' : TomlValue σ} {strategy : MergeStrategy}
  {parents : List Str} {entries : List (Str × TomlValue σ)}

theorem getD_lookup_entries (key : Str) (entries : List (Str × TomlValue σ)) :
    entriesOf ((entries.lookup key).getD (.table [])) = entriesAt key entries := by
  unfold entriesAt
  cases entries.lookup key with
  | none => rfl
  | some found => cases found <;> rfl

theorem mergeBelow_eq (h : mergeBelow last value strategy parents root = .ok root') :
    root' = .table (putAt last (mergedValue strategy
      ((TomlValue.table (entriesOf root)).get (parents ++ [last])) value) parents
        (entriesOf root)) := by
  induction parents generalizing root root' with
  | nil =>
    cases root with
    | scalar | array => cases h
    | table entries =>
      obtain rfl := Except.ok.inj h
      rw [List.nil_append, entriesOf, get_singleton, putAt]
  | cons segment parents ih =>
    have hbelow : ((mergeBelow last value strategy parents
        (((entriesOf root).lookup segment).getD (.table []))).map
          fun inner => .table (insertEntry segment inner (entriesOf root))) = .ok root' := by
      cases root <;> exact h
    obtain ⟨inner, hinner, rfl⟩ := Result.exists_of_map_eq_ok hbelow
    have hne : parents ++ [last] ≠ [] := by simp
    rw [ih hinner, getD_lookup_entries, get_entriesAt segment hne, putAt, List.cons_append,
      get_table_cons]

theorem valueAtPath_putAt (parents : List Str) (entries : List (Str × TomlValue σ)) :
    valueAtPath (parents ++ [last]) (.table (putAt last value parents entries)) = some value := by
  induction parents generalizing entries with
  | nil => rw [List.nil_append, putAt, valueAtPath, lookup_insertEntry, if_pos rfl]; rfl
  | cons segment parents ih =>
    rw [List.cons_append, putAt, valueAtPath, lookup_insertEntry, if_pos rfl, Option.bind_some, ih]

theorem get_of_valueAtPath (h : mergeBelow last value strategy parents root = .ok root')
    (hpasses : ¬PassesArray parents root) {found : TomlValue σ}
    (hfound : valueAtPath (parents ++ [last]) root = some found) :
    root.get (parents ++ [last]) = some found := by
  induction parents generalizing root root' with
  | nil =>
    cases root with
    | scalar | array => cases h
    | table entries => exact hfound
  | cons segment parents ih =>
    cases root with
    | scalar => cases hfound
    | array => exact absurd trivial hpasses
    | table entries =>
      obtain ⟨inner, hinner, hfound⟩ := Option.bind_eq_some_iff.1 hfound
      rw [PassesArray, hinner] at hpasses
      obtain ⟨inner', hbelow, -⟩ := Result.exists_of_map_eq_ok h
      rw [hinner, Option.getD_some] at hbelow
      rw [List.cons_append, get_table_cons, hinner, Option.bind_some]
      exact ih hbelow hpasses hfound

theorem clearBelow_eq (h : clearBelow last parents root = .ok root') :
    ∃ entries inner, root = .table entries ∧ root.get parents = some (.table inner) ∧
      root' = .table (removeAt last parents entries) ∧
      valueAtPath (parents ++ [last]) root = inner.lookup last ∧
      valueAtPath (parents ++ [last]) root' = none := by
  induction parents generalizing root root' with
  | nil =>
    cases root with
    | scalar | array => cases h
    | table entries =>
      obtain rfl := Except.ok.inj h
      refine ⟨entries, entries, rfl, rfl, rfl, ?_, ?_⟩
      · exact get_singleton entries
      · rw [List.nil_append, valueAtPath, lookup_removeEntry, if_pos rfl]
        rfl
  | cons segment parents ih =>
    cases root with
    | scalar | array => cases h
    | table entries =>
      rw [clearBelow] at h
      split at h
      next found hfound =>
        obtain ⟨found', hbelow, rfl⟩ := Result.exists_of_map_eq_ok h
        obtain ⟨entries', inner, rfl, hget, rfl, hbefore, hafter⟩ := ih hbelow
        refine ⟨entries, inner, rfl, ?_, ?_, ?_, ?_⟩
        · rw [get_table_cons, hfound, Option.bind_some, hget]
        · simp only [removeAt, hfound]
        · rw [List.cons_append, valueAtPath, hfound, Option.bind_some, hbefore]
        · rw [List.cons_append, valueAtPath, lookup_insertEntry, if_pos rfl, Option.bind_some,
            hafter]
      · cases h

end Walks

/-! ## One edit -/

theorem applyMerge_value {config userConfig : ConfigTable σ} {segments : List Str}
    {value : Option { value : TomlValue σ // value.Keyed }} {strategy : MergeStrategy}
    (h : config.applyMerge segments value strategy = .ok userConfig) :
    applyMerge config.value segments (value.map Subtype.val) strategy = .ok userConfig.value := by
  unfold ConfigTable.applyMerge at h
  split at h
  next root hroot =>
    obtain rfl := Except.ok.inj h
    exact hroot
  · cases h

/-- The edit of the file that follows, if any, does what the merge does: the document lets it pass,
and where none follows no array was replaced. -/
def MergedEdit.Heard (merged : MergedEdit σ) (config : ConfigTable σ)
    (document : TomlDocument σ) : Prop :=
  match merged.configEdit with
  | some (.setPath ..) => ¬ConfigDocument.Refuses merged.segments.dropLast document.entries
  | some (.clearPath _) => True
  | none => ¬PassesArray merged.segments.dropLast config.value

theorem MergedEdit.heard_of_clear {merged : MergedEdit σ} {config : ConfigTable σ}
    {document : TomlDocument σ}
    (hrefuses : ¬ConfigDocument.Refuses merged.segments.dropLast document.entries)
    (hpasses : ¬PassesArray merged.segments.dropLast config.value) :
    merged.Heard config document := by
  unfold Heard
  split
  · exact hrefuses
  · trivial
  · exact hpasses

/-- The document after the edit of the file that follows a merge. -/
def MergedEdit.written (merged : MergedEdit σ) (document : TomlDocument σ) : TomlDocument σ :=
  match merged.configEdit with
  | some configEdit => (applyEdit configEdit document).1
  | none => document

section Edits

variable {service : ConfigService σ κ} {config userConfig : ConfigTable σ}
  {document : TomlDocument σ} {edit : Edit σ} {merged : MergedEdit σ}

theorem editFor_of_some {segments : List Str} {value : TomlValue σ}
    (h : valueAtPath segments userConfig.value = some value) :
    ∃ keyed, editFor segments userConfig = .setPath segments (tomlValueToItem value) keyed := by
  unfold editFor
  split
  next found hfound =>
    obtain rfl := Option.some.inj (hfound.symm.trans h)
    refine ⟨?_, rfl⟩
    rw [content_tomlValueToItem]
    exact keyed_valueAtPath hfound userConfig.keyed
  next hnone => cases hnone.symm.trans h

theorem editFor_of_none {segments : List Str}
    (h : valueAtPath segments userConfig.value = none) :
    editFor segments userConfig = .clearPath segments := by
  unfold editFor
  split
  next found hfound => cases hfound.symm.trans h
  · rfl

/-- The document has the merged config after the edit. -/
def MergedEdit.Carried (merged : MergedEdit σ) (document : TomlDocument σ) : Prop :=
  Same merged.userConfig.value (merged.written document).content ∧
    ∀ configEdit, merged.configEdit = some configEdit → (applyEdit configEdit document).2 = true

theorem carried_of_unchanged (hsame : Same config.value document.content)
    (hmerged : Same merged.userConfig.value config.value) (hnone : merged.configEdit = none) :
    merged.Carried document := by
  refine ⟨?_, fun configEdit hsome => ?_⟩
  · simp only [MergedEdit.written, hnone]
    exact hmerged.trans hsame
  · cases hnone.symm.trans hsome

theorem carried_of_edit {configEdit : ConfigEdit σ} (hedit : merged.configEdit = some configEdit)
    (hwritten : Same merged.userConfig.value (applyEdit configEdit document).1.content)
    (htrue : (applyEdit configEdit document).2 = true) : merged.Carried document := by
  refine ⟨?_, fun configEdit' hsome => ?_⟩
  · simp only [MergedEdit.written, hedit]
    exact hwritten
  · obtain rfl := Option.some.inj (hedit.symm.trans hsome)
    exact htrue

theorem exists_entries (config : ConfigTable σ) :
    ∃ entries, config.value = .table entries ∧ Keyed (.table entries) := by
  obtain ⟨value, htable, hkeyed⟩ := config
  cases value with
  | scalar | array => cases htable
  | table entries => exact ⟨entries, rfl, hkeyed⟩

variable [DecidableEq σ]

theorem mergeEdit_eq (h : service.mergeEdit config edit = .ok merged) :
    ∃ last value, merged.segments.getLast? = some last ∧
      applyMerge config.value merged.segments value edit.mergeStrategy =
        .ok merged.userConfig.value ∧
      merged.configEdit =
        if SameOption (valueAtPath merged.segments config.value)
          (valueAtPath merged.segments merged.userConfig.value) then none
        else some (editFor merged.segments merged.userConfig) := by
  obtain ⟨segments, -, h⟩ := Result.exists_of_bind_eq_ok h
  obtain ⟨value, -, h⟩ := Result.exists_of_bind_eq_ok h
  obtain ⟨userConfig, hmerge, h⟩ := Result.exists_of_bind_eq_ok h
  have hvalue : applyMerge config.value segments (value.map Subtype.val) edit.mergeStrategy =
      .ok userConfig.value := by
    cases hconfig : config.applyMerge segments value edit.mergeStrategy with
    | error err =>
      rw [hconfig] at hmerge
      cases hmerge
    | ok found =>
      rw [hconfig] at hmerge
      obtain rfl := Except.ok.inj hmerge
      exact applyMerge_value hconfig
  have hlast : ∃ last, segments.getLast? = some last := by
    cases hsegments : segments.getLast? with
    | some last => exact ⟨last, rfl⟩
    | none =>
      simp only [applyMerge, hsegments] at hvalue
      cases hvalue
  obtain ⟨last, hlast⟩ := hlast
  split at h
  next hsame =>
    obtain rfl := Except.ok.inj h
    exact ⟨last, _, hlast, hvalue, (if_pos hsame).symm⟩
  next hdiffer =>
    obtain rfl := Except.ok.inj h
    exact ⟨last, _, hlast, hvalue, (if_neg hdiffer).symm⟩

theorem carried_of_set {last : Str} {value : TomlValue σ} {strategy : MergeStrategy}
    (hsame : Same config.value document.content) (hlast : merged.segments.getLast? = some last)
    (hmerge : mergeBelow last value strategy merged.segments.dropLast config.value =
      .ok merged.userConfig.value)
    (hedit : merged.configEdit =
      if SameOption (valueAtPath merged.segments config.value)
        (valueAtPath merged.segments merged.userConfig.value) then none
      else some (editFor merged.segments merged.userConfig))
    (hheard : merged.Heard config document) : merged.Carried document := by
  obtain ⟨entries, hentries, hkeyed⟩ := exists_entries config
  have hsegments := List.dropLast_append_getLast? last hlast
  have hput := mergeBelow_eq hmerge
  rw [hentries, entriesOf] at hput
  generalize hnew : mergedValue strategy _ value = new at hput
  have hafter : valueAtPath merged.segments merged.userConfig.value = some new := by
    have hvalue : valueAtPath (merged.segments.dropLast ++ [last]) (.table (putAt last new
        merged.segments.dropLast entries)) = some new := valueAtPath_putAt _ entries
    rw [hsegments] at hvalue
    rw [hput, hvalue]
  rw [hafter] at hedit
  split at hedit
  next hsameValue =>
    -- nothing follows, so the value was there
    simp only [MergedEdit.Heard, hedit] at hheard
    obtain ⟨found, hfound, hsameValue⟩ := Option.map_eq_some_iff.1 hsameValue
    rw [← hsegments] at hfound
    have hget := get_of_valueAtPath hmerge hheard hfound
    rw [hentries] at hget
    refine carried_of_unchanged hsame ?_ hedit
    rw [hput, hentries]
    exact .putAt_self hkeyed hget hsameValue.symm
  next hdiffer =>
    obtain ⟨keyed, hset⟩ := editFor_of_some hafter
    rw [hset] at hedit
    simp only [MergedEdit.Heard, hedit] at hheard
    obtain ⟨hcontents, htrue⟩ :=
      ConfigDocument.insert_spec (tomlValueToItem new) hlast hheard
    refine carried_of_edit hedit ?_ htrue
    change Same _ (.table (contents (ConfigDocument.insert merged.segments (tomlValueToItem new)
      document.entries).1))
    rw [hput, hcontents, content_tomlValueToItem]
    rw [hentries] at hsame
    exact hsame.putAt hkeyed document.keyed

theorem carried_of_clear {last : Str} (hsame : Same config.value document.content)
    (hlast : merged.segments.getLast? = some last)
    (hmerge : clearBelow last merged.segments.dropLast config.value = .ok merged.userConfig.value)
    (hedit : merged.configEdit =
      if SameOption (valueAtPath merged.segments config.value)
        (valueAtPath merged.segments merged.userConfig.value) then none
      else some (editFor merged.segments merged.userConfig)) : merged.Carried document := by
  obtain ⟨entries, inner, hentries, hget, hremove, hbefore, hafter⟩ := clearBelow_eq hmerge
  have hkeyed : Keyed (.table entries) := hentries ▸ config.keyed
  rw [List.dropLast_append_getLast? last hlast] at hbefore hafter
  rw [hbefore, hafter] at hedit
  rw [hentries] at hget hsame
  split at hedit
  next hsameValue =>
    refine carried_of_unchanged (hentries ▸ hsame) ?_ hedit
    rw [hremove, hentries]
    exact .removeAt_self hkeyed hget (Option.map_eq_none_iff.1 hsameValue)
  next hdiffer =>
    rw [editFor_of_none hafter] at hedit
    obtain ⟨inner', hget', hkeys⟩ := hsame.get_table hkeyed document.keyed hget
    obtain ⟨hcontents, hremoved⟩ := ConfigDocument.remove_spec hlast hget'
    refine carried_of_edit hedit ?_ ?_
    · change Same _ (.table (contents (ConfigDocument.remove merged.segments document.entries).1))
      rw [hremove, hcontents]
      exact hsame.removeAt hkeyed document.keyed
    · change (ConfigDocument.remove merged.segments document.entries).2 = true
      rw [hremoved, hkeys]
      cases hlookup : inner.lookup last with
      | some found => rfl
      | none =>
        rw [hlookup] at hdiffer
        exact absurd rfl hdiffer

theorem carried_of_heard (hsame : Same config.value document.content)
    (h : service.mergeEdit config edit = .ok merged) (hheard : merged.Heard config document) :
    merged.Carried document := by
  obtain ⟨last, value, hlast, hmerge, hedit⟩ := mergeEdit_eq h
  cases value with
  | some value =>
    simp only [applyMerge, hlast] at hmerge
    exact carried_of_set hsame hlast hmerge hedit hheard
  | none =>
    simp only [applyMerge, hlast] at hmerge
    exact carried_of_clear hsame hlast hmerge hedit

end Edits

theorem segments_of_mergeEdit [DecidableEq σ] {service : ConfigService σ κ}
    {config : ConfigTable σ} {edit : Edit σ} {merged : MergedEdit σ}
    (h : service.mergeEdit config edit = .ok merged) :
    parseKeyPath edit.keyPath = .ok merged.segments := by
  obtain ⟨segments, hsegments, h⟩ := Result.exists_of_bind_eq_ok h
  obtain ⟨value, -, h⟩ := Result.exists_of_bind_eq_ok h
  obtain ⟨userConfig, -, h⟩ := Result.exists_of_bind_eq_ok h
  have heq : merged.segments = segments := by
    split at h <;>
    · obtain rfl := Except.ok.inj h
      rfl
  rw [heq]
  cases hpath : parseKeyPath edit.keyPath with
  | error message =>
    rw [hpath] at hsegments
    cases hsegments
  | ok found =>
    rw [hpath] at hsegments
    exact congrArg Except.ok (Except.ok.inj hsegments)

/-! ## A batch of edits -/

theorem foldl_applyEdit (configEdits : List (ConfigEdit σ)) (document : TomlDocument σ)
    (mutated : Bool) :
    configEdits.foldl (fun result edit =>
      let applied := applyEdit edit result.1
      (applied.1, result.2 || applied.2)) (document, mutated) =
      ((applyAll configEdits document).1, mutated || (applyAll configEdits document).2) := by
  induction configEdits generalizing document mutated with
  | nil => exact Prod.ext rfl (Bool.or_false mutated).symm
  | cons edit configEdits ih =>
    rw [List.foldl_cons, ih]
    conv_rhs => rw [applyAll, List.foldl_cons, ih]
    rw [Bool.false_or, Bool.or_assoc]

theorem applyAll_cons (edit : ConfigEdit σ) (configEdits : List (ConfigEdit σ))
    (document : TomlDocument σ) :
    applyAll (edit :: configEdits) document =
      ((applyAll configEdits (applyEdit edit document).1).1,
        (applyEdit edit document).2 || (applyAll configEdits (applyEdit edit document).1).2) := by
  rw [applyAll, List.foldl_cons, foldl_applyEdit, Bool.false_or]

theorem applyBlocking_error {configEdits : List (ConfigEdit σ)} {writes : Bool}
    {file file' : Option (TomlDocument σ)} {err : PersistError}
    (h : applyBlocking configEdits writes file = (.error err, file')) : file' = file := by
  unfold applyBlocking at h
  split at h
  · cases h
  · split at h
    · exact (Prod.mk.inj h).2.symm
    next document =>
      cases hmutated : (applyAll configEdits document).2 with
      | false =>
        simp only [hmutated, Bool.false_eq_true, if_false] at h
        cases h
      | true =>
        simp only [hmutated, if_true] at h
        split at h
        · cases h
        · exact (Prod.mk.inj h).2.symm

theorem applyBlocking_ok {configEdits : List (ConfigEdit σ)} {document : TomlDocument σ}
    {writes : Bool} {file' : Option (TomlDocument σ)}
    (hmutated : configEdits ≠ [] → (applyAll configEdits document).2 = true)
    (h : applyBlocking configEdits writes (some document) = (.ok (), file')) :
    file' = some (applyAll configEdits document).1 := by
  unfold applyBlocking at h
  split at h
  next hempty =>
    obtain rfl := List.isEmpty_iff.1 hempty
    exact (Prod.mk.inj h).2.symm
  next hne =>
    have hne : configEdits ≠ [] := fun heq => hne (List.isEmpty_iff.2 heq)
    simp only [hmutated hne, if_true] at h
    split at h
    · exact (Prod.mk.inj h).2.symm
    · cases h

theorem load_eq {service : ConfigService σ κ} {params : WriteParams σ}
    {file : Option (TomlDocument σ)} {loaded : LoadedLayers σ} (h : service.load params file = .ok loaded) :
    ∃ document, file = some document ∧ service.loadUserConfig document = some loaded.userConfig := by
  obtain ⟨providedPath, -, h⟩ := Result.exists_of_bind_eq_ok h
  split at h
  next lower upper userConfig hothers hload =>
    obtain rfl := Except.ok.inj h
    exact Option.bind_eq_some_iff.1 hload
  · cases h

section Batch

variable [DecidableEq σ] {service : ConfigService σ κ} {config userConfig : ConfigTable σ}
  {document : TomlDocument σ} {edits : List (Edit σ)} {mergeds : List (MergedEdit σ)}

/-- The document hears each edit, in the state that the edits before have left. -/
def BatchHeard (service : ConfigService σ κ) :
    List (Edit σ) → ConfigTable σ → TomlDocument σ → Prop
  | [], _, _ => True
  | edit :: edits, config, document =>
    ∀ merged, service.mergeEdit config edit = .ok merged →
      merged.Heard config document ∧
        BatchHeard service edits merged.userConfig (merged.written document)

theorem carried_batch (hsame : Same config.value document.content)
    (h : service.mergeEdits config edits = .ok (userConfig, mergeds))
    (hheard : BatchHeard service edits config document) :
    Same userConfig.value (applyAll (mergeds.filterMap MergedEdit.configEdit) document).1.content ∧
      (mergeds.filterMap MergedEdit.configEdit ≠ [] →
        (applyAll (mergeds.filterMap MergedEdit.configEdit) document).2 = true) := by
  induction edits generalizing config document mergeds with
  | nil =>
    obtain ⟨rfl, rfl⟩ := Prod.mk.inj (Except.ok.inj h)
    exact ⟨hsame, fun hne => absurd rfl hne⟩
  | cons edit edits ih =>
    obtain ⟨merged, hmerged, h⟩ := Result.exists_of_bind_eq_ok h
    obtain ⟨⟨userConfig', rest⟩, hrest, h⟩ := Result.exists_of_bind_eq_ok h
    obtain ⟨rfl, rfl⟩ := Prod.mk.inj (Except.ok.inj h)
    obtain ⟨hfirst, hlater⟩ := hheard merged hmerged
    obtain ⟨hcarried, htrue⟩ := carried_of_heard hsame hmerged hfirst
    obtain ⟨hwritten, hmutated⟩ := ih hcarried hrest hlater
    cases hedit : merged.configEdit with
    | none =>
      simp only [MergedEdit.written, hedit] at hwritten hmutated
      rw [List.filterMap_cons_none hedit]
      exact ⟨hwritten, hmutated⟩
    | some configEdit =>
      simp only [MergedEdit.written, hedit] at hwritten
      rw [List.filterMap_cons_some hedit, applyAll_cons, htrue configEdit hedit]
      exact ⟨hwritten, fun _ => rfl⟩

/-- What is validated is what is written: with `Ok` the file has the merged and validated config, and
the version that is returned is that of the file, as a later read computes it when loading leaves
the config as the file spells it; with an error the file is as it was. -/
structure Faithful (service : ConfigService σ κ) (params : WriteParams σ) (writes : Bool)
    (file : Option (TomlDocument σ)) : Prop where
  written : ∀ response file', service.applyEdits params writes file = (.ok response, file') →
    ∃ prepared document, service.prepare params file = .ok prepared ∧ file' = some document ∧
      service.validateConfig prepared.userConfig.value = .ok () ∧
      Same prepared.userConfig.value document.content ∧
      response.version = service.versionForToml document.content ∧
      ∀ loaded, service.loadUserConfig document = some loaded →
        Same loaded.value document.content →
        service.versionForToml loaded.value = response.version
  unchanged : ∀ err file', service.applyEdits params writes file = (.error err, file') →
    file' = file

theorem prepareLoaded_eq {params : WriteParams σ} {loaded : LoadedLayers σ}
    {prepared : Prepared σ} (h : service.prepareLoaded params loaded = .ok prepared) :
    service.checkVersion params loaded.userConfig = .ok () ∧
      service.mergeEdits loaded.userConfig params.edits =
        .ok (prepared.userConfig, prepared.merged) ∧
      service.validateConfig prepared.userConfig.value = .ok () ∧
      prepared.response.version = service.versionForToml prepared.userConfig.value := by
  obtain ⟨⟨⟩, hversion, h⟩ := Result.exists_of_bind_eq_ok h
  obtain ⟨⟨userConfig, merged⟩, hmerge, h⟩ := Result.exists_of_bind_eq_ok h
  obtain ⟨_, hvalid, h⟩ := Result.exists_of_bind_eq_ok h
  obtain ⟨-, -, h⟩ := Result.exists_of_bind_eq_ok h
  obtain rfl := Except.ok.inj h
  refine ⟨hversion, hmerge, ?_, rfl⟩
  cases hconfig : service.validateConfig userConfig.value with
  | ok _ => rfl
  | error err =>
    simp only [ConfigService.validate, hconfig] at hvalid
    cases hvalid

theorem not_faithful {params : WriteParams σ} {writes : Bool} {file : Option (TomlDocument σ)}
    (validated written : TomlValue σ)
    (hok : (service.applyEdits params writes file).1.toOption.isSome)
    (hvalidated : (service.prepare params file).toOption.map (fun prepared =>
      prepared.userConfig.value) = some validated)
    (hwritten : (service.applyEdits params writes file).2.map TomlDocument.content = some written)
    (hdiffer : ¬Same validated written) : ¬Faithful service params writes file := by
  intro hfaithful
  obtain ⟨response, hresponse⟩ := Option.isSome_iff_exists.1 hok
  obtain ⟨prepared, document, hprepared, hfile, -, hsame, -⟩ := hfaithful.written response
    (service.applyEdits params writes file).2 (Prod.ext (Result.toOption_eq_some.1 hresponse) rfl)
  rw [hprepared] at hvalidated
  simp only [hfile] at hwritten
  obtain rfl := Option.some.inj hvalidated
  obtain rfl := Option.some.inj hwritten
  exact hdiffer hsame

end Batch

/-! ## Services on fixed inputs -/

/-- Two fields of `ConfigToml`. -/
structure SampleConfigToml where
  modelInstructionsFile : Option Str
  model : Option Str

def stringField (key : String) : TomlValue Str → Except Str (Option Str)
  | .table entries =>
    match entries.lookup key.toList with
    | some (.scalar text) => .ok (some text)
    | some _ => .error "invalid type".toList
    | none => .ok none
  | _ => .error "invalid type".toList

def absolutePath (base : Option Str) (path : Str) : Except Str Str :=
  if Str.startsWith path ['/'] then .ok path
  else
    match base with
    | some base => .ok (base ++ '/' :: path)
    | none => .error "AbsolutePathBuf deserialized without a base path".toList

def setField (key : String) (value : Option Str) (config : ConfigTable Str) : ConfigTable Str :=
  match value with
  | some text =>
    ⟨.table (insertEntry key.toList (.scalar text) (entriesOf config.value)), rfl, by
      obtain ⟨entries, hentries, hkeyed⟩ := exists_entries config
      rw [hentries]
      exact hkeyed.insertEntry (.scalar text) _⟩
  | none => config

/-- A service in `/h`, without other layers. -/
def sampleService : ConfigService Str SampleConfigToml where
  codexHome := "/h".toList
  allowedPath := "/h/config.toml".toList
  fromAbsolutePath := some
  pathsMatch := fun expected provided => expected = provided
  others := some ([], [])
  tryInto base value := do
    let path ← stringField "model_instructions_file" value
    let model ← stringField "model" value
    match path with
    | some path => return ⟨some (← absolutePath base path), model⟩
    | none => return ⟨none, model⟩
  tryFrom config :=
    some (setField "model_instructions_file" config.modelInstructionsFile
      (setField "model" config.model ⟨.table [], rfl, .nil⟩))
  fingerprint value := value.leaves.flatMap fun leaf => dotted leaf.1 ++ '=' :: leaf.2
  invalidValue := fun _ => []

def setting (keyPath value : String) : WriteParams Str :=
  ⟨none, none, [⟨keyPath.toList, .scalar (some value.toList), .replace⟩]⟩

def documentOf (key : String) (item : TomlItem Str) (h : item.content.Keyed) : TomlDocument Str where
  entries := [(key.toList, item)]
  keyed := .table (List.nodup_singleton _) fun entry hentry => by
    rw [List.mem_singleton.1 hentry]
    exact h

def themeDocument : TomlDocument Str :=
  documentOf "tui" (.value (.table [("theme".toList, .scalar "light".toList)]))
    (.table (List.nodup_singleton _) (by simpa using .scalar _))

theorem theme_heard {config : ConfigTable Str}
    (hload : sampleService.loadUserConfig themeDocument = some config) :
    Same config.value themeDocument.content ∧
      BatchHeard sampleService (setting "tui.theme" "dark").edits config themeDocument := by
  have hconfig : config.value = themeDocument.content := by
    have hvalue : (sampleService.loadUserConfig themeDocument).map ConfigTable.value =
        some themeDocument.content := by decide +kernel
    rw [hload] at hvalue
    exact Option.some.inj hvalue
  refine ⟨congrArg canonical hconfig, fun merged hmerged => ⟨?_, trivial⟩⟩
  have hsegments : merged.segments = ["tui".toList, "theme".toList] := by
    have hpath : parseKeyPath "tui.theme".toList = .ok ["tui".toList, "theme".toList] := by
      decide +kernel
    exact Except.ok.inj ((segments_of_mergeEdit hmerged).symm.trans hpath)
  refine MergedEdit.heard_of_clear ?_ ?_
  · rw [hsegments]
    exact fun hrefuses => hrefuses
  · rw [hsegments, hconfig]
    exact fun hpasses => hpasses

def relativePath : TomlDocument Str :=
  documentOf "model_instructions_file" (.value (.scalar "x.md".toList)) (.scalar _)

def arrayOfBookmarks : TomlDocument Str :=
  documentOf "bookmarks" (.arrayOfTables [[("dir".toList, .scalar "d".toList)]]) <| .array fun item
      hitem => by
    rw [List.mem_singleton.1 hitem]
    exact .table (List.nodup_singleton _) (by simpa using .scalar _)

end SheriMl.Config
