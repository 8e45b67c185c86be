import SheriMl.Lib.Toml

/-!
# Merging configuration

`merge_toml_values` of `config/src/merge.rs`. A value at a path of keys that is no table comes
from the overlay, or from the base where the overlay does not reach: `get_merge_iff`.
-/

namespace SheriMl.Config

open TomlValue

universe u

variable {σ : Type u}

mutual

def mergeTomlValues (base overlay : TomlValue σ) : TomlValue σ :=
  match base, overlay with
  | .table base, .table overlay => .table (mergeEntries base overlay)
  | _, overlay => overlay

def mergeEntries (base overlay : List (Str × TomlValue σ)) : List (Str × TomlValue σ) :=
  match overlay with
  | [] => base
  | (key, value) :: overlay =>
    match base.lookup key with
    | some existing => mergeEntries (insertEntry key (mergeTomlValues existing value) base) overlay
    | none => mergeEntries (insertEntry key value base) overlay

end

/-- What is merged at a key that the overlay has. -/
def mergedAt (existing : Option (TomlValue σ)) (value : TomlValue σ) : TomlValue σ :=
  match existing with
  | some existing => mergeTomlValues existing value
  | none => value

variable {base overlay value inner : TomlValue σ} {key : Str} {path : List Str}
  {entries entries' : List (Str × TomlValue σ)}

theorem mergeEntries_cons (base : List (Str × TomlValue σ)) (key : Str) (value : TomlValue σ)
    (overlay : List (Str × TomlValue σ)) : mergeEntries base ((key, value) :: overlay) =
      mergeEntries (insertEntry key (mergedAt (base.lookup key) value) base) overlay := by
  rw [mergeEntries]
  split
  next existing hlookup =>
    rw [hlookup]
    rfl
  next hlookup =>
    rw [hlookup]
    rfl

theorem merge_tables (entries entries' : List (Str × TomlValue σ)) :
    mergeTomlValues (.table entries) (.table entries') = .table (mergeEntries entries entries') := by
  rw [mergeTomlValues]

theorem merge_of_not_isTable (h : base.isTable = false ∨ overlay.isTable = false) :
    mergeTomlValues base overlay = overlay := by
  rw [mergeTomlValues]
  rintro entries entries' rfl rfl
  cases h with
  | inl h => cases h
  | inr h => cases h

theorem lookup_mergeEntries (hkeys : (entries'.map Prod.fst).Nodup) :
    (mergeEntries entries entries').lookup key =
      match entries'.lookup key with
      | some value => some (mergedAt (entries.lookup key) value)
      | none => entries.lookup key := by
  induction entries' generalizing entries with
  | nil => rw [mergeEntries, List.lookup_nil]
  | cons entry entries' ih =>
    obtain ⟨first, value⟩ := entry
    rw [List.map_cons, List.nodup_cons] at hkeys
    rw [mergeEntries_cons, ih hkeys.2]
    by_cases hkey : key = first
    · subst hkey
      -- no later entry has the key again
      have hlater : entries'.lookup key = none := by
        rw [List.lookup_eq_none_iff]
        intro entry hentry
        rw [bne_iff_ne]
        intro heq
        have hmem : entry.1 ∈ entries'.map Prod.fst := List.mem_map_of_mem hentry
        exact hkeys.1 (heq ▸ hmem)
      rw [hlater, List.lookup_cons_self, lookup_insertEntry, if_pos rfl]
    · rw [lookup_cons_of_ne hkey, lookup_insertEntry, if_neg hkey]

theorem overrides_table_cons (entries : List (Str × TomlValue σ)) (key : Str) (path : List Str) :
    (TomlValue.table entries).Overrides (key :: path) ↔
      ∃ value, entries.lookup key = some value ∧ value.Overrides path := Iff.rfl

theorem overrides_of_not_isTable (h : value.isTable = false) : value.Overrides path := by
  cases value with
  | table entries => cases h
  | array items => cases path <;> trivial
  | scalar value => cases path <;> trivial

/-- What is no table comes from the overlay, or from the base where the overlay overrides
nothing. -/
theorem get_merge_iff (hoverlay : overlay.Keyed) (hinner : inner.isTable = false) :
    (mergeTomlValues base overlay).get path = some inner ↔
      overlay.get path = some inner ∨ base.get path = some inner ∧ ¬overlay.Overrides path := by
  have hreplaced {base overlay : TomlValue σ} {path : List Str}
      (hmerged : mergeTomlValues base overlay = overlay)
      (hbase : base.get path = some inner → overlay.Overrides path) :
      (mergeTomlValues base overlay).get path = some inner ↔
        overlay.get path = some inner ∨
          base.get path = some inner ∧ ¬overlay.Overrides path := by
    rw [hmerged]
    constructor
    · exact Or.inl
    · rintro (h | ⟨h, hnot⟩)
      · exact h
      · exact absurd (hbase h) hnot
  induction hoverlay generalizing base path with
  | scalar value | array hitems ih =>
    exact hreplaced (merge_of_not_isTable (.inr rfl)) fun _ => overrides_of_not_isTable rfl
  | @table entries' hkeys hentries ih =>
    by_cases htable : base.isTable = true
    · cases base with
      | scalar value => cases htable
      | array items => cases htable
      | table entries =>
        rw [merge_tables]
        cases path with
        | nil =>
          -- both are tables, and so is what they merge to
          constructor
          · intro h
            rw [← Option.some.inj h] at hinner
            cases hinner
          · rintro (h | ⟨-, hnot⟩)
            · rw [← Option.some.inj h] at hinner
              cases hinner
            · exact absurd trivial hnot
        | cons key path =>
          rw [get_table_cons, get_table_cons, get_table_cons, overrides_table_cons,
            lookup_mergeEntries hkeys]
          cases hlookup' : entries'.lookup key with
          | none => simp
          | some value =>
            have hentry := (lookup_eq_some_iff hkeys).1 hlookup'
            cases hlookup : entries.lookup key with
            | none => simp [mergedAt]
            | some existing =>
              have hvalue : (mergeTomlValues existing value).get path = some inner ↔
                  value.get path = some inner ∨
                    existing.get path = some inner ∧ ¬value.Overrides path :=
                ih (key, value) hentry
              simpa [mergedAt] using hvalue
    · rw [Bool.not_eq_true] at htable
      refine hreplaced (merge_of_not_isTable (.inl htable)) ?_
      intro hget
      cases path with
      | nil => trivial
      | cons key path =>
        rw [get_cons_of_not_isTable htable] at hget
        cases hget

theorem keyed_merge (hbase : base.Keyed) (hoverlay : overlay.Keyed) :
    (mergeTomlValues base overlay).Keyed := by
  induction hoverlay generalizing base with
  | scalar value =>
    rw [merge_of_not_isTable (.inr rfl)]
    exact .scalar value
  | array hitems ih =>
    rw [merge_of_not_isTable (.inr rfl)]
    exact .array hitems
  | @table entries' hkeys hentries ih =>
    cases hbase with
    | scalar value | array hitems =>
      rw [merge_of_not_isTable (.inl rfl)]
      exact .table hkeys hentries
    | @table entries hkeys' hentries' =>
      rw [merge_tables]
      clear hkeys
      induction entries' generalizing entries with
      | nil =>
        rw [mergeEntries]
        exact .table hkeys' hentries'
      | cons entry entries' ihentries =>
        obtain ⟨key, value⟩ := entry
        rw [mergeEntries_cons]
        refine ihentries ?_ ?_ (nodup_insertEntry hkeys') ?_
        · exact fun entry hentry => hentries entry (List.mem_cons_of_mem _ hentry)
        · exact fun entry hentry => ih entry (List.mem_cons_of_mem _ hentry)
        intro entry hentry
        rcases mem_insertEntry hentry with rfl | hentry
        · cases hlookup : entries.lookup key with
          | none => exact hentries _ List.mem_cons_self
          | some existing =>
            have hexisting := hentries' _ ((lookup_eq_some_iff hkeys').1 hlookup)
            exact ih _ List.mem_cons_self hexisting
        · exact hentries' entry hentry

theorem insertEntry_of_lookup (h : entries.lookup key = some value) :
    insertEntry key value entries = entries := by
  induction entries with
  | nil => cases h
  | cons entry entries ih =>
    obtain ⟨first, value'⟩ := entry
    rw [insertEntry]
    by_cases hkey : first = key
    · subst hkey
      rw [List.lookup_cons_self] at h
      rw [if_pos rfl, Option.some.inj h]
    · rw [lookup_cons_of_ne (Ne.symm hkey)] at h
      rw [if_neg hkey, ih h]

/-- Entries that the overlay has been merged into already. -/
theorem mergeEntries_of_merged (h : ∀ entry ∈ entries', ∃ value, entries.lookup entry.1 = some value ∧
    mergeTomlValues value entry.2 = value) : mergeEntries entries entries' = entries := by
  induction entries' with
  | nil => rw [mergeEntries]
  | cons entry entries' ih =>
    obtain ⟨value, hlookup, hmerged⟩ := h entry List.mem_cons_self
    rw [mergeEntries_cons, hlookup, mergedAt, hmerged, insertEntry_of_lookup hlookup]
    exact ih fun entry hentry => h entry (List.mem_cons_of_mem _ hentry)

/-- A layer that is applied once more changes nothing. -/
theorem merge_merge_self (hoverlay : overlay.Keyed) :
    mergeTomlValues (mergeTomlValues base overlay) overlay = mergeTomlValues base overlay := by
  induction hoverlay generalizing base with
  | scalar | array =>
    rw [merge_of_not_isTable (.inr rfl), merge_of_not_isTable (.inr rfl)]
  | @table entries' hkeys hentries ih =>
    have hself (entry : Str × TomlValue σ) (hentry : entry ∈ entries') :
        mergeTomlValues entry.2 entry.2 = entry.2 := by
      have hfirst : mergeTomlValues (.array []) entry.2 = entry.2 := merge_of_not_isTable (.inl rfl)
      have htwice : mergeTomlValues (mergeTomlValues (.array []) entry.2) entry.2 =
        mergeTomlValues (.array []) entry.2 := ih entry hentry
      rwa [hfirst] at htwice
    by_cases htable : base.isTable = false
    · rw [merge_of_not_isTable (.inl htable), merge_tables]
      refine congrArg _ (mergeEntries_of_merged fun entry hentry => ⟨entry.2, ?_, hself entry hentry⟩)
      exact (lookup_eq_some_iff hkeys).2 hentry
    · cases base with
      | scalar | array => exact absurd rfl htable
      | table entries =>
        rw [merge_tables, merge_tables]
        refine congrArg _ (mergeEntries_of_merged fun entry hentry => ?_)
        have hlookup := (lookup_eq_some_iff hkeys).2 hentry
        refine ⟨mergedAt (entries.lookup entry.1) entry.2, ?_, ?_⟩
        · rw [lookup_mergeEntries hkeys, hlookup]
        · cases entries.lookup entry.1 with
          | none => exact hself entry hentry
          | some existing => exact ih entry hentry

theorem merge_merge_self_model :
    mergeTomlValues (mergeTomlValues (.table [("model", .scalar 1)]) (.table [("model", .scalar 2)]))
        (.table [("model", .scalar 2)]) =
      mergeTomlValues (.table [("model", .scalar 1)]) (.table [("model", .scalar 2)]) :=
  merge_merge_self (.table (List.nodup_singleton _) fun entry hentry => by
    obtain rfl := List.mem_singleton.1 hentry
    exact .scalar _)

end SheriMl.Config
