import Mathlib.Data.Char
import Mathlib.Data.List.Lex
import Mathlib.Data.List.Sort
import SheriMl.Lib.Toml

/-!
# TOML values up to the order of keys

A table is a map, and the order of its entries tells nothing: `canonical` sorts them. Tables whose
keys are distinct have one canonical form if and only if they have the same values at each key
(`canonical_table_eq_iff`).
-/

universe u

namespace TomlValue

open List

variable {σ : Type u} {value value' : TomlValue σ} {entries entries' : List (Str × TomlValue σ)}
  {key : Str}

section DecidableEq

variable [DecidableEq σ]

mutual

def decEq : (value value' : TomlValue σ) → Decidable (value = value')
  | .scalar value, .scalar value' =>
    decidable_of_iff (value = value') ⟨congrArg _, scalar.inj⟩
  | .array items, .array items' =>
    match decEqItems items items' with
    | isTrue h => isTrue (congrArg _ h)
    | isFalse h => isFalse fun heq => h (array.inj heq)
  | .table entries, .table entries' =>
    match decEqEntries entries entries' with
    | isTrue h => isTrue (congrArg _ h)
    | isFalse h => isFalse fun heq => h (table.inj heq)
  | .scalar _, .array _ | .scalar _, .table _ | .array _, .scalar _ | .array _, .table _
  | .table _, .scalar _ | .table _, .array _ => isFalse (by simp)

def decEqItems : (items items' : List (TomlValue σ)) → Decidable (items = items')
  | [], [] => isTrue rfl
  | item :: items, item' :: items' =>
    match decEq item item', decEqItems items items' with
    | isTrue h, isTrue h' => isTrue (by rw [h, h'])
    | isFalse h, _ => isFalse fun heq => h (List.cons.inj heq).1
    | _, isFalse h => isFalse fun heq => h (List.cons.inj heq).2
  | [], _ :: _ | _ :: _, [] => isFalse (by simp)

def decEqEntries : (entries entries' : List (Str × TomlValue σ)) → Decidable (entries = entries')
  | [], [] => isTrue rfl
  | (key, value) :: entries, (key', value') :: entries' =>
    match decEq value value', decEqEntries entries entries' with
    | isTrue h, isTrue h' => decidable_of_iff (key = key') (by simp [h, h'])
    | isFalse h, _ => isFalse fun heq => h (Prod.mk.inj (List.cons.inj heq).1).2
    | _, isFalse h => isFalse fun heq => h (List.cons.inj heq).2
  | [], _ :: _ | _ :: _, [] => isFalse (by simp)

end

instance : DecidableEq (TomlValue σ) := decEq

end DecidableEq

def sortKeys (entries : List (Str × TomlValue σ)) : List (Str × TomlValue σ) :=
  entries.insertionSort fun entry entry' => entry.1 ≤ entry'.1

mutual

/-- The value with the entries of all its tables in the order of their keys. -/
def canonical : TomlValue σ → TomlValue σ
  | .scalar value => .scalar value
  | .array items => .array (canonicalItems items)
  | .table entries => .table (sortKeys (canonicalEntries entries))

def canonicalItems : List (TomlValue σ) → List (TomlValue σ)
  | [] => []
  | item :: items => item.canonical :: canonicalItems items

def canonicalEntries : List (Str × TomlValue σ) → List (Str × TomlValue σ)
  | [] => []
  | (key, value) :: entries => (key, value.canonical) :: canonicalEntries entries

end

/-- The values are equal as maps. -/
def Same (value value' : TomlValue σ) : Prop := value.canonical = value'.canonical

instance [DecidableEq σ] : Decidable (Same value value') :=
  inferInstanceAs (Decidable (value.canonical = value'.canonical))

namespace Same

theorem refl (value : TomlValue σ) : Same value value := Eq.refl _

theorem symm (h : Same value value') : Same value' value := Eq.symm h

theorem trans {value'' : TomlValue σ} (h : Same value value') (h' : Same value' value'') :
    Same value value'' := Eq.trans h h'

end Same

/-! ## Tables -/

theorem keys_canonicalEntries (entries : List (Str × TomlValue σ)) :
    (canonicalEntries entries).map Prod.fst = entries.map Prod.fst := by
  induction entries with
  | nil => rfl
  | cons entry entries ih =>
    obtain ⟨key, value⟩ := entry
    rw [canonicalEntries, map_cons, ih, map_cons]

theorem lookup_canonicalEntries (entries : List (Str × TomlValue σ)) (key : Str) :
    (canonicalEntries entries).lookup key = (entries.lookup key).map canonical := by
  induction entries with
  | nil => rfl
  | cons entry entries ih =>
    obtain ⟨key', value⟩ := entry
    rw [canonicalEntries]
    by_cases hkey : key = key'
    · subst hkey
      rw [lookup_cons_self, lookup_cons_self, Option.map_some]
    · rw [lookup_cons_of_ne hkey, lookup_cons_of_ne hkey, ih]

theorem perm_sortKeys (entries : List (Str × TomlValue σ)) : (sortKeys entries).Perm entries :=
  perm_insertionSort _ _

theorem nodup_sortKeys (hkeys : (entries.map Prod.fst).Nodup) :
    ((sortKeys entries).map Prod.fst).Nodup :=
  ((perm_sortKeys entries).map Prod.fst).nodup_iff.2 hkeys

/-- Distinct keys make the order strict. -/
theorem pairwise_sortKeys (hkeys : (entries.map Prod.fst).Nodup) :
    (sortKeys entries).Pairwise fun entry entry' => entry.1 < entry'.1 := by
  have hsorted : (sortKeys entries).Pairwise fun entry entry' => entry.1 ≤ entry'.1 :=
    pairwise_insertionSort _ _
  have hdistinct := pairwise_map.1 (nodup_sortKeys hkeys)
  exact (hsorted.and hdistinct).imp fun h => lt_of_le_of_ne h.1 h.2

theorem lookup_sortKeys (hkeys : (entries.map Prod.fst).Nodup) (key : Str) :
    (sortKeys entries).lookup key = entries.lookup key := by
  refine Option.ext fun value => ?_
  rw [lookup_eq_some_iff (nodup_sortKeys hkeys), lookup_eq_some_iff hkeys]
  exact (perm_sortKeys entries).mem_iff

/-- Entries in the order of distinct keys are told by the values at the keys. -/
theorem sortKeys_congr (hkeys : (entries.map Prod.fst).Nodup)
    (hkeys' : (entries'.map Prod.fst).Nodup)
    (h : ∀ key, entries.lookup key = entries'.lookup key) :
    sortKeys entries = sortKeys entries' := by
  have hmem : ∀ entry, entry ∈ entries ↔ entry ∈ entries' := fun entry => by
    rw [← lookup_eq_some_iff hkeys, ← lookup_eq_some_iff hkeys', h]
  have hperm : entries.Perm entries' :=
    (perm_ext_iff_of_nodup hkeys.of_map hkeys'.of_map).2 hmem
  have hsorted := ((perm_sortKeys entries).trans hperm).trans (perm_sortKeys entries').symm
  refine hsorted.eq_of_pairwise ?_ (pairwise_sortKeys hkeys) (pairwise_sortKeys hkeys')
  intro entry entry' _ _ hlt hgt
  exact absurd hgt (lt_asymm hlt)

theorem canonical_table_eq_iff (hkeys : (entries.map Prod.fst).Nodup)
    (hkeys' : (entries'.map Prod.fst).Nodup) :
    Same (.table entries) (.table entries') ↔
      ∀ key, (entries.lookup key).map canonical = (entries'.lookup key).map canonical := by
  rw [← keys_canonicalEntries] at hkeys hkeys'
  simp only [Same, canonical, table.injEq]
  constructor
  · intro h key
    rw [← lookup_canonicalEntries, ← lookup_canonicalEntries, ← lookup_sortKeys hkeys, h,
      lookup_sortKeys hkeys']
  · intro h
    refine sortKeys_congr hkeys hkeys' fun key => ?_
    rw [lookup_canonicalEntries, lookup_canonicalEntries, h]

theorem Same.cases (h : Same value value') :
    (∃ entries entries', value = .table entries ∧ value' = .table entries') ∨
      value.isTable = false ∧ value'.isTable = false := by
  cases value <;> cases value' <;> simp [Same, canonical, isTable] at h ⊢

theorem Same.insertEntry (hkeys : (entries.map Prod.fst).Nodup)
    (hkeys' : (entries'.map Prod.fst).Nodup) (h : Same (.table entries) (.table entries'))
    (hvalue : Same value value') (key : Str) :
    Same (.table (insertEntry key value entries)) (.table (insertEntry key value' entries')) := by
  rw [canonical_table_eq_iff (nodup_insertEntry hkeys) (nodup_insertEntry hkeys')]
  intro key'
  rw [lookup_insertEntry, lookup_insertEntry]
  split
  · exact congrArg some hvalue
  · exact (canonical_table_eq_iff hkeys hkeys').1 h key'

/-- A value laid over itself. -/
theorem Same.insertEntry_self (hkeys : (entries.map Prod.fst).Nodup)
    (hlookup : entries.lookup key = some value') (hvalue : Same value value') :
    Same (.table (TomlValue.insertEntry key value entries)) (.table entries) := by
  rw [canonical_table_eq_iff (nodup_insertEntry hkeys) hkeys]
  intro key'
  rw [lookup_insertEntry]
  split
  next heq =>
    rw [heq, hlookup]
    exact congrArg some hvalue
  · rfl

/-! ## Removal -/

def removeEntry (key : Str) (entries : List (Str × TomlValue σ)) : List (Str × TomlValue σ) :=
  entries.filter fun entry => entry.1 ≠ key

theorem lookup_removeEntry (key key' : Str) (entries : List (Str × TomlValue σ)) :
    (removeEntry key entries).lookup key' =
      if key' = key then none else entries.lookup key' := by
  induction entries with
  | nil =>
    rw [removeEntry, filter_nil, lookup_nil, ite_self]
  | cons entry entries ih =>
    rw [removeEntry] at ih ⊢
    obtain ⟨first, value⟩ := entry
    by_cases hfirst : first = key
    · rw [filter_cons_of_neg (by simpa using hfirst), ih]
      split
      · rfl
      next hne => rw [lookup_cons_of_ne (hfirst ▸ hne)]
    · rw [filter_cons_of_pos (by simpa using hfirst)]
      by_cases hkey : key' = first
      · subst hkey
        rw [lookup_cons_self, lookup_cons_self, if_neg hfirst]
      · rw [lookup_cons_of_ne hkey, lookup_cons_of_ne hkey, ih]

theorem nodup_removeEntry (hkeys : (entries.map Prod.fst).Nodup) :
    ((removeEntry key entries).map Prod.fst).Nodup :=
  hkeys.sublist (filter_sublist.map Prod.fst)

theorem Same.removeEntry (hkeys : (entries.map Prod.fst).Nodup)
    (hkeys' : (entries'.map Prod.fst).Nodup) (h : Same (.table entries) (.table entries'))
    (key : Str) :
    Same (.table (removeEntry key entries)) (.table (removeEntry key entries')) := by
  rw [canonical_table_eq_iff (nodup_removeEntry hkeys) (nodup_removeEntry hkeys')]
  intro key'
  rw [lookup_removeEntry, lookup_removeEntry]
  split
  · rfl
  · exact (canonical_table_eq_iff hkeys hkeys').1 h key'

/-! ## Keyed tables -/

theorem Keyed.keys (h : Keyed (.table entries)) : (entries.map Prod.fst).Nodup := by
  cases h with
  | table hkeys hentries => exact hkeys

theorem Keyed.lookup (h : Keyed (.table entries)) (hlookup : entries.lookup key = some value) :
    value.Keyed := by
  cases h with
  | table hkeys hentries => exact hentries _ ((lookup_eq_some_iff hkeys).1 hlookup)

theorem Keyed.insertEntry (h : Keyed (.table entries)) (hvalue : value.Keyed) (key : Str) :
    Keyed (.table (insertEntry key value entries)) := by
  cases h with
  | table hkeys hentries =>
    refine .table (nodup_insertEntry hkeys) fun entry hentry => ?_
    rcases mem_insertEntry hentry with rfl | hentry
    · exact hvalue
    · exact hentries entry hentry

theorem Keyed.removeEntry (h : Keyed (.table entries)) (key : Str) :
    Keyed (.table (removeEntry key entries)) := by
  cases h with
  | table hkeys hentries =>
    exact .table (nodup_removeEntry hkeys) fun entry hentry =>
      hentries entry (mem_of_mem_filter hentry)

theorem Keyed.nil : Keyed (.table ([] : List (Str × TomlValue σ))) :=
  .table nodup_nil fun entry hentry => by cases hentry

/-! ## Updates at a path -/

/-- The entries of a table, and none where there is no table. -/
def entriesAt (key : Str) (entries : List (Str × TomlValue σ)) : List (Str × TomlValue σ) :=
  match entries.lookup key with
  | some (.table inner) => inner
  | _ => []

theorem entriesAt_of_lookup {inner : List (Str × TomlValue σ)}
    (h : entries.lookup key = some (.table inner)) : entriesAt key entries = inner := by
  rw [entriesAt, h]

theorem Keyed.entriesAt (h : Keyed (.table entries)) (key : Str) :
    Keyed (.table (entriesAt key entries)) := by
  unfold TomlValue.entriesAt
  split
  next inner hlookup => exact h.lookup hlookup
  · exact .nil

/-- The value of `last` in the table at a path; what is no table on the way is replaced by one. -/
def putAt (last : Str) (value : TomlValue σ) :
    List Str → List (Str × TomlValue σ) → List (Str × TomlValue σ)
  | [], entries => insertEntry last value entries
  | key :: path, entries =>
    insertEntry key (.table (putAt last value path (entriesAt key entries))) entries

/-- Without `last` in the table at a path, if there is one. -/
def removeAt (last : Str) : List Str → List (Str × TomlValue σ) → List (Str × TomlValue σ)
  | [], entries => removeEntry last entries
  | key :: path, entries =>
    match entries.lookup key with
    | some (.table inner) => insertEntry key (.table (removeAt last path inner)) entries
    | _ => entries

variable {last : Str} {path : List Str}

theorem Same.lookup (hentries : Keyed (.table entries)) (hentries' : Keyed (.table entries'))
    (h : Same (.table entries) (.table entries')) (key : Str) :
    (entries.lookup key).map canonical = (entries'.lookup key).map canonical :=
  (canonical_table_eq_iff hentries.keys hentries'.keys).1 h key

theorem Same.tableAt (hentries : Keyed (.table entries)) (hentries' : Keyed (.table entries'))
    (h : Same (.table entries) (.table entries')) (key : Str) :
    (∃ inner inner', entries.lookup key = some (.table inner) ∧
      entries'.lookup key = some (.table inner') ∧ Same (.table inner) (.table inner')) ∨
    (∀ inner, entries.lookup key ≠ some (.table inner)) ∧
      ∀ inner, entries'.lookup key ≠ some (.table inner) := by
  have hlookup := h.lookup hentries hentries' key
  cases hvalue : entries.lookup key with
  | none =>
    rw [hvalue, Option.map_none, eq_comm, Option.map_eq_none_iff] at hlookup
    simp [hlookup]
  | some value =>
    rw [hvalue, Option.map_some, eq_comm, Option.map_eq_some_iff] at hlookup
    obtain ⟨value', hvalue', hsame⟩ := hlookup
    have hsame : Same value value' := hsame.symm
    rcases hsame.cases with ⟨inner, inner', rfl, rfl⟩ | ⟨hvalue, hvalue''⟩
    · exact .inl ⟨inner, inner', rfl, hvalue', hsame⟩
    · refine .inr ⟨fun inner heq => ?_, fun inner heq => ?_⟩
      · rw [Option.some.inj heq] at hvalue
        cases hvalue
      · rw [hvalue'] at heq
        rw [Option.some.inj heq] at hvalue''
        cases hvalue''

theorem Same.entriesAt (hentries : Keyed (.table entries)) (hentries' : Keyed (.table entries'))
    (h : Same (.table entries) (.table entries')) (key : Str) :
    Same (.table (entriesAt key entries)) (.table (entriesAt key entries')) := by
  rcases h.tableAt hentries hentries' key with ⟨inner, inner', hinner, hinner', hsame⟩ | ⟨hno, hno'⟩
  · rw [entriesAt_of_lookup hinner, entriesAt_of_lookup hinner']
    exact hsame
  · have hnil : ∀ {entries : List (Str × TomlValue σ)},
        (∀ inner, entries.lookup key ≠ some (.table inner)) →
        TomlValue.entriesAt key entries = [] := fun {entries} hno => by
      unfold TomlValue.entriesAt
      split
      next inner hlookup => exact absurd hlookup (hno inner)
      · rfl
    rw [hnil hno, hnil hno']
    exact .refl _

theorem Same.putAt (hentries : Keyed (.table entries)) (hentries' : Keyed (.table entries'))
    (h : Same (.table entries) (.table entries')) :
    Same (.table (putAt last value path entries)) (.table (putAt last value path entries')) := by
  induction path generalizing entries entries' with
  | nil => exact h.insertEntry hentries.keys hentries'.keys (.refl value) last
  | cons key path ih =>
    exact h.insertEntry hentries.keys hentries'.keys
      (ih (hentries.entriesAt key) (hentries'.entriesAt key) (h.entriesAt hentries hentries' key)) key

theorem Same.removeAt (hentries : Keyed (.table entries)) (hentries' : Keyed (.table entries'))
    (h : Same (.table entries) (.table entries')) :
    Same (.table (removeAt last path entries)) (.table (removeAt last path entries')) := by
  induction path generalizing entries entries' with
  | nil => exact h.removeEntry hentries.keys hentries'.keys last
  | cons key path ih =>
    rcases h.tableAt hentries hentries' key with
      ⟨inner, inner', hinner, hinner', hsame⟩ | ⟨hno, hno'⟩
    · simp only [TomlValue.removeAt, hinner, hinner']
      exact h.insertEntry hentries.keys hentries'.keys
        (ih (hentries.lookup hinner) (hentries'.lookup hinner') hsame) key
    · have hself : ∀ {entries : List (Str × TomlValue σ)},
          (∀ inner, entries.lookup key ≠ some (.table inner)) →
          TomlValue.removeAt last (key :: path) entries = entries := fun {entries} hno => by
        unfold TomlValue.removeAt
        split
        next inner hlookup => exact absurd hlookup (hno inner)
        · rfl
      rw [hself hno, hself hno']
      exact h

/-- A path of keys that goes on after a value ends in none, unless the value is a table. -/
theorem exists_table_of_get {rest : List Str} (h : value.get (rest ++ [last]) = some value') :
    ∃ inner, value = .table inner := by
  cases value with
  | scalar | array => cases rest <;> cases h
  | table inner => exact ⟨inner, rfl⟩

theorem get_singleton (entries : List (Str × TomlValue σ)) :
    (TomlValue.table entries).get [last] = entries.lookup last := by
  rw [get]
  cases entries.lookup last <;> rfl

theorem Same.putAt_self (hentries : Keyed (.table entries))
    (hget : (TomlValue.table entries).get (path ++ [last]) = some value')
    (hvalue : Same value value') :
    Same (.table (TomlValue.putAt last value path entries)) (.table entries) := by
  induction path generalizing entries with
  | nil => exact .insertEntry_self hentries.keys ((get_singleton entries).symm.trans hget) hvalue
  | cons key path ih =>
    obtain ⟨inner, hinner, hget⟩ := Option.bind_eq_some_iff.1 hget
    obtain ⟨inner, rfl⟩ := exists_table_of_get hget
    rw [TomlValue.putAt, entriesAt_of_lookup hinner]
    exact .insertEntry_self hentries.keys hinner (ih (hentries.lookup hinner) hget)

theorem Same.removeAt_self {inner : List (Str × TomlValue σ)} (hentries : Keyed (.table entries))
    (hget : (TomlValue.table entries).get path = some (.table inner))
    (hlast : inner.lookup last = none) :
    Same (.table (TomlValue.removeAt last path entries)) (.table entries) := by
  induction path generalizing entries with
  | nil =>
    obtain rfl := TomlValue.table.inj (Option.some.inj hget)
    rw [TomlValue.removeAt, canonical_table_eq_iff (nodup_removeEntry hentries.keys) hentries.keys]
    intro key
    rw [lookup_removeEntry]
    split
    next heq => rw [heq, hlast]
    · rfl
  | cons key path ih =>
    obtain ⟨found, hfound, hget⟩ := Option.bind_eq_some_iff.1 hget
    cases found with
    | scalar | array => cases path <;> cases hget
    | table entries' =>
      simp only [TomlValue.removeAt, hfound]
      exact .insertEntry_self hentries.keys hfound (ih (hentries.lookup hfound) hget)

theorem Same.get (hvalue : value.Keyed) (hvalue' : value'.Keyed) (h : Same value value')
    {inner : TomlValue σ} (hget : value.get path = some inner) :
    ∃ inner', value'.get path = some inner' ∧ Same inner inner' := by
  induction path generalizing value value' with
  | nil =>
    obtain rfl := Option.some.inj hget
    exact ⟨value', rfl, h⟩
  | cons key path ih =>
    cases value with
    | scalar | array => cases hget
    | table entries =>
      obtain ⟨found, hfound, hget⟩ := Option.bind_eq_some_iff.1 hget
      rcases h.cases with ⟨entries₁, entries', heq, rfl⟩ | ⟨htable, -⟩
      · obtain rfl := TomlValue.table.inj heq
        have hlookup := h.lookup hvalue hvalue' key
        rw [hfound, Option.map_some, eq_comm, Option.map_eq_some_iff] at hlookup
        obtain ⟨found', hfound', hsame⟩ := hlookup
        obtain ⟨inner', hget', hinner⟩ :=
          ih (hvalue.lookup hfound) (hvalue'.lookup hfound') hsame.symm hget
        exact ⟨inner', by rw [get_table_cons, hfound', Option.bind_some, hget'], hinner⟩
      · cases htable

theorem Keyed.get {inner : TomlValue σ} (h : value.Keyed) (hget : value.get path = some inner) :
    inner.Keyed := by
  induction path generalizing value with
  | nil =>
    obtain rfl := Option.some.inj hget
    exact h
  | cons key path ih =>
    cases value with
    | scalar | array => cases hget
    | table entries =>
      obtain ⟨found, hfound, hget⟩ := Option.bind_eq_some_iff.1 hget
      exact ih (h.lookup hfound) hget

theorem Same.get_table {inner : List (Str × TomlValue σ)} (hentries : Keyed (.table entries))
    (hentries' : Keyed (.table entries')) (h : Same (.table entries) (.table entries'))
    (hget : (TomlValue.table entries).get path = some (.table inner)) :
    ∃ inner', (TomlValue.table entries').get path = some (.table inner') ∧
      ∀ key, (inner'.lookup key).isSome = (inner.lookup key).isSome := by
  obtain ⟨found, hfound, hsame⟩ := h.get hentries hentries' hget
  rcases hsame.cases with ⟨inner₁, inner', heq, rfl⟩ | ⟨htable, -⟩
  · obtain rfl := TomlValue.table.inj heq
    have hkeyed := hentries.get hget
    have hkeyed' := hentries'.get hfound
    refine ⟨inner', hfound, fun key => ?_⟩
    rw [← Option.isSome_map (f := canonical), ← hsame.lookup hkeyed hkeyed', Option.isSome_map]
  · cases htable

/-! ## Updates at other paths -/

section Apart

variable {other : List Str} {inner : TomlValue σ}

def Apart (path other : List Str) : Prop := ¬path <+: other ∧ ¬other <+: path

theorem Apart.head (h : Apart other [last]) : ∃ key rest, other = key :: rest ∧ key ≠ last := by
  cases other with
  | nil => exact absurd nil_prefix h.1
  | cons key rest =>
    refine ⟨key, rest, rfl, fun heq => h.2 ?_⟩
    rw [heq]
    exact ⟨rest, rfl⟩

theorem Apart.cons (h : Apart other (key :: path)) :
    ∃ key' rest, other = key' :: rest ∧ (key' = key → rest ≠ [] ∧ Apart rest path) := by
  cases other with
  | nil => exact absurd nil_prefix h.1
  | cons key' rest =>
    refine ⟨key', rest, rfl, fun heq => ?_⟩
    subst heq
    have hrest : Apart rest path :=
      ⟨fun hprefix => h.1 (cons_prefix_cons.2 ⟨rfl, hprefix⟩),
        fun hprefix => h.2 (cons_prefix_cons.2 ⟨rfl, hprefix⟩)⟩
    refine ⟨fun hnil => hrest.1 ?_, hrest⟩
    rw [hnil]
    exact nil_prefix

theorem get_table_of_cons {found : TomlValue σ} {rest : List Str} (hrest : rest ≠ [])
    (h : found.get rest = some inner) : ∃ entries, found = .table entries := by
  cases rest with
  | nil => exact absurd rfl hrest
  | cons key rest =>
    cases found with
    | scalar | array => cases h
    | table entries => exact ⟨entries, rfl⟩

theorem get_entriesAt (key : Str) (h : path ≠ []) :
    (TomlValue.table (entriesAt key entries)).get path = (entries.lookup key).bind (get path) := by
  obtain ⟨next, rest, rfl⟩ := exists_cons_of_ne_nil h
  rw [entriesAt]
  cases entries.lookup key with
  | none => rfl
  | some value =>
    cases value with
    | table inner => rfl
    | scalar | array => rfl

theorem get_putAt_self (last : Str) (value : TomlValue σ) (path : List Str)
    (entries : List (Str × TomlValue σ)) :
    (TomlValue.table (putAt last value path entries)).get (path ++ [last]) = some value := by
  induction path generalizing entries with
  | nil => rw [nil_append, get_singleton, putAt, lookup_insertEntry, if_pos rfl]
  | cons key path ih =>
    rw [cons_append, get_table_cons, putAt, lookup_insertEntry, if_pos rfl, Option.bind_some,
      ih]

theorem get_putAt (hapart : Apart other (path ++ [last]))
    (h : (TomlValue.table entries).get other = some inner) :
    (TomlValue.table (putAt last value path entries)).get other = some inner := by
  induction path generalizing entries other with
  | nil =>
    obtain ⟨key, rest, rfl, hne⟩ := Apart.head hapart
    rw [get_table_cons] at h ⊢
    rw [putAt, lookup_insertEntry, if_neg hne, h]
  | cons key path ih =>
    obtain ⟨key', rest, rfl, hrest⟩ := Apart.cons hapart
    rw [get_table_cons] at h ⊢
    rw [putAt, lookup_insertEntry]
    split
    next heq =>
      obtain ⟨hne, hrest⟩ := hrest heq
      obtain ⟨found, hfound, h⟩ := Option.bind_eq_some_iff.1 h
      obtain ⟨entries', rfl⟩ := get_table_of_cons hne h
      rw [entriesAt_of_lookup (heq ▸ hfound), Option.bind_some]
      exact ih hrest h
    · exact h

theorem get_removeAt_self (last : Str) (path : List Str) (entries : List (Str × TomlValue σ)) :
    (TomlValue.table (removeAt last path entries)).get (path ++ [last]) = none := by
  induction path generalizing entries with
  | nil =>
    rw [nil_append, get_singleton, removeAt, lookup_removeEntry, if_pos rfl]
  | cons key path ih =>
    rw [cons_append, get_table_cons, removeAt]
    split
    next inner hlookup => rw [lookup_insertEntry, if_pos rfl, Option.bind_some, ih]
    next hno =>
      cases hvalue : entries.lookup key with
      | none => rfl
      | some value =>
        cases value with
        | table inner => exact absurd hvalue (hno inner)
        | scalar | array => cases path <;> rfl

theorem get_removeAt (hapart : Apart other (path ++ [last]))
    (h : (TomlValue.table entries).get other = some inner) :
    (TomlValue.table (removeAt last path entries)).get other = some inner := by
  induction path generalizing entries other with
  | nil =>
    obtain ⟨key, rest, rfl, hne⟩ := Apart.head hapart
    rw [get_table_cons] at h ⊢
    rw [removeAt, lookup_removeEntry, if_neg hne, h]
  | cons key path ih =>
    obtain ⟨key', rest, rfl, hrest⟩ := Apart.cons hapart
    rw [removeAt]
    split
    next found hfound =>
      rw [get_table_cons] at h ⊢
      rw [lookup_insertEntry]
      split
      next heq =>
        obtain ⟨-, hrest⟩ := hrest heq
        rw [heq, hfound, Option.bind_some] at h
        exact ih hrest h
      · exact h
    · exact h

end Apart

end TomlValue
