import Mathlib.Data.List.Nodup
import SheriMl.Lib.Str

/-!
# TOML values

Values as trees of tables and arrays with scalars at their leaves. A leaf is told by its path,
of keys and of array indices in decimal; below the last table on its way it lies in one value
that is no table (`Keyed.mem_leaves_iff`).
-/

universe u

inductive TomlValue (σ : Type u) where
  | scalar (value : σ)
  | array (items : List (TomlValue σ))
  | table (entries : List (Str × TomlValue σ))

namespace TomlValue

open List

variable {σ : Type u} {value value' : TomlValue σ} {entries : List (Str × TomlValue σ)}
  {items : List (TomlValue σ)} {key key' : Str} {path rest : List Str} {leaf : List Str × σ}

def isTable : TomlValue σ → Bool
  | .table _ => true
  | _ => false

/-- The keys of every table are distinct. -/
inductive Keyed : TomlValue σ → Prop where
  | scalar (value : σ) : Keyed (.scalar value)
  | array {items : List (TomlValue σ)} (hitems : ∀ item ∈ items, Keyed item) :
      Keyed (.array items)
  | table {entries : List (Str × TomlValue σ)} (hkeys : (entries.map Prod.fst).Nodup)
      (hentries : ∀ entry ∈ entries, Keyed entry.2) : Keyed (.table entries)

/-- The value at a path of table keys. -/
def get : List Str → TomlValue σ → Option (TomlValue σ)
  | [], value => some value
  | key :: path, .table entries => (entries.lookup key).bind (get path)
  | _ :: _, .array _ => none
  | _ :: _, .scalar _ => none

/-- A path of table keys that ends at a value, or passes one that is no table: a value laid over
another replaces what the other has there. -/
def Overrides : List Str → TomlValue σ → Prop
  | [], _ => True
  | _ :: _, .scalar _ => True
  | _ :: _, .array _ => True
  | key :: path, .table entries => ∃ value, entries.lookup key = some value ∧ Overrides path value

mutual

/-- The scalars of a value, with their paths. -/
def leaves : TomlValue σ → List (List Str × σ)
  | .scalar value => [([], value)]
  | .array items => itemLeaves 0 items
  | .table entries => entryLeaves entries

def itemLeaves (idx : Nat) : List (TomlValue σ) → List (List Str × σ)
  | [] => []
  | item :: items =>
    (leaves item).map (fun leaf => (Nat.toDigits 10 idx :: leaf.1, leaf.2)) ++
      itemLeaves (idx + 1) items

def entryLeaves : List (Str × TomlValue σ) → List (List Str × σ)
  | [] => []
  | (key, value) :: entries =>
    (leaves value).map (fun leaf => (key :: leaf.1, leaf.2)) ++ entryLeaves entries

end

/-! ## Entries of a table -/

/-- The value of a key is replaced, or the key added. -/
def insertEntry (key : Str) (value : TomlValue σ) :
    List (Str × TomlValue σ) → List (Str × TomlValue σ)
  | [] => [(key, value)]
  | entry :: entries =>
    if entry.1 = key then (key, value) :: entries else entry :: insertEntry key value entries

theorem lookup_cons_of_ne {entry : Str × TomlValue σ} (h : key ≠ entry.1) :
    (entry :: entries).lookup key = entries.lookup key := by
  obtain ⟨key', value⟩ := entry
  rw [lookup_cons, beq_eq_false_iff_ne.2 h]

theorem lookup_eq_some_iff (hkeys : (entries.map Prod.fst).Nodup) :
    entries.lookup key = some value ↔ (key, value) ∈ entries := by
  induction entries with
  | nil =>
    constructor
    · intro h
      cases h
    · intro h
      cases h
  | cons entry entries ih =>
    obtain ⟨key', value'⟩ := entry
    rw [map_cons, nodup_cons] at hkeys
    rw [mem_cons]
    by_cases hkey : key = key'
    · subst hkey
      rw [lookup_cons_self]
      constructor
      · intro h
        exact Or.inl (by rw [Option.some.inj h])
      · rintro (h | h)
        · rw [(Prod.mk.inj h).2]
        · exact absurd (mem_map_of_mem h) hkeys.1
    · rw [lookup_cons_of_ne hkey, ih hkeys.2]
      constructor
      · exact Or.inr
      · rintro (h | h)
        · exact absurd (Prod.mk.inj h).1 hkey
        · exact h

theorem lookup_insertEntry (key key' : Str) (value : TomlValue σ)
    (entries : List (Str × TomlValue σ)) : (insertEntry key value entries).lookup key' =
      if key' = key then some value else entries.lookup key' := by
  induction entries with
  | nil =>
    rw [insertEntry]
    split
    next heq => rw [heq, lookup_cons_self]
    next hne => exact lookup_cons_of_ne hne
  | cons entry entries ih =>
    rw [insertEntry]
    by_cases hentry : entry.1 = key
    · rw [if_pos hentry]
      split
      next heq => rw [heq, lookup_cons_self]
      next hne => rw [lookup_cons_of_ne hne, lookup_cons_of_ne (hentry ▸ hne)]
    · rw [if_neg hentry]
      by_cases hkey : key' = entry.1
      · obtain ⟨first, value'⟩ := entry
        obtain rfl : key' = first := hkey
        rw [lookup_cons_self, lookup_cons_self, if_neg hentry]
      · rw [lookup_cons_of_ne hkey, lookup_cons_of_ne hkey, ih]

theorem mem_insertEntry {entry : Str × TomlValue σ} (h : entry ∈ insertEntry key value entries) :
    entry = (key, value) ∨ entry ∈ entries := by
  induction entries with
  | nil => exact Or.inl (mem_singleton.1 h)
  | cons first entries ih =>
    rw [insertEntry] at h
    split at h
    · rw [mem_cons] at h
      exact h.imp_right (mem_cons_of_mem _)
    · rw [mem_cons] at h
      rcases h with rfl | h
      · exact Or.inr mem_cons_self
      · exact (ih h).imp_right (mem_cons_of_mem _)

theorem nodup_insertEntry (hkeys : (entries.map Prod.fst).Nodup) :
    ((insertEntry key value entries).map Prod.fst).Nodup := by
  induction entries with
  | nil => exact nodup_singleton _
  | cons first entries ih =>
    rw [map_cons, nodup_cons] at hkeys
    rw [insertEntry]
    split
    next heq =>
      rw [map_cons, nodup_cons]
      exact ⟨heq ▸ hkeys.1, hkeys.2⟩
    next hne =>
      rw [map_cons, nodup_cons]
      refine ⟨?_, ih hkeys.2⟩
      intro hmem
      obtain ⟨entry, hentry, heq⟩ := mem_map.1 hmem
      rcases mem_insertEntry hentry with rfl | hentry
      · exact hne heq.symm
      · exact hkeys.1 (heq ▸ mem_map_of_mem hentry)

/-! ## Leaves -/

theorem mem_leaves_table : leaf ∈ leaves (.table entries) ↔
    ∃ entry ∈ entries, ∃ rest, (rest, leaf.2) ∈ entry.2.leaves ∧ leaf.1 = entry.1 :: rest := by
  rw [leaves]
  induction entries with
  | nil =>
    constructor
    · intro h
      cases h
    · rintro ⟨entry, h, -⟩
      cases h
  | cons entry entries ih =>
    obtain ⟨key, value⟩ := entry
    rw [entryLeaves, mem_append, ih, mem_map, exists_mem_cons_iff]
    apply or_congr_left
    constructor
    · rintro ⟨inner, hinner, rfl⟩
      exact ⟨inner.1, hinner, rfl⟩
    · rintro ⟨rest, hrest, hpath⟩
      exact ⟨(rest, leaf.2), hrest, Prod.ext hpath.symm rfl⟩

theorem get_table_cons (entries : List (Str × TomlValue σ)) (key : Str) (path : List Str) :
    (TomlValue.table entries).get (key :: path) = (entries.lookup key).bind (get path) := rfl

theorem get_cons_of_not_isTable (h : value.isTable = false) : value.get (key :: path) = none := by
  cases value with
  | table entries => cases h
  | array items => rfl
  | scalar value => rfl

/-- A leaf lies in the one value on its path that is no table. -/
theorem Keyed.mem_leaves_iff (h : value.Keyed) : leaf ∈ value.leaves ↔
    ∃ path rest inner, leaf.1 = path ++ rest ∧ value.get path = some inner ∧
      inner.isTable = false ∧ (rest, leaf.2) ∈ inner.leaves := by
  have hself {value : TomlValue σ} {leaf : List Str × σ} (htable : value.isTable = false) :
      leaf ∈ value.leaves ↔ ∃ path rest inner, leaf.1 = path ++ rest ∧
        value.get path = some inner ∧ inner.isTable = false ∧ (rest, leaf.2) ∈ inner.leaves := by
    constructor
    · intro hleaf
      exact ⟨[], leaf.1, value, rfl, rfl, htable, hleaf⟩
    · rintro ⟨path, rest, inner, hpath, hget, -, hinner⟩
      cases path with
      | nil =>
        obtain rfl := Option.some.inj hget
        obtain rfl : leaf.1 = rest := hpath
        exact hinner
      | cons key path =>
        rw [get_cons_of_not_isTable htable] at hget
        cases hget
  induction h generalizing leaf with
  | scalar value => exact hself rfl
  | array hitems ih => exact hself rfl
  | @table entries hkeys hentries ih =>
    rw [mem_leaves_table]
    constructor
    · rintro ⟨entry, hentry, rest, hrest, hpath⟩
      obtain ⟨path, rest', inner, hinner, hget, htable, hleaf⟩ := (ih entry hentry).1 hrest
      refine ⟨entry.1 :: path, rest', inner, ?_, ?_, htable, hleaf⟩
      · rw [hpath, cons_append]
        exact congrArg _ hinner
      · rw [get, (lookup_eq_some_iff hkeys).2 hentry]
        exact hget
    · rintro ⟨path, rest, inner, hpath, hget, htable, hleaf⟩
      cases path with
      | nil =>
        obtain rfl := Option.some.inj hget
        cases htable
      | cons key path =>
        rw [get] at hget
        obtain ⟨value, hlookup, hget⟩ := Option.bind_eq_some_iff.1 hget
        have hentry := (lookup_eq_some_iff hkeys).1 hlookup
        refine ⟨(key, value), hentry, path ++ rest, ?_, hpath⟩
        exact (ih _ hentry).2 ⟨path, rest, inner, rfl, hget, htable, hleaf⟩

theorem Keyed.overrides_of_mem_leaves (h : value.Keyed) (hleaf : leaf ∈ value.leaves)
    (hpath : leaf.1 = path ++ rest) : value.Overrides path := by
  induction h generalizing leaf path with
  | scalar value =>
    cases path with
    | nil => trivial
    | cons key path => trivial
  | array hitems ih =>
    cases path with
    | nil => trivial
    | cons key path => trivial
  | table hkeys hentries ih =>
    cases path with
    | nil => trivial
    | cons key path =>
      obtain ⟨entry, hentry, rest', hrest, hleaf'⟩ := mem_leaves_table.1 hleaf
      rw [hleaf', cons_append] at hpath
      obtain ⟨rfl, rfl⟩ := List.cons.inj hpath
      exact ⟨entry.2, (lookup_eq_some_iff hkeys).2 hentry, ih entry hentry hrest rfl⟩

end TomlValue
