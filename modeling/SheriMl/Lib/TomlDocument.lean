import SheriMl.Lib.TomlCanonical

/-!
# TOML documents

A document that keeps its layout tells tables with headers of their own from inline ones, and
arrays of tables from arrays of values. `content` forgets that.
-/

universe u

variable {σ : Type u}

inductive TomlItem (σ : Type u) where
  /-- a scalar, an array or an inline table -/
  | value (value : TomlValue σ)
  | table (entries : List (Str × TomlItem σ))
  | arrayOfTables (tables : List (List (Str × TomlValue σ)))

namespace TomlItem

mutual

def content : TomlItem σ → TomlValue σ
  | .value inner => inner
  | .table entries => .table (contents entries)
  | .arrayOfTables tables => .array (tables.map .table)

def contents : List (Str × TomlItem σ) → List (Str × TomlValue σ)
  | [] => []
  | (key, item) :: entries => (key, item.content) :: contents entries

end

/-- The item of a key is replaced, or the key added. -/
def insertItem (key : Str) (item : TomlItem σ) :
    List (Str × TomlItem σ) → List (Str × TomlItem σ)
  | [] => [(key, item)]
  | entry :: entries =>
    if entry.1 = key then (key, item) :: entries else entry :: insertItem key item entries

def removeItem (key : Str) (entries : List (Str × TomlItem σ)) : List (Str × TomlItem σ) :=
  entries.filter fun entry => entry.1 ≠ key

variable {key : Str} {entries : List (Str × TomlItem σ)}

theorem lookup_contents (key : Str) (entries : List (Str × TomlItem σ)) :
    (contents entries).lookup key = (entries.lookup key).map content := by
  induction entries with
  | nil => rfl
  | cons entry entries ih =>
    obtain ⟨first, item⟩ := entry
    simp only [contents, List.lookup_cons, ih]
    split <;> rfl

@[simp] theorem contents_insertItem (key : Str) (item : TomlItem σ)
    (entries : List (Str × TomlItem σ)) :
    contents (insertItem key item entries) =
      TomlValue.insertEntry key item.content (contents entries) := by
  induction entries with
  | nil => rfl
  | cons entry entries ih =>
    obtain ⟨first, item'⟩ := entry
    simp only [insertItem, contents, TomlValue.insertEntry]
    split
    · rfl
    · rw [contents, ih]

@[simp] theorem contents_removeItem (key : Str) (entries : List (Str × TomlItem σ)) :
    contents (removeItem key entries) = TomlValue.removeEntry key (contents entries) := by
  induction entries with
  | nil => rfl
  | cons entry entries ih =>
    obtain ⟨first, item⟩ := entry
    rw [removeItem, TomlValue.removeEntry] at ih
    rw [removeItem, contents, TomlValue.removeEntry]
    by_cases hfirst : first = key
    · rw [List.filter_cons_of_neg (by simpa using hfirst),
        List.filter_cons_of_neg (by simpa using hfirst), ih]
    · rw [List.filter_cons_of_pos (by simpa using hfirst),
        List.filter_cons_of_pos (by simpa using hfirst), contents, ih]

def ofInline (entries : List (Str × TomlValue σ)) : List (Str × TomlItem σ) :=
  entries.map fun entry => (entry.1, .value entry.2)

@[simp] theorem contents_ofInline (entries : List (Str × TomlValue σ)) :
    contents (ofInline entries) = entries := by
  induction entries with
  | nil => rfl
  | cons entry entries ih =>
    rw [ofInline, List.map_cons, contents, content]
    exact congrArg _ ih

end TomlItem

/-- The keys of each table of a document are distinct. -/
structure TomlDocument (σ : Type u) where
  entries : List (Str × TomlItem σ)
  keyed : (TomlValue.table (TomlItem.contents entries)).Keyed

namespace TomlDocument

def content (document : TomlDocument σ) : TomlValue σ := .table (TomlItem.contents document.entries)

end TomlDocument
