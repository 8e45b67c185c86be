import SheriMl.Config.Merge
import SheriMl.Lib.TomlDocument

/-!
# Edits merged into a config

`parse_key_path`, `parse_value`, `value_at_path`, `apply_merge` and `clear_path` of
`core/src/config/service.rs`, on values without layout. A set replaces what is no table on its way;
a clear does not. `value_at_path` goes into arrays, which neither of the two does.
-/

namespace SheriMl.Config

open TomlValue

universe u

variable {σ : Type u}

inductive JsonValue (σ : Type u) where
  | null
  /-- a number, a boolean or a string, unless TOML has no such number -/
  | scalar (value : Option σ)
  | array (items : List (JsonValue σ))
  | object (entries : List (Str × JsonValue σ))

mutual

/-- `serde_json::from_value`: there is no null in TOML. -/
def fromValue : JsonValue σ → Option (TomlValue σ)
  | .null => none
  | .scalar value => value.map .scalar
  | .array items => (fromItems items).map .array
  | .object entries => (fromEntries entries).map .table

def fromItems : List (JsonValue σ) → Option (List (TomlValue σ))
  | [] => some []
  | item :: items => (fromValue item).bind fun item => (fromItems items).map (item :: ·)

def fromEntries : List (Str × JsonValue σ) → Option (List (Str × TomlValue σ))
  | [] => some []
  | (key, value) :: entries =>
    (fromValue value).bind fun value => (fromEntries entries).map (insertEntry key value)

end

inductive MergeStrategy where
  | replace
  | upsert
  deriving DecidableEq

structure Edit (σ : Type u) where
  keyPath : Str
  value : JsonValue σ
  mergeStrategy : MergeStrategy

inductive MergeError where
  | pathNotFound
  | validation (message : Str)

def parseKeyPath (path : Str) : Except Str (List Str) :=
  if (Str.trim path).isEmpty then .error "keyPath must not be empty".toList
  else .ok (Str.split '.' path)

/-- The digits of an `i64`, read as an index. -/
def parseIndex (segment : Str) : Option Nat :=
  let (negative, digits) :=
    match segment with
    | '-' :: digits => (true, digits)
    | '+' :: digits => (false, digits)
    | digits => (false, digits)
  if digits.isEmpty ∨ ¬digits.all Str.isAsciiDigit then none
  else
    let index := digits.foldl (fun index digit => 10 * index + (digit.toNat - '0'.toNat)) 0
    if index < 2 ^ 63 ∧ (negative = true → index = 0) then some index else none

def valueAtPath : List Str → TomlValue σ → Option (TomlValue σ)
  | [], current => some current
  | segment :: segments, .table entries => (entries.lookup segment).bind (valueAtPath segments)
  | segment :: segments, .array items =>
    (parseIndex segment).bind fun index => items[index]?.bind (valueAtPath segments)
  | _ :: _, .scalar _ => none

/-- What is put at the last key, over what is there. -/
def mergedValue (strategy : MergeStrategy) (existing : Option (TomlValue σ))
    (value : TomlValue σ) : TomlValue σ :=
  match existing with
  | some existing =>
    if strategy = .upsert ∧ existing.isTable ∧ value.isTable then mergeTomlValues existing value
    else value
  | none => value

/-- The walk of `apply_merge` over the parents. -/
def mergeBelow (last : Str) (value : TomlValue σ) (strategy : MergeStrategy) :
    List Str → TomlValue σ → Except MergeError (TomlValue σ)
  | [], .table entries =>
    .ok (.table (insertEntry last (mergedValue strategy (entries.lookup last) value) entries))
  | [], _ => .error (.validation "cannot set value on non-table parent".toList)
  | segment :: parents, current =>
    -- what is no table is replaced by one
    let entries :=
      match current with
      | .table entries => entries
      | _ => []
    (mergeBelow last value strategy parents ((entries.lookup segment).getD (.table []))).map
      fun inner => .table (insertEntry segment inner entries)

/-- The walk of `clear_path` over the parents. -/
def clearBelow (last : Str) : List Str → TomlValue σ → Except MergeError (TomlValue σ)
  | [], .table entries => .ok (.table (removeEntry last entries))
  | segment :: parents, .table entries =>
    match entries.lookup segment with
    | some inner =>
      (clearBelow last parents inner).map fun inner => .table (insertEntry segment inner entries)
    | none => .error .pathNotFound
  | _, _ => .error .pathNotFound

def applyMerge (root : TomlValue σ) (segments : List Str) (value : Option (TomlValue σ))
    (strategy : MergeStrategy) : Except MergeError (TomlValue σ) :=
  match segments.getLast?, value with
  | none, _ => .error (.validation "keyPath must not be empty".toList)
  | some last, some value => mergeBelow last value strategy segments.dropLast root
  | some last, none => clearBelow last segments.dropLast root

mutual

def tomlValueToItem : TomlValue σ → TomlItem σ
  | .table entries => .table (tomlEntriesToItems entries)
  | other => .value other

def tomlEntriesToItems : List (Str × TomlValue σ) → List (Str × TomlItem σ)
  | [] => []
  | (key, value) :: entries => (key, tomlValueToItem value) :: tomlEntriesToItems entries

end

/-! ## Tables whose keys are distinct -/

structure ConfigTable (σ : Type u) where
  value : TomlValue σ
  isTable : value.isTable = true
  keyed : value.Keyed

mutual

theorem keyed_fromValue : ∀ {json : JsonValue σ} {value : TomlValue σ},
    fromValue json = some value → value.Keyed
  | .null, _, h => by cases h
  | .scalar found, _, h => by
    obtain ⟨found, -, rfl⟩ := Option.map_eq_some_iff.1 h
    exact .scalar found
  | .array items, _, h => by
    obtain ⟨items', hitems, rfl⟩ := Option.map_eq_some_iff.1 h
    exact .array (keyed_fromItems hitems)
  | .object entries, _, h => by
    obtain ⟨entries', hentries, rfl⟩ := Option.map_eq_some_iff.1 h
    exact keyed_fromEntries hentries

theorem keyed_fromItems : ∀ {items : List (JsonValue σ)} {items' : List (TomlValue σ)},
    fromItems items = some items' → ∀ item ∈ items', item.Keyed
  | [], _, h => by
    obtain rfl := Option.some.inj h
    exact fun _ hmem => by cases hmem
  | item :: items, _, h => by
    obtain ⟨item', hitem, h⟩ := Option.bind_eq_some_iff.1 h
    obtain ⟨items', hitems, rfl⟩ := Option.map_eq_some_iff.1 h
    exact List.forall_mem_cons.2 ⟨keyed_fromValue hitem, keyed_fromItems hitems⟩

theorem keyed_fromEntries : ∀ {entries : List (Str × JsonValue σ)}
    {entries' : List (Str × TomlValue σ)},
    fromEntries entries = some entries' → Keyed (.table entries')
  | [], _, h => by
    obtain rfl := Option.some.inj h
    exact .nil
  | (key, value) :: entries, _, h => by
    obtain ⟨value', hvalue, h⟩ := Option.bind_eq_some_iff.1 h
    obtain ⟨entries', hentries, rfl⟩ := Option.map_eq_some_iff.1 h
    exact (keyed_fromEntries hentries).insertEntry (keyed_fromValue hvalue) key

end

theorem keyed_mergedValue {strategy : MergeStrategy} {existing : Option (TomlValue σ)}
    {value : TomlValue σ} (hexisting : ∀ found, existing = some found → found.Keyed)
    (hvalue : value.Keyed) : (mergedValue strategy existing value).Keyed := by
  unfold mergedValue
  split
  next found =>
    split
    · exact keyed_merge (hexisting found rfl) hvalue
    · exact hvalue
  · exact hvalue

section Walks

variable {last : Str} {value root root' : TomlValue σ} {strategy : MergeStrategy}
  {parents : List Str}

theorem mergeBelow_table (h : mergeBelow last value strategy parents root = .ok root')
    (hroot : root.Keyed) (hvalue : value.Keyed) : root'.isTable = true ∧ root'.Keyed := by
  induction parents generalizing root root' with
  | nil =>
    cases root with
    | scalar | array => cases h
    | table entries =>
      obtain rfl := Except.ok.inj h
      exact ⟨rfl, hroot.insertEntry
        (keyed_mergedValue (fun found hfound => hroot.lookup hfound) hvalue) last⟩
  | cons segment parents ih =>
    have hbelow : ∀ {entries : List (Str × TomlValue σ)}, Keyed (.table entries) →
        ((mergeBelow last value strategy parents
          ((entries.lookup segment).getD (.table []))).map
            fun inner => .table (insertEntry segment inner entries)) = .ok root' →
        root'.isTable = true ∧ root'.Keyed := fun {entries} hentries h => by
      have hinner : ((entries.lookup segment).getD (.table [])).Keyed := by
        cases hlookup : entries.lookup segment with
        | none => exact .nil
        | some inner => exact hentries.lookup hlookup
      cases hbelow : mergeBelow last value strategy parents
          ((entries.lookup segment).getD (.table [])) with
      | error err =>
        rw [hbelow] at h
        cases h
      | ok inner =>
        rw [hbelow] at h
        obtain rfl := Except.ok.inj h
        exact ⟨rfl, hentries.insertEntry (ih hbelow hinner).2 segment⟩
    cases root with
    | scalar | array => exact hbelow .nil h
    | table entries => exact hbelow hroot h

theorem clearBelow_table (h : clearBelow last parents root = .ok root') (hroot : root.Keyed) :
    root'.isTable = true ∧ root'.Keyed := by
  induction parents generalizing root root' with
  | nil =>
    cases root with
    | scalar | array => cases h
    | table entries =>
      obtain rfl := Except.ok.inj h
      exact ⟨rfl, hroot.removeEntry last⟩
  | cons segment parents ih =>
    cases root with
    | scalar | array => cases h
    | table entries =>
      rw [clearBelow] at h
      split at h
      next inner hlookup =>
        cases hbelow : clearBelow last parents inner with
        | error err =>
          rw [hbelow] at h
          cases h
        | ok inner' =>
          rw [hbelow] at h
          obtain rfl := Except.ok.inj h
          exact ⟨rfl, hroot.insertEntry (ih hbelow (hroot.lookup hlookup)).2 segment⟩
      · cases h

end Walks

theorem applyMerge_table {root root' : TomlValue σ} {segments : List Str}
    {value : Option (TomlValue σ)} {strategy : MergeStrategy}
    (h : applyMerge root segments value strategy = .ok root') (hroot : root.Keyed)
    (hvalue : ∀ found, value = some found → found.Keyed) :
    root'.isTable = true ∧ root'.Keyed := by
  unfold applyMerge at h
  split at h
  · cases h
  · exact mergeBelow_table h hroot (hvalue _ rfl)
  · exact clearBelow_table h hroot

/-- `apply_merge`, on a table. -/
def ConfigTable.applyMerge (config : ConfigTable σ) (segments : List Str)
    (value : Option { value : TomlValue σ // value.Keyed }) (strategy : MergeStrategy) :
    Except MergeError (ConfigTable σ) :=
  match h : Config.applyMerge config.value segments (value.map Subtype.val) strategy with
  | .ok root =>
    have htable := applyMerge_table h config.keyed fun found hfound => by
      obtain ⟨found, -, rfl⟩ := Option.map_eq_some_iff.1 hfound
      exact found.2
    .ok ⟨root, htable.1, htable.2⟩
  | .error err => .error err

mutual

theorem content_tomlValueToItem : ∀ value : TomlValue σ, (tomlValueToItem value).content = value
  | .scalar _ => rfl
  | .array _ => rfl
  | .table entries => congrArg _ (contents_tomlEntriesToItems entries)

theorem contents_tomlEntriesToItems : ∀ entries : List (Str × TomlValue σ),
    TomlItem.contents (tomlEntriesToItems entries) = entries
  | [] => rfl
  | (key, value) :: entries => by
    rw [tomlEntriesToItems, TomlItem.contents, content_tomlValueToItem,
      contents_tomlEntriesToItems]

end

end SheriMl.Config
