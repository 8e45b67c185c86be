import SheriMl.Auth.Credentials

/-!
# Storage of the credentials

`FileAuthStorage`, `KeyringAuthStorage` and `AutoAuthStorage` of `core/src/auth/storage.rs`. The
calls on the keyring and on the file may fail without effect (`Calls`), and the JSON of a record is
a parameter. A save that falls back to the file leaves the keyring as it is, and a load prefers the
keyring, so the two stores are one cell for some sequences of failures only
(`loadsAcknowledged_iff`).
-/

namespace SheriMl.Auth.Storage

/-- `serde_json` on records. -/
structure Serde where
  serialize : AuthDotJson → Str
  serializePretty : AuthDotJson → Str
  deserialize : Str → Option AuthDotJson

/-- Whether the calls that an operation makes on the keyring and on the file succeed. -/
structure Calls where
  keyring : Bool
  file : Bool

/-- The entry of the keyring, and `auth.json`. -/
structure Stores where
  keyring : Option Str
  file : Option Str

inductive StorageError where
  | readFile
  | parseFile
  | writeFile
  | removeFile
  | loadKeyring
  | deserializeKeyring
  | writeKeyring
  | deleteKeyring
  deriving DecidableEq

def deleteFileIfExists (calls : Calls) (s : Stores) : Except StorageError Bool × Stores :=
  if calls.file then (.ok s.file.isSome, { s with file := none })
  else (.error .removeFile, s)

namespace FileAuthStorage

def load (serde : Serde) (calls : Calls) (s : Stores) : Except StorageError (Option AuthDotJson) :=
  if calls.file then
    match s.file with
    | some contents =>
      match serde.deserialize contents with
      | some auth => .ok (some auth)
      | none => .error .parseFile
    | none => .ok none
  else .error .readFile

def save (serde : Serde) (auth : AuthDotJson) (calls : Calls) (s : Stores) :
    Except StorageError Unit × Stores :=
  if calls.file then (.ok (), { s with file := some (serde.serializePretty auth) })
  else (.error .writeFile, s)

end FileAuthStorage

namespace KeyringAuthStorage

def load (serde : Serde) (calls : Calls) (s : Stores) : Except StorageError (Option AuthDotJson) :=
  if calls.keyring then
    match s.keyring with
    | some serialized =>
      match serde.deserialize serialized with
      | some auth => .ok (some auth)
      | none => .error .deserializeKeyring
    | none => .ok none
  else .error .loadKeyring

def save (serde : Serde) (auth : AuthDotJson) (calls : Calls) (s : Stores) :
    Except StorageError Unit × Stores :=
  if calls.keyring then
    -- that the file is not removed is only logged
    (.ok (), (deleteFileIfExists calls { s with keyring := some (serde.serialize auth) }).2)
  else (.error .writeKeyring, s)

def delete (calls : Calls) (s : Stores) : Except StorageError Bool × Stores :=
  if calls.keyring then
    match deleteFileIfExists calls { s with keyring := none } with
    | (.ok fileRemoved, s') => (.ok (s.keyring.isSome || fileRemoved), s')
    | (.error err, s') => (.error err, s')
  else (.error .deleteKeyring, s)

end KeyringAuthStorage

namespace AutoAuthStorage

def load (serde : Serde) (calls : Calls) (s : Stores) : Except StorageError (Option AuthDotJson) :=
  match KeyringAuthStorage.load serde calls s with
  | .ok (some auth) => .ok (some auth)
  | .ok none | .error _ => FileAuthStorage.load serde calls s

def save (serde : Serde) (auth : AuthDotJson) (calls : Calls) (s : Stores) :
    Except StorageError Unit × Stores :=
  match KeyringAuthStorage.save serde auth calls s with
  | (.ok (), s') => (.ok (), s')
  | (.error _, s') => FileAuthStorage.save serde auth calls s'

def delete (calls : Calls) (s : Stores) : Except StorageError Bool × Stores :=
  KeyringAuthStorage.delete calls s

end AutoAuthStorage

/-! ## Sequences of operations -/

inductive Operation where
  | save (auth : AuthDotJson) (calls : Calls)
  | load (calls : Calls)
  | delete (calls : Calls)

def Operation.calls : Operation → Calls
  | save _ calls | load calls | delete calls => calls

/-- A save or a delete that has returned `Ok`; a save has gone into the keyring or into the file. -/
inductive Acknowledged where
  | saved (auth : AuthDotJson) (inKeyring : Bool)
  | deleted

/-- What the credential cell holds then. -/
def Acknowledged.value : Acknowledged → Option AuthDotJson
  | saved auth _ => some auth
  | deleted => none

/-- The stores, and the last operation that changed the cell with success. -/
structure History where
  stores : Stores
  acknowledged : Option Acknowledged

def History.step (serde : Serde) (h : History) : Operation → History
  | .save auth calls =>
    match AutoAuthStorage.save serde auth calls h.stores with
    | (.ok (), stores) => ⟨stores, some (.saved auth calls.keyring)⟩
    | (.error _, stores) => ⟨stores, h.acknowledged⟩
  | .load _ => h
  | .delete calls =>
    match AutoAuthStorage.delete calls h.stores with
    | (.ok _, stores) => ⟨stores, some .deleted⟩
    | (.error _, stores) => ⟨stores, h.acknowledged⟩

def run (serde : Serde) (stores : Stores) (operations : List Operation) : History :=
  operations.foldl (History.step serde) ⟨stores, none⟩

/-- A load that returns `Ok` returns what the cell holds. -/
def LoadsAcknowledged (serde : Serde) (h : History) (calls : Calls) : Prop :=
  ∀ found acknowledged, AutoAuthStorage.load serde calls h.stores = .ok found →
    h.acknowledged = some acknowledged → found = acknowledged.value

/-- The record that a call on the keyring can read. -/
def Stores.keyringEntry (serde : Serde) (s : Stores) (calls : Calls) : Option AuthDotJson :=
  if calls.keyring then s.keyring.bind serde.deserialize else none

/-- The load reads the store that holds the cell. -/
def Acknowledged.Reads (serde : Serde) (s : Stores) (calls : Calls) : Acknowledged → Prop
  | saved auth true =>
    calls.keyring = true ∧ serde.deserialize (serde.serialize auth) = some auth
  | saved auth false =>
    match s.keyringEntry serde calls with
    | some entry => entry = auth
    | none =>
      ∀ found, serde.deserialize (serde.serializePretty auth) = some found → found = auth
  | deleted => True

/-- What the stores are left with while the calls on the file succeed. -/
def Acknowledged.Held (serde : Serde) (s : Stores) : Acknowledged → Prop
  | saved auth true => s = ⟨some (serde.serialize auth), none⟩
  | saved auth false => s.file = some (serde.serializePretty auth)
  | deleted => s = ⟨none, none⟩

section Runs

variable {serde : Serde} {calls : Calls}

theorem save_eq (auth : AuthDotJson) (s : Stores) (hfile : calls.file = true) :
    AutoAuthStorage.save serde auth calls s =
      (.ok (), if calls.keyring then ⟨some (serde.serialize auth), none⟩
        else { s with file := some (serde.serializePretty auth) }) := by
  cases hkeyring : calls.keyring <;>
    simp [AutoAuthStorage.save, KeyringAuthStorage.save, FileAuthStorage.save, deleteFileIfExists,
      hkeyring, hfile]

theorem delete_eq (s : Stores) (hfile : calls.file = true) :
    AutoAuthStorage.delete calls s =
      if calls.keyring then (.ok (s.keyring.isSome || s.file.isSome), ⟨none, none⟩)
      else (.error .deleteKeyring, s) := by
  cases hkeyring : calls.keyring <;>
    simp [AutoAuthStorage.delete, KeyringAuthStorage.delete, deleteFileIfExists, hkeyring, hfile]

/-- A load takes what it can read in the keyring, and the file else. -/
theorem load_eq (s : Stores) :
    AutoAuthStorage.load serde calls s =
      match s.keyringEntry serde calls with
      | some auth => .ok (some auth)
      | none => FileAuthStorage.load serde calls s := by
  unfold AutoAuthStorage.load KeyringAuthStorage.load Stores.keyringEntry
  cases calls.keyring with
  | false => rfl
  | true =>
    cases s.keyring with
    | none => rfl
    | some serialized => cases hauth : serde.deserialize serialized <;> simp [hauth]

theorem History.held_step {h : History} {operation : Operation}
    (hfile : operation.calls.file = true)
    (hheld : ∀ acknowledged, h.acknowledged = some acknowledged →
      acknowledged.Held serde h.stores) :
    ∀ acknowledged, (h.step serde operation).acknowledged = some acknowledged →
      acknowledged.Held serde (h.step serde operation).stores := by
  intro acknowledged hacknowledged
  cases operation with
  | save auth calls =>
    change calls.file = true at hfile
    simp only [step, save_eq auth h.stores hfile] at hacknowledged ⊢
    obtain rfl := Option.some.inj hacknowledged
    cases hkeyring : calls.keyring with
    | true => exact if_pos rfl
    | false => rfl
  | load calls => exact hheld acknowledged hacknowledged
  | delete calls =>
    change calls.file = true at hfile
    simp only [step, delete_eq h.stores hfile] at hacknowledged ⊢
    cases hkeyring : calls.keyring with
    | true =>
      simp only [hkeyring, if_true] at hacknowledged ⊢
      obtain rfl := Option.some.inj hacknowledged
      rfl
    | false =>
      simp only [hkeyring, Bool.false_eq_true, if_false] at hacknowledged ⊢
      exact hheld acknowledged hacknowledged

theorem held_run (stores : Stores) {operations : List Operation}
    (hfile : ∀ operation ∈ operations, operation.calls.file = true) :
    ∀ acknowledged, (run serde stores operations).acknowledged = some acknowledged →
      acknowledged.Held serde (run serde stores operations).stores := by
  have hrun : ∀ h : History, (∀ acknowledged, h.acknowledged = some acknowledged →
      acknowledged.Held serde h.stores) → ∀ acknowledged,
      (operations.foldl (History.step serde) h).acknowledged = some acknowledged →
        acknowledged.Held serde (operations.foldl (History.step serde) h).stores := by
    induction operations with
    | nil => exact fun h hheld => hheld
    | cons operation operations ih =>
      intro h hheld
      exact ih (fun later hmem => hfile later (List.mem_cons_of_mem _ hmem)) _
        (History.held_step (hfile operation List.mem_cons_self) hheld)
  exact hrun _ fun acknowledged hnone => by cases hnone

/-- A load of stores that hold the cell returns what it holds, if it reads it. -/
theorem Acknowledged.Held.load_iff {s : Stores} {acknowledged : Acknowledged}
    (hheld : acknowledged.Held serde s) (hfile : calls.file = true) :
    (∀ found, AutoAuthStorage.load serde calls s = .ok found → found = acknowledged.value) ↔
      acknowledged.Reads serde s calls := by
  rw [load_eq]
  cases acknowledged with
  | deleted =>
    obtain rfl : s = ⟨none, none⟩ := hheld
    have hentry : Stores.keyringEntry serde ⟨none, none⟩ calls = none := by
      simp [Stores.keyringEntry]
    simp [hentry, FileAuthStorage.load, hfile, Reads, value]
  | saved auth inKeyring =>
    cases inKeyring with
    | true =>
      obtain rfl : s = ⟨some (serde.serialize auth), none⟩ := hheld
      cases hkeyring : calls.keyring with
      | false =>
        -- the keyring alone holds the record
        simp [Stores.keyringEntry, hkeyring, FileAuthStorage.load, hfile, Reads, value]
      | true =>
        cases hauth : serde.deserialize (serde.serialize auth) <;>
          simp [Stores.keyringEntry, hkeyring, hauth, FileAuthStorage.load, hfile, Reads, value]
    | false =>
      change s.file = _ at hheld
      cases hentry : s.keyringEntry serde calls with
      | some entry => simp [hentry, Reads, value]
      | none =>
        cases hauth : serde.deserialize (serde.serializePretty auth) <;>
          simp [hentry, hheld, hauth, FileAuthStorage.load, hfile, Reads, value]

/-- A load after any operations returns the value of the cell if and only if it reads the store that
holds it. -/
theorem loadsAcknowledged_iff (stores : Stores) {operations : List Operation}
    (hoperations : ∀ operation ∈ operations, operation.calls.file = true)
    (hfile : calls.file = true) :
    LoadsAcknowledged serde (run serde stores operations) calls ↔
      ∀ acknowledged, (run serde stores operations).acknowledged = some acknowledged →
        acknowledged.Reads serde (run serde stores operations).stores calls := by
  constructor
  · intro hloads acknowledged hacknowledged
    refine ((held_run stores hoperations acknowledged hacknowledged).load_iff hfile).1 ?_
    exact fun found hfound => hloads found acknowledged hfound hacknowledged
  · intro hreads found acknowledged hfound hacknowledged
    have hheld := held_run stores hoperations acknowledged hacknowledged
    exact (hheld.load_iff hfile).2 (hreads acknowledged hacknowledged) found hfound

end Runs

/-! ## Runs on fixed inputs -/

/-- The JSON of the records that have an API key only. -/
def apiKeySerde : Serde where
  serialize auth :=
    "\x7b\"OPENAI_API_KEY\":\"".toList ++ auth.openaiApiKey.getD [] ++ "\"\x7d".toList
  serializePretty auth :=
    "\x7b\n  \"OPENAI_API_KEY\": \"".toList ++ auth.openaiApiKey.getD [] ++ "\"\n\x7d".toList
  deserialize contents :=
    let compact := (Str.stripPrefix contents "\x7b\"OPENAI_API_KEY\":\"".toList).bind
      (Str.stripSuffix · "\"\x7d".toList)
    let pretty := (Str.stripPrefix contents "\x7b\n  \"OPENAI_API_KEY\": \"".toList).bind
      (Str.stripSuffix · "\"\n\x7d".toList)
    (compact.or pretty).map fun apiKey => ⟨none, some apiKey, none, none⟩

def apiKeyRecord (apiKey : String) : AuthDotJson := ⟨none, some apiKey.toList, none, none⟩

/-- A save that falls back to the file after a delete. -/
theorem loadsAcknowledged_iff_fallback :
    LoadsAcknowledged apiKeySerde
      (run apiKeySerde ⟨none, none⟩
        [.save (apiKeyRecord "first") ⟨true, true⟩, .delete ⟨true, true⟩,
          .save (apiKeyRecord "second") ⟨false, true⟩]) ⟨true, true⟩ := by
  refine (loadsAcknowledged_iff ⟨none, none⟩ (by simp [Operation.calls]) rfl).2 ?_
  intro acknowledged hacknowledged
  obtain rfl := Option.some.inj hacknowledged
  intro found hfound
  exact Option.some.inj (hfound.symm.trans (by decide))

/-- A save that falls back to the file leaves the record of an earlier one in the keyring, where the
next load finds it. -/
theorem stale_after_fallback :
    ¬ LoadsAcknowledged apiKeySerde
      (run apiKeySerde ⟨none, none⟩
        [.save (apiKeyRecord "first") ⟨true, true⟩, .save (apiKeyRecord "second") ⟨false, true⟩])
      ⟨true, true⟩ := by
  intro hloads
  have hstale := hloads (some (apiKeyRecord "first")) (.saved (apiKeyRecord "second") false)
    (by decide +kernel) rfl
  cases hstale

end SheriMl.Auth.Storage
