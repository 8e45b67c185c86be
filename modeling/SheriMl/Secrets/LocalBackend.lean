import Mathlib
import SheriMl.Lib.Lines
import SheriMl.Lib.Result
import SheriMl.Lib.Transition

/-!
# The local backend for secrets

`secrets/src/{lib,local}.rs`: values under a scope and a name in one encrypted file, which every
operation loads and those that change it save. The library that encrypts, the one that serializes
and the keyring are parameters (`Backend`), and so is what fails in an operation (`Io`).
`refines_run`: in a run of good steps the backend is a finite map.
-/

namespace SheriMl.Secrets

open Transition (Run)

/-- An error with its causes, the outermost context first. -/
abbrev Error := List Str

/-! ## Names and scopes -/

def isNameChar (c : Char) : Bool := c.isUpper || Str.isAsciiDigit c || c == '_'

structure SecretName where
  chars : Str
  ne_nil : chars ≠ []
  valid : chars.all isNameChar = true
  deriving DecidableEq

def SecretName.ofTrimmed (trimmed : Str) : Except Error SecretName :=
  if hnil : trimmed = [] then .error ["secret name must not be empty"]
  else if hvalid : trimmed.all isNameChar = true then .ok ⟨trimmed, hnil, hvalid⟩
  else .error ["secret name must contain only A-Z, 0-9, or _"]

def SecretName.new (raw : Str) : Except Error SecretName := SecretName.ofTrimmed (Str.trim raw)

structure EnvironmentId where
  chars : Str
  ne_nil : chars ≠ []
  trim_eq : Str.trim chars = chars
  deriving DecidableEq

inductive SecretScope where
  | global
  | environment (environmentId : EnvironmentId)
  deriving DecidableEq

def EnvironmentId.ofTrimmed (trimmed : Str) (htrim : Str.trim trimmed = trimmed) :
    Except Error EnvironmentId :=
  if hnil : trimmed = [] then .error ["environment id must not be empty"]
  else .ok ⟨trimmed, hnil, htrim⟩

/-- `SecretScope::environment` -/
def SecretScope.new (environmentId : Str) : Except Error SecretScope :=
  (EnvironmentId.ofTrimmed (Str.trim environmentId) (Str.trim_trim environmentId)).map .environment

def SecretScope.canonicalKey (scope : SecretScope) (name : SecretName) : Str :=
  match scope with
  | .global => "global/" ++ name.chars
  | .environment environmentId => "env/" ++ environmentId.chars ++ "/" ++ name.chars

structure SecretListEntry where
  scope : SecretScope
  name : SecretName
  deriving DecidableEq

def SecretListEntry.key (entry : SecretListEntry) : Str := entry.scope.canonicalKey entry.name

def parseCanonicalKey (canonicalKey : Str) : Option SecretListEntry :=
  match Str.split '/' canonicalKey with
  | [kind, name] =>
    if kind = "global" then
      (SecretName.new name).toOption.map fun name => ⟨.global, name⟩
    else none
  | [kind, environmentId, name] =>
    if kind = "env" then
      (SecretName.new name).toOption.bind fun name =>
        (SecretScope.new environmentId).toOption.map fun scope => ⟨scope, name⟩
    else none
  | _ => none

/-! ## The backend -/

def secretsVersion : Nat := 1

structure SecretsFile where
  version : Nat
  secrets : Finmap fun _ : Str => Str

def SecretsFile.newEmpty : SecretsFile := ⟨secretsVersion, ∅⟩

/-- A file without a version has the first one. -/
def SecretsFile.versioned (file : SecretsFile) : SecretsFile :=
  if file.version = 0 then { file with version := secretsVersion } else file

/-- The libraries the backend uses, its place, and the system it is built for. -/
structure Backend (Passphrase Plaintext Ciphertext : Type) where
  secretsDir : Str
  secretsPath : Str
  account : Str
  windows : Bool
  toVec : SecretsFile → Except Str Plaintext
  fromSlice : Plaintext → Except Str SecretsFile
  /-- with what is drawn at random -/
  encrypt : Passphrase → Nat → Plaintext → Except Str Ciphertext
  decrypt : Passphrase → Ciphertext → Except Str Plaintext
  fromSlice_toVec : ∀ file plaintext, toVec file = .ok plaintext → fromSlice plaintext = .ok file
  decrypt_encrypt : ∀ passphrase seed plaintext ciphertext,
    encrypt passphrase seed plaintext = .ok ciphertext →
      decrypt passphrase ciphertext = .ok plaintext

/-- The secrets file and the keyring's entry for its account. -/
structure World (Passphrase Ciphertext : Type) where
  file : Option Ciphertext
  keyring : Option Passphrase

/-- What fails when the keyring is asked, and the passphrase that would be generated. -/
structure KeyringIo (Passphrase : Type) where
  load : Option Str
  generated : Except Str Passphrase
  save : Option Str

/-- What fails in an operation, with its message, and what it draws. -/
structure Io (Passphrase : Type) where
  /-- the file's metadata cannot be read, and it is taken for missing -/
  hidden : Bool
  read : Option Str
  loadKeyring : KeyringIo Passphrase
  createDir : Option Str
  saveKeyring : KeyringIo Passphrase
  seed : Nat
  tmpPath : Str
  openTmp : Option Str
  writeTmp : Option Str
  syncTmp : Option Str
  rename : Option Str
  hiddenAfter : Bool
  remove : Option Str
  renameAgain : Option Str

namespace Backend

variable {Passphrase Plaintext Ciphertext : Type}
  (b : Backend Passphrase Plaintext Ciphertext)

def loadOrCreatePassphrase (io : KeyringIo Passphrase) (w : World Passphrase Ciphertext) :
    Except Error Passphrase × World Passphrase Ciphertext :=
  match io.load with
  | some message =>
    (.error ["failed to load secrets key from keyring for " ++ b.account, message], w)
  | none =>
    match w.keyring with
    | some existing => (.ok existing, w)
    | none =>
      match io.generated with
      | .error message => (.error ["failed to generate random secrets key", message], w)
      | .ok generated =>
        match io.save with
        | some message => (.error ["failed to persist secrets key in keyring", message], w)
        | none => (.ok generated, { w with keyring := some generated })

/-- What a file with this contents is read as. -/
def parseFile (passphrase : Passphrase) (ciphertext : Ciphertext) : Except Error SecretsFile :=
  match b.decrypt passphrase ciphertext with
  | .error message => .error ["failed to decrypt secrets file", message]
  | .ok plaintext =>
    match b.fromSlice plaintext with
    | .error message =>
      .error ["failed to deserialize decrypted secrets file at " ++ b.secretsPath, message]
    | .ok parsed =>
      if parsed.versioned.version ≤ secretsVersion then .ok parsed.versioned
      else
        .error ["secrets file version " ++ (toString parsed.versioned.version).toList ++
          " is newer than supported version " ++ (toString secretsVersion).toList]

def loadFile (io : Io Passphrase) (w : World Passphrase Ciphertext) :
    Except Error SecretsFile × World Passphrase Ciphertext :=
  match w.file with
  | none => (.ok .newEmpty, w)
  | some ciphertext =>
    if io.hidden then (.ok .newEmpty, w)
    else
      match io.read with
      | some message => (.error ["failed to read secrets file at " ++ b.secretsPath, message], w)
      | none =>
        match b.loadOrCreatePassphrase io.loadKeyring w with
        | (.error e, w) => (.error e, w)
        | (.ok passphrase, w) => (b.parseFile passphrase ciphertext, w)

/-- On Windows a file that cannot be replaced is removed first. -/
def writeFileAtomically (io : Io Passphrase) (contents : Ciphertext)
    (w : World Passphrase Ciphertext) : Except Error Unit × World Passphrase Ciphertext :=
  match io.openTmp, io.writeTmp, io.syncTmp with
  | some message, _, _ =>
    (.error ["failed to create temp secrets file at " ++ io.tmpPath, message], w)
  | none, some message, _ =>
    (.error ["failed to write temp secrets file at " ++ io.tmpPath, message], w)
  | none, none, some message =>
    (.error ["failed to sync temp secrets file at " ++ io.tmpPath, message], w)
  | none, none, none =>
    match io.rename with
    | none => (.ok (), { w with file := some contents })
    | some initialError =>
      if b.windows && w.file.isSome && !io.hiddenAfter then
        match io.remove with
        | some message =>
          (.error ["failed to remove existing secrets file at " ++ b.secretsPath ++
            " before replace", message], w)
        | none =>
          match io.renameAgain with
          | some message =>
            (.error ["failed to replace secrets file at " ++ b.secretsPath ++ " with " ++
              io.tmpPath, message], { w with file := none })
          | none => (.ok (), { w with file := some contents })
      else
        (.error ["failed to atomically replace secrets file at " ++ b.secretsPath ++ " with " ++
          io.tmpPath, initialError], w)

def saveFile (io : Io Passphrase) (file : SecretsFile) (w : World Passphrase Ciphertext) :
    Except Error Unit × World Passphrase Ciphertext :=
  match io.createDir with
  | some message => (.error ["failed to create secrets dir " ++ b.secretsDir, message], w)
  | none =>
    match b.loadOrCreatePassphrase io.saveKeyring w with
    | (.error e, w) => (.error e, w)
    | (.ok passphrase, w) =>
      match b.toVec file with
      | .error message => (.error ["failed to serialize secrets file", message], w)
      | .ok plaintext =>
        match b.encrypt passphrase io.seed plaintext with
        | .error message => (.error ["failed to encrypt secrets file", message], w)
        | .ok ciphertext => b.writeFileAtomically io ciphertext w

def set (scope : SecretScope) (name : SecretName) (value : Str) (io : Io Passphrase)
    (w : World Passphrase Ciphertext) : Except Error Unit × World Passphrase Ciphertext :=
  if value.isEmpty then (.error ["secret value must not be empty"], w)
  else
    match b.loadFile io w with
    | (.error e, w) => (.error e, w)
    | (.ok file, w) =>
      b.saveFile io
        { file with secrets := file.secrets.insert (scope.canonicalKey name) value } w

def get (scope : SecretScope) (name : SecretName) (io : Io Passphrase)
    (w : World Passphrase Ciphertext) :
    Except Error (Option Str) × World Passphrase Ciphertext :=
  match b.loadFile io w with
  | (.error e, w) => (.error e, w)
  | (.ok file, w) => (.ok (file.secrets.lookup (scope.canonicalKey name)), w)

def delete (scope : SecretScope) (name : SecretName) (io : Io Passphrase)
    (w : World Passphrase Ciphertext) : Except Error Bool × World Passphrase Ciphertext :=
  match b.loadFile io w with
  | (.error e, w) => (.error e, w)
  | (.ok file, w) =>
    if (file.secrets.lookup (scope.canonicalKey name)).isSome then
      match b.saveFile io
          { file with secrets := file.secrets.erase (scope.canonicalKey name) } w with
      | (.error e, w) => (.error e, w)
      | (.ok _, w) => (.ok true, w)
    else (.ok false, w)

/-- The entries of the keys, in their order; a key that cannot be parsed is skipped. -/
def listEntries (scopeFilter : Option SecretScope) (file : SecretsFile) : List SecretListEntry :=
  ((file.secrets.keys.sort (· ≤ ·)).filterMap parseCanonicalKey).filter fun entry =>
    scopeFilter.all fun scope => entry.scope = scope

def list (scopeFilter : Option SecretScope) (io : Io Passphrase)
    (w : World Passphrase Ciphertext) :
    Except Error (List SecretListEntry) × World Passphrase Ciphertext :=
  match b.loadFile io w with
  | (.error e, w) => (.error e, w)
  | (.ok file, w) => (.ok (listEntries scopeFilter file), w)

end Backend

/-! ## Runs, and what a backend is for -/

inductive Op where
  | set (scope : SecretScope) (name : SecretName) (value : Str)
  | get (scope : SecretScope) (name : SecretName)
  | delete (scope : SecretScope) (name : SecretName)
  | list (scopeFilter : Option SecretScope)

inductive Output where
  | unit
  | value (value : Option Str)
  | removed (removed : Bool)
  | entries (entries : List SecretListEntry)
  deriving DecidableEq

abbrev Outcome := Except Error Output

namespace Backend

variable {Passphrase Plaintext Ciphertext : Type}
  (b : Backend Passphrase Plaintext Ciphertext)

def step (op : Op) (io : Io Passphrase) (w : World Passphrase Ciphertext) :
    Outcome × World Passphrase Ciphertext :=
  match op with
  | .set scope name value => (b.set scope name value io w).map (·.map fun _ => .unit) id
  | .get scope name => (b.get scope name io w).map (·.map .value) id
  | .delete scope name => (b.delete scope name io w).map (·.map .removed) id
  | .list scopeFilter => (b.list scopeFilter io w).map (·.map .entries) id

def run : World Passphrase Ciphertext → List (Op × Io Passphrase) →
    List Outcome × World Passphrase Ciphertext
  | w, [] => ([], w)
  | w, (op, io) :: steps =>
    let (outcome, w) := b.step op io w
    let (outcomes, w) := run w steps
    (outcome :: outcomes, w)

end Backend

/-- A finite map from scopes and names to values. -/
abbrev SecretMap := SecretListEntry → Option Str

/-- What the operations of a finite map are. -/
def MapStep (m : SecretMap) : Op × Outcome → SecretMap → Prop
  | (.set scope name value, .ok output), m' =>
    output = .unit ∧ m' = Function.update m ⟨scope, name⟩ (some value)
  | (.get scope name, .ok output), m' => output = .value (m ⟨scope, name⟩) ∧ m' = m
  | (.delete scope name, .ok output), m' =>
    output = .removed (m ⟨scope, name⟩).isSome ∧ m' = Function.update m ⟨scope, name⟩ none
  | (.list scopeFilter, .ok output), m' =>
    (∃ entries, output = .entries entries ∧ entries.Nodup ∧ ∀ entry, entry ∈ entries ↔
      m entry ≠ none ∧ ∀ scope ∈ scopeFilter, entry.scope = scope) ∧ m' = m
  | (_, .error _), m' => m' = m

/-! ## Keys -/

def SecretScope.Plain : SecretScope → Prop
  | .global => True
  | .environment environmentId => '/' ∉ environmentId.chars

instance (scope : SecretScope) : Decidable scope.Plain := by
  unfold SecretScope.Plain
  split <;> infer_instance

theorem slash_notMem_name (name : SecretName) : '/' ∉ name.chars := by
  intro hmem
  have hvalid := List.all_eq_true.1 name.valid '/' hmem
  exact absurd hvalid (by decide)

theorem isWhitespace_of_isNameChar {c : Char} (h : isNameChar c = true) :
    Str.isWhitespace c = false := by
  have hrange : 48 ≤ c.toNat ∧ c.toNat ≤ 95 := by
    rw [isNameChar, Bool.or_eq_true, Bool.or_eq_true, Char.isUpper, Str.isAsciiDigit,
      Bool.and_eq_true, decide_eq_true_eq, decide_eq_true_eq, beq_iff_eq] at h
    rcases h with (hupper | hdigit) | rfl
    · exact ⟨Nat.le_trans (by decide) hupper.1, Nat.le_trans hupper.2 (by decide)⟩
    · have hlow : '0' ≤ c := hdigit.1
      have hhigh : c ≤ '9' := of_decide_eq_true hdigit.2
      exact ⟨hlow, Nat.le_trans hhigh (by decide)⟩
    · decide
  simp only [Str.isWhitespace, Bool.or_eq_false_iff, Bool.and_eq_false_iff, beq_eq_false_iff_ne,
    decide_eq_false_iff_not]
  omega

theorem trim_name (name : SecretName) : Str.trim name.chars = name.chars := by
  have hchars : ∀ c ∈ name.chars, ¬Str.isWhitespace c = true := by
    intro c hc
    rw [isWhitespace_of_isNameChar (List.all_eq_true.1 name.valid c hc)]
    exact Bool.false_ne_true
  have hstart : Str.trimStart name.chars = name.chars :=
    List.dropWhile_eq_self_iff.2 fun hlength => hchars _ (List.getElem_mem hlength)
  have hend : Str.trimEnd name.chars = name.chars :=
    List.rdropWhile_eq_self_iff.2 fun hnil => hchars _ (List.getLast_mem hnil)
  rw [Str.trim, hstart, hend]

theorem new_chars (name : SecretName) : SecretName.new name.chars = .ok name := by
  rw [SecretName.new, trim_name, SecretName.ofTrimmed, dif_neg name.ne_nil, dif_pos name.valid]

theorem new_environment (environmentId : EnvironmentId) :
    SecretScope.new environmentId.chars = .ok (.environment environmentId) := by
  have hnew : ∀ trimmed htrim, trimmed = environmentId.chars →
      EnvironmentId.ofTrimmed trimmed htrim = .ok environmentId := by
    rintro _ htrim rfl
    exact dif_neg environmentId.ne_nil
  rw [SecretScope.new, hnew _ _ environmentId.trim_eq]
  rfl

theorem key_global (name : SecretName) :
    SecretListEntry.key ⟨.global, name⟩ = "global" ++ '/' :: name.chars := by
  have hglobal : ("global/" : Str) = "global" ++ ['/'] := by decide
  show "global/" ++ name.chars = _
  rw [hglobal, List.append_assoc, List.singleton_append]

theorem key_environment (id : EnvironmentId) (name : SecretName) :
    SecretListEntry.key ⟨.environment id, name⟩ =
      "env" ++ '/' :: (id.chars ++ '/' :: name.chars) := by
  have henv : ("env/" : Str) = "env" ++ ['/'] := by decide
  have hslash : ("/" : Str) = ['/'] := by decide
  show "env/" ++ id.chars ++ "/" ++ name.chars = _
  rw [henv, hslash]
  simp only [List.append_assoc, List.cons_append, List.nil_append]

/-- The last slash of a key is before the name. -/
theorem eq_of_append_name {s s' : Str} {name name' : SecretName}
    (h : s ++ '/' :: name.chars = s' ++ '/' :: name'.chars) : s = s' ∧ name = name' := by
  have hreverse := congrArg List.reverse h
  simp only [List.reverse_append, List.reverse_cons, List.append_assoc, List.singleton_append]
    at hreverse
  have hnot (name : SecretName) : '/' ∉ name.chars.reverse := by
    rw [List.mem_reverse]
    exact slash_notMem_name name
  obtain ⟨hname, hs⟩ := (Str.append_cons_inj (hnot name) (hnot name')).1 hreverse
  refine ⟨List.reverse_inj.1 hs, ?_⟩
  cases name
  cases name'
  cases List.reverse_inj.1 hname
  rfl

theorem key_injective : Function.Injective SecretListEntry.key := by
  have hkind : ("global" : Str) ≠ "env" := by decide
  have hglobal : '/' ∉ ("global" : Str) := by decide
  have henv : '/' ∉ ("env" : Str) := by decide
  rintro ⟨scope, name⟩ ⟨scope', name'⟩ h
  cases scope with
  | global =>
    cases scope' with
    | global =>
      rw [key_global, key_global] at h
      obtain ⟨-, rfl⟩ := eq_of_append_name h
      rfl
    | environment id =>
      rw [key_global, key_environment, Str.append_cons_inj hglobal henv] at h
      exact absurd h.1 hkind
  | environment id =>
    cases scope' with
    | global =>
      rw [key_global, key_environment, Str.append_cons_inj henv hglobal] at h
      exact absurd h.1.symm hkind
    | environment id' =>
      rw [key_environment, key_environment, Str.append_cons_inj henv henv] at h
      obtain ⟨hid, rfl⟩ := eq_of_append_name h.2
      cases id
      cases id'
      cases hid
      rfl

theorem intercalate_pair (a b : Str) : ['/'].intercalate [a, b] = a ++ '/' :: b := by
  simp [List.intercalate]

theorem intercalate_triple (a b c : Str) :
    ['/'].intercalate [a, b, c] = a ++ '/' :: (b ++ '/' :: c) := by
  simp [List.intercalate]

theorem parseCanonicalKey_key {entry : SecretListEntry} (h : entry.scope.Plain) :
    parseCanonicalKey entry.key = some entry := by
  obtain ⟨scope, name⟩ := entry
  have hname := slash_notMem_name name
  cases scope with
  | global =>
    have hglobal : '/' ∉ "global".toList := by decide
    have hsplit : Str.split '/' ("global" ++ '/' :: name.chars) =
        ["global".toList, name.chars] := by
      rw [← intercalate_pair]
      refine List.splitOn_intercalate '/' ?_ (List.cons_ne_nil _ _)
      exact List.forall_mem_cons.2 ⟨hglobal, List.forall_mem_singleton.2 hname⟩
    rw [key_global, parseCanonicalKey, hsplit]
    dsimp only
    rw [if_pos rfl, new_chars]
    rfl
  | environment id =>
    have henv : '/' ∉ "env".toList := by decide
    have hsplit : Str.split '/' ("env" ++ '/' :: (id.chars ++ '/' :: name.chars)) =
        ["env".toList, id.chars, name.chars] := by
      rw [← intercalate_triple]
      refine List.splitOn_intercalate '/' ?_ (List.cons_ne_nil _ _)
      exact List.forall_mem_cons.2 ⟨henv,
        List.forall_mem_cons.2 ⟨h, List.forall_mem_singleton.2 hname⟩⟩
    rw [key_environment, parseCanonicalKey, hsplit]
    dsimp only
    rw [if_pos rfl, new_chars, new_environment]
    rfl

/-! ## Refinement -/

section

variable {Passphrase Plaintext Ciphertext : Type} {b : Backend Passphrase Plaintext Ciphertext}
  {w : World Passphrase Ciphertext} {io : Io Passphrase} {m m' : SecretMap} {file : SecretsFile}
  {entry : SecretListEntry} {value : Str}

/-- A file has the values of a map, all of them in scopes without a slash. -/
structure Stored (file : SecretsFile) (m : SecretMap) : Prop where
  version : file.version = secretsVersion
  lookup : ∀ entry : SecretListEntry, file.secrets.lookup entry.key = m entry
  plain : ∀ key ∈ file.secrets, ∃ entry : SecretListEntry, entry.key = key ∧ entry.scope.Plain

/-- The secrets file has the values of a map and can be read with the keyring's passphrase; without
the file the map is empty. -/
def Represents (b : Backend Passphrase Plaintext Ciphertext) (w : World Passphrase Ciphertext)
    (m : SecretMap) : Prop :=
  (w.file = none → m = fun _ => none) ∧ ∀ ciphertext, w.file = some ciphertext →
    ∃ passphrase file, w.keyring = some passphrase ∧
      b.parseFile passphrase ciphertext = .ok file ∧ Stored file m

theorem stored_newEmpty : Stored .newEmpty fun _ => none where
  version := rfl
  lookup _ := Finmap.lookup_empty _
  plain _ h := absurd h Finmap.notMem_empty

theorem Stored.insert (h : Stored file m) (entry : SecretListEntry) (hplain : entry.scope.Plain)
    (value : Str) :
    Stored { file with secrets := file.secrets.insert entry.key value }
      (Function.update m entry (some value)) where
  version := h.version
  lookup entry' := by
    by_cases heq : entry' = entry
    · rw [heq, Function.update_self, Finmap.lookup_insert]
    · rw [Function.update_of_ne heq, Finmap.lookup_insert_of_ne _ fun hkey =>
        heq (key_injective hkey), h.lookup]
  plain key hkey := by
    rcases Finmap.mem_insert.1 hkey with rfl | hkey
    · exact ⟨entry, rfl, hplain⟩
    · exact h.plain key hkey

theorem Stored.erase (h : Stored file m) (entry : SecretListEntry) :
    Stored { file with secrets := file.secrets.erase entry.key }
      (Function.update m entry none) where
  version := h.version
  lookup entry' := by
    by_cases heq : entry' = entry
    · rw [heq, Function.update_self, Finmap.lookup_erase]
    · rw [Function.update_of_ne heq, Finmap.lookup_erase_ne fun hkey =>
        heq (key_injective hkey), h.lookup]
  plain key hkey := h.plain key (Finmap.mem_erase.1 hkey).2

theorem map_key_filterMap {keys : List Str}
    (h : ∀ key ∈ keys, ∃ entry : SecretListEntry, entry.key = key ∧ entry.scope.Plain) :
    (keys.filterMap parseCanonicalKey).map SecretListEntry.key = keys := by
  induction keys with
  | nil => rfl
  | cons key keys ih =>
    obtain ⟨⟨entry, rfl, hplain⟩, hkeys⟩ := List.forall_mem_cons.1 h
    rw [List.filterMap_cons, parseCanonicalKey_key hplain, List.map_cons, ih hkeys]

theorem Stored.listEntries (h : Stored file m) (scopeFilter : Option SecretScope) :
    (Backend.listEntries scopeFilter file).Nodup ∧
      ∀ entry, entry ∈ Backend.listEntries scopeFilter file ↔
        m entry ≠ none ∧ ∀ scope ∈ scopeFilter, entry.scope = scope := by
  have hmap : ((file.secrets.keys.sort (· ≤ ·)).filterMap parseCanonicalKey).map
      SecretListEntry.key = file.secrets.keys.sort (· ≤ ·) :=
    map_key_filterMap fun key hkey =>
      h.plain key (Finmap.mem_keys.1 ((Finset.mem_sort _).1 hkey))
  have hmem : ∀ entry, entry ∈ (file.secrets.keys.sort (· ≤ ·)).filterMap parseCanonicalKey ↔
      m entry ≠ none := by
    intro entry
    rw [← h.lookup, ← Option.isSome_iff_ne_none, Finmap.lookup_isSome, ← Finmap.mem_keys,
      ← Finset.mem_sort (· ≤ ·), ← hmap, List.mem_map_of_injective key_injective, hmap]
  refine ⟨List.Nodup.filter _ (List.Nodup.of_map SecretListEntry.key ?_), fun entry => ?_⟩
  · rw [hmap]
    exact Finset.sort_nodup _ _
  · rw [Backend.listEntries, List.mem_filter, hmem, Option.all_eq_true]
    simp only [decide_eq_true_eq, Option.mem_def]

theorem versioned_eq_self (h : file.version = secretsVersion) : file.versioned = file :=
  if_neg (by rw [h]; decide)

/-- What is written with a passphrase is read with it. -/
theorem parseFile_of_saved {passphrase : Passphrase} {plaintext : Plaintext}
    {ciphertext : Ciphertext} {seed : Nat} (hversion : file.version = secretsVersion)
    (hvec : b.toVec file = .ok plaintext)
    (hencrypt : b.encrypt passphrase seed plaintext = .ok ciphertext) :
    b.parseFile passphrase ciphertext = .ok file := by
  rw [Backend.parseFile, b.decrypt_encrypt _ _ _ _ hencrypt]
  dsimp only
  rw [b.fromSlice_toVec _ _ hvec]
  dsimp only
  rw [versioned_eq_self hversion, if_pos (Nat.le_of_eq hversion)]

/-- The keyring keeps its passphrase, and has the one that is used. -/
theorem loadOrCreatePassphrase_spec (kio : KeyringIo Passphrase) :
    (b.loadOrCreatePassphrase kio w).2.file = w.file ∧
      (∀ passphrase, w.keyring = some passphrase →
        (b.loadOrCreatePassphrase kio w).2 = w) ∧
      ∀ passphrase, (b.loadOrCreatePassphrase kio w).1 = .ok passphrase →
        (b.loadOrCreatePassphrase kio w).2.keyring = some passphrase := by
  rw [Backend.loadOrCreatePassphrase]
  split
  · exact ⟨rfl, fun _ _ => rfl, nofun⟩
  · cases hkeyring : w.keyring with
    | some existing =>
      refine ⟨rfl, fun _ _ => rfl, fun passphrase h => ?_⟩
      cases h
      exact hkeyring
    | none =>
      dsimp only
      split
      · exact ⟨rfl, nofun, nofun⟩
      · split
        · exact ⟨rfl, nofun, nofun⟩
        · refine ⟨rfl, nofun, fun passphrase h => ?_⟩
          cases h
          rfl

theorem Represents.loadOrCreatePassphrase (h : Represents b w m) (kio : KeyringIo Passphrase) :
    Represents b (b.loadOrCreatePassphrase kio w).2 m := by
  obtain ⟨hfile, hkept, -⟩ := loadOrCreatePassphrase_spec (b := b) (w := w) kio
  refine ⟨fun hnone => h.1 (hfile ▸ hnone), fun ciphertext hsome => ?_⟩
  rw [hfile] at hsome
  obtain ⟨passphrase, file, hkeyring, hparse⟩ := h.2 ciphertext hsome
  rw [hkept passphrase hkeyring]
  exact ⟨passphrase, file, hkeyring, hparse⟩

/-- Loading gives the map's values, unless it fails; it changes nothing. -/
theorem Represents.loadFile (h : Represents b w m) (hseen : w.file ≠ none → io.hidden = false) :
    ∃ r, b.loadFile io w = (r, w) ∧ ∀ file, r = .ok file → Stored file m := by
  rw [Backend.loadFile]
  cases hfile : w.file with
  | none =>
    refine ⟨_, rfl, fun file hr => ?_⟩
    cases hr
    rw [h.1 hfile]
    exact stored_newEmpty
  | some ciphertext =>
    obtain ⟨passphrase, file, hkeyring, hparse, hstored⟩ := h.2 ciphertext hfile
    dsimp only
    rw [hseen (by rw [hfile]; nofun), if_neg Bool.false_ne_true]
    split
    · exact ⟨_, rfl, nofun⟩
    · rw [Backend.loadOrCreatePassphrase, hkeyring]
      split
      next e w' heq =>
        split at heq
        · cases heq
          exact ⟨_, rfl, nofun⟩
        · cases heq
      next passphrase' w' heq =>
        split at heq
        · cases heq
        · cases heq
          refine ⟨_, rfl, fun file' hr => ?_⟩
          rw [hparse] at hr
          cases hr
          exact hstored

/-- The file is removed and not replaced. -/
def Backend.LosesFile (b : Backend Passphrase Plaintext Ciphertext) (io : Io Passphrase) : Prop :=
  b.windows = true ∧ io.rename ≠ none ∧ io.hiddenAfter = false ∧ io.remove = none ∧
    io.renameAgain ≠ none

theorem writeFileAtomically_spec {contents : Ciphertext} (h : w.file ≠ none → ¬b.LosesFile io) :
    (∃ e, b.writeFileAtomically io contents w = (.error e, w)) ∨
      b.writeFileAtomically io contents w = (.ok (), { w with file := some contents }) := by
  rw [Backend.writeFileAtomically]
  split
  · exact .inl ⟨_, rfl⟩
  · exact .inl ⟨_, rfl⟩
  · exact .inl ⟨_, rfl⟩
  · split
    · exact .inr rfl
    next initialError hrename =>
      split
      next hwindows =>
        obtain ⟨⟨hwindows, hfile⟩, hseen⟩ := by simpa using hwindows
        split
        · exact .inl ⟨_, rfl⟩
        next hremove =>
          split
          next message hagain =>
            have hrename : io.rename ≠ none := by
              rw [hrename]
              nofun
            have hagain : io.renameAgain ≠ none := by
              rw [hagain]
              nofun
            exact absurd ⟨hwindows, hrename, hseen, hremove, hagain⟩
              (h (Option.isSome_iff_ne_none.1 hfile))
          next => exact .inr rfl
      next => exact .inl ⟨_, rfl⟩

/-- Saving gives the values of another map, or fails and leaves those of this one. -/
theorem Represents.saveFile (h : Represents b w m) (hstored : Stored file m')
    (hkept : w.file ≠ none → ¬b.LosesFile io) :
    (∃ e, (b.saveFile io file w).1 = .error e ∧ Represents b (b.saveFile io file w).2 m) ∨
      (b.saveFile io file w).1 = .ok () ∧ Represents b (b.saveFile io file w).2 m' := by
  rw [Backend.saveFile]
  split
  · exact .inl ⟨_, rfl, h⟩
  · obtain ⟨hfile, -, hkeyring⟩ := loadOrCreatePassphrase_spec (b := b) (w := w) io.saveKeyring
    have hw := h.loadOrCreatePassphrase io.saveKeyring
    rcases hcall : b.loadOrCreatePassphrase io.saveKeyring w with ⟨r, w'⟩
    rw [hcall] at hfile hkeyring hw
    cases r with
    | error e => exact .inl ⟨e, rfl, hw⟩
    | ok passphrase =>
      dsimp only
      split
      · exact .inl ⟨_, rfl, hw⟩
      next plaintext hvec =>
        split
        · exact .inl ⟨_, rfl, hw⟩
        next ciphertext hencrypt =>
          have hwritten : (∃ e, b.writeFileAtomically io ciphertext w' = (.error e, w')) ∨
              b.writeFileAtomically io ciphertext w' =
                (.ok (), { w' with file := some ciphertext }) :=
            writeFileAtomically_spec (hfile ▸ hkept)
          rcases hwritten with ⟨e, hwrite⟩ | hwrite
          · rw [hwrite]
            exact .inl ⟨e, rfl, hw⟩
          · rw [hwrite]
            refine .inr ⟨rfl, nofun, fun ciphertext' heq => ?_⟩
            cases heq
            exact ⟨passphrase, file, hkeyring passphrase rfl,
              parseFile_of_saved hstored.version hvec hencrypt, hstored⟩

/-! ## Steps and runs -/

/-- A step whose scope has no slash, if it sets a value, which sees the file and does not lose
it. -/
structure GoodStep (b : Backend Passphrase Plaintext Ciphertext) (op : Op) (io : Io Passphrase)
    (w : World Passphrase Ciphertext) : Prop where
  plain : ∀ scope name value, op = .set scope name value → scope.Plain
  seen : w.file ≠ none → io.hidden = false
  kept : w.file ≠ none → ¬b.LosesFile io

def GoodRun (b : Backend Passphrase Plaintext Ciphertext) :
    World Passphrase Ciphertext → List (Op × Io Passphrase) → Prop
  | _, [] => True
  | w, (op, io) :: steps => GoodStep b op io w ∧ GoodRun b (b.step op io w).2 steps

variable {scope : SecretScope} {name : SecretName} {scopeFilter : Option SecretScope}

theorem set_refines (h : Represents b w m) (hgood : GoodStep b (.set scope name value) io w) :
    ∃ m', MapStep m (.set scope name value, (b.step (.set scope name value) io w).1) m' ∧
      Represents b (b.step (.set scope name value) io w).2 m' := by
  rw [Backend.step, Backend.set]
  split
  · exact ⟨m, rfl, h⟩
  · obtain ⟨r, hload, hfile⟩ := h.loadFile hgood.seen
    rw [hload]
    cases r with
    | error e => exact ⟨m, rfl, h⟩
    | ok file =>
      have hplain : scope.Plain := hgood.plain scope name value rfl
      have hstored : Stored
          { file with secrets := file.secrets.insert (scope.canonicalKey name) value }
          (Function.update m ⟨scope, name⟩ (some value)) :=
        (hfile file rfl).insert ⟨scope, name⟩ hplain value
      dsimp only [Prod.map]
      rcases h.saveFile hstored hgood.kept with ⟨e, hsave, hw⟩ | ⟨hsave, hw⟩
      · rw [hsave]
        exact ⟨m, rfl, hw⟩
      · rw [hsave]
        exact ⟨_, ⟨rfl, rfl⟩, hw⟩

theorem get_refines (h : Represents b w m) (hgood : GoodStep b (.get scope name) io w) :
    ∃ m', MapStep m (.get scope name, (b.step (.get scope name) io w).1) m' ∧
      Represents b (b.step (.get scope name) io w).2 m' := by
  obtain ⟨r, hload, hfile⟩ := h.loadFile hgood.seen
  rw [Backend.step, Backend.get, hload]
  cases r with
  | error e => exact ⟨m, rfl, h⟩
  | ok file =>
    have hlookup : file.secrets.lookup (scope.canonicalKey name) = m ⟨scope, name⟩ :=
      (hfile file rfl).lookup ⟨scope, name⟩
    dsimp only [Prod.map]
    rw [hlookup]
    exact ⟨m, ⟨rfl, rfl⟩, h⟩

theorem delete_refines (h : Represents b w m) (hgood : GoodStep b (.delete scope name) io w) :
    ∃ m', MapStep m (.delete scope name, (b.step (.delete scope name) io w).1) m' ∧
      Represents b (b.step (.delete scope name) io w).2 m' := by
  obtain ⟨r, hload, hfile⟩ := h.loadFile hgood.seen
  rw [Backend.step, Backend.delete, hload]
  cases r with
  | error e => exact ⟨m, rfl, h⟩
  | ok file =>
    have hlookup : file.secrets.lookup (scope.canonicalKey name) = m ⟨scope, name⟩ :=
      (hfile file rfl).lookup ⟨scope, name⟩
    have hstored : Stored { file with secrets := file.secrets.erase (scope.canonicalKey name) }
        (Function.update m ⟨scope, name⟩ none) := (hfile file rfl).erase ⟨scope, name⟩
    dsimp only
    rw [hlookup]
    cases hvalue : m ⟨scope, name⟩ with
    | none =>
      refine ⟨m, ⟨by rw [hvalue]; rfl, ?_⟩, h⟩
      rw [← hvalue, Function.update_eq_self]
    | some value =>
      rw [Option.isSome_some, if_pos rfl]
      rcases hcall : b.saveFile io
        { file with secrets := file.secrets.erase (scope.canonicalKey name) } w with ⟨r, w'⟩
      have hsaved := h.saveFile hstored hgood.kept
      rw [hcall] at hsaved
      rcases hsaved with ⟨e, rfl, hw⟩ | ⟨rfl, hw⟩
      · exact ⟨m, rfl, hw⟩
      · exact ⟨_, ⟨by rw [hvalue]; rfl, rfl⟩, hw⟩

theorem list_refines (h : Represents b w m) (hgood : GoodStep b (.list scopeFilter) io w) :
    ∃ m', MapStep m (.list scopeFilter, (b.step (.list scopeFilter) io w).1) m' ∧
      Represents b (b.step (.list scopeFilter) io w).2 m' := by
  obtain ⟨r, hload, hfile⟩ := h.loadFile hgood.seen
  rw [Backend.step, Backend.list, hload]
  cases r with
  | error e => exact ⟨m, rfl, h⟩
  | ok file =>
    exact ⟨m, ⟨⟨_, rfl, (hfile file rfl).listEntries scopeFilter⟩, rfl⟩, h⟩

theorem refines_step {op : Op} (h : Represents b w m) (hgood : GoodStep b op io w) :
    ∃ m', MapStep m (op, (b.step op io w).1) m' ∧ Represents b (b.step op io w).2 m' := by
  cases op with
  | set scope name value => exact set_refines h hgood
  | get scope name => exact get_refines h hgood
  | delete scope name => exact delete_refines h hgood
  | list scopeFilter => exact list_refines h hgood

/-- In a run of good steps the backend is a finite map. -/
theorem refines_run {steps : List (Op × Io Passphrase)} (h : Represents b w m)
    (hgood : GoodRun b w steps) :
    ∃ m', Run MapStep m ((steps.map Prod.fst).zip (b.run w steps).1) m' ∧
      Represents b (b.run w steps).2 m' := by
  induction steps generalizing w m with
  | nil => exact ⟨m, .nil m, h⟩
  | cons step steps ih =>
    obtain ⟨op, io⟩ := step
    obtain ⟨m₁, hstep, h₁⟩ := refines_step h hgood.1
    obtain ⟨m', hrun, h'⟩ := ih h₁ hgood.2
    exact ⟨m', .cons hstep hrun, h'⟩

end

/-! ## A keyring and libraries that store what they are given -/

def plainBackend (windows : Bool) : Backend Nat SecretsFile (Nat × SecretsFile) where
  secretsDir := "secrets"
  secretsPath := "secrets/local.age"
  account := "secrets|0"
  windows := windows
  toVec file := .ok file
  fromSlice plaintext := .ok plaintext
  encrypt passphrase _ plaintext := .ok (passphrase, plaintext)
  decrypt passphrase ciphertext :=
    if ciphertext.1 = passphrase then .ok ciphertext.2 else .error "decryption failed"
  fromSlice_toVec file plaintext h := by
    cases h
    rfl
  decrypt_encrypt passphrase seed plaintext ciphertext h := by
    cases h
    exact if_pos rfl

def freshKeyring : KeyringIo Nat := ⟨none, .ok 7, none⟩

/-- Nothing fails. -/
def quietIo : Io Nat where
  hidden := false
  read := none
  loadKeyring := freshKeyring
  createDir := none
  saveKeyring := freshKeyring
  seed := 0
  tmpPath := "secrets/.local.age.tmp-1-1"
  openTmp := none
  writeTmp := none
  syncTmp := none
  rename := none
  hiddenAfter := false
  remove := none
  renameAgain := none

def tokenName : SecretName := ⟨"TOKEN", by decide, by decide⟩

def dockerScope (id : Str) (hne : id ≠ []) (htrim : Str.trim id = id) : SecretScope :=
  .environment ⟨id, hne, htrim⟩

def plainScope : SecretScope := dockerScope "app" (by decide) (by decide)

def slashScope : SecretScope := dockerScope "team/app" (by decide) (by decide)

theorem represents_empty {windows : Bool} :
    Represents (plainBackend windows) ⟨none, none⟩ fun _ => none :=
  ⟨fun _ => rfl, nofun⟩

theorem goodStep_quietIo {windows : Bool} {w : World Nat (Nat × SecretsFile)} {op : Op}
    (hplain : ∀ scope name value, op = .set scope name value → scope.Plain) :
    GoodStep (plainBackend windows) op quietIo w :=
  ⟨hplain, fun _ => rfl, fun _ h => h.2.1 rfl⟩

def setAndList (scope : SecretScope) : List (Op × Io Nat) :=
  [(.set scope tokenName "x", quietIo), (.get scope tokenName, quietIo), (.list none, quietIo)]

/-- A second value that cannot replace the first, which is then read. -/
def setAndFail (io : Io Nat) : List (Op × Io Nat) :=
  [(.set plainScope tokenName "x", quietIo), (.set plainScope tokenName "y", io),
    (.get plainScope tokenName, quietIo)]

/-- A value is set and then asked for. -/
def setAndGet (io : Io Nat) : List (Op × Io Nat) :=
  [(.set plainScope tokenName "x", quietIo), (.get plainScope tokenName, io)]

theorem goodRun_setAndList : GoodRun (plainBackend false) ⟨none, none⟩ (setAndList plainScope) := by
  refine ⟨goodStep_quietIo ?_, goodStep_quietIo nofun, goodStep_quietIo nofun, trivial⟩
  rintro scope name value heq
  cases heq
  decide

theorem refines_setAndList : ∃ m', Run MapStep (fun _ => none)
    (((setAndList plainScope).map Prod.fst).zip
      ((plainBackend false).run ⟨none, none⟩ (setAndList plainScope)).1) m' ∧
    Represents (plainBackend false)
      ((plainBackend false).run ⟨none, none⟩ (setAndList plainScope)).2 m' :=
  refines_run represents_empty goodRun_setAndList

/-- The file is renamed in vain, removed, and renamed in vain again. -/
def failingIo : Io Nat := { quietIo with rename := some "denied", renameAgain := some "denied" }

/-- The file cannot be seen. -/
def hiddenIo : Io Nat := { quietIo with hidden := true }

/-- The outcomes of a run are those of a map that is empty at first. -/
def IsMapRun (ops : List Op) (outcomes : List Outcome) : Prop :=
  ∃ m', Run MapStep (fun _ => none) (ops.zip outcomes) m'

/-- A secret in a scope with a slash is not listed; a secret is lost by an operation that fails,
where the file is removed before it is replaced; and one in a file that cannot be seen is not
found. -/
theorem not_refines :
    ¬IsMapRun ((setAndList slashScope).map Prod.fst)
      ((plainBackend false).run ⟨none, none⟩ (setAndList slashScope)).1 ∧
    ¬IsMapRun ((setAndFail failingIo).map Prod.fst)
      ((plainBackend true).run ⟨none, none⟩ (setAndFail failingIo)).1 ∧
    ¬IsMapRun ((setAndGet hiddenIo).map Prod.fst)
      ((plainBackend false).run ⟨none, none⟩ (setAndGet hiddenIo)).1 := by
  have hslash : ((plainBackend false).run ⟨none, none⟩ (setAndList slashScope)).1 =
      [.ok .unit, .ok (.value (some "x")), .ok (.entries [])] := by decide +kernel
  have hfailing : ∃ e, ((plainBackend true).run ⟨none, none⟩ (setAndFail failingIo)).1 =
      [.ok .unit, .error e, .ok (.value none)] := ⟨_, rfl⟩
  have hhidden : ((plainBackend false).run ⟨none, none⟩ (setAndGet hiddenIo)).1 =
      [.ok .unit, .ok (.value none)] := rfl
  refine ⟨?_, ?_, ?_⟩
  · rw [hslash]
    rintro ⟨m', hrun⟩
    cases hrun with
    | cons hset hrun =>
      cases hrun with
      | cons hget hrun =>
        cases hrun with
        | cons hlist hrun =>
          obtain ⟨-, rfl⟩ := hset
          obtain ⟨-, rfl⟩ := hget
          obtain ⟨⟨entries, hentries, -, hmem⟩, -⟩ := hlist
          cases hentries
          have hlisted := (hmem ⟨slashScope, tokenName⟩).2 ⟨by simp, nofun⟩
          cases hlisted
  · obtain ⟨e, hfailing⟩ := hfailing
    rw [hfailing]
    rintro ⟨m', hrun⟩
    cases hrun with
    | cons hset hrun =>
      cases hrun with
      | cons hfail hrun =>
        cases hrun with
        | cons hget hrun =>
          obtain ⟨-, rfl⟩ := hset
          obtain rfl := hfail
          obtain ⟨hget, -⟩ := hget
          rw [Function.update_self] at hget
          cases hget
  · rw [hhidden]
    rintro ⟨m', hrun⟩
    cases hrun with
    | cons hset hrun =>
      cases hrun with
      | cons hget hrun =>
        obtain ⟨-, rfl⟩ := hset
        obtain ⟨hget, -⟩ := hget
        rw [Function.update_self] at hget
        cases hget

end SheriMl.Secrets
