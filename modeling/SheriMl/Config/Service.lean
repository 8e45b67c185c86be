import SheriMl.Config.ApplyMerge
import SheriMl.Config.Edit
import SheriMl.Config.Origins

/-!
# The config service

`apply_edits` of `core/src/config/service.rs`. The edits are merged into the loaded user config,
which is validated and gives the version that is returned, and an edit of the file follows for each
one whose value at its path has changed. `ConfigToml` is known by its deserialization and
serialization, and the other layers do not change.
-/

namespace SheriMl.Config

open TomlValue

variable {σ κ : Type}

inductive ConfigWriteErrorCode where
  | configLayerReadonly
  | configVersionConflict
  | configValidationError
  | configPathNotFound

inductive ConfigServiceError where
  | write (code : ConfigWriteErrorCode) (message : Str)
  | io (context : Str)
  | anyhow (context : Str)

def MergeError.toServiceError : MergeError → ConfigServiceError
  | .pathNotFound => .write .configPathNotFound "Path not found".toList
  | .validation message => .write .configValidationError message

/-! ## Loading -/

mutual

/-- The resolved value in the shape of the original. -/
def copyShapeFromOriginal : TomlValue σ → TomlValue σ → TomlValue σ
  | .table original, .table resolved => .table (copyEntries original resolved)
  | .array original, .array resolved => .array (copyItems original resolved)
  | _, resolved => resolved

def copyEntries : List (Str × TomlValue σ) → List (Str × TomlValue σ) → List (Str × TomlValue σ)
  | [], _ => []
  | (key, original) :: entries, resolved =>
    (key, copyShapeFromOriginal original ((resolved.lookup key).getD original)) ::
      copyEntries entries resolved

def copyItems : List (TomlValue σ) → List (TomlValue σ) → List (TomlValue σ)
  | [], _ => []
  | original :: items, [] => copyShapeFromOriginal original original :: copyItems items []
  | original :: items, resolved :: rest => copyShapeFromOriginal original resolved :: copyItems items rest

end

theorem keys_copyEntries (original resolved : List (Str × TomlValue σ)) :
    (copyEntries original resolved).map Prod.fst = original.map Prod.fst := by
  induction original with
  | nil => rfl
  | cons entry original ih =>
    obtain ⟨key, value⟩ := entry
    rw [copyEntries, List.map_cons, List.map_cons, ih]

theorem keyed_copyShapeFromOriginal {original resolved : TomlValue σ} (horiginal : original.Keyed)
    (hresolved : resolved.Keyed) : (copyShapeFromOriginal original resolved).Keyed := by
  induction horiginal generalizing resolved with
  | scalar value => exact hresolved
  | @array items hitems ih =>
    cases hresolved with
    | scalar value => exact .scalar value
    | table hkeys hentries => exact .table hkeys hentries
    | @array resolved hresolved =>
      refine .array ?_
      induction items generalizing resolved with
      | nil => exact fun item hmem => by cases hmem
      | cons item items ihitems =>
        have hrest : ∀ {resolved : List (TomlValue σ)}, (∀ item ∈ resolved, item.Keyed) →
            ∀ item ∈ copyItems items resolved, item.Keyed :=
          ihitems (fun item hmem => hitems item (List.mem_cons_of_mem _ hmem))
            fun item hmem => ih item (List.mem_cons_of_mem _ hmem)
        cases resolved with
        | nil =>
          exact List.forall_mem_cons.2 ⟨ih item List.mem_cons_self
            (hitems item List.mem_cons_self), hrest (fun item hmem => by cases hmem)⟩
        | cons found resolved =>
          exact List.forall_mem_cons.2 ⟨ih item List.mem_cons_self
            (hresolved found List.mem_cons_self),
            hrest fun item hmem => hresolved item (List.mem_cons_of_mem _ hmem)⟩
  | @table entries hkeys hentries ih =>
    cases hresolved with
    | scalar value => exact .scalar value
    | array hitems => exact .array hitems
    | @table resolved hkeys' hentries' =>
      refine .table (by rwa [keys_copyEntries]) ?_
      clear hkeys
      induction entries with
      | nil => exact fun entry hmem => by cases hmem
      | cons entry entries ihentries =>
        obtain ⟨key, value⟩ := entry
        have hvalue : ((resolved.lookup key).getD value).Keyed := by
          cases hlookup : resolved.lookup key with
          | none => exact hentries _ List.mem_cons_self
          | some found => exact hentries' _ ((lookup_eq_some_iff hkeys').1 hlookup)
        exact List.forall_mem_cons.2 ⟨ih _ List.mem_cons_self hvalue,
          ihentries (fun entry hmem => hentries entry (List.mem_cons_of_mem _ hmem))
            fun entry hmem => ih entry (List.mem_cons_of_mem _ hmem)⟩

def ConfigTable.copyShape (original resolved : ConfigTable σ) : ConfigTable σ where
  value := copyShapeFromOriginal original.value resolved.value
  isTable := by
    obtain ⟨original, horiginal, -⟩ := original
    obtain ⟨resolved, hresolved, -⟩ := resolved
    cases original with
    | scalar | array => cases horiginal
    | table entries =>
      cases resolved with
      | scalar | array => cases hresolved
      | table entries' => rfl
  keyed := keyed_copyShapeFromOriginal original.keyed resolved.keyed

def ConfigTable.ofDocument (document : TomlDocument σ) : ConfigTable σ :=
  ⟨document.content, rfl, document.keyed⟩

structure ConfigService (σ κ : Type) where
  codexHome : Str
  /-- the path of the user config -/
  allowedPath : Str
  fromAbsolutePath : Str → Option Str
  pathsMatch : Str → Str → Bool
  /-- the layers below the user layer and those above, if they and the requirements load -/
  others : Option (List (ConfigLayerEntry σ) × List (ConfigLayerEntry σ))
  /-- relative paths are resolved against the base, and rejected without one -/
  tryInto : Option Str → TomlValue σ → Except Str κ
  tryFrom : κ → Option (ConfigTable σ)
  /-- the hash of the canonical value as JSON -/
  fingerprint : TomlValue σ → Str
  invalidValue : JsonValue σ → Str

namespace ConfigService

variable (service : ConfigService σ κ)

def resolveRelativePathsInConfigToml (config : ConfigTable σ) (baseDir : Str) :
    Option (ConfigTable σ) :=
  match service.tryInto (some baseDir) config.value with
  | .error _ => some config
  | .ok resolved => (service.tryFrom resolved).map config.copyShape

/-- The user config as it is loaded from a file that parses. -/
def loadUserConfig (document : TomlDocument σ) : Option (ConfigTable σ) :=
  service.resolveRelativePathsInConfigToml (.ofDocument document) service.codexHome

def versionForToml (value : TomlValue σ) : Str := service.fingerprint value.canonical

def validateConfig (value : TomlValue σ) : Except Str Unit :=
  (service.tryInto none value).map fun _ => ()

def userLayer (file : Str) (config : ConfigTable σ) : ConfigLayerEntry σ where
  name := .user file
  config := config.value
  version := service.versionForToml config.value
  disabledReason := none
  isTable := config.isTable
  keyed := config.keyed

end ConfigService

/-! ## Edits that other layers override -/

def overrideMessage : ConfigLayerSource → Str
  | .mdm domain _ => "Overridden by managed policy (MDM): ".toList ++ domain
  | .system file => "Overridden by managed config (system): ".toList ++ file
  | .project dotCodexFolder =>
    "Overridden by project config: ".toList ++ dotCodexFolder ++ "/config.toml".toList
  | .sessionFlags => "Overridden by session flags".toList
  | .user file => "Overridden by user config: ".toList ++ file
  | .legacyManagedConfigTomlFromFile file =>
    "Overridden by legacy managed_config.toml: ".toList ++ file
  | .legacyManagedConfigTomlFromMdm =>
    "Overridden by legacy managed configuration from MDM".toList

structure OverriddenMetadata (σ : Type) where
  message : Str
  overridingLayer : ConfigLayerMetadata
  effectiveValue : Option (TomlValue σ)

/-- The values are equal, or both absent. -/
def SameOption (value value' : Option (TomlValue σ)) : Prop :=
  value.map canonical = value'.map canonical

instance [DecidableEq σ] (value value' : Option (TomlValue σ)) :
    Decidable (SameOption value value') :=
  inferInstanceAs (Decidable (value.map canonical = value'.map canonical))

def findEffectiveLayer (layers : ConfigLayerStack σ) (segments : List Str) :
    Option ConfigLayerMetadata :=
  ((layers.getLayers .highestPrecedenceFirst false).find? fun layer =>
    (valueAtPath segments layer.config).isSome).map ConfigLayerEntry.metadata

def computeOverrideMetadata [DecidableEq σ] (layers : ConfigLayerStack σ)
    (userConfig effective : TomlValue σ) (segments : List Str) : Option (OverriddenMetadata σ) :=
  let userValue := valueAtPath segments userConfig
  let effectiveValue := valueAtPath segments effective
  if userValue.isSome ∧ SameOption userValue effectiveValue then none
  else if userValue.isNone ∧ effectiveValue.isNone then none
  else
    (findEffectiveLayer layers segments).map fun overridingLayer =>
      ⟨overrideMessage overridingLayer.name, overridingLayer, effectiveValue⟩

def firstOverriddenEdit [DecidableEq σ] (layers : ConfigLayerStack σ)
    (userConfig effective : TomlValue σ) (edits : List (List Str)) :
    Option (OverriddenMetadata σ) :=
  edits.findSome? (computeOverrideMetadata layers userConfig effective)

/-! ## Writing -/

inductive WriteStatus where
  | ok
  | okOverridden

structure ConfigWriteResponse (σ : Type) where
  status : WriteStatus
  version : Str
  filePath : Str
  overriddenMetadata : Option (OverriddenMetadata σ)

structure WriteParams (σ : Type) where
  filePath : Option Str
  expectedVersion : Option Str
  edits : List (Edit σ)

/-- What an edit makes of the config, with the edit of the file that follows. -/
structure MergedEdit (σ : Type) where
  segments : List Str
  userConfig : ConfigTable σ
  configEdit : Option (ConfigEdit σ)

/-- The layers that an operation has loaded, with the path that it writes to. -/
structure LoadedLayers (σ : Type) where
  providedPath : Str
  lower : List (ConfigLayerEntry σ)
  userConfig : ConfigTable σ
  upper : List (ConfigLayerEntry σ)

/-- What is to be written, with what is answered then. -/
structure Prepared (σ : Type) where
  userConfig : ConfigTable σ
  merged : List (MergedEdit σ)
  response : ConfigWriteResponse σ

def Prepared.configEdits (prepared : Prepared σ) : List (ConfigEdit σ) :=
  prepared.merged.filterMap MergedEdit.configEdit

theorem keyed_valueAtPath {segments : List Str} {current value : TomlValue σ}
    (h : valueAtPath segments current = some value) (hcurrent : current.Keyed) : value.Keyed := by
  induction segments generalizing current with
  | nil =>
    obtain rfl := Option.some.inj h
    exact hcurrent
  | cons segment segments ih =>
    cases hcurrent with
    | scalar value => cases h
    | array hitems =>
      obtain ⟨index, -, h⟩ := Option.bind_eq_some_iff.1 h
      obtain ⟨item, hitem, h⟩ := Option.bind_eq_some_iff.1 h
      exact ih h (hitems item (List.mem_of_getElem? hitem))
    | table hkeys hentries =>
      obtain ⟨inner, hinner, h⟩ := Option.bind_eq_some_iff.1 h
      exact ih h (hentries _ ((lookup_eq_some_iff hkeys).1 hinner))

/-- The edit of the file for a value that has changed. -/
def editFor (segments : List Str) (config : ConfigTable σ) : ConfigEdit σ :=
  match h : valueAtPath segments config.value with
  | some value =>
    .setPath segments (tomlValueToItem value) (by
      rw [content_tomlValueToItem]
      exact keyed_valueAtPath h config.keyed)
  | none => .clearPath segments

namespace ConfigService

variable (service : ConfigService σ κ)

def parseValue (value : JsonValue σ) :
    Except Str (Option { value : TomlValue σ // value.Keyed }) :=
  match value with
  | .null => .ok none
  | value =>
    match h : fromValue value with
    | some parsed => .ok (some ⟨parsed, keyed_fromValue h⟩)
    | none => .error ("invalid value: ".toList ++ service.invalidValue value)

variable [DecidableEq σ]

def mergeEdit (config : ConfigTable σ) (edit : Edit σ) :
    Except ConfigServiceError (MergedEdit σ) := do
  let segments ← (parseKeyPath edit.keyPath).mapError (.write .configValidationError)
  let value ← (service.parseValue edit.value).mapError (.write .configValidationError)
  let userConfig ←
    (config.applyMerge segments value edit.mergeStrategy).mapError MergeError.toServiceError
  if SameOption (valueAtPath segments config.value) (valueAtPath segments userConfig.value) then
    return ⟨segments, userConfig, none⟩
  else
    return ⟨segments, userConfig, some (editFor segments userConfig)⟩

/-- The loop over the edits. -/
def mergeEdits (config : ConfigTable σ) : List (Edit σ) →
    Except ConfigServiceError (ConfigTable σ × List (MergedEdit σ))
  | [] => return (config, [])
  | edit :: edits => do
    let merged ← service.mergeEdit config edit
    let (userConfig, rest) ← mergeEdits merged.userConfig edits
    return (userConfig, merged :: rest)

def validate (value : TomlValue σ) : Except ConfigServiceError Unit :=
  (service.validateConfig value).mapError fun err =>
    .write .configValidationError ("Invalid configuration: ".toList ++ err)

def checkPath (params : WriteParams σ) : Except ConfigServiceError Str := do
  let providedPath ←
    match params.filePath with
    | some path =>
      match service.fromAbsolutePath path with
      | some path => pure path
      | none => throw (.io "failed to resolve user config path".toList)
    | none => pure service.allowedPath
  if service.pathsMatch service.allowedPath providedPath then
    return providedPath
  else
    throw (.write .configLayerReadonly "Only writes to the user config are allowed".toList)

def checkVersion (params : WriteParams σ) (config : ConfigTable σ) :
    Except ConfigServiceError Unit :=
  match params.expectedVersion with
  | some expected =>
    if expected ≠ service.versionForToml config.value then
      throw (.write .configVersionConflict
        "Configuration was modified since last read. Fetch latest version and retry.".toList)
    else return ()
  | none => return ()

/-- The path is checked, and the layers are loaded. -/
def load (params : WriteParams σ) (file : Option (TomlDocument σ)) :
    Except ConfigServiceError (LoadedLayers σ) := do
  let providedPath ← service.checkPath params
  match service.others, file.bind service.loadUserConfig with
  | some (lower, upper), some userConfig => return ⟨providedPath, lower, userConfig, upper⟩
  | _, _ => throw (.io "failed to load configuration".toList)

/-- The version is checked, and the edits are merged and validated. -/
def prepareLoaded (params : WriteParams σ) (loaded : LoadedLayers σ) :
    Except ConfigServiceError (Prepared σ) := do
  service.checkVersion params loaded.userConfig
  let (userConfig, merged) ← service.mergeEdits loaded.userConfig params.edits
  service.validate userConfig.value
  let userLayer := service.userLayer loaded.providedPath userConfig
  let updatedLayers : ConfigLayerStack σ := ⟨loaded.lower ++ userLayer :: loaded.upper⟩
  let effective := updatedLayers.effectiveConfig
  service.validate effective
  let overridden := firstOverriddenEdit updatedLayers userConfig.value effective
    (merged.map MergedEdit.segments)
  let status := if overridden.isSome then WriteStatus.okOverridden else .ok
  return ⟨userConfig, merged, ⟨status, userLayer.version, loaded.providedPath, overridden⟩⟩

/-- `apply_edits` up to the writing of the file. -/
def prepare (params : WriteParams σ) (file : Option (TomlDocument σ)) :
    Except ConfigServiceError (Prepared σ) := do
  service.prepareLoaded params (← service.load params file)

def applyEdits (params : WriteParams σ) (writes : Bool) (file : Option (TomlDocument σ)) :
    Except ConfigServiceError (ConfigWriteResponse σ) × Option (TomlDocument σ) :=
  match service.prepare params file with
  | .error err => (.error err, file)
  | .ok prepared =>
    match applyBlocking prepared.configEdits writes file with
    | (.ok (), file') => (.ok prepared.response, file')
    | (.error _, file') => (.error (.anyhow "failed to persist config.toml".toList), file')

end ConfigService

end SheriMl.Config
