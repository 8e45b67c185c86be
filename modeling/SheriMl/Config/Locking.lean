import SheriMl.Config.StoredEdits
import SheriMl.Lib.Pool

/-!
# Optimistic locking of the user config

Any number of calls of `apply_edits`, each of which loads the layers, checks the version and merges,
and writes the file, with other calls in between. The version is checked against the layers that were
loaded, and the write goes by the file that is there. The acknowledged calls make a chain of contents
from the first file to the last (`Chain`), which is all that `locked_of_run` rests on.
-/

namespace SheriMl.Config

open TomlValue Transition

variable {σ κ : Type} [DecidableEq σ]

/-- A call that has returned `Ok`, with the file as its write has found and left it. -/
structure Ack (service : ConfigService σ κ) where
  params : WriteParams σ
  loaded : LoadedLayers σ
  prepared : Prepared σ
  before : TomlDocument σ
  after : TomlDocument σ
  prepares : service.prepareLoaded params loaded = .ok prepared
  writes : ∃ writes,
    applyBlocking prepared.configEdits writes (some before) = (.ok (), some after)

inductive Call (service : ConfigService σ κ) where
  | load (params : WriteParams σ)
  | check (params : WriteParams σ) (loaded : LoadedLayers σ)
  | write (params : WriteParams σ) (loaded : LoadedLayers σ) (prepared : Prepared σ)
    (prepares : service.prepareLoaded params loaded = .ok prepared)

structure UserFile (service : ConfigService σ κ) where
  file : Option (TomlDocument σ)
  acknowledged : List (Ack service)

section Runs

variable {service : ConfigService σ κ}

inductive Call.Start : Call service → Prop
  | load (params : WriteParams σ) : Start (.load params)

/-- A call that loads has found a file that parses, and a write leaves one. -/
inductive Op : UserFile service → Call service → Unit → UserFile service →
    Multiset (Call service) → Prop
  | load {s : UserFile service} {params : WriteParams σ} {loaded : LoadedLayers σ} :
      service.load params s.file = .ok loaded → Op s (.load params) () s {.check params loaded}
  | notLoaded {s : UserFile service} {params : WriteParams σ} {err : ConfigServiceError} :
      service.load params s.file = .error err → Op s (.load params) () s 0
  | check {s : UserFile service} {params : WriteParams σ} {loaded : LoadedLayers σ}
      {prepared : Prepared σ} (h : service.prepareLoaded params loaded = .ok prepared) :
      Op s (.check params loaded) () s {.write params loaded prepared h}
  | rejected {s : UserFile service} {params : WriteParams σ} {loaded : LoadedLayers σ}
      {err : ConfigServiceError} : service.prepareLoaded params loaded = .error err →
      Op s (.check params loaded) () s 0
  | write {acknowledged : List (Ack service)} {params : WriteParams σ}
      {loaded : LoadedLayers σ} {prepared : Prepared σ}
      {h : service.prepareLoaded params loaded = .ok prepared} {writes : Bool}
      {before after : TomlDocument σ}
      (hwrite : applyBlocking prepared.configEdits writes (some before) = (.ok (), some after)) :
      Op ⟨some before, acknowledged⟩ (.write params loaded prepared h) ()
        ⟨some after, acknowledged ++ [⟨params, loaded, prepared, before, after, h, writes, hwrite⟩]⟩
        0
  | notWritten {s : UserFile service} {params : WriteParams σ} {loaded : LoadedLayers σ}
      {prepared : Prepared σ} {h : service.prepareLoaded params loaded = .ok prepared}
      {writes : Bool} {err : PersistError} {file' : Option (TomlDocument σ)} :
      applyBlocking prepared.configEdits writes s.file = (.error err, file') →
      Op s (.write params loaded prepared h) () ⟨file', s.acknowledged⟩ 0

/-- Calls that begin on a file lead to another one, and those in `acknowledged` have returned `Ok`.
None is left in progress. -/
def Leads (file : Option (TomlDocument σ)) (acknowledged : List (Ack service))
    (file' : Option (TomlDocument σ)) : Prop :=
  ∃ labels, Run (Pool.Step Call.Start Op) ⟨⟨file, []⟩, 0⟩ labels ⟨⟨file', acknowledged⟩, 0⟩

/-- Each call finds the file as the one before has left it. -/
def Chain (file : Option (TomlDocument σ)) : List (Ack service) → Option (TomlDocument σ) → Prop
  | [], file' => file = file'
  | ack :: acks, file' => file = some ack.before ∧ Chain (some ack.after) acks file'

namespace Chain

variable {file file' : Option (TomlDocument σ)} {acks acks' : List (Ack service)} {ack : Ack service}

theorem of_append (h : Chain file (acks ++ acks') file') :
    ∃ between, Chain file acks between ∧ Chain between acks' file' := by
  induction acks generalizing file with
  | nil => exact ⟨file, rfl, h⟩
  | cons ack acks ih =>
    obtain ⟨hfile, h⟩ := h
    obtain ⟨between, hleft, hright⟩ := ih h
    exact ⟨between, ⟨hfile, hleft⟩, hright⟩

theorem snoc (h : Chain file acks (some ack.before)) : Chain file (acks ++ [ack]) (some ack.after) := by
  induction acks generalizing file with
  | nil => exact ⟨h, rfl⟩
  | cons ack' acks ih => exact ⟨h.1, ih h.2⟩

end Chain

theorem Op.chain {s s' : UserFile service} {call : Call service} {label : Unit}
    {calls : Multiset (Call service)} {file : Option (TomlDocument σ)}
    (h : Op s call label s' calls) (hchain : Chain file s.acknowledged s.file) :
    Chain file s'.acknowledged s'.file := by
  cases h with
  | load | notLoaded | check | rejected => exact hchain
  | write hwrite => exact hchain.snoc
  | notWritten herr =>
    rw [applyBlocking_error herr]
    exact hchain

theorem chain_of_run {file : Option (TomlDocument σ)} {labels : List (Option Unit)}
    {c : Pool.Config (UserFile service) (Call service)}
    (h : Run (Pool.Step Call.Start Op) ⟨⟨file, []⟩, 0⟩ labels c) :
    Chain file c.shared.acknowledged c.shared.file := by
  refine h.invariant (I := fun c : Pool.Config (UserFile service) (Call service) =>
    Chain file c.shared.acknowledged c.shared.file) (fun hc hstep => ?_) rfl
  have hboth := hstep.preserves (I := fun s => Chain file s.acknowledged s.file)
    (J := fun _ => True) (fun _ => trivial)
    (fun hop hI _ => ⟨hop.chain hI, fun _ _ => trivial⟩) ⟨hc, fun _ _ => trivial⟩
  exact hboth.1

/-! ## What the chain says of the calls -/

namespace Ack

variable (ack : Ack service)

/-- The file spells, when the call writes, the config that it has loaded. -/
def Undisturbed : Prop := Same ack.loaded.userConfig.value ack.before.content

/-- The file has another version after the call. -/
def Changes : Prop :=
  service.versionForToml ack.after.content ≠ service.versionForToml ack.before.content

variable {ack : Ack service}

theorem version_before {version : Str} (hexpected : ack.params.expectedVersion = some version)
    (h : ack.Undisturbed) : service.versionForToml ack.before.content = version := by
  obtain ⟨hcheck, -⟩ := prepareLoaded_eq ack.prepares
  simp only [ConfigService.checkVersion, hexpected] at hcheck
  split at hcheck
  · cases hcheck
  next heq => exact ((not_not.1 heq).trans (congrArg service.fingerprint h)).symm

theorem mergedBy {merged : MergedEdit σ} (h : merged ∈ ack.prepared.merged) :
    merged.MergedBy service :=
  mergedBy_of_mem (prepareLoaded_eq ack.prepares).2.1 h

theorem same_writtenAll (ack : Ack service) :
    Same (MergedEdit.writtenAll ack.prepared.merged ack.before).content ack.after.content := by
  obtain ⟨writes, hwrites⟩ := ack.writes
  rw [← MergedEdit.applyAll_eq]
  exact same_applyBlocking hwrites

theorem stored {segments : List Str} {wanted : Option (TomlValue σ)}
    (h : Stored segments wanted ack.before.content)
    (hapart : ∀ merged ∈ ack.prepared.merged, Apart segments merged.segments) :
    Stored segments wanted ack.after.content :=
  (h.writtenAll fun merged hmem => ⟨ack.mergedBy hmem, hapart merged hmem⟩).congr
    (TomlDocument.keyed _) ack.after.keyed ack.same_writtenAll

end Ack

namespace Chain

variable {file file' : Option (TomlDocument σ)} {acks : List (Ack service)}

/-- A version that has gone and is there again has been brought back. -/
theorem exists_restoring {document document' : TomlDocument σ} {version : Str}
    (h : Chain (some document) acks (some document'))
    (hgone : service.versionForToml document.content ≠ version)
    (hback : service.versionForToml document'.content = version) :
    ∃ ack ∈ acks, service.versionForToml ack.before.content ≠ version ∧
      service.versionForToml ack.after.content = version := by
  induction acks generalizing document with
  | nil =>
    obtain rfl := Option.some.inj h
    exact absurd hback hgone
  | cons ack acks ih =>
    obtain ⟨hfile, h⟩ := h
    obtain rfl := Option.some.inj hfile
    by_cases hafter : service.versionForToml ack.after.content = version
    · exact ⟨ack, List.mem_cons_self, hgone, hafter⟩
    · obtain ⟨found, hmem, hfound⟩ := ih h hafter
      exact ⟨found, List.mem_cons_of_mem _ hmem, hfound⟩

theorem stored {document : TomlDocument σ} {segments : List Str} {wanted : Option (TomlValue σ)}
    (h : Chain (some document) acks file') (hstored : Stored segments wanted document.content)
    (hapart : ∀ ack ∈ acks, ∀ merged ∈ ack.prepared.merged, Apart segments merged.segments) :
    ∃ document', file' = some document' ∧ Stored segments wanted document'.content := by
  induction acks generalizing document with
  | nil => exact ⟨document, h.symm, hstored⟩
  | cons ack acks ih =>
    obtain ⟨hfile, h⟩ := h
    obtain rfl := Option.some.inj hfile
    obtain ⟨hfirst, hrest⟩ := List.forall_mem_cons.1 hapart
    exact ih h (ack.stored hstored hfirst) hrest

end Chain

/-- `exclusive`: of two calls that expect one version and find the file as they have loaded it, the
first changing it, both return `Ok` only if a call between them brings the file back to that version.
`kept`: an acknowledged edit that reaches its place is in the file, unless an acknowledged edit
follows at its path, above or below it. `reached`: the edits of a call that finds the file as it has
loaded it reach their places if they are heard. -/
structure Locked (acks : List (Ack service)) (file : Option (TomlDocument σ)) : Prop where
  exclusive : ∀ (earlier between later : List (Ack service)) (first second : Ack service)
    (version : Str), acks = earlier ++ first :: (between ++ second :: later) →
    first.params.expectedVersion = some version → second.params.expectedVersion = some version →
    first.Undisturbed → second.Undisturbed → first.Changes →
    ∃ ack ∈ between, service.versionForToml ack.before.content ≠ version ∧
      service.versionForToml ack.after.content = version
  kept : ∀ (earlier later : List (Ack service)) (ack : Ack service)
    (before after : List (MergedEdit σ)) (merged : MergedEdit σ),
    acks = earlier ++ ack :: later → ack.prepared.merged = before ++ merged :: after →
    merged.Reaches (MergedEdit.writtenAll before ack.before) →
    (∀ other ∈ after ++ later.flatMap fun ack => ack.prepared.merged,
      Apart merged.segments other.segments) →
    ∃ document, file = some document ∧
      SameOption merged.wanted (valueAtPath merged.segments document.content)
  reached : ∀ ack ∈ acks, ack.Undisturbed →
    BatchHeard service ack.params.edits ack.loaded.userConfig ack.before →
    ∀ (before after : List (MergedEdit σ)) (merged : MergedEdit σ),
      ack.prepared.merged = before ++ merged :: after →
      merged.Reaches (MergedEdit.writtenAll before ack.before)

theorem exclusive_of_chain {file file' : Option (TomlDocument σ)}
    {earlier between later : List (Ack service)} {first second : Ack service} {version : Str}
    (h : Chain file (earlier ++ first :: (between ++ second :: later)) file')
    (hfirst : first.params.expectedVersion = some version)
    (hsecond : second.params.expectedVersion = some version)
    (hundisturbed : first.Undisturbed) (hundisturbed' : second.Undisturbed)
    (hchanges : first.Changes) :
    ∃ ack ∈ between, service.versionForToml ack.before.content ≠ version ∧
      service.versionForToml ack.after.content = version := by
  obtain ⟨_, -, -, hafter⟩ := h.of_append
  obtain ⟨_, hbetween, rfl, -⟩ := hafter.of_append
  refine hbetween.exists_restoring ?_ (Ack.version_before hsecond hundisturbed')
  rw [← Ack.version_before hfirst hundisturbed]
  exact hchanges

theorem kept_of_chain {file file' : Option (TomlDocument σ)} {earlier later : List (Ack service)}
    {ack : Ack service} {before after : List (MergedEdit σ)} {merged : MergedEdit σ}
    (h : Chain file (earlier ++ ack :: later) file')
    (hmerged : ack.prepared.merged = before ++ merged :: after)
    (hreaches : merged.Reaches (MergedEdit.writtenAll before ack.before))
    (hapart : ∀ other ∈ after ++ later.flatMap fun ack => ack.prepared.merged,
      Apart merged.segments other.segments) :
    ∃ document, file' = some document ∧ Stored merged.segments merged.wanted document.content := by
  obtain ⟨_, -, -, hlater⟩ := h.of_append
  have hmem : ∀ other ∈ merged :: after, other.MergedBy service := fun other hother =>
    ack.mergedBy (hmerged ▸ List.mem_append_right before hother)
  have hwritten := stored_of_reaches (hmem merged List.mem_cons_self) hreaches
  have hbatch : Stored merged.segments merged.wanted
      (MergedEdit.writtenAll ack.prepared.merged ack.before).content := by
    rw [hmerged, MergedEdit.writtenAll, List.foldl_append, List.foldl_cons]
    exact hwritten.writtenAll fun other hother =>
      ⟨hmem other (List.mem_cons_of_mem _ hother),
        hapart other (List.mem_append_left _ hother)⟩
  refine hlater.stored (hbatch.congr (TomlDocument.keyed _) ack.after.keyed ack.same_writtenAll) ?_
  intro ack' hack' other hother
  exact hapart other (List.mem_append_right _ (List.mem_flatMap.2 ⟨ack', hack', hother⟩))

theorem locked_of_chain {file file' : Option (TomlDocument σ)} {acks : List (Ack service)}
    (h : Chain file acks file') : Locked acks file' := by
  refine ⟨?_, ?_, ?_⟩
  · rintro earlier between later first second version rfl hfirst hsecond hund hund' hchanges
    exact exclusive_of_chain h hfirst hsecond hund hund' hchanges
  · rintro earlier later ack before after merged rfl hmerged hreaches hapart
    obtain ⟨document, hfile, hstored⟩ := kept_of_chain h hmerged hreaches hapart
    exact ⟨document, hfile, hstored.sameOption⟩
  · intro ack _ hundisturbed hheard before after merged hmerged
    exact reaches_batch hundisturbed (prepareLoaded_eq ack.prepares).2.1 hheard hmerged

/-- The file after a call that has loaded one document and writes over another, if it returns `Ok`. -/
def ConfigService.writeOver (service : ConfigService σ κ) (params : WriteParams σ)
    (document before : TomlDocument σ) : Option (TomlDocument σ) :=
  match service.prepare params (some document) with
  | .ok prepared =>
    match applyBlocking prepared.configEdits true (some before) with
    | (.ok (), after) => after
    | (.error _, _) => none
  | .error _ => none

/-- What a call that has loaded a document is acknowledged for. -/
structure Ack.Of (ack : Ack service) (params : WriteParams σ)
    (document before after : TomlDocument σ) : Prop where
  params_eq : ack.params = params
  load_eq : service.load params (some document) = .ok ack.loaded
  before_eq : ack.before = before
  after_eq : ack.after = after

theorem exists_ack {params : WriteParams σ} {document before after : TomlDocument σ}
    (h : service.writeOver params document before = some after) :
    ∃ ack : Ack service, ack.Of params document before after := by
  unfold ConfigService.writeOver at h
  split at h
  next prepared hprepared =>
    obtain ⟨loaded, hloaded, hprepares⟩ := Result.exists_of_bind_eq_ok hprepared
    split at h
    next file hwrite =>
      obtain rfl := h
      exact ⟨⟨params, loaded, prepared, before, after, hprepares, true, hwrite⟩, rfl, hloaded, rfl,
        rfl⟩
    · cases h
  · cases h

namespace Ack.Of

variable {ack : Ack service} {params : WriteParams σ} {document before after : TomlDocument σ}

theorem prepare_eq (h : ack.Of params document before after) :
    service.prepare params (some document) = .ok ack.prepared := by
  rw [ConfigService.prepare, h.load_eq, ← h.params_eq]
  exact ack.prepares

theorem loadUserConfig_eq (h : ack.Of params document before after) :
    service.loadUserConfig document = some ack.loaded.userConfig := by
  obtain ⟨found, hfound, hload⟩ := Config.load_eq h.load_eq
  obtain rfl := Option.some.inj hfound
  exact hload

theorem undisturbed (h : ack.Of params document document after)
    (hspells : (service.loadUserConfig document).map ConfigTable.value = some document.content) :
    ack.Undisturbed := by
  rw [h.loadUserConfig_eq] at hspells
  rw [Undisturbed, h.before_eq, Option.some.inj hspells]
  exact .refl _

theorem changes (h : ack.Of params document before after)
    (hversions : service.versionForToml after.content ≠ service.versionForToml before.content) :
    ack.Changes := by
  rw [Changes, h.before_eq, h.after_eq]
  exact hversions

end Ack.Of

namespace Leads

variable {file : Option (TomlDocument σ)} {acks : List (Ack service)}
  {document : TomlDocument σ} {params params' : WriteParams σ} {after after' : TomlDocument σ}
  {first second : Ack service}

theorem refl (file : Option (TomlDocument σ)) : Leads file ([] : List (Ack service)) file :=
  ⟨[], .nil _⟩

/-- A call of its own. -/
theorem single (h : Leads file acks (some document))
    (hfirst : first.Of params document document after) :
    Leads file (acks ++ [first]) (some after) := by
  obtain ⟨labels, hrun⟩ := h
  obtain ⟨params, loaded, prepared, before, after, hprepares, writes, hwrite⟩ := first
  obtain ⟨rfl, hload, rfl, rfl⟩ := hfirst
  exact ⟨_, hrun.append <|
    .cons (.start (.load params)) <|
    .cons (.beside 0 (.load hload) rfl) <|
    .cons (.beside 0 (.check hprepares) rfl) <|
    .single (.beside 0 (Op.write hwrite) rfl)⟩

/-- Two calls load one document, and write one after the other. -/
theorem overlap (h : Leads file acks (some document))
    (hfirst : first.Of params document document after)
    (hsecond : second.Of params' document after after') :
    Leads file (acks ++ [first] ++ [second]) (some after') := by
  obtain ⟨labels, hrun⟩ := h
  obtain ⟨params, loaded, prepared, before, after, hprepares, writes, hwrite⟩ := first
  obtain ⟨params', loaded', prepared', before', after', hprepares', writes', hwrite'⟩ := second
  obtain ⟨rfl, hload, rfl, rfl⟩ := hfirst
  obtain ⟨rfl, hload', rfl, rfl⟩ := hsecond
  exact ⟨_, hrun.append <|
    .cons (.start (.load params)) <|
    .cons (.beside 0 (.load hload) rfl) <|
    .cons (.beside 0 (.check hprepares) rfl) <|
    .cons (.start (.load params')) <|
    .cons (.beside {.write params loaded prepared hprepares} (.load hload') rfl) <|
    .cons (.beside {.write params loaded prepared hprepares} (.check hprepares') rfl) <|
    .cons (.beside {.write params' loaded' prepared' hprepares'} (Op.write hwrite)
      (Multiset.cons_swap _ _ 0)) <|
    .single (.beside 0 (Op.write hwrite') rfl)⟩

end Leads

/-- Of two calls that expect one version and change it, at most one returns `Ok`. -/
def OneOfEach (acks : List (Ack service)) : Prop :=
  ∀ (earlier between later : List (Ack service)) (first second : Ack service) (version : Str),
    acks = earlier ++ first :: (between ++ second :: later) →
    first.params.expectedVersion = some version → second.params.expectedVersion = some version →
    ¬(first.Changes ∧ second.Changes)

/-- Each acknowledged edit is in the file, unless one follows at its path. -/
def NoneMissing (acks : List (Ack service)) (file : Option (TomlDocument σ)) : Prop :=
  ∀ (earlier later : List (Ack service)) (ack : Ack service)
    (before after : List (MergedEdit σ)) (merged : MergedEdit σ),
    acks = earlier ++ ack :: later → ack.prepared.merged = before ++ merged :: after →
    (∀ other ∈ after ++ later.flatMap fun ack => ack.prepared.merged,
      other.segments ≠ merged.segments) →
    ∃ document, file = some document ∧
      SameOption merged.wanted (valueAtPath merged.segments document.content)

end Runs

def expecting (params : WriteParams Str) (document : TomlDocument Str) : WriteParams Str :=
  { params with expectedVersion := some (sampleService.versionForToml document.content) }

theorem overlapping_not_oneOfEach : ∃ (acks : List (Ack sampleService)) (file : _),
    Leads (some themeDocument) acks file ∧ ¬OneOfEach acks := by
  have hwrites : ((sampleService.writeOver (expecting (setting "tui.theme" "dark") themeDocument)
      themeDocument themeDocument).bind fun after =>
      (sampleService.writeOver (expecting (setting "tui.theme" "solar") themeDocument)
        themeDocument after).map fun after' =>
        (sampleService.versionForToml after.content, sampleService.versionForToml after'.content)) =
      some ("tui.theme=dark".toList, "tui.theme=solar".toList) := by decide +kernel
  obtain ⟨after, hfirst, hwrites⟩ := Option.bind_eq_some_iff.1 hwrites
  obtain ⟨after', hsecond, hversions⟩ := Option.map_eq_some_iff.1 hwrites
  obtain ⟨hversion, hversion'⟩ := Prod.mk.inj hversions
  obtain ⟨first, hfirst⟩ := exists_ack hfirst
  obtain ⟨second, hsecond⟩ := exists_ack hsecond
  refine ⟨_, _, (Leads.refl _).overlap hfirst hsecond, fun hone => ?_⟩
  refine hone [] [] [] first second (sampleService.versionForToml themeDocument.content) rfl
    (by rw [hfirst.params_eq]; rfl) (by rw [hsecond.params_eq]; rfl)
    ⟨hfirst.changes ?_, hsecond.changes ?_⟩
  · rw [hversion]
    decide +kernel
  · rw [hversion, hversion']
    decide +kernel

theorem restored_not_oneOfEach : ∃ (acks : List (Ack sampleService)) (file : _),
    Leads (some themeDocument) acks file ∧ (∀ ack ∈ acks, ack.Undisturbed) ∧ ¬OneOfEach acks := by
  have hwrites : ((sampleService.writeOver (expecting (setting "tui.theme" "dark") themeDocument)
      themeDocument themeDocument).bind fun after =>
      (sampleService.writeOver (setting "tui.theme" "light") after after).bind fun restored =>
      (sampleService.writeOver (expecting (setting "tui.theme" "solar") themeDocument)
        restored restored).map fun after' =>
        ([themeDocument, after, restored].map fun document =>
          decide ((sampleService.loadUserConfig document).map ConfigTable.value =
            some document.content),
          [after, restored, after'].map fun document =>
            sampleService.versionForToml document.content)) =
      some ([true, true, true],
        ["tui.theme=dark".toList, "tui.theme=light".toList, "tui.theme=solar".toList]) := by
    decide +kernel
  obtain ⟨after, hfirst, hwrites⟩ := Option.bind_eq_some_iff.1 hwrites
  obtain ⟨restored, hrestore, hwrites⟩ := Option.bind_eq_some_iff.1 hwrites
  obtain ⟨after', hsecond, hfacts⟩ := Option.map_eq_some_iff.1 hwrites
  obtain ⟨hspells, hversions⟩ := Prod.mk.inj hfacts
  simp only [List.map_cons, List.map_nil, List.cons.injEq, decide_eq_true_eq, and_true]
    at hspells hversions
  obtain ⟨first, hfirst⟩ := exists_ack hfirst
  obtain ⟨restore, hrestore⟩ := exists_ack hrestore
  obtain ⟨second, hsecond⟩ := exists_ack hsecond
  refine ⟨_, _, (((Leads.refl _).single hfirst).single hrestore).single hsecond, ?_, fun hone => ?_⟩
  · simp only [List.nil_append, List.cons_append, List.forall_mem_cons]
    exact ⟨hfirst.undisturbed hspells.1, hrestore.undisturbed hspells.2.1,
      hsecond.undisturbed hspells.2.2, fun _ hnil => by cases hnil⟩
  · refine hone [] [restore] [] first second (sampleService.versionForToml themeDocument.content)
      rfl (by rw [hfirst.params_eq]; rfl) (by rw [hsecond.params_eq]; rfl)
      ⟨hfirst.changes ?_, hsecond.changes ?_⟩
    · rw [hversions.1]
      decide +kernel
    · rw [hversions.2.1, hversions.2.2]
      decide +kernel

theorem unchanged_missing : ∃ (acks : List (Ack sampleService)) (file : _),
    Leads (some themeDocument) acks file ∧ ¬NoneMissing acks file := by
  have hwrites : ((sampleService.writeOver (setting "tui.theme" "dark")
      themeDocument themeDocument).bind fun after =>
      (sampleService.writeOver (setting "tui.theme" "light") themeDocument after).map fun after' =>
        valueAtPath ["tui".toList, "theme".toList] after'.content) =
      some (some (.scalar "dark".toList)) := by decide +kernel
  have hmergeds : (sampleService.prepare (setting "tui.theme" "light")
      (some themeDocument)).toOption.map (fun prepared => prepared.merged.map fun merged =>
        (merged.segments, merged.wanted)) =
      some [(["tui".toList, "theme".toList], some (.scalar "light".toList))] := by decide +kernel
  obtain ⟨after, hfirst, hwrites⟩ := Option.bind_eq_some_iff.1 hwrites
  obtain ⟨after', hsecond, hfile⟩ := Option.map_eq_some_iff.1 hwrites
  obtain ⟨first, hfirst⟩ := exists_ack hfirst
  obtain ⟨second, hsecond⟩ := exists_ack hsecond
  rw [hsecond.prepare_eq] at hmergeds
  obtain ⟨merged, hmerged, hwanted⟩ := List.map_eq_singleton_iff.1 (Option.some.inj hmergeds)
  obtain ⟨hsegments, hwanted⟩ := Prod.mk.inj hwanted
  refine ⟨_, _, (Leads.refl _).overlap hfirst hsecond, fun hnone => ?_⟩
  obtain ⟨document, hdocument, hsame⟩ := hnone [first] [] second [] [] merged rfl hmerged
    (fun other hother => by cases hother)
  obtain rfl := Option.some.inj hdocument
  rw [hsegments, hwanted, hfile] at hsame
  exact absurd hsame (by decide +kernel)

end SheriMl.Config
