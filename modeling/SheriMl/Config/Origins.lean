import Mathlib.Data.List.AList
import SheriMl.Config.Merge

/-!
# Layers of configuration and their origins

`ConfigLayerStack` of `config/src/state.rs`: the configuration that its layers merge to, and for
each dotted path the layer that it is said to come from, which `record_origins` of
`config/src/fingerprint.rs` finds by walking the layers one by one. `origins_exact_iff`: the two
agree just where every leaf of a layer, or one spelled like it, is left by the layers above, and
no layer above a leaf that is left has another one spelled like it.
-/

namespace SheriMl.Config

open TomlValue

universe u v

variable {σ : Type u} {μ : Type v}

inductive ConfigLayerSource where
  | mdm (domain key : Str)
  | system (file : Str)
  | user (file : Str)
  | project (dotCodexFolder : Str)
  | sessionFlags
  | legacyManagedConfigTomlFromFile (file : Str)
  | legacyManagedConfigTomlFromMdm

structure ConfigLayerMetadata where
  name : ConfigLayerSource
  version : Str

structure ConfigLayerEntry (σ : Type u) where
  name : ConfigLayerSource
  config : TomlValue σ
  version : Str
  disabledReason : Option Str
  isTable : config.isTable = true
  keyed : config.Keyed

inductive ConfigLayerStackOrdering where
  | lowestPrecedenceFirst
  | highestPrecedenceFirst
  deriving DecidableEq

/-- The layers from lowest precedence to highest. -/
structure ConfigLayerStack (σ : Type u) where
  layers : List (ConfigLayerEntry σ)

namespace ConfigLayerEntry

def isDisabled (layer : ConfigLayerEntry σ) : Bool := layer.disabledReason.isSome

def metadata (layer : ConfigLayerEntry σ) : ConfigLayerMetadata := ⟨layer.name, layer.version⟩

end ConfigLayerEntry

abbrev Origins (μ : Type v) := AList fun _ : Str => μ

def dotted (path : List Str) : Str := Str.join ("." : Str) path

mutual

def recordOrigins (value : TomlValue σ) (layer : μ) (path : List Str) (origins : Origins μ) :
    Origins μ :=
  match value with
  | .table entries => recordEntries entries layer path origins
  | .array items => recordItems items 0 layer path origins
  | .scalar _ => if path.isEmpty then origins else origins.insert (dotted path) layer

def recordEntries (entries : List (Str × TomlValue σ)) (layer : μ) (path : List Str)
    (origins : Origins μ) : Origins μ :=
  match entries with
  | [] => origins
  | (key, value) :: entries =>
    recordEntries entries layer path (recordOrigins value layer (path ++ [key]) origins)

def recordItems (items : List (TomlValue σ)) (idx : Nat) (layer : μ) (path : List Str)
    (origins : Origins μ) : Origins μ :=
  match items with
  | [] => origins
  | item :: items =>
    recordItems items (idx + 1) layer path
      (recordOrigins item layer (path ++ [Nat.toDigits 10 idx]) origins)

end

/-- `origins`, of layers from lowest precedence to highest, each told by `tell`. -/
def originsBy (tell : ConfigLayerEntry σ → μ) (layers : List (ConfigLayerEntry σ)) : Origins μ :=
  layers.foldl (fun origins layer => recordOrigins layer.config (tell layer) [] origins) ∅

def mergeLayers (layers : List (ConfigLayerEntry σ)) : TomlValue σ :=
  layers.foldl (fun merged layer => mergeTomlValues merged layer.config) (.table [])

namespace ConfigLayerStack

def getLayers (stack : ConfigLayerStack σ) (ordering : ConfigLayerStackOrdering)
    (includeDisabled : Bool) : List (ConfigLayerEntry σ) :=
  let layers := stack.layers.filter fun layer => includeDisabled || !layer.isDisabled
  if ordering = .highestPrecedenceFirst then layers.reverse else layers

def effectiveConfig (stack : ConfigLayerStack σ) : TomlValue σ :=
  mergeLayers (stack.getLayers .lowestPrecedenceFirst false)

def origins (stack : ConfigLayerStack σ) : Origins ConfigLayerMetadata :=
  originsBy ConfigLayerEntry.metadata (stack.getLayers .lowestPrecedenceFirst false)

/-- The layers whose metadata `origins` has. -/
def originLayers (stack : ConfigLayerStack σ) : Origins (ConfigLayerEntry σ) :=
  originsBy id (stack.getLayers .lowestPrecedenceFirst false)

/-- The origins are of the leaves of the effective configuration, and each names a layer that
has that very leaf. -/
structure OriginsExact (stack : ConfigLayerStack σ) : Prop where
  keys : ∀ key, key ∈ stack.origins ↔ ∃ leaf ∈ stack.effectiveConfig.leaves, dotted leaf.1 = key
  layer : ∀ leaf ∈ stack.effectiveConfig.leaves, ∃ layer,
    stack.originLayers.lookup (dotted leaf.1) = some layer ∧
      stack.origins.lookup (dotted leaf.1) = some layer.metadata ∧ leaf ∈ layer.config.leaves

end ConfigLayerStack

/-- A leaf of a layer is left by the layers above: none of them overrides the value that is no
table in which it lies. -/
def Left (layer : ConfigLayerEntry σ) (above : List (ConfigLayerEntry σ))
    (leaf : List Str × σ) : Prop :=
  ∃ path rest inner, leaf.1 = path ++ rest ∧ layer.config.get path = some inner ∧
    inner.isTable = false ∧ (rest, leaf.2) ∈ inner.leaves ∧
      ∀ higher ∈ above, ¬higher.config.Overrides path

/-- Every leaf of the layers, or one spelled like it, is left, and no leaf above one that is
left is spelled like it. -/
structure LeavesApart (layers : List (ConfigLayerEntry σ)) : Prop where
  left : ∀ layer ∈ layers, ∀ leaf ∈ layer.config.leaves, ∃ below other above other',
    layers = below ++ other :: above ∧ Left other above other' ∧ dotted other'.1 = dotted leaf.1
  apart : ∀ below layer above leaf, layers = below ++ layer :: above → Left layer above leaf →
    ∀ higher ∈ above, ∀ other ∈ higher.config.leaves, dotted other.1 ≠ dotted leaf.1

/-! ## What the origins record -/

section Record

variable {value : TomlValue σ} {layer : μ} {path : List Str} {origins : Origins μ} {key : Str}

def recordLeaf (layer : μ) (path : List Str) (origins : Origins μ) (leaf : List Str × σ) :
    Origins μ :=
  if (path ++ leaf.1).isEmpty then origins else origins.insert (dotted (path ++ leaf.1)) layer

theorem foldl_recordLeaf_map (step : Str) (leaves : List (List Str × σ)) :
    (leaves.map fun leaf => (step :: leaf.1, leaf.2)).foldl (recordLeaf layer path) origins =
      leaves.foldl (recordLeaf layer (path ++ [step])) origins := by
  rw [List.foldl_map]
  congr
  funext origins leaf
  rw [recordLeaf, recordLeaf, List.append_assoc]
  rfl

theorem recordOrigins_eq (h : value.Keyed) : recordOrigins value layer path origins =
    value.leaves.foldl (recordLeaf layer path) origins := by
  induction h generalizing path origins with
  | scalar value =>
    rw [recordOrigins, leaves, List.foldl_cons, List.foldl_nil, recordLeaf, List.append_nil]
  | @array items hitems ih =>
    rw [recordOrigins, leaves]
    clear hitems
    generalize 0 = idx
    induction items generalizing idx origins with
    | nil => rw [recordItems, itemLeaves, List.foldl_nil]
    | cons item items ihitems =>
      rw [recordItems, itemLeaves, List.foldl_append, foldl_recordLeaf_map,
        ih item List.mem_cons_self, ihitems fun item hitem => ih item (List.mem_cons_of_mem _ hitem)]
  | @table entries hkeys hentries ih =>
    rw [recordOrigins, leaves]
    clear hkeys hentries
    induction entries generalizing origins with
    | nil => rw [recordEntries, entryLeaves, List.foldl_nil]
    | cons entry entries ihentries =>
      obtain ⟨key, value⟩ := entry
      rw [recordEntries, entryLeaves, List.foldl_append, foldl_recordLeaf_map,
        ih _ List.mem_cons_self,
        ihentries fun entry hentry => ih entry (List.mem_cons_of_mem _ hentry)]

/-- A leaf whose path is not spelled by the key leaves its origin. -/
theorem lookup_recordLeaf_of_ne {leaf : List Str × σ} (h : dotted (path ++ leaf.1) ≠ key) :
    (recordLeaf layer path origins leaf).lookup key = origins.lookup key := by
  rw [recordLeaf]
  split
  · rfl
  · exact AList.lookup_insert_ne h.symm

theorem lookup_foldl_recordLeaf_of_ne {leaves : List (List Str × σ)}
    (h : ∀ leaf ∈ leaves, dotted (path ++ leaf.1) ≠ key) :
    (leaves.foldl (recordLeaf layer path) origins).lookup key = origins.lookup key := by
  induction leaves generalizing origins with
  | nil => rfl
  | cons leaf leaves ih =>
    rw [List.foldl_cons, ih fun leaf hleaf => h leaf (List.mem_cons_of_mem _ hleaf)]
    exact lookup_recordLeaf_of_ne (h leaf List.mem_cons_self)

theorem lookup_foldl_recordLeaf_of_mem {leaves : List (List Str × σ)} {leaf : List Str × σ}
    (hleaf : leaf ∈ leaves) (hpath : path ++ leaf.1 ≠ []) :
    (leaves.foldl (recordLeaf layer path) origins).lookup (dotted (path ++ leaf.1)) =
      some layer := by
  induction leaves using List.reverseRecOn with
  | nil => cases hleaf
  | append_singleton leaves last ih =>
    rw [List.foldl_append, List.foldl_cons, List.foldl_nil]
    by_cases hlast : dotted (path ++ last.1) = dotted (path ++ leaf.1)
    · rw [recordLeaf]
      split
      next hempty =>
        -- then the key is recorded by an earlier leaf
        rcases List.mem_append.1 hleaf with hleaf | hleaf
        · exact ih hleaf
        · rw [List.mem_singleton.1 hleaf] at hpath
          exact absurd (List.isEmpty_iff.1 hempty) hpath
      · rw [hlast]
        exact AList.lookup_insert _
    · rw [lookup_recordLeaf_of_ne hlast]
      rcases List.mem_append.1 hleaf with hleaf | hleaf
      · exact ih hleaf
      · rw [List.mem_singleton.1 hleaf] at hlast
        exact absurd rfl hlast

end Record

section Layers

variable {layer higher : ConfigLayerEntry σ} {layers below above : List (ConfigLayerEntry σ)}
  {tell : ConfigLayerEntry σ → μ} {origins : Origins μ} {key : Str} {leaf : List Str × σ}

def Spells (layer : ConfigLayerEntry σ) (key : Str) : Prop :=
  ∃ leaf ∈ layer.config.leaves, dotted leaf.1 = key

theorem path_ne_nil (h : leaf ∈ layer.config.leaves) : leaf.1 ≠ [] := by
  have htable := layer.isTable
  generalize layer.config = value at h htable
  cases value with
  | scalar value => cases htable
  | array items => cases htable
  | table entries =>
    obtain ⟨entry, -, rest, -, hpath⟩ := mem_leaves_table.1 h
    rw [hpath]
    exact List.cons_ne_nil _ _

theorem lookup_recordOrigins_of_spells {told : μ} (h : Spells layer key) :
    (recordOrigins layer.config told [] origins).lookup key = some told := by
  obtain ⟨leaf, hleaf, rfl⟩ := h
  rw [recordOrigins_eq layer.keyed]
  have hpath : [] ++ leaf.1 ≠ [] := path_ne_nil hleaf
  exact lookup_foldl_recordLeaf_of_mem hleaf hpath

theorem lookup_recordOrigins_of_not_spells {told : μ} (h : ¬Spells layer key) :
    (recordOrigins layer.config told [] origins).lookup key = origins.lookup key := by
  rw [recordOrigins_eq layer.keyed]
  apply lookup_foldl_recordLeaf_of_ne
  intro leaf hleaf heq
  exact h ⟨leaf, hleaf, heq⟩

theorem originsBy_concat (tell : ConfigLayerEntry σ → μ) (layers : List (ConfigLayerEntry σ))
    (layer : ConfigLayerEntry σ) : originsBy tell (layers ++ [layer]) =
      recordOrigins layer.config (tell layer) [] (originsBy tell layers) := by
  rw [originsBy, List.foldl_append]
  rfl

theorem lookup_originsBy_of_last (tell : ConfigLayerEntry σ → μ)
    (below : List (ConfigLayerEntry σ)) (hlayer : Spells layer key)
    (habove : ∀ higher ∈ above, ¬Spells higher key) :
    (originsBy tell (below ++ layer :: above)).lookup key = some (tell layer) := by
  induction above using List.reverseRecOn with
  | nil =>
    rw [originsBy_concat]
    exact lookup_recordOrigins_of_spells hlayer
  | append_singleton above top ih =>
    rw [← List.cons_append, ← List.append_assoc, originsBy_concat,
      lookup_recordOrigins_of_not_spells (habove top (List.mem_append_right _ List.mem_cons_self))]
    exact ih fun higher hhigher => habove higher (List.mem_append_left _ hhigher)

theorem exists_last_spells (h : ∃ layer ∈ layers, Spells layer key) :
    ∃ below layer above, layers = below ++ layer :: above ∧ Spells layer key ∧
      ∀ higher ∈ above, ¬Spells higher key := by
  induction layers using List.reverseRecOn with
  | nil =>
    obtain ⟨layer, hlayer, -⟩ := h
    cases hlayer
  | append_singleton layers top ih =>
    by_cases htop : Spells top key
    · refine ⟨layers, top, [], rfl, htop, ?_⟩
      intro higher hhigher
      cases hhigher
    · obtain ⟨layer, hlayer, hspells⟩ := h
      have hmem : layer ∈ layers := by
        rcases List.mem_append.1 hlayer with hlayer | hlayer
        · exact hlayer
        · rw [List.mem_singleton.1 hlayer] at hspells
          exact absurd hspells htop
      obtain ⟨below, last, above, rfl, hlast, habove⟩ := ih ⟨layer, hmem, hspells⟩
      refine ⟨below, last, above ++ [top], List.append_assoc _ _ _, hlast, ?_⟩
      intro higher hhigher
      rcases List.mem_append.1 hhigher with hhigher | hhigher
      · exact habove higher hhigher
      · rw [List.mem_singleton.1 hhigher]
        exact htop

theorem mem_originsBy_iff : key ∈ originsBy tell layers ↔ ∃ layer ∈ layers, Spells layer key := by
  constructor
  · intro hmem
    by_contra hnone
    have hlookup : (originsBy tell layers).lookup key = none := by
      clear hmem
      induction layers using List.reverseRecOn with
      | nil => rfl
      | append_singleton layers top ih =>
        have htop : ¬Spells top key := fun htop =>
          hnone ⟨top, List.mem_append_right _ List.mem_cons_self, htop⟩
        rw [originsBy_concat, lookup_recordOrigins_of_not_spells htop]
        apply ih
        rintro ⟨layer, hlayer, hspells⟩
        exact hnone ⟨layer, List.mem_append_left _ hlayer, hspells⟩
    exact AList.lookup_eq_none.1 hlookup hmem
  · intro h
    obtain ⟨below, layer, above, rfl, hlayer, habove⟩ := exists_last_spells h
    have hlookup := lookup_originsBy_of_last tell below hlayer habove
    rw [← AList.lookup_isSome, hlookup]
    rfl

/-! ## What the layers merge to -/

theorem mergeLayers_concat (layers : List (ConfigLayerEntry σ)) (layer : ConfigLayerEntry σ) :
    mergeLayers (layers ++ [layer]) = mergeTomlValues (mergeLayers layers) layer.config := by
  rw [mergeLayers, List.foldl_append]
  rfl

theorem keyed_mergeLayers (layers : List (ConfigLayerEntry σ)) : (mergeLayers layers).Keyed := by
  induction layers using List.reverseRecOn with
  | nil =>
    refine .table List.nodup_nil ?_
    intro entry hentry
    cases hentry
  | append_singleton layers layer ih =>
    rw [mergeLayers_concat]
    exact keyed_merge ih layer.keyed

theorem get_mergeLayers_iff {path : List Str} {inner : TomlValue σ}
    (hinner : inner.isTable = false) : (mergeLayers layers).get path = some inner ↔
      ∃ below layer above, layers = below ++ layer :: above ∧
        layer.config.get path = some inner ∧ ∀ higher ∈ above, ¬higher.config.Overrides path := by
  induction layers using List.reverseRecOn with
  | nil =>
    constructor
    · intro h
      cases path with
      | nil =>
        rw [← Option.some.inj h] at hinner
        cases hinner
      | cons key path => cases h
    · rintro ⟨below, layer, above, hlayers, -⟩
      exact absurd hlayers.symm (List.append_ne_nil_of_right_ne_nil _ (List.cons_ne_nil _ _))
  | append_singleton layers top ih =>
    rw [mergeLayers_concat, get_merge_iff top.keyed hinner, ih]
    constructor
    · rintro (hget | ⟨⟨below, layer, above, rfl, hget, habove⟩, htop⟩)
      · refine ⟨layers, top, [], rfl, hget, ?_⟩
        intro higher hhigher
        cases hhigher
      · refine ⟨below, layer, above ++ [top], List.append_assoc _ _ _, hget, ?_⟩
        intro higher hhigher
        rcases List.mem_append.1 hhigher with hhigher | hhigher
        · exact habove higher hhigher
        · rw [List.mem_singleton.1 hhigher]
          exact htop
    · rintro ⟨below, layer, above, hlayers, hget, habove⟩
      rcases List.eq_nil_or_concat above with rfl | ⟨above, last, rfl⟩
      · obtain ⟨-, hlast⟩ := List.append_inj' hlayers rfl
        rw [(List.cons.inj hlast).1]
        exact Or.inl hget
      · rw [List.concat_eq_append, ← List.cons_append, ← List.append_assoc] at hlayers
        obtain ⟨rfl, hlast⟩ := List.append_inj' hlayers rfl
        rw [(List.cons.inj hlast).1]
        refine Or.inr ⟨⟨below, layer, above, rfl, hget, ?_⟩, ?_⟩
        · exact fun higher hhigher => habove higher (by simp [hhigher])
        · exact habove last (by simp)

theorem mem_leaves_mergeLayers : leaf ∈ (mergeLayers layers).leaves ↔
    ∃ below layer above, layers = below ++ layer :: above ∧ Left layer above leaf := by
  rw [(keyed_mergeLayers layers).mem_leaves_iff]
  constructor
  · rintro ⟨path, rest, inner, hpath, hget, hinner, hleaf⟩
    obtain ⟨below, layer, above, hlayers, hlayer, habove⟩ := (get_mergeLayers_iff hinner).1 hget
    exact ⟨below, layer, above, hlayers, path, rest, inner, hpath, hlayer, hinner, hleaf, habove⟩
  · rintro ⟨below, layer, above, hlayers, path, rest, inner, hpath, hlayer, hinner, hleaf, habove⟩
    have hget := (get_mergeLayers_iff hinner).2 ⟨below, layer, above, hlayers, hlayer, habove⟩
    exact ⟨path, rest, inner, hpath, hget, hinner, hleaf⟩

theorem Left.mem_leaves (h : Left layer above leaf) : leaf ∈ layer.config.leaves := by
  obtain ⟨path, rest, inner, hpath, hget, hinner, hleaf, -⟩ := h
  exact layer.keyed.mem_leaves_iff.2 ⟨path, rest, inner, hpath, hget, hinner, hleaf⟩

theorem Left.notMem_leaves (h : Left layer above leaf) (hhigher : higher ∈ above) :
    leaf ∉ higher.config.leaves := by
  obtain ⟨path, rest, inner, hpath, -, -, -, habove⟩ := h
  intro hleaf
  exact habove higher hhigher (higher.keyed.overrides_of_mem_leaves hleaf hpath)

end Layers

/-- The origins are those of the effective configuration, each naming a layer with the effective
value, just where the leaves of the enabled layers are left by the layers above or spelled like
one that is, and no leaf above one that is left is spelled like it. -/
theorem origins_exact_iff (stack : ConfigLayerStack σ) :
    stack.OriginsExact ↔ LeavesApart (stack.getLayers .lowestPrecedenceFirst false) := by
  constructor
  · intro h
    constructor
    · intro layer hlayer leaf hleaf
      have hkey : dotted leaf.1 ∈ stack.origins :=
        mem_originsBy_iff.2 ⟨layer, hlayer, leaf, hleaf, rfl⟩
      obtain ⟨other', hother', heq⟩ := (h.keys _).1 hkey
      obtain ⟨below, other, above, hlayers, hleft⟩ := mem_leaves_mergeLayers.1 hother'
      exact ⟨below, other, above, other', hlayers, hleft, heq⟩
    · intro below layer above leaf hlayers hleft higher hhigher other hother heq
      have hmem := mem_leaves_mergeLayers.2 ⟨below, layer, above, hlayers, hleft⟩
      obtain ⟨named, hnamed, -, hleaf⟩ := h.layer leaf hmem
      -- the layer named is the highest that spells the leaf, and so above the leaf's own
      obtain ⟨between, last, rest, rfl, hlast, hrest⟩ :=
        exists_last_spells ⟨higher, hhigher, other, hother, heq⟩
      have hlookup := lookup_originsBy_of_last id (below ++ layer :: between) hlast hrest
      rw [List.append_assoc, List.cons_append, ← hlayers] at hlookup
      have hsame : last = named := Option.some.inj (hlookup.symm.trans hnamed)
      have hlastmem : last ∈ between ++ last :: rest :=
        List.mem_append_right _ List.mem_cons_self
      exact hleft.notMem_leaves hlastmem (hsame ▸ hleaf)
  · intro h
    constructor
    · intro key
      rw [ConfigLayerStack.origins, mem_originsBy_iff]
      constructor
      · rintro ⟨layer, hlayer, leaf, hleaf, rfl⟩
        obtain ⟨below, other, above, other', hlayers, hleft, heq⟩ := h.left layer hlayer leaf hleaf
        exact ⟨other', mem_leaves_mergeLayers.2 ⟨below, other, above, hlayers, hleft⟩, heq⟩
      · rintro ⟨leaf, hleaf, rfl⟩
        obtain ⟨below, layer, above, hlayers, hleft⟩ := mem_leaves_mergeLayers.1 hleaf
        refine ⟨layer, ?_, leaf, hleft.mem_leaves, rfl⟩
        rw [hlayers]
        exact List.mem_append_right _ List.mem_cons_self
    · intro leaf hleaf
      obtain ⟨below, layer, above, hlayers, hleft⟩ := mem_leaves_mergeLayers.1 hleaf
      have hspells : Spells layer (dotted leaf.1) := ⟨leaf, hleft.mem_leaves, rfl⟩
      have habove : ∀ higher ∈ above, ¬Spells higher (dotted leaf.1) := by
        rintro higher hhigher ⟨other, hother, heq⟩
        exact h.apart below layer above leaf hlayers hleft higher hhigher other hother heq
      refine ⟨layer, ?_, ?_, hleft.mem_leaves⟩
      · rw [ConfigLayerStack.originLayers, hlayers]
        exact lookup_originsBy_of_last _ below hspells habove
      · rw [ConfigLayerStack.origins, hlayers]
        exact lookup_originsBy_of_last _ below hspells habove

/-- A layer that sets `args`. -/
def argsLayer (name : ConfigLayerSource) (args : List Str) : ConfigLayerEntry Str where
  name := name
  config := .table [("args".toList, .array (args.map .scalar))]
  version := "sha256:".toList
  disabledReason := none
  isTable := rfl
  keyed := by
    refine .table (List.nodup_singleton _) ?_
    intro entry hentry
    rw [List.mem_singleton.1 hentry]
    apply Keyed.array
    intro item hitem
    obtain ⟨arg, -, rfl⟩ := List.mem_map.1 hitem
    exact .scalar arg

/-- The second of two arguments that the user sets has an origin still when a flag sets one. -/
theorem origin_of_removed_argument :
    ¬ConfigLayerStack.OriginsExact
      ⟨[argsLayer (.user "/home/u/.codex/config.toml".toList) ["a".toList, "b".toList],
        argsLayer .sessionFlags ["c".toList]]⟩ := by
  intro h
  have hkey := (h.keys "args.1".toList).1 (AList.lookup_isSome.1 rfl)
  revert hkey
  decide

end SheriMl.Config
