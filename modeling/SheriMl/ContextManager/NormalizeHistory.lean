import SheriMl.ContextManager.ForPrompt
import SheriMl.Lib.Splice

/-!
# The normalised history

`normalize_history` of `core/src/context_manager/history.rs` as it works on the vector of items: the
missing outputs are collected with positions and inserted from the back, and of the outputs those
are retained whose call id is in the set of their kind. `normalizeHistory_spec`: every call has its
output and every output its call, nothing else is dropped or moved, and it is done once and for all.
-/

namespace SheriMl.ContextManager

open Protocol

namespace InPlace

def missingOutputsToInsert (items : List ResponseItem) : List (Nat × ResponseItem) :=
  items.zipIdx.filterMap fun p => (missingOutput items p.1).map (p.2, ·)

def ensureCallOutputsPresent (items : List ResponseItem) : List ResponseItem :=
  Splice.insertAfter (missingOutputsToInsert items) items

def functionCallId : ResponseItem → Option Str
  | .functionCall _ _ _ callId => some callId
  | _ => none

def localShellCallId : ResponseItem → Option Str
  | .localShellCall _ callId _ => callId
  | _ => none

def customToolCallId : ResponseItem → Option Str
  | .customToolCall _ _ callId _ _ => some callId
  | _ => none

def isRetained (functionCallIds localShellCallIds customToolCallIds : List Str) :
    ResponseItem → Bool
  | .functionCallOutput callId _ => callId ∈ functionCallIds || callId ∈ localShellCallIds
  | .customToolCallOutput callId _ => callId ∈ customToolCallIds
  | _ => true

def removeOrphanOutputs (items : List ResponseItem) : List ResponseItem :=
  items.filter (isRetained (items.filterMap functionCallId) (items.filterMap localShellCallId)
    (items.filterMap customToolCallId))

def normalizeHistory (supportsImages : Bool) (items : List ResponseItem) : List ResponseItem :=
  stripImagesWhenUnsupported supportsImages (removeOrphanOutputs (ensureCallOutputsPresent items))

theorem ensureCallOutputsPresent_eq (items : List ResponseItem) :
    ensureCallOutputsPresent items = ContextManager.ensureCallOutputsPresent items :=
  Splice.insertAfter_zipIdx (missingOutput items) [] items

variable {items : List ResponseItem} {item : ResponseItem} {callId : Str}

theorem functionCallId_eq_some : functionCallId item = some callId ↔
    isFunctionCall callId item = true := by
  cases item <;> simp [functionCallId, isFunctionCall]

theorem localShellCallId_eq_some : localShellCallId item = some callId ↔
    isLocalShellCall callId item = true := by
  cases item with
  | localShellCall id callId' command =>
    cases callId' with
    | none | some callId' => simp [localShellCallId, isLocalShellCall]
  | _ => simp [localShellCallId, isLocalShellCall]

theorem customToolCallId_eq_some : customToolCallId item = some callId ↔
    isCustomToolCall callId item = true := by
  cases item <;> simp [customToolCallId, isCustomToolCall]

theorem decide_mem_filterMap {id : ResponseItem → Option Str}
    {predicate : Str → ResponseItem → Bool}
    (h : ∀ item callId, id item = some callId ↔ predicate callId item = true) :
    decide (callId ∈ items.filterMap id) = items.any (predicate callId) := by
  rw [Bool.eq_iff_iff, decide_eq_true_eq, List.mem_filterMap, List.any_eq_true]
  exact exists_congr fun item => and_congr_right fun _ => h item callId

theorem removeOrphanOutputs_eq (items : List ResponseItem) :
    removeOrphanOutputs items = ContextManager.removeOrphanOutputs items := by
  refine List.filter_congr fun item _ => ?_
  cases item with
  | functionCallOutput callId output =>
    rw [isRetained, hasCall, decide_mem_filterMap fun _ _ => functionCallId_eq_some,
      decide_mem_filterMap fun _ _ => localShellCallId_eq_some]
  | customToolCallOutput callId output =>
    rw [isRetained, hasCall, decide_mem_filterMap fun _ _ => customToolCallId_eq_some]
  | _ => rfl

theorem normalizeHistory_eq (supportsImages : Bool) (items : List ResponseItem) :
    normalizeHistory supportsImages items =
      ContextManager.normalizeHistory supportsImages items := by
  rw [normalizeHistory, removeOrphanOutputs_eq, ensureCallOutputsPresent_eq]
  rfl

end InPlace

/-! ## Calls and outputs -/

section Paired

variable {items : List ResponseItem} {item output : ResponseItem} {key : CallKind × Str}

/-- Every call has an output of its kind, and every output a call. -/
def Paired (items : List ResponseItem) : Prop :=
  ∀ item ∈ items, ∀ key opens, role item = some (key, opens) →
    ∃ counterpart ∈ items, role counterpart = some (key, !opens)

theorem any_eq_true_iff_role {predicate : ResponseItem → Bool} {opens : Bool}
    (h : ∀ item, role item = some (key, opens) ↔ predicate item = true) :
    items.any predicate = true ↔ ∃ item ∈ items, role item = some (key, opens) := by
  rw [List.any_eq_true]
  exact exists_congr fun item => and_congr_right fun _ => (h item).symm

theorem missingOutput_eq_some (h : missingOutput items item = some output) :
    ∃ key, role item = some (key, true) ∧ role output = some (key, false) := by
  cases item with
  | functionCall id name arguments callId | customToolCall id status callId name input =>
    rw [missingOutput] at h
    split at h
    · cases h
    · cases h
      exact ⟨_, rfl, rfl⟩
  | localShellCall id callId command =>
    cases callId with
    | none => cases h
    | some callId =>
      rw [missingOutput] at h
      split at h
      · cases h
      · cases h
        exact ⟨_, rfl, rfl⟩
  | _ => cases h

theorem iff_forall_role {opens : Bool} {P : CallKind × Str → Prop} {Q : Prop}
    (h : role item = some (key, opens)) (hP : Q ↔ P key) :
    Q ↔ ∀ key, role item = some (key, opens) → P key := by
  refine hP.trans ⟨fun hkey key' hkey' => ?_, fun hall => hall key h⟩
  rw [h] at hkey'
  cases hkey'
  exact hkey

theorem missingOutput_eq_none_iff : missingOutput items item = none ↔
    ∀ key, role item = some (key, true) → ∃ output ∈ items, role output = some (key, false) := by
  have hite {any : Bool} {output : ResponseItem} :
      (if any = true then none else some output) = none ↔ any = true := by
    cases any <;> simp
  have hfunction {callId : Str} : items.any (isFunctionCallOutput callId) = true ↔
      ∃ output ∈ items, role output = some ((.function, callId), false) :=
    any_eq_true_iff_role fun _ => role_eq_functionCallOutput
  have hcustom {callId : Str} : items.any (isCustomToolCallOutput callId) = true ↔
      ∃ output ∈ items, role output = some ((.custom, callId), false) :=
    any_eq_true_iff_role fun _ => role_eq_customToolCallOutput
  cases item with
  | functionCall => exact iff_forall_role rfl (hite.trans hfunction)
  | customToolCall => exact iff_forall_role rfl (hite.trans hcustom)
  | localShellCall id callId command =>
    cases callId with
    | none => exact ⟨fun _ _ hkey => (Option.some_ne_none _ hkey.symm).elim, fun _ => rfl⟩
    | some callId => exact iff_forall_role rfl (hite.trans hfunction)
  | functionCallOutput | customToolCallOutput =>
    refine ⟨fun _ _ hkey => ?_, fun _ => rfl⟩
    cases hkey
  | _ =>
    refine ⟨fun _ _ hkey => ?_, fun _ => rfl⟩
    cases hkey

theorem hasCall_iff : hasCall items item = true ↔
    ∀ key, role item = some (key, false) → ∃ call ∈ items, role call = some (key, true) := by
  have hfunction {callId : Str} :
      (items.any (isFunctionCall callId) || items.any (isLocalShellCall callId)) = true ↔
        ∃ call ∈ items, role call = some ((.function, callId), true) := by
    rw [Bool.or_eq_true, List.any_eq_true, List.any_eq_true]
    simp only [role_eq_functionCall, and_or_left, exists_or]
  have hcustom {callId : Str} : items.any (isCustomToolCall callId) = true ↔
      ∃ call ∈ items, role call = some ((.custom, callId), true) :=
    any_eq_true_iff_role fun _ => role_eq_customToolCall
  cases item with
  | functionCallOutput => exact iff_forall_role rfl hfunction
  | customToolCallOutput => exact iff_forall_role rfl hcustom
  | localShellCall id callId command =>
    cases callId with
    | none => simp [hasCall, role]
    | some callId => simp [hasCall, role]
  | _ => simp [hasCall, role]

theorem flatMap_filter {α β : Type} (p : α → Bool) (f : α → List β) (l : List α) :
    (l.filter p).flatMap f = l.flatMap fun a => if p a then f a else [] := by
  induction l with
  | nil => rfl
  | cons a l ih =>
    rw [List.flatMap_cons, ← ih]
    cases h : p a with
    | true => rw [List.filter_cons_of_pos h, List.flatMap_cons, if_pos rfl]
    | false =>
      rw [List.filter_cons_of_neg (by simp [h])]
      rfl

/-- What is left of the items, with an output after each call that misses it. -/
def completed (items : List ResponseItem) : List ResponseItem :=
  (items.filter (hasCall items)).flatMap fun item => item :: (missingOutput items item).toList

theorem role_mem_missingOutput (h : output ∈ (missingOutput items item).toList) :
    ∃ key, role item = some (key, true) ∧ role output = some (key, false) :=
  missingOutput_eq_some (Option.mem_toList.1 h)

theorem hasCall_of_opens (h : role item = some (key, true)) : hasCall items item = true := by
  refine hasCall_iff.2 fun key' hkey' => ?_
  rw [h] at hkey'
  cases hkey'

theorem hasCall_ensureCallOutputsPresent (items : List ResponseItem) :
    hasCall (ensureCallOutputsPresent items) = hasCall items := by
  funext item
  rw [Bool.eq_iff_iff, hasCall_iff, hasCall_iff]
  refine forall₂_congr fun key _ => ⟨?_, ?_⟩
  · rintro ⟨call, hmem, hcall⟩
    obtain ⟨item', hitem', hcons⟩ := List.mem_flatMap.1 hmem
    rcases List.mem_cons.1 hcons with rfl | hmissing
    · exact ⟨call, hitem', hcall⟩
    · obtain ⟨key', -, houtput⟩ := role_mem_missingOutput hmissing
      rw [hcall] at houtput
      cases houtput
  · rintro ⟨call, hmem, hcall⟩
    exact ⟨call, List.mem_flatMap.2 ⟨call, hmem, List.mem_cons_self⟩, hcall⟩

theorem removeOrphanOutputs_ensureCallOutputsPresent (items : List ResponseItem) :
    removeOrphanOutputs (ensureCallOutputsPresent items) = completed items := by
  rw [removeOrphanOutputs, hasCall_ensureCallOutputsPresent, ensureCallOutputsPresent,
    List.filter_flatMap, completed]
  have hkept : ∀ item ∈ items, (item :: (missingOutput items item).toList).filter (hasCall items) =
      if hasCall items item then item :: (missingOutput items item).toList else [] := by
    intro item hmem
    cases hcall : hasCall items item with
    | true =>
      have hmissing : (missingOutput items item).toList.filter (hasCall items) =
          (missingOutput items item).toList := by
        refine List.filter_eq_self.2 fun output houtput => hasCall_iff.2 fun key hkey => ?_
        obtain ⟨key', hitem, houtput'⟩ := role_mem_missingOutput houtput
        rw [houtput'] at hkey
        cases hkey
        exact ⟨item, hmem, hitem⟩
      rw [List.filter_cons_of_pos hcall, hmissing, if_pos rfl]
    | false =>
      have hmissing : missingOutput items item = none := by
        refine missingOutput_eq_none_iff.2 fun key hkey => ?_
        rw [hasCall_of_opens hkey] at hcall
        cases hcall
      rw [hmissing, List.filter_cons_of_neg (by simp [hcall])]
      rfl
  rw [List.flatMap_congr hkept, flatMap_filter]

theorem paired_completed (items : List ResponseItem) : Paired (completed items) := by
  have hkept {item : ResponseItem} (hmem : item ∈ items) (hcall : hasCall items item = true) :
      item ∈ completed items :=
    List.mem_flatMap.2 ⟨item, List.mem_filter.2 ⟨hmem, hcall⟩, List.mem_cons_self⟩
  intro item hmem key opens hrole
  obtain ⟨origin, horigin, hcons⟩ := List.mem_flatMap.1 hmem
  obtain ⟨horigin', hcall⟩ := List.mem_filter.1 horigin
  rcases List.mem_cons.1 hcons with rfl | hmissing
  · cases opens with
    | false =>
      obtain ⟨call, hmem', hrole'⟩ := hasCall_iff.1 hcall key hrole
      exact ⟨call, hkept hmem' (hasCall_of_opens hrole'), hrole'⟩
    | true =>
      cases hmissing : missingOutput items item with
      | none =>
        obtain ⟨output, hmem', hrole'⟩ := missingOutput_eq_none_iff.1 hmissing key hrole
        have hcall' : hasCall items output = true :=
          hasCall_iff.2 ((iff_forall_role hrole' Iff.rfl).1 ⟨item, horigin', hrole⟩)
        exact ⟨output, hkept hmem' hcall', hrole'⟩
      | some output =>
        obtain ⟨key', hitem, houtput⟩ := missingOutput_eq_some hmissing
        rw [hrole] at hitem
        cases hitem
        refine ⟨output, List.mem_flatMap.2 ⟨item, horigin, List.mem_cons_of_mem _ ?_⟩, houtput⟩
        rw [hmissing]
        exact List.mem_cons_self
  · obtain ⟨key', hitem, houtput⟩ := role_mem_missingOutput hmissing
    rw [houtput] at hrole
    cases hrole
    exact ⟨origin, hkept horigin' hcall, hitem⟩

theorem Paired.removeOrphanOutputs_eq (h : Paired items) : removeOrphanOutputs items = items := by
  refine List.filter_eq_self.2 fun item hmem => hasCall_iff.2 fun key hkey => ?_
  exact h item hmem key false hkey

theorem Paired.ensureCallOutputsPresent_eq (h : Paired items) :
    ensureCallOutputsPresent items = items := by
  have hmissing : ∀ item ∈ items, item :: (missingOutput items item).toList = [item] := by
    intro item hmem
    rw [missingOutput_eq_none_iff.2 fun key hkey => h item hmem key true hkey]
    rfl
  rw [ensureCallOutputsPresent, List.flatMap_congr hmissing]
  exact List.flatMap_singleton' items

/-! ## Images -/

theorem role_stripImages (item : ResponseItem) : role (stripImages item) = role item := by
  unfold stripImages
  split <;> rfl

theorem Paired.stripImages (h : Paired items) (supportsImages : Bool) :
    Paired (stripImagesWhenUnsupported supportsImages items) := by
  unfold stripImagesWhenUnsupported
  split
  · exact h
  · intro item hmem key opens hrole
    obtain ⟨origin, horigin, rfl⟩ := List.mem_map.1 hmem
    rw [role_stripImages] at hrole
    obtain ⟨counterpart, hmem', hrole'⟩ := h origin horigin key opens hrole
    exact ⟨_, List.mem_map_of_mem hmem', (role_stripImages counterpart).trans hrole'⟩

theorem stripImages_stripImages (item : ResponseItem) :
    ContextManager.stripImages (ContextManager.stripImages item) =
      ContextManager.stripImages item := by
  have hcontent : stripContentItem ∘ stripContentItem = stripContentItem :=
    funext fun item => by cases item <;> rfl
  have houtput : stripOutputItem ∘ stripOutputItem = stripOutputItem :=
    funext fun item => by cases item <;> rfl
  cases item with
  | message id role content endTurn phase =>
    simp only [ContextManager.stripImages, List.map_map, hcontent]
  | functionCallOutput callId output =>
    obtain ⟨body, success⟩ := output
    cases body with
    | text => rfl
    | contentItems contents => simp only [ContextManager.stripImages, List.map_map, houtput]
  | _ => rfl

theorem stripImagesWhenUnsupported_twice (supportsImages : Bool) (items : List ResponseItem) :
    stripImagesWhenUnsupported supportsImages (stripImagesWhenUnsupported supportsImages items) =
      stripImagesWhenUnsupported supportsImages items := by
  cases supportsImages with
  | true => rfl
  | false =>
    change (items.map ContextManager.stripImages).map ContextManager.stripImages = _
    rw [List.map_map]
    exact List.map_congr_left fun item _ => stripImages_stripImages item

/-- After the history is normalised every call has an output of its kind and every output a call; it
is the items but for the outputs without a call, in their order, each call without an output
followed by an aborted one (with the images replaced where the model takes none); and it stays as it
is. -/
theorem normalizeHistory_spec (supportsImages : Bool) (items : List ResponseItem) :
    Paired (InPlace.normalizeHistory supportsImages items) ∧
    InPlace.normalizeHistory supportsImages items = stripImagesWhenUnsupported supportsImages
      ((items.filter (hasCall items)).flatMap fun item =>
        item :: (missingOutput items item).toList) ∧
    InPlace.normalizeHistory supportsImages (InPlace.normalizeHistory supportsImages items) =
      InPlace.normalizeHistory supportsImages items := by
  have hcompleted : InPlace.normalizeHistory supportsImages items =
      stripImagesWhenUnsupported supportsImages (completed items) := by
    rw [InPlace.normalizeHistory_eq, normalizeHistory, removeOrphanOutputs_ensureCallOutputsPresent]
  have hpaired := (paired_completed items).stripImages supportsImages
  refine ⟨hcompleted ▸ hpaired, hcompleted, ?_⟩
  rw [hcompleted, InPlace.normalizeHistory_eq, normalizeHistory,
    hpaired.ensureCallOutputsPresent_eq, hpaired.removeOrphanOutputs_eq,
    stripImagesWhenUnsupported_twice]

end Paired

end SheriMl.ContextManager
