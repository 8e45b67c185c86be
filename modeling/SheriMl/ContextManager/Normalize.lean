import SheriMl.Lib.Pairing
import SheriMl.Protocol.Models

/-!
# Calls and their outputs

`remove_corresponding_for` of `core/src/context_manager/normalize.rs`, and the
trimming of a history that calls it. `balanced_trim`: to remove items at either end,
with their counterparts, leaves as many outputs as calls for every call id.
-/

namespace SheriMl.ContextManager

open Protocol

def isFunctionCall (callId : Str) : ResponseItem → Bool
  | .functionCall _ _ _ existing => existing = callId
  | _ => false

def isLocalShellCall (callId : Str) : ResponseItem → Bool
  | .localShellCall _ (some existing) _ => existing = callId
  | _ => false

def isFunctionCallOutput (callId : Str) : ResponseItem → Bool
  | .functionCallOutput existing _ => existing = callId
  | _ => false

def isCustomToolCall (callId : Str) : ResponseItem → Bool
  | .customToolCall _ _ existing _ _ => existing = callId
  | _ => false

def isCustomToolCallOutput (callId : Str) : ResponseItem → Bool
  | .customToolCallOutput existing _ => existing = callId
  | _ => false

/-- `position`, then `remove`. -/
def removeFirstMatching (items : List ResponseItem) (predicate : ResponseItem → Bool) :
    List ResponseItem :=
  match items.findIdx? predicate with
  | some pos => items.eraseIdx pos
  | none => items

/-- Removes the counterpart of an item that was removed. -/
def removeCorrespondingFor (items : List ResponseItem) : ResponseItem → List ResponseItem
  | .functionCall _ _ _ callId => removeFirstMatching items (isFunctionCallOutput callId)
  | .functionCallOutput callId _ =>
    if items.any (isFunctionCall callId) then removeFirstMatching items (isFunctionCall callId)
    else removeFirstMatching items (isLocalShellCall callId)
  | .customToolCall _ _ callId _ _ => removeFirstMatching items (isCustomToolCallOutput callId)
  | .customToolCallOutput callId _ => removeFirstMatching items (isCustomToolCall callId)
  | .localShellCall _ (some callId) _ => removeFirstMatching items (isFunctionCallOutput callId)
  | _ => items

/-- `ContextManager::remove_first_item`. -/
def removeFirstItem : List ResponseItem → List ResponseItem
  | [] => []
  | removed :: items => removeCorrespondingFor items removed

/-- `ContextManager::remove_last_item`, with whether there was one. -/
def removeLastItem (items : List ResponseItem) : List ResponseItem × Bool :=
  match items.getLast? with
  | some removed => (removeCorrespondingFor items.dropLast removed, true)
  | none => (items, false)

/-- Which end an item is removed from. -/
inductive End where
  | first
  | last

def removeAt (items : List ResponseItem) : End → List ResponseItem
  | .first => removeFirstItem items
  | .last => (removeLastItem items).1

def trim (items : List ResponseItem) (ends : List End) : List ResponseItem :=
  ends.foldl removeAt items

/-- As many outputs as calls for every call id, of either kind. -/
def Balanced (items : List ResponseItem) : Prop := ∀ callId,
  items.countP (isFunctionCall callId) + items.countP (isLocalShellCall callId) =
      items.countP (isFunctionCallOutput callId) ∧
    items.countP (isCustomToolCall callId) = items.countP (isCustomToolCallOutput callId)

/-! ## The pairs -/

/-- Custom tool calls are apart from the others. -/
inductive CallKind where
  | function
  | custom
  deriving DecidableEq

def role : ResponseItem → Option ((CallKind × Str) × Bool)
  | .functionCall _ _ _ callId => some ((.function, callId), true)
  | .localShellCall _ (some callId) _ => some ((.function, callId), true)
  | .functionCallOutput callId _ => some ((.function, callId), false)
  | .customToolCall _ _ callId _ _ => some ((.custom, callId), true)
  | .customToolCallOutput callId _ => some ((.custom, callId), false)
  | _ => none

section Balanced

variable {items : List ResponseItem} {item : ResponseItem} {callId : Str}
  {predicate : ResponseItem → Bool} {key : CallKind × Str} {opens : Bool}

theorem role_eq_functionCall : role item = some ((.function, callId), true) ↔
    isFunctionCall callId item = true ∨ isLocalShellCall callId item = true := by
  cases item with
  | localShellCall id callId' command =>
    cases callId' with
    | none | some callId' => simp [role, isFunctionCall, isLocalShellCall]
  | _ => simp [role, isFunctionCall, isLocalShellCall]

theorem role_eq_functionCallOutput : role item = some ((.function, callId), false) ↔
    isFunctionCallOutput callId item = true := by
  cases item with
  | localShellCall id callId' command =>
    cases callId' with
    | none | some callId' => simp [role, isFunctionCallOutput]
  | _ => simp [role, isFunctionCallOutput]

theorem role_eq_customToolCall : role item = some ((.custom, callId), true) ↔
    isCustomToolCall callId item = true := by
  cases item with
  | localShellCall id callId' command =>
    cases callId' with
    | none => simp [role, isCustomToolCall]
    | some callId' => simp [role, isCustomToolCall]
  | _ => simp [role, isCustomToolCall]

theorem role_eq_customToolCallOutput : role item = some ((.custom, callId), false) ↔
    isCustomToolCallOutput callId item = true := by
  cases item with
  | localShellCall id callId' command =>
    cases callId' with
    | none | some callId' => simp [role, isCustomToolCallOutput]
  | _ => simp [role, isCustomToolCallOutput]

theorem not_isLocalShellCall (h : isFunctionCall callId item = true) :
    isLocalShellCall callId item = false := by
  cases item with
  | functionCall id name arguments callId' => rfl
  | _ => cases h

theorem countP_role_functionCall : Pairing.tally role items (.function, callId) true =
    items.countP (isFunctionCall callId) + items.countP (isLocalShellCall callId) := by
  induction items with
  | nil => rfl
  | cons item items ih =>
    rw [Pairing.tally_cons, ih, List.countP_cons, List.countP_cons]
    simp only [role_eq_functionCall]
    cases hcall : isFunctionCall callId item with
    | false =>
      simp only [Bool.false_eq_true, false_or, reduceIte]
      omega
    | true =>
      rw [not_isLocalShellCall hcall]
      simp only [Bool.false_eq_true, or_false, reduceIte]
      omega

theorem balanced_iff : Balanced items ↔ Pairing.Balanced role items := by
  have hfunction : ∀ callId, Pairing.tally role items (.function, callId) false =
      items.countP (isFunctionCallOutput callId) := by
    intro callId
    simp only [Pairing.tally, role_eq_functionCallOutput, Bool.decide_eq_true]
  have hcustom : ∀ callId, Pairing.tally role items (.custom, callId) true =
      items.countP (isCustomToolCall callId) := by
    intro callId
    simp only [Pairing.tally, role_eq_customToolCall, Bool.decide_eq_true]
  have hcustomOutput : ∀ callId, Pairing.tally role items (.custom, callId) false =
      items.countP (isCustomToolCallOutput callId) := by
    intro callId
    simp only [Pairing.tally, role_eq_customToolCallOutput, Bool.decide_eq_true]
  constructor
  · rintro h ⟨kind, callId⟩
    cases kind with
    | function =>
      rw [countP_role_functionCall, hfunction]
      exact (h callId).1
    | custom =>
      rw [hcustom, hcustomOutput]
      exact (h callId).2
  · intro h callId
    rw [← countP_role_functionCall, ← hfunction, ← hcustom, ← hcustomOutput]
    exact ⟨h (.function, callId), h (.custom, callId)⟩

theorem removeFirstMatching_eq : removeFirstMatching items predicate = items.eraseP predicate := by
  unfold removeFirstMatching
  rw [List.eraseP_eq_eraseIdx]
  cases items.findIdx? predicate with
  | none => rfl
  | some pos => rfl

theorem exists_perm_removeFirstMatching (h : ∃ b ∈ items, predicate b = true) :
    ∃ b, predicate b = true ∧ items.Perm (b :: removeFirstMatching items predicate) := by
  obtain ⟨a, ha, hpred⟩ := h
  obtain ⟨b, before, after, -, hb, hitems, herase⟩ := List.exists_of_eraseP ha hpred
  refine ⟨b, hb, ?_⟩
  rw [removeFirstMatching_eq, herase, hitems]
  exact List.perm_middle

/-- A removed item that takes no part in a call has no counterpart. -/
theorem removeCorrespondingFor_of_none (h : role item = none) :
    removeCorrespondingFor items item = items := by
  cases item with
  | localShellCall id callId command =>
    cases callId with
    | none => rfl
    | some callId => cases h
  | functionCall id name arguments callId => cases h
  | functionCallOutput callId output => cases h
  | customToolCall id status callId name input => cases h
  | customToolCallOutput callId output => cases h
  | _ => rfl

/-- If the call of a removed item has a counterpart, one counterpart goes. -/
theorem exists_perm_removeCorrespondingFor (hrole : role item = some (key, opens))
    (h : ∃ b ∈ items, role b = some (key, !opens)) : ∃ b, role b = some (key, !opens) ∧
      items.Perm (b :: removeCorrespondingFor items item) := by
  obtain ⟨a, ha, hcounterpart⟩ := h
  cases item with
  | functionCall id name arguments callId =>
    cases hrole
    obtain ⟨b, hb, hperm⟩ :=
      exists_perm_removeFirstMatching ⟨a, ha, role_eq_functionCallOutput.1 hcounterpart⟩
    exact ⟨b, role_eq_functionCallOutput.2 hb, hperm⟩
  | localShellCall id callId command =>
    cases callId with
    | none => cases hrole
    | some callId =>
      cases hrole
      obtain ⟨b, hb, hperm⟩ :=
        exists_perm_removeFirstMatching ⟨a, ha, role_eq_functionCallOutput.1 hcounterpart⟩
      exact ⟨b, role_eq_functionCallOutput.2 hb, hperm⟩
  | functionCallOutput callId output =>
    cases hrole
    simp only [removeCorrespondingFor]
    split
    next hany =>
      obtain ⟨b, hb, hperm⟩ := exists_perm_removeFirstMatching (List.any_eq_true.1 hany)
      exact ⟨b, role_eq_functionCall.2 (.inl hb), hperm⟩
    next hany =>
      -- without a function call the counterpart is a shell call
      have hshell : isLocalShellCall callId a = true := by
        refine (role_eq_functionCall.1 hcounterpart).resolve_left ?_
        intro hcall
        exact hany (List.any_eq_true.2 ⟨a, ha, hcall⟩)
      obtain ⟨b, hb, hperm⟩ := exists_perm_removeFirstMatching ⟨a, ha, hshell⟩
      exact ⟨b, role_eq_functionCall.2 (.inr hb), hperm⟩
  | customToolCall id status callId name input =>
    cases hrole
    obtain ⟨b, hb, hperm⟩ :=
      exists_perm_removeFirstMatching ⟨a, ha, role_eq_customToolCallOutput.1 hcounterpart⟩
    exact ⟨b, role_eq_customToolCallOutput.2 hb, hperm⟩
  | customToolCallOutput callId output =>
    cases hrole
    obtain ⟨b, hb, hperm⟩ :=
      exists_perm_removeFirstMatching ⟨a, ha, role_eq_customToolCall.1 hcounterpart⟩
    exact ⟨b, role_eq_customToolCall.2 hb, hperm⟩
  | _ => cases hrole

theorem balanced_removeCorrespondingFor (h : Pairing.Balanced role (item :: items)) :
    Pairing.Balanced role (removeCorrespondingFor items item) := by
  cases hrole : role item with
  | none =>
    rw [removeCorrespondingFor_of_none hrole]
    exact h.of_unpaired hrole
  | some pair =>
    obtain ⟨key, opens⟩ := pair
    obtain ⟨b, hb, hperm⟩ :=
      exists_perm_removeCorrespondingFor hrole (h.exists_counterpart hrole)
    exact (h.perm (hperm.cons item)).of_pair hrole hb

theorem balanced_removeAt (h : Pairing.Balanced role items) (e : End) :
    Pairing.Balanced role (removeAt items e) := by
  cases e with
  | first =>
    cases items with
    | nil => exact h
    | cons removed items => exact balanced_removeCorrespondingFor h
  | last =>
    simp only [removeAt, removeLastItem]
    split
    next removed hlast =>
      obtain ⟨rest, rfl⟩ := List.getLast?_eq_some_iff.1 hlast
      rw [List.dropLast_concat]
      exact balanced_removeCorrespondingFor (h.perm (List.perm_append_singleton removed rest))
    · exact h

/-- Removing items at the ends, in any order, keeps a balanced history balanced. -/
theorem balanced_trim (h : Balanced items) (ends : List End) : Balanced (trim items ends) := by
  rw [balanced_iff] at h ⊢
  induction ends generalizing items with
  | nil => exact h
  | cons e ends ih => exact ih (balanced_removeAt h e)

end Balanced

/-- A shell call and a function call of one id, after the output of one of them. -/
def sharedId : List ResponseItem :=
  [.functionCallOutput "a" ⟨.text "done", some true⟩, .localShellCall none (some "a") ["ls"],
    .functionCall none "shell" "\x7b\x7d" "a", .functionCallOutput "a" ⟨.text "done", none⟩]

theorem balanced_trim_sharedId : trim sharedId [.first] =
      [.localShellCall none (some "a") ["ls"], .functionCallOutput "a" ⟨.text "done", none⟩] ∧
    Balanced (trim sharedId [.first, .last]) := by
  refine ⟨by decide, balanced_trim ?_ _⟩
  intro callId
  by_cases hid : callId = "a"
  · subst hid
    decide
  · have hne : ("a" : Str) ≠ callId := Ne.symm hid
    simp only [sharedId, List.countP_cons, List.countP_nil, isFunctionCall, isLocalShellCall,
      isFunctionCallOutput, isCustomToolCall, isCustomToolCallOutput, decide_eq_true_eq, hne,
      Bool.false_eq_true, reduceIte, and_self]

end SheriMl.ContextManager
