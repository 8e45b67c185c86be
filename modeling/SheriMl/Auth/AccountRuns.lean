import SheriMl.Auth.Manager

/-!
# Accounts in runs

`reload_if_account_id_matches` compares the account of the stored credentials with the one that the
recovery expects. A refresh does not: it puts its tokens into whatever record it finds, and reloads
whatever is stored then (`mixed_update`). Where what a refresh finds belongs to the account that it
is for, no run mixes accounts (`unmixed_of_run`).
-/

namespace SheriMl.Auth

open Pool Transition

/-- The accounts are the same, if both are known. -/
def SameAccount (expected found : Option Str) : Prop :=
  ∀ a b, expected = some a → found = some b → a = b

/-- What the steps go well with: an update finds a record of the account of its tokens, and a
recovery that has refreshed finds no credentials of another account than it expects. -/
def Call.InAccount (s : Session) : Call → Operation → Prop
  | updating _ accountId storage _, .loadedForUpdate =>
    ∀ record, s.stored storage = some record → record.accountId = accountId
  | loading (.refreshed caller _), .readEphemeral =>
    ∀ record, s.ephemeral = some record → SameAccount caller.expectedAccountId record.accountId
  | loadingPersistent (.refreshed caller _), .readPersistent =>
    ∀ record, s.persistent = some record → SameAccount caller.expectedAccountId record.accountId
  | _, _ => True

structure InAccountStep (manager : AuthManager)
    (endpoint : List (Str × Bool) → Str → RefreshResponse → Prop) (s : Session) (call : Call)
    (operation : Operation) (s' : Session) (calls : Multiset Call) : Prop where
  step : CallStep manager endpoint s call operation s' calls
  inAccount : call.InAccount s operation

/-- No tokens were put into the record of another account, and no recovery has put credentials of
another account into the cache. -/
structure Session.Unmixed (s : Session) : Prop where
  updates : ∀ p ∈ s.updates, p.1 = p.2
  recovered : ∀ p ∈ s.recovered, SameAccount p.1 p.2

def Goal.Sound : Goal → Prop
  | .refreshed .. => True
  | .recoveryReload recovery expectedAccountId =>
    recovery.expectedAccountId = some expectedAccountId

/-- What a call has found is of the account that it is for. -/
def Call.Sound : Call → Prop
  | saving _ accountId _ record => record.accountId = accountId
  | loading goal | loadingPersistent goal => goal.Sound
  | loaded goal found => goal.Sound ∧ ∀ caller external, goal = .refreshed caller external →
      SameAccount caller.expectedAccountId (found.bind CodexAuth.getAccountId)
  | _ => True

namespace SameAccount

theorem none_right (expected : Option Str) : SameAccount expected none :=
  fun _ _ _ h => by cases h

theorem of_eq {expected found : Option Str} (h : expected = found) : SameAccount expected found :=
  fun _ _ ha hb => Option.some.inj (ha.symm.trans (h.trans hb))

theorem of_record {expected : Option Str} {record : AuthDotJson} {storage : StorageMode}
    (h : SameAccount expected record.accountId) :
    SameAccount expected
      ((CodexAuth.fromAuthDotJson record storage).bind CodexAuth.getAccountId) := by
  cases hauth : CodexAuth.fromAuthDotJson record storage with
  | none => exact none_right expected
  | some auth =>
    rw [Option.bind_some]
    rcases CodexAuth.getAccountId_of_fromAuthDotJson hauth with haccount | haccount
    · rw [haccount]
      exact none_right expected
    · rw [haccount]
      exact h

end SameAccount

theorem Caller.finish_sound (caller : Caller) (ok : Bool) : ∀ call ∈ caller.finish ok, call.Sound := by
  cases caller <;> cases ok <;> simp [Caller.finish, Call.Sound]

theorem afterRefreshRead_sound (caller : Caller) (settled : Nat) (cached : Option CodexAuth) :
    ∀ call ∈ afterRefreshRead caller settled cached, call.Sound := by
  unfold afterRefreshRead
  split
  · split
    · simp [Call.Sound]
    · exact caller.finish_sound false
  · simp [Call.Sound]
  · exact caller.finish_sound true
  · exact caller.finish_sound true

theorem afterAuthRead_sound (now : Int) (settled : Nat) (cached : Option CodexAuth) :
    ∀ call ∈ afterAuthRead now settled cached, call.Sound := by
  unfold afterAuthRead
  split
  · simp [Call.Sound]
  · simp

theorem UnauthorizedRecovery.next_sound (recovery : UnauthorizedRecovery) (manager : AuthManager)
    (cached : Option CodexAuth) : ∀ call ∈ recovery.next manager cached, call.Sound := by
  unfold UnauthorizedRecovery.next
  split
  · split
    · split
      next accountId hexpected => simp [Call.Sound, Goal.Sound, hexpected]
      · simp [Call.Sound]
    all_goals simp [Call.Sound]
  · simp [Call.Sound]

theorem afterEphemeral_sound {manager : AuthManager} {goal : Goal} {stored : Option AuthDotJson}
    (hgoal : goal.Sound)
    (h : ∀ caller external, goal = .refreshed caller external → ∀ record, stored = some record →
      SameAccount caller.expectedAccountId record.accountId) :
    Call.Sound (match manager.afterEphemeral stored with
      | some auth => .loaded goal auth
      | none => .loadingPersistent goal) := by
  unfold AuthManager.afterEphemeral
  cases stored with
  | some record => exact ⟨hgoal, fun caller external hcaller => .of_record (h caller external hcaller record rfl)⟩
  | none =>
    cases manager.ephemeralOnly with
    | true => exact ⟨hgoal, fun _ _ _ => .none_right _⟩
    | false => exact hgoal

theorem afterPersistent_sound {goal : Goal} {stored : Option AuthDotJson} (hgoal : goal.Sound)
    (h : ∀ caller external, goal = .refreshed caller external → ∀ record, stored = some record →
      SameAccount caller.expectedAccountId record.accountId) :
    (Call.loaded goal (AuthManager.afterPersistent stored)).Sound := by
  refine ⟨hgoal, fun caller external hcaller => ?_⟩
  cases stored with
  | some record => exact .of_record (h caller external hcaller record rfl)
  | none => exact .none_right _

namespace Session.Unmixed

variable {s : Session}

theorem of_eq {s' : Session} (h : s.Unmixed) (hupdates : s'.updates = s.updates)
    (hrecovered : s'.recovered = s.recovered) : s'.Unmixed :=
  ⟨hupdates ▸ h.updates, hrecovered ▸ h.recovered⟩

theorem save (h : s.Unmixed) (storage : StorageMode) (record : AuthDotJson) :
    (s.save storage record).Unmixed := by
  cases storage <;> exact h.of_eq rfl rfl

theorem logUpdate (h : s.Unmixed) {recordAccountId accountId : Option Str}
    (haccount : recordAccountId = accountId) : (s.logUpdate recordAccountId accountId).Unmixed where
  updates p hp := by
    rcases List.mem_append.1 hp with hp | hp
    · exact h.updates p hp
    · rw [List.mem_singleton.1 hp]
      exact haccount
  recovered := h.recovered

theorem logRecovered (h : s.Unmixed) {expectedAccountId : Option Str} {auth : Option CodexAuth}
    (haccount : SameAccount expectedAccountId (auth.bind CodexAuth.getAccountId)) :
    (s.logRecovered expectedAccountId auth).Unmixed where
  updates := h.updates
  recovered p hp := by
    rcases List.mem_append.1 hp with hp | hp
    · exact h.recovered p hp
    · rw [List.mem_singleton.1 hp]
      exact haccount

end Session.Unmixed

section Runs

variable {manager : AuthManager} {endpoint : List (Str × Bool) → Str → RefreshResponse → Prop}

theorem InAccountStep.sound {s s' : Session} {call : Call} {operation : Operation}
    {calls : Multiset Call} (h : InAccountStep manager endpoint s call operation s' calls)
    (hs : s.Unmixed) (hcall : call.Sound) : s'.Unmixed ∧ ∀ call' ∈ calls, call'.Sound := by
  obtain ⟨hstep, haccount⟩ := h
  cases hstep with
  | readForAuth now => exact ⟨hs, afterAuthRead_sound _ _ _⟩
  | readForRefresh => exact ⟨hs, afterRefreshRead_sound _ _ _⟩
  | submit response h => exact ⟨hs.of_eq rfl rfl, by simp [Call.Sound]⟩
  | refuse | lose response h => exact ⟨hs.of_eq rfl rfl, Caller.finish_sound _ _⟩
  | loadForUpdate now hstored hrecord =>
    refine ⟨hs, fun call' hmem => ?_⟩
    rw [Multiset.mem_singleton.1 hmem]
    exact (AuthDotJson.accountId_of_updateTokens hrecord).trans (haccount _ hstored)
  | saveUpdate =>
    exact ⟨(hs.save _ _).logUpdate hcall, by simp [Call.Sound, Goal.Sound]⟩
  | fail h => exact ⟨hs, Caller.finish_sound _ _⟩
  | useEnv h =>
    refine ⟨hs, fun call' hmem => ?_⟩
    rw [Multiset.mem_singleton.1 hmem]
    exact ⟨hcall, fun _ _ _ => .none_right _⟩
  | readEphemeral h =>
    refine ⟨hs, fun call' hmem => ?_⟩
    rw [Multiset.mem_singleton.1 hmem]
    refine afterEphemeral_sound hcall fun caller external hcaller => ?_
    subst hcaller
    exact haccount
  | readPersistent =>
    refine ⟨hs, fun call' hmem => ?_⟩
    rw [Multiset.mem_singleton.1 hmem]
    refine afterPersistent_sound hcall fun caller external hcaller => ?_
    subst hcaller
    exact haccount
  | loadFail h =>
    refine ⟨hs, fun call' hmem => ?_⟩
    rw [Multiset.mem_singleton.1 hmem]
    refine ⟨?_, fun _ _ _ => .none_right _⟩
    rcases h with rfl | rfl <;> exact hcall
  | cacheRefreshed =>
    refine ⟨Session.Unmixed.logRecovered ?_ (hcall.2 _ _ rfl), Caller.finish_sound _ _⟩
    exact hs.of_eq rfl rfl
  | cacheReload h =>
    refine ⟨Session.Unmixed.logRecovered ?_ (.of_eq (hcall.1.trans h.symm)), by simp [Call.Sound]⟩
    exact hs.of_eq rfl rfl
  | skipReload h | createRecovery => exact ⟨hs, by simp [Call.Sound]⟩
  | next => exact ⟨hs, UnauthorizedRecovery.next_sound _ _ _⟩
  | dropRecovery => exact ⟨hs, by simp⟩
  | readForExternal h | refreshExternal now hforced hrecord => exact ⟨hs, by simp [Call.Sound]⟩
  | saveExternal => exact ⟨hs.save _ _, by simp [Call.Sound, Goal.Sound]⟩
  | otherSave => exact ⟨hs.save _ _, by simp⟩
  | otherLogout => exact ⟨hs.of_eq rfl rfl, by simp⟩

/-- Where what refreshes find belongs to their account, no run mixes accounts. -/
theorem unmixed_of_run {ephemeral persistent : Option AuthDotJson} {c : State}
    {ls : List (Option Operation)}
    (h : Run (Step (fun call => call.Start ∨ call.Other) (InAccountStep manager endpoint))
      ⟨manager.init ephemeral persistent, 0⟩ ls c) : c.shared.Unmixed := by
  have hstart : ∀ {call : Call}, call.Start ∨ call.Other → call.Sound := fun {call} hcall => by
    rcases hcall with hcall | hcall <;> cases hcall <;> trivial
  have hinit : (manager.init ephemeral persistent).Unmixed ∧
      ∀ call ∈ (0 : Multiset Call), call.Sound := by
    refine ⟨⟨fun p hp => ?_, fun p hp => ?_⟩, by simp⟩ <;> cases hp
  exact (h.invariant (I := fun c : State => c.shared.Unmixed ∧ ∀ call ∈ c.calls, call.Sound)
    (fun hc hstep => Step.preserves hstart InAccountStep.sound hstep hc) hinit).1

end Runs

/-- A recovery that reloads and then refreshes. -/
theorem unmixed_of_run_recovery : ∃ ls, ∃ c : State,
    Run (Step (fun call => call.Start ∨ call.Other)
      (InAccountStep persistentManager fun _ _ _ => True))
      ⟨persistentManager.init none (some (recordOf "a" "a1")), 0⟩ ls c ∧
    c.shared.recovered = [(some "a".toList, some "a".toList), (some "a".toList, some "a".toList)] ∧
    c.shared.Unmixed := by
  have hrun : Run (Step (fun call => call.Start ∨ call.Other)
      (InAccountStep persistentManager fun _ _ _ => True))
      ⟨persistentManager.init none (some (recordOf "a" "a1")), 0⟩ _ _ :=
      .cons (.start (.inl .createRecovery)) <| .cons (.call ⟨.createRecovery, trivial⟩) <|
      .cons (.beside 0 ⟨.next, trivial⟩ rfl) <|
      .cons (.beside 0 ⟨.readEphemeral rfl, by trivial⟩ rfl) <|
      .cons (.beside 0 ⟨.readPersistent, by trivial⟩ rfl) <|
      .cons (.beside 0 ⟨.cacheReload rfl, trivial⟩ rfl) <|
      .cons (.beside 0 ⟨.next, trivial⟩ rfl) <|
      .cons (.beside 0 ⟨.readForRefresh, trivial⟩ rfl) <|
      .cons (.beside 0 ⟨.submit (rotated "a2") trivial, trivial⟩ rfl) <|
      .cons (.beside 0 ⟨.loadForUpdate 1 rfl rfl, by rintro _ ⟨⟩; rfl⟩ rfl) <|
      .cons (.beside 0 ⟨.saveUpdate, trivial⟩ rfl) <|
      .cons (.beside 0 ⟨.readEphemeral rfl, by rintro _ ⟨⟩⟩ rfl) <|
      .cons (.beside 0 ⟨.readPersistent, by rintro _ ⟨⟩; exact .of_eq rfl⟩ rfl) <|
      .single (.beside 0 ⟨.cacheRefreshed, trivial⟩ rfl)
  exact ⟨_, _, hrun, rfl, unmixed_of_run hrun⟩

/-- Another process logs in between the creation of a recovery and its first step: the recovery
puts its tokens into the record of the other account, and that record into the cache. -/
theorem mixed_update : ∃ ls, ∃ c : State,
    Run (Step (fun call => call.Start ∨ call.Other)
      (CallStep persistentManager fun _ _ _ => True))
      ⟨persistentManager.init none (some (recordOf "a" "a1")), 0⟩ ls c ∧
    c.shared.updates = [(some "b".toList, some "a".toList)] ∧
    c.shared.recovered = [(some "a".toList, some "b".toList)] ∧
    c.shared.persistent.bind AuthDotJson.refreshToken? = some "a2".toList :=
  ⟨_, _,
    .cons (.start (.inl .createRecovery)) <| .cons (.call .createRecovery) <|
    .cons (.start (.inr (.save (recordOf "b" "b1")))) <| .cons (.call .otherSave) <|
    .cons (.beside 0 .next rfl) <|
    .cons (.beside 0 (.readEphemeral rfl) rfl) <|
    .cons (.beside 0 .readPersistent rfl) <|
    .cons (.beside 0 (.skipReload (by decide)) rfl) <|
    .cons (.beside 0 .readForRefresh rfl) <|
    .cons (.beside 0 (.submit (rotated "a2") trivial) rfl) <|
    .cons (.beside 0 (.loadForUpdate 1 rfl rfl) rfl) <|
    .cons (.beside 0 .saveUpdate rfl) <|
    .cons (.beside 0 (.readEphemeral rfl) rfl) <|
    .cons (.beside 0 .readPersistent rfl) <|
    .single (.beside 0 .cacheRefreshed rfl), rfl, rfl, rfl⟩

end SheriMl.Auth
