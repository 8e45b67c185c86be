import SheriMl.Auth.Manager

/-!
# Refreshes in runs

The endpoint takes a refresh token once, and gives the next one with it. Between the reading of the
cached tokens and the reload after the refresh nothing keeps other calls from the same tokens
(`replayed`). Where a call submits tokens that it read when all refreshes accepted before had
reloaded the cache, no token is replayed, and when all calls have returned the stored and the
cached tokens are those of the latest refresh (`singleUse_of_run`).
-/

namespace SheriMl.Auth

open Pool Transition

/-- The endpoint rotates the refresh token, and rejects one that it has accepted. -/
def Rotating (submissions : List (Str × Bool)) (token : Str) (response : RefreshResponse) : Prop :=
  (token, true) ∉ submissions ∧ ∃ next, response.refreshToken = some next ∧
    (next, true) ∉ submissions ∧ next ≠ token

/-- What the steps go well with: the refreshes that were accepted before a token is submitted had
reloaded the cache when it was read, no recovery puts credentials in the cache that a refresh has
replaced and reloaded since they were loaded, and what is accepted arrives, is stored and is
reloaded. -/
def Call.OneByOne (manager : AuthManager) (s : Session) : Call → Operation → Prop
  | submitting _ _ _ _ settled, .submitted | submitting _ _ _ _ settled, .refused =>
    settled = s.issued.length
  | submitting .., .lostResponse => False
  | updating .., .failed | saving .., .failed => False
  | loading (.refreshed ..), .loadFailed | loadingPersistent (.refreshed ..), .loadFailed => False
  | loaded (.recoveryReload ..) found, .cachedReload =>
    s.settled = s.issued.length → found = manager.loadAuth s.ephemeral s.persistent
  | _, _ => True

structure OneByOneStep (manager : AuthManager) (s : Session) (call : Call) (operation : Operation)
    (s' : Session) (calls : Multiset Call) : Prop where
  step : CallStep manager Rotating s call operation s' calls
  oneByOne : call.OneByOne manager s operation

/-- The tokens of the record are those of a response. -/
def AuthDotJson.HasTokensOf (record : AuthDotJson) (manager : AuthManager)
    (response : RefreshResponse) : Prop :=
  ∃ tokens, record.tokens = some tokens ∧ response.refreshToken = some tokens.refreshToken ∧
    (∀ accessToken, response.accessToken = some accessToken → tokens.accessToken = accessToken) ∧
    ∀ idToken, response.idToken = some idToken →
      manager.parseChatgptJwtClaims idToken = some tokens.idToken

structure SingleUse (manager : AuthManager) (c : State) : Prop where
  /-- no token is submitted after it has been accepted -/
  submissions : c.shared.submissions.Pairwise fun earlier later =>
    earlier.2 = true → later.1 ≠ earlier.1
  /-- when all calls have returned -/
  latest : (∀ call ∈ c.calls, ∃ recovery, call = .recovery recovery) →
    ∀ response, c.shared.issued.getLast? = some response →
    ∃ storage stored cached, c.shared.stored storage = some stored ∧
      c.shared.cached = some (.chatgpt cached storage) ∧
      stored.HasTokensOf manager response ∧ cached.HasTokensOf manager response

/-! ## The latest tokens -/

namespace Session

variable (s : Session) (manager : AuthManager) (initial : Str)

/-- The refresh token that was issued last. -/
def latestToken : Str :=
  match s.issued.getLast? with
  | some response => response.refreshToken.getD initial
  | none => initial

/-- The record has the tokens of the latest refresh. -/
def Latest (record : AuthDotJson) : Prop :=
  match s.issued.getLast? with
  | some response => record.HasTokensOf manager response
  | none => record.refreshToken? = some initial

variable {s manager initial}

theorem refreshToken_of_latest {record : AuthDotJson} (h : s.Latest manager initial record) :
    record.refreshToken? = some (s.latestToken initial) := by
  unfold Latest at h
  unfold latestToken
  cases hlast : s.issued.getLast? with
  | some response =>
    simp only [hlast] at h
    obtain ⟨tokens, htokens, hrefresh, -⟩ := h
    simp only [AuthDotJson.refreshToken?, htokens, hrefresh, Option.map_some, Option.getD_some]
  | none =>
    simp only [hlast] at h
    exact h

theorem latest_iff {record : AuthDotJson} {response : RefreshResponse}
    (h : s.issued.getLast? = some response) :
    s.Latest manager initial record ↔ record.HasTokensOf manager response := by
  simp only [Latest, h]

end Session

/-- A record whose tokens a refresh may replace. -/
structure AuthDotJson.Managed (record : AuthDotJson) : Prop where
  mode : record.resolvedMode = .chatgpt
  tokens : record.tokens.isSome

namespace AuthDotJson.Managed

variable {record : AuthDotJson}

theorem fromAuthDotJson (h : record.Managed) (storage : StorageMode) :
    CodexAuth.fromAuthDotJson record storage = some (.chatgpt record storage) := by
  simp only [CodexAuth.fromAuthDotJson, h.mode]

/-- A refresh keeps what kind of record it goes into, and leaves its tokens there. -/
theorem updateTokens (h : record.Managed) {manager : AuthManager} {response : RefreshResponse}
    {now : Int} {record' : AuthDotJson} (hrotated : response.refreshToken.isSome)
    (hrecord : record.updateTokens manager.parseChatgptJwtClaims response now = some record') :
    record'.Managed ∧ record'.HasTokensOf manager response := by
  obtain ⟨refreshToken, hrefresh⟩ := Option.isSome_iff_exists.1 hrotated
  obtain ⟨idToken, hid, rfl⟩ := Option.map_eq_some_iff.1 hrecord
  refine ⟨⟨h.mode, rfl⟩, _, rfl, ?_, fun accessToken haccess => ?_, fun token htoken => ?_⟩
  · simp only [hrefresh, Option.getD_some]
  · simp only [haccess, Option.getD_some]
  · simp only [htoken] at hid
    exact hid

end AuthDotJson.Managed

/-! ## The calls -/

def UnauthorizedRecovery.Managed (recovery : UnauthorizedRecovery) : Prop :=
  recovery.step ≠ .externalRefresh

def Caller.Managed : Caller → Prop
  | .recovery r => r.Managed
  | .auth | .refreshToken => True

def Goal.Managed : Goal → Prop
  | .refreshed caller external => external = false ∧ caller.Managed
  | .recoveryReload recovery _ => recovery.Managed

/-- A refresh that was accepted and has not reloaded the cache. -/
def inFlight : Call → Nat
  | .updating .. | .saving .. | .loading (.refreshed ..) | .loadingPersistent (.refreshed ..)
  | .loaded (.refreshed ..) _ => 1
  | _ => 0

/-- A refresh that was accepted and is not stored. -/
def unstored : Call → Nat
  | .updating .. | .saving .. => 1
  | _ => 0

theorem unstored_le_inFlight (call : Call) : unstored call ≤ inFlight call := by
  unfold unstored inFlight
  split <;> first | exact Nat.le_refl _ | exact Nat.zero_le _

/-- What holds of a call while the credentials are managed ones in the store `storage`. -/
def Call.Managed (manager : AuthManager) (storage : StorageMode) (initial : Str) (s : Session) :
    Call → Prop
  | auth | creatingRecovery => True
  | refreshing caller => caller.Managed
  | submitting caller _ storage' tokens settled => caller.Managed ∧ storage' = storage ∧
      settled ≤ s.settled ∧
      (settled = s.issued.length → tokens.refreshToken = s.latestToken initial)
  | updating caller _ storage' response => caller.Managed ∧ storage' = storage ∧
      response.refreshToken.isSome ∧ s.issued.getLast? = some response
  | saving caller _ storage' record => caller.Managed ∧ storage' = storage ∧ record.Managed ∧
      s.Latest manager initial record
  | loading goal => goal.Managed
  | loadingPersistent goal => goal.Managed ∧ storage = .persistent
  | loaded (.refreshed caller external) found => external = false ∧ caller.Managed ∧
      ∃ record, found = some (.chatgpt record storage) ∧ record.Managed ∧
        s.Latest manager initial record
  | loaded (.recoveryReload r _) found => r.Managed ∧
      (found = none ∨ ∃ record, found = some (.chatgpt record storage) ∧ record.Managed)
  | recovery r => r.Managed
  | refreshingExternal _ | askingExternal .. | savingExternal .. | otherSave _ | otherLogout =>
    False

section Managed

variable {manager : AuthManager} {storage : StorageMode} {initial : Str} {s s' : Session}

/-- What holds of a call depends on the refreshes only. -/
theorem Call.Managed.of_issued {call : Call} (h : call.Managed manager storage initial s)
    (hsettled : s.settled ≤ s'.settled) (hissued : s'.issued = s.issued) :
    call.Managed manager storage initial s' := by
  have hlatest : ∀ record, s'.Latest manager initial record ↔ s.Latest manager initial record :=
    fun record => by rw [Session.Latest, hissued]; exact Iff.rfl
  have htoken : s'.latestToken initial = s.latestToken initial := by
    rw [Session.latestToken, hissued]
    rfl
  cases call with
  | submitting caller accountId storage' tokens settled =>
    obtain ⟨hcaller, hstorage, hle, htokens⟩ := h
    refine ⟨hcaller, hstorage, hle.trans hsettled, ?_⟩
    rw [hissued, htoken]
    exact htokens
  | updating caller accountId storage' response =>
    obtain ⟨hcaller, hstorage, hrotated, hlast⟩ := h
    exact ⟨hcaller, hstorage, hrotated, by rw [hissued]; exact hlast⟩
  | saving caller accountId storage' record =>
    obtain ⟨hcaller, hstorage, hrecord, hlast⟩ := h
    exact ⟨hcaller, hstorage, hrecord, (hlatest record).2 hlast⟩
  | loaded goal found =>
    cases goal with
    | refreshed caller external =>
      obtain ⟨hexternal, hcaller, record, hfound, hrecord, hlast⟩ := h
      exact ⟨hexternal, hcaller, record, hfound, hrecord, (hlatest record).2 hlast⟩
    | recoveryReload recovery expectedAccountId => exact h
  | _ => exact h

/-- A refresh that is accepted while no other is in flight. -/
theorem Call.Managed.of_idle {call : Call} (h : call.Managed manager storage initial s)
    (hidle : inFlight call = 0) (hsettled : s'.settled = s.settled)
    (hle : s.settled ≤ s.issued.length) (hissued : s'.issued.length = s.issued.length + 1) :
    call.Managed manager storage initial s' := by
  cases call with
  | submitting caller accountId storage' tokens settled =>
    obtain ⟨hcaller, hstorage, hread, -⟩ := h
    exact ⟨hcaller, hstorage, hsettled ▸ hread, fun heq => by omega⟩
  | updating | saving => cases hidle
  | loaded goal found =>
    cases goal with
    | refreshed => cases hidle
    | recoveryReload => exact h
  | _ => exact h

theorem Caller.finish_managed {caller : Caller} (h : caller.Managed) (ok : Bool) :
    ∀ call ∈ caller.finish ok, call.Managed manager storage initial s ∧ inFlight call = 0 := by
  intro call hcall
  cases caller with
  | auth | refreshToken => cases ok <;> cases hcall
  | recovery recovery =>
    cases ok with
    | true =>
      rw [Multiset.mem_singleton.1 hcall]
      exact ⟨fun hstep => (by cases hstep), rfl⟩
    | false =>
      rw [Multiset.mem_singleton.1 hcall]
      exact ⟨h, rfl⟩

theorem submitting_managed {record : AuthDotJson} {tokens : TokenData}
    (htokens : record.tokens = some tokens)
    (hlatest : s.settled = s.issued.length → s.Latest manager initial record) {caller : Caller}
    (hcaller : caller.Managed) :
    (Call.submitting caller record.accountId storage tokens s.settled).Managed manager storage
      initial s := by
  refine ⟨hcaller, rfl, Nat.le_refl _, fun hsettled => ?_⟩
  have htoken := Session.refreshToken_of_latest (hlatest hsettled)
  rw [AuthDotJson.refreshToken?, htokens] at htoken
  exact Option.some.inj htoken

theorem afterAuthRead_managed {record : AuthDotJson}
    (hlatest : s.settled = s.issued.length → s.Latest manager initial record) (now : Int) :
    ∀ call ∈ afterAuthRead now s.settled (some (.chatgpt record storage)),
      call.Managed manager storage initial s ∧ inFlight call = 0 := by
  intro call hcall
  unfold afterAuthRead at hcall
  split at hcall
  next authDotJson storage' tokens hstale =>
    rw [Multiset.mem_singleton.1 hcall]
    rw [Option.bind_some, CodexAuth.staleTokens] at hstale
    split at hstale
    next tokens' lastRefresh htokens hrefresh =>
      split at hstale
      · cases hstale
      · obtain ⟨rfl, rfl, rfl⟩ := Option.some.inj hstale
        exact ⟨submitting_managed htokens hlatest trivial, rfl⟩
    · cases hstale
  · cases hcall

theorem afterRefreshRead_managed {record : AuthDotJson} (hrecord : record.Managed)
    (hlatest : s.settled = s.issued.length → s.Latest manager initial record) {caller : Caller}
    (hcaller : caller.Managed) :
    ∀ call ∈ afterRefreshRead caller s.settled (some (.chatgpt record storage)),
      call.Managed manager storage initial s ∧ inFlight call = 0 := by
  intro call hcall
  obtain ⟨tokens, htokens⟩ := Option.isSome_iff_exists.1 hrecord.tokens
  simp only [afterRefreshRead, htokens, Multiset.mem_singleton] at hcall
  rw [hcall]
  exact ⟨submitting_managed htokens hlatest hcaller, rfl⟩

theorem UnauthorizedRecovery.next_managed {recovery : UnauthorizedRecovery}
    (h : recovery.Managed) (cached : Option CodexAuth) :
    ∀ call ∈ recovery.next manager cached,
      call.Managed manager storage initial s ∧ inFlight call = 0 := by
  intro call hcall
  unfold UnauthorizedRecovery.next at hcall
  split at hcall
  · split at hcall
    · split at hcall <;>
      · rw [Multiset.mem_singleton.1 hcall]
        exact ⟨h, rfl⟩
    · rw [Multiset.mem_singleton.1 hcall]
      exact ⟨h, rfl⟩
    next hstep => exact absurd hstep h
    · rw [Multiset.mem_singleton.1 hcall]
      exact ⟨h, rfl⟩
  · rw [Multiset.mem_singleton.1 hcall]
    exact ⟨h, rfl⟩

end Managed

/-! ## Managed credentials -/

/-- The refreshes go one by one over the managed credentials in the store `storage`. -/
structure Serial (manager : AuthManager) (storage : StorageMode) (initial : Str) (c : State) :
    Prop where
  slot : storage = .persistent → c.shared.ephemeral = none ∧ manager.ephemeralOnly = false
  stored : ∃ record, c.shared.stored storage = some record ∧ record.Managed ∧
    (weigh unstored c.calls = 0 → c.shared.Latest manager initial record)
  cached : ∃ record, c.shared.cached = some (.chatgpt record storage) ∧ record.Managed ∧
    (c.shared.settled = c.shared.issued.length → c.shared.Latest manager initial record)
  inFlight : weigh inFlight c.calls + c.shared.settled = c.shared.issued.length
  one : weigh Auth.inFlight c.calls ≤ 1
  fresh : (c.shared.latestToken initial, true) ∉ c.shared.submissions
  submissions : c.shared.submissions.Pairwise fun earlier later =>
    earlier.2 = true → later.1 ≠ earlier.1
  calls : ∀ call ∈ c.calls, call.Managed manager storage initial c.shared

theorem weigh_unstored_le (calls : Multiset Call) : weigh unstored calls ≤ weigh inFlight calls := by
  induction calls using Multiset.induction_on with
  | empty => exact Nat.le_refl _
  | cons call calls ih =>
    have hcall := unstored_le_inFlight call
    rw [weigh_cons, weigh_cons]
    omega

namespace Serial

variable {manager : AuthManager} {storage : StorageMode} {initial : Str} {s : Session}
  {call : Call} {calls ks : Multiset Call}

/-- A step that leaves the session alone. -/
theorem of_calls (h : Serial manager storage initial ⟨s, call ::ₘ ks⟩)
    (hcalls : ∀ call' ∈ calls, call'.Managed manager storage initial s)
    (hin : weigh Auth.inFlight calls = Auth.inFlight call)
    (hunstored : weigh unstored calls = unstored call) :
    Serial manager storage initial ⟨s, calls + ks⟩ := by
  obtain ⟨hslot, hstored, hcached, hinFlight, hone, hfresh, hsubmissions, hmanaged⟩ := h
  simp only [weigh_cons] at hstored hinFlight hone
  refine ⟨hslot, ?_, hcached, ?_, ?_, hfresh, hsubmissions, fun call' hmem => ?_⟩
  · rw [weigh_add, hunstored]
    exact hstored
  · rw [weigh_add, hin]
    exact hinFlight
  · rw [weigh_add, hin]
    exact hone
  · rcases Multiset.mem_add.1 hmem with hmem | hmem
    · exact hcalls call' hmem
    · exact hmanaged call' (Multiset.mem_cons_of_mem hmem)

/-- A step outside a refresh in flight. -/
theorem of_idle (h : Serial manager storage initial ⟨s, call ::ₘ ks⟩)
    (hcalls : ∀ call' ∈ calls, call'.Managed manager storage initial s ∧
      Auth.inFlight call' = 0)
    (hidle : Auth.inFlight call = 0) : Serial manager storage initial ⟨s, calls + ks⟩ := by
  have hin : weigh Auth.inFlight calls = 0 := weigh_eq_zero _ fun call' hmem => (hcalls call' hmem).2
  have hle := weigh_unstored_le calls
  have hle' := unstored_le_inFlight call
  exact h.of_calls (fun call' hmem => (hcalls call' hmem).1) (hin.trans hidle.symm) (by omega)

theorem start (h : Serial manager storage initial ⟨s, ks⟩) (hstart : call.Start) :
    Serial manager storage initial ⟨s, call ::ₘ ks⟩ := by
  obtain ⟨hslot, hstored, hcached, hinFlight, hone, hfresh, hsubmissions, hmanaged⟩ := h
  have hnew : call.Managed manager storage initial s ∧ Auth.inFlight call = 0 := by
    cases hstart <;> exact ⟨trivial, rfl⟩
  obtain ⟨hnew, hidle⟩ := hnew
  have hunstored : unstored call = 0 := Nat.le_zero.1 (hidle ▸ unstored_le_inFlight call)
  refine ⟨hslot, ?_, hcached, ?_, ?_, hfresh, hsubmissions, fun call' hmem => ?_⟩
  · rw [weigh_cons, hunstored, Nat.zero_add]
    exact hstored
  · rw [weigh_cons, hidle, Nat.zero_add]
    exact hinFlight
  · rw [weigh_cons, hidle, Nat.zero_add]
    exact hone
  · rcases Multiset.mem_cons.1 hmem with rfl | hmem
    · exact hnew
    · exact hmanaged call' hmem

theorem afterEphemeral {record : AuthDotJson} (hrecord : record.Managed)
    (hstored : s.stored storage = some record)
    (hslot : storage = .persistent → s.ephemeral = none ∧ manager.ephemeralOnly = false) :
    manager.afterEphemeral s.ephemeral =
      if storage = .ephemeral then some (some (.chatgpt record storage)) else none := by
  cases storage with
  | ephemeral =>
    have hephemeral : s.ephemeral = some record := hstored
    rw [hephemeral, if_pos rfl]
    exact congrArg some (hrecord.fromAuthDotJson .ephemeral)
  | persistent =>
    obtain ⟨hnone, honly⟩ := hslot rfl
    rw [hnone, AuthManager.afterEphemeral, honly]
    rfl

theorem afterPersistent {record : AuthDotJson} (hrecord : record.Managed)
    (hstored : s.stored .persistent = some record) :
    AuthManager.afterPersistent s.persistent = some (.chatgpt record .persistent) := by
  have hpersistent : s.persistent = some record := hstored
  rw [hpersistent]
  exact hrecord.fromAuthDotJson .persistent

theorem loadAuth (henv : manager.apiKeyEnv = none) {record : AuthDotJson}
    (hrecord : record.Managed) (hstored : s.stored storage = some record)
    (hslot : storage = .persistent → s.ephemeral = none ∧ manager.ephemeralOnly = false) :
    manager.loadAuth s.ephemeral s.persistent = some (.chatgpt record storage) := by
  simp only [AuthManager.loadAuth, henv, afterEphemeral hrecord hstored hslot]
  cases storage with
  | ephemeral => rfl
  | persistent => exact afterPersistent hrecord hstored

/-- What is loaded after a refresh are the latest tokens, and those of the account else. -/
theorem loaded_managed {goal : Goal} (hgoal : goal.Managed) {record : AuthDotJson}
    (hrecord : record.Managed)
    (hlatest : ∀ caller external, goal = .refreshed caller external →
      s.Latest manager initial record) :
    (Call.loaded goal (some (.chatgpt record storage))).Managed manager storage initial s := by
  cases goal with
  | refreshed caller external =>
    exact ⟨hgoal.1, hgoal.2, record, rfl, hrecord, hlatest caller external rfl⟩
  | recoveryReload recovery expectedAccountId => exact ⟨hgoal, .inr ⟨record, rfl, hrecord⟩⟩

/-- The stored record while a refresh reloads: no other is in flight. -/
theorem stored_of_loading (h : Serial manager storage initial ⟨s, call ::ₘ ks⟩) {goal : Goal}
    (hcall : call = .loading goal ∨ call = .loadingPersistent goal) :
    ∃ record, s.stored storage = some record ∧ record.Managed ∧
      ∀ caller external, goal = .refreshed caller external → s.Latest manager initial record := by
  obtain ⟨record, hstored, hrecord, hlatest⟩ := h.stored
  refine ⟨record, hstored, hrecord, fun caller external hgoal => hlatest ?_⟩
  have hone := h.one
  have hle := weigh_unstored_le ks
  rw [weigh_cons] at hone ⊢
  subst hgoal
  rcases hcall with rfl | rfl <;> simp only [Auth.inFlight, unstored] at hone ⊢ <;> omega

/-- A step of `load_auth`. -/
theorem loading (h : Serial manager storage initial ⟨s, call ::ₘ ks⟩) {goal : Goal}
    (hcall : call = .loading goal ∨ call = .loadingPersistent goal) {call' : Call}
    (hnext : call' = .loadingPersistent goal ∨ ∃ found, call' = .loaded goal found)
    (hmanaged : call'.Managed manager storage initial s) :
    Serial manager storage initial ⟨s, {call'} + ks⟩ := by
  have hweights : Auth.inFlight call' = Auth.inFlight call ∧ unstored call' = unstored call := by
    rcases hcall with rfl | rfl <;> rcases hnext with rfl | ⟨found, rfl⟩ <;> cases goal <;>
      exact ⟨rfl, rfl⟩
  refine h.of_calls (fun call hmem => ?_) ?_ ?_
  · rw [Multiset.mem_singleton.1 hmem]
    exact hmanaged
  · exact (weigh_singleton _ _).trans hweights.1
  · exact (weigh_singleton _ _).trans hweights.2

theorem fallible_elim {caller : Caller} (hmanaged : call.Managed manager storage initial s)
    (horder : call.OneByOne manager s .failed) (h : call.fallible? = some caller) : False := by
  cases call <;> first | exact hmanaged | exact horder | cases h

theorem submitting_latest {caller : Caller} {accountId : Option Str} {storage' : StorageMode}
    {tokens : TokenData} {settled : Nat}
    (h : Serial manager storage initial
      ⟨s, .submitting caller accountId storage' tokens settled ::ₘ ks⟩)
    (horder : settled = s.issued.length) :
    s.settled = s.issued.length ∧ (∀ call' ∈ ks, Auth.inFlight call' = 0) ∧
      (tokens.refreshToken, true) ∉ s.submissions := by
  obtain ⟨-, -, hread, htokens⟩ := h.calls _ (Multiset.mem_cons_self _ _)
  have hinFlight : _ + s.settled = s.issued.length := h.inFlight
  change settled ≤ s.settled at hread
  rw [weigh_cons] at hinFlight
  have hidle : Auth.inFlight (.submitting caller accountId storage' tokens settled) = 0 := rfl
  refine ⟨by omega, fun call' hmem => ?_, ?_⟩
  · have hle : Auth.inFlight call' ≤ weigh Auth.inFlight ks := le_weigh hmem
    omega
  · rw [htokens horder]
    exact h.fresh

theorem submissions_snoc {token : Str} {accepts : Bool}
    (h : s.submissions.Pairwise fun earlier later => earlier.2 = true → later.1 ≠ earlier.1)
    (hfresh : (token, true) ∉ s.submissions) :
    (s.submit token accepts).submissions.Pairwise fun earlier later =>
      earlier.2 = true → later.1 ≠ earlier.1 := by
  refine List.pairwise_append.2 ⟨h, List.pairwise_singleton _ _, fun earlier hearlier later hlater => ?_⟩
  rw [List.mem_singleton.1 hlater]
  rintro haccepted rfl
  refine hfresh ?_
  rw [← haccepted]
  exact hearlier

theorem submit {caller : Caller} {accountId : Option Str} {storage' : StorageMode}
    {tokens : TokenData} {settled : Nat} {response : RefreshResponse}
    (h : Serial manager storage initial
      ⟨s, .submitting caller accountId storage' tokens settled ::ₘ ks⟩)
    (horder : settled = s.issued.length)
    (hrotating : Rotating s.submissions tokens.refreshToken response) :
    Serial manager storage initial ⟨(s.submit tokens.refreshToken true).issue response,
      {.updating caller accountId storage' response} + ks⟩ := by
  obtain ⟨hsettled, hidle, hnew⟩ := h.submitting_latest horder
  obtain ⟨-, next, hnext, hunused, hne⟩ := hrotating
  obtain ⟨hcaller, hstorage, -⟩ := h.calls _ (Multiset.mem_cons_self _ _)
  have hlast : ((s.submit tokens.refreshToken true).issue response).issued.getLast? = some response :=
    List.getLast?_concat
  have hlength : ((s.submit tokens.refreshToken true).issue response).issued.length =
      s.issued.length + 1 := List.length_append
  have hks : weigh Auth.inFlight ks = 0 := weigh_eq_zero _ hidle
  have hun : weigh unstored ks = 0 := Nat.le_zero.1 (hks ▸ weigh_unstored_le ks)
  obtain ⟨record, hrecord, hmanaged, -⟩ := h.stored
  obtain ⟨record', hrecord', hmanaged', -⟩ := h.cached
  refine ⟨h.slot, ⟨record, hrecord, hmanaged, fun hzero => ?_⟩,
    ⟨record', hrecord', hmanaged', fun heq => ?_⟩, ?_, ?_, ?_, submissions_snoc h.submissions hnew,
    fun call' hmem => ?_⟩
  · rw [weigh_add, weigh_singleton] at hzero
    cases Nat.eq_zero_of_add_eq_zero_right hzero
  · rw [hlength] at heq
    change s.settled = _ at heq
    omega
  · rw [weigh_add, weigh_singleton, hks, hlength]
    change 1 + 0 + s.settled = _
    omega
  · rw [weigh_add, weigh_singleton, hks]
    exact Nat.le_refl _
  · simp only [Session.latestToken, hlast, hnext, Option.getD_some]
    intro hmem
    rcases List.mem_append.1 hmem with hmem | hmem
    · exact hunused hmem
    · exact hne (congrArg Prod.fst (List.mem_singleton.1 hmem))
  · rcases Multiset.mem_add.1 hmem with hmem | hmem
    · rw [Multiset.mem_singleton.1 hmem]
      exact ⟨hcaller, hstorage, Option.isSome_of_eq_some hnext, hlast⟩
    · have hold := h.calls call' (Multiset.mem_cons_of_mem hmem)
      exact hold.of_idle (hidle call' hmem) rfl hsettled.le hlength

theorem refuse {caller : Caller} {accountId : Option Str} {storage' : StorageMode}
    {tokens : TokenData} {settled : Nat}
    (h : Serial manager storage initial
      ⟨s, .submitting caller accountId storage' tokens settled ::ₘ ks⟩)
    (horder : settled = s.issued.length) :
    Serial manager storage initial ⟨s.submit tokens.refreshToken false, caller.finish false + ks⟩ := by
  obtain ⟨-, -, hnew⟩ := h.submitting_latest horder
  obtain ⟨hcaller, -⟩ := h.calls _ (Multiset.mem_cons_self _ _)
  have hidle := h.of_idle (Caller.finish_managed hcaller false) rfl
  refine ⟨hidle.slot, hidle.stored, hidle.cached, hidle.inFlight, hidle.one, fun hmem => ?_,
    submissions_snoc h.submissions hnew, fun call' hmem => ?_⟩
  · rcases List.mem_append.1 hmem with hmem | hmem
    · exact h.fresh hmem
    · cases congrArg Prod.snd (List.mem_singleton.1 hmem)
  · exact (hidle.calls call' hmem).of_issued (Nat.le_refl _) rfl

theorem saveUpdate {caller : Caller} {accountId : Option Str} {storage' : StorageMode}
    {record : AuthDotJson}
    (h : Serial manager storage initial ⟨s, .saving caller accountId storage' record ::ₘ ks⟩) :
    Serial manager storage initial ⟨(s.save storage' record).logUpdate record.accountId accountId,
      {.loading (.refreshed caller false)} + ks⟩ := by
  obtain ⟨hcaller, rfl, hrecord, hlatest⟩ := h.calls _ (Multiset.mem_cons_self _ _)
  have hinFlight := h.inFlight
  have hone := h.one
  obtain ⟨cached, hcached, hmanaged, hsettled⟩ := h.cached
  rw [weigh_cons] at hinFlight hone
  cases storage' with
  | ephemeral =>
    refine ⟨fun hslot => (by cases hslot), ⟨record, rfl, hrecord, fun _ => hlatest⟩,
      ⟨cached, hcached, hmanaged, hsettled⟩, ?_, ?_, h.fresh, h.submissions, fun call' hmem => ?_⟩
    · rw [weigh_add, weigh_singleton]
      exact hinFlight
    · rw [weigh_add, weigh_singleton]
      exact hone
    · rcases Multiset.mem_add.1 hmem with hmem | hmem
      · rw [Multiset.mem_singleton.1 hmem]
        exact ⟨rfl, hcaller⟩
      · exact (h.calls call' (Multiset.mem_cons_of_mem hmem)).of_issued (Nat.le_refl _) rfl
  | persistent =>
    refine ⟨h.slot, ⟨record, rfl, hrecord, fun _ => hlatest⟩,
      ⟨cached, hcached, hmanaged, hsettled⟩, ?_, ?_, h.fresh, h.submissions, fun call' hmem => ?_⟩
    · rw [weigh_add, weigh_singleton]
      exact hinFlight
    · rw [weigh_add, weigh_singleton]
      exact hone
    · rcases Multiset.mem_add.1 hmem with hmem | hmem
      · rw [Multiset.mem_singleton.1 hmem]
        exact ⟨rfl, hcaller⟩
      · exact (h.calls call' (Multiset.mem_cons_of_mem hmem)).of_issued (Nat.le_refl _) rfl

theorem cacheRefreshed {caller : Caller} {external : Bool} {found : Option CodexAuth}
    (h : Serial manager storage initial ⟨s, .loaded (.refreshed caller external) found ::ₘ ks⟩) :
    Serial manager storage initial
      ⟨((s.setCachedAuth found).settle external).logRecovered caller.expectedAccountId found,
        caller.finish true + ks⟩ := by
  obtain ⟨rfl, hcaller, record, rfl, hrecord, hlatest⟩ := h.calls _ (Multiset.mem_cons_self _ _)
  have hfinish : ∀ call' ∈ caller.finish true, call'.Managed manager storage initial s ∧
    Auth.inFlight call' = 0 := Caller.finish_managed hcaller true
  have hin : weigh Auth.inFlight (caller.finish true) = 0 :=
    weigh_eq_zero _ fun call' hmem => (hfinish call' hmem).2
  have hun : weigh unstored (caller.finish true) = 0 :=
    Nat.le_zero.1 (hin ▸ weigh_unstored_le (caller.finish true))
  have hinFlight := h.inFlight
  have hone := h.one
  obtain ⟨stored, hstored, hmanaged, hlast⟩ := h.stored
  simp only [weigh_cons] at hinFlight hone hlast
  refine ⟨h.slot, ⟨stored, hstored, hmanaged, ?_⟩, ⟨record, rfl, hrecord, fun _ => hlatest⟩, ?_, ?_,
    h.fresh, h.submissions, fun call' hmem => ?_⟩
  · rw [weigh_add, hun]
    exact hlast
  · rw [weigh_add, hin]
    change 0 + weigh Auth.inFlight ks + (s.settled + 1) = s.issued.length
    change 1 + weigh Auth.inFlight ks + s.settled = s.issued.length at hinFlight
    omega
  · rw [weigh_add, hin]
    omega
  · have hold : call'.Managed manager storage initial s := by
      rcases Multiset.mem_add.1 hmem with hmem | hmem
      · exact (hfinish call' hmem).1
      · exact h.calls call' (Multiset.mem_cons_of_mem hmem)
    exact hold.of_issued (Nat.le_succ _) rfl

theorem cacheReload (henv : manager.apiKeyEnv = none) {recovery : UnauthorizedRecovery}
    {expectedAccountId : Str} {found : Option CodexAuth}
    (h : Serial manager storage initial
      ⟨s, .loaded (.recoveryReload recovery expectedAccountId) found ::ₘ ks⟩)
    (horder : s.settled = s.issued.length → found = manager.loadAuth s.ephemeral s.persistent)
    (hfound : found.bind CodexAuth.getAccountId = some expectedAccountId) :
    Serial manager storage initial
      ⟨(s.setCachedAuth found).logRecovered recovery.expectedAccountId found,
        {.recovery { recovery with step := .refreshToken }} + ks⟩ := by
  obtain ⟨hrecovery, hnone | ⟨record, rfl, hrecord⟩⟩ := h.calls _ (Multiset.mem_cons_self _ _)
  · rw [hnone] at hfound
    cases hfound
  have hnext : ∀ call' ∈ ({.recovery { recovery with step := .refreshToken }} : Multiset Call),
      call'.Managed manager storage initial s ∧ Auth.inFlight call' = 0 := fun call' hmem => by
    rw [Multiset.mem_singleton.1 hmem]
    exact ⟨fun hstep => (by cases hstep), rfl⟩
  have hidle := h.of_idle hnext rfl
  refine ⟨hidle.slot, hidle.stored, ⟨record, rfl, hrecord, fun hsettled => ?_⟩, hidle.inFlight,
    hidle.one, hidle.fresh, hidle.submissions, fun call' hmem => ?_⟩
  · -- no refresh is in flight, so what is stored is the latest
    change s.settled = s.issued.length at hsettled
    obtain ⟨stored, hstored, hmanaged, hlast⟩ := h.stored
    have hload := (horder hsettled).trans (loadAuth henv hmanaged hstored h.slot)
    have hinFlight : weigh Auth.inFlight (Call.loaded (.recoveryReload recovery expectedAccountId)
      (some (.chatgpt record storage)) ::ₘ ks) + s.settled = s.issued.length := h.inFlight
    have hle := weigh_unstored_le (Call.loaded (.recoveryReload recovery expectedAccountId)
      (some (.chatgpt record storage)) ::ₘ ks)
    obtain ⟨rfl, -⟩ := CodexAuth.chatgpt.inj (Option.some.inj hload)
    have hzero : weigh unstored (Call.loaded (.recoveryReload recovery expectedAccountId)
        (some (.chatgpt record storage)) ::ₘ ks) = 0 := by omega
    exact hlast hzero
  · exact (hidle.calls call' hmem).of_issued (Nat.le_refl _) rfl

theorem step (henv : manager.apiKeyEnv = none) {c c' : State} {l : Option Operation}
    (h : Serial manager storage initial c)
    (hstep : Step Call.Start (OneByOneStep manager) c l c') :
    Serial manager storage initial c' := by
  cases hstep with
  | start hstart => exact h.start hstart
  | @call s s' call operation calls ks horderly =>
    obtain ⟨hstep, horder⟩ := horderly
    have hcall := h.calls call (Multiset.mem_cons_self _ _)
    have hsingle : ∀ {call'}, call'.Managed manager storage initial s → Auth.inFlight call' = 0 →
        ∀ call ∈ ({call'} : Multiset Call), call.Managed manager storage initial s ∧
          Auth.inFlight call = 0 := fun hmanaged hidle call hmem => by
      rw [Multiset.mem_singleton.1 hmem]
      exact ⟨hmanaged, hidle⟩
    cases hstep with
    | readForAuth now =>
      obtain ⟨cached, hcached, -, hlatest⟩ := h.cached
      rw [show s.cached = _ from hcached]
      exact h.of_idle (afterAuthRead_managed hlatest now) rfl
    | readForRefresh =>
      obtain ⟨cached, hcached, hmanaged, hlatest⟩ := h.cached
      rw [show s.cached = _ from hcached]
      exact h.of_idle (afterRefreshRead_managed hmanaged hlatest hcall) rfl
    | submit response hrotating => exact h.submit horder hrotating
    | refuse => exact h.refuse horder
    | lose response hrotating => exact horder.elim
    | loadForUpdate now hstored hrecord =>
      obtain ⟨hcaller, rfl, hrotated, hlast⟩ := hcall
      obtain ⟨record, hfound, hmanaged, -⟩ := h.stored
      obtain rfl := Option.some.inj (hfound.symm.trans hstored)
      obtain ⟨hmanaged', htokens⟩ := hmanaged.updateTokens hrotated hrecord
      refine h.of_calls (fun call' hmem => ?_) ?_ ?_
      · rw [Multiset.mem_singleton.1 hmem]
        exact ⟨hcaller, rfl, hmanaged', (Session.latest_iff hlast).2 htokens⟩
      · exact weigh_singleton _ _
      · exact weigh_singleton _ _
    | saveUpdate => exact h.saveUpdate
    | fail hfallible => exact (fallible_elim hcall horder hfallible).elim
    | useEnv hkey =>
      rw [henv] at hkey
      cases hkey
    | readEphemeral _ =>
      obtain ⟨record, hstored, hmanaged, hlatest⟩ := h.stored_of_loading (.inl rfl)
      rw [afterEphemeral hmanaged hstored h.slot]
      cases storage with
      | ephemeral => exact h.loading (.inl rfl) (.inr ⟨_, rfl⟩) (loaded_managed hcall hmanaged hlatest)
      | persistent => exact h.loading (.inl rfl) (.inl rfl) ⟨hcall, rfl⟩
    | readPersistent =>
      obtain ⟨record, hstored, hmanaged, hlatest⟩ := h.stored_of_loading (.inr rfl)
      obtain ⟨hgoal, rfl⟩ := hcall
      rw [afterPersistent hmanaged hstored]
      exact h.loading (.inr rfl) (.inr ⟨_, rfl⟩) (loaded_managed hgoal hmanaged hlatest)
    | loadFail hloading =>
      rename_i goal
      cases goal with
      | refreshed caller external => rcases hloading with rfl | rfl <;> exact horder.elim
      | recoveryReload recovery expectedAccountId =>
        refine h.loading hloading (.inr ⟨_, rfl⟩) ⟨?_, .inl rfl⟩
        rcases hloading with rfl | rfl
        · exact hcall
        · exact hcall.1
    | cacheRefreshed => exact h.cacheRefreshed
    | cacheReload hfound => exact h.cacheReload henv horder hfound
    | skipReload hfound => exact h.of_idle (hsingle hcall.1 rfl) rfl
    | createRecovery =>
      obtain ⟨cached, hcached, -⟩ := h.cached
      rw [show s.cached = _ from hcached]
      exact h.of_idle (hsingle (fun hstep => by cases hstep) rfl) rfl
    | next => exact h.of_idle (UnauthorizedRecovery.next_managed hcall _) rfl
    | dropRecovery => exact h.of_idle (fun _ hmem => by cases hmem) rfl
    | readForExternal _ => exact hcall.elim
    | refreshExternal now hforced hrecord => exact hcall.elim
    | saveExternal => exact hcall.elim
    | otherSave => exact hcall.elim
    | otherLogout => exact hcall.elim

theorem init {ephemeral persistent : Option AuthDotJson} {record : AuthDotJson} {tokens : TokenData}
    (hload : manager.loadAuth ephemeral persistent = some (.chatgpt record storage))
    (htokens : record.tokens = some tokens) :
    manager.apiKeyEnv = none ∧
      Serial manager storage tokens.refreshToken ⟨manager.init ephemeral persistent, 0⟩ := by
  have hlatest : (manager.init ephemeral persistent).Latest manager tokens.refreshToken record := by
    simp only [Session.Latest, AuthManager.init, List.getLast?_nil, AuthDotJson.refreshToken?,
      htokens, Option.map_some]
  have hserial : (storage = .persistent → ephemeral = none ∧ manager.ephemeralOnly = false) →
      (manager.init ephemeral persistent).stored storage = some record → record.Managed →
      Serial manager storage tokens.refreshToken ⟨manager.init ephemeral persistent, 0⟩ :=
    fun hslot hstored hmanaged =>
      ⟨hslot, ⟨record, hstored, hmanaged, fun _ => hlatest⟩,
        ⟨record, hload, hmanaged, fun _ => hlatest⟩, rfl, Nat.zero_le _, fun hmem => (by cases hmem),
        .nil, fun call hmem => (by cases hmem)⟩
  have hfrom : ∀ {record' : AuthDotJson} {storage'},
      CodexAuth.fromAuthDotJson record' storage' = some (.chatgpt record storage) →
      record' = record ∧ storage' = storage ∧ record.Managed := fun {record' storage'} h => by
    unfold CodexAuth.fromAuthDotJson at h
    split at h
    · obtain ⟨apiKey, -, hauth⟩ := Option.map_eq_some_iff.1 h
      cases hauth
    next hmode =>
      obtain ⟨rfl, rfl⟩ := CodexAuth.chatgpt.inj (Option.some.inj h)
      exact ⟨rfl, rfl, hmode, Option.isSome_of_eq_some htokens⟩
    · cases h
  cases henv : manager.apiKeyEnv with
  | some apiKey =>
    simp only [AuthManager.loadAuth, henv] at hload
    cases hload
  | none =>
    refine ⟨rfl, ?_⟩
    simp only [AuthManager.loadAuth, henv] at hload
    cases ephemeral with
    | some record' =>
      obtain ⟨rfl, rfl, hmanaged⟩ := hfrom hload
      exact hserial (fun hslot => (by cases hslot)) rfl hmanaged
    | none =>
      cases honly : manager.ephemeralOnly with
      | true =>
        simp only [AuthManager.afterEphemeral, honly, if_true, Option.getD_some] at hload
        cases hload
      | false =>
        simp only [AuthManager.afterEphemeral, honly, Bool.false_eq_true, if_false,
          Option.getD_none] at hload
        obtain ⟨record', rfl, hrecord'⟩ := Option.bind_eq_some_iff.1 hload
        obtain ⟨rfl, rfl, hmanaged⟩ := hfrom hrecord'
        exact hserial (fun _ => ⟨rfl, honly⟩) rfl hmanaged

theorem singleUse {c : State} (h : Serial manager storage initial c) : SingleUse manager c where
  submissions := h.submissions
  latest hreturned response hlast := by
    have hidle : weigh Auth.inFlight c.calls = 0 := weigh_eq_zero _ fun call hmem => by
      obtain ⟨recovery, rfl⟩ := hreturned call hmem
      rfl
    have hsettled := h.inFlight
    rw [hidle, Nat.zero_add] at hsettled
    obtain ⟨stored, hstored, -, hstoredLatest⟩ := h.stored
    obtain ⟨cached, hcached, -, hcachedLatest⟩ := h.cached
    have hzero := Nat.le_zero.1 (hidle ▸ weigh_unstored_le c.calls)
    exact ⟨storage, stored, cached, hstored, hcached,
      (Session.latest_iff hlast).1 (hstoredLatest hzero),
      (Session.latest_iff hlast).1 (hcachedLatest hsettled)⟩

end Serial

/-! ## No credentials that a refresh goes into -/

/-- The auth has no refresh token of its own. -/
def Unmanaged (auth : Option CodexAuth) : Prop :=
  ∀ record storage, auth = some (.chatgpt record storage) → record.tokens = none

/-- Nothing is submitted, and nothing that has a refresh token is loaded. -/
structure Session.Unmanaged (manager : AuthManager) (persistent : Option AuthDotJson)
    (s : Session) : Prop where
  submissions : s.submissions = []
  issued : s.issued = []
  cached : Auth.Unmanaged s.cached
  unchanged : s.persistent = persistent
  ephemeral : manager.apiKeyEnv = none → ∀ found, manager.afterEphemeral s.ephemeral = some found →
    Auth.Unmanaged found
  afterPersistent : manager.apiKeyEnv = none → manager.afterEphemeral s.ephemeral = none →
    Auth.Unmanaged (AuthManager.afterPersistent persistent)

def Call.Unmanaged (persistent : Option AuthDotJson) : Call → Prop
  | submitting .. | updating .. | saving .. | otherSave _ | otherLogout => False
  | savingExternal _ record => record.resolvedMode = .chatgptAuthTokens
  | loaded _ found => Auth.Unmanaged found
  | loadingPersistent _ => Auth.Unmanaged (AuthManager.afterPersistent persistent)
  | _ => True

namespace Unmanaged

theorem none : Unmanaged none := fun _ _ h => by cases h

theorem apiKey (apiKey : Str) : Unmanaged (some (.apiKey apiKey)) := fun _ _ h => by cases h

theorem of_external {record : AuthDotJson} (h : record.resolvedMode = .chatgptAuthTokens)
    (storage : StorageMode) : Unmanaged (CodexAuth.fromAuthDotJson record storage) := by
  intro record' storage' hauth
  simp only [CodexAuth.fromAuthDotJson, h] at hauth
  cases hauth

variable {manager : AuthManager} {persistent : Option AuthDotJson}

theorem finish (caller : Caller) (ok : Bool) :
    ∀ call ∈ caller.finish ok, call.Unmanaged persistent := by
  cases caller <;> cases ok <;> simp [Caller.finish, Call.Unmanaged]

theorem afterAuthRead {cached : Option CodexAuth} (h : Unmanaged cached) (now : Int)
    (settled : Nat) : afterAuthRead now settled cached = 0 := by
  cases cached with
  | none => rfl
  | some auth =>
    cases auth with
    | apiKey | chatgptAuthTokens => rfl
    | chatgpt record storage =>
      have htokens := h record storage rfl
      simp only [Auth.afterAuthRead, Option.bind_some, CodexAuth.staleTokens, htokens]

theorem afterRefreshRead {cached : Option CodexAuth} (h : Unmanaged cached) (caller : Caller)
    (settled : Nat) :
    ∀ call ∈ afterRefreshRead caller settled cached, call.Unmanaged persistent := by
  cases cached with
  | none => exact finish caller true
  | some auth =>
    cases auth with
    | apiKey => exact finish caller true
    | chatgptAuthTokens => simp [Auth.afterRefreshRead, Call.Unmanaged]
    | chatgpt record storage =>
      have htokens := h record storage rfl
      simp only [Auth.afterRefreshRead, htokens]
      exact finish caller false

theorem next (recovery : UnauthorizedRecovery) (cached : Option CodexAuth) :
    ∀ call ∈ recovery.next manager cached, call.Unmanaged persistent := by
  unfold UnauthorizedRecovery.next
  split
  · split
    · split <;> simp [Call.Unmanaged]
    all_goals simp [Call.Unmanaged]
  · simp [Call.Unmanaged]

theorem singleton {call : Call} (h : call.Unmanaged persistent) :
    ∀ call' ∈ ({call} : Multiset Call), call'.Unmanaged persistent := fun call' hmem => by
  rw [Multiset.mem_singleton.1 hmem]
  exact h

end Unmanaged

section Unmanaged

variable {manager : AuthManager} {persistent : Option AuthDotJson} {s s' : Session}

theorem Session.Unmanaged.setCachedAuth (hs : s.Unmanaged manager persistent)
    {found : Option CodexAuth} (hfound : Auth.Unmanaged found) :
    (s.setCachedAuth found).Unmanaged manager persistent :=
  ⟨hs.submissions, hs.issued, hfound, hs.unchanged, hs.ephemeral, hs.afterPersistent⟩

theorem Session.Unmanaged.saveExternal (hs : s.Unmanaged manager persistent) {record : AuthDotJson}
    (hrecord : record.resolvedMode = .chatgptAuthTokens) :
    (s.save .ephemeral record).Unmanaged manager persistent where
  submissions := hs.submissions
  issued := hs.issued
  cached := hs.cached
  unchanged := hs.unchanged
  ephemeral _ found hfound := by
    obtain rfl := Option.some.inj hfound
    exact .of_external hrecord .ephemeral
  afterPersistent _ hnone := by cases hnone

theorem OneByOneStep.unmanaged {call : Call} {operation : Operation} {calls : Multiset Call}
    (h : OneByOneStep manager s call operation s' calls) (hs : s.Unmanaged manager persistent)
    (hcall : call.Unmanaged persistent) :
    s'.Unmanaged manager persistent ∧ ∀ call' ∈ calls, call'.Unmanaged persistent := by
  obtain ⟨hstep, -⟩ := h
  cases hstep with
  | readForAuth now =>
    rw [hs.cached.afterAuthRead]
    exact ⟨hs, by simp⟩
  | readForRefresh => exact ⟨hs, hs.cached.afterRefreshRead _ _⟩
  | submit | refuse | lose | loadForUpdate | saveUpdate | otherSave | otherLogout =>
    exact hcall.elim
  | fail => exact ⟨hs, Auth.Unmanaged.finish _ _⟩
  | useEnv => exact ⟨hs, Auth.Unmanaged.singleton (.apiKey _)⟩
  | readEphemeral henv =>
    refine ⟨hs, Auth.Unmanaged.singleton ?_⟩
    cases hfound : manager.afterEphemeral s.ephemeral with
    | some found => exact hs.ephemeral henv found hfound
    | none => exact hs.afterPersistent henv hfound
  | readPersistent =>
    rw [hs.unchanged]
    exact ⟨hs, Auth.Unmanaged.singleton hcall⟩
  | loadFail => exact ⟨hs, Auth.Unmanaged.singleton .none⟩
  | cacheRefreshed =>
    have hcached := hs.setCachedAuth hcall
    exact ⟨⟨hcached.submissions, hcached.issued, hcached.cached, hcached.unchanged,
      hcached.ephemeral, hcached.afterPersistent⟩, Auth.Unmanaged.finish _ _⟩
  | cacheReload =>
    have hcached := hs.setCachedAuth hcall
    exact ⟨⟨hcached.submissions, hcached.issued, hcached.cached, hcached.unchanged,
      hcached.ephemeral, hcached.afterPersistent⟩, Auth.Unmanaged.singleton trivial⟩
  | skipReload | createRecovery | readForExternal => exact ⟨hs, Auth.Unmanaged.singleton trivial⟩
  | next => exact ⟨hs, Auth.Unmanaged.next _ _⟩
  | dropRecovery => exact ⟨hs, by simp⟩
  | refreshExternal now hforced hrecord =>
    obtain ⟨tokenInfo, -, rfl⟩ := Option.map_eq_some_iff.1 hrecord
    exact ⟨hs, Auth.Unmanaged.singleton rfl⟩
  | saveExternal => exact ⟨hs.saveExternal hcall, Auth.Unmanaged.singleton trivial⟩

theorem Session.Unmanaged.init {ephemeral : Option AuthDotJson}
    (h : Auth.Unmanaged (manager.loadAuth ephemeral persistent)) :
    (manager.init ephemeral persistent).Unmanaged manager persistent where
  submissions := rfl
  issued := rfl
  cached := h
  unchanged := rfl
  ephemeral henv found hfound := by
    simp only [AuthManager.init] at hfound
    simp only [AuthManager.loadAuth, henv, hfound, Option.getD_some] at h
    exact h
  afterPersistent henv hnone := by
    simp only [AuthManager.init] at hnone
    simp only [AuthManager.loadAuth, henv, hnone, Option.getD_none] at h
    exact h

end Unmanaged

/-! ## Runs -/

/-- Where refreshes go one by one, no token is replayed, and what the last one has brought is stored
and cached in the end. -/
theorem singleUse_of_run {manager : AuthManager} {ephemeral persistent : Option AuthDotJson}
    {c : State} {ls : List (Option Operation)}
    (h : Run (Step Call.Start (OneByOneStep manager)) ⟨manager.init ephemeral persistent, 0⟩ ls c) :
    SingleUse manager c := by
  by_cases hload : Unmanaged (manager.loadAuth ephemeral persistent)
  · have hstart : ∀ {call : Call}, call.Start → call.Unmanaged persistent := fun {call} hcall => by
      cases hcall <;> trivial
    have hunmanaged := h.invariant
      (I := fun c : State => c.shared.Unmanaged manager persistent ∧
        ∀ call ∈ c.calls, call.Unmanaged persistent)
      (fun hc hstep => Step.preserves hstart OneByOneStep.unmanaged hstep hc)
      ⟨.init hload, fun _ hmem => (by cases hmem)⟩
    refine ⟨?_, fun _ response hlast => ?_⟩
    · rw [hunmanaged.1.submissions]
      exact .nil
    · rw [hunmanaged.1.issued] at hlast
      cases hlast
  · simp only [Unmanaged, not_forall] at hload
    obtain ⟨record, storage, hload, hsome⟩ := hload
    obtain ⟨tokens, htokens⟩ := Option.ne_none_iff_exists'.1 hsome
    obtain ⟨henv, hinit⟩ := Serial.init hload htokens
    exact (h.invariant (I := Serial manager storage tokens.refreshToken)
      (fun hc hstep => hc.step henv hstep) hinit).singleUse

/-- Two refreshes, one after the other. -/
theorem singleUse_of_run_refreshes : ∃ ls, ∃ c : State,
    Run (Step Call.Start (OneByOneStep persistentManager))
      ⟨persistentManager.init none (some (recordOf "a" "a1")), 0⟩ ls c ∧
    c.shared.submissions = [("a1".toList, true), ("a2".toList, true)] ∧
    SingleUse persistentManager c := by
  have hrotating : Rotating [] "a1".toList (rotated "a2") := by
    exact ⟨by simp, "a2".toList, rfl, by simp, by decide⟩
  have hrotating' : Rotating [("a1".toList, true)] "a2".toList (rotated "a3") := by
    exact ⟨by decide, "a3".toList, rfl, by decide, by decide⟩
  have hrun : Run (Step Call.Start (OneByOneStep persistentManager))
      ⟨persistentManager.init none (some (recordOf "a" "a1")), 0⟩ _ _ :=
      .cons (.start .refreshToken) <|
      .cons (.beside 0 ⟨.readForRefresh, by trivial⟩ rfl) <|
      .cons (.beside 0 ⟨.submit (rotated "a2") (by exact hrotating), by rfl⟩ rfl) <|
      .cons (.beside 0 ⟨.loadForUpdate 1 rfl rfl, by trivial⟩ rfl) <|
      .cons (.beside 0 ⟨.saveUpdate, by trivial⟩ rfl) <|
      .cons (.beside 0 ⟨.readEphemeral rfl, by trivial⟩ rfl) <|
      .cons (.beside 0 ⟨.readPersistent, by trivial⟩ rfl) <|
      .cons (.beside 0 ⟨.cacheRefreshed, by trivial⟩ rfl) <|
      .cons (.start .refreshToken) <|
      .cons (.beside 0 ⟨.readForRefresh, by trivial⟩ rfl) <|
      .cons (.beside 0 ⟨.submit (rotated "a3") (by exact hrotating'), by rfl⟩ rfl) <|
      .cons (.beside 0 ⟨.loadForUpdate 2 rfl rfl, by trivial⟩ rfl) <|
      .cons (.beside 0 ⟨.saveUpdate, by trivial⟩ rfl) <|
      .cons (.beside 0 ⟨.readEphemeral rfl, by trivial⟩ rfl) <|
      .cons (.beside 0 ⟨.readPersistent, by trivial⟩ rfl) <|
      .single (.beside 0 ⟨.cacheRefreshed, by trivial⟩ rfl)
  exact ⟨_, _, hrun, rfl, singleUse_of_run hrun⟩

/-- Two calls read the same token, and the second submits it after it has been accepted. -/
theorem replayed : ∃ ls, ∃ c : State,
    Run (Step Call.Start (CallStep persistentManager Rotating))
      ⟨persistentManager.init none (some (recordOf "a" "a1")), 0⟩ ls c ∧
    c.shared.submissions = [("a1".toList, true), ("a1".toList, false)] ∧
    ¬ SingleUse persistentManager c := by
  have hrotating : Rotating [] "a1".toList (rotated "a2") := by
    exact ⟨by simp, "a2".toList, rfl, by simp, by decide⟩
  have hrun : ∃ ls, ∃ c : State, Run (Step Call.Start (CallStep persistentManager Rotating))
      ⟨persistentManager.init none (some (recordOf "a" "a1")), 0⟩ ls c ∧
      c.shared.submissions = [("a1".toList, true), ("a1".toList, false)] :=
    ⟨_, _,
      .cons (.start .refreshToken) <|
      .cons (.start .refreshToken) <|
      .cons (.beside {.refreshing .refreshToken} .readForRefresh rfl) <|
      .cons (.beside {.submitting .refreshToken (some "a".toList) .persistent
        ((recordOf "a" "a1").tokens.getD .default) 0} .readForRefresh (Multiset.cons_swap _ _ 0)) <|
      .cons (.beside {.submitting .refreshToken (some "a".toList) .persistent
        ((recordOf "a" "a1").tokens.getD .default) 0} (.submit (rotated "a2") (by exact hrotating)) rfl) <|
      .single (.beside {.updating .refreshToken (some "a".toList) .persistent (rotated "a2")}
        .refuse (Multiset.cons_swap _ _ 0)), rfl⟩
  obtain ⟨ls, c, hrun, hsubmissions⟩ := hrun
  refine ⟨ls, c, hrun, hsubmissions, fun hsingle => ?_⟩
  have hpairwise := hsingle.submissions
  rw [hsubmissions] at hpairwise
  exact (List.pairwise_cons.1 hpairwise).1 _ (List.mem_singleton_self _) rfl rfl

end SheriMl.Auth
