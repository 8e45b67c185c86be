import SheriMl.Auth.Credentials
import SheriMl.Lib.Pool

/-!
# The auth manager

`auth`, `refresh_token` and `UnauthorizedRecovery` of `core/src/auth.rs` on one `AuthManager`. Each
access to a store or to the cached auth, and each request to the endpoint, is one step of a call
(`CallStep`), and any number of calls are under way. The endpoint is a parameter: whether it may
accept a refresh token with a response, given what was submitted before. Another process replaces
or removes the credentials in the persistent store.
-/

namespace SheriMl.Auth

open Pool

/-- The settings of a manager, with what it calls. -/
structure AuthManager where
  apiKeyEnv : Option Str
  /-- the credentials store mode is `Ephemeral` -/
  ephemeralOnly : Bool
  hasExternalRefresher : Bool
  forcedChatgptWorkspaceId : Option Str
  parseChatgptJwtClaims : Str → Option IdTokenInfo

inductive UnauthorizedRecoveryStep where
  | reload
  | refreshToken
  | externalRefresh
  | done
  deriving DecidableEq

inductive UnauthorizedRecoveryMode where
  | managed
  | external
  deriving DecidableEq

structure UnauthorizedRecovery where
  step : UnauthorizedRecoveryStep
  expectedAccountId : Option Str
  mode : UnauthorizedRecoveryMode

def UnauthorizedRecovery.new (cachedAuth : Option CodexAuth) : UnauthorizedRecovery :=
  if cachedAuth.any CodexAuth.isExternalChatgptTokens then
    ⟨.externalRefresh, cachedAuth.bind CodexAuth.getAccountId, .external⟩
  else ⟨.reload, cachedAuth.bind CodexAuth.getAccountId, .managed⟩

/-- What refreshes the tokens. -/
inductive Caller where
  | auth
  | refreshToken
  | recovery (recovery : UnauthorizedRecovery)

/-- What the stored credentials are loaded for. -/
inductive Goal where
  /-- `reload`, after a refresh -/
  | refreshed (caller : Caller) (external : Bool)
  /-- `reload_if_account_id_matches` -/
  | recoveryReload (recovery : UnauthorizedRecovery) (expectedAccountId : Str)

inductive Call where
  /-- `auth`, before it reads the cached auth -/
  | auth
  /-- `refresh_token`, before it reads the cached auth -/
  | refreshing (caller : Caller)
  /-- the tokens of the account are submitted; `settled` refreshes had reloaded the cache when they
  were read -/
  | submitting (caller : Caller) (accountId : Option Str) (storage : StorageMode)
      (tokens : TokenData) (settled : Nat)
  /-- `update_tokens`, before it loads -/
  | updating (caller : Caller) (accountId : Option Str) (storage : StorageMode)
      (response : RefreshResponse)
  | saving (caller : Caller) (accountId : Option Str) (storage : StorageMode)
      (record : AuthDotJson)
  /-- `load_auth`, before it reads the ephemeral store -/
  | loading (goal : Goal)
  | loadingPersistent (goal : Goal)
  | loaded (goal : Goal) (auth : Option CodexAuth)
  | creatingRecovery
  /-- between two calls of `next` -/
  | recovery (recovery : UnauthorizedRecovery)
  /-- `refresh_external_auth`, before it reads the cached auth -/
  | refreshingExternal (caller : Caller)
  | askingExternal (caller : Caller) (previousAccountId : Option Str)
  | savingExternal (caller : Caller) (record : AuthDotJson)
  /-- of another process -/
  | otherSave (record : AuthDotJson)
  | otherLogout

/-- What is left of a refresh that has returned. -/
def Caller.finish : Caller → Bool → Multiset Call
  | .auth, _ | .refreshToken, _ => 0
  | .recovery r, true => {.recovery { r with step := .done }}
  | .recovery r, false => {.recovery r}

def Caller.expectedAccountId : Caller → Option Str
  | .recovery r => r.expectedAccountId
  | .auth | .refreshToken => none

structure Session where
  ephemeral : Option AuthDotJson
  persistent : Option AuthDotJson
  cached : Option CodexAuth
  /-- the refresh tokens, with whether the endpoint accepted them -/
  submissions : List (Str × Bool)
  /-- the responses of the refreshes that were accepted -/
  issued : List RefreshResponse
  /-- the number of refreshes that have reloaded the cache -/
  settled : Nat
  /-- the account of each record that `update_tokens` saved, and of the tokens it put into it -/
  updates : List (Option Str × Option Str)
  /-- the account that each recovery expected, and of the auth that it put into the cache -/
  recovered : List (Option Str × Option Str)

namespace Session

variable (s : Session)

def stored : StorageMode → Option AuthDotJson
  | .ephemeral => s.ephemeral
  | .persistent => s.persistent

def save (storage : StorageMode) (record : AuthDotJson) : Session :=
  match storage with
  | .ephemeral => { s with ephemeral := some record }
  | .persistent => { s with persistent := some record }

def submit (token : Str) (accepts : Bool) : Session :=
  { s with submissions := s.submissions ++ [(token, accepts)] }

def issue (response : RefreshResponse) : Session := { s with issued := s.issued ++ [response] }

def settle (external : Bool) : Session :=
  { s with settled := if external then s.settled else s.settled + 1 }

def setCachedAuth (auth : Option CodexAuth) : Session := { s with cached := auth }

def logUpdate (recordAccountId accountId : Option Str) : Session :=
  { s with updates := s.updates ++ [(recordAccountId, accountId)] }

def logRecovered (expectedAccountId : Option Str) (auth : Option CodexAuth) : Session :=
  { s with recovered := s.recovered ++ [(expectedAccountId, auth.bind CodexAuth.getAccountId)] }

end Session

namespace AuthManager

variable (manager : AuthManager)

/-- What `load_auth` returns when it has read the ephemeral store, unless it reads the other. -/
def afterEphemeral : Option AuthDotJson → Option (Option CodexAuth)
  | some record => some (CodexAuth.fromAuthDotJson record .ephemeral)
  | none => if manager.ephemeralOnly then some none else none

def afterPersistent (stored : Option AuthDotJson) : Option CodexAuth :=
  stored.bind fun record => CodexAuth.fromAuthDotJson record .persistent

def loadAuth (ephemeral persistent : Option AuthDotJson) : Option CodexAuth :=
  match manager.apiKeyEnv with
  | some apiKey => some (.apiKey apiKey)
  | none => (manager.afterEphemeral ephemeral).getD (afterPersistent persistent)

/-- A new manager. -/
def init (ephemeral persistent : Option AuthDotJson) : Session :=
  { ephemeral, persistent, cached := manager.loadAuth ephemeral persistent
    submissions := [], issued := [], settled := 0, updates := [], recovered := [] }

end AuthManager

/-- `auth`, when it has read the cached auth. -/
def afterAuthRead (now : Int) (settled : Nat) (cached : Option CodexAuth) : Multiset Call :=
  match cached.bind (CodexAuth.staleTokens now) with
  | some (authDotJson, storage, tokens) =>
    {.submitting .auth authDotJson.accountId storage tokens settled}
  | none => 0

/-- `refresh_token`, when it has read the cached auth. -/
def afterRefreshRead (caller : Caller) (settled : Nat) : Option CodexAuth → Multiset Call
  | some (.chatgpt authDotJson storage) =>
    match authDotJson.tokens with
    | some tokens => {.submitting caller authDotJson.accountId storage tokens settled}
    | none => caller.finish false
  | some (.chatgptAuthTokens _) => {.refreshingExternal caller}
  | some (.apiKey _) | none => caller.finish true

namespace UnauthorizedRecovery

variable (recovery : UnauthorizedRecovery)

def hasNext (manager : AuthManager) (cached : Option CodexAuth) : Bool :=
  if ¬ cached.any CodexAuth.isChatgptAuth then false
  else if recovery.mode = .external ∧ ¬ manager.hasExternalRefresher then false
  else recovery.step ≠ .done

/-- `next`, when it has read the cached auth. -/
def next (manager : AuthManager) (cached : Option CodexAuth) : Multiset Call :=
  if recovery.hasNext manager cached then
    match recovery.step with
    | .reload =>
      match recovery.expectedAccountId with
      | some accountId => {.loading (.recoveryReload recovery accountId)}
      | none => {.refreshing (.recovery recovery)}
    | .refreshToken => {.refreshing (.recovery recovery)}
    | .externalRefresh => {.refreshingExternal (.recovery recovery)}
    | .done => {.recovery recovery}
  else {.recovery recovery}

end UnauthorizedRecovery

/-- The caller of a refresh that may fail where it is. -/
def Call.fallible? : Call → Option Caller
  | updating caller .. | saving caller .. | refreshingExternal caller | askingExternal caller _
  | savingExternal caller _ => some caller
  | _ => none

inductive Call.Start : Call → Prop
  | auth : Start .auth
  | refreshToken : Start (.refreshing .refreshToken)
  | createRecovery : Start .creatingRecovery

inductive Call.Other : Call → Prop
  | save (record : AuthDotJson) : Other (.otherSave record)
  | logout : Other .otherLogout

inductive Operation where
  | readForAuth
  | readForRefresh
  | submitted
  | refused
  | lostResponse
  | loadedForUpdate
  | savedUpdate
  | failed
  | usedEnv
  | readEphemeral
  | readPersistent
  | loadFailed
  | cachedRefreshed
  | cachedReload
  | skippedReload
  | createdRecovery
  | tookNext
  | droppedRecovery
  | readForExternal
  | refreshedExternal
  | savedExternal
  | otherSaved
  | otherLoggedOut

inductive CallStep (manager : AuthManager)
    (endpoint : List (Str × Bool) → Str → RefreshResponse → Prop) :
    Session → Call → Operation → Session → Multiset Call → Prop
  | readForAuth {s} (now : Int) :
      CallStep manager endpoint s .auth .readForAuth s
        (afterAuthRead now s.settled s.cached)
  | readForRefresh {s caller} :
      CallStep manager endpoint s (.refreshing caller) .readForRefresh s
        (afterRefreshRead caller s.settled s.cached)
  | submit {s caller accountId storage tokens settled} (response : RefreshResponse)
      (h : endpoint s.submissions tokens.refreshToken response) :
      CallStep manager endpoint s (.submitting caller accountId storage tokens settled) .submitted
        ((s.submit tokens.refreshToken true).issue response)
        {.updating caller accountId storage response}
  | refuse {s caller accountId storage tokens settled} :
      CallStep manager endpoint s (.submitting caller accountId storage tokens settled) .refused
        (s.submit tokens.refreshToken false) (caller.finish false)
  -- the token is accepted, and the response does not arrive
  | lose {s caller accountId storage tokens settled} (response : RefreshResponse)
      (h : endpoint s.submissions tokens.refreshToken response) :
      CallStep manager endpoint s (.submitting caller accountId storage tokens settled)
        .lostResponse ((s.submit tokens.refreshToken true).issue response) (caller.finish false)
  | loadForUpdate {s caller accountId storage response record record'} (now : Int)
      (hstored : s.stored storage = some record)
      (hrecord : record.updateTokens manager.parseChatgptJwtClaims response now = some record') :
      CallStep manager endpoint s (.updating caller accountId storage response) .loadedForUpdate s
        {.saving caller accountId storage record'}
  | saveUpdate {s caller accountId storage record} :
      CallStep manager endpoint s (.saving caller accountId storage record) .savedUpdate
        ((s.save storage record).logUpdate record.accountId accountId)
        {.loading (.refreshed caller false)}
  | fail {s call caller} (h : call.fallible? = some caller) :
      CallStep manager endpoint s call .failed s (caller.finish false)
  | useEnv {s goal apiKey} (h : manager.apiKeyEnv = some apiKey) :
      CallStep manager endpoint s (.loading goal) .usedEnv s {.loaded goal (some (.apiKey apiKey))}
  | readEphemeral {s goal} (h : manager.apiKeyEnv = none) :
      CallStep manager endpoint s (.loading goal) .readEphemeral s
        {match manager.afterEphemeral s.ephemeral with
          | some auth => .loaded goal auth
          | none => .loadingPersistent goal}
  | readPersistent {s goal} :
      CallStep manager endpoint s (.loadingPersistent goal) .readPersistent s
        {.loaded goal (AuthManager.afterPersistent s.persistent)}
  | loadFail {s call goal} (h : call = .loading goal ∨ call = .loadingPersistent goal) :
      CallStep manager endpoint s call .loadFailed s {.loaded goal none}
  | cacheRefreshed {s caller external auth} :
      CallStep manager endpoint s (.loaded (.refreshed caller external) auth) .cachedRefreshed
        (((s.setCachedAuth auth).settle external).logRecovered caller.expectedAccountId auth)
        (caller.finish true)
  | cacheReload {s recovery expectedAccountId auth}
      (h : auth.bind CodexAuth.getAccountId = some expectedAccountId) :
      CallStep manager endpoint s (.loaded (.recoveryReload recovery expectedAccountId) auth)
        .cachedReload ((s.setCachedAuth auth).logRecovered recovery.expectedAccountId auth)
        {.recovery { recovery with step := .refreshToken }}
  | skipReload {s recovery expectedAccountId auth}
      (h : auth.bind CodexAuth.getAccountId ≠ some expectedAccountId) :
      CallStep manager endpoint s (.loaded (.recoveryReload recovery expectedAccountId) auth)
        .skippedReload s {.refreshing (.recovery recovery)}
  | createRecovery {s} :
      CallStep manager endpoint s .creatingRecovery .createdRecovery s
        {.recovery (.new s.cached)}
  | next {s recovery} :
      CallStep manager endpoint s (.recovery recovery) .tookNext s (recovery.next manager s.cached)
  | dropRecovery {s recovery} :
      CallStep manager endpoint s (.recovery recovery) .droppedRecovery s 0
  | readForExternal {s caller} (h : manager.hasExternalRefresher = true) :
      CallStep manager endpoint s (.refreshingExternal caller) .readForExternal s
        {.askingExternal caller (s.cached.bind CodexAuth.getAccountId)}
  | refreshExternal {s caller previousAccountId external record} (now : Int)
      (hforced : ∀ expected, manager.forcedChatgptWorkspaceId = some expected →
        external.chatgptAccountId = expected)
      (hrecord : AuthDotJson.fromExternalTokens manager.parseChatgptJwtClaims external now =
        some record) :
      CallStep manager endpoint s (.askingExternal caller previousAccountId) .refreshedExternal s
        {.savingExternal caller record}
  | saveExternal {s caller record} :
      CallStep manager endpoint s (.savingExternal caller record) .savedExternal
        (s.save .ephemeral record) {.loading (.refreshed caller true)}
  | otherSave {s record} :
      CallStep manager endpoint s (.otherSave record) .otherSaved
        (s.save .persistent record) 0
  | otherLogout {s} :
      CallStep manager endpoint s .otherLogout .otherLoggedOut { s with persistent := none } 0

abbrev State := Config Session Call

/-- A manager of persistent credentials, for runs on fixed inputs. -/
def persistentManager : AuthManager := ⟨none, false, false, none, fun _ => none⟩

def recordOf (accountId refreshToken : String) : AuthDotJson :=
  { authMode := some .chatgpt
    openaiApiKey := none
    tokens := some { TokenData.default with
      refreshToken := refreshToken.toList, accountId := some accountId.toList }
    lastRefresh := some 0 }

def rotated (refreshToken : String) : RefreshResponse := ⟨none, none, some refreshToken.toList⟩

end SheriMl.Auth
