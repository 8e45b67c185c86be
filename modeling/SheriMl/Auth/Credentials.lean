import SheriMl.Lib.Str

/-!
# Credentials

`AuthDotJson` and `TokenData` of `core/src/auth/storage.rs` and `core/src/token_data.rs`, with the
functions of `core/src/auth.rs` that read and make them. `parse_chatgpt_jwt_claims` is a parameter,
and a time is in milliseconds.
-/

namespace SheriMl.Auth

inductive KnownPlan where
  | free
  | go
  | plus
  | pro
  | team
  | business
  | enterprise
  | edu
  deriving DecidableEq

inductive PlanType where
  | known (plan : KnownPlan)
  | unknown (raw : Str)
  deriving DecidableEq

def PlanType.fromRawValue (raw : Str) : PlanType :=
  let lower := raw.toAsciiLowercase
  if lower = "free".toList then .known .free
  else if lower = "go".toList then .known .go
  else if lower = "plus".toList then .known .plus
  else if lower = "pro".toList then .known .pro
  else if lower = "team".toList then .known .team
  else if lower = "business".toList then .known .business
  else if lower = "enterprise".toList then .known .enterprise
  else if lower = "education".toList ∨ lower = "edu".toList then .known .edu
  else .unknown raw

structure IdTokenInfo where
  email : Option Str
  chatgptPlanType : Option PlanType
  chatgptUserId : Option Str
  chatgptAccountId : Option Str
  rawJwt : Str
  deriving DecidableEq

structure TokenData where
  idToken : IdTokenInfo
  accessToken : Str
  refreshToken : Str
  accountId : Option Str
  deriving DecidableEq

def TokenData.default : TokenData := ⟨⟨none, none, none, none, []⟩, [], [], none⟩

inductive AuthMode where
  | apiKey
  | chatgpt
  | chatgptAuthTokens
  deriving DecidableEq

structure AuthDotJson where
  authMode : Option AuthMode
  openaiApiKey : Option Str
  tokens : Option TokenData
  lastRefresh : Option Int
  deriving DecidableEq

structure ExternalAuthTokens where
  accessToken : Str
  chatgptAccountId : Str
  chatgptPlanType : Option Str

structure RefreshResponse where
  idToken : Option Str
  accessToken : Option Str
  refreshToken : Option Str

/-- The stores that credentials are loaded from: the one in memory comes first. -/
inductive StorageMode where
  | ephemeral
  | persistent
  deriving DecidableEq

inductive CodexAuth where
  | apiKey (apiKey : Str)
  | chatgpt (authDotJson : AuthDotJson) (storage : StorageMode)
  | chatgptAuthTokens (authDotJson : AuthDotJson)

namespace AuthDotJson

variable (auth : AuthDotJson)

def resolvedMode : AuthMode :=
  match auth.authMode with
  | some mode => mode
  | none => if auth.openaiApiKey.isSome then .apiKey else .chatgpt

/-- The account that the record belongs to. -/
def accountId : Option Str := auth.tokens.bind TokenData.accountId

def refreshToken? : Option Str := auth.tokens.map TokenData.refreshToken

def fromExternalTokens (parseChatgptJwtClaims : Str → Option IdTokenInfo)
    (external : ExternalAuthTokens) (now : Int) : Option AuthDotJson :=
  (parseChatgptJwtClaims external.accessToken).map fun tokenInfo =>
    { authMode := some .chatgptAuthTokens
      openaiApiKey := none
      tokens := some
        { idToken :=
            { tokenInfo with
              chatgptAccountId := some external.chatgptAccountId
              chatgptPlanType := ((external.chatgptPlanType.map PlanType.fromRawValue).or
                tokenInfo.chatgptPlanType).or (some (.unknown "unknown".toList)) }
          accessToken := external.accessToken
          refreshToken := []
          accountId := some external.chatgptAccountId }
      lastRefresh := some now }

/-- The record that `update_tokens` makes of the one it has loaded. -/
def updateTokens (parseChatgptJwtClaims : Str → Option IdTokenInfo) (response : RefreshResponse)
    (now : Int) : Option AuthDotJson :=
  let tokens := auth.tokens.getD .default
  let idToken :=
    match response.idToken with
    | some idToken => parseChatgptJwtClaims idToken
    | none => some tokens.idToken
  idToken.map fun idToken =>
    { auth with
      tokens := some
        { tokens with
          idToken
          accessToken := response.accessToken.getD tokens.accessToken
          refreshToken := response.refreshToken.getD tokens.refreshToken }
      lastRefresh := some now }

end AuthDotJson

namespace CodexAuth

/-- `from_auth_dot_json`, of a record from the store. -/
def fromAuthDotJson (authDotJson : AuthDotJson) (storage : StorageMode) : Option CodexAuth :=
  match authDotJson.resolvedMode with
  | .apiKey => authDotJson.openaiApiKey.map apiKey
  | .chatgpt => some (chatgpt authDotJson storage)
  | .chatgptAuthTokens => some (chatgptAuthTokens authDotJson)

def getCurrentAuthJson : CodexAuth → Option AuthDotJson
  | chatgpt authDotJson _ | chatgptAuthTokens authDotJson => some authDotJson
  | apiKey _ => none

def getAccountId (auth : CodexAuth) : Option Str :=
  auth.getCurrentAuthJson.bind AuthDotJson.accountId

def isChatgptAuth : CodexAuth → Bool
  | apiKey _ => false
  | chatgpt _ _ | chatgptAuthTokens _ => true

def isExternalChatgptTokens : CodexAuth → Bool
  | chatgptAuthTokens _ => true
  | apiKey _ | chatgpt _ _ => false

/-- In milliseconds. -/
def tokenRefreshInterval : Int := 8 * 24 * 60 * 60 * 1000

/-- What `refresh_if_stale` refreshes. -/
def staleTokens (now : Int) : CodexAuth → Option (AuthDotJson × StorageMode × TokenData)
  | chatgpt authDotJson storage =>
    match authDotJson.tokens, authDotJson.lastRefresh with
    | some tokens, some lastRefresh =>
      if lastRefresh ≥ now - tokenRefreshInterval then none
      else some (authDotJson, storage, tokens)
    | _, _ => none
  | apiKey _ | chatgptAuthTokens _ => none

end CodexAuth

/-! ## The account of a record -/

/-- A refresh keeps the account of the record that it goes into. -/
theorem AuthDotJson.accountId_of_updateTokens {auth auth' : AuthDotJson}
    {parse : Str → Option IdTokenInfo} {response : RefreshResponse} {now : Int}
    (h : auth.updateTokens parse response now = some auth') : auth'.accountId = auth.accountId := by
  obtain ⟨idToken, -, rfl⟩ := Option.map_eq_some_iff.1 h
  cases htokens : auth.tokens with
  | none =>
    simp only [accountId, htokens]
    rfl
  | some tokens => simp only [accountId, htokens, Option.getD_some, Option.bind_some]

/-- The account of what a record gives, unless it gives an API key. -/
theorem CodexAuth.getAccountId_of_fromAuthDotJson {authDotJson : AuthDotJson}
    {storage : StorageMode} {auth : CodexAuth} (h : fromAuthDotJson authDotJson storage = some auth) :
    auth.getAccountId = none ∨ auth.getAccountId = authDotJson.accountId := by
  unfold fromAuthDotJson at h
  split at h
  · obtain ⟨apiKey, -, rfl⟩ := Option.map_eq_some_iff.1 h
    exact .inl rfl
  · obtain rfl := Option.some.inj h
    exact .inr rfl
  · obtain rfl := Option.some.inj h
    exact .inr rfl

end SheriMl.Auth
