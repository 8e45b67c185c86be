import Mathlib.Logic.Function.Basic
import SheriMl.Lib.Pool
import SheriMl.Lib.Str

/-!
# The auth service

The handlers of `heysalad-sheri-auth/src/index.ts`. A request in progress is known by the database
statement that it awaits, or by the test of the clock that comes after one; each is one step. Any
statement may throw, and the request ends with an internal error.

`generateToken` draws 128 random bits: a token is taken to be new when its row is inserted, to the
database and to whoever presented one until then.
-/

namespace SheriMl.SheriAuth

open Pool

/-! ## The database -/

inductive Plan where
  | free
  | pro
  | enterprise
  deriving DecidableEq

structure UserRow where
  id : Str
  email : Str
  passwordHash : Str
  plan : Plan
  createdAt : Int
  deriving DecidableEq

structure TokenRow where
  token : Str
  userId : Str
  expiresAt : Int
  createdAt : Int
  lastUsedAt : Option Int
  deriving DecidableEq

structure UsageRow where
  userId : Str
  date : Str
  requests : Int
  tokensUsed : Int

/-- The tables and the clock, in seconds. -/
structure Db where
  users : List UserRow
  authTokens : List TokenRow
  usage : List UsageRow
  now : Int
  /-- whom each token was issued to, whether or not its row is still there -/
  owner : Str → Option Str
  /-- the tokens whose rows were deleted -/
  revoked : List Str
  /-- the tokens that requests have presented -/
  presented : List Str

namespace Db

variable (db : Db)

def findToken (token : Str) : Option TokenRow := db.authTokens.find? fun row => row.token = token

def insertToken (row : TokenRow) : Db :=
  { db with
    authTokens := db.authTokens ++ [row]
    owner := Function.update db.owner row.token (some row.userId) }

def deleteToken (token : Str) : Db :=
  { db with
    authTokens := db.authTokens.filter fun row => row.token ≠ token
    revoked := token :: db.revoked }

def touchToken (token : Str) (time : Int) : Db :=
  { db with
    authTokens := db.authTokens.map fun row =>
      if row.token = token then { row with lastUsedAt := some time } else row }

end Db

/-! ## Requests and responses -/

/-- What the service takes from elsewhere. -/
structure Env where
  hashPassword : Str → Str
  dateOf : Int → Str
  /-- what `parseInt` makes of `TOKEN_EXPIRY_DAYS`, unless that is no number -/
  tokenExpiryDays : Option Int

/-- Email and password, or `none` for a body that does not parse. -/
abbrev Credentials := Option (Option Str × Option Str)

inductive Request where
  | register (body : Credentials)
  | login (body : Credentials)
  | me (authorization : Option Str)
  | logout (authorization : Option Str)
  | generateToken (authorization : Option Str)
  | revokeToken (authorization : Option Str) (body : Option (Option Str))
  | listTokens (authorization : Option Str)
  deriving DecidableEq

structure TokenInfo where
  token : Str
  createdAt : Int
  expiresAt : Int
  lastUsedAt : Option Int
  isCurrent : Bool
  isExpired : Bool
  deriving DecidableEq

inductive Response where
  | error (message : Str) (status : Nat)
  | message (message : Str)
  | session (id email : Str) (plan : Plan) (token : Str) (expiresAt : Int)
  | me (id email : Str) (plan : Plan) (createdAt : Int) (today limits : Int × Int)
  | generated (token : Str) (expiresAt : Int)
  | tokens (tokens : List TokenInfo)
  deriving DecidableEq

def internalError : Response := .error "Internal server error".toList 500

/-- `authHeader.substring(7)`, if the header starts with `Bearer `. -/
def bearer (authorization : Option Str) : Option Str :=
  authorization.bind fun header =>
    if ("Bearer ".toList : Str).isPrefixOf header then some (header.drop 7) else none

/-- A string counts as true unless it is missing or empty. -/
def given (value : Option Str) : Option Str := value.filter fun text => !text.isEmpty

/-- `\s` of a regular expression. -/
def isJsSpace (c : Char) : Bool :=
  c.toNat ∈ [0x9, 0xA, 0xB, 0xC, 0xD, 0x20, 0xA0, 0x1680, 0x2028, 0x2029, 0x202F, 0x205F, 0x3000,
    0xFEFF] || (0x2000 ≤ c.toNat && c.toNat ≤ 0x200A)

/-- `/^[^\s@]+@[^\s@]+\.[^\s@]+$/`. -/
def isEmail (email : Str) : Bool :=
  let name := email.takeWhile (· ≠ '@')
  let domain := (email.dropWhile (· ≠ '@')).drop 1
  List.contains email '@' && !name.isEmpty && !List.contains domain '@' && !email.any isJsSpace &&
    List.contains (domain.drop 1).dropLast '.'

/-- `hsa_` and 32 hexadecimal digits. -/
def isGenerated (token : Str) : Bool :=
  ("hsa_".toList : Str).isPrefixOf token && token.length = 36 &&
    (token.drop 4).all fun c => c ∈ "0123456789abcdef".toList

def limits : Plan → Int × Int
  | .free => (100, 50000)
  | .pro => (2000, 500000)
  | .enterprise => (-1, -1)

/-! ## Requests in progress -/

/-- The token that a request presents, with the `expires_at` of its row, if there was one, and the
time when the request arrived. -/
structure Presented where
  token : Str
  atArrival : Option Int
  arrivedAt : Int
  deriving DecidableEq

/-- When the request arrived, the token was in the database and not past its `expires_at`. -/
def Presented.valid (p : Presented) : Bool :=
  p.atArrival.any fun expiresAt => !(expiresAt < p.arrivedAt)

/-- The handlers that test the presented token in the same way. -/
inductive Checked where
  | me
  | generateToken
  | listTokens
  deriving DecidableEq

/-- What is answered when a token has been issued. -/
inductive Reply where
  | session (id email : Str) (plan : Plan)
  | generated
  deriving DecidableEq

def Reply.response (token : Str) (expiresAt : Int) : Reply → Response
  | .session id email plan => .session id email plan token expiresAt
  | .generated => .generated token expiresAt

inductive Call where
  | arriving (request : Request)
  | registerExisting (email password : Str)
  | registerUser (email password : Str)
  | loginUser (email password : Str)
  /-- `SELECT user_id, expires_at` for the presented token -/
  | reading (handler : Checked) (presented : Presented)
  | checking (handler : Checked) (presented : Presented) (userId : Str) (expiresAt : Int)
  | meTouching (presented : Presented) (userId : Str) (now : Int)
  | meUser (presented : Presented) (userId : Str)
  | meUsage (presented : Presented) (user : UserRow)
  | logout (presented : Presented)
  | revokeCurrent (presented : Presented) (token : Str)
  | revokeTarget (presented : Presented) (token userId : Str)
  | revokeDeleting (presented : Presented) (token : Str)
  | listing (presented : Presented) (userId : Str) (now : Int)
  /-- the clock is to be read for a new token, on the authority of a presented one or a password -/
  | expiring (authority : Option Presented) (userId : Str) (reply : Reply)
  | issuing (authority : Option Presented) (userId : Str) (expiresAt : Int) (reply : Reply)
  | responding (authority : Option Presented) (response : Response)
  | clock
  deriving DecidableEq

def present (db : Db) (token : Str) : Presented where
  token := token
  atArrival := (db.findToken token).map TokenRow.expiresAt
  arrivedAt := db.now

/-- A handler that requires the header. -/
def authorized (db : Db) (authorization : Option Str) (handle : Presented → Call) : Call :=
  match bearer authorization with
  | some token => handle (present db token)
  | none => .responding none (.error "Authorization header required".toList 401)

/-- The handler up to its first statement. -/
def begin (db : Db) : Request → Call
  | .register none | .login none => .responding none internalError
  | .register (some (email, password)) =>
    match given email, given password with
    | some email, some password =>
      if isEmail email then .registerExisting email password
      else .responding none (.error "Invalid email format".toList 400)
    | _, _ => .responding none (.error "Email and password required".toList 400)
  | .login (some (email, password)) =>
    match given email, given password with
    | some email, some password => .loginUser email password
    | _, _ => .responding none (.error "Email and password required".toList 400)
  | .me authorization => authorized db authorization (.reading .me)
  | .logout authorization => authorized db authorization .logout
  | .generateToken authorization => authorized db authorization (.reading .generateToken)
  | .revokeToken authorization body =>
    authorized db authorization fun p =>
      match body with
      | none => .responding (some p) internalError
      | some token =>
        match given token with
        | some token => .revokeCurrent p token
        | none => .responding (some p) (.error "Token to revoke required".toList 400)
  | .listTokens authorization => authorized db authorization (.reading .listTokens)

def Request.presents : Request → Option Str
  | .register _ | .login _ => none
  | .me authorization | .logout authorization | .generateToken authorization
  | .revokeToken authorization _ | .listTokens authorization => bearer authorization

def Checked.next (p : Presented) (userId : Str) (now : Int) : Checked → Call
  | .me => .meTouching p userId now
  | .generateToken => .expiring (some p) userId .generated
  | .listTokens => .listing p userId now

def tokenInfo (now : Int) (currentToken : Str) (row : TokenRow) : TokenInfo where
  token := row.token
  createdAt := row.createdAt
  expiresAt := row.expiresAt
  lastUsedAt := row.lastUsedAt
  isCurrent := row.token = currentToken
  isExpired := row.expiresAt < now

/-- `ORDER BY created_at DESC`. -/
def tokensOf (db : Db) (userId : Str) : List TokenRow :=
  (db.authTokens.filter fun row => row.userId = userId).mergeSort fun row row' =>
    decide (row'.createdAt ≤ row.createdAt)

def meResponse (db : Db) (env : Env) (user : UserRow) : Response :=
  let usage := db.usage.find? fun row => row.userId = user.id ∧ row.date = env.dateOf db.now
  .me user.id user.email user.plan user.createdAt
    ((usage.map UsageRow.requests).getD 0, (usage.map UsageRow.tokensUsed).getD 0)
    (limits user.plan)

/-- What a step does to the rows of the tokens, or answers, and on whose authority. -/
inductive Event where
  | arrive (request : Request)
  | insert (authority : Option Presented) (row : TokenRow)
  | delete (authority : Presented) (token : Str)
  | touch (authority : Presented) (token : Str)
  | respond (authority : Option Presented) (response : Response)
  | other

/-- Who a request in progress has presented a token as. -/
def Call.authority : Call → Option Presented
  | .reading _ p | .checking _ p _ _ | .meTouching p _ _ | .meUser p _ | .meUsage p _ | .logout p
  | .revokeCurrent p _ | .revokeTarget p _ _ | .revokeDeleting p _ | .listing p _ _ => some p
  | .expiring authority _ _ | .issuing authority _ _ _ | .responding authority _ => authority
  | .arriving _ | .registerExisting _ _ | .registerUser _ _ | .loginUser _ _ | .clock => none

/-- The call is a handler between its arrival and its response. -/
def Call.inProgress : Call → Bool
  | .arriving _ | .responding _ _ | .clock => false
  | _ => true

inductive CallStep (env : Env) : Db → Call → Event → Db → Multiset Call → Prop
  | arrive {db request} : CallStep env db (.arriving request) (.arrive request)
      { db with presented := request.presents.toList ++ db.presented } {begin db request}
  | fail {db k} : k.inProgress = true →
      CallStep env db k .other db {.responding k.authority internalError}
  | registerExists {db email password} : (∃ user ∈ db.users, user.email = email) →
      CallStep env db (.registerExisting email password) .other db
        {.responding none (.error "User already exists".toList 409)}
  | registerNew {db email password} : (∀ user ∈ db.users, user.email ≠ email) →
      CallStep env db (.registerExisting email password) .other db {.registerUser email password}
  -- the constraints of the table
  | registerUser {db email password} (id : Str) :
      (∀ user ∈ db.users, user.id ≠ id ∧ user.email ≠ email) →
      CallStep env db (.registerUser email password) .other
        { db with users := db.users ++ [⟨id, email, env.hashPassword password, .free, db.now⟩] }
        {.expiring none id (.session id email .free)}
  | loginUnknown {db email password} : (∀ user ∈ db.users, user.email ≠ email) →
      CallStep env db (.loginUser email password) .other db
        {.responding none (.error "Invalid credentials".toList 401)}
  | loginRefused {db email password user} : user ∈ db.users → user.email = email →
      env.hashPassword password ≠ user.passwordHash →
      CallStep env db (.loginUser email password) .other db
        {.responding none (.error "Invalid credentials".toList 401)}
  | login {db email password user} : user ∈ db.users → user.email = email →
      env.hashPassword password = user.passwordHash →
      CallStep env db (.loginUser email password) .other db
        {.expiring none user.id (.session user.id user.email user.plan)}
  | tokenUnknown {db handler p} : db.findToken p.token = none →
      CallStep env db (.reading handler p) .other db
        {.responding (some p) (.error "Invalid token".toList 401)}
  | tokenFound {db handler p row} : db.findToken p.token = some row →
      CallStep env db (.reading handler p) .other db
        {.checking handler p row.userId row.expiresAt}
  | tokenExpired {db handler p userId expiresAt} : expiresAt < db.now →
      CallStep env db (.checking handler p userId expiresAt) .other db
        {.responding (some p) (.error "Token expired".toList 401)}
  | tokenValid {db handler p userId expiresAt} : ¬expiresAt < db.now →
      CallStep env db (.checking handler p userId expiresAt) .other db
        {handler.next p userId db.now}
  | meTouch {db p userId now} : CallStep env db (.meTouching p userId now) (.touch p p.token)
      (db.touchToken p.token now) {.meUser p userId}
  | meNoUser {db p userId} : (∀ user ∈ db.users, user.id ≠ userId) →
      CallStep env db (.meUser p userId) .other db
        {.responding (some p) (.error "User not found".toList 404)}
  | meUser {db p userId user} : user ∈ db.users → user.id = userId →
      CallStep env db (.meUser p userId) .other db {.meUsage p user}
  | meUsage {db p user} : CallStep env db (.meUsage p user) .other db
      {.responding (some p) (meResponse db env user)}
  | logout {db p} : (db.findToken p.token).isSome = true →
      CallStep env db (.logout p) (.delete p p.token) (db.deleteToken p.token)
        {.responding (some p) (.message "Logged out successfully".toList)}
  | logoutNothing {db p} : db.findToken p.token = none →
      CallStep env db (.logout p) .other db
        {.responding (some p) (.message "Logged out successfully".toList)}
  | revokeUnknown {db p token} : db.findToken p.token = none →
      CallStep env db (.revokeCurrent p token) .other db
        {.responding (some p) (.error "Invalid token".toList 401)}
  | revokeCurrent {db p token row} : db.findToken p.token = some row →
      CallStep env db (.revokeCurrent p token) .other db {.revokeTarget p token row.userId}
  | revokeForbidden {db p token userId} :
      (∀ row, db.findToken token = some row → row.userId ≠ userId) →
      CallStep env db (.revokeTarget p token userId) .other db
        {.responding (some p) (.error "Token not found or unauthorized".toList 403)}
  | revokeTarget {db p token userId row} : db.findToken token = some row → row.userId = userId →
      CallStep env db (.revokeTarget p token userId) .other db {.revokeDeleting p token}
  | revoke {db p token} : (db.findToken token).isSome = true →
      CallStep env db (.revokeDeleting p token) (.delete p token) (db.deleteToken token)
        {.responding (some p) (.message "Token revoked successfully".toList)}
  | revokeNothing {db p token} : db.findToken token = none →
      CallStep env db (.revokeDeleting p token) .other db
        {.responding (some p) (.message "Token revoked successfully".toList)}
  | list {db p userId now} : CallStep env db (.listing p userId now) .other db
      {.responding (some p) (.tokens ((tokensOf db userId).map (tokenInfo now p.token)))}
  | expire {db authority userId reply days} : env.tokenExpiryDays = some days →
      CallStep env db (.expiring authority userId reply) .other db
        {.issuing authority userId (db.now + days * 24 * 60 * 60) reply}
  | issue {db authority userId expiresAt reply} (token : Str) : isGenerated token = true →
      db.owner token = none → token ∉ db.presented →
      CallStep env db (.issuing authority userId expiresAt reply)
        (.insert authority ⟨token, userId, expiresAt, db.now, none⟩)
        (db.insertToken ⟨token, userId, expiresAt, db.now, none⟩)
        {.responding authority (reply.response token expiresAt)}
  | respond {db authority response} : CallStep env db (.responding authority response)
      (.respond authority response) db 0
  | tick {db} (now : Int) : CallStep env db .clock .other { db with now := now } {.clock}

inductive Start : Call → Prop
  | request (request : Request) : Start (.arriving request)
  | clock : Start .clock

abbrev State := Config Db Call

def step (env : Env) : State → Option Event → State → Prop := Step Start (CallStep env)

/-- No token has been issued yet; users and their usage may be there. -/
def init (users : List UserRow) (usage : List UsageRow) (now : Int) : State :=
  ⟨⟨users, [], usage, now, fun _ => none, [], []⟩, 0⟩

end SheriMl.SheriAuth
