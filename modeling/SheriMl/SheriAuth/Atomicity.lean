import SheriMl.SheriAuth.Service

/-!
# Failed requests and the accounts

A handler from its request to its response, with the statements that fail as a parameter. Its steps
are steps of `CallStep` (`callStep_next`). A request that is answered with an error leaves users and
tokens as they were, but for a registration whose user is inserted and whose token is not
(`errorsKeepRows_iff`).
-/

namespace SheriMl.SheriAuth

inductive Statement where
  | selectExisting
  | insertUser
  | selectCredentials
  | selectToken
  | touchToken
  | selectUser
  | selectUsage
  | selectRevoked
  | deleteToken
  | selectTokens
  | insertToken
  deriving DecidableEq

def Call.statement : Call → Option Statement
  | .registerExisting _ _ => some .selectExisting
  | .registerUser _ _ => some .insertUser
  | .loginUser _ _ => some .selectCredentials
  | .reading _ _ | .revokeCurrent _ _ => some .selectToken
  | .meTouching _ _ _ => some .touchToken
  | .meUser _ _ => some .selectUser
  | .meUsage _ _ => some .selectUsage
  | .logout _ | .revokeDeleting _ _ => some .deleteToken
  | .revokeTarget _ _ _ => some .selectRevoked
  | .listing _ _ _ => some .selectTokens
  | .issuing _ _ _ _ => some .insertToken
  | .arriving _ | .checking _ _ _ _ | .expiring _ _ _ | .responding _ _ | .clock => none

/-- What a request draws, and which of its statements fail. -/
structure Draws where
  userId : Str
  token : Str
  fails : Statement → Bool

variable (env : Env) (d : Draws)

/-- The step of a call whose statement does not fail by itself. A statement that a constraint of the
tables refuses throws. -/
def next (db : Db) : Call → Db × Call
  | .arriving request => (db, begin db request)
  | .registerExisting email password =>
    if db.users.any (fun user => user.email = email) then
      (db, .responding none (.error "User already exists".toList 409))
    else (db, .registerUser email password)
  | .registerUser email password =>
    if db.users.any (fun user => user.id = d.userId || user.email = email) then
      (db, .responding none internalError)
    else
      ({ db with
          users := db.users ++ [⟨d.userId, email, env.hashPassword password, .free, db.now⟩] },
        .expiring none d.userId (.session d.userId email .free))
  | .loginUser email password =>
    match db.users.find? (fun user => user.email = email) with
    | none => (db, .responding none (.error "Invalid credentials".toList 401))
    | some user =>
      if env.hashPassword password = user.passwordHash then
        (db, .expiring none user.id (.session user.id user.email user.plan))
      else (db, .responding none (.error "Invalid credentials".toList 401))
  | .reading handler p =>
    match db.findToken p.token with
    | none => (db, .responding (some p) (.error "Invalid token".toList 401))
    | some row => (db, .checking handler p row.userId row.expiresAt)
  | .checking handler p userId expiresAt =>
    if expiresAt < db.now then (db, .responding (some p) (.error "Token expired".toList 401))
    else (db, handler.next p userId db.now)
  | .meTouching p userId now => (db.touchToken p.token now, .meUser p userId)
  | .meUser p userId =>
    match db.users.find? (fun user => user.id = userId) with
    | none => (db, .responding (some p) (.error "User not found".toList 404))
    | some user => (db, .meUsage p user)
  | .meUsage p user => (db, .responding (some p) (meResponse db env user))
  | .logout p =>
    (if (db.findToken p.token).isSome then db.deleteToken p.token else db,
      .responding (some p) (.message "Logged out successfully".toList))
  | .revokeCurrent p token =>
    match db.findToken p.token with
    | none => (db, .responding (some p) (.error "Invalid token".toList 401))
    | some row => (db, .revokeTarget p token row.userId)
  | .revokeTarget p token userId =>
    match db.findToken token with
    | none =>
      (db, .responding (some p) (.error "Token not found or unauthorized".toList 403))
    | some row =>
      if row.userId = userId then (db, .revokeDeleting p token)
      else (db, .responding (some p) (.error "Token not found or unauthorized".toList 403))
  | .revokeDeleting p token =>
    (if (db.findToken token).isSome then db.deleteToken token else db,
      .responding (some p) (.message "Token revoked successfully".toList))
  | .listing p userId now =>
    (db, .responding (some p) (.tokens ((tokensOf db userId).map (tokenInfo now p.token))))
  | .expiring authority userId reply =>
    match env.tokenExpiryDays with
    | some days => (db, .issuing authority userId (db.now + days * 24 * 60 * 60) reply)
    -- no number is bound as NULL, which the column refuses
    | none => (db, .responding authority internalError)
  | .issuing authority userId expiresAt reply =>
    if (db.findToken d.token).isSome || !db.users.any (fun user => user.id = userId) then
      (db, .responding authority internalError)
    else
      (db.insertToken ⟨d.token, userId, expiresAt, db.now, none⟩,
        .responding authority (reply.response d.token expiresAt))
  | .responding authority response => (db, .responding authority response)
  | .clock => (db, .clock)

/-- A step; a statement that fails has no effect. -/
def advance (db : Db) (k : Call) : Db × Call :=
  if k.statement.any d.fails then (db, .responding k.authority internalError)
  else next env d db k

/-- The steps up to the response. -/
def handle : Nat → Db × Call → Db × Call
  | 0, s => s
  | fuel + 1, s => handle fuel (advance env d s.1 s.2)

/-- A request from its arrival; no handler takes more steps. -/
def serve (db : Db) (request : Request) : Db × Call := handle env d 5 (db, begin db request)

/-- The response has a status of 400 or more. -/
def Response.isError : Response → Bool
  | .error _ status => 400 ≤ status
  | .message _ | .session _ _ _ _ _ | .me _ _ _ _ _ _ | .generated _ _ | .tokens _ => false

/-- No row is inserted or deleted. -/
def RowsKept (db db' : Db) : Prop :=
  db'.users = db.users ∧ db'.authTokens.map TokenRow.token = db.authTokens.map TokenRow.token

section

variable {env d} {db db' : Db} {k : Call} {authority : Option Presented} {response : Response}
  {request : Request} {email password : Str} {fuel : Nat}

/-- A step is one that the service takes, if the token that is drawn is a new one. -/
theorem callStep_advance (htoken : isGenerated d.token = true) (hnew : db.owner d.token = none)
    (hsecret : d.token ∉ db.presented) (hk : k.inProgress = true) :
    ∃ e, CallStep env db k e (advance env d db k).1 {(advance env d db k).2} := by
  unfold advance
  split
  · exact ⟨_, .fail hk⟩
  cases k with
  | arriving request => cases hk
  | responding authority response => cases hk
  | clock => cases hk
  | registerExisting email password =>
    rw [next]
    split
    next hany => exact ⟨_, .registerExists (by simpa using hany)⟩
    next hany => exact ⟨_, .registerNew (by simpa using hany)⟩
  | registerUser email password =>
    rw [next]
    split
    next => exact ⟨_, .fail hk⟩
    next hany => exact ⟨_, .registerUser d.userId (by simpa using hany)⟩
  | loginUser email password =>
    rw [next]
    split
    next hnone => exact ⟨_, .loginUnknown (by simpa using hnone)⟩
    next user hsome =>
      have hmem := List.mem_of_find?_eq_some hsome
      have hemail : user.email = email := by simpa using List.find?_some hsome
      split
      next hhash => exact ⟨_, .login hmem hemail hhash⟩
      next hhash => exact ⟨_, .loginRefused hmem hemail hhash⟩
  | reading handler p =>
    rw [next]
    split
    next hnone => exact ⟨_, .tokenUnknown hnone⟩
    next row hsome => exact ⟨_, .tokenFound hsome⟩
  | checking handler p userId expiresAt =>
    rw [next]
    split
    next hexpired => exact ⟨_, .tokenExpired hexpired⟩
    next hvalid => exact ⟨_, .tokenValid hvalid⟩
  | meTouching p userId now => exact ⟨_, .meTouch⟩
  | meUser p userId =>
    rw [next]
    split
    next hnone => exact ⟨_, .meNoUser (by simpa using hnone)⟩
    next user hsome =>
      exact ⟨_, .meUser (List.mem_of_find?_eq_some hsome) (by simpa using List.find?_some hsome)⟩
  | meUsage p user => exact ⟨_, .meUsage⟩
  | logout p =>
    rw [next]
    split
    next hthere => exact ⟨_, .logout hthere⟩
    next hgone => exact ⟨_, .logoutNothing (Option.not_isSome_iff_eq_none.1 hgone)⟩
  | revokeCurrent p token =>
    rw [next]
    split
    next hnone => exact ⟨_, .revokeUnknown hnone⟩
    next row hsome => exact ⟨_, .revokeCurrent hsome⟩
  | revokeTarget p token userId =>
    rw [next]
    split
    next hnone =>
      refine ⟨_, .revokeForbidden fun row hrow => ?_⟩
      rw [hnone] at hrow
      cases hrow
    next row hsome =>
      split
      next huser => exact ⟨_, .revokeTarget hsome huser⟩
      next huser =>
        refine ⟨_, .revokeForbidden fun row' hrow' => ?_⟩
        rw [hsome] at hrow'
        cases hrow'
        exact huser
  | revokeDeleting p token =>
    rw [next]
    split
    next hthere => exact ⟨_, .revoke hthere⟩
    next hgone => exact ⟨_, .revokeNothing (Option.not_isSome_iff_eq_none.1 hgone)⟩
  | listing p userId now => exact ⟨_, .list⟩
  | expiring authority userId reply =>
    rw [next]
    split
    next days hdays => exact ⟨_, .expire hdays⟩
    next => exact ⟨_, .fail hk⟩
  | issuing authority userId expiresAt reply =>
    rw [next]
    split
    next => exact ⟨_, .fail hk⟩
    next => exact ⟨_, .issue d.token htoken hnew hsecret⟩

/-! ## What a step leaves -/

theorem RowsKept.refl (db : Db) : RowsKept db db := ⟨rfl, rfl⟩

theorem RowsKept.trans {db'' : Db} (h : RowsKept db db') (h' : RowsKept db' db'') :
    RowsKept db db'' := ⟨h'.1.trans h.1, h'.2.trans h.2⟩

theorem rowsKept_touchToken (db : Db) (token : Str) (time : Int) :
    RowsKept db (db.touchToken token time) := by
  refine ⟨rfl, ?_⟩
  rw [Db.touchToken, List.map_map]
  refine List.map_congr_left fun row _ => ?_
  rw [Function.comp_apply]
  split <;> rfl

/-- A registration that has not yet inserted its user, or a request that has not arrived. -/
def Call.registering : Call → Bool
  | .arriving _ | .registerExisting _ _ | .registerUser _ _ => true
  | _ => false

/-- Past that, rows are inserted or deleted with the response only, which is no error then. -/
theorem next_spec (env : Env) (d : Draws) (db : Db) (hk : k.registering = false) :
    (RowsKept db (next env d db k).1 ∧ (next env d db k).2.registering = false) ∨
      ∃ authority response, (next env d db k).2 = .responding authority response ∧
        response.isError = false := by
  have hsame {k' : Call} (hk' : k'.registering = false) :
      (RowsKept db (db, k').1 ∧ (db, k').2.registering = false) ∨
        ∃ authority response, (db, k').2 = .responding authority response ∧
          response.isError = false := .inl ⟨.refl db, hk'⟩
  cases k with
  | arriving request => cases hk
  | registerExisting email password => cases hk
  | registerUser email password => cases hk
  | loginUser email password =>
    rw [next]
    split
    · exact hsame rfl
    · split <;> exact hsame rfl
  | reading handler p =>
    rw [next]
    split <;> exact hsame rfl
  | checking handler p userId expiresAt =>
    rw [next]
    split
    · exact hsame rfl
    · refine hsame ?_
      cases handler <;> rfl
  | meTouching p userId now => exact .inl ⟨rowsKept_touchToken .., rfl⟩
  | meUser p userId =>
    rw [next]
    split <;> exact hsame rfl
  | meUsage p user => exact hsame rfl
  | logout p => exact .inr ⟨_, _, rfl, rfl⟩
  | revokeCurrent p token =>
    rw [next]
    split <;> exact hsame rfl
  | revokeTarget p token userId =>
    rw [next]
    split
    · exact hsame rfl
    · split <;> exact hsame rfl
  | revokeDeleting p token => exact .inr ⟨_, _, rfl, rfl⟩
  | listing p userId now => exact hsame rfl
  | expiring authority userId reply =>
    rw [next]
    split <;> exact hsame rfl
  | issuing authority userId expiresAt reply =>
    rw [next]
    split
    · exact hsame rfl
    · refine .inr ⟨_, _, rfl, ?_⟩
      cases reply <;> rfl
  | responding authority response => exact hsame rfl
  | clock => exact hsame rfl

theorem advance_responding :
    advance env d db (.responding authority response) = (db, .responding authority response) := rfl

theorem advance_none (h : k.statement = none) : advance env d db k = next env d db k := by
  rw [advance, h, Option.any_none, if_neg Bool.false_ne_true]

theorem advance_next {statement : Statement} (h : k.statement = some statement)
    (hfails : d.fails statement = false) : advance env d db k = next env d db k := by
  rw [advance, h, Option.any_some, hfails, if_neg Bool.false_ne_true]

theorem advance_fails {statement : Statement} (h : k.statement = some statement)
    (hfails : d.fails statement = true) :
    advance env d db k = (db, .responding k.authority internalError) := by
  rw [advance, h, Option.any_some, if_pos hfails]

theorem handle_responding (fuel : Nat) :
    handle env d fuel (db, .responding authority response) =
      (db, .responding authority response) := by
  induction fuel with
  | zero => rfl
  | succ fuel ih => exact ih

theorem rowsKept_handle (hk : k.registering = false)
    (hend : (handle env d fuel (db, k)).2 = .responding authority response)
    (herror : response.isError = true) : RowsKept db (handle env d fuel (db, k)).1 := by
  induction fuel generalizing db k with
  | zero => exact .refl db
  | succ fuel ih =>
    rw [handle] at hend ⊢
    dsimp only at hend ⊢
    unfold advance at hend ⊢
    split at hend
    next hfails =>
      rw [if_pos hfails, handle_responding]
      exact .refl db
    next hfails =>
      rw [if_neg hfails]
      rcases next_spec env d db hk with
        ⟨hkept, hk'⟩ | ⟨authority', response', hnext, hfine⟩
      · exact hkept.trans (ih hk' hend)
      · have hpair : next env d db k = ((next env d db k).1, .responding authority' response') :=
          Prod.ext rfl hnext
        rw [hpair, handle_responding] at hend
        cases hend
        rw [hfine] at herror
        cases herror

/-- How many steps a call takes to its response at most. -/
def Call.steps : Call → Nat
  | .responding _ _ | .clock => 0
  | .meUsage _ _ | .logout _ | .revokeDeleting _ _ | .listing _ _ _ | .issuing _ _ _ _ => 1
  | .meUser _ _ | .revokeTarget _ _ _ | .expiring _ _ _ => 2
  | .meTouching _ _ _ | .registerUser _ _ | .loginUser _ _ | .revokeCurrent _ _ => 3
  | .registerExisting _ _ | .checking _ _ _ _ => 4
  | .reading _ _ => 5
  | .arriving _ => 6

theorem steps_next (env : Env) (d : Draws) (db : Db) (hk : k.inProgress = true) :
    (next env d db k).2.steps < k.steps ∧ (next env d db k).2 ≠ .clock := by
  cases k with
  | arriving request => cases hk
  | responding authority response => cases hk
  | clock => cases hk
  | checking handler p userId expiresAt =>
    rw [next]
    split
    · exact ⟨Nat.succ_pos 3, nofun⟩
    · cases handler <;> exact ⟨by simp [Call.steps, Checked.next], nofun⟩
  | meTouching p userId now | meUsage p user | logout p | revokeDeleting p token
  | listing p userId now => exact ⟨Nat.lt_succ_self _, nofun⟩
  | registerExisting email password | registerUser email password | reading handler p
  | meUser p userId | revokeCurrent p token | expiring authority userId reply
  | issuing authority userId expiresAt reply =>
    rw [next]
    split
    · exact ⟨by simp [Call.steps], nofun⟩
    · exact ⟨by simp [Call.steps], nofun⟩
  | loginUser email password | revokeTarget p token userId =>
    rw [next]
    split
    · exact ⟨by simp [Call.steps], nofun⟩
    · split
      · exact ⟨by simp [Call.steps], nofun⟩
      · exact ⟨by simp [Call.steps], nofun⟩

theorem exists_response_handle (hk : k.steps ≤ fuel) (hfuel : fuel ≤ 5) (hclock : k ≠ .clock) :
    ∃ authority response, (handle env d fuel (db, k)).2 = .responding authority response := by
  induction fuel generalizing db k with
  | zero =>
    cases k with
    | responding authority response => exact ⟨authority, response, rfl⟩
    | clock => exact absurd rfl hclock
    | _ => exact absurd hk (by simp [Call.steps])
  | succ fuel ih =>
    by_cases hprogress : k.inProgress = true
    · rw [handle]
      dsimp only
      unfold advance
      split
      · rw [handle_responding]
        exact ⟨_, _, rfl⟩
      · obtain ⟨hlt, hnext⟩ := steps_next env d db hprogress
        exact ih (Nat.le_of_lt_succ (Nat.lt_of_lt_of_le hlt hk)) (Nat.le_of_succ_le hfuel) hnext
    · cases k with
      | responding authority response =>
        rw [handle_responding]
        exact ⟨_, _, rfl⟩
      | clock => exact absurd rfl hclock
      | arriving request =>
        rw [Call.steps] at hk
        omega
      | _ => exact absurd rfl hprogress

/-! ## Registrations -/

/-- Nobody has the email, and the id that is drawn is new. -/
def Insertable (d : Draws) (db : Db) (email : Str) : Prop :=
  ∀ user ∈ db.users, user.id ≠ d.userId ∧ user.email ≠ email

/-- The token of an account cannot be inserted. -/
def TokenFails (env : Env) (d : Draws) (db : Db) : Prop :=
  d.fails .insertToken = true ∨ env.tokenExpiryDays = none ∨ (db.findToken d.token).isSome = true

/-- The account that is inserted. -/
def withUser (env : Env) (d : Draws) (db : Db) (email password : Str) : Db :=
  { db with users := db.users ++ [⟨d.userId, email, env.hashPassword password, .free, db.now⟩] }

theorem handle_expiring {userId : Str} {reply : Reply}
    (huser : db.users.any (fun user => user.id = userId) = true) :
    (TokenFails env d db ∧ handle env d (fuel + 2) (db, .expiring authority userId reply) =
        (db, .responding authority internalError)) ∨
      ¬TokenFails env d db ∧ ∃ expiresAt,
        handle env d (fuel + 2) (db, .expiring authority userId reply) =
          (db.insertToken ⟨d.token, userId, expiresAt, db.now, none⟩,
            .responding authority (reply.response d.token expiresAt)) := by
  rw [handle, advance_none rfl, next]
  cases hdays : env.tokenExpiryDays with
  | none => exact .inl ⟨.inr (.inl hdays), handle_responding _⟩
  | some days =>
    dsimp only
    rw [handle]
    dsimp only
    cases hfails : d.fails .insertToken with
    | true =>
      rw [advance_fails rfl hfails]
      exact .inl ⟨.inl hfails, handle_responding _⟩
    | false =>
      rw [advance_next rfl hfails, next, huser]
      by_cases htaken : (db.findToken d.token).isSome = true
      · rw [if_pos (by rw [htaken]; rfl)]
        exact .inl ⟨.inr (.inr htaken), handle_responding _⟩
      · rw [if_neg (by simpa using htaken)]
        refine .inr ⟨?_, _, handle_responding _⟩
        rintro (hfail | hnone | hfound)
        · rw [hfails] at hfail
          cases hfail
        · rw [hdays] at hnone
          cases hnone
        · exact htaken hfound

/-- A registration answers with an error and leaves the rows, or inserts the user first. -/
theorem serve_register (env : Env) (d : Draws)
    (h : begin db request = .registerExisting email password) :
    ((d.fails .selectExisting = true ∨ d.fails .insertUser = true ∨ ¬Insertable d db email) ∧
      ∃ response, serve env d db request = (db, .responding none response) ∧
        response.isError = true) ∨
    (d.fails .selectExisting = false ∧ d.fails .insertUser = false ∧ Insertable d db email ∧
      serve env d db request = handle env d 3 (withUser env d db email password,
        .expiring none d.userId (.session d.userId email .free))) := by
  rw [serve, h, handle]
  dsimp only
  cases hselect : d.fails .selectExisting with
  | true =>
    rw [advance_fails rfl hselect]
    exact .inl ⟨.inl rfl, _, handle_responding _, rfl⟩
  | false =>
    rw [advance_next rfl hselect, next]
    split
    next hany =>
      refine .inl ⟨.inr (.inr fun hinsertable => ?_), _, handle_responding _, rfl⟩
      obtain ⟨user, hmem, hemail⟩ := List.any_eq_true.1 hany
      exact (hinsertable user hmem).2 (of_decide_eq_true hemail)
    next hany =>
      rw [handle]
      dsimp only
      cases hinsert : d.fails .insertUser with
      | true =>
        rw [advance_fails rfl hinsert]
        exact .inl ⟨.inr (.inl rfl), _, handle_responding _, rfl⟩
      | false =>
        rw [advance_next rfl hinsert, next]
        split
        next htaken =>
          refine .inl ⟨.inr (.inr fun hinsertable => ?_), _, handle_responding _, rfl⟩
          obtain ⟨user, hmem, hsame⟩ := List.any_eq_true.1 htaken
          have hne := hinsertable user hmem
          simp [hne.1, hne.2] at hsame
        next htaken => exact .inr ⟨rfl, rfl, by simpa [Insertable] using htaken, rfl⟩

theorem any_withUser : (withUser env d db email password).users.any
    (fun user => user.id = d.userId) = true := by
  simp [withUser]

/-- Then the token is refused, or the registration is answered as it should be. -/
theorem serve_registering (env : Env) (d : Draws)
    (h : begin db request = .registerExisting email password) :
    ((d.fails .selectExisting = true ∨ d.fails .insertUser = true ∨ ¬Insertable d db email) ∧
      ∃ response, serve env d db request = (db, .responding none response) ∧
        response.isError = true) ∨
    (d.fails .selectExisting = false ∧ d.fails .insertUser = false ∧ Insertable d db email ∧
      (TokenFails env d db ∧ serve env d db request =
          (withUser env d db email password, .responding none internalError) ∨
        ¬TokenFails env d db ∧ ∃ expiresAt, (serve env d db request).2 =
          .responding none (.session d.userId email .free d.token expiresAt))) := by
  rcases serve_register env d h with hrefused | ⟨hselect, hinsert, hinsertable, hserve⟩
  · exact .inl hrefused
  · have hissue : TokenFails env d (withUser env d db email password) ∧
        handle env d 3 (withUser env d db email password,
          .expiring none d.userId (.session d.userId email .free)) = _ ∨ _ :=
      handle_expiring any_withUser
    refine .inr ⟨hselect, hinsert, hinsertable, ?_⟩
    rw [hserve]
    rcases hissue with ⟨hfails, hrefused⟩ | ⟨hissues, expiresAt, hissued⟩
    · exact .inl ⟨hfails, hrefused⟩
    · exact .inr ⟨hissues, expiresAt, congrArg Prod.snd hissued⟩

theorem not_rowsKept_withUser : ¬RowsKept db (withUser env d db email password) := by
  intro h
  have hlength := congrArg List.length h.1
  simp [withUser] at hlength

/-- What a handler begins with. -/
def Call.isFirst : Call → Bool
  | .registerExisting _ _ | .loginUser _ _ | .reading _ _ | .logout _ | .revokeCurrent _ _
  | .responding _ _ => true
  | _ => false

theorem isFirst_begin (db : Db) (request : Request) : (begin db request).isFirst = true := by
  have hauthorized {authorization : Option Str} {handle : Presented → Call}
      (hhandle : ∀ p, (handle p).isFirst = true) :
      (authorized db authorization handle).isFirst = true := by
    unfold authorized
    split
    · exact hhandle _
    · rfl
  cases request with
  | register body =>
    cases body with
    | none => rfl
    | some body =>
      rw [begin]
      split
      · split <;> rfl
      · rfl
  | login body =>
    cases body with
    | none => rfl
    | some body =>
      rw [begin]
      split <;> rfl
  | me authorization | logout authorization | generateToken authorization =>
    exact hauthorized fun _ => rfl
  | revokeToken authorization body =>
    rw [begin]
    refine hauthorized fun p => ?_
    cases body with
    | none => rfl
    | some token =>
      dsimp only
      split <;> rfl
  | listTokens authorization => exact hauthorized fun _ => rfl

/-- A registration begins in the same way whatever the rows are. -/
theorem begin_registerExisting (h : begin db request = .registerExisting email password)
    (db' : Db) : begin db' request = .registerExisting email password := by
  have hauthorized {authorization : Option Str} {handle : Presented → Call}
      (hhandle : ∀ p, handle p ≠ .registerExisting email password) :
      authorized db authorization handle ≠ .registerExisting email password := by
    unfold authorized
    split
    · exact hhandle _
    · nofun
  cases request with
  | register body | login body =>
    rw [← h]
    cases body <;> rfl
  | me authorization | logout authorization | generateToken authorization =>
    exact absurd h (hauthorized nofun)
  | revokeToken authorization body =>
    rw [begin] at h
    refine absurd h (hauthorized fun p => ?_)
    cases body with
    | none => nofun
    | some token =>
      dsimp only
      split <;> nofun
  | listTokens authorization => exact absurd h (hauthorized nofun)

end

/-! ## Errors -/

/-- Every request is answered. -/
theorem exists_response (env : Env) (d : Draws) (db : Db) (request : Request) :
    ∃ authority response, (serve env d db request).2 = .responding authority response := by
  have hfirst := isFirst_begin db request
  rw [serve]
  cases hbegin : begin db request with
  | registerExisting email password | loginUser email password | reading handler p | logout p
  | revokeCurrent p token | responding authority response =>
    exact exists_response_handle (by simp [Call.steps]) (Nat.le_refl 5) nofun
  | _ =>
    rw [hbegin] at hfirst
    cases hfirst

/-- A request that is answered with an error inserts and deletes no row; and a client whose
registration failed, though nobody had the email, registers when nothing fails. -/
structure ErrorsKeepRows (env : Env) (d : Draws) (db : Db) (request : Request) : Prop where
  rows : ∀ authority response, (serve env d db request).2 = .responding authority response →
    response.isError = true → RowsKept db (serve env d db request).1
  again : ∀ email password authority response,
    begin db request = .registerExisting email password →
    (∀ user ∈ db.users, user.email ≠ email) →
    (serve env d db request).2 = .responding authority response → response.isError = true →
    ∀ (env' : Env) (d' : Draws), env'.tokenExpiryDays ≠ none → (∀ k, d'.fails k = false) →
      (∀ user ∈ (serve env d db request).1.users, user.id ≠ d'.userId) →
      ((serve env d db request).1.findToken d'.token).isSome = false →
      ∃ expiresAt, (serve env' d' (serve env d db request).1 request).2 =
        .responding none (.session d'.userId email .free d'.token expiresAt)

/-- A registration inserts its user and cannot insert its token. -/
def TokenRefused (env : Env) (d : Draws) (db : Db) (request : Request) : Prop :=
  ∃ email password, begin db request = .registerExisting email password ∧
    d.fails .selectExisting = false ∧ d.fails .insertUser = false ∧ Insertable d db email ∧
    TokenFails env d db

variable {env d} {db : Db} {request : Request}

theorem exists_registerExisting (h : ¬(begin db request).registering = false) :
    ∃ email password, begin db request = .registerExisting email password := by
  have hfirst := isFirst_begin db request
  cases hbegin : begin db request with
  | registerExisting email password => exact ⟨email, password, rfl⟩
  | _ =>
    rw [hbegin] at h hfirst
    first
    | exact absurd rfl h
    | cases hfirst

theorem rowsKept_of_not_tokenRefused (h : ¬TokenRefused env d db request)
    {authority : Option Presented} {response : Response}
    (hend : (serve env d db request).2 = .responding authority response)
    (herror : response.isError = true) : RowsKept db (serve env d db request).1 := by
  by_cases hother : (begin db request).registering = false
  · exact rowsKept_handle hother hend herror
  · obtain ⟨email, password, hregister⟩ := exists_registerExisting hother
    rcases serve_registering env d hregister with
      ⟨-, response', hserve, -⟩ |
      ⟨hselect, hinsert, hinsertable, ⟨hfails, -⟩ | ⟨-, expiresAt, hsession⟩⟩
    · rw [hserve]
      exact .refl db
    · exact absurd ⟨email, password, hregister, hselect, hinsert, hinsertable, hfails⟩ h
    · rw [hsession] at hend
      cases hend
      cases herror

theorem serve_registers {email password : Str} {env : Env} {d : Draws}
    (h : begin db request = .registerExisting email password)
    (hemail : ∀ user ∈ db.users, user.email ≠ email) (hdays : env.tokenExpiryDays ≠ none)
    (hfails : ∀ statement, d.fails statement = false)
    (hid : ∀ user ∈ db.users, user.id ≠ d.userId)
    (htoken : (db.findToken d.token).isSome = false) :
    ∃ expiresAt, (serve env d db request).2 =
      .responding none (.session d.userId email .free d.token expiresAt) := by
  rcases serve_registering env d h with
    ⟨hselect | hinsert | hnot, -⟩ | ⟨-, -, -, ⟨hfail | hnone | hfound, -⟩ | ⟨-, hsession⟩⟩
  · rw [hfails] at hselect
    cases hselect
  · rw [hfails] at hinsert
    cases hinsert
  · exact absurd (fun user huser => ⟨hid user huser, hemail user huser⟩) hnot
  · rw [hfails] at hfail
    cases hfail
  · exact absurd hnone hdays
  · rw [htoken] at hfound
    cases hfound
  · exact hsession

/-- The rows are kept by all errors but that of a registration whose token is refused. -/
theorem errorsKeepRows_iff (env : Env) (d : Draws) (db : Db) (request : Request) :
    ErrorsKeepRows env d db request ↔ ¬TokenRefused env d db request := by
  constructor
  · rintro ⟨hrows, -⟩ ⟨email, password, hregister, hselect, hinsert, hinsertable, hfails⟩
    rcases serve_registering env d hregister with
      ⟨hselect' | hinsert' | hnot, -⟩ | ⟨-, -, -, ⟨-, hrefused⟩ | ⟨hissues, -⟩⟩
    · rw [hselect] at hselect'
      cases hselect'
    · rw [hinsert] at hinsert'
      cases hinsert'
    · exact hnot hinsertable
    · have hkept := hrows none internalError (by rw [hrefused]) rfl
      rw [hrefused] at hkept
      exact not_rowsKept_withUser hkept
    · exact hissues hfails
  · intro h
    refine ⟨fun _ _ hend herror => rowsKept_of_not_tokenRefused h hend herror,
      fun email password authority response hregister hemail hend herror env' d' hdays hfails hid
        htoken => ?_⟩
    have husers := (rowsKept_of_not_tokenRefused h hend herror).1
    refine serve_registers (begin_registerExisting hregister _) ?_ hdays hfails hid htoken
    rw [husers]
    exact hemail

def registerAda : Request := .register (some (some "ada@a.b", some "secret"))

/-- The account of a registration that failed is there, and the email is refused from then on. -/
theorem registration_not_undone :
    let env : Env := ⟨id, fun _ => [], some 90⟩
    let failing : Draws := ⟨"1", "hsa_1", fun statement => statement = .insertToken⟩
    let later : Draws := ⟨"2", "hsa_2", fun _ => false⟩
    let db : Db := ⟨[], [], [], 0, fun _ => none, [], []⟩
    (serve env failing db registerAda).2 = .responding none internalError ∧
    (serve env failing db registerAda).1.users = [⟨"1", "ada@a.b", "secret", .free, 0⟩] ∧
    (serve env later (serve env failing db registerAda).1 registerAda).2 =
      .responding none (.error "User already exists".toList 409) ∧
    ¬ ErrorsKeepRows env failing db registerAda := by
  intro env failing later db
  have hresponse : (serve env failing db registerAda).2 = .responding none internalError := by
    decide
  have husers : (serve env failing db registerAda).1.users =
      [⟨"1", "ada@a.b", "secret", .free, 0⟩] := by decide
  refine ⟨hresponse, husers, by decide, fun h => ?_⟩
  have hkept := (h.rows _ _ hresponse rfl).1
  rw [husers] at hkept
  cases hkept

end SheriMl.SheriAuth
