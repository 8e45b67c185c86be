import SheriMl.SheriAuth.Service

/-!
# The authority of a token

`lawful_of_heeded`: on whose authority rows of tokens are inserted and deleted and data is returned,
as long as no revocation or logout is asked for with an expired token, no token is deleted between
the read and the insert of a request that has another one issued on it, and no clock is set back
between the arrival of a request and its test.
-/

namespace SheriMl.SheriAuth

open Pool Transition

/-! ## What is lawful -/

def Response.carriesData : Response → Bool
  | .error _ _ | .message _ => false
  | .session _ _ _ _ _ | .me _ _ _ _ _ _ | .generated _ _ | .tokens _ => true

def Response.Concerns (db : Db) (userId : Str) : Response → Prop
  | .error _ _ | .message _ => True
  | .session id _ _ token _ => id = userId ∧ db.owner token = some userId
  | .me id _ _ _ _ _ => id = userId
  | .generated token _ => db.owner token = some userId
  | .tokens infos => ∀ info ∈ infos, db.owner info.token = some userId

/-- What may be done on the authority of a presented token: it was in the database and not expired
when the request arrived, rows and data are those of its user, and a token is issued only on one
whose row was not deleted. -/
def Lawful (db : Db) : Event → Prop
  | .insert (some p) row => p.valid = true ∧ db.owner p.token = some row.userId ∧
    p.token ∉ db.revoked
  | .delete p token | .touch p token => p.valid = true ∧ ∃ userId, db.owner p.token = some userId ∧
    ∀ row ∈ db.authTokens, row.token = token → row.userId = userId
  | .respond (some p) response => response.carriesData = true →
    p.valid = true ∧ ∃ userId, db.owner p.token = some userId ∧ response.Concerns db userId
  | .insert none _ | .respond none _ | .arrive _ | .other => True

/-- The presented token is not past its `expires_at`, if it is in the database. -/
def Unexpired (db : Db) (authorization : Option Str) : Prop :=
  ∀ token, bearer authorization = some token → ∀ row ∈ db.authTokens, row.token = token →
    ¬row.expiresAt < db.now

/-- The handlers that do not test the clock are asked with unexpired tokens, the others find it no
earlier than the request arrived, and the row of a token is there when another is issued on it. -/
def Heeded (db : Db) : Call → Event → Prop
  | .arriving (.logout authorization), _ | .arriving (.revokeToken authorization _), _ =>
    Unexpired db authorization
  | .checking _ p _ _, _ => p.arrivedAt ≤ db.now
  | .issuing (some p) _ _ _, .insert _ _ => (db.findToken p.token).isSome = true
  | _, _ => True

def heededStep (env : Env) : State → Option Event → State → Prop :=
  Step Start fun db k e db' ks' => CallStep env db k e db' ks' ∧ Heeded db k e

/-! ## The database -/

structure Db.Consistent (db : Db) : Prop where
  owned : ∀ row ∈ db.authTokens, db.owner row.token = some row.userId
  /-- what the primary key is for -/
  unique : ∀ row ∈ db.authTokens, ∀ row' ∈ db.authTokens, row.token = row'.token →
    row.expiresAt = row'.expiresAt
  revoked : ∀ token ∈ db.revoked, (∃ userId, db.owner token = some userId) ∧
    ∀ row ∈ db.authTokens, row.token ≠ token

/-- What the steps keep: owners, and of the rows of the tokens that were presented the expiry. -/
structure Db.Grows (db db' : Db) : Prop where
  owner : ∀ {token userId}, db.owner token = some userId → db'.owner token = some userId
  presented : ∀ {token}, token ∈ db.presented → token ∈ db'.presented
  rows : ∀ {token}, token ∈ db.presented → ∀ row' ∈ db'.authTokens, row'.token = token →
    ∃ row ∈ db.authTokens, row.token = token ∧ row.expiresAt = row'.expiresAt

namespace Db

variable {db db' : Db} {token : Str} {row : TokenRow}

theorem findToken_eq_some (h : db.findToken token = some row) :
    row ∈ db.authTokens ∧ row.token = token :=
  ⟨List.mem_of_find?_eq_some h, by simpa using List.find?_some h⟩

theorem findToken_eq_none : db.findToken token = none ↔
    ∀ row ∈ db.authTokens, row.token ≠ token := by
  simp [findToken]

theorem Grows.refl (db : Db) : db.Grows db :=
  ⟨id, id, fun _ row hrow htoken => ⟨row, hrow, htoken, rfl⟩⟩

theorem grows_deleteToken (db : Db) (token : Str) : db.Grows (db.deleteToken token) :=
  ⟨id, id, fun _ row hrow htoken => ⟨row, (List.mem_filter.1 hrow).1, htoken, rfl⟩⟩

theorem mem_touchToken {time : Int} {row' : TokenRow}
    (h : row' ∈ (db.touchToken token time).authTokens) :
    ∃ row ∈ db.authTokens, row.token = row'.token ∧ row.userId = row'.userId ∧
      row.expiresAt = row'.expiresAt := by
  obtain ⟨row, hrow, rfl⟩ := List.mem_map.1 h
  refine ⟨row, hrow, ?_⟩
  split <;> exact ⟨rfl, rfl, rfl⟩

theorem grows_touchToken (db : Db) (token : Str) (time : Int) :
    db.Grows (db.touchToken token time) := by
  refine ⟨id, id, fun _ row' hrow' htoken => ?_⟩
  obtain ⟨row, hrow, heq, -, hexpires⟩ := mem_touchToken hrow'
  exact ⟨row, hrow, heq.trans htoken, hexpires⟩

theorem grows_insertToken (hnew : db.owner row.token = none) (hsecret : row.token ∉ db.presented) :
    db.Grows (db.insertToken row) := by
  refine ⟨fun {token userId} howner => ?_, id, fun {token} hpresented row' hrow' htoken => ?_⟩
  · have hne : token ≠ row.token := by
      rintro rfl
      rw [hnew] at howner
      cases howner
    exact (Function.update_of_ne hne ..).trans howner
  · rcases List.mem_append.1 hrow' with hold | hself
    · exact ⟨row', hold, htoken, rfl⟩
    · rw [List.mem_singleton.1 hself] at htoken
      exact absurd (htoken ▸ hpresented) hsecret

theorem Consistent.deleteToken (h : db.Consistent) (hthere : (db.findToken token).isSome = true) :
    (db.deleteToken token).Consistent := by
  refine ⟨fun row hrow => h.owned row (List.mem_filter.1 hrow).1, fun row hrow row' hrow' =>
    h.unique row (List.mem_filter.1 hrow).1 row' (List.mem_filter.1 hrow').1,
    fun token' htoken' => ?_⟩
  rcases List.mem_cons.1 htoken' with rfl | hold
  · obtain ⟨row, hrow⟩ := Option.isSome_iff_exists.1 hthere
    obtain ⟨hmem, rfl⟩ := findToken_eq_some hrow
    exact ⟨⟨row.userId, h.owned row hmem⟩,
      fun row' hrow' => of_decide_eq_true (List.mem_filter.1 hrow').2⟩
  · obtain ⟨howner, hgone⟩ := h.revoked token' hold
    exact ⟨howner, fun row hrow => hgone row (List.mem_filter.1 hrow).1⟩

theorem Consistent.touchToken (h : db.Consistent) (time : Int) :
    (db.touchToken token time).Consistent := by
  refine ⟨fun row' hrow' => ?_, fun row₁' hrow₁' row₂' hrow₂' heq => ?_,
    fun token' htoken' => ⟨(h.revoked token' htoken').1, fun row' hrow' => ?_⟩⟩
  · obtain ⟨row, hrow, htoken, huser, -⟩ := mem_touchToken hrow'
    rw [← htoken, ← huser]
    exact h.owned row hrow
  · obtain ⟨row₁, hrow₁, htoken₁, -, hexpires₁⟩ := mem_touchToken hrow₁'
    obtain ⟨row₂, hrow₂, htoken₂, -, hexpires₂⟩ := mem_touchToken hrow₂'
    rw [← hexpires₁, ← hexpires₂]
    exact h.unique row₁ hrow₁ row₂ hrow₂ (htoken₁.trans (heq.trans htoken₂.symm))
  · obtain ⟨row, hrow, htoken, -⟩ := mem_touchToken hrow'
    rw [← htoken]
    exact (h.revoked token' htoken').2 row hrow

theorem Consistent.insertToken (h : db.Consistent) (hnew : db.owner row.token = none) :
    (db.insertToken row).Consistent := by
  have hother {token userId : Str} (howner : db.owner token = some userId) :
      token ≠ row.token ∧ (db.insertToken row).owner token = some userId := by
    have hne : token ≠ row.token := by
      rintro rfl
      rw [hnew] at howner
      cases howner
    exact ⟨hne, (Function.update_of_ne hne ..).trans howner⟩
  refine ⟨fun row' hrow' => ?_, fun row₁ hrow₁ row₂ hrow₂ heq => ?_, fun token' htoken' => ?_⟩
  · rcases List.mem_append.1 hrow' with hold | hself
    · exact (hother (h.owned row' hold)).2
    · rw [List.mem_singleton.1 hself]
      exact Function.update_self ..
  · rcases List.mem_append.1 hrow₁ with hold₁ | hself₁ <;>
      rcases List.mem_append.1 hrow₂ with hold₂ | hself₂
    · exact h.unique row₁ hold₁ row₂ hold₂ heq
    · rw [List.mem_singleton.1 hself₂] at heq
      exact absurd heq (hother (h.owned row₁ hold₁)).1
    · rw [List.mem_singleton.1 hself₁] at heq
      exact absurd heq.symm (hother (h.owned row₂ hold₂)).1
    · rw [List.mem_singleton.1 hself₁, List.mem_singleton.1 hself₂]
  · obtain ⟨⟨userId, howner⟩, hgone⟩ := h.revoked token' htoken'
    obtain ⟨hne, howner'⟩ := hother howner
    refine ⟨⟨userId, howner'⟩, fun row' hrow' => ?_⟩
    rcases List.mem_append.1 hrow' with hold | hself
    · exact hgone row' hold
    · rw [List.mem_singleton.1 hself]
      exact hne.symm

theorem Consistent.not_revoked (h : db.Consistent) (hthere : (db.findToken token).isSome = true) :
    token ∉ db.revoked := by
  intro hrevoked
  rw [findToken_eq_none.2 (h.revoked token hrevoked).2] at hthere
  cases hthere

end Db

/-! ## The requests in progress -/

/-- The token was presented, and if it has a row now, it had it when the request arrived. -/
def Known (db : Db) (p : Presented) : Prop :=
  p.token ∈ db.presented ∧ ∀ row ∈ db.authTokens, row.token = p.token →
    p.atArrival = some row.expiresAt

def ActsFor (db : Db) (p : Presented) (userId : Str) : Prop :=
  p.valid = true ∧ db.owner p.token = some userId

def Relies (db : Db) : Call → Prop
  | .reading _ p => Known db p
  | .logout p | .revokeCurrent p _ => Known db p ∧ (p.atArrival.isSome = true → p.valid = true)
  | .checking _ p userId expiresAt => db.owner p.token = some userId ∧ p.atArrival = some expiresAt
  | .meTouching p userId _ | .meUser p userId | .listing p userId _ | .revokeTarget p _ userId =>
    ActsFor db p userId
  | .meUsage p user => ActsFor db p user.id
  | .revokeDeleting p token => ∃ userId, ActsFor db p userId ∧ db.owner token = some userId
  | .expiring authority userId reply | .issuing authority userId _ reply =>
    ∀ p, authority = some p → ActsFor db p userId ∧ reply = .generated
  | .responding authority response => ∀ p, authority = some p → response.carriesData = true →
    ∃ userId, ActsFor db p userId ∧ response.Concerns db userId
  | .arriving _ | .registerExisting _ _ | .registerUser _ _ | .loginUser _ _ | .clock => True

section Relies

variable {db db' : Db} {p : Presented} {userId : Str} {k : Call}

theorem Known.grows (h : Known db p) (hgrows : db.Grows db') : Known db' p := by
  refine ⟨hgrows.presented h.1, fun row' hrow' htoken => ?_⟩
  obtain ⟨row, hrow, htoken', hexpires⟩ := hgrows.rows h.1 row' hrow' htoken
  rw [← hexpires]
  exact h.2 row hrow htoken'

theorem ActsFor.grows (h : ActsFor db p userId) (hgrows : db.Grows db') : ActsFor db' p userId :=
  ⟨h.1, hgrows.owner h.2⟩

theorem Response.Concerns.grows {response : Response} (h : response.Concerns db userId)
    (hgrows : db.Grows db') : response.Concerns db' userId := by
  cases response with
  | error | message | me => exact h
  | session => exact ⟨h.1, hgrows.owner h.2⟩
  | generated => exact hgrows.owner h
  | tokens => exact fun info hinfo => hgrows.owner (h info hinfo)

theorem Relies.grows (h : Relies db k) (hgrows : db.Grows db') : Relies db' k := by
  cases k with
  | reading => exact Known.grows h hgrows
  | logout | revokeCurrent => exact ⟨h.1.grows hgrows, h.2⟩
  | checking => exact ⟨hgrows.owner h.1, h.2⟩
  | meTouching | meUser | listing | revokeTarget | meUsage => exact ActsFor.grows h hgrows
  | revokeDeleting =>
    obtain ⟨userId, hacts, howner⟩ := h
    exact ⟨userId, hacts.grows hgrows, hgrows.owner howner⟩
  | expiring | issuing => exact fun p hp => ⟨(h p hp).1.grows hgrows, (h p hp).2⟩
  | responding =>
    intro p hp hdata
    obtain ⟨userId, hacts, hconcerns⟩ := h p hp hdata
    exact ⟨userId, hacts.grows hgrows, hconcerns.grows hgrows⟩
  | arriving | registerExisting | registerUser | loginUser | clock => trivial

theorem relies_responding {authority : Option Presented} {response : Response}
    (h : response.carriesData = false) : Relies db (.responding authority response) := by
  intro p _ hdata
  rw [h] at hdata
  cases hdata

theorem known_present (h : db.Consistent) {token : Str} (hpresented : token ∈ db.presented) :
    Known db (present db token) := by
  refine ⟨hpresented, fun row hrow htoken => ?_⟩
  cases hfind : db.findToken token with
  | none => exact absurd htoken (Db.findToken_eq_none.1 hfind row hrow)
  | some row' =>
    obtain ⟨hmem, htoken'⟩ := Db.findToken_eq_some hfind
    rw [present, hfind]
    exact congrArg some (h.unique row' hmem row hrow (htoken'.trans htoken.symm))

/-- The token of a request that finds a row for it was there when the request arrived. -/
theorem Known.isSome_atArrival {row : TokenRow} (h : Known db p)
    (hrow : db.findToken p.token = some row) : p.atArrival.isSome = true := by
  obtain ⟨hmem, htoken⟩ := Db.findToken_eq_some hrow
  rw [h.2 row hmem htoken]
  rfl

theorem Db.Consistent.rows_of_owner (h : db.Consistent) {token : Str}
    (howner : db.owner token = some userId) :
    ∀ row ∈ db.authTokens, row.token = token → row.userId = userId := by
  intro row hrow htoken
  have hrow' := h.owned row hrow
  rw [htoken, howner] at hrow'
  exact (Option.some.inj hrow').symm

theorem valid_present {authorization : Option Str} {token : Str}
    (h : Unexpired db authorization) (hbearer : bearer authorization = some token)
    (hsome : (present db token).atArrival.isSome = true) : (present db token).valid = true := by
  cases hfind : db.findToken token with
  | none =>
    rw [present, hfind] at hsome
    cases hsome
  | some row =>
    obtain ⟨hmem, htoken⟩ := Db.findToken_eq_some hfind
    have hlive := h token hbearer row hmem htoken
    simpa [Presented.valid, present, hfind] using hlive

theorem relies_authorized {authorization : Option Str} {handle : Presented → Call}
    (h : ∀ token, bearer authorization = some token → Relies db' (handle (present db token))) :
    Relies db' (authorized db authorization handle) := by
  unfold authorized
  cases hbearer : bearer authorization with
  | none => exact relies_responding rfl
  | some token => exact h token hbearer

end Relies

/-! ## One step -/

section Steps

variable {env : Env} {db db' : Db} {k : Call} {e : Event} {ks' : Multiset Call}

theorem CallStep.grows (h : CallStep env db k e db' ks') : db.Grows db' := by
  cases h with
  | arrive =>
    exact ⟨id, fun h => List.mem_append_right _ h,
      fun _ row hrow htoken => ⟨row, hrow, htoken, rfl⟩⟩
  | meTouch => exact Db.grows_touchToken ..
  | logout | revoke => exact Db.grows_deleteToken ..
  | issue token _ hnew hsecret => exact Db.grows_insertToken hnew hsecret
  | registerUser | tick => exact ⟨id, id, fun _ row hrow htoken => ⟨row, hrow, htoken, rfl⟩⟩
  | _ => exact Db.Grows.refl db

theorem CallStep.consistent (h : CallStep env db k e db' ks') (hdb : db.Consistent) :
    db'.Consistent := by
  cases h with
  | arrive | registerUser | tick => exact ⟨hdb.owned, hdb.unique, hdb.revoked⟩
  | meTouch => exact hdb.touchToken _
  | logout hthere | revoke hthere => exact hdb.deleteToken hthere
  | issue token _ hnew => exact hdb.insertToken hnew
  | _ => exact hdb

theorem relies_begin {request : Request} (hdb : db.Consistent)
    (hheeded : Heeded db (.arriving request) e) :
    Relies { db with presented := request.presents.toList ++ db.presented } (begin db request) := by
  have hknown {token : Str} (hpresents : request.presents = some token) :
      Known { db with presented := request.presents.toList ++ db.presented }
        (present db token) := by
    have hdb' : Db.Consistent { db with presented := request.presents.toList ++ db.presented } :=
      ⟨hdb.owned, hdb.unique, hdb.revoked⟩
    exact known_present hdb' (by simp [hpresents])
  cases request with
  | register body =>
    rcases body with _ | ⟨email, password⟩
    · exact relies_responding rfl
    · simp only [begin]
      split
      · split
        · trivial
        · exact relies_responding rfl
      · exact relies_responding rfl
  | login body =>
    rcases body with _ | ⟨email, password⟩
    · exact relies_responding rfl
    · simp only [begin]
      split
      · trivial
      · exact relies_responding rfl
  | me authorization | generateToken authorization | listTokens authorization =>
    exact relies_authorized fun token hbearer => hknown hbearer
  | logout authorization =>
    exact relies_authorized fun token hbearer => ⟨hknown hbearer, valid_present hheeded hbearer⟩
  | revokeToken authorization body =>
    simp only [begin]
    refine relies_authorized fun token hbearer => ?_
    cases body with
    | none => exact relies_responding rfl
    | some target =>
      cases htarget : given target with
      | none =>
        simp only [htarget]
        exact relies_responding rfl
      | some target' =>
        simp only [htarget]
        exact ⟨hknown hbearer, valid_present hheeded hbearer⟩

theorem relies_one (h : Relies db k) : ∀ k' ∈ ({k} : Multiset Call), Relies db k' := by
  intro k' hk'
  rwa [Multiset.mem_singleton.1 hk']

theorem CallStep.relies (h : CallStep env db k e db' ks') (hheeded : Heeded db k e)
    (hdb : db.Consistent) (hk : Relies db k) : ∀ k' ∈ ks', Relies db' k' := by
  have hgrows := h.grows
  cases h with
  | respond =>
    intro k' hk'
    cases Multiset.notMem_zero k' hk'
  | arrive => exact relies_one (relies_begin hdb hheeded)
  | fail | registerExists | loginUnknown | loginRefused | tokenUnknown | tokenExpired | meNoUser
  | logout | logoutNothing | revokeUnknown | revokeForbidden | revoke | revokeNothing =>
    exact relies_one (relies_responding rfl)
  | registerNew | tick => exact relies_one trivial
  | registerUser | login =>
    refine relies_one fun p hp => ?_
    cases hp
  | @tokenFound _ p row hrow =>
    obtain ⟨hmem, htoken⟩ := Db.findToken_eq_some hrow
    refine relies_one ⟨?_, hk.2 row hmem htoken⟩
    rw [← htoken]
    exact hdb.owned row hmem
  | @tokenValid handler p userId expiresAt hlive =>
    have hacts : ActsFor db p userId := by
      refine ⟨?_, hk.1⟩
      have harrived : p.arrivedAt ≤ db.now := hheeded
      simp only [Presented.valid, hk.2, Option.any_some, Bool.not_eq_true', decide_eq_false_iff_not]
      omega
    apply relies_one
    cases handler with
    | me | listTokens => exact hacts
    | generateToken =>
      rintro p' ⟨rfl⟩
      exact ⟨hacts, rfl⟩
  | meTouch => exact relies_one (ActsFor.grows hk hgrows)
  | meUser _ huser =>
    subst huser
    exact relies_one hk
  | @meUsage p user =>
    refine relies_one fun p' hp' _ => ?_
    cases hp'
    exact ⟨user.id, hk, rfl⟩
  | @revokeCurrent p token row hrow =>
    obtain ⟨hmem, htoken⟩ := Db.findToken_eq_some hrow
    refine relies_one ⟨hk.2 (hk.1.isSome_atArrival hrow), ?_⟩
    rw [← htoken]
    exact hdb.owned row hmem
  | @revokeTarget p token userId row hrow huser =>
    obtain ⟨hmem, rfl⟩ := Db.findToken_eq_some hrow
    subst huser
    exact relies_one ⟨row.userId, hk, hdb.owned row hmem⟩
  | @list p userId now =>
    refine relies_one fun p' hp' _ => ?_
    cases hp'
    refine ⟨userId, hk, fun info hinfo => ?_⟩
    obtain ⟨row, hrow, rfl⟩ := List.mem_map.1 hinfo
    obtain ⟨hmem, huser⟩ := List.mem_filter.1 ((List.mergeSort_perm _ _).mem_iff.1 hrow)
    rw [← of_decide_eq_true huser]
    exact hdb.owned row hmem
  | expire => exact relies_one hk
  | @issue authority userId expiresAt reply token _ hnew _ =>
    refine relies_one fun p hp _ => ?_
    obtain ⟨hacts, rfl⟩ := hk p hp
    exact ⟨userId, hacts.grows hgrows, Function.update_self ..⟩

/-- What a request does and answers is lawful if it has what it relies on. -/
theorem CallStep.lawful (h : CallStep env db k e db' ks') (hheeded : Heeded db k e)
    (hdb : db.Consistent) (hk : Relies db k) : Lawful db e := by
  cases h with
  | meTouch => exact ⟨hk.1, _, hk.2, hdb.rows_of_owner hk.2⟩
  | @logout p hthere =>
    obtain ⟨row, hrow⟩ := Option.isSome_iff_exists.1 hthere
    obtain ⟨hmem, htoken⟩ := Db.findToken_eq_some hrow
    have howner : db.owner p.token = some row.userId := htoken ▸ hdb.owned row hmem
    exact ⟨hk.2 (hk.1.isSome_atArrival hrow), row.userId, howner, hdb.rows_of_owner howner⟩
  | revoke =>
    obtain ⟨userId, hacts, howner⟩ := hk
    exact ⟨hacts.1, userId, hacts.2, hdb.rows_of_owner howner⟩
  | @issue authority userId expiresAt reply token _ _ _ =>
    cases authority with
    | none => trivial
    | some p =>
      obtain ⟨hacts, -⟩ := hk p rfl
      exact ⟨hacts.1, hacts.2, hdb.not_revoked hheeded⟩
  | @respond authority response =>
    cases authority with
    | none => trivial
    | some p =>
      intro hdata
      obtain ⟨userId, hacts, hconcerns⟩ := hk p rfl hdata
      exact ⟨hacts.1, userId, hacts.2, hconcerns⟩
  | _ => trivial

end Steps

/-! ## Every run -/

/-- The rows are consistent, and each request in progress has what it relies on. -/
def Inv (c : State) : Prop := c.shared.Consistent ∧ ∀ k ∈ c.calls, Relies c.shared k

theorem heededStep_inv {env : Env} {c c' : State} {l : Option Event}
    (hc : Inv c) (h : heededStep env c l c') : Inv c' := by
  refine Step.invariant (I := Db.Consistent) (J := Relies) ?_ ?_ ?_ h hc
  · rintro db k hstart -
    cases hstart <;> trivial
  · rintro db k e db' ks' ⟨hop, hheeded⟩ hdb hk
    exact ⟨hop.consistent hdb, hop.relies hheeded hdb hk⟩
  · rintro db k e db' ks' k' ⟨hop, -⟩ - hk'
    exact hk'.grows hop.grows

theorem inv_init (users : List UserRow) (usage : List UsageRow) (now : Int) :
    Inv (init users usage now) := by
  refine ⟨⟨?_, ?_, ?_⟩, ?_⟩ <;> simp [init]

/-- In a run whose steps are heeded each step is lawful. -/
theorem lawful_of_heeded {env : Env} {users : List UserRow} {usage : List UsageRow} {now : Int}
    {ls : List (Option Event)} {c c' : State} {e : Event}
    (hrun : Run (heededStep env) (init users usage now) ls c)
    (hstep : heededStep env c (some e) c') : Lawful c.shared e := by
  obtain ⟨hdb, hcalls⟩ := hrun.invariant (I := fun c : State => Inv c)
    (fun hc h => heededStep_inv hc h) (inv_init users usage now)
  obtain ⟨k, ks', ks, hks, ⟨hop, hheeded⟩, -⟩ := Step.exists_op hstep
  refine hop.lawful hheeded hdb (hcalls k ?_)
  rw [hks]
  exact Multiset.mem_cons_self ..

/-! ### Sessions of one user -/

private def plainEnv : Env where
  hashPassword := id
  dateOf := fun _ => []
  tokenExpiryDays := some 30

private def ada : UserRow := ⟨"u".toList, "ada@x.org".toList, "pw".toList, .free, 0⟩

/-- A generated token that ends in the digit. -/
private def tokenOf (digit : Char) : Str := "hsa_0123456789abcdef0123456789abcde".toList ++ [digit]

private def header (token : Str) : Option Str := some ("Bearer ".toList ++ token)

private def loginAda : Request := .login (some (some "ada@x.org".toList, some "pw".toList))

private def days30 : Int := 30 * 24 * 60 * 60

private def issued (token : Str) (now : Int) : TokenRow := ⟨token, ada.id, now + days30, now, none⟩

private def loginEvents (token : Str) (now : Int) : List (Option Event) :=
  [none, some (.arrive loginAda), some .other, some .other, some (.insert none (issued token now)),
    some (.respond none (.session ada.id ada.email .free token (now + days30)))]

/-- Ada logs in, beside the requests in progress, and is issued the token. -/
private theorem login_run (db : Db) (ks : Multiset Call) (token : Str) (hada : ada ∈ db.users)
    (htoken : isGenerated token = true) (hnew : db.owner token = none)
    (hsecret : token ∉ db.presented) :
    Run (heededStep plainEnv) ⟨db, ks⟩ (loginEvents token db.now)
      ⟨db.insertToken (issued token db.now), ks⟩ :=
  .cons (.start (.request loginAda)) <|
  .cons (.call ⟨.arrive, trivial⟩) <|
  .cons (.next ⟨.login hada rfl rfl, trivial⟩) <|
  .cons (.next ⟨.expire rfl, trivial⟩) <|
  .cons (.next ⟨.issue token htoken hnew hsecret, trivial⟩) <|
  .cons (.next ⟨.respond, trivial⟩) <| by
    rw [zero_add]
    exact .nil _

private def tokenA : Str := tokenOf '0'

private def tokenB : Str := tokenOf '1'

private def started : Db := (init [ada] [] 0).shared

private def withA : Db := started.insertToken (issued tokenA 0)

private def live : Presented := ⟨tokenA, some days30, 0⟩

private def generateA : Request := .generateToken (header tokenA)

/-- A request for another token on `tokenA` has passed its test and is about to insert. -/
private def inserting : State :=
  ⟨{ withA with presented := [tokenA] }, {.issuing (some live) ada.id days30 .generated}⟩

private def insertingEvents : List (Option Event) :=
  loginEvents tokenA 0 ++ [none, some (.arrive generateA), some .other, some .other, some .other]

private theorem inserting_run :
    Run (heededStep plainEnv) (init [ada] [] 0) insertingEvents inserting := by
  refine (login_run started 0 tokenA List.mem_cons_self (by decide +kernel) rfl
    List.not_mem_nil).append ?_
  have hfound : Db.findToken { withA with presented := [tokenA] } tokenA =
      some (issued tokenA 0) := by decide +kernel
  have hbegin : begin withA generateA = .reading .generateToken live := by decide +kernel
  have harrive : CallStep plainEnv withA (.arriving generateA) (.arrive generateA)
      { withA with presented := [tokenA] } {.reading .generateToken live} := by
    rw [← hbegin]
    exact .arrive
  exact .cons (.start (.request generateA)) <|
    .cons (.alone ⟨harrive, trivial⟩) <|
    .cons (.alone ⟨.tokenFound hfound, trivial⟩) <|
    .cons (.alone ⟨.tokenValid (by decide), (by decide : (0 : Int) ≤ 0)⟩) <|
    .cons (.alone ⟨.expire rfl, trivial⟩) <|
    .nil _

/-- The token is inserted while `tokenA` is there. -/
theorem lawful_of_heeded_generate :
    Lawful inserting.shared (.insert (some live) ⟨tokenB, ada.id, days30, 0, none⟩) :=
  lawful_of_heeded (e := .insert (some live) ⟨tokenB, ada.id, days30, 0, none⟩) inserting_run
    (Step.alone ⟨.issue tokenB (by decide +kernel) (by decide +kernel) (by decide +kernel),
      (by decide +kernel : (inserting.shared.findToken tokenA).isSome = true)⟩)

private theorem step_of_heeded {env : Env} {c c' : State} {l : Option Event}
    (h : heededStep env c l c') : step env c l c' := by
  cases h with
  | start hk => exact .start hk
  | call hop => exact .call hop.1

private def logoutA : Request := .logout (header tokenA)

private def answer : Call := .responding (some live) (.message "Logged out successfully".toList)

/-- `tokenA` is logged out before the request that has passed its test inserts. -/
private theorem loggedOut_run : Run (step plainEnv) (init [ada] [] 0)
    (insertingEvents ++ [none, some (.arrive logoutA), some (.delete live tokenA)])
    ⟨Db.deleteToken { withA with presented := [tokenA, tokenA] } tokenA,
      {answer} + {.issuing (some live) ada.id days30 .generated}⟩ := by
  refine (inserting_run.mono step_of_heeded).append ?_
  have hbegin : begin inserting.shared logoutA = .logout live := by decide +kernel
  have harrive : CallStep plainEnv inserting.shared (.arriving logoutA) (.arrive logoutA)
      { withA with presented := [tokenA, tokenA] } {.logout live} := by
    rw [← hbegin]
    exact .arrive
  exact .cons (.start (.request logoutA)) <|
    .cons (.call harrive) <|
    .cons (.next (.logout (by decide +kernel))) <|
    .nil _

private def stale : Presented := ⟨tokenA, some days30, days30 + 1⟩

private def withAB : Db :=
  { Db.insertToken { withA with now := 100 } (issued tokenB 100) with now := days30 + 1 }

private def revokeB : Request := .revokeToken (header tokenA) (some (some tokenB))

private def staleEvents : List (Option Event) :=
  [none] ++ loginEvents tokenA 0 ++ [some .other] ++ loginEvents tokenB 100 ++
    [some .other, none, some (.arrive revokeB), some .other, some .other]

/-- A request to revoke `tokenB` has got by with `tokenA`, which is past its `expires_at`. -/
private theorem stale_run : Run (step plainEnv) (init [ada] [] 0) staleEvents
    ⟨{ withAB with presented := [tokenA] }, {.revokeDeleting stale tokenB} + {.clock}⟩ := by
  have hstart : Run (step plainEnv) (init [ada] [] 0) [none] ⟨started, {.clock}⟩ :=
    .single (.start .clock)
  have hlogin := (login_run started {.clock} tokenA List.mem_cons_self (by decide +kernel) rfl
    List.not_mem_nil).mono step_of_heeded
  have htick : Run (step plainEnv) ⟨withA, {.clock}⟩ [some .other]
      ⟨{ withA with now := 100 }, {.clock}⟩ := .single (.alone (.tick 100))
  have hlogin' := (login_run { withA with now := 100 } {.clock} tokenB List.mem_cons_self
    (by decide +kernel) (by decide +kernel) List.not_mem_nil).mono step_of_heeded
  refine (((hstart.append hlogin).append htick).append hlogin').append ?_
  have hbegin : begin withAB revokeB = .revokeCurrent stale tokenB := by decide +kernel
  have harrive : CallStep plainEnv withAB (.arriving revokeB) (.arrive revokeB)
      { withAB with presented := [tokenA] } {.revokeCurrent stale tokenB} := by
    rw [← hbegin]
    exact .arrive
  have hcurrent : Db.findToken { withAB with presented := [tokenA] } tokenA =
      some (issued tokenA 0) := by decide +kernel
  have htarget : Db.findToken { withAB with presented := [tokenA] } tokenB =
      some (issued tokenB 100) := by decide +kernel
  exact .cons (.alone (.tick (days30 + 1))) <|
    .cons (.start (.request revokeB)) <|
    .cons (.call harrive) <|
    .cons (.next (.revokeCurrent hcurrent)) <|
    .cons (.next (.revokeTarget htarget rfl)) <|
    .nil _

/-- A token past its `expires_at` revokes another one, and a token that was logged out is the
authority for a new one. -/
theorem unlawful_delete_and_insert :
    (∃ ls c c' p token, Run (step plainEnv) (init [ada] [] 0) ls c ∧
      step plainEnv c (some (.delete p token)) c' ∧ p.valid = false) ∧
    ∃ ls c c' p row, Run (step plainEnv) (init [ada] [] 0) ls c ∧
      step plainEnv c (some (.insert (some p) row)) c' ∧ p.token ∈ c.shared.revoked := by
  refine ⟨⟨_, _, _, stale, tokenB, stale_run, .next (.revoke (by decide +kernel)),
    by decide +kernel⟩, ⟨_, _, _, live, ⟨tokenB, ada.id, days30, 0, none⟩, loggedOut_run,
    .beside {answer} (.issue tokenB (by decide +kernel) (by decide +kernel) (by decide +kernel))
      (add_comm _ _), List.mem_cons_self⟩⟩

end SheriMl.SheriAuth
