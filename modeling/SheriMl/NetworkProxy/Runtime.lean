import SheriMl.NetworkProxy.Constraints

/-!
# Host verdicts

`network-proxy/src/runtime.rs`: the state behind the proxy, its reload, and
`host_blocked`. Name lookups are a parameter, and a verdict comes with the lookups
made for it. What a host must be to be allowed is `Admitted`.
-/

namespace SheriMl.NetworkProxy

open Ip (IpAddr)

inductive HostBlockReason where
  | denied
  | notAllowed
  | notAllowedLocal
  deriving DecidableEq

def HostBlockReason.asStr : HostBlockReason → Str
  | denied => "denied"
  | notAllowed => "not_allowed"
  | notAllowedLocal => "not_allowed_local"

inductive HostBlockDecision where
  | allowed
  | blocked (reason : HostBlockReason)
  deriving DecidableEq

structure BlockedRequest where
  host : Str
  reason : Str
  client : Option Str
  method : Option Str
  mode : Option NetworkMode
  protocol : Str
  attemptId : Option Str
  decision : Option Str
  source : Option Str
  port : Option UInt16
  timestamp : Int
  deriving DecidableEq

structure ConfigState where
  config : NetworkProxyConfig
  allowSet : Glob.GlobSet
  denySet : Glob.GlobSet
  constraints : NetworkProxyConstraints
  blocked : List BlockedRequest
  blockedTotal : UInt64
  deriving DecidableEq

def buildConfigState (G : Glob.Engine) (config : NetworkProxyConfig)
    (constraints : NetworkProxyConstraints) : Except GlobsetError ConfigState := do
  let denySet ← compileGlobset G config.network.deniedDomains
  let allowSet ← compileGlobset G config.network.allowedDomains
  return ⟨config, allowSet, denySet, constraints, [], 0⟩

/-- The reloader's new state with the telemetry of the old one. -/
def reloadIfNeeded {ε : Type} (maybeReload : Except ε (Option ConfigState)) (state : ConfigState) :
    Except ε ConfigState :=
  match maybeReload with
  | .error e => .error e
  | .ok none => .ok state
  | .ok (some newState) =>
    .ok { newState with blocked := state.blocked, blockedTotal := state.blockedTotal }

/-- `lookup_host` under the timeout; `none` is a failure or no answer in time. -/
abbrev LookupHost := Str → UInt16 → Option (List IpAddr)

/-- The outcomes of the lookups made. -/
abbrev Lookups := List (Option (List IpAddr))

def hostResolvesToNonPublicIp (lookupHost : LookupHost) (host : Str) (port : UInt16) :
    Bool × Lookups :=
  match Ip.parse host with
  | some ip => (isNonPublicIp ip, [])
  | none =>
    match lookupHost host port with
    | none => (false, [none])
    | some addrs => (addrs.any isNonPublicIp, [some addrs])

def isExplicitLocalAllowlisted (allowedDomains : List Str) (host : Host) : Bool :=
  allowedDomains.any fun pattern =>
    let pattern := Str.trim pattern
    if pattern = "*" ∨ Str.startsWith pattern "*." ∨ Str.startsWith pattern "**." then false
    else if '*' ∈ pattern ∨ '?' ∈ pattern then false
    else normalizeHost pattern = host.str

def isLocalLiteral (host : Host) : Bool :=
  if isLoopbackHost host then true
  else match Ip.parse (noScope host.str) with
    | some ip => isNonPublicIp ip
    | none => false

/-- The opt-in to local networking, with the lookup made. -/
def blockedAsLocal (lookupHost : LookupHost) (network : NetworkProxySettings) (host : Host)
    (port : UInt16) : Bool × Lookups :=
  if network.allowLocalBinding then (false, [])
  else if isLocalLiteral host then (!isExplicitLocalAllowlisted network.allowedDomains host, [])
  else hostResolvesToNonPublicIp lookupHost host.str port

/-- `host_blocked` on the state that it reads. -/
def ConfigState.decideHost (G : Glob.Engine) (lookupHost : LookupHost) (state : ConfigState)
    (host : Str) (port : UInt16) : HostBlockDecision × Lookups :=
  match Host.parse host with
  | none => (.blocked .notAllowed, [])
  | some host =>
    if state.denySet.isMatch G host.str then (.blocked .denied, [])
    else
      let isAllowlisted := state.allowSet.isMatch G host.str
      let (isLocal, lookups) := blockedAsLocal lookupHost state.config.network host port
      if isLocal then (.blocked .notAllowedLocal, lookups)
      else if state.config.network.allowedDomains.isEmpty || !isAllowlisted then
        (.blocked .notAllowed, lookups)
      else (.allowed, lookups)

structure HostBlocked where
  decision : HostBlockDecision
  lookups : Lookups
  state : ConfigState
  deriving DecidableEq

def hostBlocked {ε : Type} (G : Glob.Engine) (maybeReload : Except ε (Option ConfigState))
    (lookupHost : LookupHost) (state : ConfigState) (host : Str) (port : UInt16) :
    Except ε HostBlocked := do
  let state ← reloadIfNeeded maybeReload state
  let (decision, lookups) := state.decideHost G lookupHost host port
  return ⟨decision, lookups, state⟩

/-! ## Local literals -/

section Local

variable {host : Host} {allowedDomains : List Str} {ip : IpAddr}

theorem isNonPublicIp_of_isLoopback (h : ip.isLoopback = true) : isNonPublicIp ip = true := by
  cases ip with
  | v4 ip =>
    have hv4 : ip.isLoopback = true := h
    show isNonPublicIpv4 ip = true
    simp only [isNonPublicIpv4, hv4, Bool.true_or]
  | v6 ip =>
    have hv6 : ip.isLoopback = true := h
    show isNonPublicIpv6 ip = true
    unfold isNonPublicIpv6
    split
    · rw [hv6, Bool.or_true]
    · simp only [hv6, Bool.true_or]

/-- The loopback name, or the literal of an address that is not public. -/
def LocalLiteral (host : Host) : Prop :=
  noScope host.str = "localhost" ∨
    ∃ ip, Ip.parse (noScope host.str) = some ip ∧ isNonPublicIp ip = true

theorem match_eq_true (read : Option IpAddr) (test : IpAddr → Bool) :
    (match read with
      | some ip => test ip
      | none => false) = true ↔ ∃ ip, read = some ip ∧ test ip = true := by
  cases read with
  | none => simp
  | some ip => simp

theorem isLoopbackHost_iff : isLoopbackHost host = true ↔ noScope host.str = "localhost" ∨
    ∃ ip, Ip.parse (noScope host.str) = some ip ∧ ip.isLoopback = true := by
  unfold isLoopbackHost
  dsimp only
  split
  next hname => exact iff_of_true rfl (.inl hname)
  next hname =>
    rw [or_iff_right hname]
    exact match_eq_true _ _

theorem isLocalLiteral_iff : isLocalLiteral host = true ↔ LocalLiteral host := by
  unfold isLocalLiteral LocalLiteral
  split
  next hloop =>
    refine iff_of_true rfl ?_
    obtain hname | ⟨ip, hip, hloop⟩ := isLoopbackHost_iff.1 hloop
    · exact .inl hname
    · exact .inr ⟨ip, hip, isNonPublicIp_of_isLoopback hloop⟩
  next hloop =>
    have hname : noScope host.str ≠ "localhost" := by
      intro hname
      exact hloop (isLoopbackHost_iff.2 (.inl hname))
    rw [or_iff_right hname]
    exact match_eq_true _ _

/-- An allowed entry without wildcards is this host. -/
def ExplicitlyAllowed (allowedDomains : List Str) (host : Host) : Prop :=
  ∃ pattern ∈ allowedDomains, '*' ∉ Str.trim pattern ∧ '?' ∉ Str.trim pattern ∧
    normalizeHost (Str.trim pattern) = host.str

theorem explicitlyAllowed_of_isExplicit
    (h : isExplicitLocalAllowlisted allowedDomains host = true) :
    ExplicitlyAllowed allowedDomains host := by
  obtain ⟨pattern, hpattern, h⟩ := List.any_eq_true.1 h
  dsimp only at h
  split at h
  · cases h
  · split at h
    · cases h
    next hwild =>
      obtain ⟨hstar, hmark⟩ := not_or.1 hwild
      exact ⟨pattern, hpattern, hstar, hmark, of_decide_eq_true h⟩

end Local

/-! ## Admitted hosts -/

/-- What a host is that was allowed after these lookups. -/
structure Admitted (G : Glob.Engine) (lookupHost : LookupHost) (state : ConfigState) (host : Host)
    (port : UInt16) (lookups : Lookups) : Prop where
  notDenied : state.denySet.isMatch G host.str = false
  allowlisted : state.allowSet.isMatch G host.str = true
  allowedDomains_ne_nil : state.config.network.allowedDomains ≠ []
  globs_ne_nil : state.allowSet.globs ≠ []
  localLiteral : state.config.network.allowLocalBinding = false → LocalLiteral host →
    ExplicitlyAllowed state.config.network.allowedDomains host
  lookedUp : state.config.network.allowLocalBinding = false → ¬ LocalLiteral host →
    (∃ ip, Ip.parse host.str = some ip) ∨ lookups = [lookupHost host.str port]
  isPublic : ∀ addrs, some addrs ∈ lookups → ∀ ip ∈ addrs, isNonPublicIp ip = false

section Allowed

variable {G : Glob.Engine} {lookupHost : LookupHost} {state : ConfigState}
  {network : NetworkProxySettings} {input : Str} {host : Host} {port : UInt16} {lookups : Lookups}

theorem hostResolves_false
    (h : hostResolvesToNonPublicIp lookupHost host.str port = (false, lookups)) :
    ((∃ ip, Ip.parse host.str = some ip) ∨ lookups = [lookupHost host.str port]) ∧
      ∀ addrs, some addrs ∈ lookups → ∀ ip ∈ addrs, isNonPublicIp ip = false := by
  unfold hostResolvesToNonPublicIp at h
  split at h
  next ip hip =>
    obtain ⟨-, rfl⟩ := Prod.mk.inj h
    exact ⟨.inl ⟨ip, hip⟩, by simp⟩
  · split at h
    next hnone =>
      obtain ⟨-, rfl⟩ := Prod.mk.inj h
      exact ⟨.inr (by rw [hnone]), by simp⟩
    next addrs hsome =>
      obtain ⟨hany, rfl⟩ := Prod.mk.inj h
      refine ⟨.inr (by rw [hsome]), ?_⟩
      intro addrs' haddrs ip hip
      obtain rfl := Option.some.inj (List.mem_singleton.1 haddrs)
      exact Bool.eq_false_iff.2 (List.any_eq_false.1 hany ip hip)

theorem blockedAsLocal_false (h : blockedAsLocal lookupHost network host port = (false, lookups)) :
    (network.allowLocalBinding = false → LocalLiteral host →
      ExplicitlyAllowed network.allowedDomains host) ∧
    (network.allowLocalBinding = false → ¬ LocalLiteral host →
      (∃ ip, Ip.parse host.str = some ip) ∨ lookups = [lookupHost host.str port]) ∧
    ∀ addrs, some addrs ∈ lookups → ∀ ip ∈ addrs, isNonPublicIp ip = false := by
  unfold blockedAsLocal at h
  split at h
  next hbinding =>
    obtain ⟨-, rfl⟩ := Prod.mk.inj h
    rw [hbinding]
    exact ⟨by simp, by simp, by simp⟩
  · split at h
    next hlocal =>
      obtain ⟨hexplicit, rfl⟩ := Prod.mk.inj h
      have hallowed := explicitlyAllowed_of_isExplicit ((Bool.not_eq_false' _).mp hexplicit)
      exact ⟨fun _ _ => hallowed, fun _ hnot => absurd (isLocalLiteral_iff.1 hlocal) hnot, by simp⟩
    next hlocal =>
      obtain ⟨hlooked, hpublic⟩ := hostResolves_false h
      refine ⟨fun _ hlit => absurd (isLocalLiteral_iff.2 hlit) hlocal, fun _ _ => hlooked, hpublic⟩

theorem admitted_of_decideHost
    (h : state.decideHost G lookupHost input port = (.allowed, lookups)) :
    ∃ host, Host.parse input = some host ∧
      Admitted G lookupHost state host port lookups := by
  unfold ConfigState.decideHost at h
  cases hparse : Host.parse input with
  | none =>
    rw [hparse] at h
    cases h
  | some host =>
    rw [hparse] at h
    dsimp only at h
    refine ⟨host, rfl, ?_⟩
    split at h
    · cases h
    next hdeny =>
      cases hlocal : blockedAsLocal lookupHost state.config.network host port with
      | mk isLocal made =>
        rw [hlocal] at h
        dsimp only at h
        split at h
        · cases h
        next hfalse =>
          split at h
          · cases h
          next hallowed =>
            obtain ⟨-, rfl⟩ := Prod.mk.inj h
            obtain rfl := Bool.eq_false_iff.2 hfalse
            obtain ⟨hliteral, hlooked, hpublic⟩ := blockedAsLocal_false hlocal
            simp only [Bool.or_eq_true, Bool.not_eq_true', not_or, Bool.not_eq_false,
              List.isEmpty_iff] at hallowed
            have hglobs : state.allowSet.globs ≠ [] := by
              intro hnil
              have hmatch := hallowed.2
              rw [Glob.GlobSet.isMatch, hnil] at hmatch
              cases hmatch
            exact ⟨Bool.eq_false_iff.2 hdeny, hallowed.2, hallowed.1, hglobs, hliteral, hlooked,
              hpublic⟩

end Allowed

/-! ## Built states -/

/-- The sets are those of the lists. -/
structure ConfigState.Built (G : Glob.Engine) (state : ConfigState) : Prop where
  denySet : compileGlobset G state.config.network.deniedDomains = .ok state.denySet
  allowSet : compileGlobset G state.config.network.allowedDomains = .ok state.allowSet

section Built

variable {G : Glob.Engine} {lookupHost : LookupHost} {config : NetworkProxyConfig}
  {constraints : NetworkProxyConstraints} {state state' : ConfigState} {host : Host}
  {port : UInt16} {lookups : Lookups}

theorem built_of_buildConfigState (h : buildConfigState G config constraints = .ok state) :
    state.Built G := by
  unfold buildConfigState at h
  obtain ⟨denySet, hdeny, h⟩ := Result.exists_of_bind_eq_ok h
  obtain ⟨allowSet, hallow, h⟩ := Result.exists_of_bind_eq_ok h
  cases h
  exact ⟨hdeny, hallow⟩

/-- A reload keeps the sets those of the lists if the reloader does. -/
theorem built_of_reloadIfNeeded {ε : Type} {maybeReload : Except ε (Option ConfigState)}
    (hstate : state.Built G) (hnew : ∀ new, maybeReload = .ok (some new) → new.Built G)
    (h : reloadIfNeeded maybeReload state = .ok state') : state'.Built G := by
  unfold reloadIfNeeded at h
  split at h
  · cases h
  · cases h
    exact hstate
  next new =>
    cases h
    have hbuilt := hnew new rfl
    exact ⟨hbuilt.denySet, hbuilt.allowSet⟩

end Built

end SheriMl.NetworkProxy
