import SheriMl.NetworkProxy.Runtime

/-!
# Host policy and the decider

`evaluate_host_policy` of `network-proxy/src/network_policy.rs`: the verdict of
`host_blocked`, and a decider that may answer for it.
-/

namespace SheriMl.NetworkProxy

inductive NetworkProtocol where
  | http
  | httpsConnect
  | socks5Tcp
  | socks5Udp

inductive NetworkPolicyDecision where
  | deny
  | ask
  deriving DecidableEq

inductive NetworkDecisionSource where
  | baselinePolicy
  | modeGuard
  | proxyState
  | decider
  deriving DecidableEq

structure NetworkPolicyRequest where
  protocol : NetworkProtocol
  host : Str
  port : UInt16
  clientAddr : Option Str
  method : Option Str
  command : Option Str
  execPolicyHint : Option Str
  attemptId : Option Str

inductive NetworkDecision where
  | allow
  | deny (reason : Str) (source : NetworkDecisionSource) (decision : NetworkPolicyDecision)
  deriving DecidableEq

def NetworkDecision.denyWithSource (reason : Str) (source : NetworkDecisionSource) :
    NetworkDecision :=
  .deny (if reason.isEmpty then "policy_denied" else reason) source .deny

abbrev NetworkPolicyDecider := NetworkPolicyRequest → NetworkDecision

def mapDeciderDecision : NetworkDecision → NetworkDecision
  | .allow => .allow
  | .deny reason _ decision => .deny reason .decider decision

def answerHostPolicy (decider : Option NetworkPolicyDecider) (request : NetworkPolicyRequest) :
    HostBlockDecision → NetworkDecision
  | .allowed => .allow
  | .blocked .notAllowed =>
    match decider with
    | some decider => mapDeciderDecision (decider request)
    | none => .denyWithSource HostBlockReason.notAllowed.asStr .baselinePolicy
  | .blocked reason => .denyWithSource reason.asStr .baselinePolicy

def evaluateHostPolicy {ε : Type} (G : Glob.Engine) (maybeReload : Except ε (Option ConfigState))
    (lookupHost : LookupHost) (state : ConfigState) (decider : Option NetworkPolicyDecider)
    (request : NetworkPolicyRequest) : Except ε (NetworkDecision × ConfigState) := do
  let verdict ← hostBlocked G maybeReload lookupHost state request.host request.port
  return (answerHostPolicy decider request verdict.decision, verdict.state)

variable {decider : Option NetworkPolicyDecider} {request : NetworkPolicyRequest}
  {decision : HostBlockDecision} {reason : HostBlockReason}

theorem mapDeciderDecision_eq_allow {d : NetworkDecision} (h : mapDeciderDecision d = .allow) :
    d = .allow := by
  cases d with
  | allow => rfl
  | deny reason source decision => cases h

/-- No decider is asked about a denied or a local host. -/
theorem answerHostPolicy_blocked (hreason : reason ≠ .notAllowed) :
    answerHostPolicy decider request (.blocked reason) =
      .deny reason.asStr .baselinePolicy .deny := by
  cases reason with
  | denied => rfl
  | notAllowed => exact absurd rfl hreason
  | notAllowedLocal => rfl

theorem of_answerHostPolicy_eq_allow (h : answerHostPolicy decider request decision = .allow) :
    decision = .allowed ∨ decision = .blocked .notAllowed ∧
      ∃ d, decider = some d ∧ d request = .allow := by
  cases decision with
  | allowed => exact .inl rfl
  | blocked reason =>
    right
    by_cases hreason : reason = .notAllowed
    · subst hreason
      refine ⟨rfl, ?_⟩
      cases decider with
      | none => cases h
      | some d => exact ⟨d, rfl, mapDeciderDecision_eq_allow h⟩
    · rw [answerHostPolicy_blocked hreason] at h
      cases h

/-- Only an admitted host is allowed, and a decider allows only one that was not allowed. -/
theorem host_policy_safe {ε : Type} (G : Glob.Engine)
    (maybeReload : Except ε (Option ConfigState)) (lookupHost : LookupHost)
    (state : ConfigState) :
    (∀ host port verdict,
      hostBlocked G maybeReload lookupHost state host port = .ok verdict →
      verdict.decision = .allowed →
      ∃ parsed, Host.parse host = some parsed ∧
        Admitted G lookupHost verdict.state parsed port verdict.lookups) ∧
    (∀ decider request state',
      evaluateHostPolicy G maybeReload lookupHost state decider request = .ok (.allow, state') →
      ∃ verdict, hostBlocked G maybeReload lookupHost state request.host request.port =
          .ok verdict ∧
        (verdict.decision = .allowed ∨ verdict.decision = .blocked .notAllowed ∧
          ∃ d, decider = some d ∧ d request = .allow)) := by
  constructor
  · intro host port verdict h hallowed
    unfold hostBlocked at h
    obtain ⟨state', -, h⟩ := Result.exists_of_bind_eq_ok h
    cases h
    exact admitted_of_decideHost (Prod.ext hallowed rfl)
  · intro decider request state' h
    unfold evaluateHostPolicy at h
    obtain ⟨verdict, hblocked, h⟩ := Result.exists_of_bind_eq_ok h
    have hanswer := congrArg Prod.fst (Except.ok.inj h)
    exact ⟨verdict, hblocked, of_answerHostPolicy_eq_allow hanswer⟩

def subdomainState : ConfigState :=
  ⟨configAllowing ["*.example.com"], ⟨["?*.example.com"]⟩, ⟨[]⟩, constraintsAllowing [], [], 0⟩

def publicLookup : LookupHost := fun _ _ => some [.v4 (.ofOctets 8 8 8 8)]

def otherRequest : NetworkPolicyRequest :=
  ⟨.http, "other.org", 80, none, some "GET", none, none, none⟩

def allowAll : NetworkPolicyDecider := fun _ => .allow

theorem host_policy_safe_subdomain :
    (∃ parsed, Host.parse "API.example.com.:443" = some parsed ∧
      Admitted Glob.wildcards publicLookup subdomainState parsed 443
        [some [.v4 (.ofOctets 8 8 8 8)]]) ∧
    ∃ verdict, hostBlocked Glob.wildcards (.ok none : Except Str _) publicLookup subdomainState
        "other.org" 80 = .ok verdict ∧
      (verdict.decision = .allowed ∨ verdict.decision = .blocked .notAllowed ∧
        ∃ d, some allowAll = some d ∧ d otherRequest = .allow) := by
  have hsafe :=
    host_policy_safe Glob.wildcards (.ok none : Except Str _) publicLookup subdomainState
  refine ⟨?_, hsafe.2 (some allowAll) otherRequest subdomainState (by decide)⟩
  exact hsafe.1 "API.example.com.:443" 443
    ⟨.allowed, [some [.v4 (.ofOctets 8 8 8 8)]], subdomainState⟩ (by decide) rfl

end SheriMl.NetworkProxy
