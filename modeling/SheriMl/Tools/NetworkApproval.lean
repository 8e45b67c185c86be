import Mathlib.Data.Finset.Insert
import Mathlib.Data.List.AList
import SheriMl.ExecPolicy.Approval
import SheriMl.Lib.Pool
import SheriMl.NetworkProxy.NetworkPolicy

/-!
# Network approvals

`NetworkApprovalService` of `core/src/tools/network_approval.rs`. An attempt is an object that the
service hands out references to (`Arc`); a reference outlives the attempt's registration. Every
section under a mutex is one step of a call (`CallStep`), and any number of calls are under way.
The turn table and the prompt belong to the session: whether the turn is still active and what the
user answers are open.
-/

namespace SheriMl.NetworkApproval

open NetworkProxy (BlockedRequest NetworkDecision NetworkPolicyDecision NetworkPolicyRequest
  NetworkProtocol)
open ExecPolicy (ExecPolicyAmendment)
open Pool Transition

/-- The user's answer to a prompt. -/
inductive ReviewDecision where
  | approved
  | approvedExecpolicyAmendment (proposedExecpolicyAmendment : ExecPolicyAmendment)
  | approvedForSession
  | denied
  | abort

namespace ReviewDecision

/-- The answers that approve the host for the attempt asked about. -/
def ApprovesAttempt : ReviewDecision → Prop
  | approved | approvedExecpolicyAmendment _ => True
  | approvedForSession | denied | abort => False

def Denies : ReviewDecision → Prop
  | denied | abort => True
  | approved | approvedExecpolicyAmendment _ | approvedForSession => False

end ReviewDecision

inductive NetworkApprovalOutcome where
  | deniedByUser
  | deniedByPolicy (message : Str)
  deriving DecidableEq

structure NetworkApprovalAttempt where
  turnId : Str
  callId : Str
  command : List Str
  cwd : Str
  approvedHosts : Finset Str
  outcome : Option NetworkApprovalOutcome

abbrev AttemptRef := Nat

structure NetworkApprovalService where
  attempts : AList fun _ : Str => AttemptRef
  sessionApprovedHosts : Finset Str
  /-- What the references refer to. -/
  objects : List NetworkApprovalAttempt

/-! ## The texts -/

/-- `parse_network_policy_decision`. -/
def parseNetworkPolicyDecision (value : Str) : Option NetworkPolicyDecision :=
  if value = "deny" then some .deny
  else if value = "ask" then some .ask
  else none

def deniedDetail (reason : Str) : Str :=
  if reason = "denied" then
    "domain is explicitly denied by policy and cannot be approved from this prompt"
  else if reason = "not_allowed" then
    "domain is not on the allowlist for the current sandbox mode"
  else if reason = "not_allowed_local" then
    "local/private network addresses are blocked by policy"
  else if reason = "method_not_allowed" then
    "request method is blocked by the current network mode"
  else if reason = "proxy_disabled" then "managed network proxy is disabled"
  else "request is blocked by network policy"

/-- `denied_network_policy_message`. -/
def deniedNetworkPolicyMessage (blocked : BlockedRequest) : Option Str :=
  if blocked.decision.bind parseNetworkPolicyDecision ≠ some .deny then none
  else
    let host := Str.trim blocked.host
    if host.isEmpty then some "Network access was blocked by policy."
    else some ("Network access to \"" ++ host ++ "\" was blocked: " ++
      deniedDetail blocked.reason ++ ".")

inductive NetworkApprovalProtocol where
  | http
  | https
  | socks5Tcp
  | socks5Udp

def approvalProtocol : NetworkProtocol → NetworkApprovalProtocol
  | .http => .http
  | .httpsConnect => .https
  | .socks5Tcp => .socks5Tcp
  | .socks5Udp => .socks5Udp

/-- What `request_command_approval` shows the user. -/
structure CommandApproval where
  callId : Str
  command : List Str
  cwd : Str
  reason : Str
  host : Str
  protocol : NetworkApprovalProtocol

def commandApproval (attempt : NetworkApprovalAttempt) (request : NetworkPolicyRequest) :
    CommandApproval where
  callId := attempt.callId
  command := attempt.command
  cwd := attempt.cwd
  reason := "Network access to \"" ++ request.host ++ "\" is blocked by policy."
  host := request.host
  protocol := approvalProtocol request.protocol

/-! ## The sections under a mutex -/

namespace NetworkApprovalService

/-- `NetworkApprovalService::default`. -/
def empty : NetworkApprovalService := ⟨∅, ∅, []⟩

def registerAttempt (s : NetworkApprovalService) (attemptId turnId callId : Str)
    (command : List Str) (cwd : Str) : NetworkApprovalService :=
  { s with
    attempts := s.attempts.insert attemptId s.objects.length
    objects := s.objects ++ [⟨turnId, callId, command, cwd, ∅, none⟩] }

def unregisterAttempt (s : NetworkApprovalService) (attemptId : Str) : NetworkApprovalService :=
  { s with attempts := s.attempts.erase attemptId }

/-- `resolve_attempt_for_request` and `resolve_attempt_for_blocked_request`: the attempt named,
or the only one there is. -/
def resolveAttempt (s : NetworkApprovalService) : Option Str → Option AttemptRef
  | some attemptId => s.attempts.lookup attemptId
  | none =>
    match s.attempts.entries with
    | [entry] => some entry.2
    | _ => none

def update (s : NetworkApprovalService) (attempt : AttemptRef)
    (f : NetworkApprovalAttempt → NetworkApprovalAttempt) : NetworkApprovalService :=
  { s with objects := s.objects.modify attempt f }

/-- Whether `host` is approved for the attempt. -/
def isApproved (s : NetworkApprovalService) (attempt : AttemptRef) (host : Str) : Bool :=
  s.objects[attempt]?.any fun object => host ∈ object.approvedHosts

def outcome (s : NetworkApprovalService) (attempt : AttemptRef) : Option NetworkApprovalOutcome :=
  s.objects[attempt]?.bind (·.outcome)

def setOutcome (s : NetworkApprovalService) (attempt : AttemptRef)
    (outcome : Option NetworkApprovalOutcome) : NetworkApprovalService :=
  s.update attempt fun object => { object with outcome }

/-- The last section of `record_blocked_request`: a user's denial stays. -/
def recordPolicyDenial (s : NetworkApprovalService) (attempt : AttemptRef) (message : Str) :
    NetworkApprovalService :=
  if s.outcome attempt = some .deniedByUser then s
  else s.setOutcome attempt (some (.deniedByPolicy message))

/-- The last section of `handle_inline_policy_request`, for each answer. -/
def recordAnswer (s : NetworkApprovalService) (attempt : AttemptRef) (host : Str) :
    ReviewDecision → NetworkApprovalService × NetworkDecision
  | .approved | .approvedExecpolicyAmendment _ =>
    (s.update attempt fun object =>
      { object with approvedHosts := insert host object.approvedHosts }, .allow)
  | .approvedForSession =>
    ({ s with sessionApprovedHosts := insert host s.sessionApprovedHosts }, .allow)
  | .denied | .abort =>
    (s.setOutcome attempt (some .deniedByUser), .denyWithSource "not_allowed" .decider)

end NetworkApprovalService

/-! ## Calls -/

/-- A call in progress, by what it does next. -/
inductive Call where
  | registering (attemptId turnId callId : Str) (command : List Str) (cwd : Str)
  | unregistering (attemptId : Str)
  /-- `handle_inline_policy_request`: the check of the session's hosts. -/
  | requested (request : NetworkPolicyRequest)
  | resolving (request : NetworkPolicyRequest)
  /-- The check of the attempt's hosts. -/
  | checking (request : NetworkPolicyRequest) (attempt : AttemptRef)
  | findingTurn (request : NetworkPolicyRequest) (attempt : AttemptRef)
  | prompting (request : NetworkPolicyRequest) (attempt : AttemptRef)
  | recording (request : NetworkPolicyRequest) (attempt : AttemptRef) (answer : ReviewDecision)
  /-- `record_blocked_request`. -/
  | blocked (blocked : BlockedRequest)
  | recordingBlocked (attempt : AttemptRef) (message : Str)
  /-- `take_outcome`. -/
  | taking (attemptId : Str)
  | takingFrom (attempt : AttemptRef)
  /-- `take_user_denial_outcome`. -/
  | takingUserDenial (attemptId : Str)
  | takingUserDenialFrom (attempt : AttemptRef)

/-- The calls as they begin. -/
inductive Call.Start : Call → Prop
  | register (attemptId turnId callId : Str) (command : List Str) (cwd : Str) :
      Start (.registering attemptId turnId callId command cwd)
  | unregister (attemptId : Str) : Start (.unregistering attemptId)
  | request (request : NetworkPolicyRequest) : Start (.requested request)
  | blocked (blocked : BlockedRequest) : Start (.blocked blocked)
  | take (attemptId : Str) : Start (.taking attemptId)
  | takeUserDenial (attemptId : Str) : Start (.takingUserDenial attemptId)

/-- What a step shows to the outside. -/
inductive Event where
  | asked (prompt : CommandApproval)
  /-- The user answers the prompt for a request of an attempt. -/
  | answered (request : NetworkPolicyRequest) (attempt : AttemptRef) (answer : ReviewDecision)
  /-- A request is decided; `answer` is the user's answer that decided it. -/
  | decided (request : NetworkPolicyRequest) (attempt : Option AttemptRef)
      (answer : Option ReviewDecision) (decision : NetworkDecision)
  /-- The outcome of an attempt is taken. -/
  | taken (attempt : AttemptRef) (outcome : Option NetworkApprovalOutcome)
  | other

open NetworkApprovalService in
inductive CallStep :
    NetworkApprovalService → Call → Event → NetworkApprovalService → Multiset Call → Prop
  | register {s attemptId turnId callId command cwd} :
      CallStep s (.registering attemptId turnId callId command cwd) .other
        (s.registerAttempt attemptId turnId callId command cwd) 0
  | unregister {s attemptId} :
      CallStep s (.unregistering attemptId) .other (s.unregisterAttempt attemptId) 0
  | sessionApproved {s request} : request.host ∈ s.sessionApprovedHosts →
      CallStep s (.requested request) (.decided request none none .allow) s 0
  | sessionNotApproved {s request} : request.host ∉ s.sessionApprovedHosts →
      CallStep s (.requested request) .other s {.resolving request}
  | unresolved {s request} : s.resolveAttempt request.attemptId = none →
      CallStep s (.resolving request)
        (.decided request none none (.denyWithSource "not_allowed" .decider)) s 0
  | resolved {s request attempt} : s.resolveAttempt request.attemptId = some attempt →
      CallStep s (.resolving request) .other s {.checking request attempt}
  | attemptApproved {s request attempt} : s.isApproved attempt request.host = true →
      CallStep s (.checking request attempt) (.decided request (some attempt) none .allow) s 0
  | attemptNotApproved {s request attempt} : s.isApproved attempt request.host = false →
      CallStep s (.checking request attempt) .other s {.findingTurn request attempt}
  -- `turn_context_for_sub_id` finds no such turn
  | turnGone {s request attempt} :
      CallStep s (.findingTurn request attempt)
        (.decided request (some attempt) none (.denyWithSource "not_allowed" .decider)) s 0
  | prompt {s request attempt object} : s.objects[attempt]? = some object →
      CallStep s (.findingTurn request attempt) (.asked (commandApproval object request)) s
        {.prompting request attempt}
  | answer {s request attempt answer} :
      CallStep s (.prompting request attempt) (.answered request attempt answer) s
        {.recording request attempt answer}
  | record {s request attempt answer} :
      CallStep s (.recording request attempt answer)
        (.decided request (some attempt) (some answer)
          (s.recordAnswer attempt request.host answer).2)
        (s.recordAnswer attempt request.host answer).1 0
  | noMessage {s blocked} : deniedNetworkPolicyMessage blocked = none →
      CallStep s (.blocked blocked) .other s 0
  | unresolvedBlocked {s blocked} : s.resolveAttempt blocked.attemptId = none →
      CallStep s (.blocked blocked) .other s 0
  | resolvedBlocked {s blocked message attempt} :
      deniedNetworkPolicyMessage blocked = some message →
      s.resolveAttempt blocked.attemptId = some attempt →
      CallStep s (.blocked blocked) .other s {.recordingBlocked attempt message}
  | recordBlocked {s attempt message} :
      CallStep s (.recordingBlocked attempt message) .other (s.recordPolicyDenial attempt message) 0
  | takeUnknown {s attemptId} : s.attempts.lookup attemptId = none →
      CallStep s (.taking attemptId) .other s 0
  | takeFound {s attemptId attempt} : s.attempts.lookup attemptId = some attempt →
      CallStep s (.taking attemptId) .other s {.takingFrom attempt}
  | take {s attempt} :
      CallStep s (.takingFrom attempt) (.taken attempt (s.outcome attempt))
        (s.setOutcome attempt none) 0
  | takeUserDenialUnknown {s attemptId} : s.attempts.lookup attemptId = none →
      CallStep s (.takingUserDenial attemptId) .other s 0
  | takeUserDenialFound {s attemptId attempt} : s.attempts.lookup attemptId = some attempt →
      CallStep s (.takingUserDenial attemptId) .other s {.takingUserDenialFrom attempt}
  | takeUserDenial {s attempt} : s.outcome attempt = some .deniedByUser →
      CallStep s (.takingUserDenialFrom attempt) (.taken attempt (some .deniedByUser))
        (s.setOutcome attempt none) 0
  | leaveOutcome {s attempt} : s.outcome attempt ≠ some .deniedByUser →
      CallStep s (.takingUserDenialFrom attempt) .other s 0
  -- the task that made the call is dropped
  | dropped {s call} : CallStep s call .other s 0

abbrev State := Config NetworkApprovalService Call

def step : State → Option Event → State → Prop := Step Call.Start CallStep

def init : State := ⟨.empty, 0⟩

/-! ## What the sections do -/

namespace NetworkApprovalService

variable {s : NetworkApprovalService} {attempt b : AttemptRef} {host h : Str}

@[simp] theorem length_update (f : NetworkApprovalAttempt → NetworkApprovalAttempt) :
    (s.update attempt f).objects.length = s.objects.length := by
  simp [update]

@[simp] theorem length_setOutcome (o : Option NetworkApprovalOutcome) :
    (s.setOutcome attempt o).objects.length = s.objects.length :=
  length_update _

theorem getElem?_update (f : NetworkApprovalAttempt → NetworkApprovalAttempt) :
    (s.update attempt f).objects[b]? =
      if attempt = b then s.objects[b]?.map f else s.objects[b]? := by
  simp only [update, List.getElem?_modify]
  split <;> simp

theorem outcome_setOutcome (ha : attempt < s.objects.length) (o : Option NetworkApprovalOutcome) :
    (s.setOutcome attempt o).outcome b = if attempt = b then o else s.outcome b := by
  rw [outcome, setOutcome, getElem?_update]
  split
  · next hab =>
    subst hab
    simp [ha]
  · rfl

@[simp] theorem isApproved_setOutcome (o : Option NetworkApprovalOutcome) :
    (s.setOutcome attempt o).isApproved b h = s.isApproved b h := by
  rw [isApproved, setOutcome, getElem?_update]
  split
  · simp [isApproved, Option.any_map]
  · rfl

theorem isApproved_update_insert
    (hb : (s.update attempt fun object =>
      { object with approvedHosts := insert host object.approvedHosts }).isApproved b h = true) :
    (attempt = b ∧ h = host) ∨ s.isApproved b h = true := by
  rw [isApproved, getElem?_update] at hb
  split at hb
  · next hab =>
    rw [Option.any_map, Option.any_eq_true] at hb
    obtain ⟨object, hobject, hmem⟩ := hb
    obtain rfl | hmem := Finset.mem_insert.1 (of_decide_eq_true hmem)
    · exact .inl ⟨hab, rfl⟩
    · exact .inr (Option.any_eq_true _ _ |>.2 ⟨object, hobject, decide_eq_true hmem⟩)
  · exact .inr hb

@[simp] theorem outcome_registerAttempt {attemptId turnId callId cwd : Str} {command : List Str} :
    (s.registerAttempt attemptId turnId callId command cwd).outcome b = s.outcome b := by
  obtain hb | hb := Nat.lt_or_ge b s.objects.length
  · simp [outcome, registerAttempt, List.getElem?_append_left hb]
  · rw [outcome, registerAttempt, List.getElem?_append_right hb, outcome,
      List.getElem?_eq_none hb]
    cases b - s.objects.length <;> rfl

/-- A new attempt starts without approved hosts. -/
@[simp] theorem isApproved_registerAttempt {attemptId turnId callId cwd : Str}
    {command : List Str} :
    (s.registerAttempt attemptId turnId callId command cwd).isApproved b h =
      s.isApproved b h := by
  obtain hb | hb := Nat.lt_or_ge b s.objects.length
  · simp [isApproved, registerAttempt, List.getElem?_append_left hb]
  · rw [isApproved, registerAttempt, List.getElem?_append_right hb, isApproved,
      List.getElem?_eq_none hb]
    cases b - s.objects.length <;> simp

/-- Every reference that the table hands out refers to an attempt. -/
def Referring (s : NetworkApprovalService) : Prop :=
  ∀ entry ∈ s.attempts.entries, entry.2 < s.objects.length

theorem Referring.lookup (hs : s.Referring) {attemptId : Str}
    (hlookup : s.attempts.lookup attemptId = some attempt) : attempt < s.objects.length :=
  hs _ (AList.mem_lookup_iff.1 hlookup)

theorem Referring.resolveAttempt (hs : s.Referring) {attemptId : Option Str}
    (hresolve : s.resolveAttempt attemptId = some attempt) : attempt < s.objects.length := by
  cases attemptId with
  | some attemptId => exact hs.lookup hresolve
  | none =>
    rw [NetworkApprovalService.resolveAttempt] at hresolve
    split at hresolve
    · next entry hentries =>
      cases hresolve
      exact hs entry (by simp [hentries])
    · cases hresolve

theorem Referring.registerAttempt (hs : s.Referring) {attemptId turnId callId cwd : Str}
    {command : List Str} : (s.registerAttempt attemptId turnId callId command cwd).Referring := by
  intro entry hentry
  have hlength : (s.registerAttempt attemptId turnId callId command cwd).objects.length =
      s.objects.length + 1 := List.length_append
  rw [hlength]
  rw [NetworkApprovalService.registerAttempt, AList.entries_insert] at hentry
  obtain rfl | hentry := List.mem_cons.1 hentry
  · exact Nat.lt_succ_self _
  · exact Nat.lt_succ_of_lt (hs entry ((List.kerase_sublist _ _).subset hentry))

theorem Referring.unregisterAttempt (hs : s.Referring) {attemptId : Str} :
    (s.unregisterAttempt attemptId).Referring :=
  fun entry hentry => hs entry ((List.kerase_sublist _ _).subset hentry)

theorem Referring.update (hs : s.Referring)
    {f : NetworkApprovalAttempt → NetworkApprovalAttempt} : (s.update attempt f).Referring := by
  intro entry hentry
  rw [length_update]
  exact hs entry hentry

end NetworkApprovalService

/-! ## What the past accounts for -/

/-- The user has approved the host for the session. -/
def ApprovedForSession (past : List (Option Event)) (host : Str) : Prop :=
  ∃ request attempt, request.host = host ∧
    some (.answered request attempt .approvedForSession) ∈ past

/-- The user has approved the host for the attempt. -/
def ApprovedForAttempt (past : List (Option Event)) (attempt : AttemptRef) (host : Str) : Prop :=
  ∃ request answer, request.host = host ∧ answer.ApprovesAttempt ∧
    some (.answered request attempt answer) ∈ past

/-- The user has denied a host for the attempt. -/
def DeniedForAttempt (past : List (Option Event)) (attempt : AttemptRef) : Prop :=
  ∃ request answer, answer.Denies ∧ some (.answered request attempt answer) ∈ past

section

variable {past : List (Option Event)} {l : Option Event} {host : Str} {attempt : AttemptRef}

theorem ApprovedForSession.mono (h : ApprovedForSession past host) :
    ApprovedForSession (past ++ [l]) host := by
  obtain ⟨request, attempt, hhost, hmem⟩ := h
  exact ⟨request, attempt, hhost, List.mem_append_left _ hmem⟩

theorem ApprovedForAttempt.mono (h : ApprovedForAttempt past attempt host) :
    ApprovedForAttempt (past ++ [l]) attempt host := by
  obtain ⟨request, answer, hhost, hanswer, hmem⟩ := h
  exact ⟨request, answer, hhost, hanswer, List.mem_append_left _ hmem⟩

theorem DeniedForAttempt.mono (h : DeniedForAttempt past attempt) :
    DeniedForAttempt (past ++ [l]) attempt := by
  obtain ⟨request, answer, hanswer, hmem⟩ := h
  exact ⟨request, answer, hanswer, List.mem_append_left _ hmem⟩

end

/-- What the service has recorded comes from answers of the user. -/
structure Accounted (past : List (Option Event)) (s : NetworkApprovalService) : Prop where
  refs : s.Referring
  session : ∀ host ∈ s.sessionApprovedHosts, ApprovedForSession past host
  attempts : ∀ attempt host, s.isApproved attempt host = true →
    ApprovedForAttempt past attempt host
  denials : ∀ attempt, s.outcome attempt = some .deniedByUser → DeniedForAttempt past attempt

/-- The attempt that a call has a reference to. -/
def Call.attempt : Call → Option AttemptRef
  | .checking _ attempt | .findingTurn _ attempt | .prompting _ attempt | .recording _ attempt _
  | .recordingBlocked attempt _ | .takingFrom attempt | .takingUserDenialFrom attempt =>
    some attempt
  | .registering .. | .unregistering _ | .requested _ | .resolving _ | .blocked _ | .taking _
  | .takingUserDenial _ => none

/-- A call's reference refers to an attempt, and the answer it carries is the user's. -/
structure Call.Accounted (past : List (Option Event)) (s : NetworkApprovalService) (k : Call) :
    Prop where
  ref : ∀ attempt, k.attempt = some attempt → attempt < s.objects.length
  answer : ∀ request attempt answer, k = .recording request attempt answer →
    some (.answered request attempt answer) ∈ past

section

variable {past : List (Option Event)} {l : Option Event} {s s' : NetworkApprovalService}
  {k : Call} {e : Event} {ks : Multiset Call}

/-- No section takes an attempt away. -/
theorem CallStep.length_le (h : CallStep s k e s' ks) :
    s.objects.length ≤ s'.objects.length := by
  cases h with
  | register => simp [NetworkApprovalService.registerAttempt]
  | @record _ _ answer => cases answer <;> simp [NetworkApprovalService.recordAnswer]
  | recordBlocked =>
    rw [NetworkApprovalService.recordPolicyDenial]
    split <;> simp
  | take => simp
  | takeUserDenial => simp
  | _ => exact le_rfl

theorem Call.Accounted.mono (h : k.Accounted past s)
    (hle : s.objects.length ≤ s'.objects.length) : k.Accounted (past ++ [l]) s' :=
  ⟨fun attempt hattempt => Nat.lt_of_lt_of_le (h.ref attempt hattempt) hle,
    fun request attempt answer hk => List.mem_append_left _ (h.answer request attempt answer hk)⟩

theorem Accounted.mono (h : Accounted past s) : Accounted (past ++ [l]) s :=
  ⟨h.refs, fun host hhost => (h.session host hhost).mono,
    fun attempt host hhost => (h.attempts attempt host hhost).mono,
    fun attempt hdenied => (h.denials attempt hdenied).mono⟩

theorem Accounted.recordAnswer (h : Accounted past s) {request : NetworkPolicyRequest}
    {attempt : AttemptRef} {answer : ReviewDecision} (ha : attempt < s.objects.length)
    (hmem : some (.answered request attempt answer) ∈ past) :
    Accounted past (s.recordAnswer attempt request.host answer).1 := by
  have happrove (hanswer : answer.ApprovesAttempt) : Accounted past
      (s.update attempt fun object =>
        { object with approvedHosts := insert request.host object.approvedHosts }) := by
    refine ⟨h.refs.update, h.session, fun b host hb => ?_, fun b hb => ?_⟩
    · obtain ⟨rfl, rfl⟩ | hb := NetworkApprovalService.isApproved_update_insert hb
      · exact ⟨request, answer, rfl, hanswer, hmem⟩
      · exact h.attempts b host hb
    · refine h.denials b ?_
      rw [NetworkApprovalService.outcome, NetworkApprovalService.getElem?_update] at hb
      split at hb
      · rw [Option.bind_map] at hb
        exact hb
      · exact hb
  have hdeny (hanswer : answer.Denies) :
      Accounted past (s.setOutcome attempt (some .deniedByUser)) := by
    refine ⟨h.refs.update, h.session, fun b host hb => ?_, fun b hb => ?_⟩
    · rw [NetworkApprovalService.isApproved_setOutcome] at hb
      exact h.attempts b host hb
    · rw [NetworkApprovalService.outcome_setOutcome ha] at hb
      split at hb
      · next hab =>
        subst hab
        exact ⟨request, answer, hanswer, hmem⟩
      · exact h.denials b hb
  cases answer with
  | approved => exact happrove trivial
  | approvedExecpolicyAmendment => exact happrove trivial
  | approvedForSession =>
    refine ⟨h.refs, fun host hhost => ?_, h.attempts, h.denials⟩
    obtain rfl | hhost := Finset.mem_insert.1 hhost
    · exact ⟨request, attempt, rfl, hmem⟩
    · exact h.session host hhost
  | denied => exact hdeny trivial
  | abort => exact hdeny trivial

theorem Accounted.setOutcome (h : Accounted past s) {attempt : AttemptRef}
    {o : Option NetworkApprovalOutcome} (ha : attempt < s.objects.length)
    (ho : o ≠ some .deniedByUser) : Accounted past (s.setOutcome attempt o) := by
  refine ⟨h.refs.update, h.session, fun b host hb => ?_, fun b hb => ?_⟩
  · rw [NetworkApprovalService.isApproved_setOutcome] at hb
    exact h.attempts b host hb
  · rw [NetworkApprovalService.outcome_setOutcome ha] at hb
    split at hb
    · exact absurd hb ho
    · exact h.denials b hb

/-- What a section does to the record. -/
theorem Accounted.callStep (h : Accounted past s) (hk : k.Accounted past s)
    (hstep : CallStep s k e s' ks) : Accounted (past ++ [some e]) s' := by
  refine Accounted.mono ?_
  cases hstep with
  | register =>
    exact ⟨h.refs.registerAttempt, h.session, fun b host hb =>
        h.attempts b host (NetworkApprovalService.isApproved_registerAttempt.symm.trans hb),
      fun b hb => h.denials b (NetworkApprovalService.outcome_registerAttempt.symm.trans hb)⟩
  | unregister => exact ⟨h.refs.unregisterAttempt, h.session, h.attempts, h.denials⟩
  | record => exact h.recordAnswer (hk.ref _ rfl) (hk.answer _ _ _ rfl)
  | recordBlocked =>
    rw [NetworkApprovalService.recordPolicyDenial]
    split
    · exact h
    · exact h.setOutcome (hk.ref _ rfl) (by simp)
  | take | takeUserDenial => exact h.setOutcome (hk.ref _ rfl) (by simp)
  | _ => exact h

theorem CallStep.accounted (hstep : CallStep s k e s' ks) (h : Accounted past s)
    (hk : k.Accounted past s) : ∀ k' ∈ ks, k'.Accounted (past ++ [some e]) s' := by
  intro k' hk'
  have hsame : ∀ attempt, k.attempt = some attempt → attempt < s'.objects.length :=
    fun attempt ha => Nat.lt_of_lt_of_le (hk.ref attempt ha) hstep.length_le
  cases hstep <;> simp only [Multiset.notMem_zero, Multiset.mem_singleton] at hk' <;> subst hk'
  case resolved request attempt hresolve =>
    refine ⟨fun a ha => ?_, fun _ _ _ hk => by cases hk⟩
    cases ha
    exact h.refs.resolveAttempt hresolve
  case resolvedBlocked hresolve =>
    refine ⟨fun a ha => ?_, fun _ _ _ hk => by cases hk⟩
    cases ha
    exact h.refs.resolveAttempt hresolve
  case takeFound hlookup =>
    refine ⟨fun a ha => ?_, fun _ _ _ hk => by cases hk⟩
    cases ha
    exact h.refs.lookup hlookup
  case takeUserDenialFound hlookup =>
    refine ⟨fun a ha => ?_, fun _ _ _ hk => by cases hk⟩
    cases ha
    exact h.refs.lookup hlookup
  case answer =>
    refine ⟨hsame, fun _ _ _ hk => ?_⟩
    cases hk
    exact List.mem_append_right _ List.mem_cons_self
  all_goals exact ⟨hsame, fun _ _ _ hk => by cases hk⟩

end

theorem accounted_init : Accounted [] init.shared where
  refs := fun _ hentry => by cases hentry
  session := fun _ hhost => absurd hhost (Finset.notMem_empty _)
  attempts := fun _ _ h => by cases h
  denials := fun _ h => by cases h

/-- In every state reached the past accounts for the service and for the calls. -/
theorem accounted_of_run {ls : List (Option Event)} {c : State} (h : Run step init ls c) :
    Accounted ls c.shared ∧ ∀ k ∈ c.calls, k.Accounted ls c.shared := by
  have hstart {past : List (Option Event)} {s : NetworkApprovalService} {k : Call}
      (hk : Call.Start k) (hs : Accounted past s) :
      Accounted (past ++ [none]) s ∧ k.Accounted (past ++ [none]) s := by
    refine ⟨hs.mono, fun attempt hattempt => ?_, fun _ _ _ hrecord => ?_⟩
    · cases hk <;> cases hattempt
    · cases hk <;> cases hrecord
  exact h.history
    (I := fun past c => Accounted past c.shared ∧ ∀ k ∈ c.calls, k.Accounted past c.shared)
    (fun hc hstep => Step.history hstart (fun hk => hk.mono le_rfl)
      (fun hstep hs hk => ⟨hs.callStep hk hstep, hstep.accounted hs hk⟩)
      (fun hstep hk => hk.mono hstep.length_le) hstep hc)
    [] ⟨accounted_init, fun k hk => absurd hk (Multiset.notMem_zero k)⟩

/-! ## A user's denial stays until it is taken -/

section

variable {s s' : NetworkApprovalService} {attempt b : AttemptRef}

theorem NetworkApprovalService.lt_of_outcome {o : NetworkApprovalOutcome}
    (h : s.outcome attempt = some o) : attempt < s.objects.length := by
  obtain ⟨object, hobject, -⟩ := Option.bind_eq_some_iff.1 h
  exact (List.getElem?_eq_some_iff.1 hobject).1

theorem NetworkApprovalService.outcome_recordAnswer {host : Str} {answer : ReviewDecision}
    (h : s.outcome attempt = some .deniedByUser) :
    (s.recordAnswer b host answer).1.outcome attempt = some .deniedByUser := by
  have happrove : (s.update b fun object =>
      { object with approvedHosts := insert host object.approvedHosts }).outcome attempt =
        some .deniedByUser := by
    rw [outcome, getElem?_update]
    split
    · rw [Option.bind_map]
      exact h
    · exact h
  have hdeny : (s.setOutcome b (some .deniedByUser)).outcome attempt = some .deniedByUser := by
    obtain rfl | hne := eq_or_ne b attempt
    · rw [outcome_setOutcome (lt_of_outcome h), if_pos rfl]
    · rw [outcome, setOutcome, getElem?_update, if_neg hne]
      exact h
  cases answer with
  | approved => exact happrove
  | approvedExecpolicyAmendment => exact happrove
  | approvedForSession => exact h
  | denied => exact hdeny
  | abort => exact hdeny

theorem NetworkApprovalService.outcome_recordAnswer_of_denies {host : Str}
    {answer : ReviewDecision} (ha : attempt < s.objects.length) (hanswer : answer.Denies) :
    (s.recordAnswer attempt host answer).1.outcome attempt = some .deniedByUser := by
  have hdeny : (s.setOutcome attempt (some .deniedByUser)).outcome attempt =
      some .deniedByUser := by
    rw [outcome_setOutcome ha, if_pos rfl]
  cases answer with
  | approved => exact hanswer.elim
  | approvedExecpolicyAmendment => exact hanswer.elim
  | approvedForSession => exact hanswer.elim
  | denied => exact hdeny
  | abort => exact hdeny

theorem NetworkApprovalService.outcome_setOutcome_of_ne {o : Option NetworkApprovalOutcome}
    (hne : b ≠ attempt) : (s.setOutcome b o).outcome attempt = s.outcome attempt := by
  rw [outcome, setOutcome, getElem?_update, if_neg hne]
  rfl

theorem CallStep.deniedByUser {k : Call} {e : Event} {ks : Multiset Call}
    (hstep : CallStep s k e s' ks) (h : s.outcome attempt = some .deniedByUser)
    (he : ∀ o, e ≠ .taken attempt o) : s'.outcome attempt = some .deniedByUser := by
  cases hstep with
  | register => rwa [NetworkApprovalService.outcome_registerAttempt]
  | record => exact NetworkApprovalService.outcome_recordAnswer h
  | @recordBlocked b _ =>
    rw [NetworkApprovalService.recordPolicyDenial]
    split
    · exact h
    · next hb =>
      have hne : b ≠ attempt := fun hab => hb (hab ▸ h)
      rwa [NetworkApprovalService.outcome_setOutcome_of_ne hne]
  | @take b | @takeUserDenial b =>
    have hne : b ≠ attempt := fun hab => he _ (by rw [hab])
    rwa [NetworkApprovalService.outcome_setOutcome_of_ne hne]
  | _ => exact h

theorem CallStep.eq_outcome_of_taken {k : Call} {o : Option NetworkApprovalOutcome}
    {ks : Multiset Call} (hstep : CallStep s k (.taken attempt o) s' ks) :
    o = s.outcome attempt := by
  cases hstep with
  | take => rfl
  | takeUserDenial h => exact h.symm

theorem CallStep.deniedByUser_of_decided {k : Call} {ks : Multiset Call}
    {past : List (Option Event)} {request : NetworkPolicyRequest} {answer : ReviewDecision}
    {decision : NetworkDecision}
    (hstep : CallStep s k (.decided request (some attempt) (some answer) decision) s' ks)
    (hk : k.Accounted past s) (hanswer : answer.Denies) :
    s'.outcome attempt = some .deniedByUser := by
  cases hstep with
  | record => exact NetworkApprovalService.outcome_recordAnswer_of_denies (hk.ref _ rfl) hanswer

/-- What the user says so far allows a request of the attempt. -/
def Approved (past : List (Option Event)) (host : Str) (attempt : Option AttemptRef) : Prop :=
  ApprovedForSession past host ∨ ∃ a, attempt = some a ∧ ApprovedForAttempt past a host

theorem CallStep.approved_of_allow {k : Call} {ks : Multiset Call}
    {past : List (Option Event)} {request : NetworkPolicyRequest}
    {attempt : Option AttemptRef} {answer : Option ReviewDecision}
    (hstep : CallStep s k (.decided request attempt answer .allow) s' ks)
    (h : Accounted past s) (hk : k.Accounted past s) : Approved past request.host attempt := by
  generalize hd : NetworkDecision.allow = decision at hstep
  cases hstep with
  | sessionApproved hhost => exact .inl (h.session _ hhost)
  | unresolved => cases hd
  | attemptApproved hhost => exact .inr ⟨_, rfl, h.attempts _ _ hhost⟩
  | turnGone => cases hd
  | @record _ a answer =>
    have hmem := hk.answer _ _ _ rfl
    cases answer with
    | approved => exact .inr ⟨a, rfl, request, .approved, rfl, trivial, hmem⟩
    | approvedExecpolicyAmendment amendment =>
      exact .inr ⟨a, rfl, request, .approvedExecpolicyAmendment amendment, rfl, trivial, hmem⟩
    | approvedForSession => exact .inl ⟨request, a, rfl, hmem⟩
    | denied => cases hd
    | abort => cases hd

end

/-! ## Runs -/

section

variable {ls pre mid post : List (Option Event)} {c : State}

/-- The section that an event of a run belongs to, with what the past accounts for. -/
theorem exists_callStep_of_run {e : Event}
    (h : Run step init (pre ++ some e :: post) c) :
    ∃ s k s' ks, CallStep s k e s' ks ∧ Accounted pre s ∧ k.Accounted pre s ∧
      ∃ rest, Run step ⟨s', rest⟩ post c := by
  obtain ⟨t, hpre, hrun⟩ := h.of_append
  obtain ⟨hs, hcalls⟩ := accounted_of_run hpre
  cases hrun with
  | @cons _ u _ _ _ hstep hpost =>
    obtain ⟨k, ks', ks, hk, hop, -⟩ := hstep.exists_op
    exact ⟨t.shared, k, u.shared, ks', hop, hs,
      hcalls k (hk ▸ Multiset.mem_cons_self k ks), u.calls, hpost⟩

theorem deniedByUser_of_run {s : State} {attempt : AttemptRef} (h : Run step s mid c)
    (hs : s.shared.outcome attempt = some .deniedByUser)
    (htaken : ∀ o, some (.taken attempt o) ∉ mid) :
    c.shared.outcome attempt = some .deniedByUser := by
  refine h.invariant_of_labels (P := fun l => ∀ o, l ≠ some (.taken attempt o))
    (I := fun c => c.shared.outcome attempt = some .deniedByUser) ?_
    (fun l hl o heq => htaken o (heq ▸ hl)) hs
  intro c l c' hl hc hstep
  cases hstep with
  | start => exact hc
  | call hop => exact hop.deniedByUser hc fun o heq => hl o (congrArg some heq)

/-- In every run, whatever the calls and the user's answers: a request is allowed only after the
user has approved its host, for the attempt that it belongs to or for the session; from the decision
of a request by the user's denial on, the next outcome taken from its attempt is the user's denial;
and an attempt's outcome is the user's denial only after the user has denied a host for it. -/
theorem approvals_and_denials (h : Run step init ls c) :
    (∀ pre post request attempt answer,
      ls = pre ++ some (.decided request attempt answer .allow) :: post →
        Approved pre request.host attempt) ∧
    (∀ pre mid post request attempt answer decision outcome,
      ls = pre ++ some (.decided request (some attempt) (some answer) decision) ::
          (mid ++ some (.taken attempt outcome) :: post) →
        answer.Denies → (∀ o, some (.taken attempt o) ∉ mid) →
        outcome = some .deniedByUser) ∧
    (∀ pre post attempt, ls = pre ++ some (.taken attempt (some .deniedByUser)) :: post →
      DeniedForAttempt pre attempt) := by
  refine ⟨?_, ?_, ?_⟩
  · rintro pre post request attempt answer rfl
    obtain ⟨s, k, s', ks, hop, hs, hk, -⟩ := exists_callStep_of_run h
    exact hop.approved_of_allow hs hk
  · rintro pre mid post request attempt answer decision outcome rfl hanswer htaken
    obtain ⟨s, k, s', ks, hop, hs, hk, rest, hrun⟩ := exists_callStep_of_run h
    obtain ⟨t, hmid, htake⟩ := hrun.of_append
    have hdenied := deniedByUser_of_run hmid (hop.deniedByUser_of_decided hk hanswer) htaken
    cases htake with
    | cons hstep hpost =>
      obtain ⟨k', ks', ks, -, hop', -⟩ := hstep.exists_op
      rw [hop'.eq_outcome_of_taken, hdenied]
  · rintro pre post attempt rfl
    obtain ⟨s, k, s', ks, hop, hs, -, -⟩ := exists_callStep_of_run h
    exact hs.denials attempt hop.eq_outcome_of_taken.symm

end

/-! ## An attempt that fetches one host -/

def fetchRequest : NetworkPolicyRequest where
  protocol := .http
  host := "example.com"
  port := 80
  clientAddr := none
  method := some "GET"
  command := none
  execPolicyHint := none
  attemptId := some "attempt-1"

def fetchBlocked : BlockedRequest where
  host := "example.com"
  reason := "denied"
  client := none
  method := some "GET"
  mode := none
  protocol := "http"
  attemptId := some "attempt-1"
  decision := some "deny"
  source := some "baseline_policy"
  port := some 80
  timestamp := 0

/-- The service with the attempt, whose outcome is `outcome`. -/
def fetching (outcome : Option NetworkApprovalOutcome) : NetworkApprovalService where
  attempts := (∅ : AList fun _ : Str => AttemptRef).insert "attempt-1" 0
  sessionApprovedHosts := ∅
  objects := [⟨"turn-1", "call-1", ["curl", "example.com"], "/tmp", ∅, outcome⟩]

theorem fetching_getElem (outcome : Option NetworkApprovalOutcome) :
    (fetching outcome).objects[0]? =
      some ⟨"turn-1", "call-1", ["curl", "example.com"], "/tmp", ∅, outcome⟩ :=
  rfl

/-- The policy's denial of the host. -/
def fetchMessage : Str :=
  "Network access to \"example.com\" was blocked: " ++
    "domain is explicitly denied by policy and cannot be approved from this prompt."

theorem message_fetchBlocked : deniedNetworkPolicyMessage fetchBlocked = some fetchMessage := by
  decide +kernel

theorem run_register : Run step init [none, some .other] ⟨fetching none, 0⟩ :=
  .cons (.start (.register "attempt-1" "turn-1" "call-1" ["curl", "example.com"] "/tmp"))
    (.single (.alone .register))

/-- The request, up to its prompt. -/
def askLabels : List (Option Event) :=
  [none, some .other, some .other, some .other,
    some (.asked ⟨"call-1", ["curl", "example.com"], "/tmp",
      "Network access to \"example.com\" is blocked by policy.", "example.com", .http⟩)]

theorem run_ask (outcome : Option NetworkApprovalOutcome) :
    Run step ⟨fetching outcome, 0⟩ askLabels ⟨fetching outcome, {.prompting fetchRequest 0}⟩ :=
  .cons (.start (.request fetchRequest))
    (.cons (.alone (.sessionNotApproved (Finset.notMem_empty _)))
      (.cons (.alone (.resolved (by rfl))) (.cons (.alone (.attemptNotApproved (by rfl)))
        (.single (.alone (.prompt (fetching_getElem outcome)))))))

theorem run_answer (outcome : Option NetworkApprovalOutcome) (answer : ReviewDecision) :
    Run step ⟨fetching outcome, {.prompting fetchRequest 0}⟩
      [some (.answered fetchRequest 0 answer)]
      ⟨fetching outcome, {.recording fetchRequest 0 answer}⟩ :=
  .single (.alone .answer)

theorem run_blocked : Run step ⟨fetching none, 0⟩ [none, some .other, some .other]
    ⟨fetching (some (.deniedByPolicy fetchMessage)), 0⟩ :=
  .cons (.start (.blocked fetchBlocked))
    (.cons (.alone (.resolvedBlocked message_fetchBlocked (by rfl))) (.single (.alone .recordBlocked)))

theorem run_take (outcome : Option NetworkApprovalOutcome) (ks : Multiset Call) :
    Run step ⟨fetching outcome, ks⟩ [none, some .other, some (.taken 0 outcome)]
      ⟨fetching none, 0 + ks⟩ :=
  .cons (.start (.take "attempt-1")) (.cons (.call (.takeFound (by rfl))) (.single (.next .take)))

theorem run_deny : Run step ⟨fetching none, {.recording fetchRequest 0 .denied}⟩
    [some (.decided fetchRequest (some 0) (some .denied) (.denyWithSource "not_allowed" .decider))]
    ⟨fetching (some .deniedByUser), 0⟩ :=
  .single (.alone .record)

/-- The host is approved for the attempt, and the request allowed. -/
theorem approved_of_fetch : ∃ pre c attempt,
    Run step init (pre ++ [some (.decided fetchRequest attempt (some .approved) .allow)]) c ∧
      Approved pre "example.com" attempt := by
  have hrecord : Run step ⟨fetching none, {.recording fetchRequest 0 .approved}⟩
      [some (.decided fetchRequest (some 0) (some .approved) .allow)] _ :=
    .single (.alone .record)
  have hrun := ((run_register.append (run_ask none)).append (run_answer none .approved)).append
    hrecord
  exact ⟨_, _, _, hrun, (approvals_and_denials hrun).1 _ _ _ _ _ rfl⟩

/-- The outcome taken after the user's answer may be a policy's denial: one recorded before, when the
user's is not recorded yet, or one recorded after the user's has been taken. -/
theorem policy_denial_taken :
    (¬ ∀ pre mid post request attempt answer outcome c,
      Run step init (pre ++ some (.answered request attempt answer) ::
          (mid ++ some (.taken attempt (some outcome)) :: post)) c →
        answer.Denies → (∀ o, some (.taken attempt o) ∉ mid) → outcome = .deniedByUser) ∧
    (¬ ∀ pre mid post request attempt answer decision outcome c,
      Run step init (pre ++ some (.decided request (some attempt) (some answer) decision) ::
          (mid ++ some (.taken attempt (some outcome)) :: post)) c →
        answer.Denies → outcome = .deniedByUser) := by
  constructor
  · intro hall
    have hask := (run_register.append run_blocked).append
      (run_ask (some (.deniedByPolicy fetchMessage)))
    have hrun := hask.append ((run_answer _ .denied).append (run_take _ _))
    have h := hall _ [none, some .other] [] fetchRequest 0 .denied _ _ hrun trivial (by simp)
    cases h
  · intro hall
    have hask := (run_register.append (run_ask none)).append (run_answer none .denied)
    have htake := (run_take (some .deniedByUser) 0).append
      (run_blocked.append (run_take (some (.deniedByPolicy fetchMessage)) 0))
    have hrun := hask.append (run_deny.append htake)
    have h := hall _ [none, some .other, some (.taken 0 (some .deniedByUser)), none, some .other,
      some .other, none, some .other] [] fetchRequest 0 .denied _ _ _ hrun trivial
    cases h

end SheriMl.NetworkApproval
