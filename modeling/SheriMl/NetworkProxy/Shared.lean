import Mathlib.Logic.Function.Basic
import SheriMl.Lib.Fifo
import SheriMl.Lib.Transition
import SheriMl.NetworkProxy.Runtime

/-!
# Concurrent calls on one proxy state

`record_blocked`, `drain_blocked`, `set_network_mode`, `reload_if_needed` and
`force_reload` of `network-proxy/src/runtime.rs`, for any number of calls in flight
on one `NetworkProxyState`. Each acquisition of the lock is one step, and so is each
answer of the reloader; other calls run between any two steps. The read that
`force_reload` does for its log line is left out.

A reload installs the telemetry it copied under an earlier lock, and a forced one
keeps the entries but not their count. `accounted_of_fresh`: where every installed
telemetry is the current one, no entry is lost or repeated.
`installed_validates`: the installed configuration meets the installed constraints
after any steps.
-/

namespace SheriMl.NetworkProxy

def maxBlockedEvents : Nat := 200

/-- What an operation reports; the context is that of the source. -/
inductive ProxyError where
  | configLayers
  | globset (e : GlobsetError)
  | constrained (context : Str) (e : NetworkProxyConstraintError)

/-- An answer of the reloader: nothing readable, no change, or what the layers now hold. -/
inductive Answer where
  | failed
  | unchanged
  | changed (config : NetworkProxyConfig) (constraints : NetworkProxyConstraints)

/-- An operation on the state. -/
inductive Op where
  /-- The operations that reload and then only read. -/
  | read
  | recordBlocked (entry : BlockedRequest)
  | drainBlocked
  | setNetworkMode (mode : NetworkMode)
  | forceReload

inductive Call where
  | idle
  /-- The reloader was asked. -/
  | reloading (op : Op)
  | loaded (op : Op) (newState : ConfigState)
  /-- The telemetry is copied into the new state. -/
  | copied (op : Op) (newState : ConfigState)
  | reloaded (op : Op)
  | validated (mode : NetworkMode) (constraints : NetworkProxyConstraints)
  | returnedOk (drained : List BlockedRequest)
  | returnedErr (e : ProxyError)

structure NetworkProxyState where
  state : ConfigState
  calls : Nat → Call

/-- The steps of the calls; `lock` is the acquisition a call has come to. -/
inductive Action where
  | start (call : Nat) (op : Op)
  | answer (call : Nat) (answer : Answer)
  | lock (call : Nat)

/-- What a step did to the telemetry. -/
abbrev Event := Fifo.Event BlockedRequest

section Load

variable (G : Glob.Engine) (urlHost : UrlHost) (debug : List Str → Str)

/-- `build_config_state_with_mtimes`, from the layers' contents. -/
def load (config : NetworkProxyConfig) (constraints : NetworkProxyConstraints) :
    Except ProxyError ConfigState :=
  match validatePolicyAgainstConstraints urlHost debug config constraints with
  | .error e => .error (.constrained "network proxy constraints" e)
  | .ok () =>
    match buildConfigState G config constraints with
    | .error e => .error (.globset e)
    | .ok state => .ok state

theorem load_eq_ok {config : NetworkProxyConfig} {constraints : NetworkProxyConstraints}
    {state : ConfigState} (h : load G urlHost debug config constraints = .ok state) :
    validatePolicyAgainstConstraints urlHost debug config constraints = .ok () ∧
      ∃ allowSet denySet, state = ⟨config, allowSet, denySet, constraints, [], 0⟩ := by
  unfold load at h
  split at h
  · cases h
  next hvalid =>
    split at h
    · cases h
    next state' hbuild =>
      obtain rfl := Except.ok.inj h
      unfold buildConfigState at hbuild
      obtain ⟨denySet, -, hbuild⟩ := Result.exists_of_bind_eq_ok hbuild
      obtain ⟨allowSet, -, hbuild⟩ := Result.exists_of_bind_eq_ok hbuild
      exact ⟨hvalid, allowSet, denySet, (Except.ok.inj hbuild).symm⟩

end Load

namespace ConfigState

def setMode (state : ConfigState) (mode : NetworkMode) : ConfigState :=
  { state with config := ⟨{ state.config.network with mode }⟩ }

/-- The new state with the telemetry of the one it replaces. -/
def withTelemetry (newState guard : ConfigState) : ConfigState :=
  { newState with blocked := guard.blocked, blockedTotal := guard.blockedTotal }

def record (guard : ConfigState) (entry : BlockedRequest) : ConfigState :=
  { guard with
    blocked := (Fifo.trim maxBlockedEvents (guard.blocked ++ [entry])).2
    blockedTotal := if guard.blockedTotal.toNat + 1 < 2 ^ 64 then guard.blockedTotal + 1
      else guard.blockedTotal }

end ConfigState

namespace NetworkProxyState

def setCall (s : NetworkProxyState) (call : Nat) (c : Call) : NetworkProxyState :=
  { s with calls := Function.update s.calls call c }

def setState (s : NetworkProxyState) (state : ConfigState) : NetworkProxyState := { s with state }

@[simp] theorem setCall_state (s : NetworkProxyState) (i : Nat) (c : Call) :
    (s.setCall i c).state = s.state := rfl

@[simp] theorem setCall_calls (s : NetworkProxyState) (i : Nat) (c : Call) :
    (s.setCall i c).calls = Function.update s.calls i c := rfl

@[simp] theorem setState_state (s : NetworkProxyState) (state : ConfigState) :
    (s.setState state).state = state := rfl

@[simp] theorem setState_calls (s : NetworkProxyState) (state : ConfigState) :
    (s.setState state).calls = s.calls := rfl

section Step

variable (G : Glob.Engine) (urlHost : UrlHost) (debug : List Str → Str)

/-- What a call does with an answer: `maybe_reload`, or `reload_now` for a forced reload. -/
def answered (op : Op) : Answer → Option Call
  | .failed => some (.returnedErr .configLayers)
  | .unchanged =>
    match op with
    | .forceReload => none
    | op => some (.reloaded op)
  | .changed config constraints =>
    match load G urlHost debug config constraints with
    | .ok newState => some (.loaded op newState)
    | .error e => some (.returnedErr e)

/-- The lock of an operation itself, after its reload. -/
def perform (s : NetworkProxyState) (i : Nat) : Op → Option (NetworkProxyState × Event)
  | .read => some (s.setCall i (.returnedOk []), .quiet)
  | .recordBlocked entry =>
    some ((s.setState (s.state.record entry)).setCall i (.returnedOk []),
      .ofPush maxBlockedEvents s.state.blocked entry)
  | .drainBlocked =>
    some ((s.setState { s.state with blocked := [] }).setCall i (.returnedOk s.state.blocked),
      .drained s.state.blocked)
  | .setNetworkMode mode =>
    let candidate := (s.state.setMode mode).config
    match validatePolicyAgainstConstraints urlHost debug candidate s.state.constraints with
    | .error e =>
      some (s.setCall i
        (.returnedErr (.constrained "network.mode constrained by managed config" e)), .quiet)
    | .ok () => some (s.setCall i (.validated mode s.state.constraints), .quiet)
  | .forceReload => none

/-- The acquisition a call has come to; `none` when it waits for no lock. -/
def lock (s : NetworkProxyState) (i : Nat) : Option (NetworkProxyState × Event) :=
  match s.calls i with
  | .loaded .forceReload newState =>
    some ((s.setState { newState with blocked := s.state.blocked }).setCall i (.returnedOk []),
      .quiet)
  | .loaded op newState =>
    some (s.setCall i (.copied op (newState.withTelemetry s.state)), .quiet)
  | .copied op newState => some ((s.setState newState).setCall i (.reloaded op), .quiet)
  | .reloaded op => s.perform urlHost debug i op
  | .validated mode constraints =>
    if s.state.constraints ≠ constraints then
      some (s.setCall i (.reloading (.setNetworkMode mode)), .quiet)
    else some ((s.setState (s.state.setMode mode)).setCall i (.returnedOk []), .quiet)
  | _ => none

/-- One step of one call; `none` when the call is not at that step. -/
def step (s : NetworkProxyState) : Action → Option (NetworkProxyState × Event)
  | .start i op =>
    match s.calls i with
    | .idle => some (s.setCall i (.reloading op), .quiet)
    | _ => none
  | .answer i answer =>
    match s.calls i with
    | .reloading op =>
      match answered G urlHost debug op answer with
      | some call => some (s.setCall i call, .quiet)
      | none => none
    | _ => none
  | .lock i => s.lock urlHost debug i

/-- A state that was loaded, before any call. -/
def Initial (s : NetworkProxyState) : Prop :=
  (∃ config constraints, load G urlHost debug config constraints = .ok s.state) ∧
    ∀ i, s.calls i = .idle

/-- The steps, labelled with what they did to the telemetry. -/
def Step (s : NetworkProxyState) (l : Action × Event) (t : NetworkProxyState) : Prop :=
  s.step G urlHost debug l.1 = some (t, l.2)

/-- The steps again, one rule for each thing a call can do. -/
inductive Does (s : NetworkProxyState) : Action → NetworkProxyState → Event → Prop
  | starts {i : Nat} {op : Op} (call : s.calls i = .idle) :
      Does s (.start i op) (s.setCall i (.reloading op)) .quiet
  | answers {i : Nat} {op : Op} {answer : Answer} {c : Call} (call : s.calls i = .reloading op)
      (answered : answered G urlHost debug op answer = some c) :
      Does s (.answer i answer) (s.setCall i c) .quiet
  | copies {i : Nat} {op : Op} {newState : ConfigState} (call : s.calls i = .loaded op newState)
      (unforced : op ≠ .forceReload) :
      Does s (.lock i) (s.setCall i (.copied op (newState.withTelemetry s.state))) .quiet
  | installs {i : Nat} {op : Op} {newState : ConfigState}
      (call : s.calls i = .copied op newState) :
      Does s (.lock i) ((s.setState newState).setCall i (.reloaded op)) .quiet
  | installsForced {i : Nat} {newState : ConfigState}
      (call : s.calls i = .loaded .forceReload newState) :
      Does s (.lock i)
        ((s.setState { newState with blocked := s.state.blocked }).setCall i (.returnedOk []))
        .quiet
  | reads {i : Nat} (call : s.calls i = .reloaded .read) :
      Does s (.lock i) (s.setCall i (.returnedOk [])) .quiet
  | records {i : Nat} {entry : BlockedRequest}
      (call : s.calls i = .reloaded (.recordBlocked entry)) :
      Does s (.lock i) ((s.setState (s.state.record entry)).setCall i (.returnedOk []))
        (.ofPush maxBlockedEvents s.state.blocked entry)
  | drains {i : Nat} (call : s.calls i = .reloaded .drainBlocked) :
      Does s (.lock i)
        ((s.setState { s.state with blocked := [] }).setCall i (.returnedOk s.state.blocked))
        (.drained s.state.blocked)
  | refuses {i : Nat} {mode : NetworkMode} {e : ProxyError}
      (call : s.calls i = .reloaded (.setNetworkMode mode)) :
      Does s (.lock i) (s.setCall i (.returnedErr e)) .quiet
  | validates {i : Nat} {mode : NetworkMode}
      (call : s.calls i = .reloaded (.setNetworkMode mode))
      (valid : validatePolicyAgainstConstraints urlHost debug (s.state.setMode mode).config
        s.state.constraints = .ok ()) :
      Does s (.lock i) (s.setCall i (.validated mode s.state.constraints)) .quiet
  | retries {i : Nat} {mode : NetworkMode} {constraints : NetworkProxyConstraints}
      (call : s.calls i = .validated mode constraints) :
      Does s (.lock i) (s.setCall i (.reloading (.setNetworkMode mode))) .quiet
  | setsMode {i : Nat} {mode : NetworkMode}
      (call : s.calls i = .validated mode s.state.constraints) :
      Does s (.lock i) ((s.setState (s.state.setMode mode)).setCall i (.returnedOk [])) .quiet

end Step

section Does

variable {G : Glob.Engine} {urlHost : UrlHost} {debug : List Str → Str}
  {s t : NetworkProxyState} {act : Action} {e : Event} {i : Nat} {op : Op}

theorem does_of_perform (hcall : s.calls i = .reloaded op)
    (h : s.perform urlHost debug i op = some (t, e)) : Does G urlHost debug s (.lock i) t e := by
  cases op with
  | read =>
    cases h
    exact .reads hcall
  | recordBlocked entry =>
    cases h
    exact .records hcall
  | drainBlocked =>
    cases h
    exact .drains hcall
  | setNetworkMode mode =>
    simp only [perform] at h
    split at h
    · cases h
      exact .refuses hcall
    next hvalid =>
      cases h
      exact .validates hcall hvalid
  | forceReload => cases h

theorem does_of_lock (h : s.lock urlHost debug i = some (t, e)) :
    Does G urlHost debug s (.lock i) t e := by
  unfold lock at h
  split at h
  next newState hcall =>
    cases h
    exact .installsForced hcall
  next op newState hforced hcall =>
    cases h
    exact .copies hcall hforced
  next op newState hcall =>
    cases h
    exact .installs hcall
  next op hcall => exact does_of_perform hcall h
  next mode constraints hcall =>
    split at h
    · cases h
      exact .retries hcall
    next hsame =>
      obtain rfl := not_ne_iff.1 hsame
      cases h
      exact .setsMode hcall
  · cases h

theorem does_of_step (h : s.step G urlHost debug act = some (t, e)) :
    Does G urlHost debug s act t e := by
  cases act with
  | start i op =>
    simp only [step] at h
    split at h
    next hcall =>
      cases h
      exact .starts hcall
    · cases h
  | answer i answer =>
    simp only [step] at h
    split at h
    next op hcall =>
      split at h
      next c hanswered =>
        cases h
        exact .answers hcall hanswered
      · cases h
    · cases h
  | lock i => exact does_of_lock h

end Does

/-! ## Blocked requests -/

/-- The telemetry steps account for the buffer and the total. -/
def Accounted (events : List Event) (s : NetworkProxyState) : Prop :=
  Fifo.Accounts maxBlockedEvents events s.state.blocked s.state.blockedTotal.toNat

/-- The step installs the telemetry that it replaces, and counts what it records. -/
def Fresh (s : NetworkProxyState) : Action → Prop
  | .lock i =>
    match s.calls i with
    | .loaded .forceReload newState => newState.blockedTotal = s.state.blockedTotal
    | .copied _ newState =>
      newState.blocked = s.state.blocked ∧ newState.blockedTotal = s.state.blockedTotal
    | .reloaded (.recordBlocked _) => s.state.blockedTotal.toNat + 1 < 2 ^ 64
    | _ => True
  | _ => True

section Accounted

variable {G : Glob.Engine} {urlHost : UrlHost} {debug : List Str → Str}
  {s t : NetworkProxyState} {l : Action × Event} {ls : List (Action × Event)} {act : Action}
  {e : Event} {events : List Event} {entry : BlockedRequest}

theorem accounted_quiet_iff (h : Accounted events s) : Accounted (events ++ [.quiet]) t ↔
    t.state.blocked = s.state.blocked ∧ t.state.blockedTotal = s.state.blockedTotal := by
  unfold Accounted
  rw [Fifo.Accounts.quiet_iff h, UInt64.toNat_inj]

/-- A push is counted below the saturation of the total. -/
theorem toNat_record_blockedTotal (state : ConfigState) (entry : BlockedRequest) :
    (state.record entry).blockedTotal.toNat = state.blockedTotal.toNat + 1 ↔
      state.blockedTotal.toNat + 1 < 2 ^ 64 := by
  have hlt := state.blockedTotal.toNat_lt
  simp only [ConfigState.record]
  split
  next h =>
    rw [UInt64.toNat_add]
    exact iff_of_true (Nat.mod_eq_of_lt h) h
  next h =>
    refine iff_of_false ?_ h
    omega

theorem accounted_record_iff (h : Accounted events s) (ht : t.state = s.state.record entry) :
    Accounted (events ++ [.ofPush maxBlockedEvents s.state.blocked entry]) t ↔
      s.state.blockedTotal.toNat + 1 < 2 ^ 64 := by
  have hpush := h.push entry
  rw [← toNat_record_blockedTotal s.state entry]
  unfold Accounted
  rw [ht]
  constructor
  · intro h'
    rw [h'.count, ← hpush.count]
  · intro hcount
    rw [hcount]
    exact hpush

/-- From an accounted state, the fresh steps are those that leave it accounted. -/
theorem accounted_step_iff (hs : Accounted events s)
    (h : s.step G urlHost debug act = some (t, e)) :
    Accounted (events ++ [e]) t ↔ s.Fresh act := by
  cases does_of_step h with
  | starts call | answers call answered =>
    exact iff_of_true ((accounted_quiet_iff hs).2 ⟨rfl, rfl⟩) trivial
  | copies call unforced =>
    refine iff_of_true ((accounted_quiet_iff hs).2 ⟨rfl, rfl⟩) ?_
    simp only [Fresh, call]
    split
    next hop =>
      cases hop
      exact absurd rfl unforced
    next hop => cases hop
    next hop => cases hop
    · trivial
  | installs call =>
    rw [accounted_quiet_iff hs]
    simp only [Fresh, call, setCall_state, setState_state]
  | installsForced call =>
    rw [accounted_quiet_iff hs]
    simp only [Fresh, call, setCall_state, setState_state, true_and]
  | records call =>
    rw [accounted_record_iff hs rfl]
    simp only [Fresh, call]
  | drains call =>
    refine iff_of_true hs.drain ?_
    simp only [Fresh, call]
  | reads call | refuses call | validates call | retries call | setsMode call =>
    refine iff_of_true ((accounted_quiet_iff hs).2 ⟨rfl, rfl⟩) ?_
    simp only [Fresh, call]

theorem accounted_of_load {config : NetworkProxyConfig} {constraints : NetworkProxyConstraints}
    (h : load G urlHost debug config constraints = .ok s.state) : Accounted [] s := by
  obtain ⟨-, allowSet, denySet, heq⟩ := load_eq_ok G urlHost debug h
  unfold Accounted
  rw [heq]
  exact Fifo.Accounts.nil

end Accounted

/-- Interleavings of the calls' steps. -/
def Runs (G : Glob.Engine) (urlHost : UrlHost) (debug : List Str → Str) :
    NetworkProxyState → List (Action × Event) → NetworkProxyState → Prop :=
  Transition.Run (Step G urlHost debug)

/-- Interleavings in which every step is fresh. -/
def FreshRuns (G : Glob.Engine) (urlHost : UrlHost) (debug : List Str → Str) :
    NetworkProxyState → List (Action × Event) → NetworkProxyState → Prop :=
  Transition.Run fun s l t => s.Step G urlHost debug l t ∧ s.Fresh l.1

/-- After fresh steps, in any interleaving, every recorded request was drained once, was
evicted, or is buffered, and all are counted. -/
theorem accounted_of_fresh {G : Glob.Engine} {urlHost : UrlHost} {debug : List Str → Str}
    {s t : NetworkProxyState} {ls : List (Action × Event)} (hinit : s.Initial G urlHost debug)
    (h : FreshRuns G urlHost debug s ls t) : Accounted (ls.map Prod.snd) t := by
  obtain ⟨⟨config, constraints, hload⟩, -⟩ := hinit
  have hstart : Accounted [] s := accounted_of_load hload
  refine Transition.Run.history
    (I := fun past u => Accounted (past.map Prod.snd) u) ?_ h [] hstart
  intro past u l v hu hstep
  rw [List.map_append]
  exact (accounted_step_iff hu hstep.1).2 hstep.2

def loadedEmpty : ConfigState :=
  ⟨configAllowing [], ⟨[]⟩, ⟨[]⟩, constraintsAllowing [], [], 0⟩

/-- The loaded state, before any call. -/
def new (state : ConfigState) : NetworkProxyState := ⟨state, fun _ => .idle⟩

theorem initial_loadedEmpty (debug : List Str → Str) :
    (new loadedEmpty).Initial Glob.wildcards asciiUrlHost debug :=
  ⟨⟨configAllowing [], constraintsAllowing [], rfl⟩, fun _ => rfl⟩

def blockedRequest (host : Str) : BlockedRequest :=
  ⟨host, "not_allowed", none, none, none, "http", none, none, none, none, 0⟩

/-- What the reloader answers when only the files' times changed. -/
def touched : Answer := .changed (configAllowing []) (constraintsAllowing [])

/-- A request is recorded, and drained after a reload. -/
def reloadBetween : List (Action × Event) :=
  let entry := blockedRequest "a.com"
  [(.start 0 (.recordBlocked entry), .quiet), (.answer 0 .unchanged, .quiet),
    (.lock 0, .pushed entry [] [entry]), (.start 1 .drainBlocked, .quiet),
    (.answer 1 touched, .quiet), (.lock 1, .quiet), (.lock 1, .quiet),
    (.lock 1, .drained [entry])]

theorem accounted_reloadBetween :
    ∃ t, FreshRuns Glob.wildcards asciiUrlHost (fun _ => []) (new loadedEmpty) reloadBetween t ∧
      Accounted (reloadBetween.map Prod.snd) t := by
  have hrun : ∃ t,
      FreshRuns Glob.wildcards asciiUrlHost (fun _ => []) (new loadedEmpty) reloadBetween t := by
    refine ⟨_, .cons ⟨rfl, trivial⟩ (.cons ⟨rfl, trivial⟩ (.cons ⟨rfl, ?_⟩ (.cons ⟨rfl, trivial⟩
      (.cons ⟨rfl, trivial⟩ (.cons ⟨rfl, trivial⟩ (.cons ⟨rfl, ?_⟩ (.cons ⟨rfl, trivial⟩
        (.nil _))))))))⟩
    · show (0 : UInt64).toNat + 1 < 2 ^ 64
      decide
    · exact ⟨rfl, rfl⟩
  obtain ⟨t, hrun⟩ := hrun
  exact ⟨t, hrun, accounted_of_fresh (initial_loadedEmpty _) hrun⟩

/-- A request is recorded while a reload holds a copy of the telemetry. -/
def recordWithinReload : List (Action × Event) :=
  let entry := blockedRequest "a.com"
  [(.start 0 .read, .quiet), (.answer 0 touched, .quiet), (.lock 0, .quiet),
    (.start 1 (.recordBlocked entry), .quiet), (.answer 1 .unchanged, .quiet),
    (.lock 1, .pushed entry [] [entry]), (.lock 0, .quiet)]

/-- A forced reload follows a recorded request. -/
def forceAfterRecord : List (Action × Event) :=
  let entry := blockedRequest "a.com"
  [(.start 0 (.recordBlocked entry), .quiet), (.answer 0 .unchanged, .quiet),
    (.lock 0, .pushed entry [] [entry]), (.start 1 .forceReload, .quiet),
    (.answer 1 touched, .quiet), (.lock 1, .quiet)]

/-- The first run loses the request, and each leaves the total at 0. -/
theorem telemetryLost_of_stale :
    (new loadedEmpty).Initial Glob.wildcards asciiUrlHost (fun _ => []) ∧
    (∃ t, Runs Glob.wildcards asciiUrlHost (fun _ => []) (new loadedEmpty) recordWithinReload t ∧
      t.state.blocked = [] ∧ t.state.blockedTotal = 0 ∧
      ¬ Accounted (recordWithinReload.map Prod.snd) t) ∧
    ∃ t, Runs Glob.wildcards asciiUrlHost (fun _ => []) (new loadedEmpty) forceAfterRecord t ∧
      t.state.blocked = [blockedRequest "a.com"] ∧ t.state.blockedTotal = 0 ∧
      ¬ Accounted (forceAfterRecord.map Prod.snd) t := by
  refine ⟨initial_loadedEmpty _, ?_, ?_⟩
  · refine ⟨_, .cons rfl (.cons rfl (.cons rfl (.cons rfl (.cons rfl (.cons rfl (.cons rfl
      (.nil _))))))), rfl, rfl, ?_⟩
    intro h
    exact absurd h.count (by decide)
  · refine ⟨_, .cons rfl (.cons rfl (.cons rfl (.cons rfl (.cons rfl (.cons rfl (.nil _)))))),
      rfl, rfl, ?_⟩
    intro h
    exact absurd h.count (by decide)

/-! ## The installed configuration -/

section Validated

variable (G : Glob.Engine) (urlHost : UrlHost) (debug : List Str → Str)

/-- The configuration meets the constraints that come with it. -/
def Valid (state : ConfigState) : Prop :=
  validatePolicyAgainstConstraints urlHost debug state.config state.constraints = .ok ()

def CallValid : Call → Prop
  | .loaded _ newState => Valid urlHost debug newState
  | .copied _ newState => Valid urlHost debug newState
  | .validated mode constraints => validateMode mode constraints.mode = .ok ()
  | _ => True

/-- What is installed, and what the calls may install, was validated. -/
structure Validated (s : NetworkProxyState) : Prop where
  state : Valid urlHost debug s.state
  call : ∀ i, CallValid urlHost debug (s.calls i)

end Validated

section Reachable

variable {G : Glob.Engine} {urlHost : UrlHost} {debug : List Str → Str}
  {s t : NetworkProxyState} {l : Action × Event} {state : ConfigState} {i : Nat} {c : Call}

theorem valid_of_load {config : NetworkProxyConfig} {constraints : NetworkProxyConstraints}
    (h : load G urlHost debug config constraints = .ok state) : Valid urlHost debug state := by
  obtain ⟨hvalid, allowSet, denySet, rfl⟩ := load_eq_ok G urlHost debug h
  exact hvalid

theorem callValid_answered {op : Op} {answer : Answer}
    (h : answered G urlHost debug op answer = some c) : CallValid urlHost debug c := by
  unfold answered at h
  split at h
  · cases h
    trivial
  · split at h
    · cases h
    · cases h
      trivial
  · split at h
    next newState hload =>
      cases h
      exact valid_of_load hload
    · cases h
      trivial

theorem Validated.setCall (hs : s.Validated urlHost debug) (hc : CallValid urlHost debug c) :
    (s.setCall i c).Validated urlHost debug := by
  refine ⟨hs.state, ?_⟩
  intro j
  rw [setCall_calls, Function.update_apply]
  split
  · exact hc
  · exact hs.call j

theorem Validated.setState (hs : s.Validated urlHost debug) (hstate : Valid urlHost debug state) :
    (s.setState state).Validated urlHost debug :=
  ⟨hstate, hs.call⟩

theorem Validated.step (hs : s.Validated urlHost debug) (h : s.Step G urlHost debug l t) :
    t.Validated urlHost debug := by
  obtain ⟨act, e⟩ := l
  have hdoes : Does G urlHost debug s act t e := does_of_step h
  cases hdoes with
  | starts call => exact hs.setCall trivial
  | answers call answered => exact hs.setCall (callValid_answered answered)
  | @copies i op newState call unforced =>
    have hnew := hs.call i
    rw [call] at hnew
    exact hs.setCall hnew
  | @installs i op newState call =>
    have hnew := hs.call i
    rw [call] at hnew
    refine (hs.setState hnew).setCall ?_
    trivial
  | @installsForced i newState call =>
    have hnew := hs.call i
    rw [call] at hnew
    refine Validated.setCall (s := s.setState _) (hs.setState ?_) ?_
    · exact hnew
    · trivial
  | reads call => exact hs.setCall trivial
  | records call | drains call =>
    refine Validated.setCall (s := s.setState _) (hs.setState ?_) ?_
    · exact hs.state
    · trivial
  | refuses call => exact hs.setCall trivial
  | validates call valid => exact hs.setCall (validateMode_of_validate valid)
  | retries call => exact hs.setCall trivial
  | @setsMode i mode call =>
    -- the mode was validated against constraints that are still installed
    have hmode := hs.call i
    rw [call] at hmode
    have hvalid : Valid urlHost debug (s.state.setMode mode) := validate_withMode hs.state hmode
    refine (hs.setState hvalid).setCall ?_
    trivial

/-- The installed configuration meets the installed constraints, whatever the calls and the
reloads and however their steps interleave. -/
theorem installed_validates
    (h : Transition.Reachable (Step G urlHost debug) (Initial G urlHost debug) t) :
    validatePolicyAgainstConstraints urlHost debug t.state.config t.state.constraints = .ok () := by
  have hvalid : t.Validated urlHost debug := by
    refine h.invariant ?_ ?_
    · rintro s ⟨⟨config, constraints, hload⟩, hidle⟩
      refine ⟨valid_of_load hload, ?_⟩
      intro i
      rw [hidle i]
      trivial
    · intro s l t hs hstep
      exact hs.step hstep
  exact hvalid.state

end Reachable

def constraintsLimited : NetworkProxyConstraints :=
  ⟨none, some .limited, none, none, none, none, none, none, none⟩

def configLimited : NetworkProxyConfig :=
  ⟨{ (configAllowing []).network with mode := .limited }⟩

/-- The mode full passes, a reload then limits it, and the call starts again and is refused. -/
def limitWithinSetMode : List (Action × Event) :=
  [(.start 0 (.setNetworkMode .full), .quiet), (.answer 0 .unchanged, .quiet), (.lock 0, .quiet),
    (.start 1 .read, .quiet), (.answer 1 (.changed configLimited constraintsLimited), .quiet),
    (.lock 1, .quiet), (.lock 1, .quiet), (.lock 0, .quiet), (.answer 0 .unchanged, .quiet),
    (.lock 0, .quiet)]

theorem installed_validates_limited :
    ∃ t, Transition.Reachable (Step Glob.wildcards asciiUrlHost (fun _ => []))
        (Initial Glob.wildcards asciiUrlHost (fun _ => [])) t ∧
      t.calls 0 = .returnedErr (.constrained "network.mode constrained by managed config"
        ⟨"network.mode", "Full", "Limited or more restrictive"⟩) ∧
      t.state.config.network.mode = .limited ∧
      validatePolicyAgainstConstraints asciiUrlHost (fun _ => []) t.state.config
        t.state.constraints = .ok () := by
  have hrun : Runs Glob.wildcards asciiUrlHost (fun _ => []) (new loadedEmpty)
      limitWithinSetMode _ :=
    .cons rfl (.cons rfl (.cons rfl (.cons rfl (.cons rfl (.cons rfl (.cons rfl (.cons rfl
      (.cons rfl (.cons rfl (.nil _))))))))))
  have hreach : Transition.Reachable (Step Glob.wildcards asciiUrlHost (fun _ => []))
      (Initial Glob.wildcards asciiUrlHost (fun _ => [])) _ :=
    ⟨_, _, initial_loadedEmpty _, hrun⟩
  exact ⟨_, hreach, rfl, rfl, installed_validates hreach⟩

end NetworkProxyState

end SheriMl.NetworkProxy
