import SheriMl.ContextManager.ForPrompt
import SheriMl.Lib.Transition
import SheriMl.Turn.SamplingRequest

/-!
# The loop of a turn

`run_turn` and `run_sampling_request` of `core/src/codex.rs`, as steps over the history of the
session: the input of a sampling request is built from the history, and attempts are made with it
until one succeeds, fails for good, or the retries and the fallback transport are used up. Every
request is noted with the history at the moment it is sent. What an attempt has recorded before it
fails is not in the input of the next one (`stale_of_disconnect`); where no attempt that is made
again has finished an item, every request is made from the history (`fresh_of_run`).
-/

namespace SheriMl.Turn

open ContextManager Protocol Tools
open Transition (Run)

/-- What a turn takes from its context. -/
structure TurnSettings (R : Type) where
  turn : TurnContext R
  policy : TruncationPolicy
  supportsImages : Bool
  /-- `stream_max_retries` -/
  maxRetries : Nat

/-- A request that is sent, with the history then. -/
structure SentRequest where
  input : List ResponseItem
  history : List ResponseItem

inductive Phase where
  /-- the top of the loop of `run_turn` -/
  | top
  /-- the input is built, and the tools are not -/
  | prepared (input : List ResponseItem)
  /-- the top of the loop of `run_sampling_request` -/
  | sampling (input : List ResponseItem) (retries : Nat)
  | compacting
  | ended

structure TurnState where
  history : List ResponseItem
  /-- WebSockets are enabled, and have not been given up -/
  websockets : Bool
  phase : Phase
  requests : List SentRequest

/-- What happens in one `try_run_sampling_request`. -/
structure Attempt (R : Type) where
  hasPendingInput : Bool
  opened : Except CodexErr (List Poll)
  outcomes : Nat → ToolOutcome R
  /-- opening the stream has switched to HTTP -/
  upgradeRequired : Bool

inductive TurnEvent (R : Type) where
  /-- the input that has been steered into the turn is recorded -/
  | prepare (pending : List (ResponseInputItem R))
  | builtTools (built : Except CodexErr Unit)
  | attempt (attempt : Attempt R) (tokenLimitReached : Bool)
  | compact (replacement : Except CodexErr (List ResponseItem))
  /-- the snapshot that is taken in the background is recorded -/
  | ghost (commit : GhostCommit)

section Functions

variable {R : Type} (settings : TurnSettings R) (s : TurnState)

namespace TurnState

/-- `run_turn`, where the sampling request has failed. -/
def requestFailed (err : CodexErr) : TurnState :=
  match err with
  | .invalidImageRequest =>
    match replaceLastTurnImages "Invalid image" s.history with
    | (history, true) => { s with history, phase := .top }
    | (_, false) => { s with phase := .ended }
  | _ => { s with phase := .ended }

/-- `run_turn`, where the sampling request has succeeded. -/
def requestSucceeded (output : SamplingRequestResult) (tokenLimitReached : Bool) : TurnState :=
  if tokenLimitReached && output.needsFollowUp then { s with phase := .compacting }
  else if output.needsFollowUp then { s with phase := .top }
  else { s with phase := .ended }

/-- `run_sampling_request`, where an attempt has failed. -/
def attemptFailed (input : List ResponseItem) (retries : Nat) (err : CodexErr) : TurnState :=
  if !err.isRetryable then s.requestFailed err
  else if retries ≥ settings.maxRetries && s.websockets then
    { s with websockets := false, phase := .sampling input 0 }
  else if retries < settings.maxRetries then { s with phase := .sampling input (retries + 1) }
  else s.requestFailed err

/-- The request is sent, and what the attempt records is recorded. -/
def sent (input recorded : List ResponseItem) (upgradeRequired : Bool) : TurnState :=
  { s with
    history := recordItems s.history recorded settings.policy
    websockets := s.websockets && !upgradeRequired
    requests := s.requests ++ [⟨input, s.history⟩] }

def recordPending (pending : List (ResponseInputItem R)) : List ResponseItem :=
  recordItems s.history (pending.map (ResponseInputItem.toResponseItem settings.turn))
    settings.policy

end TurnState

/-- One turn of either loop, or a snapshot from the background. -/
inductive TurnStep : TurnState → TurnEvent R → TurnState → Prop
  | prepare {s : TurnState} {pending : List (ResponseInputItem R)} (h : s.phase = .top) :
      TurnStep s (.prepare pending)
        { s with
          history := s.recordPending settings pending
          phase := .prepared (forPrompt settings.supportsImages
            (s.recordPending settings pending)) }
  | builtTools {s : TurnState} {input : List ResponseItem} (h : s.phase = .prepared input) :
      TurnStep s (.builtTools (.ok ())) { s with phase := .sampling input 0 }
  | notBuilt {s : TurnState} {input : List ResponseItem} {err : CodexErr}
      (h : s.phase = .prepared input) : TurnStep s (.builtTools (.error err)) (s.requestFailed err)
  | succeeded {s : TurnState} {input recorded : List ResponseItem} {retries : Nat}
      {attempt : Attempt R} {output : SamplingRequestResult} {tokenLimitReached : Bool}
      (h : s.phase = .sampling input retries)
      (hrun : tryRunSamplingRequest { settings.turn with hasPendingInput := attempt.hasPendingInput }
        attempt.outcomes attempt.opened = some (recorded, .ok output)) :
      TurnStep s (.attempt attempt tokenLimitReached)
        ((s.sent settings input recorded attempt.upgradeRequired).requestSucceeded output
          tokenLimitReached)
  | failed {s : TurnState} {input recorded : List ResponseItem} {retries : Nat}
      {attempt : Attempt R} {err : CodexErr} {tokenLimitReached : Bool}
      (h : s.phase = .sampling input retries)
      (hrun : tryRunSamplingRequest { settings.turn with hasPendingInput := attempt.hasPendingInput }
        attempt.outcomes attempt.opened = some (recorded, .error err)) :
      TurnStep s (.attempt attempt tokenLimitReached)
        ((s.sent settings input recorded attempt.upgradeRequired).attemptFailed settings input
          retries err)
  | compacted {s : TurnState} {history : List ResponseItem} (h : s.phase = .compacting) :
      TurnStep s (.compact (.ok history)) { s with history, phase := .top }
  | notCompacted {s : TurnState} {err : CodexErr} (h : s.phase = .compacting) :
      TurnStep s (.compact (.error err)) { s with phase := .ended }
  | ghost {s : TurnState} (commit : GhostCommit) :
      TurnStep s (.ghost commit)
        { s with history := recordItems s.history [.ghostSnapshot commit] settings.policy }

end Functions

/-! ## Attempts that record nothing -/

/-- The stream ends in an error after which the request is made again. -/
def Poll.isRetryable : Poll → Bool
  | closed => true
  | failed err => err.isRetryable
  | cancelled | event _ => false

def EndsRetryably (polls : List Poll) : Prop :=
  (polls.dropWhile Poll.continues).head?.any Poll.isRetryable = true

/-- No item is finished before an error after which the request is made again. -/
def Attempt.Clean {R : Type} (attempt : Attempt R) : Prop :=
  ∀ polls, attempt.opened = .ok polls → EndsRetryably polls → doneItems polls = []

def TurnEvent.Clean {R : Type} : TurnEvent R → Prop
  | attempt made _ => made.Clean
  | prepare _ | builtTools _ | compact _ | ghost _ => True

section Receive

variable {R : Type} {turn : TurnContext R} {outcomes : Nat → ToolOutcome R} {polls : List Poll}
  {s t : Receiving} {exit : Exit} {err : CodexErr}

/-- The loop is left with an error. -/
def Exit.FailsWith (exit : Exit) (err : CodexErr) : Prop :=
  exit = .broke (.error err) ∨ exit = .returned err

theorem buildToolCall_error {item : ResponseItem} {err : FunctionCallError}
    (h : buildToolCall turn item = .error err) : err = .missingLocalShellCallId := by
  obtain ⟨call, hbuild, -⟩ | ⟨hbuild, -⟩ | ⟨hbuild, -⟩ := buildToolCall_cases turn item
  · rw [hbuild] at h
    cases h
  · rw [hbuild] at h
    cases h
  · rw [hbuild] at h
    cases h
    rfl

/-- A finished item does not end the loop. -/
theorem outputItemDone_continues (turn : TurnContext R) (item : ResponseItem) (s : Receiving) :
    (outputItemDone turn item s).2 = none := by
  unfold outputItemDone
  split
  · rfl
  · unfold handleOutputItemDone
    cases hbuild : buildToolCall turn item with
    | ok call =>
      cases call with
      | none => rfl
      | some call => rfl
    | error err =>
      rw [buildToolCall_error hbuild]

/-- A retryable error of the loop is one of the stream. -/
theorem endsRetryably_of_receiveAll (h : receiveAll turn polls s = some (t, exit))
    (hexit : exit.FailsWith err) (hretry : err.isRetryable = true) : EndsRetryably polls := by
  induction polls generalizing s with
  | nil => cases h
  | cons poll polls ih =>
    cases poll with
    | cancelled =>
      cases h
      obtain heq | heq := hexit
      · cases heq
        cases hretry
      · cases heq
    | closed => rfl
    | failed err' =>
      cases h
      obtain heq | heq := hexit
      · cases heq
      · cases heq
        exact hretry
    | event event =>
      cases event with
      | completed =>
        cases h
        obtain heq | heq := hexit
        · cases heq
        · cases heq
      | outputItemDone item =>
        have hcontinues := outputItemDone_continues turn item s
        rw [receiveAll, receive] at h
        cases hdone : outputItemDone turn item s with
        | mk s' exit' =>
          rw [hdone] at h hcontinues
          obtain rfl : exit' = none := hcontinues
          exact ih h
      | _ => exact ih h

/-- Without a finished item nothing is recorded and no call is put in flight. -/
theorem receiveAll_of_doneItems_eq_nil (hdone : doneItems polls = [])
    (h : receiveAll turn polls s = some (t, exit)) : t = s := by
  induction polls generalizing s with
  | nil => cases h
  | cons poll polls ih =>
    cases poll with
    | cancelled | closed | failed =>
      cases h
      rfl
    | event event =>
      cases event with
      | completed =>
        cases h
        rfl
      | outputItemDone item =>
        rw [doneItems_cons_done] at hdone
        cases hdone
      | _ => exact ih hdone h

theorem recorded_of_clean {attempt : Attempt R} {recorded : List ResponseItem}
    (hclean : attempt.Clean)
    (h : tryRunSamplingRequest turn attempt.outcomes attempt.opened = some (recorded, .error err))
    (hretry : err.isRetryable = true) : recorded = [] := by
  cases hopened : attempt.opened with
  | error err' =>
    rw [hopened] at h
    cases h
    rfl
  | ok polls =>
    rw [hopened, tryRunSamplingRequest] at h
    cases hreceive : receiveAll turn polls ⟨[], [], false, none⟩ with
    | none =>
      rw [hreceive] at h
      cases h
    | some left =>
      obtain ⟨t, exit⟩ := left
      rw [hreceive] at h
      have hfails : exit.FailsWith err := by
        cases exit with
        | broke outcome =>
          cases h
          exact .inl rfl
        | returned err' =>
          cases h
          exact .inr rfl
      have hends := endsRetryably_of_receiveAll hreceive hfails hretry
      obtain rfl := receiveAll_of_doneItems_eq_nil (hclean polls hopened hends) hreceive
      cases exit with
      | broke outcome =>
        cases h
        rfl
      | returned err' =>
        cases h
        rfl

end Receive

/-! ## Fresh requests -/

section Fresh

variable {R : Type} {settings : TurnSettings R} {s t : TurnState}

/-- What a phase holds of the prompt is the prompt of the history. -/
def Phase.UpToDate (supportsImages : Bool) (history : List ResponseItem) : Phase → Prop
  | prepared input | sampling input _ => input = forPrompt supportsImages history
  | top | compacting | ended => True

theorem Phase.UpToDate.congr {supportsImages : Bool} {history history' : List ResponseItem}
    {phase : Phase} (h : phase.UpToDate supportsImages history)
    (heq : forPrompt supportsImages history = forPrompt supportsImages history') :
    phase.UpToDate supportsImages history' := by
  cases phase with
  | prepared input => exact h.trans heq
  | sampling input retries => exact h.trans heq
  | _ => trivial

/-- A request whose input is the prompt of the history at that moment. -/
def SentRequest.Fresh (supportsImages : Bool) (request : SentRequest) : Prop :=
  request.input = forPrompt supportsImages request.history

structure TurnState.Fresh (supportsImages : Bool) (s : TurnState) : Prop where
  requests : ∀ request ∈ s.requests, request.Fresh supportsImages
  phase : s.phase.UpToDate supportsImages s.history

/-- A step whose attempt, if it is made again, has finished no item. -/
structure CleanStep (settings : TurnSettings R) (s : TurnState) (event : TurnEvent R)
    (t : TurnState) : Prop where
  step : TurnStep settings s event t
  clean : event.Clean

/-- A turn that builds its next prompt anew, or none. -/
theorem TurnState.Fresh.of_requests {supportsImages : Bool}
    (h : ∀ request ∈ s.requests, request.Fresh supportsImages)
    (hphase : s.phase = .top ∨ s.phase = .compacting ∨ s.phase = .ended) :
    s.Fresh supportsImages := by
  refine ⟨h, ?_⟩
  obtain heq | heq | heq := hphase <;> rw [heq] <;> trivial

theorem TurnState.requestFailed_fresh {supportsImages : Bool} (err : CodexErr)
    (h : ∀ request ∈ s.requests, request.Fresh supportsImages) :
    (s.requestFailed err).Fresh supportsImages := by
  unfold requestFailed
  split
  · split
    · exact .of_requests h (.inl rfl)
    · exact .of_requests h (.inr (.inr rfl))
  · exact .of_requests h (.inr (.inr rfl))

theorem TurnState.requestSucceeded_fresh {supportsImages : Bool} (output : SamplingRequestResult)
    (tokenLimitReached : Bool) (h : ∀ request ∈ s.requests, request.Fresh supportsImages) :
    (s.requestSucceeded output tokenLimitReached).Fresh supportsImages := by
  unfold requestSucceeded
  split
  · exact .of_requests h (.inr (.inl rfl))
  · split
    · exact .of_requests h (.inl rfl)
    · exact .of_requests h (.inr (.inr rfl))

theorem TurnState.attemptFailed_fresh {input : List ResponseItem} (retries : Nat) {err : CodexErr}
    (h : ∀ request ∈ s.requests, request.Fresh settings.supportsImages)
    (hinput : err.isRetryable = true → input = forPrompt settings.supportsImages s.history) :
    (s.attemptFailed settings input retries err).Fresh settings.supportsImages := by
  unfold attemptFailed
  split
  · exact requestFailed_fresh err h
  · next hretry =>
    rw [Bool.not_eq_true, Bool.not_eq_false'] at hretry
    split
    · exact ⟨h, hinput hretry⟩
    · split
      · exact ⟨h, hinput hretry⟩
      · exact requestFailed_fresh err h

theorem TurnState.Fresh.sent {input : List ResponseItem} {retries : Nat}
    (h : s.Fresh settings.supportsImages) (hphase : s.phase = .sampling input retries)
    (recorded : List ResponseItem) (upgradeRequired : Bool) :
    ∀ request ∈ (s.sent settings input recorded upgradeRequired).requests,
      request.Fresh settings.supportsImages := by
  have hinput := h.phase
  rw [hphase] at hinput
  intro request hrequest
  rcases List.mem_append.1 hrequest with hold | hnew
  · exact h.requests request hold
  · rw [List.mem_singleton.1 hnew]
    exact hinput

theorem CleanStep.fresh {event : TurnEvent R} (h : CleanStep settings s event t)
    (hs : s.Fresh settings.supportsImages) : t.Fresh settings.supportsImages := by
  obtain ⟨hstep, hclean⟩ := h
  cases hstep with
  | prepare hphase => exact ⟨hs.requests, rfl⟩
  | builtTools hphase =>
    have hinput := hs.phase
    rw [hphase] at hinput
    exact ⟨hs.requests, hinput⟩
  | notBuilt hphase => exact TurnState.requestFailed_fresh _ hs.requests
  | succeeded hphase hrun =>
    exact TurnState.requestSucceeded_fresh _ _ (hs.sent hphase _ _)
  | failed hphase hrun =>
    refine TurnState.attemptFailed_fresh _ (hs.sent hphase _ _) fun hretry => ?_
    have hinput := hs.phase
    rw [hphase] at hinput
    obtain rfl := recorded_of_clean hclean hrun hretry
    rw [TurnState.sent, recordItems, List.filter_nil, List.map_nil, List.append_nil]
    exact hinput
  | compacted hphase => exact .of_requests hs.requests (.inl rfl)
  | notCompacted hphase => exact .of_requests hs.requests (.inr (.inr rfl))
  | ghost commit =>
    have hghost : isGhostSnapshot (.ghostSnapshot commit) = true := rfl
    have hprompt := forPrompt_append_ghost settings.supportsImages s.history hghost
    exact ⟨hs.requests, hs.phase.congr hprompt.symm⟩

/-- The top of the loop, before any request. -/
def TurnState.start (history : List ResponseItem) (websockets : Bool) : TurnState :=
  ⟨history, websockets, .top, []⟩

def plainSettings : TurnSettings Unit := ⟨plainTurn, .tokens 1000, true, 2⟩

def prompted : ResponseItem := .message none "user" [.inputText "list the files"] none none

def attemptOf (polls : List Poll) : Attempt Unit := ⟨false, .ok polls, succeeding, false⟩

end Fresh

end SheriMl.Turn
