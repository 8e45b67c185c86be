import SheriMl.Lib.Float64
import SheriMl.Lib.Result
import SheriMl.Lib.Str
import Mathlib.Data.List.Infix

/-!
# Responses as server-sent events

`process_responses_event` and `process_sse` of `codex-api/src/sse/responses.rs`, with a receiver
that stays open. An error of the model is stored until the stream closes, and what comes before
that may be a completion; the time to wait is read from the text of an error, whatever its size.
A response is right (`Correct`) where no completion comes after a failure and no time is too long
(`correct_iff_reached`).
-/

namespace SheriMl.ResponsesSse

open Str (isAsciiDigit asciiLower toAsciiLowercase startsWith)

/-! ## Times -/

inductive Panic where
  /-- `Duration::from_secs_f64` -/
  | tooBig
  deriving DecidableEq

/-- A `Duration`, in nanoseconds. -/
abbrev Duration := Nat

/-- `Duration::from_secs_f64`: the seconds have to be less than 2⁶⁴. -/
def fromSecsF64 (secs : Nat) : Except Panic Duration :=
  if 2 ^ 64 * Float64.one ≤ secs then .error .tooBig
  else .ok (Float64.divRound (secs * 10 ^ 9) Float64.one)

/-- `value as u64`, which saturates. -/
def asU64 (value : Nat) : Nat := min (value / Float64.one) (2 ^ 64 - 1)

def fromMillis (millis : Nat) : Duration := millis * 10 ^ 6

/-! ## The time to wait -/

/-- `\s` of `regex_lite`. -/
def isSpace (c : Char) : Bool := (0x9 ≤ c.toNat && c.toNat ≤ 0xD) || c.toNat == 0x20

/-- The groups of a match: the digits of the amount before its point and after it, and the unit. -/
structure Captures where
  whole : Str
  fraction : Str
  unit : Str

namespace Captures

/-- The amount is this number ... -/
def numerator (captures : Captures) : Nat :=
  Nat.ofDigitChars 10 (captures.whole ++ captures.fraction) 0

/-- ... of these parts of a second or a millisecond. -/
def denominator (captures : Captures) : Nat := 10 ^ captures.fraction.length

/-- `parse::<f64>()`, which takes every amount. -/
def value (captures : Captures) : Nat :=
  Float64.ofFraction captures.numerator captures.denominator

def inSeconds (captures : Captures) : Bool :=
  toAsciiLowercase captures.unit == "s" || startsWith (toAsciiLowercase captures.unit) "second"

end Captures

def tryAgainIn : Str := "try again in"

/-- `(?:\.\d+)?`: the digits, and what follows them. -/
def fractionAt : Str → Str × Str
  | [] => ([], [])
  | c :: text =>
    if c = '.' ∧ text.takeWhile isAsciiDigit ≠ [] then
      (text.takeWhile isAsciiDigit, text.dropWhile isAsciiDigit)
    else ([], c :: text)

/-- `(s|ms|seconds?)`: the first alternative that matches. -/
def unitAt : Str → Option Str
  | [] => none
  | c :: text =>
    if asciiLower c = 's' then some [c]
    else if asciiLower c = 'm' ∧ text.head?.map asciiLower = some 's' then some (c :: text.take 1)
    else none

/-- A match at the beginning of a text. No part of it takes a character that a later one could have
taken, so the longest match of each is the only one to try. -/
def capturesAt (text : Str) : Option Captures :=
  if toAsciiLowercase (text.take tryAgainIn.length) = tryAgainIn then
    let text := (text.drop tryAgainIn.length).dropWhile isSpace
    let whole := text.takeWhile isAsciiDigit
    if whole.isEmpty then none
    else
      let (fraction, text) := fractionAt (text.dropWhile isAsciiDigit)
      (unitAt (text.dropWhile isSpace)).map fun unit => ⟨whole, fraction, unit⟩
  else none

/-- `rate_limit_regex().captures`: the first place with a match. -/
def captures (message : Str) : Option Captures := message.tails.findSome? capturesAt

structure Error where
  code : Option Str
  message : Option Str

def rateLimitExceeded : Str := "rate_limit_exceeded"

/-- The time that the unit and the amount stand for. -/
def Captures.delay (captures : Captures) : Except Panic (Option Duration) :=
  if captures.inSeconds then (fromSecsF64 captures.value).map some
  else if toAsciiLowercase captures.unit = "ms" then .ok (some (fromMillis (asU64 captures.value)))
  else .ok none

def tryParseRetryAfter (err : Error) : Except Panic (Option Duration) :=
  if err.code = some rateLimitExceeded then
    match err.message.bind captures with
    | some captures => captures.delay
    | none => .ok none
  else .ok none

/-! ## Events -/

structure TokenUsage where
  inputTokens : Int
  cachedInputTokens : Int
  outputTokens : Int
  reasoningOutputTokens : Int
  totalTokens : Int
  deriving DecidableEq

structure InputTokensDetails where
  cachedTokens : Int

structure OutputTokensDetails where
  reasoningTokens : Int

structure ResponseCompletedUsage where
  inputTokens : Int
  inputTokensDetails : Option InputTokensDetails
  outputTokens : Int
  outputTokensDetails : Option OutputTokensDetails
  totalTokens : Int

/-- `TokenUsage::from` -/
def TokenUsage.ofUsage (val : ResponseCompletedUsage) : TokenUsage where
  inputTokens := val.inputTokens
  cachedInputTokens := (val.inputTokensDetails.map (·.cachedTokens)).getD 0
  outputTokens := val.outputTokens
  reasoningOutputTokens := (val.outputTokensDetails.map (·.reasoningTokens)).getD 0
  totalTokens := val.totalTokens

structure ResponseCompleted where
  id : Str
  usage : Option ResponseCompletedUsage

structure ResponseDone where
  id : Option Str
  usage : Option ResponseCompletedUsage

structure ResponsesStreamEvent (V : Type) where
  kind : Str
  response : Option V
  item : Option V
  delta : Option Str
  summaryIndex : Option Int
  contentIndex : Option Int

inductive ResponseEvent (I : Type) where
  | created
  | outputItemDone (item : I)
  | outputItemAdded (item : I)
  | completed (responseId : Str) (tokenUsage : Option TokenUsage) (canAppend : Bool)
  | outputTextDelta (delta : Str)
  | reasoningSummaryDelta (delta : Str) (summaryIndex : Int)
  | reasoningContentDelta (delta : Str) (contentIndex : Int)
  | reasoningSummaryPartAdded (summaryIndex : Int)
  deriving DecidableEq

def ResponseEvent.isCompleted {I : Type} : ResponseEvent I → Bool
  | .completed .. => true
  | _ => false

inductive ApiError where
  | stream (message : Str)
  | contextWindowExceeded
  | quotaExceeded
  | usageNotIncluded
  | retryable (message : Str) (delay : Option Duration)
  | invalidRequest (message : Str)
  | serverOverloaded
  deriving DecidableEq

/-- The kinds of events that are told apart. -/
inductive Kind where
  | outputItemDone
  | outputTextDelta
  | reasoningSummaryTextDelta
  | reasoningTextDelta
  | created
  | failed
  | incomplete
  | completed
  | done
  | outputItemAdded
  | reasoningSummaryPartAdded
  | other
  deriving DecidableEq

def kinds : List (Str × Kind) :=
  [(("response.output_item.done" : Str), .outputItemDone),
    (("response.output_text.delta" : Str), .outputTextDelta),
    (("response.reasoning_summary_text.delta" : Str), .reasoningSummaryTextDelta),
    (("response.reasoning_text.delta" : Str), .reasoningTextDelta),
    (("response.created" : Str), .created),
    (("response.failed" : Str), .failed),
    (("response.incomplete" : Str), .incomplete),
    (("response.completed" : Str), .completed),
    (("response.done" : Str), .done),
    (("response.output_item.added" : Str), .outputItemAdded),
    (("response.reasoning_summary_part.added" : Str), .reasoningSummaryPartAdded)]

def kindOf (kind : Str) : Kind := (kinds.lookup kind).getD .other

/-- What the code takes from `serde_json`, for JSON values `V` and response items `I`. -/
structure Serde (V I : Type) where
  /-- the event of a payload -/
  fromStr : Str → Option (ResponsesStreamEvent V)
  get : V → Str → Option V
  asStr : V → Option Str
  responseItem : V → Option I
  error : V → Option Error
  /-- or the text of the error -/
  responseCompleted : V → Except Str ResponseCompleted
  responseDone : V → Except Str ResponseDone

variable {V I : Type} (serde : Serde V I)

def isContextWindowError (error : Error) : Bool :=
  error.code = some ("context_length_exceeded" : Str)

def isQuotaExceededError (error : Error) : Bool := error.code = some ("insufficient_quota" : Str)

def isUsageNotIncluded (error : Error) : Bool := error.code = some ("usage_not_included" : Str)

def isInvalidPromptError (error : Error) : Bool := error.code = some ("invalid_prompt" : Str)

def isServerOverloadedError (error : Error) : Bool :=
  error.code = some ("server_is_overloaded" : Str) || error.code = some ("slow_down" : Str)

/-- The error that the error of a failed response becomes. -/
def apiError (error : Error) : Except Panic ApiError :=
  if isContextWindowError error then .ok .contextWindowExceeded
  else if isQuotaExceededError error then .ok .quotaExceeded
  else if isUsageNotIncluded error then .ok .usageNotIncluded
  else if isInvalidPromptError error then
    .ok (.invalidRequest (error.message.getD ("Invalid request." : Str)))
  else if isServerOverloadedError error then .ok .serverOverloaded
  else (tryParseRetryAfter error).map (.retryable (error.message.getD []))

/-- The error of a failed response that can be read. -/
def failedError (response : Option V) : Option Error :=
  (response.bind fun response => serde.get response ("error" : Str)).bind serde.error

def incompleteReason (response : Option V) : Str :=
  ((response.bind fun response =>
    (serde.get response ("incomplete_details" : Str)).bind fun details =>
      (serde.get details ("reason" : Str)).bind serde.asStr).getD ("unknown" : Str))

def incompleteMessage (reason : Str) : Str :=
  ("Incomplete response returned, reason: " : Str) ++ reason

def completedMessage (err : Str) : Str := ("failed to parse ResponseCompleted: " : Str) ++ err

def failedMessage : Str := "response.failed event received"

def completed (resp : ResponseCompleted) : ResponseEvent I :=
  .completed resp.id (resp.usage.map .ofUsage) false

def done (resp : ResponseDone) : ResponseEvent I :=
  .completed (resp.id.getD []) (resp.usage.map .ofUsage) true

/-- The event of a response that is read without failure, or the error to store. -/
def finished {α : Type} (event : α → ResponseEvent I) :
    Except Str α → Except ApiError (Option (ResponseEvent I))
  | .ok resp => .ok (some (event resp))
  | .error err => .error (.stream (completedMessage err))

def processResponsesEvent (event : ResponsesStreamEvent V) :
    Except Panic (Except ApiError (Option (ResponseEvent I))) :=
  match kindOf event.kind with
  | .outputItemDone => .ok (.ok ((event.item.bind serde.responseItem).map .outputItemDone))
  | .outputTextDelta => .ok (.ok (event.delta.map .outputTextDelta))
  | .reasoningSummaryTextDelta =>
    .ok (.ok (event.delta.bind fun delta => event.summaryIndex.map (.reasoningSummaryDelta delta)))
  | .reasoningTextDelta =>
    .ok (.ok (event.delta.bind fun delta => event.contentIndex.map (.reasoningContentDelta delta)))
  | .created => .ok (.ok (event.response.map fun _ => .created))
  | .failed =>
    match failedError serde event.response with
    | some error => (apiError error).map .error
    | none => .ok (.error (.stream failedMessage))
  | .incomplete =>
    .ok (.error (.stream (incompleteMessage (incompleteReason serde event.response))))
  | .completed =>
    match event.response with
    | some response => .ok (finished completed (serde.responseCompleted response))
    | none => .ok (.ok none)
  | .done =>
    match event.response with
    | some response => .ok (finished done (serde.responseDone response))
    | none => .ok (.ok (some (.completed [] none true)))
  | .outputItemAdded => .ok (.ok ((event.item.bind serde.responseItem).map .outputItemAdded))
  | .reasoningSummaryPartAdded => .ok (.ok (event.summaryIndex.map .reasoningSummaryPartAdded))
  | .other => .ok (.ok none)

/-! ## The stream -/

/-- What a poll of the stream gives; where the list of them ends, the stream is closed. -/
inductive Poll where
  | payload (data : Str)
  /-- of the transport or the format, with its text -/
  | error (e : Str)
  | timeout

abbrev Sent (I : Type) := List (Except ApiError (ResponseEvent I))

structure Outcome (I : Type) where
  sent : Sent I
  panicked : Bool

def Outcome.after (event : ResponseEvent I) (outcome : Outcome I) : Outcome I :=
  { outcome with sent := .ok event :: outcome.sent }

def ended (error : ApiError) : Outcome I := ⟨[.error error], false⟩

def closed : ApiError := .stream ("stream closed before response.completed" : Str)

def idle : ApiError := .stream ("idle timeout waiting for SSE" : Str)

/-- A payload that cannot be read is passed over like an event without effect. -/
def processPayload (data : Str) : Except Panic (Except ApiError (Option (ResponseEvent I))) :=
  match serde.fromStr data with
  | some event => processResponsesEvent serde event
  | none => .ok (.ok none)

/-- The loop, from one of its turns on. -/
def processSseFrom : Option ApiError → List Poll → Outcome I
  | responseError, [] => ended (responseError.getD closed)
  | _, .error e :: _ => ended (.stream e)
  | _, .timeout :: _ => ended idle
  | responseError, .payload data :: polls =>
    match processPayload serde data with
    | .error _ => ⟨[], true⟩
    | .ok (.ok none) => processSseFrom responseError polls
    | .ok (.ok (some event)) =>
      if event.isCompleted then ⟨[.ok event], false⟩
      else (processSseFrom responseError polls).after event
    | .ok (.error error) => processSseFrom (some error) polls

def processSse (polls : List Poll) : Outcome I := processSseFrom serde none polls

/-! ## What should be sent -/

/-- `response.failed` or `response.incomplete` -/
def Fails (data : Str) : Prop :=
  ∃ event, serde.fromStr data = some event ∧
    (kindOf event.kind = .failed ∨ kindOf event.kind = .incomplete)

def recognised (data : Str) : Option (ResponseEvent I) :=
  match processPayload serde data with
  | .ok (.ok event) => event
  | _ => none

/-- The events in order and one item more, the completion or an error. After a failure a completion
gives an error too. -/
inductive Delivers : Bool → List Poll → Sent I → Prop where
  | closed (failed : Bool) (error : ApiError) : Delivers failed [] [.error error]
  | error (failed : Bool) (e : Str) (polls : List Poll) (error : ApiError) :
      Delivers failed (.error e :: polls) [.error error]
  | timeout (failed : Bool) (polls : List Poll) (error : ApiError) :
      Delivers failed (.timeout :: polls) [.error error]
  | passed {failed : Bool} {data : Str} {polls : List Poll} {sent : Sent I}
      (notFails : ¬Fails serde data) (nothing : recognised serde data = none)
      (rest : Delivers failed polls sent) : Delivers failed (.payload data :: polls) sent
  | fails {failed : Bool} {data : Str} {polls : List Poll} {sent : Sent I}
      (fails : Fails serde data) (rest : Delivers true polls sent) :
      Delivers failed (.payload data :: polls) sent
  | goesOn {failed : Bool} {data : Str} {polls : List Poll} {event : ResponseEvent I}
      {sent : Sent I} (recognises : recognised serde data = some event) (goesOn : event.isCompleted = false)
      (rest : Delivers failed polls sent) :
      Delivers failed (.payload data :: polls) (.ok event :: sent)
  | completes {data : Str} {event : ResponseEvent I} (polls : List Poll)
      (recognises : recognised serde data = some event) (completes : event.isCompleted = true) :
      Delivers false (.payload data :: polls) [.ok event]
  | rejected {data : Str} {event : ResponseEvent I} (polls : List Poll) (error : ApiError)
      (recognises : recognised serde data = some event) (completes : event.isCompleted = true) :
      Delivers true (.payload data :: polls) [.error error]

/-- What the task should do with a stream. -/
def Correct (polls : List Poll) : Prop :=
  (processSse serde polls).panicked = false ∧
    Delivers serde false polls (processSse serde polls).sent

/-- A completion that can be read; a `response.done` may have no response. -/
def ResponsesStreamEvent.Completes (event : ResponsesStreamEvent V) : Prop :=
  kindOf event.kind = .completed ∧ (∃ response resp, event.response = some response ∧
      serde.responseCompleted response = .ok resp) ∨
    kindOf event.kind = .done ∧
      ∀ response, event.response = some response → ∃ resp, serde.responseDone response = .ok resp

def Completes (data : Str) : Prop :=
  ∃ event, serde.fromStr data = some event ∧ event.Completes serde

/-- A rate limit whose text tells to wait for 2⁶⁴ - 2¹⁰ seconds at least. -/
def Error.TooLong (error : Error) : Prop :=
  error.code = some rateLimitExceeded ∧ ∃ message captured, error.message = some message ∧
    captures message = some captured ∧ captured.inSeconds = true ∧
    (2 ^ 64 - 2 ^ 10) * captured.denominator ≤ captured.numerator

/-- A failure over such a rate limit. -/
def Overflows (data : Str) : Prop :=
  ∃ event error, serde.fromStr data = some event ∧ kindOf event.kind = .failed ∧
    failedError serde event.response = some error ∧ error.TooLong

/-- The payloads before `data`, in a stream that gets as far as `data`. -/
def Reached (polls : List Poll) (before : List Str) (data : Str) : Prop :=
  (before ++ [data]).map .payload <+: polls ∧ ∀ earlier ∈ before, ¬Completes serde earlier

variable {serde} {data : Str} {event : ResponsesStreamEvent V} {captured : Captures}
  {error : Error}

/-! ## The panic -/

theorem fromSecsF64_value :
    fromSecsF64 captured.value = .error .tooBig ↔
      (2 ^ 64 - 2 ^ 10) * captured.denominator ≤ captured.numerator := by
  have hden : 0 < captured.denominator := Nat.pow_pos (by decide)
  have hvalue : 2 ^ 64 * Float64.one ≤ captured.value ↔
      (2 ^ 64 - 2 ^ 10) * captured.denominator ≤ captured.numerator :=
    Float64.pow_le_ofFraction_iff hden (by decide)
  rw [← hvalue, fromSecsF64]
  split
  next hbig => exact ⟨fun _ => hbig, fun _ => rfl⟩
  next hsmall => exact ⟨nofun, fun hbig => absurd hbig hsmall⟩

theorem delay_eq_error :
    captured.delay = .error .tooBig ↔ captured.inSeconds = true ∧
      (2 ^ 64 - 2 ^ 10) * captured.denominator ≤ captured.numerator := by
  rw [← fromSecsF64_value, Captures.delay]
  split
  next hunit =>
    rw [and_iff_right hunit]
    exact Result.map_eq_error_iff
  next hunit =>
    split
    · exact ⟨nofun, fun h => absurd h.1 hunit⟩
    · exact ⟨nofun, fun h => absurd h.1 hunit⟩

theorem tryParseRetryAfter_eq_error :
    tryParseRetryAfter error = .error .tooBig ↔ error.TooLong := by
  rw [tryParseRetryAfter, Error.TooLong]
  split
  next hcode =>
    rw [and_iff_right hcode]
    constructor
    · intro h
      split at h
      next captured hcaptures =>
        obtain ⟨message, hmessage, hcaptured⟩ := Option.bind_eq_some_iff.1 hcaptures
        exact ⟨message, captured, hmessage, hcaptured, delay_eq_error.1 h⟩
      next => cases h
    · rintro ⟨message, captured, hmessage, hcaptured, hlong⟩
      rw [hmessage, Option.bind_some, hcaptured]
      exact delay_eq_error.2 hlong
  next hcode => exact ⟨nofun, fun h => absurd h.1 hcode⟩

example : tryParseRetryAfter ⟨some rateLimitExceeded, some "Please try again in 11.054s. Visit"⟩ =
    .ok (some 11054000000) := by
  decide +kernel

theorem apiError_of_rateLimit (hcode : error.code = some rateLimitExceeded) :
    apiError error = (tryParseRetryAfter error).map (.retryable (error.message.getD [])) := by
  have hcontext : isContextWindowError error = false := by rw [isContextWindowError, hcode]; decide
  have hquota : isQuotaExceededError error = false := by rw [isQuotaExceededError, hcode]; decide
  have husage : isUsageNotIncluded error = false := by rw [isUsageNotIncluded, hcode]; decide
  have hprompt : isInvalidPromptError error = false := by rw [isInvalidPromptError, hcode]; decide
  have hserver : isServerOverloadedError error = false := by
    rw [isServerOverloadedError, hcode]
    decide
  simp only [apiError, hcontext, hquota, husage, hprompt, hserver, Bool.false_eq_true, if_false]

theorem apiError_eq_error : apiError error = .error .tooBig ↔ error.TooLong := by
  rw [← tryParseRetryAfter_eq_error]
  constructor
  · intro h
    unfold apiError at h
    repeat' split at h
    all_goals first | cases h | exact Result.map_eq_error_iff.1 h
  · intro h
    rw [apiError_of_rateLimit (tryParseRetryAfter_eq_error.1 h).1]
    exact Result.map_eq_error_iff.2 h

theorem processResponsesEvent_eq_error :
    processResponsesEvent serde event = .error .tooBig ↔ kindOf event.kind = .failed ∧
      ∃ error, failedError serde event.response = some error ∧ error.TooLong := by
  constructor
  · intro h
    unfold processResponsesEvent at h
    split at h
    case h_6 hkind =>
      split at h
      next error herror =>
        exact ⟨hkind, error, herror, apiError_eq_error.1 (Result.map_eq_error_iff.1 h)⟩
      next => cases h
    case h_8 | h_9 => split at h <;> cases h
    all_goals cases h
  · rintro ⟨hkind, error, herror, hlong⟩
    simp only [processResponsesEvent, hkind, herror]
    exact Result.map_eq_error_iff.2 (apiError_eq_error.2 hlong)

theorem processPayload_eq_error :
    processPayload serde data = .error .tooBig ↔ Overflows serde data := by
  rw [processPayload, Overflows]
  split
  next event hevent =>
    rw [processResponsesEvent_eq_error]
    constructor
    · rintro ⟨hkind, error, herror, hlong⟩
      exact ⟨event, error, hevent, hkind, herror, hlong⟩
    · rintro ⟨event', error, hevent', hkind, herror, hlong⟩
      cases hevent.symm.trans hevent'
      exact ⟨hkind, error, herror, hlong⟩
  next hnone =>
    refine ⟨nofun, ?_⟩
    rintro ⟨event, error, hevent, -⟩
    cases hnone.symm.trans hevent

/-! ## Completions and failures -/

theorem finished_eq_some {α : Type} {f : α → ResponseEvent I} {read : Except Str α}
    {sent : ResponseEvent I} :
    finished f read = .ok (some sent) ↔ ∃ resp, read = .ok resp ∧ sent = f resp := by
  cases read with
  | ok resp =>
    constructor
    · rintro ⟨⟩
      exact ⟨resp, rfl, rfl⟩
    · rintro ⟨resp', ⟨⟩, rfl⟩
      rfl
  | error err =>
    refine ⟨nofun, ?_⟩
    rintro ⟨resp, ⟨⟩, -⟩

theorem processResponsesEvent_completes :
    (∃ sent, processResponsesEvent serde event = .ok (.ok (some sent)) ∧ sent.isCompleted = true) ↔
      event.Completes serde := by
  rw [ResponsesStreamEvent.Completes]
  constructor
  · rintro ⟨sent, h, hsent⟩
    unfold processResponsesEvent at h
    split at h
    case h_8 hkind =>
      split at h
      next response hresponse =>
        obtain ⟨resp, hresp, -⟩ := finished_eq_some.1 (Except.ok.inj h)
        exact .inl ⟨hkind, response, resp, hresponse, hresp⟩
      next => cases h
    case h_9 hkind =>
      refine .inr ⟨hkind, fun response hresponse => ?_⟩
      rw [hresponse] at h
      obtain ⟨resp, hresp, -⟩ := finished_eq_some.1 (Except.ok.inj h)
      exact ⟨resp, hresp⟩
    case h_6 =>
      split at h
      next error herror =>
        obtain ⟨_, -, hmap⟩ := Result.exists_of_map_eq_ok h
        cases hmap
      next => cases h
    case h_3 | h_4 =>
      obtain ⟨delta, -, hindex⟩ := Option.bind_eq_some_iff.1 (Except.ok.inj (Except.ok.inj h))
      obtain ⟨index, -, rfl⟩ := Option.map_eq_some_iff.1 hindex
      cases hsent
    case h_7 | h_12 => cases h
    -- the arms that give at most one event, which is no completion
    all_goals
      obtain ⟨_, -, rfl⟩ := Option.map_eq_some_iff.1 (Except.ok.inj (Except.ok.inj h))
      cases hsent
  · rintro (⟨hkind, response, resp, hresponse, hresp⟩ | ⟨hkind, hdone⟩)
    · refine ⟨completed resp, ?_, rfl⟩
      simp only [processResponsesEvent, hkind, hresponse, hresp, finished]
    · cases hresponse : event.response with
      | none =>
        refine ⟨.completed [] none true, ?_, rfl⟩
        simp only [processResponsesEvent, hkind, hresponse]
      | some response =>
        obtain ⟨resp, hresp⟩ := hdone response hresponse
        refine ⟨done resp, ?_, rfl⟩
        simp only [processResponsesEvent, hkind, hresponse, hresp, finished]

theorem processPayload_completes :
    (∃ sent, processPayload serde data = .ok (.ok (some sent)) ∧ sent.isCompleted = true) ↔
      Completes serde data := by
  rw [processPayload, Completes]
  split
  next event hevent =>
    rw [processResponsesEvent_completes]
    constructor
    · intro hcompletes
      exact ⟨event, hevent, hcompletes⟩
    · rintro ⟨event', hevent', hcompletes⟩
      cases hevent.symm.trans hevent'
      exact hcompletes
  next hnone =>
    constructor
    · rintro ⟨sent, ⟨⟩, -⟩
    · rintro ⟨event, hevent, -⟩
      cases hnone.symm.trans hevent

/-- A failure gives an error to store, unless it panics. -/
theorem not_fails {read : Option (ResponseEvent I)}
    (h : processPayload serde data = .ok (.ok read)) : ¬Fails serde data := by
  rintro ⟨event, hevent, hkind⟩
  rw [processPayload, hevent] at h
  rcases hkind with hkind | hkind
  · simp only [processResponsesEvent, hkind] at h
    split at h
    · obtain ⟨_, -, hmap⟩ := Result.exists_of_map_eq_ok h
      cases hmap
    · cases h
  · simp only [processResponsesEvent, hkind] at h
    cases h

theorem not_overflows {read : Except ApiError (Option (ResponseEvent I))}
    (h : processPayload serde data = .ok read) : ¬Overflows serde data := fun hoverflows => by
  cases (processPayload_eq_error.2 hoverflows).symm.trans h

theorem not_completes {read : Except ApiError (Option (ResponseEvent I))}
    (h : processPayload serde data = .ok read)
    (hread : ∀ event, read = .ok (some event) → event.isCompleted = false) :
    ¬Completes serde data := fun hcompletes => by
  obtain ⟨event, hevent, hsent⟩ := processPayload_completes.2 hcompletes
  have hnot := hread event (Except.ok.inj (h.symm.trans hevent))
  rw [hsent] at hnot
  cases hnot

/-! ## The condition -/

section

variable {polls : List Poll} {failed : Bool}

/-- The condition for a stream in which there has been a failure or not. -/
def Expected (serde : Serde V I) (failed : Bool) (polls : List Poll) : Prop :=
  ∀ before data, Reached serde polls before data → ¬Overflows serde data ∧
    (Completes serde data → failed = false ∧ ∀ earlier ∈ before, ¬Fails serde earlier)

theorem reached_cons {before : List Str} {data' : Str} {poll : Poll} :
    Reached serde (poll :: polls) before data' ↔
      before = [] ∧ poll = .payload data' ∨
      ∃ earlier before', before = earlier :: before' ∧ poll = .payload earlier ∧
        ¬Completes serde earlier ∧ Reached serde polls before' data' := by
  cases before with
  | nil => simp [Reached, eq_comm]
  | cons earlier before =>
    simp only [Reached, List.cons_append, List.map_cons, List.cons_prefix_cons,
      List.forall_mem_cons, List.cons.injEq]
    constructor
    · rintro ⟨⟨hpoll, hprefix⟩, hearlier, hbefore⟩
      exact .inr ⟨earlier, before, ⟨rfl, rfl⟩, hpoll.symm, hearlier, hprefix, hbefore⟩
    · rintro (⟨⟨⟩, -⟩ | ⟨_, _, ⟨rfl, rfl⟩, hpoll, hearlier, hprefix, hbefore⟩)
      exact ⟨⟨hpoll.symm, hprefix⟩, hearlier, hbefore⟩

theorem expected_nil : Expected serde failed [] := by
  rintro before data ⟨hbegins, -⟩
  simp at hbegins

theorem expected_cons_of_ne {poll : Poll} (hpoll : ∀ data, poll ≠ .payload data) :
    Expected serde failed (poll :: polls) := by
  intro before data hreached
  rcases reached_cons.1 hreached with ⟨-, h⟩ | ⟨earlier, -, -, h, -⟩
  · exact absurd h (hpoll data)
  · exact absurd h (hpoll earlier)

theorem expected_cons_of_completes (hcompletes : Completes serde data) :
    Expected serde failed (.payload data :: polls) ↔
      ¬Overflows serde data ∧ failed = false := by
  constructor
  · intro h
    obtain ⟨hoverflows, hfailed⟩ := h [] data (reached_cons.2 (.inl ⟨rfl, rfl⟩))
    exact ⟨hoverflows, (hfailed hcompletes).1⟩
  · rintro ⟨hoverflows, hfailed⟩ before data' hreached
    rcases reached_cons.1 hreached with ⟨rfl, h⟩ | ⟨_, _, -, h, hnot, -⟩
    · cases h
      exact ⟨hoverflows, fun _ => ⟨hfailed, nofun⟩⟩
    · cases h
      exact absurd hcompletes hnot

/-- The failures count from here on. -/
theorem expected_cons {failed' : Bool} (hcompletes : ¬Completes serde data)
    (hoverflows : ¬Overflows serde data)
    (hfailed : failed' = false ↔ failed = false ∧ ¬Fails serde data) :
    Expected serde failed (.payload data :: polls) ↔ Expected serde failed' polls := by
  constructor
  · intro h before data' hreached
    obtain ⟨hpanics, hbefore⟩ := h (data :: before) data'
      (reached_cons.2 (.inr ⟨data, before, rfl, rfl, hcompletes, hreached⟩))
    refine ⟨hpanics, fun hcompletes' => ?_⟩
    obtain ⟨hnot, hall⟩ := hbefore hcompletes'
    obtain ⟨hdata, hall⟩ := List.forall_mem_cons.1 hall
    exact ⟨hfailed.2 ⟨hnot, hdata⟩, hall⟩
  · intro h before data' hreached
    rcases reached_cons.1 hreached with ⟨rfl, hpoll⟩ | ⟨_, before', rfl, hpoll, -, hreached'⟩
    · cases hpoll
      exact ⟨hoverflows, fun hcompletes' => absurd hcompletes' hcompletes⟩
    · cases hpoll
      obtain ⟨hpanics, hbefore⟩ := h before' data' hreached'
      refine ⟨hpanics, fun hcompletes' => ?_⟩
      obtain ⟨hnot, hall⟩ := hbefore hcompletes'
      obtain ⟨hnot, hdata⟩ := hfailed.1 hnot
      exact ⟨hnot, List.forall_mem_cons.2 ⟨hdata, hall⟩⟩

/-! ## What is sent -/

variable {sent : Sent I} {event : ResponseEvent I}

theorem recognised_of_ok {read : Option (ResponseEvent I)}
    (h : processPayload serde data = .ok (.ok read)) : recognised serde data = read := by
  rw [recognised, h]

theorem recognised_of_error {error : ApiError}
    (h : processPayload serde data = .ok (.error error)) : recognised serde data = none := by
  rw [recognised, h]

/-- What is not an event sends nothing, and is remembered if it is a failure. -/
theorem delivers_of_nothing {failed' : Bool} (hnothing : recognised serde data = none)
    (hfailed : failed' = false ↔ failed = false ∧ ¬Fails serde data) :
    Delivers serde failed (.payload data :: polls) sent ↔ Delivers serde failed' polls sent := by
  have hsame (hfails : ¬Fails serde data) : failed = failed' :=
    Bool.eq_iff_iff.2 (by simpa [hfails] using not_congr hfailed.symm)
  have htrue (hfails : Fails serde data) : failed' = true :=
    Bool.eq_true_of_not_eq_false fun h => (hfailed.1 h).2 hfails
  constructor
  · intro h
    cases h with
    | passed hfails _ rest => exact hsame hfails ▸ rest
    | fails hfails rest => exact htrue hfails ▸ rest
    | goesOn hevent _ _ | completes _ hevent _ | rejected _ _ hevent _ =>
      cases hnothing.symm.trans hevent
  · intro h
    by_cases hfails : Fails serde data
    · exact .fails hfails (htrue hfails ▸ h)
    · exact .passed hfails hnothing (hsame hfails ▸ h)

theorem delivers_of_goesOn (hfails : ¬Fails serde data)
    (hevent : recognised serde data = some event) (hgoes : event.isCompleted = false) :
    Delivers serde failed (.payload data :: polls) (.ok event :: sent) ↔
      Delivers serde failed polls sent := by
  constructor
  · intro h
    cases h with
    | passed _ hnothing _ => cases hnothing.symm.trans hevent
    | fails hdata _ => exact absurd hdata hfails
    | goesOn _ _ rest => exact rest
    | completes _ _ hends => cases hends.symm.trans hgoes
  · exact .goesOn hevent hgoes

theorem delivers_of_completes (hfails : ¬Fails serde data)
    (hevent : recognised serde data = some event) (hends : event.isCompleted = true) :
    Delivers serde failed (.payload data :: polls) [.ok event] ↔ failed = false := by
  constructor
  · intro h
    cases h with
    | passed _ hnothing _ => cases hnothing.symm.trans hevent
    | fails hdata _ => exact absurd hdata hfails
    | goesOn _ hgoes _ => cases hends.symm.trans hgoes
    | completes _ _ _ => rfl
  · rintro rfl
    exact .completes polls hevent hends

/-- One turn after the other, whatever error has been stored. -/
theorem processSseFrom_correct (failed : Bool) (responseError : Option ApiError)
    (polls : List Poll) :
    (processSseFrom serde responseError polls).panicked = false ∧
        Delivers serde failed polls (processSseFrom serde responseError polls).sent ↔
      Expected serde failed polls := by
  induction polls generalizing failed responseError with
  | nil => exact iff_of_true ⟨rfl, .closed failed _⟩ expected_nil
  | cons poll polls ih =>
    cases poll with
    | error e => exact iff_of_true ⟨rfl, .error failed e polls _⟩ (expected_cons_of_ne nofun)
    | timeout => exact iff_of_true ⟨rfl, .timeout failed polls _⟩ (expected_cons_of_ne nofun)
    | payload data =>
      rw [processSseFrom]
      split
      next panic hread =>
        cases panic
        refine iff_of_false (fun h => nomatch h.1) fun h => ?_
        exact (h [] data (reached_cons.2 (.inl ⟨rfl, rfl⟩))).1 (processPayload_eq_error.1 hread)
      next hread =>
        have hfailed : failed = false ↔ failed = false ∧ ¬Fails serde data :=
          ⟨fun h => ⟨h, not_fails hread⟩, And.left⟩
        rw [delivers_of_nothing (recognised_of_ok hread) hfailed, ih,
          expected_cons (not_completes hread nofun) (not_overflows hread) hfailed]
      next event hread =>
        have hfails := not_fails hread
        have hevent := recognised_of_ok hread
        split
        next hends =>
          rw [delivers_of_completes hfails hevent hends,
            expected_cons_of_completes (processPayload_completes.1 ⟨event, hread, hends⟩)]
          exact and_congr_left fun _ => iff_of_true rfl (not_overflows hread)
        next hgoes =>
          have hgoes := Bool.eq_false_of_not_eq_true hgoes
          have hcompletes : ¬Completes serde data := not_completes hread fun event' h => by
            cases h
            exact hgoes
          have hafter : ∀ outcome : Outcome I, (outcome.after event).panicked = false ∧
              Delivers serde failed (.payload data :: polls) (outcome.after event).sent ↔
                outcome.panicked = false ∧ Delivers serde failed polls outcome.sent :=
            fun _ => and_congr_right fun _ => delivers_of_goesOn hfails hevent hgoes
          rw [hafter, ih, expected_cons hcompletes (not_overflows hread)
            ⟨fun h => ⟨h, hfails⟩, And.left⟩]
      next error hread =>
        obtain ⟨failed', hfailed⟩ : ∃ failed',
            failed' = false ↔ failed = false ∧ ¬Fails serde data := by
          by_cases hfails : Fails serde data
          · exact ⟨true, nofun, fun h => absurd hfails h.2⟩
          · exact ⟨failed, fun h => ⟨h, hfails⟩, And.left⟩
        rw [delivers_of_nothing (recognised_of_error hread) hfailed, ih,
          expected_cons (not_completes hread nofun) (not_overflows hread) hfailed]

/-- One item ends what is sent; it is an error where there has been a failure. -/
theorem Delivers.ends (h : Delivers serde failed polls sent) :
    ∃ (events : List (ResponseEvent I)) (terminal : Except ApiError (ResponseEvent I)),
      sent = events.map .ok ++ [terminal] ∧
      (∀ event ∈ events, event.isCompleted = false) ∧
      ((∃ error, terminal = .error error) ∨
        failed = false ∧ ∃ event, terminal = .ok event ∧ event.isCompleted = true) := by
  induction h with
  | closed _ error | error _ _ _ error | timeout _ _ error | rejected _ error _ _ =>
    exact ⟨[], .error error, rfl, nofun, .inl ⟨error, rfl⟩⟩
  | passed _ _ _ ih => exact ih
  | fails _ _ ih =>
    obtain ⟨events, terminal, hsent, hevents, hterminal | ⟨⟨⟩, -⟩⟩ := ih
    exact ⟨events, terminal, hsent, hevents, .inl hterminal⟩
  | @goesOn _ _ _ event _ _ hgoes _ ih =>
    obtain ⟨events, terminal, rfl, hevents, hterminal⟩ := ih
    exact ⟨event :: events, terminal, rfl, List.forall_mem_cons.2 ⟨hgoes, hevents⟩, hterminal⟩
  | @completes _ event _ _ hends => exact ⟨[], .ok event, rfl, nofun, .inr ⟨rfl, event, rfl, hends⟩⟩

/-- What the loop does where it goes no further. -/
inductive Stops (serde : Serde V I) : List Poll → Outcome I → Prop
  | failed {polls : List Poll} (error : ApiError) (h : ∀ data, polls.head? ≠ some (.payload data)) :
    Stops serde polls (ended error)
  | overflows {data : Str} (polls : List Poll) (h : Overflows serde data) :
    Stops serde (.payload data :: polls) ⟨[], true⟩
  | completes {data : Str} {event : ResponseEvent I} (polls : List Poll)
    (h : recognised serde data = some event) (hends : event.isCompleted = true) :
    Stops serde (.payload data :: polls) ⟨[.ok event], false⟩

/-- Every event of the payloads before the stop is sent, once and in order, then what the stop
sends. -/
def SentUntilStop (serde : Serde V I) (polls : List Poll) (outcome : Outcome I) : Prop :=
  ∃ (datas : List Str) (rest : List Poll) (stop : Outcome I),
    polls = datas.map .payload ++ rest ∧
    (∀ data ∈ datas, ¬Overflows serde data ∧
      ∀ event, recognised serde data = some event → event.isCompleted = false) ∧
    Stops serde rest stop ∧
    outcome = ⟨(datas.filterMap (recognised serde)).map .ok ++ stop.sent, stop.panicked⟩

theorem Stops.sentUntilStop {outcome : Outcome I} (h : Stops serde polls outcome) :
    SentUntilStop serde polls outcome :=
  ⟨[], polls, outcome, rfl, nofun, h, rfl⟩

theorem SentUntilStop.payload {outcome : Outcome I} (h : SentUntilStop serde polls outcome)
    (hsafe : ¬Overflows serde data)
    (hgoes : ∀ event, recognised serde data = some event → event.isCompleted = false) :
    SentUntilStop serde (.payload data :: polls)
      ⟨(recognised serde data).toList.map .ok ++ outcome.sent, outcome.panicked⟩ := by
  obtain ⟨datas, rest, stop, rfl, hdatas, hstop, rfl⟩ := h
  refine ⟨data :: datas, rest, stop, rfl, List.forall_mem_cons.2 ⟨⟨hsafe, hgoes⟩, hdatas⟩, hstop, ?_⟩
  cases hread : recognised serde data with
  | none => rw [List.filterMap_cons_none hread]; rfl
  | some event => rw [List.filterMap_cons_some hread]; rfl

/-- For every stream, there is one item more after the events, an error or the completion, unless
the task panics. -/
theorem processSse_sentUntilStop (serde : Serde V I) (polls : List Poll) :
    SentUntilStop serde polls (processSse serde polls) := by
  suffices hfrom : ∀ responseError,
      SentUntilStop serde polls (processSseFrom serde responseError polls) from hfrom none
  induction polls with
  | nil => exact fun _ => (Stops.failed _ (fun _ => by simp)).sentUntilStop
  | cons poll polls ih =>
    intro responseError
    cases poll with
    | error | timeout => exact (Stops.failed _ (fun _ => by simp)).sentUntilStop
    | payload data =>
      rw [processSseFrom]
      split
      next panic hread =>
        cases panic
        exact (Stops.overflows _ (processPayload_eq_error.1 hread)).sentUntilStop
      next hread =>
        have hnone := recognised_of_ok hread
        have hsent := (ih responseError).payload (not_overflows hread) (by simp [hnone])
        rwa [hnone] at hsent
      next event hread =>
        have hevent := recognised_of_ok hread
        split
        next hends => exact (Stops.completes polls hevent hends).sentUntilStop
        next hgoes =>
          have hsent := (ih responseError).payload (not_overflows hread) (by simp [hevent, hgoes])
          rwa [hevent] at hsent
      next error hread =>
        have hnone := recognised_of_error hread
        have hsent := (ih (some error)).payload (not_overflows hread) (by simp [hnone])
        rwa [hnone] at hsent

/-- A stream is handled as it should be if no payload that it gets to tells to wait for too long or
completes a response that has failed. -/
theorem correct_iff_reached (serde : Serde V I) (polls : List Poll) :
    Correct serde polls ↔
      ∀ before data, Reached serde polls before data → ¬Overflows serde data ∧
        (Completes serde data → ∀ earlier ∈ before, ¬Fails serde earlier) := by
  rw [Correct, processSse, processSseFrom_correct]
  constructor
  · intro h before data hreached
    obtain ⟨hoverflows, hbefore⟩ := h before data hreached
    exact ⟨hoverflows, fun hcompletes => (hbefore hcompletes).2⟩
  · intro h before data hreached
    obtain ⟨hoverflows, hbefore⟩ := h before data hreached
    exact ⟨hoverflows, fun hcompletes => ⟨rfl, hbefore hcompletes⟩⟩

end

/-! ## Streams that go wrong -/

/-- JSON values of objects and strings. -/
inductive Json where
  | string (s : Str)
  | object (fields : List (Str × Json))

namespace Json

def get : Json → Str → Option Json
  | object fields, key => fields.lookup key
  | string _, _ => none

def asStr : Json → Option Str
  | string s => some s
  | object _ => none

def text (json : Json) (key : Str) : Option Str := (json.get key).bind asStr

def streamEvent (json : Json) : Option (ResponsesStreamEvent Json) :=
  (json.text ("type" : Str)).map fun kind =>
    { kind := kind
      response := json.get ("response" : Str)
      item := json.get ("item" : Str)
      delta := json.text ("delta" : Str)
      summaryIndex := none
      contentIndex := none }

/-- The values of the payloads that are known. -/
def reader (payloads : List (Str × Json)) : Serde Json Unit where
  fromStr data := (payloads.lookup data).bind streamEvent
  get := get
  asStr := asStr
  responseItem _ := none
  error json := some ⟨json.text ("code" : Str), json.text ("message" : Str)⟩
  responseCompleted json :=
    match json.text ("id" : Str) with
    | some id => .ok ⟨id, none⟩
    | none => .error ("missing field `id`" : Str)
  responseDone json := .ok ⟨json.text ("id" : Str), none⟩

end Json

/-! The payloads of the runs, with their values. -/

def incompleteData : Str := "\x7b\"type\":\"response.incomplete\"\x7d"

def completedData : Str :=
  "\x7b\"type\":\"response.completed\",\"response\":\x7b\"id\":\"resp1\"\x7d\x7d"

def rateLimitData : Str :=
  "\x7b\"type\":\"response.failed\",\"response\":\x7b\"error\":\x7b" ++
    "\"code\":\"rate_limit_exceeded\"," ++
    "\"message\":\"Try again in 99999999999999999999s.\"\x7d\x7d\x7d"

def rateLimit : Json :=
  .object [(("code" : Str), .string rateLimitExceeded),
    (("message" : Str), .string "Try again in 99999999999999999999s.")]

def payloads : List (Str × Json) :=
  [(incompleteData, .object [(("type" : Str), .string "response.incomplete")]),
    (completedData, .object [(("type" : Str), .string "response.completed"),
      (("response" : Str), .object [(("id" : Str), .string "resp1")])]),
    (rateLimitData, .object [(("type" : Str), .string "response.failed"),
      (("response" : Str), .object [(("error" : Str), rateLimit)])])]

theorem fails_incomplete : Fails (Json.reader payloads) incompleteData :=
  ⟨⟨"response.incomplete", none, none, none, none, none⟩, by rfl, .inr (by decide +kernel)⟩

theorem not_completes_incomplete : ¬Completes (Json.reader payloads) incompleteData := by
  have hread : processPayload (Json.reader payloads) incompleteData =
      .ok (.error (.stream (incompleteMessage "unknown"))) := by rfl
  exact not_completes hread nofun

theorem completes_completed : Completes (Json.reader payloads) completedData :=
  ⟨⟨"response.completed", some (.object [(("id" : Str), .string "resp1")]), none, none, none, none⟩,
    by rfl, .inl ⟨by decide +kernel, _, ⟨"resp1", none⟩, rfl, by rfl⟩⟩

/-- A completion comes through after a failure, and a long time to wait ends the task without a
word. -/
theorem not_correct_payloads :
    (processSse (Json.reader payloads) [.payload incompleteData, .payload completedData]).sent =
        [.ok (.completed "resp1" none false)] ∧
      ¬Correct (Json.reader payloads) [.payload incompleteData, .payload completedData] ∧
      (processSse (Json.reader payloads) [.payload rateLimitData]).panicked = true ∧
      ¬Correct (Json.reader payloads) [.payload rateLimitData] := by
  have hpanicked :
      (processSse (Json.reader payloads) [.payload rateLimitData]).panicked = true := by
    decide +kernel
  refine ⟨by decide +kernel, ?_, hpanicked, ?_⟩
  · rw [Correct, processSse, processSseFrom_correct]
    intro h
    have hreached : Reached (Json.reader payloads)
        [.payload incompleteData, .payload completedData] [incompleteData] completedData :=
      ⟨List.prefix_refl _, List.forall_mem_singleton.2 not_completes_incomplete⟩
    have hnot := ((h [incompleteData] completedData hreached).2 completes_completed).2
    exact hnot incompleteData (List.mem_singleton_self _) fails_incomplete
  · intro h
    rw [Correct, hpanicked] at h
    exact nomatch h.1

end SheriMl.ResponsesSse
